import GambitCore.Blockchain.Integrity
import GambitCore.Submission

/-!
# Transactions over RPC

`handle_sendRawTransaction` and `handle_getTransactionByHash` of `rpc_server.cpp`. The first
decodes, validates and enqueues a transaction and answers with its hash; the second looks for a
hash in the mempool and then in the blocks.

A transaction that was enqueued stays where the second handler looks. `mineBlock` empties the
mempool only after it has put a block of it on the chain, a call that throws leaves it as it is, and
nothing takes a block off the chain.

## Main definitions

* `Reply`, `sendRawTransaction`, `getTransactionByHash`
* `Blockchain.Holds` — a transaction is pending or in a block
* `RpcAct`, `rpcMachine` — requests as they interleave with the calls into the chain

## Main results

* `sendRawTransaction_eq_run` — the handler is the steps of a submission with nothing in between
* `Blockchain.Holds.next` — no call loses a transaction
* `accepted_stays_findable` — a hash that was answered is found from then on
-/

namespace Gambit

open Rlp

/-! ### Replies -/

/-- What a handler answers a request with. -/
inductive Reply
  | result (json : Str)
  | error (code : Int) (message : Str)

/-- The `id` of a reply. -/
def safeId (id : Str) : Str := if id.isEmpty then str "null" else id

/-- `jsonError`. -/
def jsonError (id : Str) (code : Int) (message : Str) : Str :=
  str "\x7b\"jsonrpc\":\"2.0\",\"error\":\x7b\"code\":" ++ str (toString code) ++
    str ",\"message\":\"" ++ message ++ str "\"\x7d,\"id\":" ++ safeId id ++ str "\x7d"

/-- `jsonResult`. -/
def jsonResult (id resultJson : Str) : Str :=
  str "\x7b\"jsonrpc\":\"2.0\",\"result\":" ++ resultJson ++ str ",\"id\":" ++ safeId id ++
    str "\x7d"

/-- The text of a reply. -/
def Reply.text (id : Str) : Reply → Str
  | result json => jsonResult id json
  | error code message => jsonError id code message

/-- A text in quotation marks. -/
def quoted (s : Str) : Str := str "\"" ++ s ++ str "\""

theorem quoted_injective : Function.Injective quoted := by
  intro s t h
  exact List.append_cancel_left (List.append_cancel_right h)

/-! ### The handlers -/

/-- The hash a submission is answered with. -/
def Transaction.answeredHash (tx : Transaction) : Str :=
  if tx.hash.isEmpty then tx.computeHash else tx.hash

/-- `handle_sendRawTransaction` up to the text of the reply. -/
def sendRawTransaction (S : Secp256k1) (bc : Blockchain) (txHex : Str) : Blockchain × Reply :=
  match Transaction.fromHex S txHex with
  | .error e => (bc, .error (-32602) (str e.what))
  | .ok tx =>
    match bc.validateTransaction S tx with
    | .error err => (bc, .error (-32000) (str err))
    | .ok () => (bc.addTransaction tx, .result (quoted tx.answeredHash))

/-- `handle_sendRawTransaction`. -/
def handleSendRawTransaction (S : Secp256k1) (bc : Blockchain) (id txHex : Str) :
    Blockchain × Str :=
  let (bc, reply) := sendRawTransaction S bc txHex
  (bc, reply.text id)

/-- The object of a transaction, with the members behind `hash`. -/
def txObject (hash members : Str) : Str :=
  str "\x7b\"hash\":\"" ++ hash ++ str "\"," ++ members ++ str "\x7d"

/-- The members a transaction has in the mempool and in a block. -/
def txMembers (tx : Transaction) : Str :=
  str "\"from\":\"" ++ tx.from_.toHex true ++ str "\",\"to\":\"" ++ tx.to_.toHex true ++
    str "\",\"value\":\"0x" ++ toHex (encodeUint tx.value) ++
    str "\",\"nonce\":\"0x" ++ toHex (encodeUint tx.nonce) ++ str "\""

/-- The members that say where a transaction was mined. -/
def blockMembers (b : Block) : Str :=
  str "\"blockHash\":\"" ++ b.hash ++ str "\",\"blockNumber\":\"0x" ++
    toHex (encodeUint b.index) ++ str "\","

/-- `handle_getTransactionByHash` up to the text of the reply: the mempool first, and then the
blocks. -/
def getTransactionByHash (bc : Blockchain) (hashHex : Str) : Reply :=
  match bc.mempool.find? (·.hash = hashHex) with
  | some tx => .result (txObject tx.hash (txMembers tx))
  | none =>
    match bc.chain.findSome? fun b =>
        (b.transactions.find? (·.hash = hashHex)).map fun tx => (b, tx) with
    | some (b, tx) => .result (txObject tx.hash (blockMembers b ++ txMembers tx))
    | none => .result (str "null")

/-- `handle_getTransactionByHash`. -/
def handleGetTransactionByHash (bc : Blockchain) (id hashHex : Str) : Str :=
  (getTransactionByHash bc hashHex).text id

/-! ### Where a transaction is -/

/-- The transaction is pending or in a block. -/
def Blockchain.Holds (bc : Blockchain) (tx : Transaction) : Prop :=
  tx ∈ bc.mempool ∨ ∃ b ∈ bc.chain, tx ∈ b.transactions

/-- A transaction that is held is found, or another one with its hash. -/
theorem Blockchain.Holds.getTransactionByHash {bc : Blockchain} {tx : Transaction}
    (h : bc.Holds tx) :
    ∃ members, getTransactionByHash bc tx.hash = .result (txObject tx.hash members) := by
  unfold Gambit.getTransactionByHash
  split
  · next tx' hfind =>
    have hhash : tx'.hash = tx.hash := by simpa using List.find?_some hfind
    exact ⟨txMembers tx', by rw [hhash]⟩
  next hnone =>
  obtain hpending | ⟨b, hb, hmined⟩ := h
  · exact absurd (List.find?_eq_none.mp hnone tx hpending) (by simp)
  split
  · next hfind =>
    obtain ⟨b', -, hmap⟩ := List.exists_of_findSome?_eq_some hfind
    obtain ⟨tx', hfirst, heq⟩ := Option.map_eq_some_iff.mp hmap
    obtain ⟨rfl, rfl⟩ := Prod.mk.inj heq
    have hhash : tx'.hash = tx.hash := by simpa using List.find?_some hfirst
    exact ⟨blockMembers b' ++ txMembers tx', by rw [hhash]⟩
  · next hnone =>
    have hblock := List.findSome?_eq_none_iff.mp hnone b hb
    rw [Option.map_eq_none_iff, List.find?_eq_none] at hblock
    exact absurd (hblock tx hmined) (by simp)

/-- No call loses a transaction. -/
theorem Blockchain.Holds.next {bc : Blockchain} {tx : Transaction} (h : bc.Holds tx) (op : Op) :
    (op.next bc).Holds tx := by
  rcases bc.next_cases op with ⟨hchain, hstays⟩ | ⟨block, hchain, -, -, hstays⟩
  · rw [Holds, hchain]
    exact h.imp_left fun hpending => hstays hpending
  · rw [Holds, hchain]
    obtain hpending | ⟨b, hb, hmined⟩ := h
    · obtain hstays | hblock := hstays
      · exact Or.inl (hstays hpending)
      -- What was pending is in the new block.
      · rw [← hblock] at hpending
        exact Or.inr ⟨block, List.mem_append_right _ (List.mem_singleton_self _), hpending⟩
    · exact Or.inr ⟨b, List.mem_append_left _ hb, hmined⟩

/-! ### Requests and the chain -/

variable (S : Secp256k1)

/-- What the handler answers at a step of a submission. One of a peer has the same steps, and nobody
to see the answer. -/
def Act.replies (node : NodeState) : Act → List Reply
  | .decode raw =>
    match Transaction.fromHex S raw with
    | .ok _ => []
    | .error e => [.error (-32602) (str e.what)]
  | .validate i =>
    match node.inFlight[i]? with
    | some ⟨tx, false⟩ =>
      match node.chain.validateTransaction S tx with
      | .ok () => []
      | .error err => [.error (-32000) (str err)]
    | _ => []
  | .add i =>
    match node.inFlight[i]? with
    | some ⟨tx, true⟩ => [.result (quoted tx.answeredHash)]
    | _ => []
  | .mine _ => []

/-- A step of a submission, a call into the chain, a template, or a request. -/
inductive RpcAct
  | submission (act : Act)
  | call (op : Op)
  /-- `ZkMiningEngine::buildBlockTemplate`, which writes nothing. -/
  | buildBlockTemplate (now : UInt64)
  | getTransactionByHash (hashHex : Str)

/-- What a client sees. -/
inductive RpcEvent
  /-- The reply to `eth_sendRawTransaction`. -/
  | sent (reply : Reply)
  /-- A template for the miner. -/
  | template (block : Result Block)
  /-- The reply to `eth_getTransactionByHash`. -/
  | found (hashHex : Str) (reply : Reply)

/-- The node a step leaves. -/
def RpcAct.next (node : NodeState) : RpcAct → NodeState
  | submission act => act.next S node
  | call op => { node with chain := op.next node.chain }
  | buildBlockTemplate _ => node
  | getTransactionByHash _ => node

/-- What a step makes visible. -/
def RpcAct.events (node : NodeState) : RpcAct → List RpcEvent
  | submission act => (act.replies S node).map .sent
  | call _ => []
  | buildBlockTemplate now => [.template (node.chain.buildBlockTemplate now)]
  | getTransactionByHash hashHex =>
    [.found hashHex (Gambit.getTransactionByHash node.chain hashHex)]

/-- The node with its RPC server as a machine. -/
def rpcMachine : Machine NodeState RpcAct RpcEvent :=
  ⟨fun node act => (act.next S node, act.events S node)⟩

/-- `handle_sendRawTransaction` is the three steps of a submission with nothing in between. -/
theorem sendRawTransaction_eq_run (bc : Blockchain) (txHex : Str) :
    let run := (rpcMachine S).run ⟨bc, []⟩
      [.submission (.decode txHex), .submission (.validate 0), .submission (.add 0)]
    run.1.chain = (sendRawTransaction S bc txHex).1 ∧
      run.2 = [.sent (sendRawTransaction S bc txHex).2] := by
  unfold sendRawTransaction
  cases hdecode : Transaction.fromHex S txHex with
  | error e =>
    simp [Machine.run_cons, rpcMachine, RpcAct.next, RpcAct.events, Act.next, Act.replies, hdecode]
  | ok tx =>
    cases hvalid : bc.validateTransaction S tx with
    | error e =>
      simp [Machine.run_cons, rpcMachine, RpcAct.next, RpcAct.events, Act.next, Act.replies, hdecode,
        hvalid]
    | ok u =>
      simp [Machine.run_cons, rpcMachine, RpcAct.next, RpcAct.events, Act.next, Act.replies, hdecode,
        hvalid]

variable {S}

/-! ### What a step can do -/

namespace Act

variable {node : NodeState} {act : Act}

/-- A step of a submission leaves the chain alone, or is a call into it. -/
theorem chain_next_cases (S : Secp256k1) (node : NodeState) (act : Act) :
    (act.next S node).chain = node.chain ∨
      ∃ op : Op, (act.next S node).chain = op.next node.chain := by
  cases act with
  | decode raw =>
    simp only [Act.next]
    split <;> exact Or.inl rfl
  | validate i =>
    simp only [Act.next]
    split
    · split <;> exact Or.inl rfl
    · exact Or.inl rfl
  | add i =>
    simp only [Act.next]
    split
    · next tx _ => exact Or.inr ⟨.addTransaction tx, rfl⟩
    · exact Or.inl rfl
  | mine now => exact Or.inr ⟨.mineBlock now, rfl⟩

/-- A submission under way was under way before, or has just been decoded. -/
theorem mem_inFlight_next {sub : Submission} (h : sub ∈ (act.next S node).inFlight) :
    (∃ old ∈ node.inFlight, old.tx = sub.tx) ∨ ∃ raw, Transaction.fromHex S raw = .ok sub.tx := by
  have hold : sub ∈ node.inFlight → ∃ old ∈ node.inFlight, old.tx = sub.tx := fun hsub =>
    ⟨sub, hsub, rfl⟩
  cases act with
  | decode raw =>
    simp only [Act.next] at h
    split at h
    · next tx htx =>
      rcases List.mem_append.mp h with hsub | hnew
      · exact Or.inl (hold hsub)
      · obtain rfl := List.mem_singleton.mp hnew
        exact Or.inr ⟨raw, htx⟩
    · exact Or.inl (hold h)
  | validate i =>
    simp only [Act.next] at h
    split at h
    · next tx htx =>
      split at h
      · rcases List.mem_or_eq_of_mem_set h with hsub | rfl
        · exact Or.inl (hold hsub)
        · exact Or.inl ⟨_, List.mem_of_getElem? htx, rfl⟩
      · exact Or.inl (hold (List.mem_of_mem_eraseIdx h))
    · exact Or.inl (hold h)
  | add i =>
    simp only [Act.next] at h
    split at h
    · exact Or.inl (hold (List.mem_of_mem_eraseIdx h))
    · exact Or.inl (hold h)
  | mine now => exact Or.inl (hold h)

/-- Only the step that enqueues a transaction answers with a result. -/
theorem eq_add_of_result {json : Str} (h : .result json ∈ act.replies S node) :
    ∃ i tx, act = .add i ∧ node.inFlight[i]? = some ⟨tx, true⟩ ∧ json = quoted tx.answeredHash := by
  cases act with
  | decode raw =>
    simp only [Act.replies] at h
    split at h <;> simp at h
  | validate i =>
    simp only [Act.replies] at h
    split at h
    · split at h <;> simp at h
    · simp at h
  | add i =>
    simp only [Act.replies] at h
    split at h
    · next tx htx =>
      obtain rfl : json = quoted tx.answeredHash := by simpa using h
      exact ⟨i, tx, rfl, htx, rfl⟩
    · simp at h
  | mine now => simp [Act.replies] at h

end Act

/-- No step loses a transaction. -/
theorem RpcAct.holds_next {node : NodeState} {tx : Transaction} (h : node.chain.Holds tx)
    (act : RpcAct) : (act.next S node).chain.Holds tx := by
  cases act with
  | submission act =>
    rw [RpcAct.next]
    obtain hsame | ⟨op, hop⟩ := act.chain_next_cases S node
    · rw [hsame]
      exact h
    · rw [hop]
      exact h.next op
  | call op => exact h.next op
  | buildBlockTemplate now => exact h
  | getTransactionByHash hashHex => exact h

/-- A submission under way carries the hash `fromHex` has put in. -/
def Hashed (node : NodeState) : Prop := ∀ sub ∈ node.inFlight, sub.tx.hash ≠ []

theorem Hashed.next {node : NodeState} (h : Hashed node) (act : RpcAct) :
    Hashed (act.next S node) := by
  cases act with
  | submission act =>
    intro sub hsub
    obtain ⟨old, hold, htx⟩ | ⟨raw, hraw⟩ := act.mem_inFlight_next hsub
    · rw [← htx]
      exact h old hold
    · rw [(Transaction.derived_of_fromHex hraw).1]
      exact sub.tx.computeHash_ne_nil
  | call op => exact h
  | buildBlockTemplate now => exact h
  | getTransactionByHash hashHex => exact h

/-- The transaction behind an answer is pending, with the answered hash. -/
theorem Hashed.holds_of_sent {node : NodeState} (h : Hashed node) {act : RpcAct} {hash : Str}
    (hsent : .sent (.result (quoted hash)) ∈ act.events S node) :
    ∃ tx, (act.next S node).chain.Holds tx ∧ tx.hash = hash := by
  cases act with
  | submission act =>
    obtain ⟨reply, hreply, heq⟩ := List.mem_map.mp hsent
    obtain rfl := RpcEvent.sent.inj heq
    obtain ⟨i, tx, rfl, htx, hquoted⟩ := Act.eq_add_of_result hreply
    have hne : tx.hash ≠ [] := h _ (List.mem_of_getElem? htx)
    refine ⟨tx, Or.inl ?_, ?_⟩
    · simp only [RpcAct.next, Act.next, htx]
      exact List.mem_append_right _ (List.mem_singleton_self tx)
    · rw [quoted_injective hquoted, Transaction.answeredHash, if_neg (by simpa using hne)]
  | call op => simp [RpcAct.events] at hsent
  | buildBlockTemplate now => simp [RpcAct.events] at hsent
  | getTransactionByHash hashHex => simp [RpcAct.events] at hsent

/-! ### Whole runs -/

/-- A lookup of an answered hash finds an object with that hash. -/
def Finds (answer lookup : RpcEvent) : Prop :=
  ∀ hash reply, answer = .sent (.result (quoted hash)) → lookup = .found hash reply →
    ∃ members, reply = .result (txObject hash members)

/-- A step does not answer and look up at once. -/
theorem pairwise_events (node : NodeState) (act : RpcAct) : (act.events S node).Pairwise Finds := by
  cases act with
  | submission act =>
    apply List.pairwise_map.mpr
    apply List.pairwise_of_forall
    intro _ _ hash reply _ hfound
    cases hfound
  | call op => exact List.Pairwise.nil
  | buildBlockTemplate now => exact List.pairwise_singleton _ _
  | getTransactionByHash hashHex => exact List.pairwise_singleton _ _

theorem eq_getTransactionByHash_of_found {node : NodeState} {act : RpcAct} {hash : Str}
    {reply : Reply} (h : .found hash reply ∈ act.events S node) :
    reply = getTransactionByHash node.chain hash := by
  cases act with
  | submission act => simp [RpcAct.events] at h
  | call op => simp [RpcAct.events] at h
  | buildBlockTemplate now => simp [RpcAct.events] at h
  | getTransactionByHash hashHex =>
    obtain ⟨rfl, rfl⟩ :
        hash = hashHex ∧ reply = Gambit.getTransactionByHash node.chain hashHex := by
      simpa [RpcAct.events] using h
    rfl

/-- What a run keeps: the transaction behind each answered hash is held, and the lookups so far have
found what was answered before them. -/
structure Findable (node : NodeState) (history : List RpcEvent) : Prop where
  hashed : Hashed node
  held : ∀ hash, .sent (.result (quoted hash)) ∈ history →
    ∃ tx, node.chain.Holds tx ∧ tx.hash = hash
  finds : history.Pairwise Finds

theorem Findable.step {node : NodeState} {history : List RpcEvent} (h : Findable node history)
    (act : RpcAct) : Findable (act.next S node) (history ++ act.events S node) := by
  refine ⟨h.hashed.next act, fun hash hsent => ?_, ?_⟩
  · rcases List.mem_append.mp hsent with hold | hnew
    · obtain ⟨tx, hholds, hhash⟩ := h.held hash hold
      exact ⟨tx, RpcAct.holds_next hholds act, hhash⟩
    · exact h.hashed.holds_of_sent hnew
  · rw [List.pairwise_append]
    refine ⟨h.finds, pairwise_events node act, ?_⟩
    rintro answer hanswer lookup hlookup hash reply rfl rfl
    obtain ⟨tx, hholds, rfl⟩ := h.held hash hanswer
    rw [eq_getTransactionByHash_of_found hlookup]
    exact hholds.getTransactionByHash

/-- In every run, a lookup that follows the answer to a submission finds the transaction. -/
theorem accepted_stays_findable (S : Secp256k1) (bc : Blockchain) (acts : List RpcAct) :
    ((rpcMachine S).run ⟨bc, []⟩ acts).2.Pairwise Finds := by
  have hstart : Findable ⟨bc, []⟩ [] := ⟨by simp [Hashed], by simp, List.Pairwise.nil⟩
  have hguard : (rpcMachine S).Guarded (fun _ _ => True) ⟨bc, []⟩ acts :=
    (rpcMachine S).guarded_of_forall (fun _ _ => trivial) _ _
  have hrun := Machine.run_history Findable (fun node history act h _ => h.step act) hstart hguard
  exact hrun.finds

/-! ### One transfer -/

/-- A transfer is sent, mined and looked up. -/
theorem run_submitOnce_lookup {bc : Blockchain} (hid : bc.chainId = 1)
    (hstate : bc.state = State.empty) :
    ∃ hash reply, ((rpcMachine devLib).run ⟨bc, []⟩
      (submitOnce.map .submission ++ [.getTransactionByHash hash])).2 =
        [.sent (.result (quoted hash)), .found hash reply] := by
  obtain ⟨tx, hdecode, h⟩ := fromHex_devSigned
  simp [submitOnce, Machine.run_cons, rpcMachine, RpcAct.next, RpcAct.events, Act.next,
    Act.replies, hdecode, h.validate hid hstate]

theorem accepted_stays_findable_submitOnce :
    ∃ hash reply members,
      ((rpcMachine devLib).run ⟨freshChain, []⟩
        (submitOnce.map .submission ++ [.getTransactionByHash hash])).2 =
          [.sent (.result (quoted hash)), .found hash reply] ∧
      reply = .result (txObject hash members) := by
  obtain ⟨hash, reply, hevents⟩ := @run_submitOnce_lookup freshChain rfl rfl
  have hfinds := accepted_stays_findable devLib freshChain
    (submitOnce.map .submission ++ [.getTransactionByHash hash])
  rw [hevents] at hfinds
  obtain ⟨members, hmembers⟩ := (List.pairwise_pair.mp hfinds) _ _ rfl rfl
  exact ⟨hash, reply, members, hevents, hmembers⟩

end Gambit
