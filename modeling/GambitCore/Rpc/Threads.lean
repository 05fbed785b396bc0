import GambitCore.Rpc.Responses
import Mathlib.Data.List.Perm.Basic

/-!
# The threads of the clients

`acceptLoop` starts a detached thread for each client, and the thread runs `handleClient`: one
`recv`, the handler, one `send`. The threads share the chain with the rest of the node, and no lock
is held from one of their calls to the next. A step here is one call into the chain or one read of
it. `handle_sendRawTransaction` validates in one call and enqueues in another, and
`handle_getTransactionByHash` reads the mempool and then the blocks; every other handler reads the
chain once. What a read sees while another thread moves the blocks in memory is left undefined by
the language, and here it sees the chain as it is between two calls.

## Main definitions

* `ClientPhase`, `ClientPhase.next` — where the thread of a client is, and its steps
* `Server`, `ServerAct`, `serverMachine` — the node together with its clients
* `Process.Extends` — a process with some more submissions under way

## Main results

* `run_thread` — a thread that nothing interrupts does what `handleClient` does
* `exists_process_run` — for the node, every run with clients is a run of the process
-/

namespace Gambit

open Codec Codec.Json

/-! ### The steps of a thread -/

/-- A request, if it could be parsed, and the answer to it. -/
structure Exchange where
  asked : Option Value
  response : Str

/-- The answer to a request that was parsed. -/
def Exchange.reply (req : Value) (reply : Reply) : Exchange :=
  ⟨some req, httpResponse (reply.text (requestId req)) (str "200 OK")⟩

/-- Where the thread of a client is. -/
inductive ClientPhase
  /-- Before `recv`. The client sends these bytes. -/
  | connected (stream : Str)
  /-- Behind `recv`, with what it has handed over. -/
  | read (httpReq : Str)
  /-- In `handle_sendRawTransaction`, behind `Transaction::fromHex`. -/
  | decoded (req : Value) (tx : Transaction)
  /-- In `handle_sendRawTransaction`, behind `validateTransaction`. -/
  | validated (req : Value) (tx : Transaction)
  /-- In `handle_getTransactionByHash`, when nothing was found in the mempool. -/
  | searching (req : Value) (hashHex : Str)
  /-- Before `send`. -/
  | answered (e : Exchange)
  | closed

/-- The loop of `handle_getTransactionByHash` over the blocks. -/
def searchBlocks (bc : Blockchain) (hashHex : Str) : Reply :=
  match bc.chain.findSome? fun b =>
      (b.transactions.find? (·.hash = hashHex)).map fun tx => (b, tx) with
  | some (b, tx) => .result (txObject tx.hash (blockMembers b ++ txMembers tx))
  | none => .result (str "null")

/-- The handler of a request up to its first call or read. -/
def beginRequest (S : Secp256k1) (bc : Blockchain) (req : Value) : ClientPhase :=
  match submissionOf req, lookupOf req with
  | some txHex, _ =>
    match Transaction.fromHex S txHex with
    | .ok tx => .decoded req tx
    | .error e => .answered (.reply req (.error (-32602) (str e.what)))
  | none, some (.getTransactionByHash hashHex) =>
    match bc.mempool.find? (·.hash = hashHex) with
    | some tx => .answered (.reply req (.result (txObject tx.hash (txMembers tx))))
    | none => .searching req hashHex
  | none, _ => .answered (.reply req (replyOf (dispatch S bc req)))

/-- A step of the handler. -/
def ClientPhase.next (J : JsonLibrary) (S : Secp256k1) (bc : Blockchain) :
    ClientPhase → Blockchain × ClientPhase
  | read httpReq =>
    match asked J httpReq with
    | some req => (bc, beginRequest S bc req)
    | none => (bc, .answered ⟨none, (handleRequest J S bc httpReq).2⟩)
  | decoded req tx =>
    match bc.validateTransaction S tx with
    | .ok () => (bc, .validated req tx)
    | .error err => (bc, .answered (.reply req (.error (-32000) (str err))))
  | validated req tx =>
    (bc.addTransaction tx, .answered (.reply req (.result (quoted tx.answeredHash))))
  | searching req hashHex => (bc, .answered (.reply req (searchBlocks bc hashHex)))
  | phase => (bc, phase)

/-- The node, and the threads of its clients in the order of `accept`. -/
structure Server where
  node : Process
  clients : List ClientPhase

/-- The server when a step of the thread of client `k` leaves this chain and phase. -/
def Server.advance (s : Server) (k : ℕ) (result : Blockchain × ClientPhase) : Server :=
  ⟨{ s.node with chain := result.1 }, s.clients.set k result.2⟩

inductive ServerAct
  /-- A step of the process. -/
  | process (act : ProcessAct)
  /-- `accept`, for a client that sends these bytes. -/
  | accept (stream : Str)
  /-- `recv` in the thread of client `k`, when `n` bytes have arrived. -/
  | recv (k n : ℕ)
  /-- A step of the handler in the thread of client `k`. -/
  | handle (k : ℕ)
  /-- `send` and `close` in the thread of client `k`. -/
  | send (k : ℕ)

/-- A step of a living node, and the answers it sends, each with its client. -/
def ServerAct.step (J : JsonLibrary) (S : Secp256k1) (s : Server) :
    ServerAct → Server × List (ℕ × Exchange)
  | process act => ({ s with node := ((processMachine S).step s.node act).1 }, [])
  | accept stream => ({ s with clients := s.clients ++ [.connected stream] }, [])
  | recv k n =>
    match s.clients[k]? with
    | some (.connected stream) =>
      match received stream n with
      | [] => (s.advance k (s.node.chain, .closed), [])
      | httpReq => (s.advance k (s.node.chain, .read httpReq), [])
    | _ => (s, [])
  | handle k =>
    match s.clients[k]? with
    | some phase => (s.advance k (phase.next J S s.node.chain), [])
    | none => (s, [])
  | send k =>
    match s.clients[k]? with
    | some (.answered e) => (s.advance k (s.node.chain, .closed), [(k, e)])
    | _ => (s, [])

/-- The node with its clients as a machine. With the process its threads end. -/
def serverMachine (J : JsonLibrary) (S : Secp256k1) : Machine Server ServerAct (ℕ × Exchange) :=
  ⟨fun s act => if s.node.alive then act.step J S s else (s, [])⟩

variable {J : JsonLibrary} {S : Secp256k1}

/-- A step is one of a living node, or it is nothing. -/
theorem Server.step_eq_or (J : JsonLibrary) (S : Secp256k1) (s : Server) (act : ServerAct) :
    (serverMachine J S).step s act = act.step J S s ∨
      (serverMachine J S).step s act = (s, []) := by
  by_cases halive : s.node.alive
  · exact .inl (if_pos halive)
  · exact .inr (if_neg halive)

/-! ### A thread without interruptions -/

theorem handleRequest_of_not_asked {httpReq : Str} (h : asked J httpReq = none) (bc : Blockchain) :
    (handleRequest J S bc httpReq).1 = bc := by
  cases hbody : bodyOf httpReq with
  | none => rw [handleRequest_of_no_body hbody]
  | some body =>
    rw [asked, hbody] at h
    rw [handleRequest_of_not_parsed hbody h]

theorem handleRequest_of_asked {httpReq : Str} {req : Value} (h : asked J httpReq = some req)
    (bc : Blockchain) :
    handleRequest J S bc httpReq =
      ((execute S bc req).1, httpResponse (execute S bc req).2 (str "200 OK")) := by
  obtain ⟨body, hbody, hparse⟩ := Option.bind_eq_some_iff.mp h
  exact handleRequest_of_parsed hbody hparse bc

theorem lookupOf_of_submission {req : Value} {txHex : Str} (h : submissionOf req = some txHex) :
    lookupOf req = none :=
  lookupOf_eq_none (method_of_submission h).1 (not_lookup_names (by simp))

theorem getTransactionByHash_of_not_pending {bc : Blockchain} {hashHex : Str}
    (h : bc.mempool.find? (·.hash = hashHex) = none) :
    getTransactionByHash bc hashHex = searchBlocks bc hashHex := by
  rw [getTransactionByHash, h]
  rfl

/-- The handler after three steps on one chain. -/
def handled (J : JsonLibrary) (S : Secp256k1) (bc : Blockchain) (phase : ClientPhase) :
    Blockchain × ClientPhase :=
  let first := phase.next J S bc
  let second := first.2.next J S first.1
  second.2.next J S second.1

/-- What the handler of a request that was parsed does in the two steps behind its first. -/
theorem next_next_beginRequest (bc : Blockchain) (req : Value) :
    let first := (beginRequest S bc req).next J S bc
    first.2.next J S first.1 = ((execute S bc req).1,
      .answered ⟨some req, httpResponse (execute S bc req).2 (str "200 OK")⟩) := by
  cases hsub : submissionOf req with
  | some txHex =>
    rw [execute_of_submission hsub, sendRawTransaction]
    cases hread : Transaction.fromHex S txHex with
    | error e => simp [beginRequest, hsub, hread, ClientPhase.next, Exchange.reply]
    | ok tx =>
      cases hvalid : bc.validateTransaction S tx with
      | error err => simp [beginRequest, hsub, hread, ClientPhase.next, hvalid, Exchange.reply]
      | ok u => simp [beginRequest, hsub, hread, ClientPhase.next, hvalid, Exchange.reply]
  | none =>
    have hexecute : execute S bc req =
        (bc, (replyOf (dispatch S bc req)).text (requestId req)) :=
      Prod.ext (chain_execute hsub bc) (execute_snd S bc req)
    rw [hexecute]
    -- Only a search of the blocks takes a second step.
    cases hlookup : lookupOf req with
    | none => simp [beginRequest, hsub, hlookup, ClientPhase.next, Exchange.reply]
    | some r =>
      cases r with
      | getTransactionByHash hashHex =>
        have hreply : replyOf (dispatch S bc req) = getTransactionByHash bc hashHex := by
          rw [dispatch_of_lookup hlookup]
          rfl
        rw [hreply]
        cases hfind : bc.mempool.find? (·.hash = hashHex) with
        | some tx =>
          simp [beginRequest, hsub, hlookup, hfind, ClientPhase.next, Exchange.reply,
            getTransactionByHash]
        | none =>
          rw [getTransactionByHash_of_not_pending hfind]
          simp [beginRequest, hsub, hlookup, hfind, ClientPhase.next, Exchange.reply]
      | _ => simp [beginRequest, hsub, hlookup, ClientPhase.next, Exchange.reply]

/-- Three steps without interruption are `handleRequest`. -/
theorem handled_read (bc : Blockchain) (httpReq : Str) :
    handled J S bc (.read httpReq) = ((handleRequest J S bc httpReq).1,
      .answered ⟨asked J httpReq, (handleRequest J S bc httpReq).2⟩) := by
  cases hasked : asked J httpReq with
  | none =>
    have hchain := handleRequest_of_not_asked (S := S) hasked bc
    simp only [handled, ClientPhase.next, hasked]
    rw [hchain]
  | some req =>
    rw [handleRequest_of_asked hasked]
    simp only [handled, ClientPhase.next, hasked]
    exact next_next_beginRequest bc req

theorem Server.advance_advance (s : Server) (k : ℕ) (result result' : Blockchain × ClientPhase) :
    (s.advance k result).advance k result' = s.advance k result' := by
  simp only [advance, List.set_set]

theorem step_handle {s : Server} (halive : s.node.alive = true) {k : ℕ} {phase : ClientPhase}
    (hk : s.clients[k]? = some phase) :
    (serverMachine J S).step s (.handle k) = (s.advance k (phase.next J S s.node.chain), []) := by
  have hstep : (serverMachine J S).step s (.handle k) = (ServerAct.handle k).step J S s :=
    if_pos halive
  rw [hstep, ServerAct.step, hk]

theorem step_handle_advance {s : Server} (halive : s.node.alive = true) {k : ℕ}
    (hk : k < s.clients.length) (result : Blockchain × ClientPhase) :
    (serverMachine J S).step (s.advance k result) (.handle k) =
      (s.advance k (result.2.next J S result.1), []) := by
  have hphase : (s.advance k result).clients[k]? = some result.2 := List.getElem?_set_self hk
  have halive' : (s.advance k result).node.alive = true := halive
  rw [step_handle halive' hphase, s.advance_advance]
  rfl

/-- A thread that nothing interrupts does what `handleClient` does. -/
theorem run_thread {s : Server} (halive : s.node.alive = true) {k : ℕ} {stream : Str}
    (hk : s.clients[k]? = some (.connected stream)) (n : ℕ) :
    (serverMachine J S).run s [.recv k n, .handle k, .handle k, .handle k, .send k] =
      (s.advance k ((handleClient J S s.node.chain stream n).1, .closed),
        ((handleClient J S s.node.chain stream n).2.map fun resp =>
          (k, ⟨asked J (received stream n), resp⟩)).toList) := by
  obtain ⟨hlt, -⟩ := List.getElem?_eq_some_iff.mp hk
  have hrecv : (serverMachine J S).step s (.recv k n) = (ServerAct.recv k n).step J S s :=
    if_pos halive
  -- Whatever `recv` leaves, three steps of the handler follow, and then `send`.
  have hrest (phase : ClientPhase) :
      (serverMachine J S).run (s.advance k (s.node.chain, phase))
          [.handle k, .handle k, .handle k, .send k] =
        (ServerAct.send k).step J S (s.advance k (handled J S s.node.chain phase)) := by
    have hsend (result : Blockchain × ClientPhase) :
        (serverMachine J S).step (s.advance k result) (.send k) =
          (ServerAct.send k).step J S (s.advance k result) := if_pos halive
    rw [Machine.run_cons, step_handle_advance halive hlt, Machine.run_cons,
      step_handle_advance halive hlt, Machine.run_cons, step_handle_advance halive hlt,
      Machine.run_cons, hsend, Machine.run_nil, List.append_nil]
    rfl
  have hphase (result : Blockchain × ClientPhase) :
      (s.advance k result).clients[k]? = some result.2 := List.getElem?_set_self hlt
  rw [Machine.run_cons, hrecv]
  by_cases hnil : received stream n = []
  · have hclosed : (ServerAct.recv k n).step J S s =
        (s.advance k (s.node.chain, .closed), []) := by
      simp only [ServerAct.step, hk, hnil]
    rw [hclosed, hrest, handleClient_of_nil hnil]
    simp only [ServerAct.step, hphase, handled, ClientPhase.next]
    rfl
  · have hread : (ServerAct.recv k n).step J S s =
        (s.advance k (s.node.chain, .read (received stream n)), []) := by
      simp only [ServerAct.step, hk]
    rw [hread, hrest, handleClient_of_ne_nil hnil, handled_read]
    simp only [ServerAct.step, hphase, s.advance_advance]
    rfl

/-! ### Submissions of clients as submissions of the process -/

/-- `node'` is `node` with more submissions under way, in any order. -/
structure Process.Extends (extra : List Submission) (node node' : Process) : Prop where
  chain_eq : node'.chain = node.chain
  main_eq : node'.main = node.main
  loop_eq : node'.loop = node.loop
  inFlight : node'.inFlight.Perm (node.inFlight ++ extra)

/-- A submission can be found by its index, and taken out or replaced there. -/
theorem exists_index {subs rest : List Submission} {sub : Submission}
    (h : subs.Perm (sub :: rest)) :
    ∃ i, subs[i]? = some sub ∧ (subs.eraseIdx i).Perm rest ∧
      ∀ sub', (subs.set i sub').Perm (sub' :: rest) := by
  have hmem : sub ∈ subs := h.mem_iff.mpr List.mem_cons_self
  obtain ⟨i, hi, rfl⟩ := List.getElem_of_mem hmem
  have herase : (subs.eraseIdx i).Perm rest :=
    ((List.getElem_cons_eraseIdx_perm hi).trans h).cons_inv
  exact ⟨i, List.getElem?_eq_getElem hi, herase, fun sub' =>
    (List.set_perm_cons_eraseIdx hi sub').trans (herase.cons sub')⟩

/-- The elements that count in a list, when one of the list is replaced. -/
theorem exists_filterMap_set {α β : Type*} (f : α → Option β) {l : List α} {k : ℕ} {a : α}
    (hk : l[k]? = some a) :
    ∃ rest, (l.filterMap f).Perm ((f a).toList ++ rest) ∧
      ∀ a', ((l.set k a').filterMap f).Perm ((f a').toList ++ rest) := by
  obtain ⟨hlt, rfl⟩ := List.getElem?_eq_some_iff.mp hk
  refine ⟨(l.eraseIdx k).filterMap f, ?_, fun a' => ?_⟩
  · have hperm := (List.getElem_cons_eraseIdx_perm hlt).symm.filterMap f
    cases hf : f l[k] with
    | none => rwa [List.filterMap_cons_none hf] at hperm
    | some b => rwa [List.filterMap_cons_some hf] at hperm
  · have hperm := (List.set_perm_cons_eraseIdx hlt a').filterMap f
    cases hf : f a' with
    | none => rwa [List.filterMap_cons_none hf] at hperm
    | some b => rwa [List.filterMap_cons_some hf] at hperm

theorem Process.run_singleton {node : Process} (halive : node.alive = true) (act : ProcessAct) :
    ((processMachine S).run node [act]).1 = (act.step S node).1 := by
  have hstep : (processMachine S).step node act = act.step S node := if_pos halive
  rw [Machine.run_cons, hstep, Machine.run_nil]

namespace Process.Extends

variable {extra : List Submission} {node node' : Process}

theorem alive_eq (h : Extends extra node node') : node'.alive = node.alive :=
  Process.alive_congr h.main_eq

theorem congr (h : Extends extra node node') {extra' : List Submission}
    (hperm : extra.Perm extra') : Extends extra' node node' :=
  ⟨h.chain_eq, h.main_eq, h.loop_eq, h.inFlight.trans (hperm.append_left _)⟩

/-- One of the submissions, wherever it is counted. -/
theorem congr_submissions {node₁ : Process} {extra₁ : List Submission}
    (h : Extends extra node node') (hchain : node₁.chain = node.chain)
    (hmain : node₁.main = node.main) (hloop : node₁.loop = node.loop)
    (hperm : (node.inFlight ++ extra).Perm (node₁.inFlight ++ extra₁)) :
    Extends extra₁ node₁ node' :=
  ⟨h.chain_eq.trans hchain.symm, h.main_eq.trans hmain.symm, h.loop_eq.trans hloop.symm,
    h.inFlight.trans hperm⟩

/-! Steps of the two processes. -/

theorem mainStep (h : Extends extra node node') (now : UInt64) :
    Extends extra (node.mainStep now).1 (node'.mainStep now).1 := by
  obtain ⟨hchain, hmain, hloop, hinFlight⟩ := h
  unfold Process.mainStep
  rw [hmain, hchain]
  split
  · exact ⟨hchain, hmain, hloop, hinFlight⟩
  · split
    · exact ⟨rfl, rfl, hloop, hinFlight⟩
    · exact ⟨rfl, rfl, hloop, hinFlight⟩
  · split
    · exact ⟨hchain, rfl, hloop, hinFlight⟩
    · exact ⟨hchain, rfl, hloop, hinFlight⟩
  · exact ⟨hchain, hmain, hloop, hinFlight⟩

theorem loopStep (h : Extends extra node node') (now : UInt64) :
    Extends extra (node.loopStep now).1 (node'.loopStep now).1 := by
  obtain ⟨hchain, hmain, hloop, hinFlight⟩ := h
  unfold Process.loopStep
  rw [hloop, hchain]
  split
  · exact ⟨rfl, hmain, rfl, hinFlight⟩
  · exact ⟨hchain, hmain, rfl, hinFlight⟩
  · exact ⟨hchain, hmain, rfl, hinFlight⟩

/-- The text of a submission is decoded in the larger process alone. -/
theorem decode_extra (h : Extends extra node node') {raw : Str} {tx : Transaction}
    (htx : Transaction.fromHex S raw = .ok tx) :
    Extends (⟨tx, false⟩ :: extra) node (node'.submit S (.decode raw)) := by
  have hsubmit : (node'.submit S (.decode raw)).inFlight = node'.inFlight ++ [⟨tx, false⟩] := by
    simp only [submit, Act.next, htx]
  refine ⟨(node'.submit_decode raw).trans h.chain_eq, h.main_eq, h.loop_eq, ?_⟩
  rw [hsubmit]
  exact ((h.inFlight.append_right _).trans (List.perm_append_singleton _ _)).trans
    List.perm_middle.symm

/-- It is validated there. -/
theorem validate_extra {tx : Transaction} (h : Extends (⟨tx, false⟩ :: extra) node node') :
    ∃ i, (node.chain.validateTransaction S tx = .ok () →
        Extends (⟨tx, true⟩ :: extra) node (node'.submit S (.validate i))) ∧
      ∀ err, node.chain.validateTransaction S tx = .error err →
        Extends extra node (node'.submit S (.validate i)) := by
  obtain ⟨i, hi, herase, hset⟩ := exists_index (h.inFlight.trans List.perm_middle)
  have hchain : (node'.submit S (.validate i)).chain = node.chain :=
    (node'.submit_validate i).trans h.chain_eq
  refine ⟨i, fun hvalid => ⟨hchain, h.main_eq, h.loop_eq, ?_⟩,
    fun err hvalid => ⟨hchain, h.main_eq, h.loop_eq, ?_⟩⟩
  · rw [← h.chain_eq] at hvalid
    simp only [submit, Act.next, hi, hvalid]
    exact (hset ⟨tx, true⟩).trans List.perm_middle.symm
  · rw [← h.chain_eq] at hvalid
    simp only [submit, Act.next, hi, hvalid]
    exact herase

/-- And enqueued. -/
theorem add_extra {tx : Transaction} (h : Extends (⟨tx, true⟩ :: extra) node node') :
    ∃ i, Extends extra { node with chain := node.chain.addTransaction tx }
      (node'.submit S (.add i)) := by
  obtain ⟨i, hi, herase, -⟩ := exists_index (h.inFlight.trans List.perm_middle)
  refine ⟨i, ?_, h.main_eq, h.loop_eq, ?_⟩
  · simp only [submit, Act.next, hi, h.chain_eq]
  · simp only [submit, Act.next, hi]
    exact herase

theorem decode (h : Extends extra node node') (raw : Str) :
    Extends extra (node.submit S (.decode raw)) (node'.submit S (.decode raw)) := by
  cases htx : Transaction.fromHex S raw with
  | error e =>
    simp only [submit, Act.next, htx]
    exact h
  | ok tx =>
    have hsubmit : (node.submit S (.decode raw)).inFlight = node.inFlight ++ [⟨tx, false⟩] := by
      simp only [submit, Act.next, htx]
    refine (h.decode_extra htx).congr_submissions (node.submit_decode raw) rfl rfl ?_
    rw [hsubmit, List.append_assoc]
    exact .refl _

/-- A submission of the smaller process, taken out of it. -/
theorem of_getElem? (h : Extends extra node node') {i : ℕ} {sub : Submission}
    (hi : node.inFlight[i]? = some sub) :
    Extends (sub :: extra) { node with inFlight := node.inFlight.eraseIdx i } node' := by
  obtain ⟨hlt, rfl⟩ := List.getElem?_eq_some_iff.mp hi
  refine h.congr_submissions rfl rfl rfl ?_
  exact (((List.getElem_cons_eraseIdx_perm hlt).symm.append_right extra)).trans
    List.perm_middle.symm

theorem validate (h : Extends extra node node') (i : ℕ) :
    Extends extra (node.submit S (.validate i)) node' ∨
      ∃ i', Extends extra (node.submit S (.validate i)) (node'.submit S (.validate i')) := by
  cases hi : node.inFlight[i]? with
  | none =>
    simp only [submit, Act.next, hi]
    exact .inl h
  | some sub =>
    obtain ⟨tx, validated⟩ := sub
    cases validated with
    | true =>
      simp only [submit, Act.next, hi]
      exact .inl h
    | false =>
      obtain ⟨hlt, -⟩ := List.getElem?_eq_some_iff.mp hi
      obtain ⟨i', hok, herror⟩ := (h.of_getElem? hi).validate_extra (S := S)
      refine .inr ⟨i', ?_⟩
      cases hvalid : node.chain.validateTransaction S tx with
      | ok u =>
        refine (hok hvalid).congr_submissions (node.submit_validate i) rfl rfl ?_
        simp only [submit, Act.next, hi, hvalid]
        exact List.perm_middle.trans
          (((List.set_perm_cons_eraseIdx hlt ⟨tx, true⟩).symm).append_right extra)
      | error err =>
        refine (herror err hvalid).congr_submissions (node.submit_validate i) rfl rfl ?_
        simp only [submit, Act.next, hi, hvalid]
        exact .refl _

theorem add (h : Extends extra node node') (i : ℕ) :
    Extends extra (node.submit S (.add i)) node' ∨
      ∃ i', Extends extra (node.submit S (.add i)) (node'.submit S (.add i')) := by
  cases hi : node.inFlight[i]? with
  | none =>
    simp only [submit, Act.next, hi]
    exact .inl h
  | some sub =>
    obtain ⟨tx, validated⟩ := sub
    cases validated with
    | false =>
      simp only [submit, Act.next, hi]
      exact .inl h
    | true =>
      obtain ⟨i', hadd⟩ := (h.of_getElem? hi).add_extra (S := S)
      refine .inr ⟨i', ?_⟩
      simp only [submit, Act.next, hi]
      exact hadd

theorem receive (h : Extends extra node node') (msg : Message) :
    Extends extra (node.receive S msg) (node'.receive S msg) := by
  unfold Process.receive
  split
  · exact h.decode msg.payload
  · exact ⟨by rw [h.chain_eq], h.main_eq, h.loop_eq, h.inFlight⟩
  · exact h

/-- What the smaller process does in a step, the larger one does too. -/
theorem step (h : Extends extra node node') (act : ProcessAct) :
    ∃ acts, Extends extra ((processMachine S).step node act).1
      ((processMachine S).run node' acts).1 := by
  cases halive : node.alive with
  | false =>
    rw [step_of_not_alive halive]
    exact ⟨[], h⟩
  | true =>
    have hstep : (processMachine S).step node act = act.step S node := if_pos halive
    have halive' : node'.alive = true := h.alive_eq.trans halive
    have hone (act' : ProcessAct)
        (hnext : Extends extra (act.step S node).1 (act'.step S node').1) :
        ∃ acts, Extends extra (act.step S node).1 ((processMachine S).run node' acts).1 :=
      ⟨[act'], by rwa [run_singleton halive']⟩
    rw [hstep]
    cases act with
    | receive msg => exact hone (.receive msg) (h.receive msg)
    | killed => exact hone .killed ⟨h.chain_eq, rfl, h.loop_eq, h.inFlight⟩
    | thread act =>
      cases act with
      | mainStep now => exact hone (.thread (.mainStep now)) (h.mainStep now)
      | loopStep now => exact hone (.thread (.loopStep now)) (h.loopStep now)
      | decode raw => exact hone (.thread (.decode raw)) (h.decode raw)
      | validate i =>
        rcases h.validate (S := S) i with hsame | ⟨i', hnext⟩
        · exact ⟨[], hsame⟩
        · exact hone (.thread (.validate i')) hnext
      | add i =>
        rcases h.add (S := S) i with hsame | ⟨i', hnext⟩
        · exact ⟨[], hsame⟩
        · exact hone (.thread (.add i')) hnext

end Process.Extends

/-- The submission that a thread has under way. -/
def ClientPhase.submission : ClientPhase → Option Submission
  | decoded _ tx => some ⟨tx, false⟩
  | validated _ tx => some ⟨tx, true⟩
  | _ => none

theorem submission_beginRequest (S : Secp256k1) (bc : Blockchain) (req : Value) :
    (beginRequest S bc req).submission = none ∨ ∃ txHex tx, Transaction.fromHex S txHex = .ok tx ∧
      (beginRequest S bc req).submission = some ⟨tx, false⟩ := by
  unfold beginRequest
  split
  · next _ txHex _ =>
    split
    · next tx htx => exact .inr ⟨txHex, tx, htx, rfl⟩
    · exact .inl rfl
  · split <;> exact .inl rfl
  · exact .inl rfl

/-- What a thread does to the chain in a step of its handler, the process can do, with the
submission of the thread among its own. -/
theorem Process.Extends.next {phase : ClientPhase} {rest : List Submission} {node node' : Process}
    (h : Extends (phase.submission.toList ++ rest) node node') (halive : node.alive = true) :
    ∃ acts, Extends ((phase.next J S node.chain).2.submission.toList ++ rest)
      { node with chain := (phase.next J S node.chain).1 }
      ((processMachine S).run node' acts).1 := by
  have halive' : node'.alive = true := h.alive_eq.trans halive
  cases phase with
  | connected stream => exact ⟨[], h⟩
  | answered e => exact ⟨[], h⟩
  | closed => exact ⟨[], h⟩
  | searching req hashHex => exact ⟨[], h⟩
  | read httpReq =>
    cases hasked : asked J httpReq with
    | none =>
      simp only [ClientPhase.next, hasked]
      exact ⟨[], h⟩
    | some req =>
      simp only [ClientPhase.next, hasked]
      rcases submission_beginRequest S node.chain req with hnone | ⟨txHex, tx, htx, hsub⟩
      · rw [hnone]
        exact ⟨[], h⟩
      · rw [hsub]
        refine ⟨[.thread (.decode txHex)], ?_⟩
        rw [run_singleton halive']
        exact h.decode_extra htx
  | decoded req tx =>
    obtain ⟨i, hok, herror⟩ := validate_extra (S := S) h
    refine ⟨[.thread (.validate i)], ?_⟩
    rw [run_singleton halive']
    cases hvalid : node.chain.validateTransaction S tx with
    | ok u =>
      simp only [ClientPhase.next, hvalid]
      exact hok hvalid
    | error err =>
      simp only [ClientPhase.next, hvalid]
      exact herror err hvalid
  | validated req tx =>
    obtain ⟨i, hadd⟩ := add_extra (S := S) h
    refine ⟨[.thread (.add i)], ?_⟩
    rw [run_singleton halive']
    exact hadd

namespace Server

/-- The process that has the submissions of the clients among its own. -/
def ExtendedBy (s : Server) (node : Process) : Prop :=
  s.node.Extends (s.clients.filterMap ClientPhase.submission) node

/-- A step of a thread that concerns no submission. -/
theorem ExtendedBy.advance {s : Server} {node : Process} (h : s.ExtendedBy node) {k : ℕ}
    {phase phase' : ClientPhase} (hk : s.clients[k]? = some phase)
    (hphase : phase.submission = none) (hphase' : phase'.submission = none) :
    (s.advance k (s.node.chain, phase')).ExtendedBy node := by
  obtain ⟨rest, hrest, hset⟩ := exists_filterMap_set ClientPhase.submission hk
  rw [hphase] at hrest
  have hperm := hset phase'
  rw [hphase'] at hperm
  exact Process.Extends.congr h (hrest.trans hperm.symm)

theorem ExtendedBy.handle {s : Server} {node : Process} (h : s.ExtendedBy node)
    (halive : s.node.alive = true) {k : ℕ} {phase : ClientPhase}
    (hk : s.clients[k]? = some phase) :
    ∃ acts, (s.advance k (phase.next J S s.node.chain)).ExtendedBy
      ((processMachine S).run node acts).1 := by
  obtain ⟨rest, hrest, hset⟩ := exists_filterMap_set ClientPhase.submission hk
  obtain ⟨acts, hacts⟩ := (Process.Extends.congr h hrest).next (J := J) (S := S) halive
  exact ⟨acts, hacts.congr (hset _).symm⟩

theorem ExtendedBy.step {s : Server} {node : Process} (h : s.ExtendedBy node) (act : ServerAct) :
    ∃ acts, ((serverMachine J S).step s act).1.ExtendedBy ((processMachine S).run node acts).1 := by
  cases halive : s.node.alive with
  | false =>
    have hstep : (serverMachine J S).step s act = (s, []) := if_neg (by simp [halive])
    rw [hstep]
    exact ⟨[], h⟩
  | true =>
    have hstep : (serverMachine J S).step s act = act.step J S s := if_pos halive
    rw [hstep]
    cases act with
    | process act => exact Process.Extends.step h act
    | accept stream =>
      refine ⟨[], Process.Extends.congr h ?_⟩
      rw [ServerAct.step, List.filterMap_append]
      exact (List.append_nil _).symm ▸ .refl _
    | recv k n =>
      rw [ServerAct.step]
      split
      · next stream hk =>
        split
        · exact ⟨[], h.advance hk rfl rfl⟩
        · exact ⟨[], h.advance hk rfl rfl⟩
      · exact ⟨[], h⟩
    | handle k =>
      rw [ServerAct.step]
      split
      · next phase hk => exact h.handle halive hk
      · exact ⟨[], h⟩
    | send k =>
      rw [ServerAct.step]
      split
      · next e hk => exact ⟨[], h.advance hk rfl rfl⟩
      · exact ⟨[], h⟩

end Server

/-- For the node, every run with clients is a run of the process, in which the submissions of the
clients are made as all others are. -/
theorem exists_process_run (J : JsonLibrary) (S : Secp256k1) {s : Server} {node : Process}
    (h : s.ExtendedBy node) (acts : List ServerAct) :
    ∃ acts', ((serverMachine J S).run s acts).1.ExtendedBy
      ((processMachine S).run node acts').1 := by
  induction acts generalizing s node with
  | nil => exact ⟨[], h⟩
  | cons act acts ih =>
    obtain ⟨first, hfirst⟩ := h.step (J := J) (S := S) act
    obtain ⟨rest, hrest⟩ := ih hfirst
    refine ⟨first ++ rest, ?_⟩
    rw [Machine.run_append]
    exact hrest

end Gambit
