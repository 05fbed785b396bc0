import GambitCore.Miner.Announce
import GambitCore.P2p.Delivery
import GambitCore.Submission

/-!
# The whole node

The process that `main` starts, with all of its threads. `main` mines the blocks asked for with
`--mine-blocks` one after the other, announces each, and then sleeps for ever. `Miner::loop` adds
its templates. Transactions are submitted over RPC and by peers, in three steps each, and every peer
has a thread that hands its messages to `onMessage`. A step of the machine is one locked call or one
unlocked read of one of these threads.

Of all of them only `main` calls `mineBlock`, and only `mineBlock` moves the ledger. In `main` there
is no handler for its exceptions: one of them ends the process. The system can end it too, at any
moment. Nothing in the program handles `SIGPIPE`, which a `send` to a peer or client that is gone
raises, bounds the recursion of `rlp::decode`, or catches a `bad_alloc` in the thread of a peer.

## Main definitions

* `MainPhase`, `Process`, `ThreadAct`, `ProcessAct`
* `processMachine` — the process as a machine that emits the messages it sends to its peers
* `Process.left` — the blocks `main` has still to mine
* `minedMempools` — what the calls of `mineBlock` in a run find pending
* `Survived` — the steps that do not end the process

## Main results

* `Process.step_cases` — what one step can do to the chain
* `exists_op_run` — every run of the process is a run of the chain
* `ledger_follows_countdown` — the ledger moves by the mempools that `main` mines as it counts down
* `process_survives_iff` — the process lives exactly as long as the system does not end it and what
  `main` mines is payable
-/

namespace Gambit

/-! ### The threads -/

/-- Where `main` is in its mining loop. -/
inductive MainPhase
  /-- So many blocks are still to be mined. With none left `main` only sleeps. -/
  | mining (left : ℕ)
  /-- `mineBlock` has returned the block, which is announced next. -/
  | mined (block : Block) (left : ℕ)
  /-- The process has ended. -/
  | aborted

/-- The node: chain and submissions, `main`, and the loop of the miner. -/
structure Process extends NodeState where
  main : MainPhase
  loop : LoopPhase

/-- A step of one of the node's own threads. -/
inductive ThreadAct
  | mainStep (now : UInt64)
  | loopStep (now : UInt64)
  /-- `Transaction::fromHex` in a new `handle_sendRawTransaction`. -/
  | decode (raw : Str)
  /-- `validateTransaction` for submission `i`, of a client or of a peer. -/
  | validate (i : ℕ)
  /-- `addTransaction` for submission `i`. -/
  | add (i : ℕ)

/-- A step of the process. -/
inductive ProcessAct
  | thread (act : ThreadAct)
  /-- `onMessage` in the thread of a peer. -/
  | receive (msg : Message)
  /-- The system ends the process. -/
  | killed

/-- The message of `broadcastNewBlock`, unless the block has no text. -/
def announcement (block : Block) : List Message :=
  match block.toHex with
  | .ok hex => [⟨.newBlock, hex⟩]
  | .error _ => []

namespace Process

/-- The blocks `main` has still to mine. -/
def left (node : Process) : ℕ :=
  match node.main with
  | .mining n => n
  | .mined _ n => n
  | .aborted => 0

/-- The process has not ended. -/
def alive (node : Process) : Bool :=
  match node.main with
  | .aborted => false
  | _ => true

/-- A step of a submission. -/
def submit (S : Secp256k1) (node : Process) (act : Act) : Process :=
  { node with toNodeState := act.next S node.toNodeState }

/-- What `main` does next. -/
def mainStep (node : Process) (now : UInt64) : Process × List Message :=
  match node.main with
  | .mining 0 => (node, [])
  | .mining (n + 1) =>
    match node.chain.mineBlock now with
    | (chain, .ok block) => ({ node with chain, main := .mined block n }, [])
    -- Nothing in `main` catches it, and by then the loop over the mempool may have paid.
    | (chain, .error _) => ({ node with chain, main := .aborted }, [])
  | .mined block n =>
    match block.toHex with
    | .ok _ => ({ node with main := .mining n }, announcement block)
    | .error _ => ({ node with main := .aborted }, [])
  | .aborted => (node, [])

/-- What `Miner::loop` does next. It ignores an exception of `broadcastNewBlock`. -/
def loopStep (node : Process) (now : UInt64) : Process × List Message :=
  match node.loop with
  -- The verdict of `addBlock` is not read: a block that is refused is announced all the same.
  | .building (.ready block) =>
    ({ node with chain := (node.chain.addBlock block).1, loop := .added block }, [])
  | .building phase => ({ node with loop := .building (phase.next node.chain now) }, [])
  | .added block => ({ node with loop := .building .idle }, announcement block)

/-- `onMessage`. A transaction is only decoded in this step, and then a submission like others. -/
def receive (S : Secp256k1) (node : Process) (msg : Message) : Process :=
  match msg.type with
  | .newTx => node.submit S (.decode msg.payload)
  | .newBlock => { node with chain := handleNewBlock S node.chain msg.payload }
  | _ => node

end Process

/-- A step of a thread, and the messages it sends. -/
def ThreadAct.step (S : Secp256k1) (node : Process) : ThreadAct → Process × List Message
  | mainStep now => node.mainStep now
  | loopStep now => node.loopStep now
  | decode raw => (node.submit S (.decode raw), [])
  | validate i => (node.submit S (.validate i), [])
  | add i => (node.submit S (.add i), [])

/-- A step of the process while it lives. -/
def ProcessAct.step (S : Secp256k1) (node : Process) : ProcessAct → Process × List Message
  | thread act => act.step S node
  | receive msg => (node.receive S msg, [])
  | killed => ({ node with main := .aborted }, [])

/-- The process as a machine. When it has ended, nothing happens any more. -/
def processMachine (S : Secp256k1) : Machine Process ProcessAct Message :=
  ⟨fun node act => if node.alive then act.step S node else (node, [])⟩

/-- A step is one of a living process, or it is nothing. -/
theorem Process.step_eq_or (S : Secp256k1) (node : Process) (act : ProcessAct) :
    (processMachine S).step node act = act.step S node ∨
      (processMachine S).step node act = (node, []) := by
  by_cases halive : node.alive
  · exact .inl (if_pos halive)
  · exact .inr (if_neg halive)

/-! ### What a step can do -/

/-- The mempool that `mineBlock` finds, in a step in which `main` calls it. -/
def Process.mined (node : Process) : ProcessAct → List (List Transaction)
  | .thread (.mainStep _) =>
    match node.main with
    | .mining (_ + 1) => [node.chain.mempool]
    | _ => []
  | _ => []

/-- What a step does to the chain and to the countdown of `main`, with the mempool it mines. -/
inductive ProcessStep (S : Secp256k1) (node next : Process) : List (List Transaction) → Prop
  /-- Nothing, but for an end of `main`. -/
  | quiet (hchain : next.chain = node.chain) (hleft : next.left ≤ node.left) :
      ProcessStep S node next []
  /-- A validated transaction is enqueued. -/
  | enqueue (tx : Transaction) (hvalidated : ⟨tx, true⟩ ∈ node.inFlight)
      (hchain : next.chain = node.chain.addTransaction tx) (hleft : next.left = node.left) :
      ProcessStep S node next []
  /-- `main` calls `mineBlock`, and goes on if all that is pending is payable. -/
  | mine (now : UInt64) (hchain : next.chain = (node.chain.mineBlock now).1)
      (hleft : next.left < node.left)
      (hpayable : next.alive = true → Payable node.chain.state node.chain.mempool) :
      ProcessStep S node next [node.chain.mempool]
  /-- A template of the loop, or a block of a peer, is handed to `addBlock`. -/
  | extend (block : Block)
      (horigin : node.loop = .building (.ready block) ∨ ∃ hex, Block.fromHex S hex = .ok block)
      (hchain : next.chain = (node.chain.addBlock block).1) (hleft : next.left = node.left) :
      ProcessStep S node next []

namespace Process

variable {S : Secp256k1}

theorem submit_decode (node : Process) (raw : Str) :
    (node.submit S (.decode raw)).chain = node.chain := by
  simp only [submit, Act.next]
  split <;> rfl

theorem submit_validate (node : Process) (i : ℕ) :
    (node.submit S (.validate i)).chain = node.chain := by
  simp only [submit, Act.next]
  split
  · split <;> rfl
  · rfl

theorem processStep_add (node : Process) (i : ℕ) :
    ProcessStep S node (node.submit S (.add i)) [] := by
  cases hsub : node.inFlight[i]? with
  | none => exact .quiet (by simp [submit, Act.next, hsub]) le_rfl
  | some sub =>
    obtain ⟨tx, validated⟩ := sub
    cases validated with
    | false => exact .quiet (by simp [submit, Act.next, hsub]) le_rfl
    | true =>
      refine .enqueue tx (List.mem_of_getElem? hsub) ?_ rfl
      simp [submit, Act.next, hsub]

theorem processStep_mainStep (node : Process) (now : UInt64) :
    ProcessStep S node (node.mainStep now).1 (node.mined (.thread (.mainStep now))) := by
  unfold mainStep
  split
  · next hmain =>
    rw [mined, hmain]
    exact .quiet rfl le_rfl
  · next n hmain =>
    have hleft : node.left = n + 1 := by simp [left, hmain]
    rw [mined, hmain]
    split
    · next chain block hmine =>
      refine .mine now (congrArg Prod.fst hmine).symm ?_ fun _ => ?_
      · rw [hleft]
        exact Nat.lt_succ_self n
      · exact (node.chain.returns_mineBlock_iff now).mp ⟨block, congrArg Prod.snd hmine⟩
    · next chain e hmine =>
      refine .mine now (congrArg Prod.fst hmine).symm ?_ fun halive => ?_
      · rw [hleft]
        exact Nat.succ_pos n
      · cases halive
  · next block n hmain =>
    have hleft : node.left = n := by simp [left, hmain]
    rw [mined, hmain]
    split
    · exact .quiet rfl hleft.ge
    · exact .quiet rfl (Nat.zero_le _)
  · next hmain =>
    rw [mined, hmain]
    exact .quiet rfl le_rfl

theorem processStep_loopStep (node : Process) (now : UInt64) :
    ProcessStep S node (node.loopStep now).1 [] := by
  unfold loopStep
  split
  · next block hloop => exact .extend block (.inl hloop) rfl rfl
  · exact .quiet rfl le_rfl
  · exact .quiet rfl le_rfl

theorem processStep_receive (node : Process) (msg : Message) :
    ProcessStep S node (node.receive S msg) [] := by
  unfold receive
  split
  · exact .quiet (node.submit_decode _) le_rfl
  · cases hblock : Block.fromHex S msg.payload with
    | error e => exact .quiet (handleNewBlock_of_error hblock) le_rfl
    | ok block =>
      refine .extend block (.inr ⟨_, hblock⟩) ?_ rfl
      simp only [handleNewBlock, hblock]
  · exact .quiet rfl le_rfl

theorem mined_of_not_alive {node : Process} (h : node.alive = false) (act : ProcessAct) :
    node.mined act = [] := by
  have hmain : node.main = .aborted := by
    unfold alive at h
    split at h
    · assumption
    · cases h
  unfold mined
  split
  · rw [hmain]
  · rfl

theorem step_of_not_alive {node : Process} (h : node.alive = false) (act : ProcessAct) :
    (processMachine S).step node act = (node, []) :=
  if_neg (by rw [h]; exact Bool.false_ne_true)

/-- What one step of the process can do to the chain. -/
theorem step_cases (node : Process) (act : ProcessAct) :
    ProcessStep S node ((processMachine S).step node act).1 (node.mined act) := by
  cases halive : node.alive with
  | false =>
    rw [step_of_not_alive halive, mined_of_not_alive halive]
    exact .quiet rfl le_rfl
  | true =>
    have hstep : (processMachine S).step node act = act.step S node := if_pos halive
    rw [hstep]
    cases act with
    | receive msg => exact node.processStep_receive msg
    | killed => exact .quiet rfl (Nat.zero_le _)
    | thread act =>
      cases act with
      | mainStep now => exact node.processStep_mainStep now
      | loopStep now => exact node.processStep_loopStep now
      | decode raw => exact .quiet (node.submit_decode raw) le_rfl
      | validate i => exact .quiet (node.submit_validate i) le_rfl
      | add i => exact node.processStep_add i

end Process

/-- A step leaves the chain alone or is a call into it. -/
theorem ProcessStep.chain_cases {S : Secp256k1} {node next : Process}
    {batch : List (List Transaction)} (h : ProcessStep S node next batch) :
    next.chain = node.chain ∨ ∃ op : Op, next.chain = op.next node.chain := by
  cases h with
  | quiet hchain => exact .inl hchain
  | enqueue tx _ hchain => exact .inr ⟨.addTransaction tx, hchain⟩
  | mine now hchain => exact .inr ⟨.mineBlock now, hchain⟩
  | extend block _ hchain => exact .inr ⟨.addBlock block, hchain⟩

/-- Every run of the process is a run of the chain. -/
theorem exists_op_run (S : Secp256k1) (node : Process) (acts : List ProcessAct) :
    ∃ ops, (chainMachine.run node.chain ops).1 = ((processMachine S).run node acts).1.chain := by
  induction acts generalizing node with
  | nil => exact ⟨[], rfl⟩
  | cons act acts ih =>
    obtain ⟨ops, hops⟩ := ih ((processMachine S).step node act).1
    rw [Machine.run_cons]
    rcases (node.step_cases act).chain_cases with hchain | ⟨op, hchain⟩
    · rw [hchain] at hops
      exact ⟨ops, hops⟩
    · rw [hchain] at hops
      exact ⟨op :: ops, hops⟩

/-! ### The countdown -/

/-- What the calls of `mineBlock` in a run find pending, in order. -/
def minedMempools (S : Secp256k1) (node : Process) : List ProcessAct → List (List Transaction)
  | [] => []
  | act :: acts => node.mined act ++ minedMempools S ((processMachine S).step node act).1 acts

/-- The batches one after the other, each until its first transaction that cannot be paid. -/
def applyBatches (s : State) (batches : List (List Transaction)) : State :=
  batches.foldl (fun s txs => (applyAll s txs).1) s

/-- Each batch is payable as a whole on the ledger that those before it leave. -/
def AllPayable (s : State) : List (List Transaction) → Prop
  | [] => True
  | txs :: batches => Payable s txs ∧ AllPayable (applyAll s txs).1 batches

theorem allPayable_append {s : State} {batches later : List (List Transaction)} :
    AllPayable s (batches ++ later) ↔
      AllPayable s batches ∧ AllPayable (applyBatches s batches) later := by
  induction batches generalizing s with
  | nil => simp [AllPayable, applyBatches]
  | cons txs batches ih =>
    rw [List.cons_append, AllPayable, AllPayable, ih, and_assoc]
    rfl

/-- What `main` has done to the ledger between two moments: it has applied at most one batch for
each block it has counted down, and the mempool has only grown where there is no batch. Only in the
last one can there be a transaction that is not paid, and that has ended the process. -/
structure Batches (node later : Process) (batches : List (List Transaction)) : Prop where
  length_le : batches.length + later.left ≤ node.left
  state_eq : later.chain.state = applyBatches node.chain.state batches
  mempool : batches = [] → node.chain.mempool <+: later.chain.mempool
  chainId : later.chain.chainId = node.chain.chainId
  alive : later.alive = true → node.alive = true ∧ AllPayable node.chain.state batches
  ended : node.alive = false → batches = []
  payable : AllPayable node.chain.state batches.dropLast

theorem Batches.refl (node : Process) : Batches node node [] :=
  ⟨by simp, rfl, fun _ => List.prefix_rfl, rfl, fun halive => ⟨halive, trivial⟩, fun _ => rfl,
    trivial⟩

theorem Batches.trans {node next later : Process} {batches batches' : List (List Transaction)}
    (h : Batches node next batches) (h' : Batches next later batches') :
    Batches node later (batches ++ batches') := by
  have hstate := h'.state_eq
  rw [h.state_eq] at hstate
  have hpayable := h'.payable
  rw [h.state_eq] at hpayable
  refine ⟨?_, ?_, fun hnil => ?_, h'.chainId.trans h.chainId, fun halive => ?_, fun hended => ?_,
    ?_⟩
  · have hlater := h'.length_le
    have hnext := h.length_le
    rw [List.length_append]
    omega
  · rw [hstate, applyBatches, applyBatches, applyBatches, List.foldl_append]
  · obtain ⟨hbatches, hbatches'⟩ := List.append_eq_nil_iff.mp hnil
    exact (h.mempool hbatches).trans (h'.mempool hbatches')
  · obtain ⟨hnext, hlater⟩ := h'.alive halive
    obtain ⟨hnode, hfirst⟩ := h.alive hnext
    rw [h.state_eq] at hlater
    exact ⟨hnode, allPayable_append.mpr ⟨hfirst, hlater⟩⟩
  · have hnext : next.alive = false := by
      cases halive : next.alive with
      | false => rfl
      | true => exact absurd (h.alive halive).1 (by rw [hended]; exact Bool.false_ne_true)
    rw [h.ended hended, h'.ended hnext, List.append_nil]
  · -- A batch follows only where the process lives, so that those before it are all payable.
    by_cases hnil : batches' = []
    · rw [hnil, List.append_nil]
      exact h.payable
    · have hnext : next.alive = true := by
        cases halive : next.alive with
        | false => exact absurd (h'.ended halive) hnil
        | true => rfl
      rw [List.dropLast_append_of_ne_nil hnil]
      exact allPayable_append.mpr ⟨(h.alive hnext).2, hpayable⟩

/-- A step that leaves ledger and chain id alone, and only adds to the mempool. -/
theorem Batches.of_same {node next : Process} (hstate : next.chain.state = node.chain.state)
    (hmempool : node.chain.mempool <+: next.chain.mempool)
    (hid : next.chain.chainId = node.chain.chainId) (hleft : next.left ≤ node.left)
    (halive : next.alive = true → node.alive = true) : Batches node next [] :=
  ⟨(Nat.zero_add _).trans_le hleft, hstate, fun _ => hmempool, hid, fun h => ⟨halive h, trivial⟩,
    fun _ => rfl, trivial⟩

theorem ProcessStep.batches {S : Secp256k1} {node next : Process} {batch : List (List Transaction)}
    (h : ProcessStep S node next batch) (halive : next.alive = true → node.alive = true)
    (hended : node.alive = false → batch = []) : Batches node next batch := by
  cases h with
  | quiet hchain hleft =>
    exact .of_same (by rw [hchain]) (by rw [hchain]) (by rw [hchain]) hleft halive
  | enqueue tx hvalidated hchain hleft =>
    refine .of_same (by rw [hchain]; rfl) ?_ (by rw [hchain]; rfl) hleft.le halive
    rw [hchain]
    exact List.prefix_append _ _
  | extend block horigin hchain hleft =>
    rcases node.chain.addBlock_cases block with hadd | hadd
    · rw [hadd] at hchain
      exact .of_same (by rw [hchain]) (by rw [hchain]) (by rw [hchain]) hleft.le halive
    · rw [hadd] at hchain
      exact .of_same (by rw [hchain]) (by rw [hchain]) (by rw [hchain]) hleft.le halive
  | mine now hchain hleft hpayable =>
    -- The loop over the mempool has paid what it could, whether `mineBlock` has returned or thrown.
    refine ⟨?_, ?_, by simp, ?_, fun h => ⟨halive h, hpayable h, trivial⟩, hended, trivial⟩
    · rw [List.length_singleton]
      omega
    · rw [hchain, state_mineBlock]
      rfl
    · rw [hchain]
      rcases node.chain.mineBlock_cases now with ⟨_, _, -, -, hmine⟩ | ⟨_, _, -, hmine⟩
      · rw [hmine]
      · rw [hmine]

theorem batches_step (S : Secp256k1) (node : Process) (act : ProcessAct) :
    Batches node ((processMachine S).step node act).1 (node.mined act) := by
  refine (node.step_cases act).batches (fun hnext => ?_) fun hended =>
    Process.mined_of_not_alive hended act
  cases halive : node.alive with
  | true => rfl
  | false => rwa [Process.step_of_not_alive halive, halive] at hnext

theorem batches_run (S : Secp256k1) (node : Process) (acts : List ProcessAct) :
    Batches node ((processMachine S).run node acts).1 (minedMempools S node acts) := by
  induction acts generalizing node with
  | nil => exact .refl node
  | cons act acts ih => exact (batches_step S node act).trans (ih _)

/-- The verdict of `validateTransaction` depends on the ledger and the chain id. -/
theorem validateTransaction_congr {S : Secp256k1} {bc bc' : Blockchain}
    (hstate : bc'.state = bc.state) (hid : bc'.chainId = bc.chainId) (tx : Transaction) :
    bc'.validateTransaction S tx = bc.validateTransaction S tx := by
  unfold Blockchain.validateTransaction
  rw [hstate, hid]

/-- However the threads interleave and whatever peers send, the ledger moves by the mempools that
`main` finds as it counts down its blocks, one for each call of `mineBlock`. Each is paid as a
whole; only the last may stop at a transaction that cannot be paid, and then the process has ended.
As long as `main` counts nothing down, and for ever once it is done, ledger and verdicts stay as
they are and pending transactions stay pending. -/
theorem ledger_follows_countdown (S : Secp256k1) (node : Process) (acts : List ProcessAct) :
    let later := ((processMachine S).run node acts).1
    let batches := minedMempools S node acts
    later.chain.state = applyBatches node.chain.state batches ∧
    batches.length + later.left ≤ node.left ∧
    AllPayable node.chain.state batches.dropLast ∧
    (later.alive = true → AllPayable node.chain.state batches) ∧
    (later.left = node.left →
      later.chain.state = node.chain.state ∧ node.chain.mempool <+: later.chain.mempool ∧
        ∀ tx, later.chain.validateTransaction S tx = node.chain.validateTransaction S tx) := by
  intro later batches
  have h : Batches node later batches := batches_run S node acts
  refine ⟨h.state_eq, h.length_le, h.payable, fun halive => (h.alive halive).2, fun hleft => ?_⟩
  have hle := h.length_le
  have hnil : batches = [] := List.length_eq_zero_iff.mp (by omega)
  have hstate : later.chain.state = node.chain.state := by
    rw [h.state_eq, hnil]
    rfl
  exact ⟨hstate, h.mempool hnil, validateTransaction_congr hstate h.chainId⟩

/-! ### The end of the process -/

/-- The system does not end the process in the step, and what `main` mines is payable. -/
def Survived (node : Process) : ProcessAct → Prop
  | .killed => False
  | .thread (.mainStep _) =>
    ∀ n, node.main = .mining (n + 1) → Payable node.chain.state node.chain.mempool
  | _ => True

/-- The block that `main` is about to announce has a text. -/
def Sendable (node : Process) : Prop :=
  ∀ block n, node.main = .mined block n → Returns block.toHex

/-- The receipts of a mined block have no logs, so that its text can be written. -/
theorem returns_toHex_of_mineBlock {bc bc' : Blockchain} {now : UInt64} {block : Block}
    (h : bc.mineBlock now = (bc', .ok block)) : Returns block.toHex := by
  have hreceipts : ∀ r ∈ block.receipts, r.logs = [] := by
    rcases bc.mineBlock_cases now with ⟨s', b, -, hsealed, hmine⟩ | ⟨s', e, -, hmine⟩
    · obtain rfl := Except.ok.inj (Prod.mk.inj (hmine.symm.trans h)).2
      obtain ⟨before, after, receiptsRoot, -, -, rfl⟩ := hsealed
      exact logs_receiptsFrom 0 bc.mempool
    · cases (Prod.mk.inj (hmine.symm.trans h)).2
  have hitems : Returns (block.receipts.mapM Receipt.rlpEncode) := by
    rw [returns_mapM_iff]
    intro r hr
    rw [Receipt.rlpEncode, hreceipts r hr]
    exact ⟨_, rfl⟩
  obtain ⟨items, hitems⟩ := hitems
  simp only [Block.toHex, Block.rlpEncode, hitems]
  exact ⟨_, rfl⟩

theorem Process.main_loopStep (node : Process) (now : UInt64) :
    (node.loopStep now).1.main = node.main := by
  unfold loopStep
  split <;> rfl

theorem Process.main_receive (S : Secp256k1) (node : Process) (msg : Message) :
    (node.receive S msg).main = node.main := by
  unfold receive
  split <;> rfl

theorem Sendable.mainStep {node : Process} (h : Sendable node) (now : UInt64) :
    Sendable (node.mainStep now).1 := by
  unfold Process.mainStep
  split
  · exact h
  · split
    · next chain block hmine =>
      intro b n hb
      obtain ⟨rfl, -⟩ := MainPhase.mined.inj hb
      exact returns_toHex_of_mineBlock hmine
    · intro b n hb
      cases hb
  · split
    · intro b n hb
      cases hb
    · intro b n hb
      cases hb
  · exact h

theorem Process.alive_mainStep_iff {node : Process} (halive : node.alive = true)
    (h : Sendable node) (now : UInt64) :
    (node.mainStep now).1.alive = true ↔
      ∀ n, node.main = .mining (n + 1) → Payable node.chain.state node.chain.mempool := by
  unfold mainStep
  split
  · next hmain => exact iff_of_true halive (by simp [hmain])
  · next n hmain =>
    have hpayable := node.chain.returns_mineBlock_iff now
    split
    · next chain block hmine =>
      rw [hmine] at hpayable
      exact iff_of_true rfl fun _ _ => hpayable.mp ⟨block, rfl⟩
    · next chain e hmine =>
      rw [hmine] at hpayable
      refine iff_of_false Bool.false_ne_true fun hall => ?_
      obtain ⟨block, hblock⟩ := hpayable.mpr (hall n hmain)
      cases hblock
  · next block n hmain =>
    obtain ⟨hex, hhex⟩ := h block n hmain
    rw [hhex]
    exact iff_of_true rfl (by simp [hmain])
  · next hmain =>
    simp [alive, hmain] at halive

theorem Process.alive_congr {node next : Process} (h : next.main = node.main) :
    next.alive = node.alive := by
  rw [alive, alive, h]

/-- A living process is alive after a step exactly when the step is one it survives. -/
theorem ProcessAct.alive_step_iff {S : Secp256k1} {node : Process} (halive : node.alive = true)
    (h : Sendable node) (act : ProcessAct) :
    (act.step S node).1.alive = true ↔ Survived node act := by
  cases act with
  | killed => exact iff_of_false Bool.false_ne_true id
  | receive msg =>
    exact iff_of_true ((Process.alive_congr (node.main_receive S msg)).trans halive) trivial
  | thread act =>
    cases act with
    | mainStep now => exact Process.alive_mainStep_iff halive h now
    | loopStep now =>
      exact iff_of_true ((Process.alive_congr (node.main_loopStep now)).trans halive) trivial
    | decode raw => exact iff_of_true halive trivial
    | validate i => exact iff_of_true halive trivial
    | add i => exact iff_of_true halive trivial

theorem Process.alive_step_iff {S : Secp256k1} {node : Process} (h : Sendable node)
    (act : ProcessAct) :
    ((processMachine S).step node act).1.alive = true ↔
      node.alive = true ∧ Survived node act := by
  cases halive : node.alive with
  | false =>
    rw [step_of_not_alive halive, halive]
    simp
  | true =>
    have hstep : (processMachine S).step node act = act.step S node := if_pos halive
    rw [hstep, act.alive_step_iff halive h, and_iff_right rfl]

theorem Sendable.of_main {node next : Process} (h : Sendable node)
    (hmain : next.main = node.main) : Sendable next := fun block n hmined =>
  h block n (hmain ▸ hmined)

theorem Sendable.step {S : Secp256k1} {node : Process} (h : Sendable node) (act : ProcessAct) :
    Sendable ((processMachine S).step node act).1 := by
  rcases node.step_eq_or S act with hstep | hstep
  · rw [hstep]
    cases act with
    | killed =>
      intro block n hmined
      cases hmined
    | receive msg => exact h.of_main (node.main_receive S msg)
    | thread act =>
      cases act with
      | mainStep now => exact h.mainStep now
      | loopStep now => exact h.of_main (node.main_loopStep now)
      | _ => exact h
  · rw [hstep]
    exact h

/-- The process as `main` starts it, to mine `n` blocks. -/
def Process.start (bc : Blockchain) (n : ℕ) : Process := ⟨⟨bc, []⟩, .mining n, .building .idle⟩

theorem sendable_start (bc : Blockchain) (n : ℕ) : Sendable (.start bc n) := by
  intro block m hmain
  cases hmain

/-- The process is alive after a run exactly when the system has not ended it and, each time `main`
called `mineBlock`, all that was pending could be paid in order. -/
theorem process_survives_iff (S : Secp256k1) (bc : Blockchain) (n : ℕ) (acts : List ProcessAct) :
    ((processMachine S).run (.start bc n) acts).1.alive = true ↔
      (processMachine S).Guarded Survived (.start bc n) acts := by
  have hfree : (processMachine S).Guarded (fun _ _ => True) (.start bc n) acts :=
    (processMachine S).guarded_of_forall (fun _ _ => trivial) _ _
  have hsendable : (processMachine S).Guarded (fun node _ => Sendable node) (.start bc n) acts :=
    hfree.of_invariant Sendable (fun node act h _ => ⟨h.step act, h⟩) (sendable_start bc n)
  rw [Machine.run_iff (fun node : Process => node.alive = true)
    (fun node act h => Process.alive_step_iff h act) hsendable]
  exact and_iff_right rfl

end Gambit
