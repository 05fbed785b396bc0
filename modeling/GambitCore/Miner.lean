import GambitCore.Blockchain.Integrity

/-!
# The miner's thread

`Miner::loop` takes no lock while `buildBlockTemplate` reads the chain. The ledger, the mempool,
the length of the chain and its last hash are read one after the other, and other threads add
transactions and blocks in between. Only `addBlock` at the end of a round locks. So a template may
mix what was there at different times, and be stale when it is added.

Here the thread has a phase that holds what it has read so far. Each read is one step, as is each
locked call of another thread. `addBlock` checks the index and the link again, so whatever the
interleaving, the run of the node is one of the chain with arbitrary blocks.

## Main definitions

* `MinerPhase`, `MinerNode`, `minerMachine` — the thread as it interleaves with other calls
* `Linkage` — the indices count up and each block links to the one before

## Main results

* `minerRound_eq_run` — a round is the steps of the thread with nothing in between
* `buildBlockTemplate_agrees_mineBlock` — the template is the block `mineBlock` would make
* `exists_chain_run` — every interleaving is a run of the chain
* `chain_linkage` — the chain is linked and only ever grows
-/

namespace Gambit

/-! ### The thread -/

/-- Where the miner is in `buildBlockTemplate`, with what it has read. -/
inductive MinerPhase
  | idle
  /-- `before`, the root of the ledger, is read. -/
  | rooted (before : Str)
  /-- The ledger is copied. -/
  | copied (before : Str) (temp : State)
  /-- The mempool is applied to the copy, whose root is `after`. -/
  | applied (before after : Str)
  /-- `computeTxRoot` has read the mempool. -/
  | txRooted (before after txRoot : Str)
  /-- `chain_.size()` is read. C++ leaves open whether this comes before `chain_.back().hash`. -/
  | numbered (before after txRoot : Str) (index : UInt64)
  /-- The block is constructed, on `chain_.back().hash`. -/
  | built (block : Block)
  /-- The transactions are copied from the mempool; `addBlock` comes next. -/
  | ready (block : Block)

/-- The phase after a read. An exception ends the round. -/
def MinerPhase.next (bc : Blockchain) (now : UInt64) : MinerPhase → MinerPhase
  | .idle =>
    match bc.state.root with
    | .ok before => .rooted before
    | .error _ => .idle
  | .rooted before => .copied before bc.state
  | .copied before temp =>
    match applyAll temp bc.mempool with
    | (_, .error _) => .idle
    | (temp, .ok ()) =>
      match temp.root with
      | .ok after => .applied before after
      | .error _ => .idle
  | .applied before after => .txRooted before after (Blockchain.computeTxRoot bc.mempool)
  | .txRooted before after txRoot =>
    .numbered before after txRoot (UInt64.ofNat bc.chain.length)
  | .numbered before after txRoot index =>
    .built (Block.new now index bc.back.hash before after txRoot
      (ZkProver.generate before after txRoot))
  | .built block => .ready { block with transactions := bc.mempool }
  | .ready _ => .idle

/-- The node: its chain, and the thread of its miner. -/
structure MinerNode where
  chain : Blockchain
  miner : MinerPhase

/-- A call by another thread, or a step of the miner. -/
inductive MinerAct
  | call (op : Op)
  | minerStep (now : UInt64)

/-- The call into the chain that a step makes, if it makes one. -/
def MinerAct.op? (node : MinerNode) : MinerAct → Option Op
  | .call op => some op
  | .minerStep _ =>
    match node.miner with
    | .ready block => some (.addBlock block)
    | _ => none

/-- The phase of the miner after a step. -/
def MinerAct.phase (node : MinerNode) : MinerAct → MinerPhase
  | .call _ => node.miner
  | .minerStep now => node.miner.next node.chain now

/-- The node as a machine. -/
def minerMachine : Machine MinerNode MinerAct Event where
  step node act :=
    match act.op? node with
    | some op => (⟨op.next node.chain, act.phase node⟩, op.events node.chain)
    | none => (⟨node.chain, act.phase node⟩, [])

/-- A step that only reads. -/
theorem minerMachine_step_read (bc : Blockchain) {phase : MinerPhase} (now : UInt64)
    (h : ∀ block, phase ≠ .ready block) :
    minerMachine.step ⟨bc, phase⟩ (.minerStep now) = (⟨bc, phase.next bc now⟩, []) := by
  cases phase with
  | ready block => exact absurd rfl (h block)
  | _ => rfl

/-! ### The template with nothing in between -/

/-- The reads a phase has behind it. -/
def MinerPhase.reads : MinerPhase → ℕ
  | .idle => 0
  | .rooted _ => 1
  | .copied _ _ => 2
  | .applied _ _ => 3
  | .txRooted _ _ _ => 4
  | .numbered _ _ _ _ => 5
  | .built _ => 6
  | .ready _ => 7

/-- A step makes one read, or ends the round. -/
theorem MinerPhase.reads_next_le (bc : Blockchain) (now : UInt64) (phase : MinerPhase) :
    (phase.next bc now).reads ≤ phase.reads + 1 := by
  cases phase with
  | idle =>
    rw [next]
    split <;> simp [reads]
  | copied before temp =>
    rw [next]
    split
    · simp [reads]
    · split <;> simp [reads]
  | _ => simp [next, reads]

/-- The reads of a template change nothing: only the step after the seventh calls `addBlock`. -/
theorem chain_run_reads {bc : Blockchain} {phase : MinerPhase} {n : ℕ} (now : UInt64)
    (hn : phase.reads + n ≤ 7) :
    (minerMachine.run ⟨bc, phase⟩ (List.replicate n (.minerStep now))).1.chain = bc := by
  induction n generalizing phase with
  | zero => rfl
  | succ n ih =>
    have hread : ∀ block, phase ≠ .ready block := by
      rintro block rfl
      rw [MinerPhase.reads] at hn
      omega
    rw [List.replicate_succ, Machine.run_cons, minerMachine_step_read bc now hread]
    have hnext := phase.reads_next_le bc now
    exact ih (by omega)

/-- `buildBlockTemplate` is seven reads of the thread with nothing in between. -/
theorem buildBlockTemplate_eq_run {bc : Blockchain} {now : UInt64} {block : Block}
    (h : bc.buildBlockTemplate now = .ok block) :
    (minerMachine.run ⟨bc, .idle⟩ (List.replicate 7 (.minerStep now))).1 = ⟨bc, .ready block⟩ := by
  obtain ⟨before, hbefore, h⟩ := bind_eq_ok.mp h
  obtain ⟨⟨⟩, happly, h⟩ := bind_eq_ok.mp h
  obtain ⟨after, hafter, h⟩ := bind_eq_ok.mp h
  have hblock : bc.nextBlock now before after = block := Except.ok.inj h
  have hroot : MinerPhase.idle.next bc now = .rooted before := by simp [MinerPhase.next, hbefore]
  have happlied : (MinerPhase.copied before bc.state).next bc now = .applied before after := by
    have hloop : applyAll bc.state bc.mempool = ((applyAll bc.state bc.mempool).1, .ok ()) :=
      Prod.ext rfl happly
    rw [MinerPhase.next, hloop]
    simp only [hafter]
  have hready : (MinerPhase.built (Block.new now (UInt64.ofNat bc.chain.length) bc.back.hash before
      after (Blockchain.computeTxRoot bc.mempool)
      (ZkProver.generate before after (Blockchain.computeTxRoot bc.mempool)))).next bc now =
        .ready block := by
    rw [← hblock]
    rfl
  have hread (phase : MinerPhase) (acts : List MinerAct) (hphase : ∀ b, phase ≠ .ready b) :
      (minerMachine.run ⟨bc, phase⟩ (.minerStep now :: acts)).1 =
        (minerMachine.run ⟨bc, phase.next bc now⟩ acts).1 := by
    rw [Machine.run_cons, minerMachine_step_read bc now hphase]
  simp only [List.replicate]
  rw [hread, hroot, hread, MinerPhase.next, hread, happlied, hread, MinerPhase.next, hread,
    MinerPhase.next, hread, MinerPhase.next, hread, hready]
  · rfl
  all_goals
    intro b hb
    cases hb

/-- A round of the miner is eight steps of its thread with nothing in between. -/
theorem minerRound_eq_run {bc : Blockchain} {now : UInt64} {block : Block}
    (h : bc.buildBlockTemplate now = .ok block) :
    (minerMachine.run ⟨bc, .idle⟩ (List.replicate 8 (.minerStep now))).1 =
      ⟨bc.minerRound now, .idle⟩ := by
  have hround : bc.minerRound now = (bc.addBlock block).1 := by simp [Blockchain.minerRound, h]
  have height : List.replicate 8 (MinerAct.minerStep now) =
      List.replicate 7 (.minerStep now) ++ [.minerStep now] := rfl
  rw [hround, height, Machine.run_append, buildBlockTemplate_eq_run h]
  rfl

/-- The template agrees with the block of `mineBlock` on the same chain at the same time. Each
throws exactly when the other does. Otherwise they agree in every field but the receipts and their
root, which the template leaves empty. Building it changes nothing. -/
theorem buildBlockTemplate_agrees_mineBlock (bc : Blockchain) (now : UInt64) :
    (Returns (bc.buildBlockTemplate now) ↔ Returns (bc.mineBlock now).2) ∧
    (∀ template block, bc.buildBlockTemplate now = .ok template →
      (bc.mineBlock now).2 = .ok block →
        template.index = block.index ∧ template.prevHash = block.prevHash ∧
        template.stateBefore = block.stateBefore ∧ template.stateAfter = block.stateAfter ∧
        template.txRoot = block.txRoot ∧ template.proof = block.proof ∧
        template.timestamp = block.timestamp ∧ template.hash = block.hash ∧
        template.transactions = block.transactions) ∧
    (∀ template, bc.buildBlockTemplate now = .ok template →
      (minerMachine.run ⟨bc, .idle⟩ (List.replicate 7 (.minerStep now))).1 =
        ⟨bc, .ready template⟩) ∧
    ∀ n ≤ 7, (minerMachine.run ⟨bc, .idle⟩ (List.replicate n (.minerStep now))).1.chain = bc := by
  refine ⟨?_, ?_, fun template h => buildBlockTemplate_eq_run h, fun n hn =>
    chain_run_reads now (by rwa [MinerPhase.reads, Nat.zero_add])⟩
  · rw [bc.returns_buildBlockTemplate_iff, bc.returns_mineBlock_iff]
  · intro template block htemplate hblock
    rw [Blockchain.eq_template_of_mined htemplate hblock]
    exact ⟨rfl, rfl, rfl, rfl, rfl, rfl, rfl, rfl, rfl⟩

/-- Every interleaving is a run of the chain: the miner's steps either leave it alone or call
`addBlock`. -/
theorem exists_chain_run (node : MinerNode) (acts : List MinerAct) :
    ∃ ops, chainMachine.run node.chain ops =
      ((minerMachine.run node acts).1.chain, (minerMachine.run node acts).2) := by
  induction acts generalizing node with
  | nil => exact ⟨[], rfl⟩
  | cons act acts ih =>
    obtain ⟨ops, hops⟩ := ih (minerMachine.step node act).1
    rw [Machine.run_cons]
    cases hop : act.op? node with
    | none =>
      have hstep : minerMachine.step node act = (⟨node.chain, act.phase node⟩, []) := by
        simp [minerMachine, hop]
      rw [hstep] at hops ⊢
      exact ⟨ops, by simpa using hops⟩
    | some op =>
      have hstep : minerMachine.step node act =
          (⟨op.next node.chain, act.phase node⟩, op.events node.chain) := by
        simp [minerMachine, hop]
      rw [hstep] at hops ⊢
      refine ⟨op :: ops, ?_⟩
      rw [Machine.run_cons]
      show ((chainMachine.run (op.next node.chain) ops).1,
        op.events node.chain ++ (chainMachine.run (op.next node.chain) ops).2) = _
      rw [hops]

/-! ### Linkage -/

/-- The indices count up from zero, and each block links to the one before. -/
structure Linkage (chain : List Block) : Prop where
  index_eq : ∀ i (h : i < chain.length), chain[i].index = UInt64.ofNat i
  linked : chain.IsChain fun b b' => b'.prevHash = b.hash

/-- A block with the right index and link can be put on top. -/
theorem Linkage.concat {chain : List Block} (h : Linkage chain) (hne : chain ≠ []) {block : Block}
    (hindex : block.index = UInt64.ofNat chain.length)
    (hprev : block.prevHash = (chain.getLast hne).hash) : Linkage (chain ++ [block]) := by
  constructor
  · intro i hi
    rcases Nat.lt_or_ge i chain.length with hold | hnew
    · rw [List.getElem_append_left hold]
      exact h.index_eq i hold
    · obtain rfl : i = chain.length := by
        rw [List.length_append, List.length_singleton] at hi
        omega
      rw [List.getElem_concat_length rfl]
      exact hindex
  · rw [List.isChain_append]
    refine ⟨h.linked, List.isChain_singleton _, ?_⟩
    intro x hx y hy
    obtain rfl : chain.getLast hne = x := by
      simpa [List.getLast?_eq_some_getLast hne] using hx
    obtain rfl : block = y := by simpa using hy
    exact hprev

/-- Along every run of the chain, a linked chain stays linked and keeps its blocks. -/
theorem linkage_run {bc : Blockchain} (h : Linkage bc.chain) (ops : List Op) :
    Linkage (chainMachine.run bc ops).1.chain ∧
      bc.chain <+: (chainMachine.run bc ops).1.chain := by
  refine Machine.run_preserves
    (fun bc' : Blockchain => Linkage bc'.chain ∧ bc.chain <+: bc'.chain) ?_
    ⟨h, List.prefix_refl _⟩ ops
  rintro bc' op ⟨hlink, hgrow⟩
  show Linkage (op.next bc').chain ∧ bc.chain <+: (op.next bc').chain
  rcases bc'.next_cases op with ⟨hsame, -⟩ | ⟨block, hnext, hindex, hprev, -⟩
  · rw [hsame]
    exact ⟨hlink, hgrow⟩
  · rw [hnext]
    exact ⟨hlink.concat bc'.chain_ne_nil hindex hprev, hgrow.trans (List.prefix_append _ _)⟩

theorem linkage_new {now : UInt64} {genesis : GenesisConfig} {bc : Blockchain}
    (h : Blockchain.new now genesis = .ok bc) : Linkage bc.chain := by
  obtain ⟨root, -, rfl⟩ := Blockchain.new_eq_ok h
  refine ⟨fun i hi => ?_, List.isChain_singleton _⟩
  obtain rfl : i = 0 := by
    rw [List.length_singleton] at hi
    omega
  rfl

/-- However the calls and the steps of the miner interleave, the chain is never empty, its indices
are the positions of the blocks, each block links to the one before, and what is on the chain
stays there. -/
theorem chain_linkage {now : UInt64} {genesis : GenesisConfig} {bc : Blockchain}
    (hnew : Blockchain.new now genesis = .ok bc) (acts later : List MinerAct) :
    let chain := (minerMachine.run ⟨bc, .idle⟩ acts).1.chain.chain
    chain ≠ [] ∧ (∀ i (h : i < chain.length), chain[i].index = UInt64.ofNat i) ∧
      (∀ i (h : i + 1 < chain.length), chain[i + 1].prevHash = chain[i].hash) ∧
      chain <+: (minerMachine.run ⟨bc, .idle⟩ (acts ++ later)).1.chain.chain := by
  obtain ⟨ops, hops⟩ := exists_chain_run ⟨bc, .idle⟩ acts
  obtain ⟨ops', hops'⟩ := exists_chain_run (minerMachine.run ⟨bc, .idle⟩ acts).1 later
  have hlink := (linkage_run (linkage_new hnew) ops).1
  rw [hops] at hlink
  have hgrow := (linkage_run hlink ops').2
  rw [hops'] at hgrow
  refine ⟨Blockchain.chain_ne_nil _, hlink.index_eq, List.isChain_iff_getElem.mp hlink.linked, ?_⟩
  rw [Machine.run_append]
  exact hgrow

/-- A template that is stale when it is added: seven reads, a block by another thread, and then
`addBlock`. -/
theorem chain_linkage_stale :
    ∃ bc, Blockchain.new 0 Blockchain.fiveUnits = .ok bc ∧
      let chain := (minerMachine.run ⟨bc, .idle⟩
        (List.replicate 7 (.minerStep 0) ++ [.call (.mineBlock 0), .minerStep 0])).1.chain.chain
      chain ≠ [] ∧ ∀ i (h : i + 1 < chain.length), chain[i + 1].prevHash = chain[i].hash := by
  obtain ⟨bc, hbc⟩ := Blockchain.exists_new 0 Blockchain.fiveUnits
  obtain ⟨hne, -, hlinked, -⟩ := chain_linkage hbc
    (List.replicate 7 (.minerStep 0) ++ [.call (.mineBlock 0), .minerStep 0]) []
  exact ⟨bc, hbc, hne, hlinked⟩

end Gambit
