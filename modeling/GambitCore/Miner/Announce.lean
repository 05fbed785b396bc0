import GambitCore.Miner

/-!
# What the miner announces

`Miner::loop` and `Miner::submitWork` hand a block to `addBlock` and then to
`P2PNode::broadcastNewBlock`. Neither looks at what `addBlock` returned. A template that is stale by
the time it is added, and a block of an external miner that does not fit, are announced to all peers
although they are not on the chain, and `submitWork` says that it was a success.

The machine here has the thread of the loop, any number of `submitWork` calls under way, and the
calls of other threads into the chain. Adding and announcing are separate steps.

## Main definitions

* `LoopPhase`, `Work`, `AnnounceNode`, `announceMachine`
* `Announcement` — what the peers and the callers of `submitWork` see
* `Timely` — the block still fits when it is added

## Main results

* `announced_on_chain` — with timely blocks only, what is announced is on the chain and what
  `submitWork` reports as success was appended; an untimely block breaks this at once
-/

namespace Gambit

/-! ### The machine -/

/-- Where the loop is: building a template, or between `addBlock` and `broadcastNewBlock`. -/
inductive LoopPhase
  | building (phase : MinerPhase)
  | added (block : Block)

/-- A `submitWork` call under way. What `addBlock` returned is kept here; the source drops it. -/
inductive Work
  /-- `validateMinedBlock` has passed. -/
  | validated (block : Block)
  | added (block : Block) (appended : Bool)

/-- The node: its chain, the loop of its miner, and the `submitWork` calls under way. -/
structure AnnounceNode where
  chain : Blockchain
  loop : LoopPhase
  works : List Work

/-- What the peers and the callers see. -/
inductive Announcement
  /-- `broadcastNewBlock`, with `chain_` at that moment. -/
  | broadcast (chain : List Block) (block : Block)
  /-- `submitWork` returns true, and whether its `addBlock` had appended the block. -/
  | succeeded (block : Block) (appended : Bool)
  /-- `submitWork` returns false. -/
  | refused (block : Block)

/-- A step of one of the threads. -/
inductive AnnounceAct
  | addTransaction (tx : Transaction)
  | mineBlock (now : UInt64)
  /-- `addBlock` for a block from a peer. -/
  | addBlock (block : Block)
  | loopStep (now : UInt64)
  /-- `submitWork` is called. -/
  | submitWork (block : Block)
  /-- The next step of the `submitWork` call `i`. -/
  | workStep (i : ℕ)

namespace AnnounceAct

/-- The call into the chain that a step makes, if it makes one. -/
def op? (node : AnnounceNode) : AnnounceAct → Option Op
  | .addTransaction tx => some (.addTransaction tx)
  | .mineBlock now => some (.mineBlock now)
  | .addBlock block => some (.addBlock block)
  | .loopStep _ =>
    match node.loop with
    | .building (.ready block) => some (.addBlock block)
    | _ => none
  | .submitWork _ => none
  | .workStep i =>
    match node.works[i]? with
    | some (.validated block) => some (.addBlock block)
    | _ => none

/-- The chain after a step. -/
def chain (node : AnnounceNode) (act : AnnounceAct) : Blockchain :=
  match act.op? node with
  | some op => op.next node.chain
  | none => node.chain

/-- The loop after a step. -/
def loop (node : AnnounceNode) : AnnounceAct → LoopPhase
  | .loopStep now =>
    match node.loop with
    | .building (.ready block) => .added block
    | .building phase => .building (phase.next node.chain now)
    | .added _ => .building .idle
  | _ => node.loop

/-- The `submitWork` calls under way after a step. -/
def works (node : AnnounceNode) : AnnounceAct → List Work
  | .submitWork block =>
    if ZkVerifier.verify block.proof then node.works ++ [.validated block] else node.works
  | .workStep i =>
    match node.works[i]? with
    | some (.validated block) => node.works.set i (.added block (node.chain.addBlock block).2)
    | some (.added _ _) => node.works.eraseIdx i
    | none => node.works
  | _ => node.works

/-- What is seen of a step. An exception in `broadcastNewBlock` is ignored by the loop, and goes on
to the caller of `submitWork`. -/
def events (node : AnnounceNode) : AnnounceAct → List Announcement
  | .loopStep _ =>
    match node.loop with
    | .added block => [.broadcast node.chain.chain block]
    | .building _ => []
  | .submitWork block => if ZkVerifier.verify block.proof then [] else [.refused block]
  | .workStep i =>
    match node.works[i]? with
    | some (.added block appended) =>
      .broadcast node.chain.chain block ::
        match block.toHex with
        | .ok _ => [.succeeded block appended]
        | .error _ => []
    | _ => []
  | _ => []

end AnnounceAct

/-- The node as a machine. -/
def announceMachine : Machine AnnounceNode AnnounceAct Announcement :=
  ⟨fun node act => (⟨act.chain node, act.loop node, act.works node⟩, act.events node)⟩

section Steps

variable {bc : Blockchain} {loop : LoopPhase} {works : List Work} {block : Block}

/-- As long as the loop is building, its steps are those of the miner's thread. -/
theorem step_loop_read {phase : MinerPhase} (now : UInt64) (h : ∀ block, phase ≠ .ready block) :
    announceMachine.step ⟨bc, .building phase, works⟩ (.loopStep now) =
      (⟨bc, .building (phase.next bc now), works⟩, []) := by
  cases phase with
  | ready block => exact absurd rfl (h block)
  | _ => rfl

theorem step_loop_ready (now : UInt64) :
    announceMachine.step ⟨bc, .building (.ready block), works⟩ (.loopStep now) =
      (⟨(bc.addBlock block).1, .added block, works⟩, []) := rfl

theorem step_loop_added (now : UInt64) :
    announceMachine.step ⟨bc, .added block, works⟩ (.loopStep now) =
      (⟨bc, .building .idle, works⟩, [.broadcast bc.chain block]) := rfl

theorem step_work_validated {i : ℕ} (h : works[i]? = some (.validated block)) :
    announceMachine.step ⟨bc, loop, works⟩ (.workStep i) =
      (⟨(bc.addBlock block).1, loop, works.set i (.added block (bc.addBlock block).2)⟩, []) := by
  simp only [announceMachine, AnnounceAct.chain, AnnounceAct.op?, AnnounceAct.loop,
    AnnounceAct.works, AnnounceAct.events, h, Op.next]

theorem step_work_added {i : ℕ} {appended : Bool} (h : works[i]? = some (.added block appended)) :
    announceMachine.step ⟨bc, loop, works⟩ (.workStep i) =
      (⟨bc, loop, works.eraseIdx i⟩, .broadcast bc.chain block ::
        match block.toHex with
        | .ok _ => [.succeeded block appended]
        | .error _ => []) := by
  simp only [announceMachine, AnnounceAct.chain, AnnounceAct.op?, AnnounceAct.loop,
    AnnounceAct.works, AnnounceAct.events, h]

end Steps

/-! ### Timely blocks -/

/-- What is announced is on the chain, and what is reported as success was appended. -/
def Announcement.Truthful : Announcement → Prop
  | .broadcast chain block => block ∈ chain
  | .succeeded _ appended => appended = true
  | .refused _ => True

/-- A block that `submitWork` adds has the index and the link of the next block. So has a template
of the loop, or it is on the chain already. -/
def Timely (node : AnnounceNode) : AnnounceAct → Prop
  | .loopStep _ => ∀ block, node.loop = .building (.ready block) →
      node.chain.Accepts block ∨ block ∈ node.chain.chain
  | .workStep i => ∀ block, node.works[i]? = some (.validated block) → node.chain.Accepts block
  | _ => True

/-- A block stays on the chain. -/
theorem mem_chain_next {bc : Blockchain} {block : Block} (h : block ∈ bc.chain) (op : Op) :
    block ∈ (op.next bc).chain := by
  rcases bc.next_cases op with ⟨hsame, -⟩ | ⟨_, hgrow, -⟩
  · rwa [hsame]
  · rw [hgrow]
    exact List.mem_append_left _ h

theorem mem_chain_step {node : AnnounceNode} {block : Block} (h : block ∈ node.chain.chain)
    (act : AnnounceAct) : block ∈ (act.chain node).chain := by
  unfold AnnounceAct.chain
  split
  · exact mem_chain_next h _
  · exact h

/-- What is about to be announced is on the chain, and was appended if it was submitted. -/
structure Announceable (node : AnnounceNode) : Prop where
  loop : ∀ block, node.loop = .added block → block ∈ node.chain.chain
  works : ∀ block appended, .added block appended ∈ node.works →
    block ∈ node.chain.chain ∧ appended = true

theorem mem_addBlock_iff {bc : Blockchain} {block : Block} :
    block ∈ (bc.addBlock block).1.chain ↔ bc.Accepts block ∨ block ∈ bc.chain := by
  by_cases h : bc.Accepts block
  · simp [h, h.addBlock_eq]
  · simp [h, Blockchain.addBlock_of_not_accepts h]

namespace Announceable

variable {node : AnnounceNode} {act : AnnounceAct}

theorem loop_step (h : Announceable node) (htimely : Timely node act) {block : Block}
    (hloop : act.loop node = .added block) : block ∈ (act.chain node).chain := by
  cases act with
  | loopStep now =>
    cases hphase : node.loop with
    | added b => simp [AnnounceAct.loop, hphase] at hloop
    | building phase =>
      cases phase with
      | ready b =>
        -- The template has just been added.
        obtain rfl : b = block := by simpa [AnnounceAct.loop, hphase] using hloop
        rw [AnnounceAct.chain, AnnounceAct.op?, hphase]
        exact mem_addBlock_iff.mpr (htimely b hphase)
      | _ => simp [AnnounceAct.loop, hphase] at hloop
  | _ => exact mem_chain_step (h.loop block hloop) _

theorem works_step (h : Announceable node) (htimely : Timely node act) {block : Block}
    {appended : Bool} (hwork : .added block appended ∈ act.works node) :
    block ∈ (act.chain node).chain ∧ appended = true := by
  -- A call that was between `addBlock` and the announcement before the step is so after it.
  have hold (hmem : .added block appended ∈ node.works) :
      block ∈ (act.chain node).chain ∧ appended = true :=
    (h.works block appended hmem).imp_left fun hin => mem_chain_step hin act
  cases act with
  | submitWork b =>
    rw [AnnounceAct.works] at hwork
    split at hwork
    · exact hold (by simpa using hwork)
    · exact hold hwork
  | workStep i =>
    rw [AnnounceAct.works] at hwork
    split at hwork
    · next b hb =>
      rcases List.mem_or_eq_of_mem_set hwork with hmem | hnew
      · exact hold hmem
      · have haccepts := htimely b hb
        obtain ⟨rfl, rfl⟩ := Work.added.inj hnew
        rw [AnnounceAct.chain, AnnounceAct.op?, hb]
        exact ⟨mem_addBlock_iff.mpr (.inl haccepts), Blockchain.addBlock_eq_true_iff.mpr haccepts⟩
    · exact hold (List.mem_of_mem_eraseIdx hwork)
    · exact hold hwork
  | _ => exact hold hwork

/-- What is announced was on the chain before the step. -/
theorem truthful (h : Announceable node) : ∀ e ∈ act.events node, e.Truthful := by
  cases act with
  | loopStep now =>
    rw [AnnounceAct.events]
    split
    · next block hloop => simpa [Announcement.Truthful] using h.loop block hloop
    · simp
  | submitWork block =>
    rw [AnnounceAct.events]
    split <;> simp [Announcement.Truthful]
  | workStep i =>
    rw [AnnounceAct.events]
    split
    · next block appended hwork =>
      obtain ⟨hin, rfl⟩ := h.works block appended (List.mem_of_getElem? hwork)
      split <;> simpa [Announcement.Truthful] using hin
    · simp
  | _ => simp [AnnounceAct.events]

end Announceable

/-! ### What an untimely block does -/

/-- An announcement right after `addBlock` is truthful exactly when the template was timely. -/
theorem truthful_loop_iff {node : AnnounceNode} {block : Block}
    (hready : node.loop = .building (.ready block)) (now later : UInt64) :
    (∀ e ∈ (announceMachine.run node [.loopStep now, .loopStep later]).2, e.Truthful) ↔
      node.chain.Accepts block ∨ block ∈ node.chain.chain := by
  obtain ⟨bc, loop, works⟩ := node
  obtain rfl : loop = .building (.ready block) := hready
  simp [Machine.run_cons, step_loop_ready, step_loop_added, Announcement.Truthful,
    mem_addBlock_iff]

/-- What `submitWork` announces and returns is truthful exactly when the block was timely, as long
as nothing comes in between and the block has a text. -/
theorem truthful_work_iff {node : AnnounceNode} {i : ℕ} {block : Block}
    (hwork : node.works[i]? = some (.validated block)) (hhex : Returns block.toHex) :
    (∀ e ∈ (announceMachine.run node [.workStep i, .workStep i]).2, e.Truthful) ↔
      node.chain.Accepts block := by
  obtain ⟨bc, loop, works⟩ := node
  obtain ⟨hex, hhex⟩ := hhex
  have hadded : (works.set i (.added block (bc.addBlock block).2))[i]? =
      some (.added block (bc.addBlock block).2) :=
    List.getElem?_set_self (List.getElem?_eq_some_iff.mp hwork).1
  rw [Machine.run_cons, step_work_validated hwork, Machine.run_cons, step_work_added hadded]
  simp only [hhex, Machine.run_nil, List.nil_append, List.append_nil, List.forall_mem_cons,
    Announcement.Truthful, mem_addBlock_iff, Blockchain.addBlock_eq_true_iff]
  exact ⟨fun h => h.2.1, fun h => ⟨.inl h, h, by simp⟩⟩

/-- However the threads interleave, as long as each block fits when it is added, every block that is
announced is on the chain at that moment, and `submitWork` reports success only for blocks that it
appended. A block that does not fit is announced, and reported as success, all the same. -/
theorem announced_on_chain (bc : Blockchain) :
    (∀ acts, announceMachine.Guarded Timely ⟨bc, .building .idle, []⟩ acts →
      ∀ e ∈ (announceMachine.run ⟨bc, .building .idle, []⟩ acts).2, e.Truthful) ∧
    (∀ node block now later, node.loop = .building (.ready block) →
      ((∀ e ∈ (announceMachine.run node [.loopStep now, .loopStep later]).2, e.Truthful) ↔
        node.chain.Accepts block ∨ block ∈ node.chain.chain)) ∧
    ∀ node i block, node.works[i]? = some (.validated block) → Returns block.toHex →
      ((∀ e ∈ (announceMachine.run node [.workStep i, .workStep i]).2, e.Truthful) ↔
        node.chain.Accepts block) := by
  refine ⟨fun acts htimely => ?_, fun node block now later h => truthful_loop_iff h now later,
    fun node i block h hhex => truthful_work_iff h hhex⟩
  have hstart : Announceable ⟨bc, .building .idle, []⟩ := ⟨by simp, by simp⟩
  have hrun := Machine.run_invariant Announceable Announcement.Truthful
    (fun node act h hguard => ⟨⟨fun block => h.loop_step hguard, fun block appended =>
      h.works_step hguard⟩, h.truthful⟩)
    hstart htimely
  exact hrun.2

/-- A block of an external miner that fits. -/
theorem announced_on_chain_foreignBlock :
    ∃ bc, Blockchain.new 0 {} = .ok bc ∧
      ∀ e ∈ (announceMachine.run ⟨bc, .building .idle, []⟩
        [.submitWork (foreignBlock bc), .workStep 0, .workStep 0]).2, e.Truthful := by
  obtain ⟨bc, hbc⟩ := Blockchain.exists_new 0 {}
  have hverify : ZkVerifier.verify (foreignBlock bc).proof = true := verify_generate [] [] []
  have haccepts : bc.Accepts (foreignBlock bc) := ⟨rfl, rfl, hverify⟩
  refine ⟨bc, hbc, (announced_on_chain bc).1 _ ⟨trivial, ?_, ?_, trivial⟩⟩
  · simp [announceMachine, AnnounceAct.works, AnnounceAct.chain, AnnounceAct.op?, Timely, hverify,
      haccepts]
  · simp [announceMachine, AnnounceAct.works, Timely, hverify]

/-! ### A stale template -/

/-- The loop builds its template with the steps of the miner's thread. -/
theorem run_loop_reads {bc : Blockchain} {phase : MinerPhase} {works : List Work} {n : ℕ}
    (now : UInt64) (hn : phase.reads + n ≤ 7) :
    announceMachine.run ⟨bc, .building phase, works⟩ (List.replicate n (.loopStep now)) =
      (⟨bc, .building (minerMachine.run ⟨bc, phase⟩ (List.replicate n (.minerStep now))).1.miner,
        works⟩, []) := by
  induction n generalizing phase with
  | zero => rfl
  | succ n ih =>
    have hread : ∀ block, phase ≠ .ready block := by
      rintro block rfl
      rw [MinerPhase.reads] at hn
      omega
    have hnext := phase.reads_next_le bc now
    rw [List.replicate_succ, List.replicate_succ, Machine.run_cons, Machine.run_cons,
      step_loop_read now hread, minerMachine_step_read bc now hread, ih (by omega)]
    rfl

/-- On a fresh chain the loop builds a template at time 1, another thread mines a block at time 2,
and the loop adds and announces its template: the chain refuses it and does not hold it. -/
theorem announced_stale_template :
    ∃ bc, Blockchain.new 0 {} = .ok bc ∧
      ∃ chain block, (announceMachine.run ⟨bc, .building .idle, []⟩
        (List.replicate 7 (.loopStep 1) ++ [.mineBlock 2, .loopStep 3, .loopStep 3])).2 =
          [.broadcast chain block] ∧ block ∉ chain := by
  obtain ⟨bc, hbc⟩ := Blockchain.exists_new 0 {}
  obtain ⟨hone, hindex, hpay⟩ : bc.chain.length = 1 ∧ (∀ b ∈ bc.chain, b.index = 0) ∧
      Payable bc.state bc.mempool := by
    obtain ⟨root, -, rfl⟩ := Blockchain.new_eq_ok hbc
    exact ⟨rfl, by simp [Block.new], trivial⟩
  obtain ⟨s', mined, -, hsealed, hmine⟩ := bc.exists_mined 2 hpay
  have hmined : mined.timestamp = 2 := by
    obtain ⟨_, _, _, -, -, rfl⟩ := hsealed
    rfl
  obtain ⟨template, htemplate, hnumber, htime⟩ : ∃ template,
      bc.buildBlockTemplate 1 = .ok template ∧ template.index = 1 ∧ template.timestamp = 1 := by
    rcases bc.buildBlockTemplate_cases 1 with ⟨_, before, after, -, -, -, h⟩ | ⟨_, _, herr, -⟩
    · exact ⟨_, h, congrArg UInt64.ofNat hone, rfl⟩
    · exact absurd hpay (Blockchain.not_payable_of_error herr)
  -- The template has the number of the block that was mined, and the chain is one longer.
  have hrefused : (bc.mineBlock 2).1.addBlock template = ((bc.mineBlock 2).1, false) := by
    apply Blockchain.addBlock_of_not_accepts
    intro haccepts
    have hlen := haccepts.index_eq
    rw [hmine, hnumber, List.length_append, hone, List.length_singleton] at hlen
    exact absurd hlen (by decide)
  refine ⟨bc, hbc, (bc.mineBlock 2).1.chain, template, ?_, ?_⟩
  · rw [Machine.run_append, run_loop_reads 1 (by decide), buildBlockTemplate_eq_run htemplate]
    show (announceMachine.run ⟨((bc.mineBlock 2).1.addBlock template).1, .added template, []⟩
      [.loopStep 3]).2 = _
    rw [hrefused]
    rfl
  · rw [hmine]
    intro hmem
    rcases List.mem_append.mp hmem with hgenesis | hlast
    · exact absurd (hnumber.symm.trans (hindex template hgenesis)) (by decide)
    · obtain rfl := List.mem_singleton.mp hlast
      exact absurd (htime.symm.trans hmined) (by decide)

end Gambit
