import GambitCore.Blockchain.Accounting
import GambitCore.Blockchain.Admission
import GambitCore.Process

/-!
# Where transactions come from

Whatever peers send and however the threads interleave, a transaction gets into the mempool of a
node only as the text of a submission or of a `NEW_TX` message, and into a block only from the
mempool or inside the text of a block. Each of these texts goes through `Transaction::fromHex`,
which recovers the sender from the signature. So the ledger is an account book of transfers that
their senders have signed for this chain.

## Main definitions

* `Arrived` — the text of a transaction is among the actions of a run
* `Authentic` — hash and sender of a transaction are derived from its signed fields
* `Sourced`, `Settled` — what a run keeps of mempool and ledger

## Main results

* `ledger_accounted_for` — each balance and nonce is accounted for by signed transactions that
  arrived
* `held_transactions_authentic` — what is pending or in a block is authentic
-/

namespace Gambit

variable {S : Secp256k1}

/-- The text came in one of the actions, over RPC or from a peer, and is read as the transaction. -/
def Arrived (S : Secp256k1) (acts : List ProcessAct) (tx : Transaction) : Prop :=
  ∃ raw, (.thread (.decode raw) ∈ acts ∨ .receive ⟨.newTx, raw⟩ ∈ acts) ∧
    Transaction.fromHex S raw = .ok tx

/-- The hash is that of the fields, and the sender is recovered from the signature. -/
structure Authentic (S : Secp256k1) (tx : Transaction) : Prop where
  hash_eq : tx.hash = tx.computeHash
  recover_eq : recoverAddress S tx.signingHash tx.sig tx.chainId = .ok tx.from_

theorem authentic_of_fromHex {raw : Str} {tx : Transaction}
    (h : Transaction.fromHex S raw = .ok tx) : Authentic S tx :=
  ⟨(Transaction.derived_of_fromHex h).1, (Transaction.derived_of_fromHex h).2⟩

/-! ### Submissions -/

/-- The submission was under way, and if it is validated, it was already or passes now. -/
def Carried (S : Secp256k1) (node : NodeState) (sub : Submission) : Prop :=
  ∃ old ∈ node.inFlight, old.tx = sub.tx ∧ (sub.validated = true →
    old.validated = true ∨ node.chain.validateTransaction S sub.tx = .ok ())

theorem carried_of_mem {node : NodeState} {sub : Submission} (h : sub ∈ node.inFlight) :
    Carried S node sub :=
  ⟨sub, h, rfl, Or.inl⟩

/-- A submission under way is carried over from before, or has just been decoded. -/
theorem Act.inFlight_next_cases {node : NodeState} {act : Act} {sub : Submission}
    (h : sub ∈ (act.next S node).inFlight) :
    Carried S node sub ∨
      ∃ raw, act = .decode raw ∧ Transaction.fromHex S raw = .ok sub.tx ∧
        sub.validated = false := by
  cases act with
  | decode raw =>
    simp only [Act.next] at h
    split at h
    · next tx htx =>
      rcases List.mem_append.mp h with hsub | hnew
      · exact .inl (carried_of_mem hsub)
      · obtain rfl := List.mem_singleton.mp hnew
        exact .inr ⟨raw, rfl, htx, rfl⟩
    · exact .inl (carried_of_mem h)
  | validate i =>
    simp only [Act.next] at h
    split at h
    · next tx htx =>
      split at h
      · next hvalid =>
        rcases List.mem_or_eq_of_mem_set h with hsub | rfl
        · exact .inl (carried_of_mem hsub)
        · exact .inl ⟨_, List.mem_of_getElem? htx, rfl, fun _ => .inr hvalid⟩
      · exact .inl (carried_of_mem (List.mem_of_mem_eraseIdx h))
    · exact .inl (carried_of_mem h)
  | add i =>
    simp only [Act.next] at h
    split at h
    · exact .inl (carried_of_mem (List.mem_of_mem_eraseIdx h))
    · exact .inl (carried_of_mem h)
  | mine now => exact .inl (carried_of_mem h)

/-- An action brings a text that is read as the transaction. -/
def Brings (S : Secp256k1) (act : ProcessAct) (tx : Transaction) : Prop :=
  ∃ raw, (act = .thread (.decode raw) ∨ act = .receive ⟨.newTx, raw⟩) ∧
    Transaction.fromHex S raw = .ok tx

/-- The same for a step of the process. -/
theorem Process.inFlight_step_cases {node : Process} {act : ProcessAct} {sub : Submission}
    (h : sub ∈ ((processMachine S).step node act).1.inFlight) :
    Carried S node.toNodeState sub ∨ (Brings S act sub.tx ∧ sub.validated = false) := by
  -- Only a submission decodes, for a client or for the message of a peer.
  have hsubmit (a : Act) (hact : ∀ raw, a = .decode raw →
      act = .thread (.decode raw) ∨ act = .receive ⟨.newTx, raw⟩)
      (hsub : sub ∈ (node.submit S a).inFlight) :
      Carried S node.toNodeState sub ∨ (Brings S act sub.tx ∧ sub.validated = false) := by
    rcases Act.inFlight_next_cases hsub with hsame | ⟨raw, hraw, htx, hfresh⟩
    · exact .inl hsame
    · exact .inr ⟨⟨raw, hact raw hraw, htx⟩, hfresh⟩
  rcases node.step_eq_or S act with hstep | hstep
  · rw [hstep] at h
    cases act with
    | receive msg =>
      obtain ⟨type, payload⟩ := msg
      simp only [ProcessAct.step, receive] at h
      split at h
      · refine hsubmit _ (fun raw hraw => ?_) h
        obtain rfl := Act.decode.inj hraw
        exact .inr rfl
      · exact .inl (carried_of_mem h)
      · exact .inl (carried_of_mem h)
    | killed => exact .inl (carried_of_mem h)
    | thread act =>
      cases act with
      | mainStep now =>
        refine .inl (carried_of_mem ?_)
        simp only [ProcessAct.step, ThreadAct.step, mainStep] at h
        split at h
        · exact h
        · split at h <;> exact h
        · split at h <;> exact h
        · exact h
      | loopStep now =>
        refine .inl (carried_of_mem ?_)
        simp only [ProcessAct.step, ThreadAct.step, loopStep] at h
        split at h <;> exact h
      | decode raw =>
        refine hsubmit _ (fun raw' hraw => ?_) h
        obtain rfl := Act.decode.inj hraw
        exact .inl rfl
      | validate i => exact hsubmit _ (by simp) h
      | add i => exact hsubmit _ (by simp) h
  · rw [hstep] at h
    exact .inl (carried_of_mem h)

/-! ### The mempool -/

theorem chainId_addBlock (bc : Blockchain) (block : Block) :
    (bc.addBlock block).1.chainId = bc.chainId ∧ (bc.addBlock block).1.mempool = bc.mempool ∧
      (bc.addBlock block).1.state = bc.state := by
  rcases bc.addBlock_cases block with hadd | hadd
  · rw [hadd]
    exact ⟨rfl, rfl, rfl⟩
  · rw [hadd]
    exact ⟨rfl, rfl, rfl⟩

theorem chainId_mineBlock (bc : Blockchain) (now : UInt64) :
    (bc.mineBlock now).1.chainId = bc.chainId ∧ (bc.mineBlock now).1.mempool ⊆ bc.mempool := by
  rcases bc.mineBlock_cases now with ⟨_, _, -, -, hmine⟩ | ⟨_, _, -, hmine⟩
  · rw [hmine]
    exact ⟨rfl, List.nil_subset _⟩
  · rw [hmine]
    exact ⟨rfl, List.Subset.refl _⟩

/-- The chain id stays, and what is pending was pending or validated before. -/
theorem ProcessStep.mempool {node next : Process} {batch : List (List Transaction)}
    (h : ProcessStep S node next batch) :
    next.chain.chainId = node.chain.chainId ∧
      ∀ tx ∈ next.chain.mempool, tx ∈ node.chain.mempool ∨ ⟨tx, true⟩ ∈ node.inFlight := by
  cases h with
  | quiet hchain =>
    rw [hchain]
    exact ⟨rfl, fun tx htx => .inl htx⟩
  | enqueue tx hvalidated hchain =>
    rw [hchain]
    refine ⟨rfl, fun tx' htx' => ?_⟩
    rcases List.mem_append.mp htx' with hold | hnew
    · exact .inl hold
    · obtain rfl := List.mem_singleton.mp hnew
      exact .inr hvalidated
  | mine now hchain =>
    rw [hchain]
    obtain ⟨hid, hsubset⟩ := chainId_mineBlock node.chain now
    exact ⟨hid, fun tx htx => .inl (hsubset htx)⟩
  | extend block _ hchain =>
    rw [hchain]
    obtain ⟨hid, hmempool, -⟩ := chainId_addBlock node.chain block
    exact ⟨hid, fun tx htx => .inl (hmempool ▸ htx)⟩

/-- All transactions under way and pending are of a kind, and those that were validated are for this
chain. -/
structure Sourced (Kind : Transaction → Prop) (node : Process) : Prop where
  inFlight : ∀ sub ∈ node.inFlight, Kind sub.tx
  validated : ∀ sub ∈ node.inFlight, sub.validated = true → sub.tx.chainId = node.chain.chainId
  mempool : ∀ tx ∈ node.chain.mempool, Kind tx ∧ tx.chainId = node.chain.chainId

theorem sourced_start {Kind : Transaction → Prop} {bc : Blockchain} (h : bc.mempool = [])
    (n : ℕ) : Sourced Kind (.start bc n) :=
  ⟨by simp [Process.start], by simp [Process.start], by simp [Process.start, h]⟩

theorem Sourced.step {Kind : Transaction → Prop} {node : Process} (h : Sourced Kind node)
    {act : ProcessAct} (hact : ∀ tx, Brings S act tx → Kind tx) :
    Sourced Kind ((processMachine S).step node act).1 := by
  obtain ⟨hid, hpending⟩ := (node.step_cases (S := S) act).mempool
  refine ⟨fun sub hsub => ?_, fun sub hsub hvalidated => ?_, fun tx htx => ?_⟩
  · rcases Process.inFlight_step_cases hsub with ⟨old, hold, htx, -⟩ | ⟨hbrings, -⟩
    · rw [← htx]
      exact h.inFlight old hold
    · exact hact _ hbrings
  · rw [hid]
    rcases Process.inFlight_step_cases hsub with ⟨old, hold, htx, hkept⟩ | ⟨-, hfresh⟩
    · rcases hkept hvalidated with hbefore | hvalid
      · rw [← htx]
        exact h.validated old hold hbefore
      · -- The chain id is fixed, so the verdict does not go stale as that on the nonce does.
        exact (Blockchain.validateTransaction_eq_ok_iff.mp hvalid).chainId_eq
    · rw [hfresh] at hvalidated
      cases hvalidated
  · rw [hid]
    rcases hpending tx htx with hold | hvalidated
    · exact h.mempool tx hold
    · exact ⟨h.inFlight _ hvalidated, h.validated _ hvalidated rfl⟩

/-! ### The account book -/

/-- The ledger is the one of `s` with the transfers of some transactions settled, all of a kind and
for this chain, and the nonces count them. -/
structure Settled (Kind : Transaction → Prop) (s : State) (node : Process)
    (txs : List Transaction) : Prop where
  kind : ∀ tx ∈ txs, Kind tx ∧ tx.chainId = node.chain.chainId
  holdings_eq : node.chain.state.holdings = Transfer.settle s.holdings (txs.map (·.transfer))
  covered : Transfer.AllCovered s.holdings (txs.map (·.transfer))
  nonce_eq : ∀ a, (node.chain.state.account a).nonce =
    (s.account a).nonce + UInt64.ofNat (txs.countP fun tx => tx.from_ = a)
  total_lt : node.chain.state.total < 2 ^ 64

theorem Settled.of_same {Kind : Transaction → Prop} {s : State} {node next : Process}
    {txs : List Transaction} (h : Settled Kind s node txs)
    (hid : next.chain.chainId = node.chain.chainId)
    (hstate : next.chain.state = node.chain.state) : Settled Kind s next txs := by
  obtain ⟨hkind, hholdings, hcovered, hnonce, htotal⟩ := h
  exact ⟨by rwa [hid], by rwa [hstate], hcovered, by rwa [hstate], by rwa [hstate]⟩

/-- `mineBlock` settles the calls of its loop, whether it returns or throws. -/
theorem Settled.mine {Kind : Transaction → Prop} {s : State} {node next : Process}
    {txs : List Transaction} (h : Settled Kind s node txs) (hsourced : Sourced Kind node)
    {now : UInt64} (hchain : next.chain = (node.chain.mineBlock now).1) :
    Settled Kind s next (txs ++ (applyLog node.chain.state node.chain.mempool).map Prod.snd) := by
  obtain ⟨hholdings, hcovered⟩ := holdings_applyAll h.total_lt node.chain.mempool
  have hstate : next.chain.state = (applyAll node.chain.state node.chain.mempool).1 := by
    rw [hchain, state_mineBlock]
  have hid : next.chain.chainId = node.chain.chainId := by
    rw [hchain]
    exact (chainId_mineBlock node.chain now).1
  have hlog : ((applyLog node.chain.state node.chain.mempool).map Prod.snd).map (·.transfer) =
      (applyLog node.chain.state node.chain.mempool).map fun call => call.2.transfer :=
    List.map_map
  refine ⟨fun tx htx => ?_, ?_, ?_, fun a => ?_, ?_⟩
  · rw [hid]
    rcases List.mem_append.mp htx with hold | hnew
    · exact h.kind tx hold
    · obtain ⟨call, hcall, rfl⟩ := List.mem_map.mp hnew
      exact hsourced.mempool _ (mem_of_mem_applyLog hcall)
  · rw [hstate, hholdings, List.map_append, Transfer.settle_append, hlog, h.holdings_eq]
  · rw [List.map_append, Transfer.allCovered_append, hlog, ← h.holdings_eq]
    exact ⟨h.covered, hcovered⟩
  · rw [hstate, nonce_applyAll, h.nonce_eq, List.countP_append, UInt64.ofNat_add,
      UInt64.add_assoc, List.countP_map]
    rfl
  · rw [hstate, (total_applyAll h.total_lt _).1]
    exact h.total_lt

theorem Settled.step {Kind : Transaction → Prop} {s : State} {node next : Process}
    {txs : List Transaction} (h : Settled Kind s node txs) (hsourced : Sourced Kind node)
    {batch : List (List Transaction)} (hstep : ProcessStep S node next batch) :
    ∃ txs, Settled Kind s next txs := by
  have hid := hstep.mempool.1
  cases hstep with
  | quiet hchain => exact ⟨txs, h.of_same hid (by rw [hchain])⟩
  | enqueue tx _ hchain => exact ⟨txs, h.of_same hid (by rw [hchain]; rfl)⟩
  | mine now hchain => exact ⟨_, h.mine hsourced hchain⟩
  | extend block _ hchain =>
    refine ⟨txs, h.of_same hid ?_⟩
    rw [hchain]
    exact (chainId_addBlock node.chain block).2.2

/-- The nonces of a fresh ledger are zero. -/
theorem nonce_ofGenesis (genesis : GenesisConfig) (a : Address) :
    ((State.ofGenesis genesis).account a).nonce = 0 := by
  have hcount := (Counted.ofGenesis genesis).nonce_eq a
  exact UInt64.toNat_inj.mp hcount

/-- What the constructor of the chain leaves. -/
theorem Blockchain.fields_of_new {now : UInt64} {genesis : GenesisConfig} {bc : Blockchain}
    (h : Blockchain.new now genesis = .ok bc) :
    bc.state = State.ofGenesis genesis ∧ bc.mempool = [] ∧ bc.chainId = genesis.chainId := by
  obtain ⟨root, -, rfl⟩ := Blockchain.new_eq_ok h
  exact ⟨rfl, rfl, rfl⟩

/-- A fresh ledger is settled with nothing. -/
theorem settled_start {Kind : Transaction → Prop} {bc : Blockchain}
    (htotal : bc.state.total < 2 ^ 64) (n : ℕ) : Settled Kind bc.state (.start bc n) [] :=
  ⟨by simp, rfl, trivial, by simp [Process.start], htotal⟩

/-- Along every run of a process, with any peers and any interleaving, the ledger is accounted for
by transactions whose texts arrived in the run, signed by their senders for this chain: of each
account, the balance and what it sent are its premine and what it received, as natural numbers, and
the nonce counts what it sent. -/
theorem ledger_accounted_for {now : UInt64} {genesis : GenesisConfig} {bc : Blockchain}
    (hnew : Blockchain.new now genesis = .ok bc)
    (htotal : (State.ofGenesis genesis).total < 2 ^ 64) (n : ℕ) (acts : List ProcessAct) :
    let ledger := ((processMachine S).run (.start bc n) acts).1.chain.state
    ∃ txs : List Transaction,
      (∀ tx ∈ txs, Arrived S acts tx ∧ Authentic S tx ∧ tx.chainId = genesis.chainId) ∧
      ∀ a, ledger.holdings a + Transfer.outgoing (txs.map (·.transfer)) a =
          (State.ofGenesis genesis).holdings a + Transfer.incoming (txs.map (·.transfer)) a ∧
        (ledger.account a).nonce = UInt64.ofNat (txs.countP fun tx => tx.from_ = a) := by
  intro ledger
  obtain ⟨hstate, hmempool, hchainId⟩ := Blockchain.fields_of_new hnew
  rw [← hstate] at htotal
  -- What an action of the run brings has arrived in the run.
  have hbrings (act : ProcessAct) (hact : act ∈ acts) (tx : Transaction) (h : Brings S act tx) :
      Arrived S acts tx := by
    obtain ⟨raw, rfl | rfl, htx⟩ := h
    · exact ⟨raw, .inl hact, htx⟩
    · exact ⟨raw, .inr hact, htx⟩
  have hrun := Machine.run_invariant (M := processMachine S)
    (fun node => Sourced (Arrived S acts) node ∧
      (∃ txs, Settled (Arrived S acts) bc.state node txs) ∧ node.chain.chainId = bc.chainId)
    (fun _ => True)
    (fun node act h hact => by
      obtain ⟨hsourced, ⟨txs, hsettled⟩, hid⟩ := h
      have hstep := node.step_cases (S := S) act
      exact ⟨⟨hsourced.step (hbrings act hact), hsettled.step hsourced hstep,
        hstep.mempool.1.trans hid⟩, fun _ _ => trivial⟩)
    ⟨sourced_start hmempool n, ⟨[], settled_start htotal n⟩, rfl⟩
    ((processMachine S).guarded_of_forall_mem (fun act hact => hact) _)
  obtain ⟨⟨-, ⟨txs, hsettled⟩, hid⟩, -⟩ := hrun
  refine ⟨txs, fun tx htx => ?_, fun a => ⟨?_, ?_⟩⟩
  · obtain ⟨⟨raw, hcame, hraw⟩, hchain⟩ := hsettled.kind tx htx
    exact ⟨⟨raw, hcame, hraw⟩, authentic_of_fromHex hraw, (hchain.trans hid).trans hchainId⟩
  · have hsettle := Transfer.settle_add_outgoing hsettled.covered a
    rwa [← hsettled.holdings_eq, hstate] at hsettle
  · have hnonce := hsettled.nonce_eq a
    rwa [hstate, nonce_ofGenesis, UInt64.zero_add] at hnonce

/-- A transfer is submitted to a fresh node and mined. -/
theorem ledger_accounted_for_submitOnce :
    Blockchain.new 0 {} = .ok freshChain ∧
      let acts : List ProcessAct :=
        [.thread (.decode (Transaction.devSigned Transaction.sigChain1 1).toHex),
          .thread (.validate 0), .thread (.add 0), .thread (.mainStep 0)]
      let ledger := ((processMachine devLib).run (.start freshChain 1) acts).1.chain.state
      ∃ txs : List Transaction, (∀ tx ∈ txs, Arrived devLib acts tx) ∧
        ∀ a, ledger.holdings a + Transfer.outgoing (txs.map (·.transfer)) a =
          Transfer.incoming (txs.map (·.transfer)) a := by
  refine ⟨new_eq_freshChain, ?_⟩
  intro acts ledger
  obtain ⟨txs, htxs, haccount⟩ := ledger_accounted_for (S := devLib) new_eq_freshChain
    (by decide) 1 acts
  refine ⟨txs, fun tx htx => (htxs tx htx).1, fun a => ?_⟩
  have hzero : (State.ofGenesis {}).holdings a = 0 := rfl
  have hbook := (haccount a).1
  rwa [hzero, Nat.zero_add] at hbook

/-! ### Blocks -/

/-- The transactions of the block are authentic. -/
def AuthenticBlock (S : Secp256k1) (b : Block) : Prop := ∀ tx ∈ b.transactions, Authentic S tx

/-- Each transaction of a block that was decoded has gone through `Transaction::fromHex`. -/
theorem authenticBlock_of_fromHex {hex : Str} {b : Block} (h : Block.fromHex S hex = .ok b) :
    AuthenticBlock S b := by
  obtain ⟨raw, -, h⟩ := bind_eq_ok.mp h
  obtain ⟨root, -, h⟩ := bind_eq_ok.mp h
  unfold Block.ofDecoded at h
  split at h
  · split at h
    · cases h
    · obtain ⟨txs, htxs, h⟩ := bind_eq_ok.mp h
      obtain rfl := Except.ok.inj h
      -- The loop collects transactions that carry the proof of where they come from.
      obtain ⟨us, -, rfl⟩ := exists_map_of_mapM (g := Subtype.val (p := Authentic S))
        (R := fun _ _ => True)
        (fun _ tx htx => ⟨⟨tx, authentic_of_fromHex htx⟩, trivial, rfl⟩) htxs
      intro tx htx
      obtain ⟨u, -, rfl⟩ := List.mem_map.mp htx
      exact u.2
  · cases h

/-- A template is ready when the mempool has been copied into it. -/
theorem MinerPhase.eq_built_of_ready {bc : Blockchain} {now : UInt64} {phase : MinerPhase}
    {b : Block} (h : phase.next bc now = .ready b) : b.transactions = bc.mempool := by
  cases phase with
  | built block =>
    obtain rfl := MinerPhase.ready.inj h
    rfl
  | idle =>
    rw [next] at h
    split at h <;> cases h
  | copied before temp =>
    rw [next] at h
    split at h
    · cases h
    · split at h <;> cases h
  | _ => cases h

/-- The template of the loop after a step is the one from before, or carries the mempool. -/
theorem Process.loop_step_cases {node : Process} {act : ProcessAct} {b : Block}
    (h : ((processMachine S).step node act).1.loop = .building (.ready b)) :
    node.loop = .building (.ready b) ∨ b.transactions = node.chain.mempool := by
  rcases node.step_eq_or S act with hstep | hstep
  · rw [hstep] at h
    cases act with
    | receive msg =>
      simp only [ProcessAct.step, receive] at h
      split at h <;> exact .inl h
    | killed => exact .inl h
    | thread act =>
      cases act with
      | mainStep now =>
        simp only [ProcessAct.step, ThreadAct.step, mainStep] at h
        split at h
        · exact .inl h
        · split at h <;> exact .inl h
        · split at h <;> exact .inl h
        · exact .inl h
      | loopStep now =>
        simp only [ProcessAct.step, ThreadAct.step, loopStep] at h
        split at h
        · cases h
        · exact .inr (MinerPhase.eq_built_of_ready (LoopPhase.building.inj h))
        · cases h
      | _ => exact .inl h
  · rw [hstep] at h
    exact .inl h

/-- A block that is new on the chain carries what was pending, or was a template of the loop or the
text of a peer. -/
theorem ProcessStep.chain {node next : Process} {batch : List (List Transaction)}
    (h : ProcessStep S node next batch) {b : Block} (hb : b ∈ next.chain.chain) :
    b ∈ node.chain.chain ∨ b.transactions = node.chain.mempool ∨
      node.loop = .building (.ready b) ∨ ∃ hex, Block.fromHex S hex = .ok b := by
  cases h with
  | quiet hchain => exact .inl (hchain ▸ hb)
  | enqueue tx _ hchain => exact .inl (by rwa [hchain] at hb)
  | mine now hchain =>
    rw [hchain] at hb
    rcases node.chain.mineBlock_cases now with ⟨s', block, -, hsealed, hmine⟩ | ⟨s', e, -, hmine⟩
    · rw [hmine] at hb
      rcases List.mem_append.mp hb with hold | hnew
      · exact .inl hold
      · obtain rfl := List.mem_singleton.mp hnew
        obtain ⟨before, after, receiptsRoot, -, -, rfl⟩ := hsealed
        exact .inr (.inl rfl)
    · rw [hmine] at hb
      exact .inl hb
  | extend block horigin hchain =>
    rw [hchain] at hb
    rcases node.chain.addBlock_cases block with hadd | hadd
    · rw [hadd] at hb
      exact .inl hb
    · rw [hadd] at hb
      rcases List.mem_append.mp hb with hold | hnew
      · exact .inl hold
      · obtain rfl := List.mem_singleton.mp hnew
        exact .inr (.inr horigin)

/-- What a run keeps: submissions, mempool, chain and the template of the loop are authentic. -/
structure Genuine (S : Secp256k1) (node : Process) : Prop where
  sourced : Sourced (Authentic S) node
  chain : ∀ b ∈ node.chain.chain, AuthenticBlock S b
  loop : ∀ b, node.loop = .building (.ready b) → AuthenticBlock S b

theorem Genuine.step {node : Process} (h : Genuine S node) (act : ProcessAct) :
    Genuine S ((processMachine S).step node act).1 := by
  have hbrings (tx : Transaction) (hact : Brings S act tx) : Authentic S tx := by
    obtain ⟨raw, -, hraw⟩ := hact
    exact authentic_of_fromHex hraw
  have hpending {b : Block} (hb : b.transactions = node.chain.mempool) : AuthenticBlock S b := by
    intro tx htx
    rw [hb] at htx
    exact (h.sourced.mempool tx htx).1
  refine ⟨h.sourced.step hbrings, fun b hb => ?_, fun b hloop => ?_⟩
  · -- A block of the loop waits in the template while other threads change the mempool.
    rcases (node.step_cases act).chain hb with hold | hmined | htemplate | ⟨hex, hhex⟩
    · exact h.chain b hold
    · exact hpending hmined
    · exact h.loop b htemplate
    · exact authenticBlock_of_fromHex hhex
  · rcases Process.loop_step_cases hloop with hold | hmempool
    · exact h.loop b hold
    · exact hpending hmempool

/-- Whatever peers send and clients submit, in any interleaving, each transaction that is pending or
in a block of the chain has the hash of its fields and the sender that its signature recovers; what
is pending is for this chain. -/
theorem held_transactions_authentic {now : UInt64} {genesis : GenesisConfig} {bc : Blockchain}
    (hnew : Blockchain.new now genesis = .ok bc) (n : ℕ) (acts : List ProcessAct) :
    let node := ((processMachine S).run (.start bc n) acts).1
    (∀ tx ∈ node.chain.mempool, Authentic S tx ∧ tx.chainId = node.chain.chainId) ∧
      ∀ b ∈ node.chain.chain, ∀ tx ∈ b.transactions, Authentic S tx := by
  have hstart : Genuine S (.start bc n) := by
    obtain ⟨root, -, rfl⟩ := Blockchain.new_eq_ok hnew
    refine ⟨sourced_start rfl n, fun b hb => ?_, fun b hloop => by cases hloop⟩
    obtain rfl := List.mem_singleton.mp hb
    intro tx htx
    cases htx
  have hrun := Machine.run_preserves (M := processMachine S) (Genuine S)
    (fun node act h => h.step act) hstart acts
  exact ⟨hrun.sourced.mempool, hrun.chain⟩

theorem held_transactions_authentic_submitOnce :
    Blockchain.new 0 {} = .ok freshChain ∧
      let acts : List ProcessAct :=
        [.thread (.decode (Transaction.devSigned Transaction.sigChain1 1).toHex),
          .thread (.validate 0), .thread (.add 0)]
      ∀ tx ∈ ((processMachine devLib).run (.start freshChain 1) acts).1.chain.mempool,
        Authentic devLib tx :=
  ⟨new_eq_freshChain, fun tx htx =>
    ((held_transactions_authentic new_eq_freshChain 1 _).1 tx htx).1⟩

end Gambit
