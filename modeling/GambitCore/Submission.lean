import GambitCore.P2p
import GambitCore.Semantics.Run

/-!
# Submitting transactions while blocks are mined

A submission, from a peer or over RPC, is three steps: the text is decoded, the transaction
is validated against the ledger of that moment, and it is put in the mempool. Other
submissions and `mineBlock` calls come in between. `mineBlock` applies what it finds in the
mempool and looks at no nonce.

A nonce is therefore used twice when a sender has two transactions on the way at once, and
when a `mineBlock` call that throws leaves in the mempool what it has applied.

## Main definitions

* `NodeState`, `Act`, `nodeMachine` — submissions as they interleave with mining
* `slot` — the sender and account nonce a transaction is applied at
* `Orderly` — a nonce is current when its transaction is enqueued, and no block is half mined

## Main results

* `handleNewTx_eq_run` — a handler is the three steps with nothing in between
* `no_replay` — orderly runs apply every transaction at its own nonce, and none twice
-/

namespace Gambit

/-- A submission under way. -/
structure Submission where
  tx : Transaction
  validated : Bool

/-- The node: its chain, and the submissions that are not yet in the mempool. -/
structure NodeState where
  chain : Blockchain
  inFlight : List Submission

/-- One step of a submission, or a block. -/
inductive Act
  /-- `Transaction::fromHex` of a new submission. -/
  | decode (raw : Str)
  /-- `validateTransaction` for submission `i`; a refused one ends here. -/
  | validate (i : ℕ)
  /-- `addTransaction` for submission `i`. -/
  | add (i : ℕ)
  /-- `mineBlock`. -/
  | mine (now : UInt64)

variable (S : Secp256k1)

/-- The node a step leaves. -/
def Act.next (node : NodeState) : Act → NodeState
  | .decode raw =>
    match Transaction.fromHex S raw with
    | .ok tx => { node with inFlight := node.inFlight ++ [⟨tx, false⟩] }
    | .error _ => node
  | .validate i =>
    match node.inFlight[i]? with
    | some ⟨tx, false⟩ =>
      match node.chain.validateTransaction S tx with
      | .ok () => { node with inFlight := node.inFlight.set i ⟨tx, true⟩ }
      | .error _ => { node with inFlight := node.inFlight.eraseIdx i }
    | _ => node
  | .add i =>
    match node.inFlight[i]? with
    | some ⟨tx, true⟩ => ⟨node.chain.addTransaction tx, node.inFlight.eraseIdx i⟩
    | _ => node
  | .mine now => { node with chain := (node.chain.mineBlock now).1 }

/-- The transactions a step applies, each with the ledger it finds. -/
def Act.events (node : NodeState) : Act → List (State × Transaction)
  | .mine _ => applyLog node.chain.state node.chain.mempool
  | _ => []

/-- The node as a machine. -/
def nodeMachine : Machine NodeState Act (State × Transaction) :=
  ⟨fun node act => (act.next S node, act.events node)⟩

/-- `handleNewTx` is the three steps of a submission with nothing in between. -/
theorem handleNewTx_eq_run (bc : Blockchain) (hex : Str) :
    ((nodeMachine S).run ⟨bc, []⟩ [.decode hex, .validate 0, .add 0]).1.chain =
      handleNewTx S bc hex := by
  unfold handleNewTx
  cases hdecode : Transaction.fromHex S hex with
  | error e => simp [Machine.run_cons, nodeMachine, Act.next, hdecode]
  | ok tx =>
    cases hvalid : bc.validateTransaction S tx with
    | error e => simp [Machine.run_cons, nodeMachine, Act.next, hdecode, hvalid]
    | ok u => simp [Machine.run_cons, nodeMachine, Act.next, hdecode, hvalid]

variable {S}

theorem state_mineBlock (bc : Blockchain) (now : UInt64) :
    (bc.mineBlock now).1.state = (applyAll bc.state bc.mempool).1 := by
  rcases bc.mineBlock_cases now with ⟨s', block, happlies, -, hmine⟩ | ⟨s', e, herr, hmine⟩
  · rw [hmine, applyAll_eq_ok_iff.mpr happlies]
  · rw [hmine, herr]

/-! ### Slots -/

/-- The sender, and the account nonce at which its transaction is applied. -/
def slot (call : State × Transaction) : Address × UInt64 :=
  (call.2.from_, (call.1.account call.2.from_).nonce)

/-- The ledger's nonces count the calls so far, and no slot is taken twice. -/
structure Counted (s : State) (log : List (State × Transaction)) : Prop where
  nonce_eq : ∀ a, (s.account a).nonce.toNat = countFrom a log
  slot_lt : ∀ call ∈ log, (slot call).2.toNat < countFrom call.2.from_ log
  nodup : (log.map slot).Nodup

theorem countFrom_append_singleton (a : Address) (log : List (State × Transaction))
    (call : State × Transaction) :
    countFrom a (log ++ [call]) = countFrom a log + if call.2.from_ = a then 1 else 0 := by
  simp [countFrom, List.countP_append, List.countP_cons]

namespace Counted

variable {s : State} {log : List (State × Transaction)} {tx : Transaction}

/-- A fresh ledger has counted nothing. -/
theorem ofGenesis (genesis : GenesisConfig) : Counted (State.ofGenesis genesis) [] := by
  refine ⟨fun a => ?_, by simp, by simp⟩
  suffices h : ∀ (l : List GenesisAccount) (s : State), (s.account a).nonce = 0 →
      ((l.foldl (fun s ga => s.set ga.address { balance := ga.balance, nonce := 0 }) s).account
        a).nonce = 0 from congrArg UInt64.toNat (h genesis.premine State.empty rfl)
  intro l
  induction l with
  | nil => exact fun _ hs => hs
  | cons ga l ih =>
    intro s hs
    apply ih
    rw [State.account_set]
    split
    · rfl
    · exact hs

/-- A call that goes through takes the next slot of its sender, which exists as long as the
64-bit nonce does not wrap. -/
theorem step (h : Counted s log) (hc : s.Covers tx.from_ tx)
    (hwrap : (s.account tx.from_).nonce.toNat + 1 < 2 ^ 64) :
    Counted (s.applyTransaction tx.from_ tx).1 (log ++ [(s, tx)]) := by
  have hcount (a : Address) := countFrom_append_singleton a log (s, tx)
  have hslot : (slot (s, tx)).2.toNat = countFrom tx.from_ log := h.nonce_eq tx.from_
  refine ⟨fun a => ?_, fun call hcall => ?_, ?_⟩
  · rw [State.nonce_applyTransaction, hcount, ← h.nonce_eq]
    by_cases ha : a = tx.from_
    · subst ha
      simp only [hc, and_self, if_true]
      rw [UInt64.toNat_add, UInt64.toNat_one, Nat.mod_eq_of_lt hwrap]
    · simp [ha, Ne.symm ha]
  · rw [hcount]
    rcases List.mem_append.mp hcall with hold | hnew
    · exact (h.slot_lt call hold).trans_le (Nat.le_add_right _ _)
    · obtain rfl := List.mem_singleton.mp hnew
      rw [hslot]
      simp
  · rw [List.map_append, List.nodup_append]
    refine ⟨h.nodup, by simp, ?_⟩
    rintro x hx y hy rfl
    obtain ⟨call, hcall, hcallslot⟩ := List.mem_map.mp hx
    -- An old slot is below the counter, the new one is at it.
    have hlt := h.slot_lt call hcall
    obtain rfl : x = slot (s, tx) := by simpa using hy
    have hfrom : call.2.from_ = tx.from_ := congrArg Prod.fst hcallslot
    rw [hcallslot, hslot, hfrom] at hlt
    exact lt_irrefl _ hlt

/-- The loop over a mempool takes one slot a call. -/
theorem loop (h : Counted s log) {txs : List Transaction}
    (hwrap : ∀ call ∈ applyLog s txs, (call.1.account call.2.from_).nonce.toNat + 1 < 2 ^ 64) :
    Counted (applyAll s txs).1 (log ++ applyLog s txs) := by
  induction txs generalizing s log with
  | nil => simpa [applyAll, applyLog] using h
  | cons tx txs ih =>
    by_cases hc : s.Covers tx.from_ tx
    · rw [applyLog_cons_of_covers hc, List.forall_mem_cons] at hwrap
      have hrest := ih (h.step hc hwrap.1) hwrap.2
      rw [List.append_assoc] at hrest
      rw [applyAll_cons_of_covers hc, applyLog_cons_of_covers hc]
      exact hrest
    · rw [applyAll_cons_of_not_covers hc, applyLog_cons_of_not_covers hc, List.append_nil]
      exact ⟨fun a => by rw [State.account_applyTransaction_of_not_covers a hc, h.nonce_eq],
        h.slot_lt, h.nodup⟩

end Counted

/-! ### Orderly runs -/

/-- A transaction is enqueued while its nonce is current and its sender has nothing pending.
A block is mined when the pending transactions are payable or already the first is not, and no
sender has used up its nonces. -/
def Orderly (node : NodeState) : Act → Prop
  | .add i => ∀ tx, node.inFlight[i]? = some ⟨tx, true⟩ →
      tx.nonce = (node.chain.state.account tx.from_).nonce ∧
        tx.from_ ∉ node.chain.mempool.map Transaction.from_
  | .mine _ =>
    (Payable node.chain.state node.chain.mempool ∨
      ∀ tx ∈ node.chain.mempool.head?, ¬ node.chain.state.Covers tx.from_ tx) ∧
    ∀ tx ∈ node.chain.mempool, (node.chain.state.account tx.from_).nonce.toNat + 1 < 2 ^ 64
  | _ => True

/-- The pending transactions are of different senders, each at its sender's nonce. -/
structure Current (bc : Blockchain) : Prop where
  nonce_eq : ∀ tx ∈ bc.mempool, tx.nonce = (bc.state.account tx.from_).nonce
  nodup : (bc.mempool.map Transaction.from_).Nodup

/-- A mempool of different senders is applied nonce by nonce: no transaction moves the nonce
of a later one. -/
theorem nonce_of_mem_applyLog {s : State} {txs : List Transaction}
    (hnodup : (txs.map Transaction.from_).Nodup) :
    ∀ call ∈ applyLog s txs, call.2 ∈ txs ∧
      (call.1.account call.2.from_).nonce = (s.account call.2.from_).nonce := by
  induction txs generalizing s with
  | nil => simp [applyLog]
  | cons tx txs ih =>
    rw [List.map_cons, List.nodup_cons] at hnodup
    by_cases hc : s.Covers tx.from_ tx
    · rw [applyLog_cons_of_covers hc]
      intro call hcall
      rcases List.mem_cons.mp hcall with rfl | hrest
      · exact ⟨List.mem_cons_self, rfl⟩
      -- A later sender is another one, and only the sender's nonce moves.
      · obtain ⟨hmem, hnonce⟩ := ih hnodup.2 call hrest
        have hne : call.2.from_ ≠ tx.from_ := fun heq =>
          hnodup.1 (heq ▸ List.mem_map_of_mem hmem)
        refine ⟨List.mem_cons_of_mem _ hmem, ?_⟩
        rw [hnonce, State.nonce_applyTransaction]
        simp [hne]
    · rw [applyLog_cons_of_not_covers hc]
      simp

/-- A loop that stops at once applies nothing. -/
theorem applyLog_of_head_not_covers {s : State} {txs : List Transaction}
    (h : ∀ tx ∈ txs.head?, ¬ s.Covers tx.from_ tx) : applyLog s txs = [] := by
  cases txs with
  | nil => rfl
  | cons tx txs => exact applyLog_cons_of_not_covers (h tx rfl)

theorem Current.addTransaction {bc : Blockchain} (h : Current bc) {tx : Transaction}
    (hnonce : tx.nonce = (bc.state.account tx.from_).nonce)
    (hfrom : tx.from_ ∉ bc.mempool.map Transaction.from_) : Current (bc.addTransaction tx) := by
  constructor
  · intro tx' htx'
    rcases List.mem_append.mp htx' with hold | hnew
    · exact h.nonce_eq tx' hold
    · obtain rfl := List.mem_singleton.mp hnew
      exact hnonce
  · show ((bc.mempool ++ [tx]).map Transaction.from_).Nodup
    rw [List.map_append, List.nodup_append]
    refine ⟨h.nodup, by simp, ?_⟩
    rintro a ha b hb rfl
    obtain rfl : a = tx.from_ := by simpa using hb
    exact hfrom ha

theorem Current.mineBlock {bc : Blockchain} (h : Current bc) (now : UInt64)
    (horderly : Payable bc.state bc.mempool ∨
      ∀ tx ∈ bc.mempool.head?, ¬ bc.state.Covers tx.from_ tx) :
    Current (bc.mineBlock now).1 := by
  rcases bc.mineBlock_cases now with ⟨s', block, -, -, hmine⟩ | ⟨s', e, herr, hmine⟩
  · rw [hmine]
    exact ⟨by simp, by simp⟩
  -- The call throws at the first transaction, so what stays pending is not applied.
  · have hlog : applyLog bc.state bc.mempool = [] :=
      applyLog_of_head_not_covers
        (horderly.resolve_left (Blockchain.not_payable_of_error herr))
    have hnonce (a : Address) : (s'.account a).nonce = (bc.state.account a).nonce := by
      have hall := nonce_applyAll bc.state bc.mempool a
      rw [herr, hlog] at hall
      simpa [countFrom] using hall
    rw [hmine]
    exact ⟨fun tx htx => (h.nonce_eq tx htx).trans (hnonce tx.from_).symm, h.nodup⟩

/-- What an orderly run keeps: the mempool is current, the slots are counted, and what was
applied was applied at its own nonce. -/
structure Protected (node : NodeState) (log : List (State × Transaction)) : Prop where
  current : Current node.chain
  counted : Counted node.chain.state log
  nonce_eq : ∀ call ∈ log, call.2.nonce = (call.1.account call.2.from_).nonce

theorem Protected.step {node : NodeState} {log : List (State × Transaction)} {act : Act}
    (h : Protected node log) (horderly : Orderly node act) :
    Protected (act.next S node) (log ++ act.events node) := by
  cases act with
  | decode raw =>
    simp only [Act.next, Act.events, List.append_nil]
    split <;> exact ⟨h.current, h.counted, h.nonce_eq⟩
  | validate i =>
    simp only [Act.next, Act.events, List.append_nil]
    split
    · split <;> exact ⟨h.current, h.counted, h.nonce_eq⟩
    · exact h
  | add i =>
    simp only [Act.next, Act.events, List.append_nil]
    split
    · next tx htx =>
      obtain ⟨hnonce, hfrom⟩ := horderly tx htx
      exact ⟨h.current.addTransaction hnonce hfrom, h.counted, h.nonce_eq⟩
    · exact h
  | mine now =>
    -- Each call finds its sender at the nonce of the ledger before the block.
    have hcalls := nonce_of_mem_applyLog (s := node.chain.state) h.current.nodup
    refine ⟨h.current.mineBlock now horderly.1, ?_, fun call hcall => ?_⟩
    · show Counted (node.chain.mineBlock now).1.state _
      rw [state_mineBlock]
      refine h.counted.loop fun call hcall => ?_
      obtain ⟨hmem, hnonce⟩ := hcalls call hcall
      rw [hnonce]
      exact horderly.2 call.2 hmem
    · rcases List.mem_append.mp hcall with hold | hnew
      · exact h.nonce_eq call hold
      · obtain ⟨hmem, hnonce⟩ := hcalls call hnew
        rw [hnonce]
        exact h.current.nonce_eq call.2 hmem

theorem protected_new {now : UInt64} {genesis : GenesisConfig} {bc : Blockchain}
    (hnew : Blockchain.new now genesis = .ok bc) : Protected ⟨bc, []⟩ [] := by
  obtain ⟨root, -, rfl⟩ := Blockchain.new_eq_ok hnew
  exact ⟨⟨by simp, by simp⟩, Counted.ofGenesis genesis, by simp⟩

/-- The replay protection of orderly runs: every transaction `mineBlock` applies has its
sender's account nonce, so that no two have the same sender and nonce. -/
theorem no_replay {now : UInt64} {genesis : GenesisConfig} {bc : Blockchain}
    (hnew : Blockchain.new now genesis = .ok bc) (acts : List Act)
    (horderly : (nodeMachine S).Guarded Orderly ⟨bc, []⟩ acts) :
    let log := ((nodeMachine S).run ⟨bc, []⟩ acts).2
    (∀ call ∈ log, call.2.nonce = (call.1.account call.2.from_).nonce) ∧
      (log.map fun call => (call.2.from_, call.2.nonce)).Nodup := by
  have hrun := Machine.run_history Protected (fun node log act hinv hguard => hinv.step hguard)
    (protected_new hnew) horderly
  rw [List.nil_append] at hrun
  refine ⟨hrun.nonce_eq, ?_⟩
  have hslot : ∀ call ∈ ((nodeMachine S).run ⟨bc, []⟩ acts).2,
      (call.2.from_, call.2.nonce) = slot call :=
    fun call hcall => Prod.ext rfl (hrun.nonce_eq call hcall)
  rw [List.map_congr_left hslot]
  exact hrun.counted.nodup

/-! ### One transfer, once and twice -/

open Transaction

/-- The library for the transfer of `devTx` on chain 1. -/
def devLib : Secp256k1 := devSecp sigChain1 otherKeyChain1

/-- A transfer of nothing on chain 1, by a sender that has sent nothing yet. -/
structure FirstTransfer (tx : Transaction) : Prop where
  verify : tx.verifySignature devLib = true
  chainId : tx.chainId = 1
  nonce : tx.nonce = 0
  gasPrice : tx.gasPrice = 0
  value : tx.value = 0

theorem fromHex_devSigned :
    ∃ tx, Transaction.fromHex devLib (devSigned sigChain1 1).toHex = .ok tx ∧
      FirstTransfer tx := by
  have hdecode : Transaction.fromHex devLib (devSigned sigChain1 1).toHex =
      .ok { (devSigned sigChain1 1).onWire with from_ := addressOf devPub } :=
    fromHex_devSigned_chain1
  have hchain : (devSigned sigChain1 1).onWire.chainId = 1 := by decide
  have hnonce : (devSigned sigChain1 1).onWire.nonce = 0 := rfl
  have hprice : (devSigned sigChain1 1).onWire.gasPrice = 0 := rfl
  have hvalue : (devSigned sigChain1 1).onWire.value = 0 := rfl
  -- The fields are read off an abstract transaction, so that no hash has to be computed.
  generalize (devSigned sigChain1 1).onWire = received at *
  exact ⟨_, hdecode, verifySignature_of_fromHex hdecode, hchain, hnonce, hprice, hvalue⟩

namespace FirstTransfer

variable {tx : Transaction} (h : FirstTransfer tx)

include h

theorem validate {bc : Blockchain} (hid : bc.chainId = 1) (hstate : bc.state = State.empty) :
    bc.validateTransaction devLib tx = .ok () := by
  simp [Blockchain.validateTransaction, hid, h.chainId, h.verify, h.nonce, h.gasPrice, h.value,
    hstate]

theorem covers (s : State) : s.Covers tx.from_ tx := by
  rw [State.Covers, h.value]
  exact UInt64.zero_le

end FirstTransfer

/-- The transfer submitted once and mined. -/
def submitOnce : List Act :=
  [.decode (devSigned sigChain1 1).toHex, .validate 0, .add 0, .mine 0]

/-- The same text submitted twice before a block is mined. -/
def submitTwice : List Act :=
  [.decode (devSigned sigChain1 1).toHex, .decode (devSigned sigChain1 1).toHex, .validate 0,
    .validate 1, .add 0, .add 0, .mine 0]

section Empty

variable (bc : Blockchain) (hid : bc.chainId = 1) (hstate : bc.state = State.empty)
  (hmem : bc.mempool = [])

include hid hstate hmem

theorem orderly_submitOnce : (nodeMachine devLib).Guarded Orderly ⟨bc, []⟩ submitOnce := by
  obtain ⟨tx, hdecode, h⟩ := fromHex_devSigned
  simp [submitOnce, Machine.Guarded, nodeMachine, Act.next, Orderly, hdecode,
    h.validate hid hstate, h.nonce, h.covers, Payable, Blockchain.addTransaction, State.account,
    hstate, hmem]

theorem run_submitTwice : ∃ tx, FirstTransfer tx ∧
    ((nodeMachine devLib).run ⟨bc, []⟩ submitTwice).2 = applyLog State.empty [tx, tx] := by
  obtain ⟨tx, hdecode, h⟩ := fromHex_devSigned
  refine ⟨tx, h, ?_⟩
  simp [submitTwice, Machine.run_cons, nodeMachine, Act.next, Act.events, hdecode,
    h.validate hid hstate, Blockchain.addTransaction, hstate, hmem]

end Empty

theorem no_replay_submitOnce :
    Blockchain.new 0 {} = .ok freshChain ∧
      let log := ((nodeMachine devLib).run ⟨freshChain, []⟩ submitOnce).2
      (∀ call ∈ log, call.2.nonce = (call.1.account call.2.from_).nonce) ∧
        (log.map fun call => (call.2.from_, call.2.nonce)).Nodup :=
  ⟨new_eq_freshChain,
    no_replay new_eq_freshChain submitOnce (orderly_submitOnce freshChain rfl rfl rfl)⟩

/-- Submitted twice before a block is mined, one signed transfer is applied twice: the second
time at nonce 1, though its own nonce is 0 both times. -/
theorem replay_submitTwice :
    Blockchain.new 0 {} = .ok freshChain ∧
      let log := ((nodeMachine devLib).run ⟨freshChain, []⟩ submitTwice).2
      (¬ ∀ call ∈ log, call.2.nonce = (call.1.account call.2.from_).nonce) ∧
        ¬ (log.map fun call => (call.2.from_, call.2.nonce)).Nodup := by
  refine ⟨new_eq_freshChain, ?_⟩
  obtain ⟨tx, h, hlog⟩ := run_submitTwice freshChain rfl rfl rfl
  have hsecond : ((State.empty.applyTransaction tx.from_ tx).1.account tx.from_).nonce = 1 := by
    rw [State.nonce_applyTransaction]
    simp [h.covers, State.account]
  rw [hlog, applyLog_cons_of_covers (h.covers _), applyLog_cons_of_covers (h.covers _)]
  refine ⟨fun hnonce => ?_, by simp⟩
  have hbad := hnonce _ (List.mem_cons_of_mem _ List.mem_cons_self)
  rw [hsecond, h.nonce] at hbad
  exact absurd hbad (by decide)

end Gambit
