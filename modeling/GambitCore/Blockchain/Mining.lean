import GambitCore.Blockchain.Basic

/-!
# Mining a block

What one call of `mineBlock` does. The loop over the mempool writes to the ledger as it
goes, so the call is atomic only if nothing can be left behind: every pending transaction
can be paid, or the first one is refused and both of its accounts exist already.

## Main definitions

* `Applies`, `Payable` — all transactions go through in order, and when they do
* `applyLog` — the calls of `applyTransaction` that go through, each with the ledger it finds
* `Blockchain.Atomic` — all or nothing

## Main results

* `mineBlock_cases`, `minerRound_cases` — the two outcomes of `mineBlock`, and of a round of the
  miner
* `nonce_applyAll` — a sender's nonce counts its transactions in the log
* `mineBlock_atomic_iff` — when `mineBlock` is atomic
-/

namespace Gambit

/-- All transactions go through, one after the other. -/
inductive Applies : State → List Transaction → State → Prop
  | nil (s : State) : Applies s [] s
  | cons {s s₁ s₂ : State} {tx : Transaction} {txs : List Transaction} :
      s.applyTransaction tx.from_ tx = (s₁, .ok ()) → Applies s₁ txs s₂ →
        Applies s (tx :: txs) s₂

/-- Each transaction is covered by its sender's balance, as those before it leave it. -/
def Payable (s : State) : List Transaction → Prop
  | [] => True
  | tx :: txs => s.Covers tx.from_ tx ∧ Payable (s.applyTransaction tx.from_ tx).1 txs

instance decidablePayable : (s : State) → (txs : List Transaction) → Decidable (Payable s txs)
  | _, [] => isTrue trivial
  | s, tx :: txs =>
    have := decidablePayable (s.applyTransaction tx.from_ tx).1 txs
    inferInstanceAs (Decidable (_ ∧ _))

/-- The calls of `applyTransaction` that go through, each with the ledger it finds. -/
def applyLog (s : State) : List Transaction → List (State × Transaction)
  | [] => []
  | tx :: txs =>
    match s.applyTransaction tx.from_ tx with
    | (s', .ok ()) => (s, tx) :: applyLog s' txs
    | (_, .error _) => []

section Loop

variable {s : State} {tx : Transaction} {txs : List Transaction}

theorem applyAll_cons_of_covers (h : s.Covers tx.from_ tx) :
    applyAll s (tx :: txs) = applyAll (s.applyTransaction tx.from_ tx).1 txs := by
  rw [applyAll, State.applyTransaction_of_covers h]

theorem applyAll_cons_of_not_covers (h : ¬ s.Covers tx.from_ tx) :
    applyAll s (tx :: txs) = s.applyTransaction tx.from_ tx := by
  rw [applyAll, State.applyTransaction_of_not_covers h]
  rfl

theorem applyLog_cons_of_covers (h : s.Covers tx.from_ tx) :
    applyLog s (tx :: txs) = (s, tx) :: applyLog (s.applyTransaction tx.from_ tx).1 txs := by
  rw [applyLog, State.applyTransaction_of_covers h]

theorem applyLog_cons_of_not_covers (h : ¬ s.Covers tx.from_ tx) :
    applyLog s (tx :: txs) = [] := by
  rw [applyLog, State.applyTransaction_of_not_covers h]
  rfl

theorem applies_cons_iff {s' : State} : Applies s (tx :: txs) s' ↔
    s.Covers tx.from_ tx ∧ Applies (s.applyTransaction tx.from_ tx).1 txs s' := by
  constructor
  · intro h
    cases h with
    | cons hfirst hrest =>
      refine ⟨State.applyTransaction_ok_iff.mp (congrArg Prod.snd hfirst), ?_⟩
      rw [hfirst]
      exact hrest
  · rintro ⟨hc, hrest⟩
    exact .cons (Prod.ext rfl (State.applyTransaction_ok_iff.mpr hc)) hrest

theorem applyAll_eq_ok_iff {s' : State} : applyAll s txs = (s', .ok ()) ↔ Applies s txs s' := by
  induction txs generalizing s with
  | nil =>
    constructor
    · intro h
      obtain rfl := (Prod.mk.inj h).1
      exact .nil s
    · rintro ⟨⟩
      rfl
  | cons tx txs ih =>
    rw [applies_cons_iff]
    by_cases hc : s.Covers tx.from_ tx
    · rw [applyAll_cons_of_covers hc, ih, and_iff_right hc]
    · rw [applyAll_cons_of_not_covers hc, State.applyTransaction_of_not_covers hc]
      simp [hc, runtimeError]

/-- All transactions go through exactly when they are payable. -/
theorem exists_applies_iff : (∃ s', Applies s txs s') ↔ Payable s txs := by
  induction txs generalizing s with
  | nil => exact iff_of_true ⟨s, .nil s⟩ trivial
  | cons tx txs ih => simp only [applies_cons_iff, exists_and_left, ih, Payable]

theorem length_applyLog_le (s : State) (txs : List Transaction) :
    (applyLog s txs).length ≤ txs.length := by
  induction txs generalizing s with
  | nil => simp [applyLog]
  | cons tx txs ih =>
    by_cases hc : s.Covers tx.from_ tx
    · rw [applyLog_cons_of_covers hc]
      simpa using ih _
    · rw [applyLog_cons_of_not_covers hc]
      simp

/-- The transactions of a sender in a log. -/
def countFrom (a : Address) (log : List (State × Transaction)) : ℕ :=
  log.countP fun call => call.2.from_ = a

theorem countFrom_cons (a : Address) (call : State × Transaction)
    (log : List (State × Transaction)) :
    countFrom a (call :: log) = countFrom a log + if call.2.from_ = a then 1 else 0 := by
  simp [countFrom, List.countP_cons]

/-- A sender's nonce counts its transactions in the log, modulo `2 ^ 64`. -/
theorem nonce_applyAll (s : State) (txs : List Transaction) (a : Address) :
    ((applyAll s txs).1.account a).nonce =
      (s.account a).nonce + UInt64.ofNat (countFrom a (applyLog s txs)) := by
  induction txs generalizing s with
  | nil => simp [applyAll, applyLog, countFrom]
  | cons tx txs ih =>
    by_cases hc : s.Covers tx.from_ tx
    · rw [applyAll_cons_of_covers hc, ih, State.nonce_applyTransaction, applyLog_cons_of_covers hc]
      by_cases ha : a = tx.from_
      · subst ha
        simp only [hc, and_self, if_true, countFrom_cons, UInt64.ofNat_add]
        rw [UInt64.add_assoc, UInt64.add_comm 1]
        rfl
      · simp [hc, ha, Ne.symm ha, countFrom_cons]
    · rw [applyAll_cons_of_not_covers hc, State.account_applyTransaction_of_not_covers a hc,
        applyLog_cons_of_not_covers hc]
      simp [countFrom]

end Loop

/-! ### The outcomes of `mineBlock` -/

theorem logs_receiptsFrom (gas : UInt64) (txs : List Transaction) :
    ∀ r ∈ receiptsFrom gas txs, r.logs = [] := by
  induction txs generalizing gas with
  | nil => simp [receiptsFrom]
  | cons tx txs ih =>
    intro r hr
    rcases List.mem_cons.mp hr with rfl | hrest
    · rfl
    · exact ih _ r hrest

/-- Receipts without logs are always encoded. -/
theorem returns_putReceipts {rs : List Receipt} (h : ∀ r ∈ rs, r.logs = []) (trie : MptTrie)
    (i : ℕ) : Returns (putReceipts trie i rs) := by
  induction rs generalizing trie i with
  | nil => exact ⟨trie, rfl⟩
  | cons r rs ih =>
    have henc : Returns r.rlpEncode := by
      rw [Receipt.rlpEncode, h r List.mem_cons_self]
      exact ⟨_, rfl⟩
    obtain ⟨value, hvalue⟩ := henc
    rw [putReceipts, hvalue]
    exact ih (fun r hr => h r (List.mem_cons_of_mem _ hr)) _ _

namespace Blockchain

variable (bc : Blockchain) (now : UInt64)

/-- `block` is what `mineBlock` puts on top of `bc` when the mempool takes the ledger
to `s'`. -/
def Sealed (s' : State) (block : Block) : Prop :=
  ∃ before after receiptsRoot, bc.state.root = .ok before ∧ s'.root = .ok after ∧
    block = { bc.nextBlock now before after with
      receipts := receiptsFrom 0 bc.mempool, receiptsRoot }

/-- `mineBlock` returns when every pending transaction goes through, and throws with the
first that does not. No other part of it can throw. -/
theorem mineBlock_cases :
    (∃ s' block, Applies bc.state bc.mempool s' ∧ bc.Sealed now s' block ∧
      bc.mineBlock now = (⟨bc.chain ++ [block], s', [], bc.chainId, by simp⟩, .ok block)) ∨
    ∃ s' e, applyAll bc.state bc.mempool = (s', .error e) ∧
      bc.mineBlock now = ({ bc with state := s' }, .error e) := by
  -- Neither root throws, and receipts without logs are always encoded: the loop decides.
  obtain ⟨trie, -, hbefore⟩ := bc.state.root_eq_ok
  rcases happly : applyAll bc.state bc.mempool with ⟨s', e | ⟨⟩⟩
  · right
    refine ⟨s', e, rfl, ?_⟩
    simp only [mineBlock, hbefore, happly]
  · left
    obtain ⟨trie', -, hafter⟩ := s'.root_eq_ok
    obtain ⟨rtrie, hrtrie⟩ :=
      returns_putReceipts (logs_receiptsFrom 0 bc.mempool) MptTrie.new 0
    refine ⟨s', _, applyAll_eq_ok_iff.mp happly, ⟨_, _, rtrie.rootHash, hbefore, hafter, rfl⟩, ?_⟩
    simp only [mineBlock, hbefore, happly, sealBlock, hafter, hrtrie, bind, pure, Except.bind,
      Except.pure]
    rfl

/-- A block `mineBlock` returns is sealed on the ledger with the whole mempool applied. -/
theorem exists_sealBlock_of_mined {bc bc' : Blockchain} {now : UInt64} {block : Block}
    (h : bc.mineBlock now = (bc', .ok block)) :
    ∃ s' before, bc.state.root = .ok before ∧
      ({ bc with state := s' } : Blockchain).sealBlock now before = .ok block := by
  unfold mineBlock at h
  split at h
  · cases h
  · next before hbefore =>
    split at h
    · cases h
    · next s' _ =>
      dsimp only at h
      split at h
      · cases h
      · next b hseal =>
        obtain rfl := Except.ok.inj (Prod.mk.inj h).2
        exact ⟨s', before, hbefore, hseal⟩

theorem not_payable_of_error {bc : Blockchain} {s' : State} {e : Exn}
    (h : applyAll bc.state bc.mempool = (s', .error e)) : ¬ Payable bc.state bc.mempool := by
  rw [← exists_applies_iff]
  rintro ⟨s₁, happlies⟩
  rw [applyAll_eq_ok_iff.mpr happlies] at h
  cases (Prod.mk.inj h).2

/-- When the pending transactions are payable, `mineBlock` makes a block of them. -/
theorem exists_mined (h : Payable bc.state bc.mempool) :
    ∃ s' block, Applies bc.state bc.mempool s' ∧ bc.Sealed now s' block ∧
      bc.mineBlock now = (⟨bc.chain ++ [block], s', [], bc.chainId, by simp⟩, .ok block) := by
  rcases bc.mineBlock_cases now with hmined | ⟨_, e, herr, -⟩
  · exact hmined
  · exact absurd h (not_payable_of_error herr)

/-- `mineBlock` returns when the pending transactions are payable. -/
theorem returns_mineBlock (h : Payable bc.state bc.mempool) : Returns (bc.mineBlock now).2 := by
  obtain ⟨_, block, -, -, hmine⟩ := bc.exists_mined now h
  exact ⟨block, by rw [hmine]⟩

theorem returns_mineBlock_iff :
    Returns (bc.mineBlock now).2 ↔ Payable bc.state bc.mempool := by
  refine ⟨fun ⟨block, hblock⟩ => ?_, bc.returns_mineBlock now⟩
  rcases bc.mineBlock_cases now with ⟨s', _, happlies, -, -⟩ | ⟨s', e, -, hmine⟩
  · exact exists_applies_iff.mp ⟨s', happlies⟩
  · rw [hmine] at hblock
    cases hblock

/-- The template of the miner, like the block of `mineBlock`, depends on whether the pending
transactions all go through. -/
theorem buildBlockTemplate_cases :
    (∃ s' before after, Applies bc.state bc.mempool s' ∧ bc.state.root = .ok before ∧
      s'.root = .ok after ∧ bc.buildBlockTemplate now = .ok (bc.nextBlock now before after)) ∨
    ∃ s' e, applyAll bc.state bc.mempool = (s', .error e) ∧
      bc.buildBlockTemplate now = .error e := by
  obtain ⟨trie, -, hbefore⟩ := bc.state.root_eq_ok
  rcases happly : applyAll bc.state bc.mempool with ⟨s', e | ⟨⟩⟩
  · right
    refine ⟨s', e, rfl, ?_⟩
    simp only [buildBlockTemplate, hbefore, happly, bind, Except.bind]
  · left
    obtain ⟨trie', -, hafter⟩ := s'.root_eq_ok
    refine ⟨s', _, _, applyAll_eq_ok_iff.mp happly, hbefore, hafter, ?_⟩
    simp only [buildBlockTemplate, hbefore, happly, hafter, bind, pure, Except.bind, Except.pure]

theorem returns_buildBlockTemplate_iff :
    Returns (bc.buildBlockTemplate now) ↔ Payable bc.state bc.mempool := by
  rcases bc.buildBlockTemplate_cases now with ⟨s', _, _, happlies, -, -, h⟩ | ⟨s', e, herr, h⟩
  · exact iff_of_true ⟨_, h⟩ (exists_applies_iff.mp ⟨s', happlies⟩)
  · refine iff_of_false ?_ (not_payable_of_error herr)
    rintro ⟨block, hblock⟩
    rw [h] at hblock
    cases hblock

/-- The block of `mineBlock` is the template with the receipts put in. -/
theorem eq_template_of_mined {bc : Blockchain} {now : UInt64} {template block : Block}
    (htemplate : bc.buildBlockTemplate now = .ok template)
    (hblock : (bc.mineBlock now).2 = .ok block) :
    block = { template with receipts := block.receipts, receiptsRoot := block.receiptsRoot } := by
  rcases bc.buildBlockTemplate_cases now with ⟨s₁, before, after, happlies, hbefore, hafter, h⟩ |
    ⟨s₁, e, -, h⟩
  · rcases bc.mineBlock_cases now with ⟨s₂, b, happlies', hsealed, hmine⟩ | ⟨s₂, e, -, hmine⟩
    · -- Both go over the same mempool, one on a copy of the ledger.
      obtain ⟨rfl, -⟩ := Prod.mk.inj
        ((applyAll_eq_ok_iff.mpr happlies).symm.trans (applyAll_eq_ok_iff.mpr happlies'))
      obtain ⟨before', after', receiptsRoot, hbefore', hafter', rfl⟩ := hsealed
      obtain rfl := Except.ok.inj (hbefore.symm.trans hbefore')
      obtain rfl := Except.ok.inj (hafter.symm.trans hafter')
      obtain rfl := Except.ok.inj (h.symm.trans htemplate)
      rw [hmine] at hblock
      obtain rfl := Except.ok.inj hblock
      rfl
    · rw [hmine] at hblock
      cases hblock
  · rw [h] at htemplate
    cases htemplate

/-- A round of the miner puts the pending transactions on the chain when they are payable. The
ledger and the mempool stay as they are. -/
theorem minerRound_cases :
    (Payable bc.state bc.mempool ∧ ∃ before after, bc.minerRound now =
      ⟨bc.chain ++ [bc.nextBlock now before after], bc.state, bc.mempool, bc.chainId, by simp⟩) ∨
    (¬ Payable bc.state bc.mempool ∧ bc.minerRound now = bc) := by
  rcases bc.buildBlockTemplate_cases now with ⟨s', before, after, happlies, -, -, h⟩ |
    ⟨s', e, herr, h⟩
  · left
    refine ⟨exists_applies_iff.mp ⟨s', happlies⟩, before, after, ?_⟩
    have hverify : ZkVerifier.verify (bc.nextBlock now before after).proof = true :=
      verify_generate _ _ _
    simp only [minerRound, h, addBlock_of_checks rfl rfl hverify]
  · right
    exact ⟨not_payable_of_error herr, by simp only [minerRound, h]⟩

/-! ### Atomicity -/

/-- All or nothing: `mineBlock` returns a block with the whole mempool and leaves the
ledger with all of it applied, or it throws and leaves chain, mempool and account map as
they were. -/
def Atomic : Prop :=
  match bc.mineBlock now with
  | (bc', .ok b) =>
    bc'.chain = bc.chain ++ [b] ∧ bc'.mempool = [] ∧ b.transactions = bc.mempool ∧
      Applies bc.state bc.mempool bc'.state
  | (bc', .error _) =>
    bc'.chain = bc.chain ∧ bc'.mempool = bc.mempool ∧ bc'.state.SameAccounts bc.state

/-- The first pending transaction is refused, and both of its accounts exist already. -/
def FirstRefused : Prop :=
  ∃ tx txs, bc.mempool = tx :: txs ∧ ¬ bc.state.Covers tx.from_ tx ∧
    (bc.state.get tx.from_).isSome ∧ (bc.state.get tx.to_).isSome

end Blockchain

/-- Once a transaction has gone through, its sender's nonce tells the ledgers apart. -/
theorem not_sameAccounts_of_covers {s : State} {tx : Transaction} {txs : List Transaction}
    (hc : s.Covers tx.from_ tx) (hlen : (tx :: txs).length < 2 ^ 64) :
    ¬ (applyAll s (tx :: txs)).1.SameAccounts s := by
  intro hsame
  have hget := State.sameAccounts_iff.mp hsame
  have hnonce := nonce_applyAll s (tx :: txs) tx.from_
  have haccount : (applyAll s (tx :: txs)).1.account tx.from_ = s.account tx.from_ := by
    rw [State.account, hget, State.account]
  rw [haccount] at hnonce
  have hzero : UInt64.ofNat (countFrom tx.from_ (applyLog s (tx :: txs))) = 0 := by
    simpa using hnonce.symm
  have hpos : 0 < countFrom tx.from_ (applyLog s (tx :: txs)) := by
    rw [applyLog_cons_of_covers hc, countFrom_cons]
    simp
  -- The counter does not come round to zero within one mempool.
  have hle : countFrom tx.from_ (applyLog s (tx :: txs)) ≤ (tx :: txs).length :=
    List.countP_le_length.trans (length_applyLog_le s _)
  have hnat := congrArg UInt64.toNat hzero
  rw [UInt64.toNat_ofNat_of_lt' (lt_of_le_of_lt hle hlen)] at hnat
  simp at hnat
  omega

namespace Blockchain

variable {bc : Blockchain} {now : UInt64}

theorem atomic_of_payable (h : Payable bc.state bc.mempool) : bc.Atomic now := by
  obtain ⟨s', block, happlies, hsealed, hmine⟩ := bc.exists_mined now h
  obtain ⟨_, _, _, _, _, rfl⟩ := hsealed
  rw [Atomic, hmine]
  exact ⟨rfl, rfl, rfl, happlies⟩

theorem atomic_iff_of_error {s' : State} {e : Exn}
    (h : applyAll bc.state bc.mempool = (s', .error e)) :
    bc.Atomic now ↔ s'.SameAccounts bc.state := by
  rcases bc.mineBlock_cases now with ⟨s₁, block, happly, -, -⟩ | ⟨s₁, e₁, herr, hmine⟩
  · rw [applyAll_eq_ok_iff.mpr happly] at h
    cases (Prod.mk.inj h).2
  · obtain ⟨rfl, -⟩ := Prod.mk.inj (herr.symm.trans h)
    rw [Atomic, hmine]
    simp

/-- `mineBlock` is atomic exactly when the pending transactions are payable, or the first is
refused and finds both of its accounts. Anywhere else a refused transaction leaves behind what
was applied or created before it. -/
theorem mineBlock_atomic_iff (bc : Blockchain) (now : UInt64)
    (hlen : bc.mempool.length < 2 ^ 64) :
    bc.Atomic now ↔ Payable bc.state bc.mempool ∨ bc.FirstRefused := by
  rcases happly : applyAll bc.state bc.mempool with ⟨s', e | ⟨⟩⟩
  · rw [atomic_iff_of_error happly, or_iff_right (not_payable_of_error happly)]
    cases hmem : bc.mempool with
    | nil => simp [hmem, applyAll] at happly
    | cons tx txs =>
      rw [hmem] at happly hlen
      by_cases hc : bc.state.Covers tx.from_ tx
      -- A later transaction fails, after the first has moved its sender's nonce.
      · have hnotSame := not_sameAccounts_of_covers hc hlen
        rw [happly] at hnotSame
        refine iff_of_false hnotSame ?_
        rintro ⟨tx', txs', hmem', hc', -⟩
        obtain ⟨rfl, -⟩ := List.cons.inj (hmem.symm.trans hmem')
        exact hc' hc
      -- The first fails: all that can differ is an account it created.
      · rw [applyAll_cons_of_not_covers hc] at happly
        have hsame := State.sameAccounts_applyTransaction_iff hc
        rw [happly] at hsame
        rw [hsame]
        constructor
        · rintro ⟨hfrom, hto⟩
          exact ⟨tx, txs, hmem, hc, hfrom, hto⟩
        · rintro ⟨tx', txs', hmem', -, hfrom, hto⟩
          obtain ⟨rfl, -⟩ := List.cons.inj (hmem.symm.trans hmem')
          exact ⟨hfrom, hto⟩
  · have hpay : Payable bc.state bc.mempool :=
      exists_applies_iff.mp ⟨s', applyAll_eq_ok_iff.mp happly⟩
    exact iff_of_true (atomic_of_payable hpay) (.inl hpay)

/-- An account with five units. -/
def payer : Address := ⟨List.replicate 20 1, rfl⟩

/-- An account that the genesis does not know. -/
def payee : Address := ⟨List.replicate 20 2, rfl⟩

/-- A genesis with one account of five units. -/
def fiveUnits : GenesisConfig := { premine := [{ address := payer, balance := 5 }] }

/-- A payment of all five. -/
def payment : Transaction := { from_ := payer, to_ := payee, value := 5 }

/-- Two payments out of the five units, and one back out of what they brought. -/
def payments : List Transaction :=
  [{ from_ := payer, to_ := payee, value := 2, gasPrice := 1, gasLimit := 21000 },
    { from_ := payer, to_ := payee, value := 3, gasPrice := 1, gasLimit := 30000, nonce := 1 },
    { from_ := payee, to_ := payer, value := 4, gasPrice := 2, gasLimit := 21000 }]

/-- Submitted to a new chain, they are all pending, and all go through. -/
theorem payable_payments {bc : Blockchain} (h : Blockchain.new 0 fiveUnits = .ok bc) :
    (payments.foldl addTransaction bc).mempool = payments ∧
      Payable (payments.foldl addTransaction bc).state
        (payments.foldl addTransaction bc).mempool := by
  obtain ⟨root, -, rfl⟩ := new_eq_ok h
  have hpay : Payable (State.ofGenesis fiveUnits) payments := by decide
  exact ⟨rfl, hpay⟩

theorem mineBlock_atomic_payments :
    ∃ bc, Blockchain.new 0 fiveUnits = .ok bc ∧
      (payments.foldl addTransaction bc).Atomic 60 := by
  obtain ⟨bc, hbc⟩ := exists_new 0 fiveUnits
  obtain ⟨hmem, hpay⟩ := payable_payments hbc
  exact ⟨bc, hbc, (mineBlock_atomic_iff _ 60 (by rw [hmem]; decide)).mpr (.inl hpay)⟩

/-- Once, it goes through. -/
theorem payable_payment {bc : Blockchain} (h : Blockchain.new 0 fiveUnits = .ok bc) :
    Payable (bc.addTransaction payment).state (bc.addTransaction payment).mempool := by
  obtain ⟨root, -, rfl⟩ := new_eq_ok h
  show Payable (State.ofGenesis fiveUnits) [payment]
  decide

/-- It empties the one account and creates the other, so that the next one is refused and finds
both. -/
theorem payment_refused :
    let s := (applyAll (State.ofGenesis fiveUnits) [payment]).1
    ¬ s.Covers payment.from_ payment ∧ (s.get payment.from_).isSome ∧
      (s.get payment.to_).isSome := by
  decide

/-- The same payment twice: `mineBlock` throws at the second and keeps the first. -/
theorem mineBlock_not_atomic_payment_twice :
    ∃ bc, Blockchain.new 0 fiveUnits = .ok bc ∧
      ¬ ((bc.addTransaction payment).addTransaction payment).Atomic 0 := by
  obtain ⟨bc, hbc⟩ := exists_new 0 fiveUnits
  obtain ⟨root, -, rfl⟩ := new_eq_ok hbc
  refine ⟨_, hbc, ?_⟩
  have hfirst : (State.ofGenesis fiveUnits).Covers payment.from_ payment := by decide
  have hthrows : (applyAll (State.ofGenesis fiveUnits) [payment, payment]).2 =
      runtimeError "Insufficient balance" := by decide
  rw [atomic_iff_of_error (Prod.ext rfl hthrows)]
  exact not_sameAccounts_of_covers hfirst (by decide)

end Blockchain

end Gambit
