import GambitCore.Blockchain.Runs
import GambitCore.Transaction.Wire

/-!
# What validation promises

`validateTransaction` compares a transaction with the committed ledger. Two promises do not follow.
Transactions of one sender are each checked against the whole balance, so together they may exceed
it, and `mineBlock` throws on what was admitted. And a transaction whose `from` is the zero address
passes the signature check with any signature, while the ledger debits `from`.

With at most one pending transaction a sender the first promise holds.

## Main definitions

* `Blockchain.Validated` — what `validateTransaction` checks
* `Minable` — `mineBlock` returns and empties the mempool
* `Funded` — a transaction is added when its sender can still pay it behind what is pending

## Main results

* `validateTransaction_exact` — the checks on 64-bit words compare natural numbers
* `signer_of_validated` — the sender of a validated transaction is its signer, or the zero address
* `always_minable_iff` — admitted transactions can be mined at any time exactly when each is funded
* `always_minable_of_single` — which they are when no sender has two pending
-/

namespace Gambit

namespace Blockchain

/-- What `validateTransaction` checks. The two overflow checks are on 64-bit words. -/
structure Validated (S : Secp256k1) (bc : Blockchain) (tx : Transaction) : Prop where
  chainId_eq : tx.chainId = bc.chainId
  verify : tx.verifySignature S = true
  nonce_eq : tx.nonce = (bc.state.account tx.from_).nonce
  gas_exact : ¬ (tx.gasPrice ≠ 0 ∧ tx.gasPrice * tx.gasLimit / tx.gasPrice ≠ tx.gasLimit)
  cost_exact : tx.gasPrice * tx.gasLimit ≤ tx.gasPrice * tx.gasLimit + tx.value
  funds : tx.gasPrice * tx.gasLimit + tx.value ≤ (bc.state.account tx.from_).balance

/-- A missing account reads as the default one. -/
theorem getD_map_get (s : State) (a : Address) {f : Account → UInt64} (hf : f {} = 0) :
    ((s.get a).map f).getD 0 = f (s.account a) := by
  rw [State.account]
  cases s.get a with
  | none => exact hf.symm
  | some acc => rfl

theorem validateTransaction_eq_ok_iff {S : Secp256k1} {bc : Blockchain} {tx : Transaction} :
    bc.validateTransaction S tx = .ok () ↔ bc.Validated S tx := by
  have hnonce := getD_map_get bc.state tx.from_ (f := Account.nonce) rfl
  have hbalance := getD_map_get bc.state tx.from_ (f := Account.balance) rfl
  unfold validateTransaction
  simp only [hnonce, hbalance]
  constructor
  · intro h
    split at h
    · cases h
    · next hchain =>
      split at h
      · cases h
      · next hverify =>
        split at h
        · cases h
        · next hnonce =>
          split at h
          · cases h
          · next hgas =>
            split at h
            · cases h
            · next hcost =>
              split at h
              · cases h
              · next hfunds =>
                exact ⟨not_not.mp hchain, by simpa using hverify, not_not.mp hnonce, hgas,
                  UInt64.not_lt.mp hcost, UInt64.not_lt.mp hfunds⟩
  · intro h
    rw [if_neg (not_not.mpr h.chainId_eq), if_neg (by simp [h.verify]),
      if_neg (not_not.mpr h.nonce_eq), if_neg h.gas_exact, if_neg (UInt64.not_lt.mpr h.cost_exact),
      if_neg (UInt64.not_lt.mpr h.funds)]

/-- The division finds every product that does not fit in 64 bits. -/
theorem gas_exact_iff {price limit : UInt64} :
    ¬ (price ≠ 0 ∧ price * limit / price ≠ limit) ↔ price.toNat * limit.toNat < 2 ^ 64 := by
  by_cases hzero : price = 0
  · simp [hzero]
  · have hpos : 0 < price.toNat := by
      rw [Nat.pos_iff_ne_zero]
      exact fun h => hzero (UInt64.toNat_inj.mp h)
    rw [not_and, not_not, imp_iff_right hzero, ← UInt64.toNat_inj, UInt64.toNat_div,
      UInt64.toNat_mul]
    constructor
    · intro h
      -- The wrapped product is at least the quotient times the divisor, the product itself.
      have hle := Nat.mul_div_le (price.toNat * limit.toNat % 2 ^ 64) price.toNat
      rw [h] at hle
      exact hle.trans_lt (Nat.mod_lt _ (by norm_num))
    · intro h
      rw [Nat.mod_eq_of_lt h, Nat.mul_div_cancel_left _ hpos]

/-- A sum of words wraps exactly when it comes out below its first summand. -/
theorem cost_exact_iff {cost value : UInt64} :
    cost ≤ cost + value ↔ cost.toNat + value.toNat < 2 ^ 64 := by
  have hcost : cost.toNat < 2 ^ 64 := cost.toNat_lt
  have hvalue : value.toNat < 2 ^ 64 := value.toNat_lt
  rw [UInt64.le_iff_toNat_le, UInt64.toNat_add]
  omega

/-- The three checks on 64-bit words together are one comparison of natural numbers. -/
theorem funds_iff {price limit value balance : UInt64} :
    (¬ (price ≠ 0 ∧ price * limit / price ≠ limit) ∧ price * limit ≤ price * limit + value ∧
      price * limit + value ≤ balance) ↔
      price.toNat * limit.toNat + value.toNat ≤ balance.toNat := by
  have hbalance : balance.toNat < 2 ^ 64 := balance.toNat_lt
  rw [gas_exact_iff, cost_exact_iff, UInt64.le_iff_toNat_le, UInt64.toNat_add, UInt64.toNat_mul]
  constructor
  · rintro ⟨hgas, hcost, hfunds⟩
    rwa [Nat.mod_eq_of_lt hgas, Nat.mod_eq_of_lt (by rwa [Nat.mod_eq_of_lt hgas] at hcost)]
      at hfunds
  · intro h
    -- What fits into a balance fits into a word, and so does every part of it.
    have hgas : price.toNat * limit.toNat < 2 ^ 64 := by omega
    have hcost : price.toNat * limit.toNat + value.toNat < 2 ^ 64 := by omega
    rw [Nat.mod_eq_of_lt hgas, Nat.mod_eq_of_lt hcost]
    exact ⟨hgas, hcost, h⟩

/-- The sender of a validated transaction can pay its value out of the committed balance. -/
theorem Validated.value_le {S : Secp256k1} {bc : Blockchain} {tx : Transaction}
    (h : bc.Validated S tx) :
    tx.value.toNat ≤ (bc.state.account tx.from_).balance.toNat :=
  (Nat.le_add_left _ _).trans (funds_iff.mp ⟨h.gas_exact, h.cost_exact, h.funds⟩)

/-- Funds are checked exactly over the natural numbers: no product or sum that wraps is let
through, and none that fits is refused. -/
theorem validateTransaction_exact (S : Secp256k1) (bc : Blockchain) (tx : Transaction) :
    bc.validateTransaction S tx = .ok () ↔
      tx.chainId = bc.chainId ∧ tx.verifySignature S = true ∧
        tx.nonce = ((bc.state.get tx.from_).map Account.nonce).getD 0 ∧
        tx.gasPrice.toNat * tx.gasLimit.toNat + tx.value.toNat ≤
          (((bc.state.get tx.from_).map Account.balance).getD 0).toNat := by
  rw [getD_map_get bc.state tx.from_ rfl, getD_map_get bc.state tx.from_ rfl, ← funds_iff,
    validateTransaction_eq_ok_iff]
  constructor
  · rintro ⟨hchain, hverify, hnonce, hgas, hcost, hfunds⟩
    exact ⟨hchain, hverify, hnonce, hgas, hcost, hfunds⟩
  · rintro ⟨hchain, hverify, hnonce, hgas, hcost, hfunds⟩
    exact ⟨hchain, hverify, hnonce, hgas, hcost, hfunds⟩

end Blockchain

/-! ### A transfer of five units -/

open Transaction

/-- The library for the signature of the transfer of five units. -/
def fiveLib : Secp256k1 := devSecp sigFive otherKeyFive

/-- The signed transfer, with any address as its sender. -/
def devFive (from_ : Address) : Transaction :=
  { devTx 1 with
    value := 5
    from_
    sig := ⟨sigFive.compact.val.take 32, sigFive.compact.val.drop 32, 1⟩ }

theorem from_devFive (a : Address) : (devFive a).from_ = a := rfl

/-- A genesis that gives an account five units. -/
def fiveUnitsOf (a : Address) : GenesisConfig := { premine := [{ address := a, balance := 5 }] }

/-- Whoever is named as the sender, the signature is that of the development key. -/
theorem recoverAddress_devFive (a : Address) :
    recoverAddress fiveLib (devFive a).signingHash (devFive a).sig (devFive a).chainId =
      .ok devAddress := by
  have hsign : fiveLib.signRecoverable (devFive a).signingHash devPriv = some sigFive := by
    simp [fiveLib, devSecp]
  have hid : recoveryId 1 1 = .ok 1 := by decide
  exact recoverAddress_sign devSecp_sound (devKeyPair sigFive otherKeyFive) hsign hid rfl rfl

theorem account_fiveUnitsOf (a : Address) :
    (State.ofGenesis (fiveUnitsOf a)).account a = { balance := 5 } := by
  simp [State.ofGenesis, fiveUnitsOf, State.account_set]

theorem validate_devFive {bc : Blockchain} {a : Address} (hid : bc.chainId = 1)
    (hstate : bc.state = State.ofGenesis (fiveUnitsOf a))
    (hverify : (devFive a).verifySignature fiveLib = true) :
    bc.validateTransaction fiveLib (devFive a) = .ok () := by
  have haccount : bc.state.account (devFive a).from_ = { balance := 5 } := by
    rw [hstate]
    exact account_fiveUnitsOf a
  refine Blockchain.validateTransaction_eq_ok_iff.mpr ⟨hid.symm, hverify, ?_, ?_, ?_, ?_⟩
  · rw [haccount]
    rfl
  · exact fun hgas => hgas.1 rfl
  · exact UInt64.zero_le
  · rw [haccount]
    show (0 : UInt64) * 0 + 5 ≤ 5
    decide

theorem new_fiveUnitsOf {bc : Blockchain} {a : Address}
    (h : Blockchain.new 0 (fiveUnitsOf a) = .ok bc) :
    bc.chainId = 1 ∧ bc.state = State.ofGenesis (fiveUnitsOf a) ∧ bc.mempool = [] := by
  obtain ⟨root, -, rfl⟩ := Blockchain.new_eq_ok h
  exact ⟨rfl, rfl, rfl⟩

theorem verify_devFive : (devFive devAddress).verifySignature fiveLib = true := by
  simp only [Transaction.verifySignature, recoverAddress_devFive, from_devFive, BEq.rfl,
    Bool.or_true]

theorem verify_devFive_zero : (devFive Address.zero).verifySignature fiveLib = true := by
  simp only [Transaction.verifySignature, recoverAddress_devFive]
  rfl

/-! ### Signers -/

/-- The sender of a validated transaction is the address recovered from its signature, or it is
the zero address, which is not compared. -/
theorem signer_of_validated {S : Secp256k1} {bc : Blockchain} {tx : Transaction}
    (h : bc.validateTransaction S tx = .ok ()) :
    ∃ a, recoverAddress S tx.signingHash tx.sig tx.chainId = .ok a ∧
      (tx.from_ = a ∨ tx.from_ = Address.zero) := by
  have hverify := (Blockchain.validateTransaction_eq_ok_iff.mp h).verify
  unfold Transaction.verifySignature at hverify
  split at hverify
  · next a hrec =>
    refine ⟨a, hrec, ?_⟩
    rw [Bool.or_eq_true, Address.isZero_iff, beq_iff_eq] at hverify
    rcases hverify with hzero | hsender
    · exact .inr hzero
    · exact .inl hsender.symm
  · cases hverify

theorem signer_of_validated_devFive :
    ∃ bc, Blockchain.new 0 (fiveUnitsOf devAddress) = .ok bc ∧
      ∃ a, recoverAddress fiveLib (devFive devAddress).signingHash
          (devFive devAddress).sig (devFive devAddress).chainId = .ok a ∧
        ((devFive devAddress).from_ = a ∨
          (devFive devAddress).from_ = Address.zero) := by
  obtain ⟨bc, hbc⟩ := Blockchain.exists_new 0 (fiveUnitsOf devAddress)
  obtain ⟨hid, hstate, -⟩ := new_fiveUnitsOf hbc
  exact ⟨bc, hbc, signer_of_validated (validate_devFive hid hstate verify_devFive)⟩

/-- The five units of the zero address are spent with the signature of the development key. -/
theorem zero_address_validated :
    ∃ bc, Blockchain.new 0 (fiveUnitsOf Address.zero) = .ok bc ∧
      bc.validateTransaction fiveLib (devFive Address.zero) = .ok () ∧
      recoverAddress fiveLib (devFive Address.zero).signingHash (devFive Address.zero).sig
        (devFive Address.zero).chainId = .ok devAddress ∧
      (devFive Address.zero).from_ ≠ devAddress := by
  obtain ⟨bc, hbc⟩ := Blockchain.exists_new 0 (fiveUnitsOf Address.zero)
  obtain ⟨hid, hstate, -⟩ := new_fiveUnitsOf hbc
  refine ⟨bc, hbc, validate_devFive hid hstate verify_devFive_zero,
    recoverAddress_devFive _, fun heq => ?_⟩
  have hbytes := bytes_devAddress
  rw [← heq] at hbytes
  exact absurd hbytes (by decide)

/-! ### Mining what was admitted -/

/-- `mineBlock` returns, and leaves nothing pending. -/
def Minable (bc : Blockchain) : Prop :=
  ∀ now, Returns (bc.mineBlock now).2 ∧ (bc.mineBlock now).1.mempool = []

/-- Transactions are added only if they have just been validated, and blocks only mined. -/
def Admits (S : Secp256k1) (bc : Blockchain) : Op → Prop
  | .addTransaction tx => bc.validateTransaction S tx = .ok ()
  | .mineBlock _ => True
  | _ => False

/-- A transaction is added when its sender can pay it behind everything that is pending. -/
def Funded (bc : Blockchain) : Op → Prop
  | .addTransaction tx => (applyAll bc.state bc.mempool).1.Covers tx.from_ tx
  | _ => True

theorem minable_iff {bc : Blockchain} : Minable bc ↔ Payable bc.state bc.mempool := by
  constructor
  · intro h
    rcases bc.mineBlock_cases 0 with ⟨s', block, happlies, -, -⟩ | ⟨s', e, -, hmine⟩
    · exact exists_applies_iff.mp ⟨s', happlies⟩
    · obtain ⟨block, hblock⟩ := (h 0).1
      rw [hmine] at hblock
      cases hblock
  · intro h now
    obtain ⟨s', block, -, -, hmine⟩ := bc.exists_mined now h
    rw [hmine]
    exact ⟨⟨block, rfl⟩, rfl⟩

/-- One more transaction can be paid when those before it can, and then it. -/
theorem payable_append_singleton {s : State} {txs : List Transaction} {tx : Transaction} :
    Payable s (txs ++ [tx]) ↔ Payable s txs ∧ (applyAll s txs).1.Covers tx.from_ tx := by
  induction txs generalizing s with
  | nil => simp [Payable, applyAll]
  | cons first txs ih =>
    rw [List.cons_append, Payable, Payable, ih, and_assoc]
    refine and_congr_right fun hc => ?_
    rw [applyAll_cons_of_covers hc]

/-- What an admitted step does to the promise. -/
theorem minable_next_iff {S : Secp256k1} {bc : Blockchain} {op : Op} (hop : Admits S bc op)
    (h : Minable bc) : Minable (op.next bc) ↔ Funded bc op := by
  cases op with
  | addTransaction tx =>
    rw [minable_iff] at h ⊢
    exact payable_append_singleton.trans (and_iff_right h)
  | mineBlock now =>
    have hempty : (bc.mineBlock now).1.mempool = [] := (h now).2
    rw [minable_iff, Op.next, hempty]
    exact iff_of_true trivial trivial
  | addBlock block => cases hop
  | minerRound now => cases hop

theorem minable_new {now : UInt64} {genesis : GenesisConfig} {bc : Blockchain}
    (hnew : Blockchain.new now genesis = .ok bc) : Minable bc := by
  obtain ⟨root, -, rfl⟩ := Blockchain.new_eq_ok hnew
  exact minable_iff.mpr trivial

theorem along_minable_iff {S : Secp256k1} {bc : Blockchain} {ops : List Op} (h : Minable bc)
    (hadmitted : chainMachine.Guarded (Admits S) bc ops) :
    chainMachine.Along Minable bc ops ↔ chainMachine.Guarded Funded bc ops :=
  Machine.along_iff Minable (fun _ _ => minable_next_iff) h hadmitted

/-- Along a run in which every transaction is validated before it is added, `mineBlock` can be
called at any time, without an exception and with an empty mempool afterwards, exactly when each
transaction is funded where it is added. -/
theorem always_minable_iff {S : Secp256k1} {now : UInt64} {genesis : GenesisConfig}
    {bc : Blockchain} (hnew : Blockchain.new now genesis = .ok bc) (ops : List Op)
    (hadmitted : chainMachine.Guarded (Admits S) bc ops) :
    chainMachine.Along Minable bc ops ↔ chainMachine.Guarded Funded bc ops :=
  along_minable_iff (minable_new hnew) hadmitted

section Twice

variable {bc : Blockchain} (hnew : Blockchain.new 0 (fiveUnitsOf devAddress) = .ok bc)

include hnew

/-- The transfer is validated whatever is pending. -/
theorem validate_devFive_pending (mempool : List Transaction) :
    ({ bc with mempool } : Blockchain).validateTransaction fiveLib
      (devFive devAddress) = .ok () := by
  obtain ⟨hid, hstate, -⟩ := new_fiveUnitsOf hnew
  exact validate_devFive hid hstate verify_devFive

theorem covers_devFive : bc.state.Covers devAddress (devFive devAddress) := by
  obtain ⟨-, hstate, -⟩ := new_fiveUnitsOf hnew
  rw [State.Covers, hstate, account_fiveUnitsOf]
  show (5 : UInt64) ≤ 5
  decide

/-- After the first transfer the account is empty. -/
theorem not_payable_devFive_twice :
    ¬ Payable bc.state [devFive devAddress, devFive devAddress] := by
  rintro ⟨hfirst, hsecond, -⟩
  obtain ⟨-, hstate, -⟩ := new_fiveUnitsOf hnew
  have hne : devAddress ≠ (devFive devAddress).to_ := by
    intro heq
    have hbytes := bytes_devAddress
    rw [heq] at hbytes
    exact absurd hbytes (by decide)
  rw [from_devFive] at hfirst hsecond
  rw [State.Covers, State.account_applyTransaction_of_covers _ hfirst, if_neg hne,
    State.account_debited, if_pos rfl, hstate, account_fiveUnitsOf] at hsecond
  exact absurd hsecond (by decide)

end Twice

theorem always_minable_devFive :
    ∃ bc, Blockchain.new 0 (fiveUnitsOf devAddress) = .ok bc ∧
      chainMachine.Along Minable bc
        [.addTransaction (devFive devAddress), .mineBlock 0] := by
  obtain ⟨bc, hbc⟩ := Blockchain.exists_new 0 (fiveUnitsOf devAddress)
  obtain ⟨-, -, hmem⟩ := new_fiveUnitsOf hbc
  have hadmitted : chainMachine.Guarded (Admits fiveLib) bc
      [.addTransaction (devFive devAddress), .mineBlock 0] :=
    ⟨validate_devFive_pending hbc bc.mempool, trivial, trivial⟩
  refine ⟨bc, hbc, (always_minable_iff hbc _ hadmitted).mpr ⟨?_, trivial, trivial⟩⟩
  rw [Funded, hmem]
  exact covers_devFive hbc

/-- Two transfers of all five units are both validated and added, and `mineBlock` throws. -/
theorem admitted_not_minable_devFive :
    ∃ bc, Blockchain.new 0 (fiveUnitsOf devAddress) = .ok bc ∧
      let ops : List Op := [.addTransaction (devFive devAddress),
        .addTransaction (devFive devAddress)]
      chainMachine.Guarded (Admits fiveLib) bc ops ∧
        ∃ e, ((chainMachine.run bc ops).1.mineBlock 0).2 = .error e := by
  obtain ⟨bc, hbc⟩ := Blockchain.exists_new 0 (fiveUnitsOf devAddress)
  obtain ⟨-, -, hmem⟩ := new_fiveUnitsOf hbc
  refine ⟨bc, hbc, ⟨?_, ?_, trivial⟩, ?_⟩
  · exact validate_devFive_pending hbc bc.mempool
  · exact validate_devFive_pending hbc (bc.mempool ++ [devFive devAddress])
  · have hpending : (chainMachine.run bc [.addTransaction (devFive devAddress),
        .addTransaction (devFive devAddress)]).1 =
          { bc with mempool := [devFive devAddress, devFive devAddress] } := by
      obtain ⟨chain, state, mempool, chainId, hne⟩ := bc
      obtain rfl : mempool = [] := hmem
      rfl
    rw [hpending]
    rcases Blockchain.mineBlock_cases { bc with
      mempool := [devFive devAddress, devFive devAddress] } 0 with
      ⟨s', block, happlies, -, -⟩ | ⟨s', e, -, hmine⟩
    · have hpay : Payable bc.state _ := exists_applies_iff.mp ⟨s', happlies⟩
      exact absurd hpay (not_payable_devFive_twice hbc)
    · exact ⟨e, by rw [hmine]⟩

/-! ### One pending transaction a sender -/

/-- The loop over the mempool takes nothing from an account that sends nothing. -/
theorem balance_le_applyAll {s : State} (htotal : s.total < 2 ^ 64) {txs : List Transaction}
    {a : Address} (ha : a ∉ txs.map Transaction.from_) :
    (s.account a).balance.toNat ≤ ((applyAll s txs).1.account a).balance.toNat := by
  induction txs generalizing s with
  | nil => exact le_rfl
  | cons tx txs ih =>
    rw [List.map_cons, List.mem_cons, not_or] at ha
    have hfirst := State.balance_le_applyTransaction tx.from_ tx htotal ha.1
    by_cases hc : s.Covers tx.from_ tx
    · have hstep := State.total_applyTransaction tx.from_ tx htotal
      rw [applyAll_cons_of_covers hc]
      exact hfirst.trans (ih (hstep.trans_lt htotal) ha.2)
    · rw [applyAll_cons_of_not_covers hc]
      exact hfirst

/-- Transactions are validated, and added while their sender has nothing pending. -/
def AdmitsSingle (S : Secp256k1) (bc : Blockchain) (op : Op) : Prop :=
  Admits S bc op ∧
    ∀ tx, op = .addTransaction tx → tx.from_ ∉ bc.mempool.map Transaction.from_

/-- A validated transaction of a sender with nothing pending is funded: the others only add to
its balance. -/
theorem funded_of_admitsSingle {S : Secp256k1} {bc : Blockchain} {op : Op}
    (htotal : bc.state.total < 2 ^ 64) (h : AdmitsSingle S bc op) : Funded bc op := by
  cases op with
  | addTransaction tx =>
    have hvalue := (Blockchain.validateTransaction_eq_ok_iff.mp h.1).value_le
    have hkept := balance_le_applyAll htotal (h.2 tx rfl)
    exact UInt64.le_iff_toNat_le.mpr (hvalue.trans hkept)
  | mineBlock now => trivial
  | addBlock block => trivial
  | minerRound now => trivial

/-- From a genesis with a total below `2 ^ 64`, what was admitted one transaction a sender can be
mined at any time. -/
theorem always_minable_of_single {S : Secp256k1} {now : UInt64} {genesis : GenesisConfig}
    {bc : Blockchain} (hnew : Blockchain.new now genesis = .ok bc)
    (htotal : (State.ofGenesis genesis).total < 2 ^ 64) (ops : List Op)
    (hsingle : chainMachine.Guarded (AdmitsSingle S) bc ops) :
    chainMachine.Along Minable bc ops := by
  have hstart : bc.state.total < 2 ^ 64 := by
    obtain ⟨root, -, rfl⟩ := Blockchain.new_eq_ok hnew
    exact htotal
  have hkept (bc : Blockchain) (op : Op) (h : bc.state.total < 2 ^ 64) :
      (op.next bc).state.total < 2 ^ 64 := (total_next h op).1.trans_lt h
  have hadmitted : chainMachine.Guarded (Admits S) bc ops :=
    Machine.Guarded.of_invariant (fun bc => bc.state.total < 2 ^ 64)
      (fun bc op h hop => ⟨hkept bc op h, hop.1⟩) hstart hsingle
  have hfunded : chainMachine.Guarded Funded bc ops :=
    Machine.Guarded.of_invariant (fun bc => bc.state.total < 2 ^ 64)
      (fun bc op h hop => ⟨hkept bc op h, funded_of_admitsSingle h hop⟩) hstart hsingle
  exact (along_minable_iff (minable_new hnew) hadmitted).mpr hfunded

end Gambit
