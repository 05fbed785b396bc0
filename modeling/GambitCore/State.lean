import GambitCore.Data.AListSum
import GambitCore.Transaction.Basic

/-!
# The account ledger

`State` of `state.cpp`: the account map, keyed by the plain text form of an address. The
map is an `AList`, whose entry order stands for the unspecified iteration order of the
`unordered_map`; two ledgers are the same when their lookups are (`SameAccounts`).

A transaction is applied in place and a failed one is not rolled back, so
`applyTransaction` returns the ledger it leaves together with its outcome.

## Main definitions

* `State`, `State.ofGenesis`, `State.get`, `State.applyTransaction`
* `State.account` — the account a reference from `getOrCreate` reads
* `State.total` — the sum of all balances

## Main results

* `account_applyTransaction_of_covers`, `get_applyTransaction_of_not_covers` — what a
  transaction does to each account
* `total_applyTransaction`, `noWrap_of_total_lt` — it conserves the total, and no 64-bit
  balance wraps
-/

namespace Gambit

/-- `Account`. -/
structure Account where
  balance : UInt64 := 0
  nonce : UInt64 := 0
  deriving DecidableEq

/-- The two writes to the sender's account. -/
def Account.debit (acc : Account) (value : UInt64) : Account :=
  { balance := acc.balance - value, nonce := acc.nonce + 1 }

/-- The write to the recipient's account. -/
def Account.credit (acc : Account) (value : UInt64) : Account :=
  { acc with balance := acc.balance + value }

@[simp] theorem Account.nonce_debit (acc : Account) (value : UInt64) :
    (acc.debit value).nonce = acc.nonce + 1 := rfl

/-- `GenesisAccount`. -/
structure GenesisAccount where
  address : Address
  balance : UInt64 := 0

/-- `GenesisConfig`. -/
structure GenesisConfig where
  premine : List GenesisAccount := []
  chainId : UInt64 := 1

/-- `State`. Every key is the text of an address. -/
structure State where
  accounts : AList fun _ : Str => Account
  keyed : ∀ key ∈ accounts, ∃ a : Address, key = a.toHex false

namespace State

/-- `State()`. -/
def empty : State := ⟨∅, by simp⟩

/-- Assignment to `accounts_[addr.toHex(false)]`. -/
def set (s : State) (addr : Address) (acc : Account) : State where
  accounts := s.accounts.insert (addr.toHex false) acc
  keyed key hkey := by
    rcases (AList.mem_insert _).mp hkey with rfl | hold
    · exact ⟨addr, rfl⟩
    · exact s.keyed key hold

/-- `State::State(genesis)`: a repeated address keeps its last balance. -/
def ofGenesis (genesis : GenesisConfig) : State :=
  genesis.premine.foldl (fun s ga => s.set ga.address { balance := ga.balance, nonce := 0 }) empty

/-- `get`. -/
def get (s : State) (addr : Address) : Option Account := s.accounts.lookup (addr.toHex false)

/-- The account a reference from `getOrCreate` reads: a missing one is default. -/
def account (s : State) (addr : Address) : Account := (s.get addr).getD {}

/-- `getOrCreate`: the entry is inserted when it is missing. -/
def getOrCreate (s : State) (addr : Address) : State :=
  if (s.get addr).isSome then s else s.set addr {}

/-- `applyTransaction`. Both accounts are created before the balance is checked. The
recipient is read after the sender is written, since the two references may alias. -/
def applyTransaction (s : State) (from_ : Address) (tx : Transaction) : State × Result Unit :=
  let s := (s.getOrCreate from_).getOrCreate tx.to_
  let fromAcc := s.account from_
  if fromAcc.balance < tx.value then (s, runtimeError "Insufficient balance")
  else
    let s := s.set from_ (fromAcc.debit tx.value)
    -- In a self-transfer this is the account just debited.
    let toAcc := s.account tx.to_
    (s.set tx.to_ (toAcc.credit tx.value), .ok ())

/-- The two account maps are equal, whatever their iteration orders. -/
def SameAccounts (s t : State) : Prop := ∀ key, s.accounts.lookup key = t.accounts.lookup key

theorem sameAccounts_iff {s t : State} : s.SameAccounts t ↔ s.get = t.get := by
  constructor
  · intro h
    funext a
    exact h _
  · intro h key
    by_cases haddr : ∃ a : Address, key = a.toHex false
    · obtain ⟨a, rfl⟩ := haddr
      exact congrFun h a
    -- A key that is no address is in neither map.
    · rw [AList.lookup_eq_none.mpr fun hs => haddr (s.keyed key hs),
        AList.lookup_eq_none.mpr fun ht => haddr (t.keyed key ht)]

/-! ### Lookups -/

variable (s : State) (a b : Address) (acc : Account)

@[simp] theorem get_empty : empty.get a = none := rfl

theorem get_set : (s.set b acc).get a = if a = b then some acc else s.get a := by
  by_cases h : a = b
  · subst h
    simp [get, set]
  · have hkey : a.toHex false ≠ b.toHex false := fun heq => h (Address.toHex_false_injective heq)
    simp [get, set, h, AList.lookup_insert_ne hkey]

theorem account_set : (s.set b acc).account a = if a = b then acc else s.account a := by
  simp only [account, get_set]
  split <;> rfl

theorem get_getOrCreate :
    (s.getOrCreate b).get a = if a = b then some (s.account a) else s.get a := by
  unfold getOrCreate
  split
  · next hsome =>
    split
    · next hab =>
      subst hab
      obtain ⟨acc, hacc⟩ := Option.isSome_iff_exists.mp hsome
      simp [account, hacc]
    · rfl
  · next hnone =>
    rw [get_set]
    split
    · next hab =>
      subst hab
      have hget : s.get a = none := by simpa using hnone
      simp [account, hget]
    · rfl

/-- Creating an account changes no balance and no nonce. -/
@[simp] theorem account_getOrCreate : (s.getOrCreate b).account a = s.account a := by
  rw [account, get_getOrCreate]
  split <;> rfl

/-! ### Account keys -/

/-- Neither write to one account is seen at another. -/
theorem get_of_ne (h : b ≠ a) :
    (s.set a acc).get b = s.get b ∧ (s.getOrCreate a).get b = s.get b := by
  rw [get_set, get_getOrCreate, if_neg h, if_neg h]
  exact ⟨rfl, rfl⟩

/-- The text layer under the account keys is exact. The decoder takes one optional mark and an even
number of digits, and what it reads prints as those digits in lower case. Both forms of an address
read back to it whatever hash chooses the case of the letters, and two addresses have two keys. -/
theorem hexText_exact (hash : Bytes → Bytes32) :
    (∀ text : Str, Returns (fromHex text) ↔ ∃ digits, IsHexText text digits) ∧
      (∀ text digits : Str, IsHexText text digits →
        ∃ out, fromHex text = .ok out ∧ toHex out = digits.map toLower) ∧
      (∀ b : Bytes, fromHex (toHex b) = .ok b) ∧
      (∀ a : Address, Address.fromHex (a.toHexWith hash true) = .ok a ∧
        Address.fromHex (a.toHexWith hash false) = .ok a) ∧
      (∀ (a : Address) (checksum : Bool), Address.fromHex (a.toHex checksum) = .ok a) ∧
      ∀ a b : Address, a ≠ b → a.toHex false ≠ b.toHex false ∧
        ∀ (s : State) (acc : Account),
          (s.set a acc).get b = s.get b ∧ (s.getOrCreate a).get b = s.get b := by
  refine ⟨fun _ => returns_fromHex_iff, fun text digits h => ?_, fromHex_toHex, fun a => ?_,
    fun a checksum => ?_, fun a b hne => ⟨?_, fun s acc => ?_⟩⟩
  · obtain ⟨out, hout⟩ := returns_fromHex_iff.mpr ⟨digits, h⟩
    exact ⟨out, hout, h.toHex_of_fromHex hout⟩
  · exact ⟨Address.fromHex_toHexWith hash a true, Address.fromHex_toHexWith hash a false⟩
  · rw [← Address.toHexWith_keccak256_32]
    exact Address.fromHex_toHexWith keccak256_32 a checksum
  · exact fun hkey => hne (Address.toHex_false_injective hkey)
  · exact get_of_ne s a b acc hne.symm

/-! ### What a transaction does -/

variable (from_ : Address) (tx : Transaction)

/-- The sender can pay the value: the check `applyTransaction` makes. -/
def Covers (s : State) (from_ : Address) (tx : Transaction) : Prop :=
  tx.value ≤ (s.account from_).balance

instance : Decidable (s.Covers from_ tx) := inferInstanceAs (Decidable (_ ≤ _))

/-- The ledger between the two balance updates. -/
def debited (s : State) (from_ : Address) (tx : Transaction) : State :=
  ((s.getOrCreate from_).getOrCreate tx.to_).set from_ ((s.account from_).debit tx.value)

variable {s from_ tx}

theorem applyTransaction_of_not_covers (h : ¬ s.Covers from_ tx) :
    s.applyTransaction from_ tx =
      ((s.getOrCreate from_).getOrCreate tx.to_, runtimeError "Insufficient balance") := by
  have hlt : (s.account from_).balance < tx.value := UInt64.not_le.mp h
  simp [applyTransaction, hlt]

theorem applyTransaction_of_covers (h : s.Covers from_ tx) :
    s.applyTransaction from_ tx =
      ((s.debited from_ tx).set tx.to_ (((s.debited from_ tx).account tx.to_).credit tx.value),
        .ok ()) := by
  have hle : ¬ (s.account from_).balance < tx.value := UInt64.not_lt.mpr h
  simp [applyTransaction, debited, hle]

theorem applyTransaction_ok_iff : (s.applyTransaction from_ tx).2 = .ok () ↔ s.Covers from_ tx := by
  by_cases h : s.Covers from_ tx
  · simp [h, applyTransaction_of_covers h]
  · simp [h, applyTransaction_of_not_covers h, runtimeError]

/-- A failed transaction leaves its two accounts created and all else as it was. -/
theorem get_applyTransaction_of_not_covers (h : ¬ s.Covers from_ tx) :
    (s.applyTransaction from_ tx).1.get a =
      if a = from_ ∨ a = tx.to_ then some (s.account a) else s.get a := by
  rw [applyTransaction_of_not_covers h]
  simp only [get_getOrCreate, account_getOrCreate]
  by_cases hto : a = tx.to_ <;> simp [hto]

/-- A refused transaction leaves the account map alone exactly when its accounts exist. -/
theorem sameAccounts_applyTransaction_iff (h : ¬ s.Covers from_ tx) :
    (s.applyTransaction from_ tx).1.SameAccounts s ↔
      (s.get from_).isSome ∧ (s.get tx.to_).isSome := by
  have hget (a : Address) := get_applyTransaction_of_not_covers a h
  rw [sameAccounts_iff]
  constructor
  · intro hsame
    rw [← hsame, hget, hget]
    simp
  · rintro ⟨hfrom, hto⟩
    funext a
    rw [hget]
    split
    · next ha =>
      have hsome : (s.get a).isSome := by
        rcases ha with rfl | rfl
        · exact hfrom
        · exact hto
      obtain ⟨acc, hacc⟩ := Option.isSome_iff_exists.mp hsome
      rw [account, hacc]
      rfl
    · rfl

theorem account_applyTransaction_of_not_covers (h : ¬ s.Covers from_ tx) :
    (s.applyTransaction from_ tx).1.account a = s.account a := by
  rw [applyTransaction_of_not_covers h]
  simp

theorem account_debited :
    (s.debited from_ tx).account a =
      if a = from_ then (s.account a).debit tx.value else s.account a := by
  rw [debited, account_set]
  by_cases h : a = from_
  · subst h
    simp
  · simp [h]

/-- The sender is debited, then the recipient credited; an account that is both sees both. -/
theorem account_applyTransaction_of_covers (h : s.Covers from_ tx) :
    (s.applyTransaction from_ tx).1.account a =
      if a = tx.to_ then ((s.debited from_ tx).account a).credit tx.value
      else (s.debited from_ tx).account a := by
  rw [applyTransaction_of_covers h, account_set]
  by_cases hto : a = tx.to_
  · subst hto
    simp
  · simp [hto]

/-- Only the sender's nonce moves, and only when the transaction goes through. -/
theorem nonce_applyTransaction :
    ((s.applyTransaction from_ tx).1.account a).nonce =
      (s.account a).nonce + if s.Covers from_ tx ∧ a = from_ then 1 else 0 := by
  by_cases h : s.Covers from_ tx
  · have hcredit : ((s.applyTransaction from_ tx).1.account a).nonce =
        ((s.debited from_ tx).account a).nonce := by
      rw [account_applyTransaction_of_covers a h]
      split <;> rfl
    rw [hcredit, account_debited]
    by_cases hfrom : a = from_ <;> simp [h, hfrom]
  · rw [account_applyTransaction_of_not_covers a h]
    simp [h]

/-! ### Conservation -/

variable (s)

/-- The sum of all balances, as a natural number. -/
def total : ℕ := s.accounts.sumBy fun e => e.2.balance.toNat

theorem weightAt_accounts :
    s.accounts.weightAt (fun e => e.2.balance.toNat) (a.toHex false) =
      (s.account a).balance.toNat := by
  simp only [AList.weightAt, account, get]
  cases s.accounts.lookup (a.toHex false) <;> rfl

theorem balance_le_total : (s.account a).balance.toNat ≤ s.total := by
  rw [← weightAt_accounts]
  exact AList.weightAt_le_sumBy _ _ _

/-- A write trades the old balance for the new one. -/
theorem total_set :
    (s.set a acc).total + (s.account a).balance.toNat = s.total + acc.balance.toNat := by
  rw [← weightAt_accounts]
  exact AList.sumBy_insert _ _ _ _

@[simp] theorem total_getOrCreate : (s.getOrCreate a).total = s.total := by
  unfold getOrCreate
  split
  · rfl
  · next hnone =>
    have hget : s.get a = none := by simpa using hnone
    have hset := s.total_set a {}
    simpa [account, hget] using hset

/-- Neither the subtraction nor the addition of a transaction that goes through wraps. -/
def NoWrap (s : State) (from_ : Address) (tx : Transaction) : Prop :=
  s.Covers from_ tx →
    ((s.account from_).debit tx.value).balance.toNat =
        (s.account from_).balance.toNat - tx.value.toNat ∧
      (((s.debited from_ tx).account tx.to_).credit tx.value).balance.toNat =
        ((s.debited from_ tx).account tx.to_).balance.toNat + tx.value.toNat

variable {s} (from_ tx)

theorem toNat_debit (h : s.Covers from_ tx) :
    ((s.account from_).debit tx.value).balance.toNat =
      (s.account from_).balance.toNat - tx.value.toNat :=
  UInt64.toNat_sub_of_le _ _ h

/-- Between the two updates the value is missing from the total. -/
theorem total_debited (h : s.Covers from_ tx) :
    (s.debited from_ tx).total + tx.value.toNat = s.total := by
  have hle : tx.value.toNat ≤ (s.account from_).balance.toNat := UInt64.le_iff_toNat_le.mp h
  have hset := ((s.getOrCreate from_).getOrCreate tx.to_).total_set from_
    ((s.account from_).debit tx.value)
  rw [toNat_debit from_ tx h] at hset
  simp only [account_getOrCreate, total_getOrCreate] at hset
  rw [debited]
  omega

/-- With a total below `2 ^ 64` no balance can wrap: what the recipient holds and what it
receives are both part of the total. -/
theorem noWrap_of_total_lt (htotal : s.total < 2 ^ 64) : s.NoWrap from_ tx := by
  intro h
  refine ⟨toNat_debit from_ tx h, ?_⟩
  -- After the debit the value is outside the total, so adding it stays within.
  have hdebited := total_debited from_ tx h
  have hbalance := (s.debited from_ tx).balance_le_total tx.to_
  show (_ + tx.value).toNat = _
  rw [UInt64.toNat_add]
  omega

/-- A transaction takes nothing from an account that is not its sender. -/
theorem balance_le_applyTransaction (htotal : s.total < 2 ^ 64) {a : Address} (ha : a ≠ from_) :
    (s.account a).balance.toNat ≤ ((s.applyTransaction from_ tx).1.account a).balance.toNat := by
  by_cases h : s.Covers from_ tx
  · have hdebited : (s.debited from_ tx).account a = s.account a := by
      rw [account_debited, if_neg ha]
    rw [account_applyTransaction_of_covers a h]
    split
    · next hto =>
      have hcredit := (noWrap_of_total_lt from_ tx htotal h).2
      rw [← hto, hdebited] at hcredit
      rw [hdebited, hcredit]
      exact Nat.le_add_right _ _
    · rw [hdebited]
  · rw [account_applyTransaction_of_not_covers a h]

/-- A transaction conserves the total, whether it goes through or fails. -/
theorem total_applyTransaction (htotal : s.total < 2 ^ 64) :
    (s.applyTransaction from_ tx).1.total = s.total := by
  by_cases h : s.Covers from_ tx
  · have hdebited := total_debited from_ tx h
    have hset := (s.debited from_ tx).total_set tx.to_
      (((s.debited from_ tx).account tx.to_).credit tx.value)
    -- The credit is an addition of naturals, since it does not wrap.
    rw [(noWrap_of_total_lt from_ tx htotal h).2] at hset
    rw [applyTransaction_of_covers h]
    show ((s.debited from_ tx).set tx.to_ _).total = s.total
    omega
  · rw [applyTransaction_of_not_covers h]
    simp

end State

end Gambit
