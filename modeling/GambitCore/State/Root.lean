import GambitCore.Mpt
import GambitCore.State

/-!
# The state root

`State::root` puts every account into a fresh trie, under the twenty bytes of its address,
and hashes it. The loop runs in the iteration order of the account map, so it is a function
`rootTrie` of the list of entries in some order.

## Main definitions

* `accountValue`, `rootTrie`, `State.root`

## Main results

* `rootTrie_eq` — on the entries of a ledger the loop never throws, and what it puts is the
  ledger
* `root_depends_on_contents_only` — neither the iteration order nor the history matters
* `leavesNoTrace_iff` — when a failed transaction leaves the ledger as it was
* `root_binds_accounts` — the hashed bytes determine every account
-/

namespace Gambit

open Rlp Codec

/-- The value of an account in the trie: RLP of balance and nonce. -/
def accountValue (acc : Account) : Bytes :=
  encodeList [encodeUint acc.balance, encodeUint acc.nonce]

/-- The loop of `State::root`, over the accounts in iteration order. -/
def rootTrie (order : List (Σ _ : Str, Account)) : Result MptTrie :=
  order.foldlM
    (fun trie entry => do
      let key ← fromHex entry.1
      return trie.put key (accountValue entry.2))
    MptTrie.new

/-- `State::root`, on the accounts in iteration order. -/
def rootIn (order : List (Σ _ : Str, Account)) : Result Str := do
  let trie ← rootTrie order
  return trie.rootHash

/-- `State::root`. -/
def State.root (s : State) : Result Str := rootIn s.accounts.entries

/-! ### Account values -/

/-- The tree `accountValue` encodes. -/
def accountItem (acc : Account) : Item :=
  .list [.bytes (bigEndian acc.balance.toNat), .bytes (bigEndian acc.nonce.toNat)]

theorem accountValue_eq (acc : Account) : accountValue acc = (accountItem acc).encode := by
  simp [accountValue, accountItem, Item.encode, Item.encodeEach, encodeUint_eq]

theorem accountValue_ne_nil (acc : Account) : accountValue acc ≠ [] := encodeList_ne_nil _

theorem length_accountValue_lt (acc : Account) : (accountValue acc).length < 2 ^ 64 := by
  have hlist := length_encodeList_le [encodeUint acc.balance, encodeUint acc.nonce]
  have hbalance := length_encodeUint_le acc.balance
  have hnonce := length_encodeUint_le acc.nonce
  simp only [List.flatten_cons, List.flatten_nil, List.append_nil, List.length_append] at hlist
  rw [accountValue]
  omega

theorem accountValue_injective : Function.Injective accountValue := by
  intro acc acc' h
  have hlen := length_accountValue_lt acc
  rw [accountValue_eq] at hlen
  rw [accountValue_eq, accountValue_eq] at h
  have hitem := Item.encode_injective hlen h
  simp only [accountItem, Item.list.injEq, List.cons.injEq, Item.bytes.injEq, bigEndian_inj,
    and_true] at hitem
  obtain ⟨hbalance, hnonce⟩ := hitem
  cases acc
  cases acc'
  simp_all

/-! ### What the loop puts -/

/-- An entry of the account map, by its address. -/
def textEntry (e : Address × Account) : Σ _ : Str, Account := ⟨e.1.toHex false, e.2⟩

/-- The `put` the loop makes for an account. -/
def putOf (e : Address × Account) : Bytes × Bytes := (e.1.bytes, accountValue e.2)

theorem exists_map_textEntry {order : List (Σ _ : Str, Account)}
    (h : ∀ e ∈ order, ∃ a : Address, e.1 = a.toHex false) :
    ∃ l : List (Address × Account), order = l.map textEntry := by
  induction order with
  | nil => exact ⟨[], rfl⟩
  | cons e order ih =>
    obtain ⟨l, rfl⟩ := ih fun e he => h e (List.mem_cons_of_mem _ he)
    obtain ⟨a, ha⟩ := h e List.mem_cons_self
    refine ⟨(a, e.2) :: l, ?_⟩
    rw [List.map_cons, textEntry, ← ha]

theorem rootTrie_map_textEntry (l : List (Address × Account)) :
    rootTrie (l.map textEntry) = .ok (MptTrie.putAll (l.map putOf)) := by
  induction l using List.reverseRecOn with
  | nil => rfl
  | append_singleton l e ih =>
    -- The key text of an address is always readable.
    have hkey : fromHex (e.1.toHex false) = .ok e.1.bytes := fromHex_prefixed_toHex e.1.bytes
    simp only [rootTrie, MptTrie.putAll, List.map_append, List.map_cons, List.map_nil,
      List.foldlM_append, List.foldlM_cons, List.foldlM_nil, List.foldl_append, List.foldl_cons,
      List.foldl_nil] at ih ⊢
    rw [ih]
    simp only [textEntry, putOf, hkey, bind, pure, Except.bind, Except.pure]

theorem textEntry_injective : Function.Injective textEntry := by
  intro e e' h
  simp only [textEntry, Sigma.mk.injEq, heq_eq_eq] at h
  exact Prod.ext (Address.toHex_false_injective h.1) h.2

theorem putOf_injective : Function.Injective putOf := by
  rintro ⟨⟨bytes, _⟩, acc⟩ ⟨⟨bytes', _⟩, acc'⟩ h
  simp only [putOf, Prod.mk.injEq] at h
  obtain ⟨rfl, hvalue⟩ := h
  rw [accountValue_injective hvalue]

/-- On the entries of a ledger, in any order, the loop never throws, and what it puts is the
ledger. -/
theorem rootTrie_eq (s : State) {order : List (Σ _ : Str, Account)}
    (hperm : order.Perm s.accounts.entries) :
    ∃ l : List (Address × Account), rootTrie order = .ok (MptTrie.putAll (l.map putOf)) ∧
      ∀ k v, DigitTrie.lastPut (l.map putOf) k = some v ↔
        ∃ a acc, s.get a = some acc ∧ putOf (a, acc) = (k, v) := by
  have hkeyed : ∀ e ∈ order, ∃ a : Address, e.1 = a.toHex false := fun e he =>
    s.keyed e.1 (List.mem_keys_of_mem (hperm.subset he))
  obtain ⟨l, rfl⟩ := exists_map_textEntry hkeyed
  -- Membership in the list is lookup in the ledger, whatever the order.
  have hmem (a : Address) (acc : Account) : (a, acc) ∈ l ↔ s.get a = some acc := by
    rw [← List.mem_map_of_injective textEntry_injective, hperm.mem_iff]
    exact AList.mem_lookup_iff.symm
  have htext : ((l.map textEntry).map Sigma.fst).Nodup :=
    (hperm.map Sigma.fst).nodup_iff.mpr s.accounts.nodupKeys
  -- Distinct texts come from distinct addresses, and these have distinct bytes.
  have haddr : (l.map Prod.fst).Nodup := by
    apply List.Nodup.of_map fun a : Address => a.toHex false
    rw [List.map_map] at htext ⊢
    exact htext
  have hnodup : ((l.map putOf).map Prod.fst).Nodup := by
    have hbytes := haddr.map (f := Address.bytes) fun a b h => Address.ext h
    rw [List.map_map] at hbytes ⊢
    exact hbytes
  refine ⟨l, rootTrie_map_textEntry l, fun k v => ?_⟩
  rw [DigitTrie.lastPut_eq_some_iff hnodup, List.mem_map]
  simp only [Prod.exists, hmem]

/-- The nodes of the trie depend on the ledger only: not on the iteration order, and not on
how the ledger was reached. -/
theorem rootTrie_congr {s t : State} (h : s.get = t.get) {order order' : List (Σ _ : Str, Account)}
    (hs : order.Perm s.accounts.entries) (ht : order'.Perm t.accounts.entries) :
    ∃ trie trie', rootTrie order = .ok trie ∧ rootTrie order' = .ok trie' ∧
      trie.root = trie'.root := by
  obtain ⟨l, hl, hput⟩ := rootTrie_eq s hs
  obtain ⟨m, hm, hput'⟩ := rootTrie_eq t ht
  refine ⟨_, _, hl, hm, MptTrie.root_putAll_congr fun k => Option.ext fun v => ?_⟩
  rw [hput, hput', h]

theorem rootIn_congr {s t : State} (h : s.get = t.get) {order order' : List (Σ _ : Str, Account)}
    (hs : order.Perm s.accounts.entries) (ht : order'.Perm t.accounts.entries) :
    rootIn order = rootIn order' := by
  obtain ⟨trie, trie', htrie, htrie', hroot⟩ := rootTrie_congr h hs ht
  simp only [rootIn, htrie, htrie', bind, pure, Except.bind, Except.pure, MptTrie.rootHash, hroot]

/-- The trie root depends on the final contents only: sequences of `put` calls with the same
last values have one root, so that neither the iteration order of the account map nor the
history of its accounts shows in `State::root`. -/
theorem root_depends_on_contents_only :
    (∀ l m : List (Bytes × Bytes), (∀ k, DigitTrie.lastPut l k = DigitTrie.lastPut m k) →
      (MptTrie.putAll l).rootHash = (MptTrie.putAll m).rootHash) ∧
    (∀ (s : State) (order : List (Σ _ : Str, Account)), order.Perm s.accounts.entries →
      rootIn order = s.root) ∧
    ∀ s t : State, s.SameAccounts t → s.root = t.root :=
  ⟨fun _ _ h => MptTrie.rootHash_putAll_congr h,
    fun _ _ hperm => rootIn_congr rfl hperm (List.Perm.refl _),
    fun _ _ h => rootIn_congr (State.sameAccounts_iff.mp h) (List.Perm.refl _) (List.Perm.refl _)⟩

/-! ### Failed transactions -/

namespace State

/-- A transaction that throws leaves every account, and the root, as it was. -/
def LeavesNoTrace (s : State) (from_ : Address) (tx : Transaction) : Prop :=
  (∃ e, (s.applyTransaction from_ tx).2 = .error e) →
    (s.applyTransaction from_ tx).1.SameAccounts s ∧
      (∀ a, (s.applyTransaction from_ tx).1.get a = s.get a) ∧
      (s.applyTransaction from_ tx).1.root = s.root

theorem applyTransaction_throws_iff {s : State} {from_ : Address} {tx : Transaction} :
    (∃ e, (s.applyTransaction from_ tx).2 = .error e) ↔ ¬ s.Covers from_ tx := by
  by_cases h : s.Covers from_ tx
  · simp [h, applyTransaction_of_covers h]
  · simp [h, applyTransaction_of_not_covers h, runtimeError]

/-- A failed transaction leaves no trace exactly when both of its accounts exist before: looking up
a missing account creates it, and the check comes after both lookups. -/
theorem leavesNoTrace_iff (s : State) (from_ : Address) (tx : Transaction) :
    s.LeavesNoTrace from_ tx ↔
      s.Covers from_ tx ∨ (s.get from_).isSome ∧ (s.get tx.to_).isSome := by
  rw [LeavesNoTrace, applyTransaction_throws_iff]
  by_cases hc : s.Covers from_ tx
  · exact iff_of_true (fun hnot => absurd hc hnot) (.inl hc)
  · rw [imp_iff_right hc, or_iff_right hc, ← sameAccounts_applyTransaction_iff hc]
    constructor
    · exact fun h => h.1
    · intro h
      have hget := sameAccounts_iff.mp h
      exact ⟨h, congrFun hget, rootIn_congr hget (List.Perm.refl _) (List.Perm.refl _)⟩

/-- A transfer of one unit out of an account that has none. -/
def unfunded : Transaction := { from_ := ⟨List.replicate 20 3, rfl⟩, value := 1 }

/-- On the empty ledger it throws, and leaves sender and recipient behind as accounts. -/
theorem unfunded_leaves_trace :
    (empty.applyTransaction unfunded.from_ unfunded).2 = runtimeError "Insufficient balance" ∧
      empty.get unfunded.from_ = none ∧
      (empty.applyTransaction unfunded.from_ unfunded).1.get unfunded.from_ = some {} ∧
      ¬ empty.LeavesNoTrace unfunded.from_ unfunded := by
  have hthrows : (empty.applyTransaction unfunded.from_ unfunded).2 =
      runtimeError "Insufficient balance" := by decide
  have hleft : (empty.applyTransaction unfunded.from_ unfunded).1.get unfunded.from_ = some {} := by
    decide
  refine ⟨hthrows, rfl, hleft, fun h => ?_⟩
  have hsame := (h ⟨_, hthrows⟩).2.1 unfunded.from_
  rw [hleft] at hsame
  cases hsame

end State

/-! ### The root binds the ledger -/

theorem State.root_eq_of_rootTrie {s : State} {trie : MptTrie}
    (h : rootTrie s.accounts.entries = .ok trie) : s.root = .ok trie.rootHash := by
  rw [State.root, rootIn, h]
  rfl

/-- `State::root` never throws. -/
theorem State.root_eq_ok (s : State) :
    ∃ trie, rootTrie s.accounts.entries = .ok trie ∧ s.root = .ok trie.rootHash := by
  obtain ⟨l, hl, -⟩ := rootTrie_eq s (List.Perm.refl _)
  exact ⟨_, hl, State.root_eq_of_rootTrie hl⟩

/-- One direction of the binding: what one ledger holds is found in the other. -/
theorem get_of_putAll_root_eq {s t : State} {l m : List (Address × Account)}
    (hs : ∀ k v, DigitTrie.lastPut (l.map putOf) k = some v ↔
      ∃ a acc, s.get a = some acc ∧ putOf (a, acc) = (k, v))
    (ht : ∀ k v, DigitTrie.lastPut (m.map putOf) k = some v ↔
      ∃ a acc, t.get a = some acc ∧ putOf (a, acc) = (k, v))
    (hroot : (MptTrie.putAll (l.map putOf)).root = (MptTrie.putAll (m.map putOf)).root)
    {a : Address} {acc : Account} (hget : s.get a = some acc) : t.get a = some acc := by
  have hl : DigitTrie.lastPut (l.map putOf) a.bytes = some (accountValue acc) :=
    (hs _ _).mpr ⟨a, acc, hget, rfl⟩
  rw [← MptTrie.get_putAll, MptTrie.get, hroot, ← MptTrie.get, MptTrie.get_putAll] at hl
  obtain ⟨a', acc', hget', hput⟩ := (ht _ _).mp hl
  have hentry : (a', acc') = (a, acc) := putOf_injective hput
  obtain ⟨rfl, rfl⟩ := Prod.mk.inj hentry
  exact hget'

/-- The state root binds the whole ledger: it is computed without throwing, and when the
bytes hashed for two ledgers are equal, so are their account maps. -/
theorem root_binds_accounts (s t : State) :
    ∃ trie trie', rootTrie s.accounts.entries = .ok trie ∧ s.root = .ok trie.rootHash ∧
      rootTrie t.accounts.entries = .ok trie' ∧ t.root = .ok trie'.rootHash ∧
      ((encodeNode trie.root).length < 2 ^ 64 → encodeNode trie.root = encodeNode trie'.root →
        s.SameAccounts t) := by
  obtain ⟨l, hl, hputs⟩ := rootTrie_eq s (List.Perm.refl _)
  obtain ⟨m, hm, hputs'⟩ := rootTrie_eq t (List.Perm.refl _)
  refine ⟨_, _, hl, State.root_eq_of_rootTrie hl, hm, State.root_eq_of_rootTrie hm, ?_⟩
  intro hlen hbytes
  -- An empty value would look like an absent one; account values are never empty.
  have hne (l : List (Address × Account)) : ∀ kv ∈ l.map putOf, kv.2 ≠ [] := by
    intro kv hkv
    obtain ⟨e, -, rfl⟩ := List.mem_map.mp hkv
    exact accountValue_ne_nil _
  have hroot := encodeNode_injective (MptTrie.get_root_putAll_ne_nil (hne l))
    (MptTrie.get_root_putAll_ne_nil (hne m)) hlen hbytes
  rw [State.sameAccounts_iff]
  funext a
  refine Option.ext fun acc => ⟨?_, ?_⟩
  · exact get_of_putAll_root_eq hputs hputs' hroot
  · exact get_of_putAll_root_eq hputs' hputs hroot.symm

end Gambit
