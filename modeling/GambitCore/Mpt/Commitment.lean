import GambitCore.Mpt

/-!
# What the trie root commits to

The encoding of a node writes an absent value and an empty one alike. Two tries then have the same
encoding when they differ only in that some keys hold the empty value in one and nothing in the
other, provided that the nodes at those keys are there in both: each is the root, or lies on the way
to another key. A key that holds the empty value at the end of a path is told apart by its node.

Stored values that are never empty, as those of the account trie, leave no such pair.

## Main definitions

* `MptTrie.Covered` — every key of one sequence of `put` calls is a prefix of one of another
* `MptTrie.EmptyAgainstAbsent`, `MptTrie.SeenApart` — the two ways for contents to differ

## Main results

* `encodeNode_putAll_eq_iff` — when two tries have the same encoding
* `root_commits_iff` — when the root tells two tries with different contents apart
-/

namespace Gambit

/-- Paths are prefixes of each other when their keys are. -/
theorem toNibbles_isPrefix_iff {a b : Bytes} : toNibbles a <+: toNibbles b ↔ a <+: b := by
  induction a generalizing b with
  | nil => exact iff_of_true (List.nil_prefix) (List.nil_prefix)
  | cons c a ih =>
    cases b with
    | nil => simp [toNibbles]
    | cons d b =>
      rw [toNibbles_cons, toNibbles_cons, List.cons_prefix_cons, List.cons_prefix_cons,
        List.cons_prefix_cons, ih, ← and_assoc]
      refine and_congr_left' ⟨fun h => nibbles_injective h.1 h.2, ?_⟩
      rintro rfl
      exact ⟨rfl, rfl⟩

namespace MptTrie

variable {l m : List (Bytes × Bytes)}

/-- Every key put in `l` is the empty one or is met on the way to a key put in `m`. -/
def Covered (l m : List (Bytes × Bytes)) : Prop :=
  ∀ kv ∈ l, kv.1 = [] ∨ ∃ kv' ∈ m, kv.1 <+: kv'.1

theorem hasNode_root_putAll_iff {p : List (Fin 16)} :
    (putAll l).root.HasNode p ↔ p = [] ∨ ∃ kv ∈ l, p <+: toNibbles kv.1 := by
  rw [root_putAll, DigitTrie.hasNode_putAll]
  refine or_congr_right ⟨?_, ?_⟩
  · rintro ⟨k, hp, hk⟩
    obtain ⟨_, hmem, rfl⟩ := (DigitTrie.lastPut_isSome_iff _ _).mp hk
    obtain ⟨kv, hkv, rfl⟩ := List.mem_map.mp hmem
    exact ⟨kv, hkv, hp⟩
  · rintro ⟨kv, hkv, hp⟩
    exact ⟨toNibbles kv.1, hp,
      (DigitTrie.lastPut_isSome_iff _ _).mpr ⟨_, List.mem_map_of_mem hkv, rfl⟩⟩

theorem hasNode_of_covered (h : Covered l m) {p : List (Fin 16)} (hp : (putAll l).root.HasNode p) :
    (putAll m).root.HasNode p := by
  rw [hasNode_root_putAll_iff] at hp ⊢
  rcases hp with hroot | ⟨kv, hkv, hp⟩
  · exact .inl hroot
  · rcases h kv hkv with hempty | ⟨kv', hkv', hprefix⟩
    · rw [hempty] at hp
      exact .inl (List.prefix_nil.mp hp)
    · exact .inr ⟨kv', hkv', hp.trans (toNibbles_isPrefix_iff.mpr hprefix)⟩

theorem covered_of_hasNode (h : ∀ p, (putAll l).root.HasNode p → (putAll m).root.HasNode p) :
    Covered l m := by
  intro kv hkv
  have hnode := h (toNibbles kv.1) (hasNode_root_putAll_iff.mpr (.inr ⟨kv, hkv, List.prefix_rfl⟩))
  rcases hasNode_root_putAll_iff.mp hnode with hroot | ⟨kv', hkv', hprefix⟩
  · exact .inl (toNibbles_injective hroot)
  · exact .inr ⟨kv', hkv', toNibbles_isPrefix_iff.mp hprefix⟩

/-- Between two keys there is nothing to read. -/
theorem get_root_putAll_eq_none {p : List (Fin 16)} (hp : ∀ k, toNibbles k ≠ p) :
    (putAll l).root.get p = none := by
  rw [root_putAll, DigitTrie.get_putAll, DigitTrie.lastPut_eq_none_iff]
  intro kv hkv
  obtain ⟨kv', -, rfl⟩ := List.mem_map.mp hkv
  exact hp kv'.1

/-- Two tries have the same encoding when they hold the same values, an absent one read as empty,
and have the same nodes. -/
theorem encodeNode_putAll_eq_iff (hlen : (encodeNode (putAll l).root).length < 2 ^ 64) :
    encodeNode (putAll l).root = encodeNode (putAll m).root ↔
      (∀ k, (DigitTrie.lastPut l k).getD [] = (DigitTrie.lastPut m k).getD []) ∧
        Covered l m ∧ Covered m l := by
  constructor
  · intro h
    obtain ⟨hnode, hvalue⟩ := of_encodeNode_eq hlen h
    refine ⟨fun k => ?_, covered_of_hasNode fun p => (hnode p).mp,
      covered_of_hasNode fun p => (hnode p).mpr⟩
    rw [← get_putAll, ← get_putAll]
    exact hvalue (toNibbles k)
  · rintro ⟨hvalue, hlm, hml⟩
    refine encodeNode_congr (fun p => ⟨hasNode_of_covered hlm, hasNode_of_covered hml⟩) fun p => ?_
    by_cases hp : ∃ k, toNibbles k = p
    · obtain ⟨k, rfl⟩ := hp
      have hk := hvalue k
      rwa [← get_putAll, ← get_putAll] at hk
    · have hnone := fun k hk => hp ⟨k, hk⟩
      rw [get_root_putAll_eq_none hnone, get_root_putAll_eq_none hnone]

/-- Some key was last put with the empty value in one sequence of calls and never in the other. -/
def EmptyAgainstAbsent (l m : List (Bytes × Bytes)) : Prop :=
  ∃ k, DigitTrie.lastPut l k = some [] ∧ DigitTrie.lastPut m k = none ∨
    DigitTrie.lastPut l k = none ∧ DigitTrie.lastPut m k = some []

/-- The sequences differ in a value that is not empty, or a key of one is neither empty nor a prefix
of a key of the other. -/
def SeenApart (l m : List (Bytes × Bytes)) : Prop :=
  (∃ k, (DigitTrie.lastPut l k).getD [] ≠ (DigitTrie.lastPut m k).getD []) ∨
    ¬ Covered l m ∨ ¬ Covered m l

theorem seenApart_iff : SeenApart l m ↔
    ¬ ((∀ k, (DigitTrie.lastPut l k).getD [] = (DigitTrie.lastPut m k).getD []) ∧
      Covered l m ∧ Covered m l) := by
  rw [SeenApart, not_and_or, not_and_or, not_forall]

/-- Values that differ, but not when an absent one is read as empty. -/
theorem empty_of_ne_of_getD_eq {v w : Option Bytes} (hne : v ≠ w) (h : v.getD [] = w.getD []) :
    v = some [] ∧ w = none ∨ v = none ∧ w = some [] := by
  cases v <;> cases w <;> simp_all

/-- The root tells two tries with different contents apart exactly when it is not all about empty
values: when no key holds the empty value in one and nothing in the other, or when there is another
difference, in a value or in the nodes. The encoding is a byte vector, so it is shorter than
`2 ^ 64`. -/
theorem root_commits_iff (l m : List (Bytes × Bytes))
    (hlen : (encodeNode (putAll l).root).length < 2 ^ 64) :
    ((∃ k, (putAll l).get k ≠ (putAll m).get k) →
        encodeNode (putAll l).root ≠ encodeNode (putAll m).root) ↔
      (EmptyAgainstAbsent l m → SeenApart l m) := by
  simp only [get_putAll, Ne, encodeNode_putAll_eq_iff hlen, ← seenApart_iff]
  constructor
  · rintro h ⟨k, hk⟩
    refine h ⟨k, fun heq => ?_⟩
    rcases hk with ⟨hl, hm⟩ | ⟨hl, hm⟩
    · rw [hl, hm] at heq
      cases heq
    · rw [hl, hm] at heq
      cases heq
  · rintro h ⟨k, hne⟩
    by_cases hvalue : (DigitTrie.lastPut l k).getD [] = (DigitTrie.lastPut m k).getD []
    · exact h ⟨k, empty_of_ne_of_getD_eq hne hvalue⟩
    · exact .inl ⟨k, hvalue⟩

/-- Two values under one key. -/
theorem root_commits_two_values :
    (encodeNode (putAll [([1], [5])]).root).length < 2 ^ 64 ∧
      encodeNode (putAll [([1], [5])]).root ≠ encodeNode (putAll [([1], [6])]).root := by
  have hlen : (encodeNode (putAll [([1], [5])]).root).length < 2 ^ 64 := by decide +kernel
  refine ⟨hlen, (root_commits_iff _ [([1], [6])] hlen).mpr (fun _ => .inl ⟨[1], ?_⟩) ⟨[1], ?_⟩⟩
  · decide
  · decide

/-- The empty value under a prefix of another key is not seen in the root. -/
theorem root_misses_empty_value :
    (putAll [([1, 2], [3])]).get [1] ≠ (putAll [([1, 2], [3]), ([1], [])]).get [1] ∧
      encodeNode (putAll [([1, 2], [3])]).root =
        encodeNode (putAll [([1, 2], [3]), ([1], [])]).root := by
  decide +kernel

end MptTrie

end Gambit
