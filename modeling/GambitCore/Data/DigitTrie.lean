import Mathlib.Data.List.Infix
import Mathlib.Logic.Function.Basic
import Mathlib.Data.List.Nodup

/-!
# Digital tries

A trie over an arbitrary alphabet `ι`: a node has one child for each letter, present
or null, and optionally a value. Writing walks down a word, creating the nodes it
misses, and sets the value at the end; nothing is ever removed or merged.

Such a trie is a function of the map it stores. A node exists exactly at the prefixes
of the stored words, so the order of the writes, and the values overwritten on the
way, leave no trace.

## Main definitions

* `DigitTrie` — tries, `null` standing for an absent node
* `DigitTrie.put`, `DigitTrie.get` — write and read along a word
* `DigitTrie.HasNode` — a node exists at the end of a word
* `DigitTrie.lastPut` — the value a list of writes leaves at a word

## Main results

* `get_put`, `get_putAll` — the trie is the map of its last writes
* `hasNode_put`, `hasNode_putAll` — nodes are the prefixes of the words written
* `ext_of_get_of_hasNode` — values and nodes determine the trie
* `putAll_eq_of_lastPut_eq` — lists of writes with the same last values build one trie
-/

variable {ι α : Type*}

/-- A trie with letters in `ι` and values in `α`. -/
inductive DigitTrie (ι α : Type*)
  | null
  | node (children : ι → DigitTrie ι α) (value : Option α)

namespace DigitTrie

/-- The children of a node; an absent node has none. -/
def children : DigitTrie ι α → ι → DigitTrie ι α
  | null => fun _ => null
  | node c _ => c

/-- The value of a node, if any. -/
def value : DigitTrie ι α → Option α
  | null => none
  | node _ v => v

/-- The null test. -/
def isNull : DigitTrie ι α → Bool
  | null => true
  | node _ _ => false

/-- A single node without children or value. -/
def empty : DigitTrie ι α := node (fun _ => null) none

@[simp] theorem children_null : (null : DigitTrie ι α).children = fun _ => null := rfl

@[simp] theorem children_node (c : ι → DigitTrie ι α) (v : Option α) :
    (node c v).children = c := rfl

@[simp] theorem value_node (c : ι → DigitTrie ι α) (v : Option α) : (node c v).value = v := rfl

theorem node_eta {t : DigitTrie ι α} (h : t ≠ null) : node t.children t.value = t := by
  cases t with
  | null => exact absurd rfl h
  | node c v => rfl

/-- The value stored at a word. -/
def get : DigitTrie ι α → List ι → Option α
  | t, [] => t.value
  | t, i :: p => (t.children i).get p

/-- A node exists at the end of the word. -/
def HasNode : DigitTrie ι α → List ι → Prop
  | t, [] => t ≠ null
  | t, i :: p => (t.children i).HasNode p

@[simp] theorem get_nil (t : DigitTrie ι α) : t.get [] = t.value := by cases t <;> rfl

@[simp] theorem get_cons (t : DigitTrie ι α) (i : ι) (p : List ι) :
    t.get (i :: p) = (t.children i).get p := by cases t <;> rfl

@[simp] theorem hasNode_nil (t : DigitTrie ι α) : t.HasNode [] ↔ t ≠ null := by cases t <;> rfl

@[simp] theorem hasNode_cons (t : DigitTrie ι α) (i : ι) (p : List ι) :
    t.HasNode (i :: p) ↔ (t.children i).HasNode p := by cases t <;> rfl

theorem get_null (p : List ι) : (null : DigitTrie ι α).get p = none := by
  induction p with
  | nil => rfl
  | cons i p ih => simpa using ih

theorem not_hasNode_null (p : List ι) : ¬ (null : DigitTrie ι α).HasNode p := by
  induction p with
  | nil => simp
  | cons i p ih => simpa using ih

/-- Values and nodes determine the trie. -/
theorem ext_of_get_of_hasNode {t u : DigitTrie ι α} (hget : ∀ p, t.get p = u.get p)
    (hnode : ∀ p, t.HasNode p ↔ u.HasNode p) : t = u := by
  induction t generalizing u with
  | null =>
    by_contra hne
    exact not_hasNode_null [] ((hnode []).mpr ((hasNode_nil u).mpr (Ne.symm hne)))
  | node c v ih =>
    -- The values alone would not do: a node without a value below it is invisible to `get`.
    have hu : u ≠ null := (hasNode_nil u).mp ((hnode []).mp (by simp))
    have hvalue : v = u.value := by simpa using hget []
    have hchildren : c = u.children := by
      funext i
      exact ih i (fun p => by simpa using hget (i :: p)) (fun p => by simpa using hnode (i :: p))
    rw [hvalue, hchildren, node_eta hu]

section Put

variable [DecidableEq ι]

/-- Write a value at a word, creating the nodes on the way. -/
def put (t : DigitTrie ι α) : List ι → α → DigitTrie ι α
  | [], v => node t.children (some v)
  | i :: p, v => node (Function.update t.children i ((t.children i).put p v)) t.value

theorem put_ne_null (t : DigitTrie ι α) (k : List ι) (v : α) : t.put k v ≠ null := by
  cases k <;> simp [put]

/-- A write is seen at its own word and nowhere else. -/
theorem get_put (t : DigitTrie ι α) (k p : List ι) (v : α) :
    (t.put k v).get p = if p = k then some v else t.get p := by
  induction k generalizing t p with
  | nil => cases p <;> simp [put]
  | cons i k ih =>
    cases p with
    | nil => simp [put]
    | cons j p =>
      by_cases hji : j = i
      · subst hji
        simp [put, ih]
      · simp [put, hji]

/-- A write creates the nodes along its word. -/
theorem hasNode_put (t : DigitTrie ι α) (k p : List ι) (v : α) :
    (t.put k v).HasNode p ↔ t.HasNode p ∨ p <+: k := by
  induction k generalizing t p with
  | nil => cases p <;> simp [put]
  | cons i k ih =>
    cases p with
    | nil => simp [put]
    | cons j p =>
      by_cases hji : j = i
      · subst hji
        simp [put, ih]
      · simp [put, hji]

/-- A list of writes, first to last. -/
def putAll (t : DigitTrie ι α) (l : List (List ι × α)) : DigitTrie ι α :=
  l.foldl (fun t kv => t.put kv.1 kv.2) t

/-- The value a list of writes leaves at a word. -/
def lastPut {κ : Type*} [DecidableEq κ] (l : List (κ × α)) (k : κ) : Option α :=
  l.foldl (fun last kv => if kv.1 = k then some kv.2 else last) none

theorem lastPut_append_singleton {κ : Type*} [DecidableEq κ] (l : List (κ × α)) (kv : κ × α)
    (k : κ) : lastPut (l ++ [kv]) k = if kv.1 = k then some kv.2 else lastPut l k := by
  simp [lastPut]

theorem lastPut_isSome_iff {κ : Type*} [DecidableEq κ] (l : List (κ × α)) (k : κ) :
    (lastPut l k).isSome ↔ ∃ kv ∈ l, kv.1 = k := by
  induction l using List.reverseRecOn with
  | nil => simp [lastPut]
  | append_singleton l kv ih =>
    rw [lastPut_append_singleton]
    by_cases hk : kv.1 = k
    · simp only [hk, if_true, Option.isSome_some, true_iff]
      exact ⟨kv, by simp, hk⟩
    · simp [hk, ih]

theorem mem_of_lastPut_eq_some {κ : Type*} [DecidableEq κ] {l : List (κ × α)} {k : κ} {v : α}
    (h : lastPut l k = some v) : (k, v) ∈ l := by
  induction l using List.reverseRecOn with
  | nil => simp [lastPut] at h
  | append_singleton l kv ih =>
    rw [lastPut_append_singleton] at h
    split at h
    · next hk =>
      obtain rfl := hk
      obtain rfl := Option.some.inj h
      simp
    · simp [ih h]

/-- Writes to other words leave a word alone. -/
theorem lastPut_append_of_ne {κ : Type*} [DecidableEq κ] (l : List (κ × α)) {after : List (κ × α)}
    {k : κ} (h : ∀ kv ∈ after, kv.1 ≠ k) : lastPut (l ++ after) k = lastPut l k := by
  induction after using List.reverseRecOn with
  | nil => rw [List.append_nil]
  | append_singleton after kv ih =>
    rw [← List.append_assoc, lastPut_append_singleton, if_neg (h kv (by simp))]
    exact ih fun kv' hkv' => h kv' (List.mem_append_left _ hkv')

/-- What is left at a word is its last write: no later one is to the same word. -/
theorem lastPut_eq_some_iff_split {κ : Type*} [DecidableEq κ] {l : List (κ × α)} {k : κ} {v : α} :
    lastPut l k = some v ↔
      ∃ before after, l = before ++ (k, v) :: after ∧ ∀ kv ∈ after, kv.1 ≠ k := by
  constructor
  · intro h
    induction l using List.reverseRecOn with
    | nil => simp [lastPut] at h
    | append_singleton l kv ih =>
      rw [lastPut_append_singleton] at h
      split at h
      · next hk =>
        obtain rfl := hk
        obtain rfl := Option.some.inj h
        exact ⟨l, [], rfl, by simp⟩
      · next hk =>
        obtain ⟨before, after, rfl, hafter⟩ := ih h
        refine ⟨before, after ++ [kv], by simp, fun kv' hkv' => ?_⟩
        rcases List.mem_append.mp hkv' with hold | hnew
        · exact hafter kv' hold
        · obtain rfl := List.mem_singleton.mp hnew
          exact hk
  · rintro ⟨before, after, rfl, hafter⟩
    rw [List.append_cons, lastPut_append_of_ne _ hafter, lastPut_append_singleton, if_pos rfl]

theorem lastPut_eq_none_iff {κ : Type*} [DecidableEq κ] {l : List (κ × α)} {k : κ} :
    lastPut l k = none ↔ ∀ kv ∈ l, kv.1 ≠ k := by
  rw [← Option.not_isSome_iff_eq_none, lastPut_isSome_iff]
  push Not
  rfl

/-- With each word written once, the last writes are all the writes. -/
theorem lastPut_eq_some_iff {κ : Type*} [DecidableEq κ] {l : List (κ × α)}
    (hnodup : (l.map Prod.fst).Nodup) {k : κ} {v : α} : lastPut l k = some v ↔ (k, v) ∈ l := by
  refine ⟨mem_of_lastPut_eq_some, fun hmem => ?_⟩
  -- Something is left at `k`, and a second value there would repeat the word.
  obtain ⟨w, hw⟩ := Option.isSome_iff_exists.mp ((lastPut_isSome_iff l k).mpr ⟨_, hmem, rfl⟩)
  have heq := List.inj_on_of_nodup_map hnodup (mem_of_lastPut_eq_some hw) hmem rfl
  rw [hw, (Prod.mk.inj heq).2]

theorem lastPut_map {κ κ' : Type*} [DecidableEq κ] [DecidableEq κ'] {f : κ → κ'}
    (hf : Function.Injective f) (l : List (κ × α)) (k : κ) :
    lastPut (l.map (Prod.map f id)) (f k) = lastPut l k := by
  simp [lastPut, List.foldl_map, hf.eq_iff]

/-- Encoding the words injectively keeps lists of writes with the same last values alike. -/
theorem lastPut_map_congr {κ κ' : Type*} [DecidableEq κ] [DecidableEq κ'] {f : κ → κ'}
    (hf : Function.Injective f) {l m : List (κ × α)} (h : ∀ k, lastPut l k = lastPut m k)
    (k' : κ') :
    lastPut (l.map (Prod.map f id)) k' = lastPut (m.map (Prod.map f id)) k' := by
  by_cases hk : ∃ k, f k = k'
  · obtain ⟨k, rfl⟩ := hk
    rw [lastPut_map hf, lastPut_map hf, h]
  -- No word is mapped to `k'`, so neither list writes there.
  · have hnone (l : List (κ × α)) : lastPut (l.map (Prod.map f id)) k' = none := by
      rw [← Option.not_isSome_iff_eq_none, lastPut_isSome_iff]
      rintro ⟨_, hmem, rfl⟩
      obtain ⟨kv, -, rfl⟩ := List.mem_map.mp hmem
      exact hk ⟨kv.1, rfl⟩
    rw [hnone l, hnone m]

/-- The trie is the map of its last writes. -/
theorem get_putAll (l : List (List ι × α)) (p : List ι) :
    (putAll empty l).get p = lastPut l p := by
  induction l using List.reverseRecOn with
  | nil =>
    cases p with
    | nil => rfl
    | cons i p => simpa [putAll, empty, lastPut] using get_null p
  | append_singleton l kv ih =>
    rw [lastPut_append_singleton, putAll, List.foldl_append]
    simp only [List.foldl_cons, List.foldl_nil, get_put]
    rw [← putAll, ih]
    simp only [eq_comm]

/-- Nodes are the root and the prefixes of the words written. -/
theorem hasNode_putAll (l : List (List ι × α)) (p : List ι) :
    (putAll empty l).HasNode p ↔ p = [] ∨ ∃ k, p <+: k ∧ (lastPut l k).isSome := by
  simp only [lastPut_isSome_iff]
  induction l using List.reverseRecOn with
  | nil =>
    cases p with
    | nil => simp [putAll, empty]
    | cons i p => simpa [putAll, empty] using not_hasNode_null p
  | append_singleton l kv ih =>
    rw [putAll, List.foldl_append]
    simp only [List.foldl_cons, List.foldl_nil, hasNode_put]
    rw [← putAll, ih, or_assoc]
    simp only [List.mem_append, List.mem_singleton, or_and_right, exists_or, and_or_left,
      exists_eq_left, exists_eq_right']

/-- Lists of writes with the same last values build one trie. -/
theorem putAll_eq_of_lastPut_eq {l m : List (List ι × α)} (h : ∀ p, lastPut l p = lastPut m p) :
    putAll (empty : DigitTrie ι α) l = putAll empty m := by
  apply ext_of_get_of_hasNode
  · intro p
    rw [get_putAll, get_putAll, h]
  · intro p
    simp only [hasNode_putAll, h]

end Put

end DigitTrie
