import GambitCore.Data.DigitTrie
import GambitCore.Hash.Keccak
import GambitCore.Rlp.RoundTrip

/-!
# The Merkle trie

`MptTrie` of `mpt.cpp`: an uncompressed sixteen-way trie over the nibbles of the key,
hashed through one nested RLP encoding of its nodes. A `NodePtr` is a `DigitTrie` over
`Fin 16`, with `null` for the null pointer; the in-place walk of `put` is the trie's
own `put`.

## Main definitions

* `toNibbles`, `MptTrie.put`, `MptTrie.get`
* `encodeNode`, `MptTrie.rootHash`

## Main results

* `get_eq_last_put` — the trie is a map
* `rootHash_putAll_congr` — the root depends on the final contents only
* `encodeNode_congr`, `of_encodeNode_eq` — what the hashed bytes depend on, and determine
* `encodeNode_injective` — without empty values, the hashed bytes determine the trie
-/

namespace Gambit

open Rlp

/-- A `NodePtr`. -/
abbrev Node := DigitTrie (Fin 16) Bytes

/-- `toNibbles`: the high and the low half of each byte. -/
def toNibbles (key : Bytes) : List (Fin 16) :=
  key.flatMap fun b : UInt8 =>
    [Fin.ofNat 16 ((b >>> 4) &&& 0x0F).toNat, Fin.ofNat 16 (b &&& 0x0F).toNat]

/-- `MptTrie`: the root is allocated by the constructor and never reset. -/
structure MptTrie where
  root : Node
  root_ne_null : root ≠ .null

namespace MptTrie

/-- `MptTrie()`. -/
def new : MptTrie := ⟨.empty, by simp [DigitTrie.empty]⟩

/-- `put`. -/
def put (t : MptTrie) (key value : Bytes) : MptTrie :=
  ⟨t.root.put (toNibbles key) value, DigitTrie.put_ne_null _ _ _⟩

/-- `get`. -/
def get (t : MptTrie) (key : Bytes) : Option Bytes := t.root.get (toNibbles key)

end MptTrie

/-- `encodeNodeValue`. -/
def encodeNodeValue : Option Bytes → Bytes
  | none => encodeBytes []
  | some v => encodeBytes v

/-- `encodeNode`: sixteen children and the value. Only a non-null child is encoded; the
value at `null` is never used. -/
def encodeNode : Node → Bytes
  | .null => []
  | .node children value =>
    encodeList ((List.ofFn fun i =>
      if (children i).isNull then encodeBytes [] else encodeBytes (encodeNode (children i))) ++
        [encodeNodeValue value])

/-- `rootHash`. -/
def MptTrie.rootHash (t : MptTrie) : Str := str "0x" ++ toHex (keccak256 (encodeNode t.root))

/-! ### The root is a function of the contents -/

/-- A byte is recovered from its nibbles. -/
theorem nibbles_injective {b c : UInt8}
    (hhigh : Fin.ofNat 16 ((b >>> 4) &&& 0x0F).toNat = Fin.ofNat 16 ((c >>> 4) &&& 0x0F).toNat)
    (hlow : Fin.ofNat 16 (b &&& 0x0F).toNat = Fin.ofNat 16 (c &&& 0x0F).toNat) : b = c := by
  have hsplit : ∀ b : UInt8, (Fin.ofNat 16 ((b >>> 4) &&& 0x0F).toNat).val * 16 +
      (Fin.ofNat 16 (b &&& 0x0F).toNat).val = b.toNat :=
    Codec.forall_byte (by decide +kernel)
  have hb := hsplit b
  rw [hhigh, hlow, hsplit c] at hb
  exact UInt8.toNat_inj.mp hb.symm

theorem toNibbles_cons (b : UInt8) (bs : Bytes) :
    toNibbles (b :: bs) = Fin.ofNat 16 ((b >>> 4) &&& 0x0F).toNat ::
      Fin.ofNat 16 (b &&& 0x0F).toNat :: toNibbles bs := rfl

/-- Distinct keys have distinct paths. -/
theorem toNibbles_injective : Function.Injective toNibbles := by
  intro a
  induction a with
  | nil =>
    intro b h
    cases b with
    | nil => rfl
    | cons c b => simp [toNibbles] at h
  | cons c a ih =>
    intro b h
    cases b with
    | nil => simp [toNibbles] at h
    | cons d b =>
      rw [toNibbles_cons, toNibbles_cons, List.cons.injEq, List.cons.injEq] at h
      rw [nibbles_injective h.1 h.2.1, ih h.2.2]

namespace MptTrie

/-- A `put` is seen under its own key and no other. -/
theorem get_put (t : MptTrie) (key value k : Bytes) :
    (t.put key value).get k = if k = key then some value else t.get k := by
  simp only [get, put, DigitTrie.get_put, toNibbles_injective.eq_iff]

/-- A sequence of `put` calls on a fresh trie. -/
def putAll (l : List (Bytes × Bytes)) : MptTrie :=
  l.foldl (fun t kv => t.put kv.1 kv.2) new

theorem root_putAll (l : List (Bytes × Bytes)) :
    (putAll l).root = DigitTrie.putAll .empty (l.map (Prod.map toNibbles id)) := by
  induction l using List.reverseRecOn with
  | nil => rfl
  | append_singleton l kv ih =>
    simp only [putAll, DigitTrie.putAll, List.foldl_append, List.map_append, List.map_cons,
      List.map_nil, List.foldl_cons, List.foldl_nil] at ih ⊢
    rw [← ih]
    rfl

/-- The trie holds, at each key, the value of the last `put` there. -/
theorem get_putAll (l : List (Bytes × Bytes)) (k : Bytes) :
    (putAll l).get k = DigitTrie.lastPut l k := by
  rw [get, root_putAll, DigitTrie.get_putAll, DigitTrie.lastPut_map toNibbles_injective]

/-- The trie is a map: after any sequence of `put` calls, `get` finds the value of the last `put`
with that very key, and nothing when there was none. -/
theorem get_eq_last_put (l : List (Bytes × Bytes)) (k : Bytes) :
    (∀ v, (putAll l).get k = some v ↔
      ∃ before after, l = before ++ (k, v) :: after ∧ ∀ kv ∈ after, kv.1 ≠ k) ∧
    ((putAll l).get k = none ↔ ∀ kv ∈ l, kv.1 ≠ k) := by
  rw [get_putAll]
  exact ⟨fun v => DigitTrie.lastPut_eq_some_iff_split, DigitTrie.lastPut_eq_none_iff⟩

/-- A key that is a part of another, and an empty value under the empty key. -/
example : (putAll [([], []), ([1, 2], [3]), ([1], [4])]).get [1] = some [4] ∧
    (putAll [([], []), ([1, 2], [3])]).get [1] = none ∧
    (putAll [([], []), ([1, 2], [3])]).get [] = some [] := by
  decide

/-- Two sequences of `put` calls with the same last values build the same nodes. -/
theorem root_putAll_congr {l m : List (Bytes × Bytes)}
    (h : ∀ k, DigitTrie.lastPut l k = DigitTrie.lastPut m k) :
    (putAll l).root = (putAll m).root := by
  rw [root_putAll, root_putAll]
  exact DigitTrie.putAll_eq_of_lastPut_eq (DigitTrie.lastPut_map_congr toNibbles_injective h)

/-- The root depends on the final contents only. -/
theorem rootHash_putAll_congr {l m : List (Bytes × Bytes)}
    (h : ∀ k, DigitTrie.lastPut l k = DigitTrie.lastPut m k) :
    (putAll l).rootHash = (putAll m).rootHash := by
  rw [rootHash, rootHash, root_putAll_congr h]

end MptTrie

/-! ### The hashed bytes determine the contents -/

/-- The list a node is encoded as: absent children and an absent value are empty strings. -/
def nodeItem (children : Fin 16 → Node) (value : Option Bytes) : Item :=
  .list ((List.ofFn fun i => Item.bytes (encodeNode (children i))) ++ [.bytes (value.getD [])])

theorem encodeNode_node (children : Fin 16 → Node) (value : Option Bytes) :
    encodeNode (.node children value) = (nodeItem children value).encode := by
  have hchild (t : Node) : (if t.isNull then encodeBytes [] else encodeBytes (encodeNode t)) =
      (Item.bytes (encodeNode t)).encode := by
    cases t <;> rfl
  have hvalue : encodeNodeValue value = (Item.bytes (value.getD [])).encode := by
    cases value <;> rfl
  rw [encodeNode, nodeItem, Item.encode, Item.encodeEach_eq_map, hvalue]
  simp only [hchild, List.map_append, List.map_ofFn, List.map_cons, List.map_nil,
    Function.comp_def]

theorem encodeNode_ne_nil {t : Node} (ht : t ≠ .null) : encodeNode t ≠ [] := by
  cases t with
  | null => exact absurd rfl ht
  | node c v =>
    rw [encodeNode_node]
    exact Item.encode_ne_nil _

/-- A child's encoding is a part of its parent's. -/
theorem length_encodeNode_child (children : Fin 16 → Node) (value : Option Bytes) (i : Fin 16) :
    (encodeNode (children i)).length < (encodeNode (.node children value)).length := by
  have hmem : Item.bytes (encodeNode (children i)) ∈
      (List.ofFn fun i => Item.bytes (encodeNode (children i))) ++ [.bytes (value.getD [])] :=
    List.mem_append_left _ ((List.mem_ofFn' _ _).mpr ⟨i, rfl⟩)
  rw [encodeNode_node]
  exact (length_le_encodeBytes _).trans_lt (Item.length_encode_lt hmem)

/-- Only an empty value is confused with an absent one. -/
theorem getD_nil_injective {v v' : Option Bytes} (hv : v ≠ some []) (hv' : v' ≠ some [])
    (h : v.getD [] = v'.getD []) : v = v' := by
  cases v <;> cases v' <;> simp_all

/-- A trie holds an empty value only where one was put. -/
theorem MptTrie.get_root_putAll_ne_nil {l : List (Bytes × Bytes)} (h : ∀ kv ∈ l, kv.2 ≠ [])
    (p : List (Fin 16)) : (putAll l).root.get p ≠ some [] := by
  rw [root_putAll, DigitTrie.get_putAll]
  intro hp
  obtain ⟨kv, hmem, heq⟩ := List.mem_map.mp (DigitTrie.mem_of_lastPut_eq_some hp)
  exact h kv hmem (Prod.mk.inj heq).2

/-- The hashed bytes depend on the nodes and the values only, an absent value read as empty. -/
theorem encodeNode_congr {t u : Node} (hnode : ∀ p, t.HasNode p ↔ u.HasNode p)
    (hvalue : ∀ p, (t.get p).getD [] = (u.get p).getD []) : encodeNode t = encodeNode u := by
  induction t generalizing u with
  | null =>
    have hu : u = .null := not_not.mp (mt (hnode []).mpr (DigitTrie.not_hasNode_null []))
    rw [hu]
  | node c v ih =>
    cases u with
    | null => exact absurd ((hnode []).mp (by simp)) (DigitTrie.not_hasNode_null [])
    | node c' v' =>
      have hchildren : (fun i => Item.bytes (encodeNode (c i))) =
          fun i => Item.bytes (encodeNode (c' i)) := by
        funext i
        exact congrArg Item.bytes (ih i (fun p => hnode (i :: p)) fun p => hvalue (i :: p))
      have hv : v.getD [] = v'.getD [] := hvalue []
      rw [encodeNode_node, encodeNode_node, nodeItem, nodeItem, hchildren, hv]

/-- The hashed bytes determine the nodes and the values, up to empty ones. -/
theorem of_encodeNode_eq {t u : Node} (hlen : (encodeNode t).length < 2 ^ 64)
    (h : encodeNode t = encodeNode u) :
    (∀ p, t.HasNode p ↔ u.HasNode p) ∧ ∀ p, (t.get p).getD [] = (u.get p).getD [] := by
  induction t generalizing u with
  | null =>
    have hu : u = .null := by
      by_contra hne
      exact encodeNode_ne_nil hne h.symm
    simp [hu]
  | node c v ih =>
    cases u with
    | null => exact absurd h (encodeNode_ne_nil (by simp))
    | node c' v' =>
      have hitem : nodeItem c v = nodeItem c' v' := by
        rw [encodeNode_node] at hlen
        rw [encodeNode_node, encodeNode_node] at h
        exact Item.encode_injective hlen h
      simp only [nodeItem, Item.list.injEq] at hitem
      -- The sixteen children and the value are compared one by one.
      obtain ⟨hchildren, hvalue⟩ := List.append_inj' hitem rfl
      have hchild (i : Fin 16) := ih i ((length_encodeNode_child c v i).trans hlen)
        (Item.bytes.inj (congrFun (List.ofFn_injective hchildren) i))
      constructor
      · intro p
        cases p with
        | nil => simp
        | cons i p => exact (hchild i).1 p
      · intro p
        cases p with
        | nil => exact Item.bytes.inj (List.cons.inj hvalue).1
        | cons i p => exact (hchild i).2 p

/-- Without empty values, the hashed bytes determine the trie. -/
theorem encodeNode_injective {t u : Node} (ht : ∀ p, t.get p ≠ some [])
    (hu : ∀ p, u.get p ≠ some []) (hlen : (encodeNode t).length < 2 ^ 64)
    (h : encodeNode t = encodeNode u) : t = u := by
  obtain ⟨hnode, hvalue⟩ := of_encodeNode_eq hlen h
  exact DigitTrie.ext_of_get_of_hasNode (fun p => getD_nil_injective (ht p) (hu p) (hvalue p)) hnode

end Gambit
