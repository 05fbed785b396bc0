import Mathlib.Algebra.Ring.Nat
import Mathlib.Data.List.Basic

/-!
# Bytes, strings and exceptions

The value types every part of the node shares. A `std::vector<std::uint8_t>` and a
`std::string` are both byte lists: the node copies one into the other freely and
strings arrive from peers with arbitrary bytes in them. `std::size_t` and
`std::uint64_t` are `UInt64`, with the wrap-around of the machine type.

A call that can fail returns a `Result`. Besides the exceptions that are thrown, `Exn`
records the events that have no defined outcome in C++, so that a theorem can say
that they do not happen; `Exn.IsThrown` tells the two kinds apart.
-/

namespace Gambit

/-- A `std::vector<std::uint8_t>`. -/
abbrev Bytes := List UInt8

/-- A `std::string`, as the bytes it holds. -/
abbrev Str := List UInt8

/-- The bytes of an ASCII string literal of the source. -/
def str (s : String) : Str := s.toList.map fun c => UInt8.ofNat c.toNat

/-- The `size()` of a vector or a string. -/
def size (b : Bytes) : UInt64 := UInt64.ofNat b.length

theorem toNat_size {b : Bytes} (h : b.length < 2 ^ 64) : (size b).toNat = b.length := by
  simpa [size] using h

/-- How a call fails to return. -/
inductive Exn
  /-- `throw std::runtime_error(what)`. -/
  | runtime (what : String)
  /-- The `std::length_error` of a vector constructed from a range that ends before it starts:
  the distance, as a `size_t`, is more than any vector can hold. -/
  | lengthError
  /-- A vector constructed from a range that runs past the end of its source. -/
  | badRange
  /-- An element read past the end of a vector. -/
  | outOfBounds
  /-- The step budget of a model function with an unbounded loop ran out. -/
  | outOfFuel
  deriving DecidableEq, Repr

/-- `e.what()`. The events that are not exceptions have no text. -/
def Exn.what : Exn → String
  | runtime what => what
  | lengthError => "cannot create std::vector larger than max_size()"
  | _ => ""

/-- The call has thrown, so that a caller can catch it. -/
def Exn.IsThrown : Exn → Prop
  | runtime _ | lengthError => True
  | badRange | outOfBounds | outOfFuel => False

theorem Exn.isThrown_iff {e : Exn} :
    e.IsThrown ↔ (∃ what, e = .runtime what) ∨ e = .lengthError := by
  cases e <;> simp [IsThrown]

/-- A computation that returns a value or fails. -/
abbrev Result := Except Exn

/-- `throw std::runtime_error(what)`. -/
def runtimeError {α : Type*} (what : String) : Result α := .error (.runtime what)

/-- A byte string of a fixed length, for `std::array` and for the buffers whose
length the source fixes at construction. -/
abbrev FixedBytes (n : ℕ) := { b : Bytes // b.length = n }

/-- `Bytes32`. -/
abbrev Bytes32 := FixedBytes 32

/-- Bytes `a` to `b` of a buffer, the range constructor of a vector. -/
def slice (b : Bytes) (first last : UInt64) : Result Bytes :=
  if last < first then .error .lengthError
  else if last.toNat ≤ b.length then .ok ((b.take last.toNat).drop first.toNat)
  else .error .badRange

theorem slice_of_le (b : Bytes) {first last : UInt64} (h : first ≤ last) :
    slice b first last =
      if last.toNat ≤ b.length then .ok ((b.take last.toNat).drop first.toNat)
      else .error .badRange := by
  rw [slice, if_neg (UInt64.not_lt.mpr h)]

/-- `b[i]`. -/
def readAt (b : Bytes) (i : UInt64) : Result UInt8 :=
  match b[i.toNat]? with
  | some c => .ok c
  | none => .error .outOfBounds

/-- Whether a call returns. -/
def Returns {α : Type*} (r : Result α) : Prop := ∃ a, r = .ok a

/-! ### Calls in sequence -/

section Result

variable {α β γ : Type}

theorem bind_eq_ok {x : Result α} {f : α → Result β} {b : β} :
    (x >>= f) = .ok b ↔ ∃ a, x = .ok a ∧ f a = .ok b := by
  cases x <;> simp [bind, Except.bind]

theorem bind_eq_error {x : Result α} {f : α → Result β} {e : Exn} :
    (x >>= f) = .error e ↔ x = .error e ∨ ∃ a, x = .ok a ∧ f a = .error e := by
  cases x <;> simp [bind, Except.bind]

theorem map_eq_ok {x : Result α} {f : α → β} {b : β} :
    (f <$> x) = .ok b ↔ ∃ a, x = .ok a ∧ f a = b := by
  cases x <;> simp [Functor.map, Except.map]

theorem map_eq_error {x : Result α} {f : α → β} {e : Exn} :
    (f <$> x) = .error e ↔ x = .error e := by
  cases x <;> simp [Functor.map, Except.map]

theorem returns_map_iff {x : Result α} {f : α → β} : Returns (f <$> x) ↔ Returns x := by
  simp [Returns, map_eq_ok]

theorem returns_bind_pure_iff {x : Result α} {f : α → β} :
    Returns (x >>= fun a => pure (f a)) ↔ Returns x := by
  simp [Returns, bind_eq_ok, pure, Except.pure]

/-- A loop that collects results returns when every step does. -/
theorem returns_mapM_iff {f : α → Result β} {l : List α} :
    Returns (l.mapM f) ↔ ∀ x ∈ l, Returns (f x) := by
  induction l with
  | nil => simp [Returns, pure, Except.pure]
  | cons x l ih =>
    rw [List.mapM_cons, List.forall_mem_cons, ← ih]
    cases hx : f x with
    | error e => simp [Returns, bind, Except.bind]
    | ok y =>
      cases hl : l.mapM f with
      | error e => simp [Returns, bind, Except.bind]
      | ok ys => simp [Returns, bind, pure, Except.bind, Except.pure]

/-- The results of a loop whose every step returns. -/
theorem mapM_eq_ok_map {f : α → Result β} {g : α → β} {l : List α}
    (h : ∀ x ∈ l, f x = .ok (g x)) : l.mapM f = .ok (l.map g) := by
  induction l with
  | nil => rfl
  | cons x l ih =>
    rw [List.mapM_cons, h x List.mem_cons_self, ih fun y hy => h y (List.mem_cons_of_mem _ hy)]
    rfl

/-- If every result is the image of something, so is the list of results. -/
theorem exists_map_of_mapM {f : α → Result β} {g : γ → β} {R : α → γ → Prop}
    (h : ∀ x y, f x = .ok y → ∃ t, R x t ∧ y = g t) {l : List α} {ys : List β}
    (hl : l.mapM f = .ok ys) : ∃ ts, List.Forall₂ R l ts ∧ ys = ts.map g := by
  induction l generalizing ys with
  | nil =>
    obtain rfl := Except.ok.inj hl
    exact ⟨[], .nil, rfl⟩
  | cons x l ih =>
    rw [List.mapM_cons] at hl
    cases hx : f x with
    | error e => simp [hx, bind, Except.bind] at hl
    | ok y =>
      cases hrest : l.mapM f with
      | error e => simp [hx, hrest, bind, Except.bind] at hl
      | ok rest =>
        simp only [hx, hrest, bind, pure, Except.bind, Except.pure] at hl
        obtain rfl := Except.ok.inj hl
        obtain ⟨t, ht, rfl⟩ := h x y hx
        obtain ⟨ts, hts, rfl⟩ := ih hrest
        exact ⟨t :: ts, .cons ht hts, rfl⟩

theorem map_eq_map_ok {f : α → Result β} {l : List α} {ys : List β}
    (h : List.Forall₂ (fun x y => f x = .ok y) l ys) : l.map f = ys.map .ok := by
  induction h with
  | nil => rfl
  | cons hx _ ih => rw [List.map_cons, List.map_cons, hx, ih]

end Result

end Gambit
