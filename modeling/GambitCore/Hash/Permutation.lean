import Mathlib.Data.List.GetD
import Mathlib.Data.Set.Finite.List
import GambitCore.Codec.Rotation
import GambitCore.Hash.Lanes

/-!
# The rounds of Keccak permute the states

Each of the five steps of a round can be undone. Rho and pi move the lanes and rotate them, iota
adds a constant, and chi is undone row by row at each of the 64 positions. Theta is the step where
it takes an argument: it adds to every lane of a column a mask made of two other columns' parities.
The parities of the result are the parities plus their masks, and the difference of two sets of
parities with the same result solves a system of equations in a ring, which has no solution but
zero. With the parities the masks are known, and with them the lanes.

## Main definitions

* `Keccak.states` — arrays of 25 lanes

## Main results

* `Lanes.theta_injective`, `Lanes.rhoPi_injective`, `Lanes.chi_injective`, `Lanes.iota_injective`
* `keccakf_injOn`, `keccakf_mapsTo` — the 24 rounds lose nothing
* `keccakf_bijOn` — and reach every state
-/

namespace Gambit

namespace Keccak

/-! ### Words -/

theorem bitAt_rotl64 {k : UInt64} (hpos : 0 < k.toNat) (hlt : k.toNat < 64) (x : UInt64)
    (i : ZMod 64) : Codec.bitAt (rotl64 x k) i = Codec.bitAt x (i - (k.toNat : ZMod 64)) :=
  Codec.bitAt_rotate hpos hlt x i

/-- A rotation can be undone. -/
theorem rotl64_inj {k : UInt64} (hpos : 0 < k.toNat) (hlt : k.toNat < 64) {x y : UInt64} :
    rotl64 x k = rotl64 y k ↔ x = y := by
  refine ⟨fun h => Codec.eq_of_bitAt fun i => ?_, fun h => by rw [h]⟩
  -- The bit that comes to position `i + k` is the one from `i`.
  have hbit := congrArg (Codec.bitAt · (i + (k.toNat : ZMod 64))) h
  simpa only [bitAt_rotl64 hpos hlt, add_sub_cancel_right] using hbit

namespace Plane

theorem xor_right_cancel {a b d : Plane} (h : a.xor d = b.xor d) : a = b := by
  obtain ⟨a0, a1, a2, a3, a4⟩ := a
  obtain ⟨b0, b1, b2, b3, b4⟩ := b
  simpa only [xor, mk.injEq, UInt64.xor_left_inj] using h

/-- The equation between three lanes of the differences. -/
theorem ring_of_eq {a a' b b' c c' : UInt64}
    (h : a ^^^ (b ^^^ rotl64 c 1) = a' ^^^ (b' ^^^ rotl64 c' 1)) (i : ZMod 64) :
    Codec.bitAt (a ^^^ a') i = (Codec.bitAt (b ^^^ b') i ^^ Codec.bitAt (c ^^^ c') (i - 1)) := by
  have hbool : ∀ a a' b b' c c' : Bool,
      (a ^^ (b ^^ c)) = (a' ^^ (b' ^^ c')) → (a ^^ a') = (b ^^ b' ^^ (c ^^ c')) := by decide
  have hbit := congrArg (Codec.bitAt · i) h
  have hone : ((1 : UInt64).toNat : ZMod 64) = 1 := Nat.cast_one
  simp only [Codec.bitAt_xor, bitAt_rotl64 (k := 1) (by decide) (by decide), hone] at hbit ⊢
  exact hbool _ _ _ _ _ _ hbit

/-- Parities can be told from their sums with their masks. -/
theorem eq_of_xor_mask_eq {p q : Plane} (h : p.xor p.mask = q.xor q.mask) : p = q := by
  obtain ⟨p0, p1, p2, p3, p4⟩ := p
  obtain ⟨q0, q1, q2, q3, q4⟩ := q
  simp only [xor, mask, mk.injEq] at h
  obtain ⟨h0, h1, h2, h3, h4⟩ := h
  -- Addition is `^^^`, so the difference of two solutions solves the equations without constants.
  have hring : Codec.IsRing (Codec.bitAt (p0 ^^^ q0)) (Codec.bitAt (p1 ^^^ q1))
      (Codec.bitAt (p2 ^^^ q2)) (Codec.bitAt (p3 ^^^ q3)) (Codec.bitAt (p4 ^^^ q4)) :=
    ⟨ring_of_eq h0, ring_of_eq h1, ring_of_eq h2, ring_of_eq h3, ring_of_eq h4⟩
  have hzero : ∀ {a b : UInt64}, (∀ i, Codec.bitAt (a ^^^ b) i = false) → a = b := by
    intro a b hab
    refine Codec.eq_of_bitAt fun i => ?_
    simpa [Codec.bitAt_xor] using hab i
  have hfalse := fun i => Codec.eq_false_of_ring hring i
  rw [mk.injEq]
  exact ⟨hzero fun i => (hfalse i).1, hzero fun i => (hfalse i).2.1,
    hzero fun i => (hfalse i).2.2.1, hzero fun i => (hfalse i).2.2.2.1,
    hzero fun i => (hfalse i).2.2.2.2⟩

/-- A row of bits can be told from what chi makes of it. -/
theorem chi_bits : ∀ a0 a1 a2 a3 a4 b0 b1 b2 b3 b4 : Bool,
    (a0 ^^ (!a1 && a2)) = (b0 ^^ (!b1 && b2)) → (a1 ^^ (!a2 && a3)) = (b1 ^^ (!b2 && b3)) →
    (a2 ^^ (!a3 && a4)) = (b2 ^^ (!b3 && b4)) → (a3 ^^ (!a4 && a0)) = (b3 ^^ (!b4 && b0)) →
    (a4 ^^ (!a0 && a1)) = (b4 ^^ (!b0 && b1)) →
    a0 = b0 ∧ a1 = b1 ∧ a2 = b2 ∧ a3 = b3 ∧ a4 = b4 := by
  decide

theorem chi_injective : Function.Injective chi := by
  rintro ⟨a0, a1, a2, a3, a4⟩ ⟨b0, b1, b2, b3, b4⟩ h
  simp only [chi, mk.injEq] at h
  obtain ⟨h0, h1, h2, h3, h4⟩ := h
  have hlane : ∀ {a b c a' b' c' : UInt64}, a ^^^ (~~~ b &&& c) = a' ^^^ (~~~ b' &&& c') →
      ∀ i, (Codec.bitAt a i ^^ (!Codec.bitAt b i && Codec.bitAt c i)) =
        (Codec.bitAt a' i ^^ (!Codec.bitAt b' i && Codec.bitAt c' i)) := by
    intro a b c a' b' c' hword i
    have hbit := congrArg (Codec.bitAt · i) hword
    simpa only [Codec.bitAt_xor, Codec.bitAt_and, Codec.bitAt_not] using hbit
  have hbits := fun i => chi_bits _ _ _ _ _ _ _ _ _ _ (hlane h0 i) (hlane h1 i) (hlane h2 i)
    (hlane h3 i) (hlane h4 i)
  rw [mk.injEq]
  exact ⟨Codec.eq_of_bitAt fun i => (hbits i).1, Codec.eq_of_bitAt fun i => (hbits i).2.1,
    Codec.eq_of_bitAt fun i => (hbits i).2.2.1, Codec.eq_of_bitAt fun i => (hbits i).2.2.2.1,
    Codec.eq_of_bitAt fun i => (hbits i).2.2.2.2⟩

end Plane

/-! ### The steps of a round -/

namespace Lanes

/-- The column parities. -/
def parity (s : Lanes) : Plane := (((s.y0.xor s.y1).xor s.y2).xor s.y3).xor s.y4

/-- The mask is added to each column five times. -/
theorem parity_theta (s : Lanes) : s.theta.parity = s.parity.xor s.parity.mask := by
  obtain ⟨y0, y1, y2, y3, y4⟩ := s
  have hbool : ∀ a b c d e m : Bool,
      ((a ^^ m) ^^ (b ^^ m) ^^ (c ^^ m) ^^ (d ^^ m) ^^ (e ^^ m)) =
        ((a ^^ b ^^ c ^^ d ^^ e) ^^ m) := by decide
  have hfive : ∀ a b c d e m : UInt64,
      (a ^^^ m) ^^^ (b ^^^ m) ^^^ (c ^^^ m) ^^^ (d ^^^ m) ^^^ (e ^^^ m) =
        (a ^^^ b ^^^ c ^^^ d ^^^ e) ^^^ m := by
    intro a b c d e m
    refine Codec.eq_of_bitAt fun i => ?_
    simp only [Codec.bitAt_xor]
    exact hbool _ _ _ _ _ _
  simp only [parity, theta, Plane.xor, hfive]

theorem theta_injective : Function.Injective theta := by
  intro s s' h
  have hparity : s.parity = s'.parity := by
    apply Plane.eq_of_xor_mask_eq
    rw [← parity_theta, ← parity_theta, h]
  obtain ⟨y0, y1, y2, y3, y4⟩ := s
  obtain ⟨z0, z1, z2, z3, z4⟩ := s'
  -- Both sides now add the same mask to each row.
  simp only [parity] at hparity
  simp only [theta, hparity, mk.injEq] at h
  obtain ⟨h0, h1, h2, h3, h4⟩ := h
  rw [mk.injEq]
  exact ⟨Plane.xor_right_cancel h0, Plane.xor_right_cancel h1, Plane.xor_right_cancel h2,
    Plane.xor_right_cancel h3, Plane.xor_right_cancel h4⟩

theorem rhoPi_injective : Function.Injective rhoPi := by
  intro s s' h
  obtain ⟨⟨s0, s1, s2, s3, s4⟩, ⟨s5, s6, s7, s8, s9⟩, ⟨s10, s11, s12, s13, s14⟩,
    ⟨s15, s16, s17, s18, s19⟩, ⟨s20, s21, s22, s23, s24⟩⟩ := s
  obtain ⟨⟨t0, t1, t2, t3, t4⟩, ⟨t5, t6, t7, t8, t9⟩, ⟨t10, t11, t12, t13, t14⟩,
    ⟨t15, t16, t17, t18, t19⟩, ⟨t20, t21, t22, t23, t24⟩⟩ := s'
  -- Each lane is at one place of the result, rotated by an amount of its own.
  simp (disch := decide) only [rhoPi, mk.injEq, Plane.mk.injEq, rotl64_inj] at h ⊢
  tauto

theorem chi_injective : Function.Injective chi := by
  rintro ⟨y0, y1, y2, y3, y4⟩ ⟨z0, z1, z2, z3, z4⟩ h
  simpa only [chi, mk.injEq, Plane.chi_injective.eq_iff] using h

theorem iota_injective (rc : UInt64) : Function.Injective (iota rc) := by
  rintro ⟨⟨a0, a1, a2, a3, a4⟩, y1, y2, y3, y4⟩ ⟨⟨b0, b1, b2, b3, b4⟩, z1, z2, z3, z4⟩ h
  simpa only [iota, mk.injEq, Plane.mk.injEq, UInt64.xor_left_inj] using h

theorem round_injective (rc : UInt64) :
    Function.Injective fun s => iota rc (chi (rhoPi (theta s))) :=
  (iota_injective rc).comp (chi_injective.comp (rhoPi_injective.comp theta_injective))

theorem keccakf_injective : Function.Injective keccakf := by
  unfold keccakf
  induction rndc with
  | nil => exact Function.injective_id
  | cons rc rcs ih => exact ih.comp (round_injective rc)

/-! ### On the array -/

theorem toList_injective : Function.Injective toList := by
  intro s s' h
  obtain ⟨⟨s0, s1, s2, s3, s4⟩, ⟨s5, s6, s7, s8, s9⟩, ⟨s10, s11, s12, s13, s14⟩,
    ⟨s15, s16, s17, s18, s19⟩, ⟨s20, s21, s22, s23, s24⟩⟩ := s
  obtain ⟨⟨t0, t1, t2, t3, t4⟩, ⟨t5, t6, t7, t8, t9⟩, ⟨t10, t11, t12, t13, t14⟩,
    ⟨t15, t16, t17, t18, t19⟩, ⟨t20, t21, t22, t23, t24⟩⟩ := s'
  simp only [toList, List.cons.injEq] at h
  simp only [mk.injEq, Plane.mk.injEq]
  tauto

/-- The rows of an array. -/
def ofList (st : List UInt64) : Lanes :=
  ⟨⟨lane st 0, lane st 1, lane st 2, lane st 3, lane st 4⟩,
    ⟨lane st 5, lane st 6, lane st 7, lane st 8, lane st 9⟩,
    ⟨lane st 10, lane st 11, lane st 12, lane st 13, lane st 14⟩,
    ⟨lane st 15, lane st 16, lane st 17, lane st 18, lane st 19⟩,
    ⟨lane st 20, lane st 21, lane st 22, lane st 23, lane st 24⟩⟩

end Lanes

/-- The arrays `st[25]`. -/
def states : Set (List UInt64) := {st | st.length = 25}

theorem Lanes.toList_mem (s : Lanes) : s.toList ∈ states := rfl

theorem Lanes.toList_ofList {st : List UInt64} (h : st ∈ states) : (ofList st).toList = st := by
  have hlanes : (ofList st).toList = (List.range 25).map (lane st) := rfl
  rw [hlanes]
  apply List.ext_getElem
  · rw [List.length_map, List.length_range]
    exact h.symm
  · intro i _ hi
    rw [List.getElem_map, List.getElem_range, lane, List.getD_eq_getElem _ _ hi]

theorem keccakf_eq {st : List UInt64} (h : st ∈ states) :
    keccakf st = (Lanes.ofList st).keccakf.toList := by
  rw [← Lanes.keccakf_toList, Lanes.toList_ofList h]

theorem keccakf_mapsTo : Set.MapsTo keccakf states states := by
  intro st hst
  rw [keccakf_eq hst]
  exact Lanes.toList_mem _

theorem keccakf_injOn : Set.InjOn keccakf states := by
  intro st hst st' hst' h
  rw [keccakf_eq hst, keccakf_eq hst'] at h
  have hrows := Lanes.keccakf_injective (Lanes.toList_injective h)
  rw [← Lanes.toList_ofList hst, hrows, Lanes.toList_ofList hst']

/-- The 24 rounds are a permutation of the states: none is lost, and each is reached. -/
theorem keccakf_bijOn : Set.BijOn keccakf states states := by
  -- There are finitely many states, so what loses none reaches them all.
  have hwords : Finite UInt64 := Finite.of_injective UInt64.toFin fun _ _ => UInt64.toFin_inj.mp
  have hfinite : states.Finite := List.finite_length_eq UInt64 25
  exact (hfinite.injOn_iff_bijOn_of_mapsTo keccakf_mapsTo).mp keccakf_injOn

end Keccak

end Gambit
