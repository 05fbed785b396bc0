import GambitCore.Hash.Keccak

/-!
# Evaluating Keccak-256

The state of the sponge as five rows of five lanes instead of one list. A step of the permutation is
then a straight-line program, which the kernel evaluates an order of magnitude faster than the loops
over the list. The two are equal, so that the hash of a given text can be computed here and used
there.

## Main definitions

* `Keccak.Lanes`, `Keccak.Lanes.keccakf` — the state and its permutation
* `Keccak.eval` — the hash

## Main results

* `keccak256_eq_eval` — it is `keccak256`
-/

namespace Gambit

namespace Keccak

/-- Five lanes in a row. -/
structure Plane where
  x0 : UInt64
  x1 : UInt64
  x2 : UInt64
  x3 : UInt64
  x4 : UInt64

namespace Plane

def xor : Plane → Plane → Plane
  | ⟨a0, a1, a2, a3, a4⟩, ⟨b0, b1, b2, b3, b4⟩ =>
    ⟨a0 ^^^ b0, a1 ^^^ b1, a2 ^^^ b2, a3 ^^^ b3, a4 ^^^ b4⟩

/-- The masks theta makes of the column parities. -/
def mask : Plane → Plane
  | ⟨c0, c1, c2, c3, c4⟩ =>
    ⟨c4 ^^^ rotl64 c1 1, c0 ^^^ rotl64 c2 1, c1 ^^^ rotl64 c3 1, c2 ^^^ rotl64 c4 1,
      c3 ^^^ rotl64 c0 1⟩

/-- Chi, on one row. -/
def chi : Plane → Plane
  | ⟨b0, b1, b2, b3, b4⟩ =>
    ⟨b0 ^^^ (~~~ b1 &&& b2), b1 ^^^ (~~~ b2 &&& b3), b2 ^^^ (~~~ b3 &&& b4),
      b3 ^^^ (~~~ b4 &&& b0), b4 ^^^ (~~~ b0 &&& b1)⟩

end Plane

/-- The state, row by row. -/
structure Lanes where
  y0 : Plane
  y1 : Plane
  y2 : Plane
  y3 : Plane
  y4 : Plane

namespace Lanes

/-- The array `st[25]`. -/
def toList : Lanes → List UInt64
  | ⟨⟨s0, s1, s2, s3, s4⟩, ⟨s5, s6, s7, s8, s9⟩, ⟨s10, s11, s12, s13, s14⟩,
      ⟨s15, s16, s17, s18, s19⟩, ⟨s20, s21, s22, s23, s24⟩⟩ =>
    [s0, s1, s2, s3, s4, s5, s6, s7, s8, s9, s10, s11, s12, s13, s14, s15, s16, s17, s18, s19, s20,
      s21, s22, s23, s24]

def zero : Lanes :=
  ⟨⟨0, 0, 0, 0, 0⟩, ⟨0, 0, 0, 0, 0⟩, ⟨0, 0, 0, 0, 0⟩, ⟨0, 0, 0, 0, 0⟩, ⟨0, 0, 0, 0, 0⟩⟩

def theta : Lanes → Lanes
  | ⟨y0, y1, y2, y3, y4⟩ =>
    let d := ((((y0.xor y1).xor y2).xor y3).xor y4).mask
    ⟨y0.xor d, y1.xor d, y2.xor d, y3.xor d, y4.xor d⟩

/-- Rho and Pi: the walk through `piln`, lane by lane. -/
def rhoPi : Lanes → Lanes
  | ⟨⟨t0, t1, t2, t3, t4⟩, ⟨t5, t6, t7, t8, t9⟩, ⟨t10, t11, t12, t13, t14⟩,
      ⟨t15, t16, t17, t18, t19⟩, ⟨t20, t21, t22, t23, t24⟩⟩ =>
    ⟨⟨t0, rotl64 t6 44, rotl64 t12 43, rotl64 t18 21, rotl64 t24 14⟩,
      ⟨rotl64 t3 28, rotl64 t9 20, rotl64 t10 3, rotl64 t16 45, rotl64 t22 61⟩,
      ⟨rotl64 t1 1, rotl64 t7 6, rotl64 t13 25, rotl64 t19 8, rotl64 t20 18⟩,
      ⟨rotl64 t4 27, rotl64 t5 36, rotl64 t11 10, rotl64 t17 15, rotl64 t23 56⟩,
      ⟨rotl64 t2 62, rotl64 t8 55, rotl64 t14 39, rotl64 t15 41, rotl64 t21 2⟩⟩

def chi : Lanes → Lanes
  | ⟨y0, y1, y2, y3, y4⟩ => ⟨y0.chi, y1.chi, y2.chi, y3.chi, y4.chi⟩

def iota (rc : UInt64) : Lanes → Lanes
  | ⟨⟨x0, x1, x2, x3, x4⟩, y1, y2, y3, y4⟩ => ⟨⟨x0 ^^^ rc, x1, x2, x3, x4⟩, y1, y2, y3, y4⟩

def keccakf (s : Lanes) : Lanes := rndc.foldl (fun s rc => iota rc (chi (rhoPi (theta s)))) s

/-- Word `i` of a block. -/
def word (block : Bytes) (i : ℕ) : UInt64 := loadLane ((block.drop (i * 8)).take 8)

def absorb (block : Bytes) : Lanes → Lanes
  | ⟨y0, y1, y2, ⟨s15, s16, s17, s18, s19⟩, y4⟩ =>
    ⟨y0.xor ⟨word block 0, word block 1, word block 2, word block 3, word block 4⟩,
      y1.xor ⟨word block 5, word block 6, word block 7, word block 8, word block 9⟩,
      y2.xor ⟨word block 10, word block 11, word block 12, word block 13, word block 14⟩,
      ⟨s15 ^^^ word block 15, s16 ^^^ word block 16, s17, s18, s19⟩, y4⟩

def absorbFull : ℕ → Lanes → Bytes → Lanes × Bytes
  | 0, s, input => (s, input)
  | n + 1, s, input => absorbFull n (keccakf (s.absorb (input.take rsiz))) (input.drop rsiz)

end Lanes

/-- The hash, computed on rows of lanes. -/
def eval (input : Bytes) : Bytes :=
  let (s, rest) := Lanes.absorbFull (input.length / rsiz) Lanes.zero input
  squeeze (Lanes.keccakf (s.absorb (padded rest))).toList

/-! ### The two agree -/

namespace Lanes

theorem theta_toList (s : Lanes) : Keccak.theta s.toList = s.theta.toList := rfl

theorem rhoPi_toList (s : Lanes) : Keccak.rhoPi s.toList = s.rhoPi.toList := by
  simp only [Keccak.rhoPi, piln, rotc, toList, rhoPi, lane, List.zip_cons_cons, List.zip_nil_right,
    List.foldl_cons, List.foldl_nil, List.set_cons_succ, List.set_cons_zero, List.getD_cons_succ,
    List.getD_cons_zero]

theorem chi_toList (s : Lanes) : Keccak.chi s.toList = s.chi.toList := rfl

theorem iota_toList (rc : UInt64) (s : Lanes) :
    Keccak.iota rc s.toList = (s.iota rc).toList := rfl

theorem keccakf_toList (s : Lanes) : Keccak.keccakf s.toList = s.keccakf.toList := by
  unfold Keccak.keccakf keccakf
  induction rndc generalizing s with
  | nil => rfl
  | cons rc rcs ih =>
    rw [List.foldl_cons, List.foldl_cons, theta_toList, rhoPi_toList, chi_toList, iota_toList, ih]

theorem absorb_toList (block : Bytes) (s : Lanes) :
    Keccak.absorb s.toList block = (s.absorb block).toList := rfl

theorem absorbFull_toList (n : ℕ) (s : Lanes) (input : Bytes) :
    Keccak.absorbFull n s.toList input =
      ((absorbFull n s input).1.toList, (absorbFull n s input).2) := by
  induction n generalizing s input with
  | zero => rfl
  | succ n ih => rw [Keccak.absorbFull, absorb_toList, keccakf_toList, ih, absorbFull]

end Lanes

end Keccak

open Keccak in
/-- The hash of a text can be evaluated on rows of lanes. -/
theorem keccak256_eq_eval (input : Bytes) : keccak256 input = Keccak.eval input := by
  have hzero : List.replicate 25 (0 : UInt64) = Lanes.zero.toList := rfl
  rw [keccak256, hzero, Lanes.absorbFull_toList]
  simp only [Lanes.absorb_toList, Lanes.keccakf_toList, Keccak.eval]

end Gambit
