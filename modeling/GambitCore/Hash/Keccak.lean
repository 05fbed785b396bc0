import GambitCore.Hash.Hex

/-!
# Keccak-256

The vendored `tinykeccak::keccak_256` and the wrappers of `hash.cpp` around it. The
sponge state is the array `st[25]`; an in-place loop over lanes is a map over their
indices where it reads only old lanes, and a fold where it does not (the `Rho Pi`
walk).

Nothing below depends on the hash beyond its output length. Where a statement about
the node needs that two hashed strings do not collide, it says so about those
strings.
-/

namespace Gambit

namespace Keccak

/-- `keccakf_rndc`. -/
def rndc : List UInt64 :=
  [0x0000000000000001, 0x0000000000008082, 0x800000000000808a, 0x8000000080008000,
   0x000000000000808b, 0x0000000080000001, 0x8000000080008081, 0x8000000000008009,
   0x000000000000008a, 0x0000000000000088, 0x0000000080008009, 0x000000008000000a,
   0x000000008000808b, 0x800000000000008b, 0x8000000000008089, 0x8000000000008003,
   0x8000000000008002, 0x8000000000000080, 0x000000000000800a, 0x800000008000000a,
   0x8000000080008081, 0x8000000000008080, 0x0000000080000001, 0x8000000080008008]

/-- `keccakf_rotc`. -/
def rotc : List UInt64 :=
  [1, 3, 6, 10, 15, 21, 28, 36, 45, 55, 2, 14, 27, 41, 56, 8, 25, 43, 62, 18, 39, 61, 20, 44]

/-- `keccakf_piln`. -/
def piln : List ℕ :=
  [10, 7, 11, 17, 18, 3, 5, 16, 8, 21, 24, 4, 15, 23, 19, 13, 12, 2, 20, 14, 22, 9, 6, 1]

/-- `ROTL64`; the source calls it with `0 < y < 64` only. -/
def rotl64 (x y : UInt64) : UInt64 := (x <<< y) ||| (x >>> (64 - y))

/-- `st[i]`. -/
def lane (st : List UInt64) (i : ℕ) : UInt64 := st.getD i 0

/-- Theta: the column parities `bc`, then one mask a column. -/
def theta (st : List UInt64) : List UInt64 :=
  let bc := (List.range 5).map fun i =>
    lane st i ^^^ lane st (i + 5) ^^^ lane st (i + 10) ^^^ lane st (i + 15) ^^^ lane st (i + 20)
  (List.range 25).map fun k =>
    lane st k ^^^ (lane bc ((k % 5 + 4) % 5) ^^^ rotl64 (lane bc ((k % 5 + 1) % 5)) 1)

/-- Rho and Pi: each lane visited receives the rotated previous one. -/
def rhoPi (st : List UInt64) : List UInt64 :=
  ((piln.zip rotc).foldl
    (fun (acc : List UInt64 × UInt64) jr =>
      (acc.1.set jr.1 (rotl64 acc.2 jr.2), lane acc.1 jr.1))
    -- The walk starts from lane 1; lane 0 stays where it is.
    (st, lane st 1)).1

/-- Chi, on each row of five lanes. -/
def chi (st : List UInt64) : List UInt64 :=
  (List.range 25).map fun k =>
    let j := k / 5 * 5
    let i := k % 5
    lane st k ^^^ (~~~ lane st (j + (i + 1) % 5) &&& lane st (j + (i + 2) % 5))

/-- Iota. -/
def iota (rc : UInt64) (st : List UInt64) : List UInt64 := st.set 0 (lane st 0 ^^^ rc)

/-- `keccakf`: the 24 rounds. -/
def keccakf (st : List UInt64) : List UInt64 :=
  rndc.foldl (fun st rc => iota rc (chi (rhoPi (theta st)))) st

/-- `rsiz`, the rate in bytes. -/
def rsiz : ℕ := 136

/-- The little-endian word of eight input bytes. -/
def loadLane (b : Bytes) : UInt64 := b.foldr (fun c t => (t <<< 8) ||| c.toUInt64) 0

/-- XOR one block of the rate into the first 17 lanes. -/
def absorb (st : List UInt64) (block : Bytes) : List UInt64 :=
  (List.range 25).map fun i =>
    if i < rsiz / 8 then lane st i ^^^ loadLane ((block.drop (i * 8)).take 8) else lane st i

/-- The absorbing loop over the `n` full blocks of the input, with what is left. -/
def absorbFull : ℕ → List UInt64 → Bytes → List UInt64 × Bytes
  | 0, st, input => (st, input)
  | n + 1, st, input =>
    absorbFull n (keccakf (absorb st (input.take rsiz))) (input.drop rsiz)

/-- The last block: the remaining bytes, `0x01`, zeros, and `0x80` on the last byte. -/
def padded (rest : Bytes) : Bytes :=
  let temp := rest ++ 0x01 :: List.replicate (rsiz - 1 - rest.length) 0
  -- With one free byte both marks fall on it.
  temp.set (rsiz - 1) (temp.getD (rsiz - 1) 0 ||| 0x80)

/-- Squeeze 32 bytes out of the first four lanes. -/
def squeeze (st : List UInt64) : Bytes :=
  (List.range 4).flatMap fun i =>
    (List.range 8).map fun j => (lane st i >>> UInt64.ofNat (8 * j)).toUInt8

end Keccak

open Keccak in
/-- `keccak256` on a byte vector; on a string it hashes the string's bytes. -/
def keccak256 (input : Bytes) : Bytes :=
  let (st, rest) := absorbFull (input.length / rsiz) (List.replicate 25 0) input
  squeeze (keccakf (absorb st (padded rest)))

@[simp] theorem length_keccak256 (input : Bytes) : (keccak256 input).length = 32 := by
  simp [keccak256, Keccak.squeeze, List.length_flatMap]

/-- `keccak256_32`. -/
def keccak256_32 (input : Bytes) : Bytes32 := ⟨keccak256 input, length_keccak256 input⟩

/-- Two strings that hash alike are one string: no collision between them. -/
def NoCollision (x y : Bytes) : Prop := keccak256 x = keccak256 y → x = y

attribute [irreducible] keccak256

end Gambit
