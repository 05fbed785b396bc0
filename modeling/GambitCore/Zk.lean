import GambitCore.Hash.Keccak

/-!
# The mock proofs

`ZkProver` and `ZkVerifier` of `zk.cpp`. A proof is a hash over the two state roots and the
transaction root it names, and a commitment over the proof and the same three texts. The
verifier recomputes the commitment from the texts inside the proof; it is not given those
of the block that carries it.

## Main results

* `verify_generate` — a generated proof verifies
* `not_verify_stripped` — away from collisions, a proof that has lost its texts does not
-/

namespace Gambit

/-- `ZkProof`. -/
structure ZkProof where
  proof : Str := []
  stateBefore : Str := []
  stateAfter : Str := []
  txRoot : Str := []
  commitment : Str := []
  deriving DecidableEq

/-- The text a commitment hashes. -/
def commitmentText (proof stateBefore stateAfter txRoot : Str) : Str :=
  proof ++ str "|" ++ stateBefore ++ str "|" ++ stateAfter ++ str "|" ++ txRoot

/-- `ZkProver::generate`. -/
def ZkProver.generate (stateBefore stateAfter txRoot : Str) : ZkProof :=
  let concat := stateBefore ++ str "|" ++ stateAfter ++ str "|" ++ txRoot
  let proof := toHex (keccak256 concat)
  { proof, stateBefore, stateAfter, txRoot
    commitment := toHex (keccak256 (commitmentText proof stateBefore stateAfter txRoot)) }

/-- `ZkVerifier::verify`. -/
def ZkVerifier.verify (p : ZkProof) : Bool :=
  toHex (keccak256 (commitmentText p.proof p.stateBefore p.stateAfter p.txRoot)) == p.commitment

theorem verify_generate (stateBefore stateAfter txRoot : Str) :
    ZkVerifier.verify (ZkProver.generate stateBefore stateAfter txRoot) = true := by
  simp [ZkVerifier.verify, ZkProver.generate]

/-- Away from collisions, a generated proof that has lost its texts does not verify. -/
theorem not_verify_stripped {stateBefore stateAfter txRoot : Str} (hne : stateBefore ≠ [])
    (hcol : NoCollision
      (commitmentText (ZkProver.generate stateBefore stateAfter txRoot).proof [] [] [])
      (commitmentText (ZkProver.generate stateBefore stateAfter txRoot).proof stateBefore stateAfter
        txRoot)) :
    ZkVerifier.verify
      { proof := (ZkProver.generate stateBefore stateAfter txRoot).proof
        commitment := (ZkProver.generate stateBefore stateAfter txRoot).commitment } = false := by
  by_contra hverify
  rw [Bool.not_eq_false, ZkVerifier.verify, beq_iff_eq] at hverify
  -- The texts have equal hashes, hence equal lengths; the stripped one is shorter.
  have htext := congrArg List.length (hcol (toHex_injective hverify))
  have hpos := List.length_pos_iff.mpr hne
  simp only [commitmentText, List.length_append, List.length_nil] at htext
  omega

end Gambit
