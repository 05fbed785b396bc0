import Mathlib.Data.List.Induction
import Mathlib.Data.Set.Function

/-!
# Sponges

A hash that absorbs its input block by block: each block is mixed into a state, and the state is
then permuted. Mixing loses no block and the permutation loses no state, so that two sequences of
blocks can end in one state in few ways only, which are listed here.

## Main definitions

* `Sponge`, `Sponge.after` — the state after a sequence of blocks
* `Sponge.Sound` — the permutation and the mixing are injective, on the states that occur
* `Sponge.InnerCollision`, `Sponge.Returns` — the ways to end in one state

## Main results

* `Sound.after_eq_iff` — there are no others
-/

structure Sponge (σ β : Type*) where
  permute : σ → σ
  absorb : σ → β → σ
  start : σ

namespace Sponge

variable {σ β : Type*} (S : Sponge σ β)

/-- The state after a sequence of blocks. -/
def after (x : List β) : σ := x.foldl (fun s b => S.permute (S.absorb s b)) S.start

theorem after_append (x y : List β) :
    S.after (x ++ y) = y.foldl (fun s b => S.permute (S.absorb s b)) (S.after x) :=
  List.foldl_append

theorem after_concat (x : List β) (b : β) :
    S.after (x ++ [b]) = S.permute (S.absorb (S.after x) b) := S.after_append x [b]

/-- On the states in `states`, with blocks in `blocks`, nothing is lost. -/
structure Sound (states : Set σ) (blocks : Set β) : Prop where
  start_mem : S.start ∈ states
  mapsTo : Set.MapsTo S.permute states states
  injOn : Set.InjOn S.permute states
  absorb_mem : ∀ s ∈ states, ∀ b ∈ blocks, S.absorb s b ∈ states
  absorb_injOn : ∀ s ∈ states, Set.InjOn (S.absorb s) blocks

/-- Two blocks make one state out of two, and the same blocks follow. -/
def InnerCollision (x y : List β) : Prop :=
  ∃ p q b c t, x = p ++ b :: t ∧ y = q ++ c :: t ∧ S.after p ≠ S.after q ∧
    S.absorb (S.after p) b = S.absorb (S.after q) c

/-- After blocks of its own, the first sequence is back at the start and goes on as the second. -/
def Returns (x y : List β) : Prop := ∃ p, p ≠ [] ∧ x = p ++ y ∧ S.after p = S.start

variable {S} {x y : List β} {states : Set σ} {blocks : Set β}

theorem InnerCollision.after_eq (h : S.InnerCollision x y) : S.after x = S.after y := by
  obtain ⟨p, q, b, c, t, rfl, rfl, -, habsorb⟩ := h
  rw [after_append, after_append, List.foldl_cons, List.foldl_cons, habsorb]

theorem InnerCollision.concat (h : S.InnerCollision x y) (b : β) :
    S.InnerCollision (x ++ [b]) (y ++ [b]) := by
  obtain ⟨p, q, c, d, t, rfl, rfl, hne, habsorb⟩ := h
  exact ⟨p, q, c, d, t ++ [b], by simp, by simp, hne, habsorb⟩

theorem Returns.after_eq (h : S.Returns x y) : S.after x = S.after y := by
  obtain ⟨p, -, rfl, hstart⟩ := h
  rw [after_append, hstart, after]

theorem Returns.concat (h : S.Returns x y) (b : β) : S.Returns (x ++ [b]) (y ++ [b]) := by
  obtain ⟨p, hp, rfl, hstart⟩ := h
  exact ⟨p, hp, List.append_assoc p y [b], hstart⟩

namespace Sound

variable (hS : S.Sound states blocks)

include hS

theorem after_mem (hx : ∀ b ∈ x, b ∈ blocks) : S.after x ∈ states := by
  induction x using List.reverseRecOn with
  | nil => exact hS.start_mem
  | append_singleton x b ih =>
    rw [after_concat]
    have hmem := ih fun c hc => hx c (List.mem_append_left _ hc)
    exact hS.mapsTo (hS.absorb_mem _ hmem b (hx b (by simp)))

/-- The ways in which two sequences end in one state. -/
theorem eq_or_of_after_eq (hx : ∀ b ∈ x, b ∈ blocks) (hy : ∀ b ∈ y, b ∈ blocks)
    (h : S.after x = S.after y) :
    x = y ∨ S.Returns x y ∨ S.Returns y x ∨ S.InnerCollision x y := by
  -- From the last block back, as long as the states are equal.
  induction x using List.reverseRecOn generalizing y with
  | nil =>
    rcases eq_or_ne y [] with rfl | hne
    · exact .inl rfl
    · exact .inr (.inr (.inl ⟨y, hne, (List.append_nil y).symm, h.symm⟩))
  | append_singleton x b ih =>
    cases y using List.reverseRecOn with
    | nil => exact .inr (.inl ⟨x ++ [b], by simp, (List.append_nil _).symm, h⟩)
    | append_singleton y c _ =>
      have hx' : ∀ d ∈ x, d ∈ blocks := fun d hd => hx d (List.mem_append_left _ hd)
      have hy' : ∀ d ∈ y, d ∈ blocks := fun d hd => hy d (List.mem_append_left _ hd)
      have hb : b ∈ blocks := hx b (by simp)
      have hc : c ∈ blocks := hy c (by simp)
      rw [after_concat, after_concat] at h
      have habsorb : S.absorb (S.after x) b = S.absorb (S.after y) c :=
        hS.injOn (hS.absorb_mem _ (hS.after_mem hx') b hb)
          (hS.absorb_mem _ (hS.after_mem hy') c hc) h
      by_cases hstate : S.after x = S.after y
      · rw [hstate] at habsorb
        obtain rfl := hS.absorb_injOn _ (hS.after_mem hy') hb hc habsorb
        rcases ih hx' hy' hstate with rfl | hreturns | hreturns | hinner
        · exact .inl rfl
        · exact .inr (.inl (hreturns.concat b))
        · exact .inr (.inr (.inl (hreturns.concat b)))
        · exact .inr (.inr (.inr (hinner.concat b)))
      · exact .inr (.inr (.inr ⟨x, y, b, c, [], rfl, rfl, hstate, habsorb⟩))

theorem after_eq_iff (hx : ∀ b ∈ x, b ∈ blocks) (hy : ∀ b ∈ y, b ∈ blocks) :
    S.after x = S.after y ↔
      x = y ∨ S.Returns x y ∨ S.Returns y x ∨ S.InnerCollision x y := by
  refine ⟨hS.eq_or_of_after_eq hx hy, ?_⟩
  rintro (rfl | hreturns | hreturns | hinner)
  · rfl
  · exact hreturns.after_eq
  · exact hreturns.after_eq.symm
  · exact hinner.after_eq

end Sound

end Sponge
