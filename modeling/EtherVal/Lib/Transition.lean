import Mathlib.Logic.Relation
import Mathlib.Tactic

/-!
# Transition systems

Reachability is `Relation.ReflTransGen`.  A run that cannot go on for ever ends in a state
without a step.
-/

namespace EtherVal.Lib
open Relation

variable {σ : Type*} {step sub : σ → σ → Prop} {s t : σ}

def Stuck (step : σ → σ → Prop) (s : σ) : Prop := ∀ t, ¬ step s t

def Endless (step : σ → σ → Prop) (s : σ) : Prop :=
  ∃ f : Nat → σ, f 0 = s ∧ ∀ i, step (f i) (f (i + 1))

theorem reach_invariant {I : σ → Prop} (hstep : ∀ s t, I s → step s t → I t)
    (h : ReflTransGen step s t) (hs : I s) : I t := by
  induction h with
  | refl => exact hs
  | tail _ hlast ih => exact hstep _ _ ih hlast

theorem Endless.mono (hsub : ∀ s t, sub s t → step s t) (h : Endless sub s) : Endless step s := by
  obtain ⟨f, hf, hs⟩ := h
  exact ⟨f, hf, fun i => hsub _ _ (hs i)⟩

theorem Endless.cons (hst : step s t) (h : Endless step t) : Endless step s := by
  obtain ⟨f, hf, hs⟩ := h
  refine ⟨fun i => Nat.casesOn i s f, rfl, ?_⟩
  intro i
  cases i with
  | zero =>
    show step s (f 0)
    rw [hf]
    exact hst
  | succ i => exact hs i

theorem Endless.of_reach (hst : ReflTransGen step s t) (h : Endless step t) : Endless step s := by
  induction hst using ReflTransGen.head_induction_on with
  | refl => exact h
  | head hstep _ ih => exact ih.cons hstep

theorem not_endless_of_measure {I : σ → Prop} {μ : σ → Nat} (hs : I s)
    (hstep : ∀ s t, I s → step s t → I t ∧ μ t < μ s) : ¬ Endless step s := by
  rintro ⟨f, hf, hrun⟩
  have hall : ∀ i, I (f i) ∧ μ (f i) + i ≤ μ s := by
    intro i
    induction i with
    | zero => rw [hf]; exact ⟨hs, by omega⟩
    | succ i ih =>
      have hnext := hstep _ _ ih.1 (hrun i)
      exact ⟨hnext.1, by omega⟩
  have hlate := (hall (μ s + 1)).2
  omega

theorem exists_stuck (h : ¬ Endless step s) : ∃ t, ReflTransGen step s t ∧ Stuck step t := by
  by_contra hnone
  have hnext : ∀ t, ReflTransGen step s t → ∃ u, step t u := by
    intro t ht
    by_contra hu
    exact hnone ⟨t, ht, fun u hstep => hu ⟨u, hstep⟩⟩
  choose next hnext using hnext
  -- the states reached so far, each with its own run from `s`
  let f : Nat → { t // ReflTransGen step s t } := fun i =>
    Nat.rec ⟨s, .refl⟩ (fun _ t => ⟨next t.1 t.2, t.2.tail (hnext t.1 t.2)⟩) i
  exact h ⟨fun i => (f i).1, rfl, fun i => hnext (f i).1 (f i).2⟩

end EtherVal.Lib
