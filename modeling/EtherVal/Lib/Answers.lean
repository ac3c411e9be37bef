import EtherVal.Lib.Go
import EtherVal.Lib.GoMap

/-!
# Functions that answer a question

A Go comparison is a chain of tests that returns `false` at the first one that fails.  It
answers the question `P` when it returns, and returns `true` exactly when `P` holds.
-/

namespace EtherVal.Lib
open Std

/-- `r` returns, and returns `true` exactly when `P` holds. -/
def Answers (r : Except GoPanic Bool) (P : Prop) : Prop := ∃ b, r = .ok b ∧ (b = true ↔ P)

/-- `for i, x := range xs { if !same(x, ys[i]) { return false } }` -/
def rangeAll {α β : Type} (same : α → β → Except GoPanic Bool) :
    List α → List β → Except GoPanic Bool
  | [], _ => pure true
  | _ :: _, [] => throw .indexOutOfRange
  | x :: xs, y :: ys => same x y <&&> rangeAll same xs ys

/-- `for k, v := range m { if w, ok := n[k]; !ok || v != w { return false } }` -/
def mapAll {K V : Type} [Ord K] [TransOrd K] [DecidableEq V] (m n : GoMap K V) : Bool :=
  m.toList.all fun e => n[e.1]? = some e.2

namespace Answers
variable {r s : Except GoPanic Bool} {P Q : Prop}

theorem ok_iff {b : Bool} (h : b = true ↔ P) : Answers (.ok b) P := ⟨b, rfl, h⟩

theorem of_decide (P : Prop) [Decidable P] : Answers (.ok (decide P)) P := ok_iff decide_eq_true_iff

theorem congr (h : Answers r P) (hPQ : P ↔ Q) : Answers r Q := by
  obtain ⟨b, hb, hP⟩ := h
  exact ⟨b, hb, hP.trans hPQ⟩

theorem and (hr : Answers r P) (hs : P → Answers s Q) : Answers (r <&&> s) (P ∧ Q) := by
  obtain ⟨b, rfl, hb⟩ := hr
  cases b with
  | false =>
    have hP : ¬ P := fun h => Bool.false_ne_true (hb.mpr h)
    exact ⟨false, rfl, by simp [hP]⟩
  | true =>
    obtain ⟨c, rfl, hc⟩ := hs (hb.mp rfl)
    exact ⟨c, rfl, by rw [hc, and_iff_right (hb.mp rfl)]⟩

theorem rangeAll {α β : Type} {same : α → β → Except GoPanic Bool} {R : α → β → Prop}
    (hsame : ∀ x y, Answers (same x y) (R x y)) {xs : List α} {ys : List β}
    (hlen : xs.length = ys.length) : Answers (rangeAll same xs ys) (List.Forall₂ R xs ys) := by
  induction xs generalizing ys with
  | nil =>
    obtain rfl := List.length_eq_zero_iff.mp hlen.symm
    exact ⟨true, rfl, by simp⟩
  | cons x xs ih =>
    cases ys with
    | nil => cases hlen
    | cons y ys =>
      have htail := ih (Nat.succ.inj hlen)
      exact ((hsame x y).and fun _ => htail).congr List.forall₂_cons.symm

theorem rangeAll_eq {α : Type} [DecidableEq α] {xs ys : List α} (hlen : xs.length = ys.length) :
    Answers (Lib.rangeAll (fun x y => .ok (decide (x = y))) xs ys) (xs = ys) :=
  (rangeAll (fun x y => of_decide (x = y)) hlen).congr (by rw [List.forall₂_eq_eq_eq])

end Answers

theorem list_forall₂_and {α β : Type} {R S : α → β → Prop} {xs : List α} {ys : List β} :
    List.Forall₂ (fun x y => R x y ∧ S x y) xs ys ↔
      List.Forall₂ R xs ys ∧ List.Forall₂ S xs ys := by
  constructor
  · intro h
    exact ⟨h.imp fun _ _ hxy => hxy.1, h.imp fun _ _ hxy => hxy.2⟩
  · rintro ⟨hR, hS⟩
    induction hR with
    | nil => exact .nil
    | cons hxy _ ih =>
      obtain ⟨hxy', hrest⟩ := List.forall₂_cons.mp hS
      exact .cons ⟨hxy, hxy'⟩ (ih hrest)

theorem mapAll_iff {K V : Type} [Ord K] [TransOrd K] [LawfulEqOrd K] [DecidableEq V]
    {m n : GoMap K V} (hsize : m.size = n.size) : mapAll m n = true ↔ m = n := by
  have hall : mapAll m n = true ↔ ∀ (k : K) v, m[k]? = some v → n[k]? = some v := by
    rw [mapAll, List.all_eq_true]
    constructor
    · intro h k v hk
      simpa using h (k, v) (GoMap.mem_toList.mpr hk)
    · intro h e he
      simpa using h e.1 e.2 (GoMap.mem_toList.mp he)
  rw [hall]
  constructor
  · intro h
    exact GoMap.eq_of_subset_of_size h hsize
  · rintro rfl k v hk
    exact hk

end EtherVal.Lib
