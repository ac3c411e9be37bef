import Mathlib.Data.List.Basic
import Mathlib.Data.List.Count

/-!
# Elements of a list that do not stand where they are collected

The elements that satisfy a test are collected in order, and those whose index is not the one
they are collected to are marked.
-/

namespace EtherVal.Lib
open List

variable {α β : Type} (P : α → Bool) (mark : α → α)

def displaced (first : Nat) : Nat → List α → List α
  | _, [] => []
  | missed, x :: l =>
    if P x then (if missed ≠ first then mark x else x) :: displaced first missed l
    else displaced first (missed + 1) l

theorem mapIdx_zipIdx_eq_displaced (first : Nat) (l : List α) :
    (l.zipIdx.filter fun p => P p.1).mapIdx
        (fun j p => if p.2 ≠ first + j then mark p.1 else p.1) =
      displaced P mark first 0 l := by
  suffices h : ∀ missed done, ((l.zipIdx (missed + done)).filter fun p => P p.1).mapIdx
      (fun j p => if p.2 ≠ first + (done + j) then mark p.1 else p.1) =
        displaced P mark first missed l by
    simpa using h 0 0
  induction l with
  | nil => simp [displaced]
  | cons x l ih =>
    intro missed done
    rw [zipIdx_cons, displaced]
    by_cases hx : P x = true
    · have hrest := ih missed (done + 1)
      rw [filter_cons_of_pos (by simpa using hx), mapIdx_cons, if_pos hx, ← hrest]
      refine congrArg₂ _ ?_ ?_
      · have hiff : missed + done ≠ first + (done + 0) ↔ missed ≠ first := by omega
        simp only [hiff]
      · have hstart : missed + done + 1 = missed + (done + 1) := by omega
        rw [hstart]
        refine congrArg (fun g => List.mapIdx g _) (funext fun j => funext fun p => ?_)
        have hidx : first + (done + (j + 1)) = first + (done + 1 + j) := by omega
        rw [hidx]
    · have hrest := ih (missed + 1) done
      rw [filter_cons_of_neg (by simpa using hx), if_neg hx, ← hrest]
      have hstart : missed + done + 1 = missed + 1 + done := by omega
      rw [hstart]

variable {P mark}

theorem displaced_append {first missed : Nat} {l l' : List α} :
    displaced P mark first missed (l ++ l') =
      displaced P mark first missed l ++
        displaced P mark first (missed + l.countP fun x => !P x) l' := by
  induction l generalizing missed with
  | nil => simp [displaced]
  | cons x l ih =>
    rw [cons_append, displaced, displaced]
    by_cases hx : P x = true
    · rw [if_pos hx, if_pos hx, ih, countP_cons_of_neg (by simp [hx]), cons_append]
    · rw [if_neg hx, if_neg hx, ih, countP_cons_of_pos (by simp [hx])]
      congr 2
      omega

theorem map_displaced {g : α → β} (hg : ∀ x, g (mark x) = g x) (first missed : Nat) (l : List α) :
    (displaced P mark first missed l).map g = (l.filter P).map g := by
  induction l generalizing missed with
  | nil => rfl
  | cons x l ih =>
    rw [displaced]
    by_cases hx : P x = true
    · rw [if_pos hx, filter_cons_of_pos hx, map_cons, map_cons, ih]
      congr 1
      split
      · exact hg x
      · rfl
    · rw [if_neg hx, filter_cons_of_neg hx, ih]

theorem length_displaced (first missed : Nat) (l : List α) :
    (displaced P mark first missed l).length = l.countP P := by
  have h := congrArg List.length
    (@map_displaced _ _ P mark (fun _ => ()) (fun _ => rfl) first missed l)
  rwa [length_map, length_map, ← countP_eq_length_filter] at h

theorem countP_displaced {Q : α → Bool} (hQ : ∀ x, Q (mark x) = Q x) (first missed : Nat)
    (l : List α) : (displaced P mark first missed l).countP Q = (l.filter P).countP Q := by
  have h := map_displaced (P := P) hQ first missed l
  have hcount := congrArg (List.countP fun b => b) h
  rwa [countP_map, countP_map] at hcount

theorem map_filter_displaced {Q : α → Bool} {g : α → β} (hQ : ∀ x, Q (mark x) = Q x)
    (hg : ∀ x, g (mark x) = g x) (first missed : Nat) (l : List α) :
    ((displaced P mark first missed l).filter Q).map g = (l.filter fun x => P x && Q x).map g := by
  have h := @map_displaced _ _ P mark (fun x => if Q x then some (g x) else none)
    (fun x => by simp only [hQ, hg]) first missed l
  have hsome := congrArg (List.filterMap id) h
  rw [filterMap_map, filterMap_map] at hsome
  have hfm : ∀ m : List α, (m.filter Q).map g =
      m.filterMap (id ∘ fun x => if Q x then some (g x) else none) := by
    intro m
    induction m with
    | nil => rfl
    | cons x m ih =>
      by_cases hx : Q x = true
      · simp [hx, ih]
      · simp [hx, ih]
  rw [hfm, hsome, ← hfm, filter_filter]
  simp only [Bool.and_comm]

theorem getElem?_displaced {first : Nat} {l l' : List α} {x : α} (hx : P x = true) :
    (displaced P mark first 0 (l ++ x :: l'))[l.countP P]? =
      some (if (l.countP fun y => !P y) ≠ first then mark x else x) := by
  rw [displaced_append, getElem?_append_right (Nat.le_of_eq (length_displaced _ _ _)),
    length_displaced,
    Nat.sub_self, displaced, if_pos hx, Nat.zero_add]
  rfl

end EtherVal.Lib
