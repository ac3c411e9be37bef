import Mathlib.Tactic
import Mathlib.Data.List.Nodup
import Mathlib.Logic.Function.Basic

/-!
# Layers

Partial maps to values with slots, laid over each other: the upper value replaces the lower one,
and the lower one keeps the slots that the upper one does not fill.
-/

namespace EtherVal.Lib
open List

@[ext] structure Filled (β κ ν : Type) where
  head : β
  slots : κ → Option ν

def Filled.onto {β κ ν : Type} (r old : Filled β κ ν) : Filled β κ ν :=
  ⟨r.head, fun k => (r.slots k).or (old.slots k)⟩

instance {β κ ν : Type} : Std.Associative (Filled.onto (β := β) (κ := κ) (ν := ν)) where
  assoc r₁ r₂ r₃ := by
    refine Filled.ext rfl ?_
    funext k
    exact Option.or_assoc

section
variable {κ ν : Type} [DecidableEq κ]

def fill (l : List (κ × ν)) : κ → Option ν :=
  l.foldl (fun m p => Function.update m p.1 (some p.2)) fun _ => none

theorem foldl_update_some (l : List (κ × ν)) (m : κ → Option ν) :
    l.foldl (fun (m : κ → Option ν) p => Function.update m p.1 (some p.2)) m =
      fun k => (fill l k).or (m k) := by
  induction l using List.reverseRecOn with
  | nil => rfl
  | append_singleton l p ih =>
    have hlast : fill (l ++ [p]) = Function.update (fill l) p.1 (some p.2) := foldl_concat _ _ _ _
    rw [foldl_concat, ih, hlast]
    funext k
    by_cases hk : k = p.1
    · subst hk
      simp
    · simp [Function.update_of_ne hk]

theorem fill_cons (p : κ × ν) (l : List (κ × ν)) (k : κ) :
    fill (p :: l) k = (fill l k).or (if k = p.1 then some p.2 else none) := by
  rw [fill, foldl_cons, foldl_update_some]
  dsimp only
  rw [Function.update_apply]

theorem foldl_update (l : List (κ × ν)) (m : κ → ν) :
    l.foldl (fun m p => Function.update m p.1 p.2) m = fun k => (fill l k).getD (m k) := by
  induction l generalizing m with
  | nil => rfl
  | cons p l ih =>
    rw [foldl_cons, ih]
    funext k
    rw [fill_cons, Function.update_apply]
    cases fill l k with
    | some v => rfl
    | none => split <;> rfl

theorem fill_eq_none_iff {l : List (κ × ν)} {k : κ} : fill l k = none ↔ k ∉ l.map Prod.fst := by
  induction l with
  | nil => simp [fill]
  | cons p l ih =>
    rw [fill_cons, Option.or_eq_none_iff, ih]
    simp [and_comm]

theorem fill_of_mem {l : List (κ × ν)} {p : κ × ν} (hnd : (l.map Prod.fst).Nodup) (hp : p ∈ l) :
    fill l p.1 = some p.2 := by
  induction l with
  | nil => cases hp
  | cons q l ih =>
    rw [map_cons, nodup_cons] at hnd
    rw [fill_cons]
    rcases mem_cons.mp hp with rfl | hp
    · rw [fill_eq_none_iff.mpr hnd.1, if_pos rfl, Option.none_or]
    · rw [ih hnd.2 hp, Option.some_or]

theorem mem_of_fill {l : List (κ × ν)} {k : κ} {v : ν} (h : fill l k = some v) : (k, v) ∈ l := by
  induction l with
  | nil => cases h
  | cons q l ih =>
    rw [fill_cons, Option.or_eq_some_iff] at h
    rcases h with h | ⟨-, h⟩
    · exact mem_cons_of_mem _ (ih h)
    · split at h
      · next hk =>
        cases h
        subst hk
        exact mem_cons_self
      · cases h

end

abbrev Layer (α β κ ν : Type) := α → Option (Filled β κ ν)

namespace Layer
variable {α β κ ν : Type}

def onto (m n : Layer α β κ ν) : Layer α β κ ν := fun a => (m a).merge Filled.onto (n a)

theorem onto_assoc (l m n : Layer α β κ ν) : onto (onto l m) n = onto l (onto m n) := by
  funext a
  exact (Option.associative_merge Filled.onto).assoc (l a) (m a) (n a)

theorem onto_eq_none_iff {m n : Layer α β κ ν} {a : α} :
    onto m n a = none ↔ m a = none ∧ n a = none := by
  unfold onto
  cases m a <;> cases n a <;> simp [Option.merge]

theorem onto_of_none {m n : Layer α β κ ν} {a : α} (h : m a = none) : onto m n a = n a := by
  unfold onto
  rw [h]
  cases n a <;> rfl

theorem onto_empty (m : Layer α β κ ν) : onto m (fun _ => none) = m := by
  funext a
  unfold onto
  cases m a <;> rfl

def Agrees (m n : Layer α β κ ν) : Prop :=
  ∀ a r r', m a = some r → n a = some r' →
    r.head = r'.head ∧ ∀ k v v', r.slots k = some v → r'.slots k = some v' → v = v'

theorem Agrees.onto_comm {m n : Layer α β κ ν} (h : Agrees m n) : onto m n = onto n m := by
  funext a
  unfold onto
  cases hm : m a with
  | none => cases n a <;> rfl
  | some r =>
    cases hn : n a with
    | none => rfl
    | some r' =>
      obtain ⟨hhead, hslots⟩ := h a r r' hm hn
      refine congrArg some (Filled.ext hhead ?_)
      funext k
      change (r.slots k).or (r'.slots k) = (r'.slots k).or (r.slots k)
      cases hk : r.slots k with
      | none => simp
      | some v =>
        cases hk' : r'.slots k with
        | none => rfl
        | some v' => rw [hslots k v v' hk hk']

section
variable [DecidableEq α]

def single (a : α) (r : Filled β κ ν) : Layer α β κ ν := fun b => if a = b then some r else none

def stack (l : List (α × Filled β κ ν)) : Layer α β κ ν :=
  l.foldl (fun m e => onto (single e.1 e.2) m) fun _ => none

theorem foldl_onto (l : List (α × Filled β κ ν)) (m : Layer α β κ ν) :
    l.foldl (fun m e => onto (single e.1 e.2) m) m = onto (stack l) m := by
  induction l using List.reverseRecOn with
  | nil =>
    funext a
    exact (onto_of_none rfl).symm
  | append_singleton l e ih =>
    rw [foldl_concat, ih, ← onto_assoc]
    unfold stack
    rw [foldl_concat]

theorem stack_cons (e : α × Filled β κ ν) (l : List (α × Filled β κ ν)) :
    stack (e :: l) = onto (stack l) (single e.1 e.2) := by
  rw [stack, foldl_cons, foldl_onto, onto_empty]

theorem stack_eq_none_iff {l : List (α × Filled β κ ν)} {a : α} :
    stack l a = none ↔ a ∉ l.map Prod.fst := by
  induction l with
  | nil => simp [stack]
  | cons e l ih =>
    rw [stack_cons, onto_eq_none_iff, ih, single]
    simp [and_comm, eq_comm]

theorem stack_of_mem {l : List (α × Filled β κ ν)} {e : α × Filled β κ ν}
    (hnd : (l.map Prod.fst).Nodup) (he : e ∈ l) : stack l e.1 = some e.2 := by
  induction l with
  | nil => cases he
  | cons f l ih =>
    rw [map_cons, nodup_cons] at hnd
    rw [stack_cons]
    rcases mem_cons.mp he with rfl | he
    · rw [onto_of_none (stack_eq_none_iff.mpr hnd.1), single, if_pos rfl]
    · have hne : f.1 ≠ e.1 := by
        intro heq
        exact hnd.1 (heq ▸ mem_map_of_mem he)
      rw [onto, ih hnd.2 he, single, if_neg hne]
      rfl

end
end Layer
end EtherVal.Lib
