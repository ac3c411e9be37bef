import Mathlib.Tactic
import Mathlib.Data.Sum.Basic

/-!
# Interleaved lists

A list of elements `inl` of its own and of groups `inr` that stand for whole lists.  Where the
groups of two such lists stand after equally many elements, the lists have the same shape, and
an element can be found by its position among all elements.
-/

namespace EtherVal.Lib
open List

variable {α α' β β' : Type}
variable {l : List (α ⊕ β)} {l' : List α} {γ : Type} {n : Nat}

def lefts (l : List (α ⊕ β)) : List α := l.filterMap Sum.getLeft?

def rights (l : List (α ⊕ β)) : List β := l.filterMap Sum.getRight?

def marks : Nat → List (α ⊕ β) → List Nat
  | _, [] => []
  | n, .inl _ :: l => marks (n + 1) l
  | n, .inr _ :: l => n :: marks n l

def spread (f : β → List α) (l : List (α ⊕ β)) : List α := l.flatMap (Sum.elim ([·]) f)

section Simp
variable (a : α) (b : β) (l : List (α ⊕ β))

@[simp] theorem lefts_nil : lefts ([] : List (α ⊕ β)) = [] := rfl
@[simp] theorem lefts_inl : lefts (.inl a :: l) = a :: lefts l := rfl
@[simp] theorem lefts_inr : lefts (.inr b :: l) = lefts l := rfl
@[simp] theorem rights_nil : rights ([] : List (α ⊕ β)) = [] := rfl
@[simp] theorem rights_inl : rights (.inl a :: l) = rights l := rfl
@[simp] theorem rights_inr : rights (.inr b :: l) = b :: rights l := rfl
@[simp] theorem spread_nil (f : β → List α) : spread f [] = [] := rfl
@[simp] theorem spread_inl (f : β → List α) : spread f (.inl a :: l) = a :: spread f l := rfl
@[simp] theorem spread_inr (f : β → List α) : spread f (.inr b :: l) = f b ++ spread f l := rfl

end Simp

theorem lefts_append (l l' : List (α ⊕ β)) : lefts (l ++ l') = lefts l ++ lefts l' :=
  filterMap_append

theorem lefts_filterMap (f : γ → Option (α ⊕ β)) (l : List γ) :
    lefts (l.filterMap f) = l.filterMap fun x => (f x).bind Sum.getLeft? :=
  filterMap_filterMap

theorem rights_filterMap (f : γ → Option (α ⊕ β)) (l : List γ) :
    rights (l.filterMap f) = l.filterMap fun x => (f x).bind Sum.getRight? :=
  filterMap_filterMap

theorem marks_length (n : Nat) (l : List (α ⊕ β)) : (marks n l).length = (rights l).length := by
  induction l generalizing n with
  | nil => rfl
  | cons x l ih => cases x <;> simp [marks, ih]

theorem le_of_mem_marks {k : Nat} (h : k ∈ marks n l) : n ≤ k := by
  induction l generalizing n with
  | nil => cases h
  | cons x l ih =>
    cases x with
    | inl a =>
      have := ih h
      omega
    | inr b =>
      rcases mem_cons.mp h with rfl | h
      · exact Nat.le_refl _
      · exact ih h

theorem length_spread (f : β → List α) (l : List (α ⊕ β)) :
    (spread f l).length = (lefts l).length + ((rights l).map fun b => (f b).length).sum := by
  induction l with
  | nil => rfl
  | cons x l ih =>
    cases x with
    | inl a =>
      simp only [spread_inl, length_cons, lefts_inl, rights_inl, ih]
      omega
    | inr b =>
      simp only [spread_inr, length_append, lefts_inr, rights_inr, map_cons,
        sum_cons, ih]
      omega

def Agree (l l' : List α) : Prop :=
  ∀ (k : Nat) (x y : α), l[k]? = some x → l'[k]? = some y → x = y

theorem Agree.refl (l : List α) : Agree l l := by
  intro k x y hx hy
  exact Option.some.inj (hx.symm.trans hy)

theorem Agree.nil (l : List α) : Agree l [] := by
  intro k x y hx hy
  simp at hy

theorem Agree.symm {l : List α} (h : Agree l l') : Agree l' l :=
  fun k x y hx hy => (h k y x hy hx).symm

theorem Agree.tail {x y : α} {l l' : List α} (h : Agree (x :: l) (y :: l')) :
    x = y ∧ Agree l l' :=
  ⟨h 0 x y rfl rfl, fun k a b ha hb => h (k + 1) a b ha hb⟩

theorem Agree.snoc {l l' : List α} {x : α} (h : Agree l l')
    (hx : ∀ y, l[l'.length]? = some y → y = x) : Agree l (l' ++ [x]) := by
  intro k a b ha hb
  rcases Nat.lt_trichotomy k l'.length with hlt | rfl | hgt
  · rw [getElem?_append_left hlt] at hb
    exact h k a b ha hb
  · rw [getElem?_concat_length] at hb
    rw [hx a ha, Option.some.inj hb]
  · have hlen := (List.getElem?_eq_some_iff.mp hb).1
    rw [length_append, length_singleton] at hlen
    omega

theorem Agree.eq_of_length {l : List α} (h : Agree l l') (hlen : l.length = l'.length) :
    l = l' := by
  induction l generalizing l' with
  | nil => exact (length_eq_zero_iff.mp hlen.symm).symm
  | cons x l ih =>
    cases l' with
    | nil => cases hlen
    | cons y l' =>
      obtain ⟨rfl, htail⟩ := h.tail
      rw [ih htail (Nat.succ.inj hlen)]

theorem Agree.sum_lt {f : α → Nat} (hf : ∀ x, 0 < f x) {l : List α} (h : Agree l l')
    (hlen : l'.length < l.length) : (l'.map f).sum < (l.map f).sum := by
  induction l generalizing l' with
  | nil => cases hlen
  | cons x l ih =>
    have hx := hf x
    cases l' with
    | nil =>
      simp only [map_nil, sum_nil, map_cons, sum_cons]
      omega
    | cons y l' =>
      obtain ⟨rfl, htail⟩ := h.tail
      have := ih htail (Nat.lt_of_succ_lt_succ hlen)
      simp only [map_cons, sum_cons]
      omega

theorem Agree.eq_of_sum {f : α → Nat} (hf : ∀ x, 0 < f x) {l : List α} (h : Agree l l')
    (hsum : (l.map f).sum = (l'.map f).sum) : l = l' := by
  apply h.eq_of_length
  have hge : ¬ l'.length < l.length := fun hlt => by
    have := h.sum_lt hf hlt
    omega
  have hle : ¬ l.length < l'.length := fun hlt => by
    have := h.symm.sum_lt hf hlt
    omega
  omega

theorem getElem_filterMap {f : α → Option β} {l : List α} {k : Nat} {y : β}
    (h : (l.filterMap f)[k]? = some y) :
    ∃ d x r, l = d ++ x :: r ∧ f x = some y ∧ (d.filterMap f).length = k := by
  induction l generalizing k with
  | nil => cases h
  | cons x l ih =>
    cases hx : f x with
    | none =>
      rw [filterMap_cons_none hx] at h
      obtain ⟨d, x', r, rfl, hx', hlen⟩ := ih h
      exact ⟨x :: d, x', r, rfl, hx', by rw [filterMap_cons_none hx, hlen]⟩
    | some z =>
      rw [filterMap_cons_some hx] at h
      cases k with
      | zero => exact ⟨[], x, l, rfl, hx.trans h, rfl⟩
      | succ k =>
        obtain ⟨d, x', r, rfl, hx', hlen⟩ := ih h
        refine ⟨x :: d, x', r, rfl, hx', ?_⟩
        rw [filterMap_cons_some hx, length_cons, hlen]

def SameShape (l : List (α ⊕ β)) (l' : List (α' ⊕ β')) : Prop :=
  l.map Sum.isLeft = l'.map Sum.isLeft

theorem sameShape_of_marks {l' : List (α' ⊕ β')} (hm : marks n l = marks n l')
    (hl : (lefts l).length = (lefts l').length) :
    SameShape l l' := by
  induction l generalizing n l' with
  | nil =>
    cases l' with
    | nil => rfl
    | cons y l' => cases y <;> simp [marks] at hm hl
  | cons x l ih =>
    cases l' with
    | nil => cases x <;> simp [marks] at hm hl
    | cons y l' =>
      cases x with
      | inl a =>
        cases y with
        | inl a' => exact congrArg _ (ih hm (by simpa using hl))
        | inr b' =>
          -- the groups after an element are marked with more than `n`
          have hmem : n ∈ marks (n + 1) l := by
            rw [show marks (n + 1) l = n :: marks n l' from hm]
            exact mem_cons_self
          have := le_of_mem_marks hmem
          omega
      | inr b =>
        cases y with
        | inl a' =>
          have hmem : n ∈ marks (n + 1) l' := by
            rw [show marks (n + 1) l' = n :: marks n l from hm.symm]
            exact mem_cons_self
          have := le_of_mem_marks hmem
          omega
        | inr b' => exact congrArg _ (ih (List.cons.inj hm).2 hl)

theorem sameShape_filterMap {f : γ → Option (α ⊕ β)} {g : γ → Option (α' ⊕ β')}
    (h : ∀ x, (f x).map Sum.isLeft = (g x).map Sum.isLeft) (l : List γ) :
    SameShape (l.filterMap f) (l.filterMap g) := by
  unfold SameShape
  rw [map_filterMap, map_filterMap]
  exact filterMap_congr fun x _ => h x

theorem SameShape.marks_eq {l' : List (α' ⊕ β')} (h : SameShape l l') : marks n l = marks n l' := by
  induction l generalizing n l' with
  | nil =>
    cases l' with
    | nil => rfl
    | cons y l' => cases h
  | cons x l ih =>
    cases l' with
    | nil => cases h
    | cons y l' =>
      obtain ⟨hxy, htail⟩ := List.cons.inj h
      cases x with
      | inl a =>
        cases y with
        | inr b' => cases hxy
        | inl a' => exact ih htail
      | inr b =>
        cases y with
        | inl a' => cases hxy
        | inr b' => exact congrArg _ (ih htail)

theorem eq_of_sameShape {l' : List (α ⊕ β)} (hs : SameShape l l') (hl : lefts l = lefts l')
    (hr : rights l = rights l') : l = l' := by
  induction l generalizing l' with
  | nil =>
    cases l' with
    | nil => rfl
    | cons y l' => cases hs
  | cons x l ih =>
    cases l' with
    | nil => cases hs
    | cons y l' =>
      obtain ⟨hxy, htail⟩ := List.cons.inj hs
      cases x with
      | inl a =>
        cases y with
        | inr b' => cases hxy
        | inl a' =>
          obtain ⟨rfl, hl'⟩ := List.cons.inj hl
          rw [ih htail hl' hr]
      | inr b =>
        cases y with
        | inl a' => cases hxy
        | inr b' =>
          obtain ⟨rfl, hr'⟩ := List.cons.inj hr
          rw [ih htail hl hr']

theorem lefts_eq_of_positions (f : β → List α) {l' : List (α ⊕ β)} (hs : SameShape l l')
    (hr : (rights l).map f = (rights l').map f)
    (hpos : ∀ d a r, l = d ++ .inl a :: r → (spread f l')[(spread f d).length]? = some a) :
    lefts l = lefts l' := by
  induction l generalizing l' with
  | nil =>
    cases l' with
    | nil => rfl
    | cons y l' => cases hs
  | cons x l ih =>
    cases l' with
    | nil => cases hs
    | cons y l' =>
      obtain ⟨hxy, htail⟩ := List.cons.inj hs
      cases x with
      | inl a =>
        cases y with
        | inr b' => cases hxy
        | inl a' =>
          have hhead : a' = a := by simpa using hpos [] a l rfl
          have hrest : lefts l = lefts l' := ih htail hr fun d a1 r hd => by
            simpa using hpos (.inl a :: d) a1 r (by rw [hd]; rfl)
          rw [lefts_inl, lefts_inl, hhead, hrest]
      | inr b =>
        cases y with
        | inl a' => cases hxy
        | inr b' =>
          obtain ⟨hb, hr⟩ := List.cons.inj hr
          refine @ih l' htail hr fun d a1 r hd => ?_
          have h := hpos (.inr b :: d) a1 r (by rw [hd]; rfl)
          rw [spread_inr, spread_inr, hb, length_append,
            getElem?_append_right (by omega)] at h
          simpa using h

end EtherVal.Lib
