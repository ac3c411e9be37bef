import Mathlib.Tactic
import Mathlib.Logic.Function.Basic

/-!
# Objects in a Go heap

An address below `next` is in use.  A cell has one field for each type of object, so that a
program reads at an address what its types say is there; writing one field leaves the others.
-/

namespace EtherVal.Lib
open List

variable {p i : Nat}

structure Heap (C : Type) where
  cell : Nat → C
  next : Nat

structure Field (C α : Type) where
  get : C → α
  set : α → C → C

namespace Heap
variable {C α : Type}

def update (h : Heap C) (p : Nat) (f : C → C) : Heap C :=
  { h with cell := Function.update h.cell p (f (h.cell p)) }

def alloc (h : Heap C) (c : C) : Heap C where
  cell := Function.update h.cell h.next c
  next := h.next + 1

@[simp] theorem alloc_next (h : Heap C) (c : C) : (h.alloc c).next = h.next + 1 := rfl

theorem update_cell (h : Heap C) (p : Nat) (f : C → C) : (h.update p f).cell p = f (h.cell p) :=
  Function.update_self ..

theorem update_cell_of_ne (h : Heap C) (f : C → C) {q : Nat} (hne : q ≠ p) :
    (h.update p f).cell q = h.cell q :=
  Function.update_of_ne hne ..

theorem alloc_cell (h : Heap C) (c : C) : (h.alloc c).cell h.next = c := Function.update_self ..

theorem alloc_cell_of_ne (h : Heap C) (c : C) (hp : p ≠ h.next) :
    (h.alloc c).cell p = h.cell p :=
  Function.update_of_ne hp ..

structure Changes (S : Set Nat) (h h' : Heap C) : Prop where
  next : h.next ≤ h'.next
  cell : ∀ p, p < h.next → p ∉ S → h'.cell p = h.cell p

namespace Changes
variable {S T : Set Nat} {h h1 h2 : Heap C}

theorem refl (S : Set Nat) (h : Heap C) : Changes S h h := ⟨le_rfl, fun _ _ _ => rfl⟩

theorem mono (hST : S ⊆ T) (hc : Changes S h h1) : Changes T h h1 :=
  ⟨hc.next, fun p hp hT => hc.cell p hp fun hS => hT (hST hS)⟩

theorem trans (h01 : Changes S h h1) (h12 : Changes T h1 h2)
    (hT : ∀ p ∈ T, p < h.next → p ∈ S) : Changes S h h2 where
  next := h01.next.trans h12.next
  cell p hp hS := by
    rw [h12.cell p (hp.trans_le h01.next) (fun hpT => hS (hT p hpT hp)), h01.cell p hp hS]

theorem alloc (h : Heap C) (c : C) : Changes ∅ h (h.alloc c) where
  next := Nat.le_succ _
  cell _ hp _ := alloc_cell_of_ne h c hp.ne

theorem update (h : Heap C) (p : Nat) (f : C → C) : Changes {p} h (h.update p f) where
  next := le_rfl
  cell _ _ hq := update_cell_of_ne h f hq

end Changes
end Heap

/-- A slice of the array at address `array`; its capacity is counted from `offset` on. -/
structure GoSlice where
  array : Nat
  offset : Nat
  len : Nat
  cap : Nat
  len_le : len ≤ cap
  deriving DecidableEq

namespace GoSlice
variable {C α : Type}

def nil : GoSlice := ⟨0, 0, 0, 0, le_rfl⟩

def read (arrays : Nat → List α) (s : GoSlice) : List α :=
  ((arrays s.array).drop s.offset).take s.len

def footprint (s : GoSlice) : Set Nat := {a | a = s.array ∧ 0 < s.cap}

theorem read_congr {arrays arrays' : Nat → List α} {s : GoSlice}
    (h : ∀ a ∈ s.footprint, arrays' a = arrays a) : s.read arrays' = s.read arrays := by
  by_cases hcap : 0 < s.cap
  · rw [read, h s.array ⟨rfl, hcap⟩, read]
  · have hlen : s.len = 0 := by
      have := s.len_le
      omega
    rw [read, read, hlen, take_zero, take_zero]

def overwrite (array : List α) (i : Nat) (xs : List α) : List α :=
  array.take i ++ xs ++ array.drop (i + xs.length)

theorem getElem?_overwrite {array xs : List α} (h : i + xs.length ≤ array.length) (j : Nat) :
    (overwrite array i xs)[j]? = if i ≤ j ∧ j < i + xs.length then xs[j - i]? else array[j]? := by
  have htake : (array.take i).length = i := length_take_of_le (by omega)
  rw [overwrite, append_assoc]
  by_cases hlow : j < i
  · rw [getElem?_append_left (by omega), getElem?_take_of_lt hlow, if_neg (by omega)]
  · rw [getElem?_append_right (by omega), htake]
    by_cases hmid : j < i + xs.length
    · rw [getElem?_append_left (by omega), if_pos (by omega)]
    · rw [getElem?_append_right (by omega), getElem?_drop, if_neg (by omega)]
      congr 1
      omega

theorem read_overwrite {array : List α} {n : Nat} (xs : List α) (h : i + n ≤ array.length) :
    ((overwrite array (i + n) xs).drop i).take (n + xs.length) = (array.drop i).take n ++ xs := by
  have htake : (array.take (i + n)).length = i + n := length_take_of_le h
  have hown : ((array.drop i).take n).length = n := by
    rw [length_take, length_drop]
    omega
  rw [overwrite, append_assoc, drop_append_of_le_length (by omega), drop_take,
    Nat.add_sub_cancel_left, ← append_assoc,
    take_append_of_le_length (by rw [length_append]; omega),
    take_of_length_le (by rw [length_append]; omega)]

theorem mem_overwrite {array xs : List α} {x : α} (n : Nat)
    (hx : x ∈ ((overwrite array (i + n) xs).drop i).take (n + xs.length)) :
    x ∈ (array.drop i).take n ∨ x ∈ xs := by
  by_cases hlen : i + n ≤ array.length
  · rw [read_overwrite xs hlen] at hx
    exact mem_append.mp hx
  · have hrest : array.drop (i + n + xs.length) = [] := drop_eq_nil_of_le (by omega)
    have htake : array.take (i + n) = array := take_of_length_le (by omega)
    rw [overwrite, hrest, append_nil, htake] at hx
    have hx := mem_of_mem_take hx
    rw [drop_append, mem_append] at hx
    rcases hx with hx | hx
    · rw [take_of_length_le (by rw [length_drop]; omega)]
      exact .inl hx
    · exact .inr (mem_of_mem_drop hx)

variable [Inhabited C] (f : Field C (List α))

/-- `append(s, xs...)`: in the array of `s` if it has room behind `s`, else in a new array, whose
capacity the language leaves open. -/
def append [Inhabited α] (grow : Nat → Nat) (h : Heap C) (s : GoSlice) (xs : List α) :
    GoSlice × Heap C :=
  if hcap : s.len + xs.length ≤ s.cap then
    (⟨s.array, s.offset, s.len + xs.length, s.cap, hcap⟩,
      h.update s.array fun c => f.set (overwrite (f.get c) (s.offset + s.len) xs) c)
  else
    let array := s.read (fun p => f.get (h.cell p)) ++ xs
    (⟨h.next, 0, array.length, max array.length (grow array.length), le_max_left ..⟩,
      h.alloc (f.set (array ++ List.replicate (grow array.length - array.length) default) default))

/-- A new array with a copy `g x` of each element `x`. -/
def copyWith (g : α → α) (h : Heap C) (s : GoSlice) : GoSlice × Heap C :=
  let array := (s.read fun p => f.get (h.cell p)).map g
  (⟨h.next, 0, array.length, array.length, le_rfl⟩, h.alloc (f.set array default))

abbrev copy (h : Heap C) (s : GoSlice) : GoSlice × Heap C := copyWith f id h s

section append
variable [Inhabited α] (grow : Nat → Nat) (h : Heap C) {s : GoSlice} {xs : List α}

theorem append_changes (hpos : 0 < xs.length) :
    Heap.Changes s.footprint h (append f grow h s xs).2 := by
  unfold append
  split
  · next hcap =>
    refine (Heap.Changes.update h s.array _).mono ?_
    rintro a rfl
    exact ⟨rfl, by omega⟩
  · exact (Heap.Changes.alloc h _).mono (Set.empty_subset _)

theorem append_footprint :
    ∀ a ∈ (append f grow h s xs).1.footprint, a ∈ s.footprint ∨
      (h.next ≤ a ∧ a < (append f grow h s xs).2.next) := by
  unfold append
  split
  · rintro a ⟨rfl, hpos⟩
    exact .inl ⟨rfl, hpos⟩
  · rintro a ⟨rfl, -⟩
    exact .inr ⟨le_rfl, Nat.lt_succ_self _⟩

theorem mem_read_append (hf : ∀ l c, f.get (f.set l c) = l) {x : α}
    (hx : x ∈ (append f grow h s xs).1.read fun p => f.get ((append f grow h s xs).2.cell p)) :
    x ∈ s.read (fun p => f.get (h.cell p)) ∨ x ∈ xs := by
  unfold append at hx
  split at hx
  · rw [read, Heap.update_cell, hf] at hx
    exact mem_overwrite s.len hx
  · rw [read, Heap.alloc_cell, hf, drop_zero, take_left] at hx
    exact mem_append.mp hx

theorem append_other {β : Type} {get : C → β} (hget : ∀ l c, get (f.set l c) = get c)
    (hp : p < h.next) : get ((append f grow h s xs).2.cell p) = get (h.cell p) := by
  unfold append
  split
  · by_cases hpa : p = s.array
    · rw [hpa, Heap.update_cell, hget]
    · rw [Heap.update_cell_of_ne h _ hpa]
  · rw [Heap.alloc_cell_of_ne h _ hp.ne]

end append

section copy
variable (g : α → α) (h : Heap C) (s : GoSlice)

theorem copyWith_changes : Heap.Changes ∅ h (copyWith f g h s).2 := Heap.Changes.alloc h _

theorem copyWith_footprint :
    ∀ a ∈ (copyWith f g h s).1.footprint, h.next ≤ a ∧ a < (copyWith f g h s).2.next := by
  rintro a ⟨rfl, -⟩
  exact ⟨le_rfl, Nat.lt_succ_self _⟩

theorem read_copyWith (hf : ∀ l c, f.get (f.set l c) = l) :
    (copyWith f g h s).1.read (fun p => f.get ((copyWith f g h s).2.cell p)) =
      (s.read fun p => f.get (h.cell p)).map g := by
  have hcell : f.get ((copyWith f g h s).2.cell h.next) =
      (s.read fun p => f.get (h.cell p)).map g := by
    rw [copyWith, Heap.alloc_cell, hf]
  change ((f.get ((copyWith f g h s).2.cell h.next)).drop 0).take _ = _
  rw [hcell, drop_zero]
  exact take_length

end copy

end GoSlice
end EtherVal.Lib
