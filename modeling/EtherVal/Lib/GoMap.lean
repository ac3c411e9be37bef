import Mathlib.Tactic
import Mathlib.Data.List.Nodup

/-!
# Go maps

A Go map is a finite map.  Its iteration order is unspecified in Go; here a map is
walked in key order, and the loop rules below say when the order does not matter.
-/

namespace EtherVal.Lib
open Std List

abbrev GoMap (K V : Type) [Ord K] := ExtTreeMap K V compare

instance transOrd64 : TransOrd (BitVec 64) := inferInstance
instance transOrd160 : TransOrd (BitVec 160) := inferInstance
instance transOrd256 : TransOrd (BitVec 256) := inferInstance

namespace GoMap

variable {K V : Type} [Ord K] [TransOrd K] [LawfulEqOrd K]

theorem get_insert [DecidableEq K] (m : GoMap K V) (k a : K) (v : V) :
    (m.insert k v)[a]? = if k = a then some v else m[a]? := by
  rw [ExtTreeMap.getElem?_insert]
  simp

theorem get_erase [DecidableEq K] (m : GoMap K V) (k a : K) :
    (m.erase k)[a]? = if k = a then none else m[a]? := by
  rw [ExtTreeMap.getElem?_erase]
  simp

omit [LawfulEqOrd K] in
theorem mem_iff {m : GoMap K V} {a : K} : a ∈ m ↔ ∃ v, m[a]? = some v := by
  rw [← ExtTreeMap.isSome_getElem?_iff_mem, Option.isSome_iff_exists]

theorem mem_insert {m : GoMap K V} {k a : K} {v : V} : a ∈ m.insert k v ↔ a = k ∨ a ∈ m := by
  rw [ExtTreeMap.mem_insert, Std.compare_eq_iff_eq, eq_comm]

theorem mem_erase {m : GoMap K V} {k a : K} : a ∈ m.erase k ↔ a ≠ k ∧ a ∈ m := by
  rw [ExtTreeMap.mem_erase, ne_eq, Std.compare_eq_iff_eq, eq_comm]

theorem ext {m n : GoMap K V} (h : ∀ a : K, m[a]? = n[a]?) : m = n :=
  ExtTreeMap.ext_getElem? h

theorem mem_toList {m : GoMap K V} {k : K} {v : V} :
    (k, v) ∈ m.toList ↔ m[k]? = some v :=
  ExtTreeMap.mem_toList_iff_getElem?_eq_some

theorem toList_keys_nodup (m : GoMap K V) : (m.toList.map Prod.fst).Nodup := by
  have h := ExtTreeMap.distinct_keys_toList (t := m)
  rw [List.Nodup, pairwise_map]
  refine h.imp ?_
  intro a b hab he
  exact hab (by rw [he]; exact compare_self)

theorem get_foldl_insert [DecidableEq K] {α : Type} {l : List α} {key : α → K} {val : α → V}
    {m : GoMap K V} (hnd : (l.map key).Nodup) (a : K) (v : V) :
    (l.foldl (fun m e => m.insert (key e) (val e)) m)[a]? = some v ↔
      (∃ e ∈ l, key e = a ∧ val e = v) ∨ (a ∉ l.map key ∧ m[a]? = some v) := by
  induction l generalizing m with
  | nil => simp
  | cons e l ih =>
    rw [map_cons, nodup_cons] at hnd
    rw [foldl_cons, ih hnd.2, get_insert]
    by_cases he : key e = a
    · subst he
      simp only [hnd.1, not_false_eq_true, if_true, Option.some.injEq, true_and, mem_cons,
        map_cons, not_true_eq_false, false_and, or_false, exists_eq_or_imp]
      exact or_comm
    · simp [he, Ne.symm he]

theorem size_le_of_subset {m n : GoMap K V} (h : ∀ k ∈ m, k ∈ n) : m.size ≤ n.size := by
  have hnd : m.keys.Nodup := ExtTreeMap.nodup_keys
  have hsub : m.keys ⊆ n.keys := by
    intro k hk
    exact ExtTreeMap.mem_keys.mpr (h k (ExtTreeMap.mem_keys.mp hk))
  rw [← ExtTreeMap.length_keys, ← ExtTreeMap.length_keys]
  exact (subperm_of_subset hnd hsub).length_le

theorem mem_of_subset_of_size {m n : GoMap K V} (h : ∀ k ∈ m, k ∈ n) (hsize : m.size = n.size)
    (k : K) (hk : k ∈ n) : k ∈ m := by
  have hnd : m.keys.Nodup := ExtTreeMap.nodup_keys
  have hsub : m.keys ⊆ n.keys := by
    intro k hk
    exact ExtTreeMap.mem_keys.mpr (h k (ExtTreeMap.mem_keys.mp hk))
  have hlen : n.keys.length ≤ m.keys.length := by
    rw [ExtTreeMap.length_keys, ExtTreeMap.length_keys, hsize]
  have hperm := (subperm_of_subset hnd hsub).perm_of_length_le hlen
  exact ExtTreeMap.mem_keys.mp (hperm.mem_iff.mpr (ExtTreeMap.mem_keys.mpr hk))

theorem eq_of_subset_of_size {m n : GoMap K V}
    (h : ∀ (k : K) (v : V), m[k]? = some v → n[k]? = some v) (hsize : m.size = n.size) : m = n := by
  have hsub : ∀ k ∈ m, k ∈ n := by
    intro k hk
    obtain ⟨v, hv⟩ := mem_iff.mp hk
    exact mem_iff.mpr ⟨v, h k v hv⟩
  refine ext fun k => ?_
  cases hv : m[k]? with
  | some v => rw [h k v hv]
  | none =>
    have hk : k ∉ m := by
      rw [mem_iff, hv]
      simp
    have hn : k ∉ n := fun hn => hk (mem_of_subset_of_size hsub hsize k hn)
    exact (ExtTreeMap.getElem?_eq_none hn).symm

end GoMap

theorem count_map_eq_one_iff {α β : Type} [BEq β] [LawfulBEq β] {l : List α} {g : α → β}
    (hnd : l.Nodup) {e : α} (he : e ∈ l) :
    (l.map g).count (g e) = 1 ↔ ∀ e' ∈ l, g e' = g e → e' = e := by
  have hcount : (l.map g).count (g e) = (l.filter (fun x => g x == g e)).length := by
    rw [List.count, countP_map, countP_eq_length_filter]
    rfl
  have hmem : e ∈ l.filter (fun x => g x == g e) := by simp [he]
  rw [hcount]
  constructor
  · intro h1 e' he' hg
    obtain ⟨x, hx⟩ := length_eq_one_iff.mp h1
    have h' : e' ∈ l.filter (fun x => g x == g e) := by simp [he', hg]
    rw [hx, mem_singleton] at hmem h'
    rw [hmem, h']
  · intro huniq
    have hall : ∀ x ∈ l.filter (fun x => g x == g e), x = e := by
      intro x hx
      obtain ⟨hx1, hx2⟩ := mem_filter.mp hx
      exact huniq x hx1 (by simpa using hx2)
    have hrep := eq_replicate_iff.mpr ⟨rfl, hall⟩
    have hnd' : (l.filter (fun x => g x == g e)).Nodup := hnd.filter _
    rw [hrep, nodup_replicate] at hnd'
    have hpos := length_pos_of_mem hmem
    omega

end EtherVal.Lib
