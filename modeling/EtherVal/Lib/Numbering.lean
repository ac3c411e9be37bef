import EtherVal.Lib.GoMap

/-!
# Numbers in the order of first occurrence

A table that gives every new key the next free number.
-/

namespace EtherVal.Lib
open Std

variable {K : Type} [Ord K] [TransOrd K]
variable {m : GoMap K Nat} {ks : List K}

def number (m : GoMap K Nat) (k : K) : GoMap K Nat :=
  match m[k]? with
  | some _ => m
  | none => m.insert k m.size

structure Numbers (m : GoMap K Nat) (ks : List K) : Prop where
  known : ∀ k, (∃ i, m[k]? = some i) ↔ k ∈ ks
  lt : ∀ (k : K) i, m[k]? = some i → i < m.size
  inj : ∀ (k k' : K) i, m[k]? = some i → m[k']? = some i → k = k'
  onto : ∀ i < m.size, ∃ k : K, m[k]? = some i

theorem numbers_empty : Numbers (∅ : GoMap K Nat) [] := by
  constructor <;> simp

variable [LawfulEqOrd K]

theorem Numbers.size_eq {distinct : List K} (h : Numbers m ks) (hnd : distinct.Nodup)
    (hmem : ∀ k, k ∈ distinct ↔ k ∈ ks) : m.size = distinct.length := by
  have hkeys : m.keys.Perm distinct := by
    refine (List.perm_ext_iff_of_nodup ExtTreeMap.nodup_keys hnd).mpr fun k => ?_
    rw [hmem, ← h.known, ExtTreeMap.mem_keys, GoMap.mem_iff]
  rw [← hkeys.length_eq, ExtTreeMap.length_keys]

variable [DecidableEq K]

theorem number_keeps {k k' : K} {i : Nat} (h : m[k]? = some i) :
    (number m k')[k]? = some i := by
  unfold number
  cases hk : m[k']? with
  | some j => exact h
  | none =>
    have hne : k' ≠ k := by
      rintro rfl
      rw [hk] at h
      cases h
    simp only [GoMap.get_insert, if_neg hne, h]

theorem foldl_number_keeps {k : K} {i : Nat} (h : m[k]? = some i) :
    (ks.foldl number m)[k]? = some i := by
  induction ks generalizing m with
  | nil => exact h
  | cons k' ks ih => exact ih (number_keeps h)

theorem Numbers.number (h : Numbers m ks) (k : K) :
    Numbers (number m k) (ks ++ [k]) := by
  unfold Lib.number
  cases hk : m[k]? with
  | some j =>
    refine ⟨fun k' => ?_, h.lt, h.inj, h.onto⟩
    have hmem : k ∈ ks := (h.known k).mp ⟨j, hk⟩
    rw [h.known, List.mem_append, List.mem_singleton]
    constructor
    · exact .inl
    · rintro (h' | rfl)
      · exact h'
      · exact hmem
  | none =>
    have hfresh : k ∉ m := by
      rw [GoMap.mem_iff, hk]
      simp
    have hsize : (m.insert k m.size).size = m.size + 1 := by
      rw [ExtTreeMap.size_insert, if_neg (by simpa using hfresh)]
    have hget : ∀ k' : K, (m.insert k m.size)[k']? = if k = k' then some m.size else m[k']? :=
      fun k' => GoMap.get_insert m k k' m.size
    refine ⟨fun k' => ?_, fun k' i hi => ?_, fun k1 k2 i h1 h2 => ?_, fun i hi => ?_⟩
    · rw [hget, List.mem_append, List.mem_singleton]
      split
      · next heq => simp [heq]
      · next hne => simp [h.known, Ne.symm hne]
    · rw [hget] at hi
      rw [hsize]
      split at hi
      · cases hi
        omega
      · have := h.lt k' i hi
        omega
    · rw [hget] at h1 h2
      split at h1 <;> split at h2
      · next e1 e2 => rw [← e1, ← e2]
      · cases h1
        exact absurd (h.lt _ _ h2) (Nat.lt_irrefl _)
      · cases h2
        exact absurd (h.lt _ _ h1) (Nat.lt_irrefl _)
      · exact h.inj k1 k2 i h1 h2
    · rw [hsize] at hi
      by_cases hlast : i = m.size
      · exact ⟨k, by rw [hget, if_pos rfl, hlast]⟩
      · obtain ⟨k', hk'⟩ := h.onto i (by omega)
        refine ⟨k', ?_⟩
        rw [hget, if_neg ?_, hk']
        rintro rfl
        rw [hk] at hk'
        cases hk'

theorem Numbers.foldl {more : List K} (h : Numbers m ks) :
    Numbers (more.foldl Lib.number m) (ks ++ more) := by
  induction more generalizing m ks with
  | nil => simpa using h
  | cons k more ih =>
    have hrest := ih (h.number k)
    rwa [List.append_assoc] at hrest

theorem numbers_foldl (ks : List K) : Numbers (ks.foldl number ∅) ks :=
  numbers_empty.foldl

theorem foldl_number_head (k : K) (ks : List K) : ((k :: ks).foldl number ∅)[k]? = some 0 := by
  have hzero : (number (∅ : GoMap K Nat) k)[k]? = some 0 := by simp [number]
  rw [List.foldl_cons]
  exact foldl_number_keeps hzero

end EtherVal.Lib
