import Mathlib.Data.List.GetD
import EtherVal.Lib.BigEndian

/-!
# Byte strings read past their end

Bytes past the end of a string count as zero.  A read that stops at the end of the string and is
then filled with zeros reads these bytes; one that is not filled has a smaller value.
-/

namespace EtherVal.Lib
open List

variable {b : Bytes} {o n : Nat}

def byteAt (b : Bytes) (p : Nat) : UInt8 := b.getD p 0

def readAt (b : Bytes) (o n : Nat) : Bytes := (List.range n).map fun j => byteAt b (o + j)

def ZeroAt (b : Bytes) (o n : Nat) : Prop := ∀ p, o ≤ p → p < o + n → byteAt b p = 0

@[simp] theorem length_readAt (b : Bytes) (o n : Nat) : (readAt b o n).length = n := by
  simp [readAt]

theorem byteAt_of_le {p : Nat} (h : b.length ≤ p) : byteAt b p = 0 := by
  rw [byteAt, getD_eq_getElem?_getD, getElem?_eq_none h, Option.getD_none]

theorem byteAt_readAt {p : Nat} (h : p < n) :
    byteAt (readAt b o n) p = byteAt b (o + p) := by
  simp [readAt, byteAt, h]

@[simp] theorem byteAt_append_zeros (b : Bytes) (k p : Nat) :
    byteAt (b ++ List.replicate k 0) p = byteAt b p := by
  unfold byteAt
  by_cases hp : p < b.length
  · rw [getD_append _ _ _ _ hp]
  · have hb : b.getD p 0 = 0 := getD_eq_default _ _ (by omega)
    rw [getD_append_right _ _ _ _ (by omega), hb]
    by_cases hk : p - b.length < k
    · exact getD_replicate _ hk
    · exact getD_eq_default _ _ (by simpa using hk)

theorem readAt_eq_append (b : Bytes) (o n : Nat) :
    readAt b o n = (b.drop o).take n ++ List.replicate (n - (b.length - o)) 0 := by
  apply ext_getElem
  · simp only [length_readAt, length_append, length_take, length_drop,
      length_replicate]
    omega
  · intro j h1 h2
    have hj : j < n := by simpa using h1
    simp only [readAt, getElem_map, getElem_range, byteAt]
    by_cases hin : o + j < b.length
    · rw [getElem_append_left (by simp; omega)]
      simp [hin]
    · rw [getElem_append_right (by simp; omega), getElem_replicate]
      exact getD_eq_default _ _ (by omega)

theorem readAt_of_le (h : o + n ≤ b.length) :
    readAt b o n = (b.drop o).take n := by
  have hzero : n - (b.length - o) = 0 := by omega
  rw [readAt_eq_append, hzero, replicate_zero, append_nil]

theorem readAt_past_end (n : Nat) (h : b.length ≤ o) :
    readAt b o n = List.replicate n 0 := by
  have hfull : n - (b.length - o) = n := by omega
  rw [readAt_eq_append, drop_of_length_le h, take_nil, nil_append, hfull]

theorem zeroAt_iff_take :
    ZeroAt b o n ↔ ∀ x ∈ (b.drop o).take n, x = 0 := by
  constructor
  · intro h x hx
    obtain ⟨j, hj, rfl⟩ := getElem_of_mem hx
    have hbounds : j < n ∧ o + j < b.length := by
      simp only [length_take, length_drop] at hj
      omega
    have hbyte := h (o + j) (by omega) (by omega)
    rw [byteAt, getD_eq_getElem _ _ hbounds.2] at hbyte
    simpa using hbyte
  · intro h p hp hlt
    by_cases hin : p < b.length
    · have hmem : b[p] ∈ (b.drop o).take n := by
        rw [mem_iff_getElem]
        refine ⟨p - o, by simp; omega, ?_⟩
        have hsum : o + (p - o) = p := by omega
        simp [hsum]
      rw [byteAt, getD_eq_getElem _ _ hin]
      exact h _ hmem
    · exact byteAt_of_le (by omega)

theorem beVal_append_zeros (b : Bytes) (k : Nat) :
    beVal (b ++ List.replicate k 0) = beVal b * 256 ^ k := by
  induction k with
  | zero => simp
  | succ k ih =>
    rw [replicate_succ', ← append_assoc, beVal_concat, ih, pow_succ]
    simp [Nat.mul_assoc]

theorem beVal_lt (b : Bytes) : beVal b < 256 ^ b.length := by
  induction b using List.reverseRecOn with
  | nil => simp [beVal]
  | append_singleton b x ih =>
    have hx : x.toNat < 256 := x.toNat_lt
    rw [beVal_concat, length_append, length_singleton, pow_succ]
    omega

theorem beBytes_beVal (b : Bytes) : beBytes b.length (beVal b) = b := by
  induction b using List.reverseRecOn with
  | nil => rfl
  | append_singleton b x ih =>
    have hx : x.toNat < 256 := x.toNat_lt
    rw [length_append, length_singleton, beBytes_succ, beVal_concat,
      show (beVal b * 256 + x.toNat) / 256 = beVal b by omega, ih]
    congr 2
    apply UInt8.toNat_inj.mp
    rw [UInt8.toNat_ofNat']
    omega

theorem beVal_eq_zero_iff : beVal b = 0 ↔ ∀ x ∈ b, x = 0 := by
  induction b using List.reverseRecOn with
  | nil => simp [beVal]
  | append_singleton b x ih =>
    have hx : x.toNat = 0 ↔ x = 0 := UInt8.toNat_inj (b := 0)
    rw [beVal_concat]
    simp only [mem_append, mem_singleton]
    constructor
    · intro h y hy
      rcases hy with hy | rfl
      · exact ih.mp (by omega) y hy
      · exact hx.mp (by omega)
    · intro h
      have hb := ih.mpr fun y hy => h y (.inl hy)
      have hlast := hx.mpr (h x (.inr rfl))
      omega

end EtherVal.Lib
