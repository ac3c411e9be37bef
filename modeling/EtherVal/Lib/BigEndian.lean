import EtherVal.Lib.Uint256

/-!
# Big-endian byte strings

Fixed-width encodings, as `binary.BigEndian` and the 32-byte hashes use them, and the shortest
encoding of `big.Int.Bytes`.
-/

namespace EtherVal.Lib

def beVal (b : Bytes) : Nat := b.foldl (fun acc x => acc * 256 + x.toNat) 0

def beBytes (w n : Nat) : Bytes := (List.range w).map fun i => UInt8.ofNat (n / 256 ^ (w - 1 - i))

@[simp] theorem beBytes_length (w n : Nat) : (beBytes w n).length = w := by
  simp [beBytes]

theorem beVal_concat (b : Bytes) (x : UInt8) : beVal (b ++ [x]) = beVal b * 256 + x.toNat := by
  simp [beVal]

theorem beBytes_succ (w n : Nat) :
    beBytes (w + 1) n = beBytes w (n / 256) ++ [UInt8.ofNat n] := by
  simp only [beBytes, List.range_succ, List.map_append, List.map_cons, List.map_nil]
  congr 1
  · refine List.map_congr_left ?_
    intro i hi
    have hi' : i < w := List.mem_range.mp hi
    have hexp : w + 1 - 1 - i = (w - 1 - i) + 1 := by omega
    rw [hexp, Nat.pow_succ, Nat.mul_comm, Nat.div_div_eq_div_mul]
  · simp

theorem beVal_beBytes_mod (w n : Nat) : beVal (beBytes w n) = n % 256 ^ w := by
  induction w generalizing n with
  | zero => simp [beBytes, beVal, Nat.mod_one]
  | succ w ih =>
    have hbyte : (UInt8.ofNat n).toNat = n % 256 := by simp
    rw [beBytes_succ, beVal_concat, ih, hbyte, pow_succ, Nat.mul_comm (256 ^ w) 256, Nat.mod_mul]
    omega

theorem beVal_beBytes {w n : Nat} (h : n < 256 ^ w) : beVal (beBytes w n) = n := by
  rw [beVal_beBytes_mod, Nat.mod_eq_of_lt h]

def natBytes (n : Nat) : Bytes := beBytes (if n = 0 then 0 else Nat.log 256 n + 1) n

theorem beVal_natBytes (n : Nat) : beVal (natBytes n) = n := by
  unfold natBytes
  apply beVal_beBytes
  split
  · omega
  · exact Nat.lt_pow_succ_log_self (by omega) n

namespace Uint256

theorem setBytes_bytes32 (x : Word) : setBytes (bytes32 x) = x := by
  have hlt : x.toNat < 256 ^ 32 := by
    have := x.isLt
    norm_num at this ⊢
    exact this
  have h : beVal (bytes32 x) = x.toNat := beVal_beBytes hlt
  change BitVec.ofNat 256 (beVal (bytes32 x)) = x
  rw [h, BitVec.ofNat_toNat, BitVec.setWidth_eq]

end Uint256

namespace Address

/-- Longer slices lose their first bytes. -/
def ofBytes (b : Bytes) : Address := BitVec.ofNat 160 (beVal b)

def bytes (a : Address) : Bytes := beBytes 20 a.toNat

theorem ofBytes_bytes (a : Address) : ofBytes (bytes a) = a := by
  have hlt : a.toNat < 256 ^ 20 := by
    have := a.isLt
    norm_num at this ⊢
    exact this
  rw [ofBytes, bytes, beVal_beBytes hlt, BitVec.ofNat_toNat, BitVec.setWidth_eq]

end Address
end EtherVal.Lib
