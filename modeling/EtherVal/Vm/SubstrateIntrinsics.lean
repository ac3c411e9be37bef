import EtherVal.Vm.EvmArithmetic
import EtherVal.Vm.SubstrateCallData

/-!
# Intrinsics of Substrate programs (`substrate_interpreter.go:438-516`, `597-661`)

Hash functions are parameters.  There is no recorded trace to compare the hashes with.
-/

namespace EtherVal.Vm
open EtherVal.Lib
open Uint256 (uint64 bytes32 bytes20)

/-- `byte(x, i)` on `x.Bytes()`, which has no leading zeros, and the low 64 bits of the index. -/
def byteIntrinsic (x i : Word) : Except GoPanic Word :=
  match (natBytes x.toNat)[uint64 i]? with
  | some b => .ok (BitVec.ofNat 256 b.toNat)
  | none => .error .indexOutOfRange

/-- What `ecrecover(h, v, r, s)` passes on; the hash is `Bytes()`, the others are padded. -/
def ecrecoverInput (h v r s : Word) : Bytes :=
  natBytes h.toNat ++ (beBytes 32 v.toNat ++ beBytes 32 r.toNat ++ beBytes 32 s.toNat)

/-- An argument of `keccak256` by its type; a variable in storage has the type of its slot. -/
inductive HashArg where
  | uint (val : Word) (size : Nat)
  | address (val : Word)
  | bytes (val : Word) (size : Nat)
  | text (val : Bytes)
  | word (val : Word)
  | other

def HashArg.key (depth : Nat) : HashArg → Except GoPanic Bytes
  | .uint val size => .ok (beBytes (size / 8) val.toNat)
  | .address val => .ok (beBytes 20 val.toNat)
  | .bytes val size => slice (beBytes 32 val.toNat) 0 size
  | .text val => .ok val
  | .word val => .ok (beBytes 32 val.toNat)
  | .other => .error (substratePanic depth "unknown type in keccak".toList)

inductive HashArgs where
  | list (args : List HashArg)
  | bytes (val : Bytes)
  | word (val : Word)

def hashKey (depth : Nat) : HashArgs → Except GoPanic Bytes
  | .list args => return (← args.mapM (HashArg.key depth)).flatten
  | .bytes val => .ok val
  | .word val => .ok (bytes32 val)

def keccak256 (keccak : Bytes → Word) (depth : Nat) (args : HashArgs) : Except GoPanic Word :=
  return keccak (← hashKey depth args)

/-- `sha256hash`: the success and the digest. -/
def sha256hash (keccak : Bytes → Word) (depth : Nat) (args : HashArgs) :
    Except GoPanic (Word × Word) :=
  return (1, ← keccak256 keccak depth args)

structure CodeAccount where
  nonce : Nat
  balance : Nat
  codeHash : Word

def emptyCodeHash : Word := 0xc5d2460186f7233c927e7db2dcc703c0e500b653ca82273b7bfad8045d85a470

/-- `StateDB.Empty` and `StateDB.GetCodeHash` on the account, if there is one. -/
def CodeAccount.isEmpty : Option CodeAccount → Bool
  | none => true
  | some a => a.nonce = 0 ∧ a.balance = 0 ∧ a.codeHash = emptyCodeHash

def CodeAccount.getCodeHash : Option CodeAccount → Word
  | none => 0
  | some a => a.codeHash

/-- `EXTCODEHASH(a)`; `common.BytesToAddress` keeps the last 20 bytes. -/
def extCodeHash (accounts : Address → Option CodeAccount) (a : Word) : Word :=
  CodeAccount.getCodeHash (accounts (bytes20 a))

theorem length_natBytes (n : Nat) :
    (natBytes n).length = if n = 0 then 0 else Nat.log 256 n + 1 := by
  rw [natBytes, beBytes_length]

theorem length_natBytes_le (x : Word) : (natBytes x.toNat).length ≤ 32 := by
  rw [length_natBytes]
  split
  · omega
  · have hlt : x.toNat < 256 ^ 32 := x.isLt
    have := Nat.log_lt_of_lt_pow (by assumption) hlt
    omega

theorem length_natBytes_eq_iff (x : Word) : (natBytes x.toNat).length = 32 ↔ 2 ^ 248 ≤ x.toNat := by
  have hle := length_natBytes_le x
  rw [length_natBytes] at hle ⊢
  split at hle
  · next hzero => simp [hzero]
  · next hne =>
    have hpow : 2 ^ 248 ≤ x.toNat ↔ 31 ≤ Nat.log 256 x.toNat := by
      rw [Nat.le_log_iff_pow_le (by decide) hne]
      norm_num
    rw [if_neg hne, hpow]
    omega

theorem byte_eq (x : Word) {n : Nat} (hn : n < 32) :
    Uint256.byte x (BitVec.ofNat 256 n) = BitVec.ofNat 256 (x.toNat / 256 ^ (31 - n) % 256) := by
  have hmod : n % 2 ^ 256 = n := Nat.mod_eq_of_lt (by omega)
  have hpow : 2 ^ (8 * (31 - n)) = 256 ^ (31 - n) := by rw [pow_mul]; rfl
  apply BitVec.eq_of_toNat_eq
  rw [Uint256.byte, BitVec.toNat_ofNat, hmod, if_pos hn, BitVec.toNat_and, BitVec.toNat_ushiftRight,
    Nat.shiftRight_eq_div_pow, hpow, BitVec.toNat_ofNat]
  change _ &&& (2 ^ 8 - 1) = _
  rw [Nat.and_two_pow_sub_one_eq_mod]
  omega

def ByteFits (x i : Word) : Prop :=
  uint64 i < (natBytes x.toNat).length ∧
    Uint256.byte x (BitVec.ofNat 256 (32 - (natBytes x.toNat).length + uint64 i)) =
      Uint256.byte x i

theorem byteIntrinsic_eq_iff (x i : Word) :
    byteIntrinsic x i = .ok (Uint256.byte x i) ↔ ByteFits x i := by
  have hle := length_natBytes_le x
  unfold byteIntrinsic ByteFits
  by_cases hlt : uint64 i < (natBytes x.toNat).length
  · have hget : (natBytes x.toNat)[uint64 i]? = some (UInt8.ofNat
        (x.toNat / 256 ^ ((natBytes x.toNat).length - 1 - uint64 i))) := by
      rw [List.getElem?_eq_getElem hlt]
      simp [natBytes, beBytes]
    have hpos : 31 - (32 - (natBytes x.toNat).length + uint64 i) =
        (natBytes x.toNat).length - 1 - uint64 i := by omega
    rw [hget, byte_eq x (by omega), hpos]
    simp [hlt]
  · rw [List.getElem?_eq_none (by omega)]
    simp [hlt]

theorem natBytes_eq_beBytes {n w : Nat} (h : (natBytes n).length = w) :
    natBytes n = beBytes w n := by
  rw [natBytes, ← h, length_natBytes]

theorem ecrecoverInput_eq_iff (h v r s : Word) :
    ecrecoverInput h v r s =
      beBytes 32 h.toNat ++ (beBytes 32 v.toNat ++ beBytes 32 r.toNat ++ beBytes 32 s.toNat) ↔
    2 ^ 248 ≤ h.toNat := by
  rw [ecrecoverInput, List.append_left_inj, ← length_natBytes_eq_iff]
  constructor
  · intro heq
    rw [heq, beBytes_length]
  · exact natBytes_eq_beBytes

variable (keccak sha256 : Bytes → Word) (depth : Nat)

theorem intrinsics_agree_iff :
    (∀ x i, (∃ w, byteIntrinsic x i = .ok w ∧ opByte [i, x] = some [w]) ↔ ByteFits x i) ∧
      (∀ h v r s, ecrecoverInput h v r s = beBytes 32 h.toNat ++
        (beBytes 32 v.toNat ++ beBytes 32 r.toNat ++ beBytes 32 s.toNat) ↔ 2 ^ 248 ≤ h.toNat) ∧
      (∀ args key, hashKey depth args = .ok key → keccak256 keccak depth args = .ok (keccak key) ∧
        (sha256hash keccak depth args = .ok (1, sha256 key) ↔ keccak key = sha256 key)) ∧
      ∀ accounts a, CodeAccount.isEmpty (accounts (bytes20 a)) = true →
        (extCodeHash accounts a = 0 ↔ accounts (bytes20 a) = none) := by
  refine ⟨fun x i => ?_, ecrecoverInput_eq_iff, fun args key hkey => ?_,
    fun accounts a hempty => ?_⟩
  · rw [← byteIntrinsic_eq_iff]
    simp [opByte, evmBinary]
  · simp [sha256hash, keccak256, hkey, bind, Except.bind, pure, Except.pure]
  · unfold extCodeHash
    cases hacc : accounts (bytes20 a) with
    | none => exact iff_of_true rfl rfl
    | some acc =>
      rw [hacc] at hempty
      simp only [CodeAccount.isEmpty, decide_eq_true_eq] at hempty
      refine iff_of_false (fun hzero => ?_) nofun
      exact absurd (hempty.2.2.symm.trans hzero) (by decide)

/-- `byte(1, 31)` panics, `ecrecover` of a small hash passes 97 bytes, and an account that exists
and is empty has the hash of empty code. -/
theorem intrinsics_diverge :
    byteIntrinsic 1 31 = .error .indexOutOfRange ∧ (ecrecoverInput 1 0 0 0).length = 97 ∧
      sha256hash (fun _ => 0) 0 (.word 0) ≠ .ok (1, (fun _ => 1 : Bytes → Word) (bytes32 0)) ∧
      extCodeHash (fun _ => some ⟨0, 0, emptyCodeHash⟩) 0 ≠ 0 := by
  have hone : natBytes (1 : Word).toNat = [1] := by simp [natBytes, beBytes]
  refine ⟨?_, ?_, ?_, by decide⟩
  · rw [byteIntrinsic, hone]
    rfl
  · rw [ecrecoverInput, hone]
    simp
  · intro h
    have := Except.ok.inj h
    simp at this

end EtherVal.Vm
