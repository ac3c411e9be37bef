import EtherVal.Lib.BigEndian
import EtherVal.Lib.Go
import EtherVal.Research.Substate

/-!
# Byte conversions (`research/substate_utils.go:15-146`)

Pointers and slices that may be `nil` are options; `nil` is converted to `nil`.
-/

namespace EtherVal.Research
open EtherVal.Lib

/-- `types.AccessTuple` -/
@[ext]
structure AccessTuple where
  address : Address
  storageKeys : List Word
  deriving DecidableEq, Repr, Inhabited

def hashToBytes (hash : Option Word) : Slice := hash.map Uint256.bytes32

/-- `BytesToHash` and `BytesValueToHash`; longer slices lose their first bytes. -/
def bytesToHash (b : Slice) : Option Word := b.map Uint256.setBytes

def addressToBytes (addr : Option Address) : Slice := addr.map Address.bytes

def bytesToAddress (b : Slice) : Option Address := b.map Address.ofBytes

/-- `BigIntToBytes` and `BigIntToBytesValue`, which drop the sign. -/
def bigIntToBytes (x : Option Int) : Slice := x.map fun x => natBytes x.natAbs

def bytesToBigInt (b : Slice) : Option Int := b.map fun b => (beVal b : Int)

def deref {α : Type} : Option α → Except GoPanic α
  | none => .error .nilDereference
  | some x => .ok x

@[simp] theorem deref_some {α : Type} (x : α) : deref (some x) = .ok x := rfl

@[simp] theorem bytesToHash_hashToBytes (hash : Option Word) :
    bytesToHash (hashToBytes hash) = hash := by
  cases hash with
  | none => rfl
  | some h => exact congrArg some (Uint256.setBytes_bytes32 h)

@[simp] theorem bytesToAddress_addressToBytes (addr : Option Address) :
    bytesToAddress (addressToBytes addr) = addr := by
  cases addr with
  | none => rfl
  | some a => exact congrArg some (Address.ofBytes_bytes a)

theorem bytesToBigInt_bigIntToBytes (x : Option Int) :
    bytesToBigInt (bigIntToBytes x) = x.map fun x => (x.natAbs : Int) := by
  cases x with
  | none => rfl
  | some x =>
    have hval : ((beVal (natBytes x.natAbs) : Nat) : Int) = x.natAbs := by rw [beVal_natBytes]
    exact congrArg some hval

theorem bytesToBigInt_bigIntToBytes_of_nonneg {x : Int} (h : 0 ≤ x) :
    bytesToBigInt (bigIntToBytes (some x)) = some x := by
  rw [bytesToBigInt_bigIntToBytes, Option.map_some, Int.natAbs_of_nonneg h]

@[simp] theorem bytesToBigInt_natCast (n : Nat) :
    bytesToBigInt (bigIntToBytes (some (n : Int))) = some (n : Int) := by
  rw [bytesToBigInt_bigIntToBytes, Option.map_some, Int.natAbs_natCast]

end EtherVal.Research
