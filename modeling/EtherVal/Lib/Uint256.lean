import Mathlib.Tactic

/-!
# 256-bit words

The methods of `holiman/uint256` by their documented results, over `BitVec 256`.
-/

namespace EtherVal.Lib

abbrev Word := BitVec 256
abbrev Address := BitVec 160
abbrev Bytes := List UInt8

def uint64Mod : Nat := 2 ^ 64

def maxUint64 : Nat := 2 ^ 64 - 1

def toInt64 (x : Nat) : Int := if x < 2 ^ 63 then x else (x : Int) - 2 ^ 64

def ofInt64 (x : Int) : Nat := (x % 2 ^ 64).toNat

def addInt64 (x y : Int) : Int := toInt64 (ofInt64 (x + y))

namespace Uint256

def isZero (x : Word) : Bool := x = 0
def setOne : Word := 1
def clear : Word := 0
def setAllOne : Word := BitVec.allOnes 256

/- Mod and SMod give 0 for a zero modulus, unlike the bit-vector operations. -/
def div (x y : Word) : Word := if y = 0 then 0 else x / y
def sdiv (x y : Word) : Word := if y = 0 then 0 else x.sdiv y
def mod (x y : Word) : Word := if y = 0 then 0 else x % y
def smod (x y : Word) : Word := if y = 0 then 0 else x.srem y

def addMod (x y m : Word) : Word :=
  if m = 0 then 0 else BitVec.ofNat 256 ((x.toNat + y.toNat) % m.toNat)

def mulMod (x y m : Word) : Word :=
  if m = 0 then 0 else BitVec.ofNat 256 (x.toNat * y.toNat % m.toNat)

def exp (base exponent : Word) : Word := BitVec.ofNat 256 (base.toNat ^ exponent.toNat)

/-- `ExtendSign(x, byteNum)`: the sign bit of `x` is at `byteNum*8+7`. -/
def extendSign (x byteNum : Word) : Word :=
  if 30 < byteNum.toNat then x
  else (x.setWidth (8 * byteNum.toNat + 8)).signExtend 256

def lt (x y : Word) : Bool := x.ult y
def gt (x y : Word) : Bool := y.ult x
def slt (x y : Word) : Bool := x.slt y
def sgt (x y : Word) : Bool := y.slt x
def eq (x y : Word) : Bool := x = y

def byte (z n : Word) : Word :=
  if n.toNat < 32 then (z >>> (8 * (31 - n.toNat))) &&& 0xff else 0

def ltUint64 (x : Word) (n : Nat) : Bool := x.toNat < n
def gtUint64 (x : Word) (n : Nat) : Bool := n < x.toNat

def sign (x : Word) : Int := if x = 0 then 0 else if x.msb then -1 else 1

def lsh (x : Word) (n : Nat) : Word := x <<< n
def rsh (x : Word) (n : Nat) : Word := x >>> n
def srsh (x : Word) (n : Nat) : Word := x.sshiftRight n

def uint64 (x : Word) : Nat := x.toNat % uint64Mod

def uint64WithOverflow (x : Word) : Nat × Bool := (uint64 x, uint64Mod ≤ x.toNat)

def isUint64 (x : Word) : Bool := x.toNat < uint64Mod

def setUint64 (n : Nat) : Word := BitVec.ofNat 256 n

def bytes32 (x : Word) : Bytes :=
  (List.range 32).map fun i => UInt8.ofNat (x.toNat / 256 ^ (31 - i))

/-- `Bytes20()` converted to an address: the low 160 bits. -/
def bytes20 (x : Word) : Address := x.setWidth 160

def ofAddress (a : Address) : Word := a.setWidth 256

/-- `SetBytes`: the big-endian value of the last 32 bytes. -/
def setBytes (b : Bytes) : Word :=
  BitVec.ofNat 256 (b.foldl (fun acc x => acc * 256 + x.toNat) 0)

def hex (x : Word) : List Char := ['0', 'x'] ++ Nat.toDigits 16 x.toNat

end Uint256
end EtherVal.Lib
