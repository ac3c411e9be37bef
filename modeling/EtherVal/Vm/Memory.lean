import EtherVal.Lib.Uint256
import EtherVal.Lib.Go

/-!
# Errors and memory of the interpreters (`core/vm/errors.go`, `memory.go`, `extended_memory.go`)

Memory sizes and fees are Go `uint64` values: natural numbers, with `% 2^64` where a sum or
a difference may wrap around.
-/

namespace EtherVal.Vm
open EtherVal.Lib

inductive VmError where
  | outOfGas | codeStoreOutOfGas | executionReverted | invalidJump | writeProtection
  | returnDataOutOfBounds | gasUintOverflow | stopToken
  | tacThrow | tacNoTac | tacIllPhiExec | tacIllJump | tacAmbiJump | tacNoCallTrace
  | tacNoGasTrace | tacMissingGasSem | tacTimeout | tacPanic | tacParseError
  | other (text : GoString)
  deriving DecidableEq, Repr, Inhabited

def VmError.text : VmError → GoString
  | .outOfGas => "out of gas".toList
  | .codeStoreOutOfGas => "contract creation code storage out of gas".toList
  | .executionReverted => "execution reverted".toList
  | .invalidJump => "invalid jump destination".toList
  | .writeProtection => "write protection".toList
  | .returnDataOutOfBounds => "return data out of bounds".toList
  | .gasUintOverflow => "gas uint64 overflow".toList
  | .stopToken => "stop token".toList
  | .tacThrow => "TAC THROW statement was executed".toList
  | .tacNoTac => "no TAC found in substratedir".toList
  | .tacIllPhiExec => "TAC ILLPHI statement was executed".toList
  | .tacIllJump => "illegal jump destination to nonexistent TAC block".toList
  | .tacAmbiJump => "ambiguous jump destination to multiple TAC blocks".toList
  | .tacNoCallTrace => "no next call trace found".toList
  | .tacNoGasTrace => "no next gas record found".toList
  | .tacMissingGasSem => "missing gas semantics for TAC GAS instructions".toList
  | .tacTimeout => "TAC interpreter reached transaction timeout".toList
  | .tacPanic => "TAC interpreter raised unexpected runtime panic".toList
  | .tacParseError => "TAC parsing error".toList
  | .other text => text

/-- `IsTACGlobalError`; a `THROW` only fails its own contract. -/
def isTACGlobalError : VmError → Bool
  | .tacNoTac | .tacIllPhiExec | .tacIllJump | .tacAmbiJump | .tacNoCallTrace
  | .tacNoGasTrace | .tacMissingGasSem | .tacTimeout | .tacPanic | .tacParseError => true
  | _ => false

structure Memory where
  store : Bytes
  lastGasCost : Nat
  deriving DecidableEq, Repr, Inhabited

def newMemory : Memory := ⟨[], 0⟩

namespace Memory

def len (m : Memory) : Nat := m.store.length

def resize (m : Memory) (size : Nat) : Memory :=
  if m.len < size then { m with store := m.store ++ List.replicate (size - m.len) 0 } else m

end Memory

def slice (s : Bytes) (low high : Int) : Except GoPanic Bytes :=
  if 0 ≤ low ∧ low ≤ high ∧ high ≤ s.length then
    .ok ((s.take high.toNat).drop low.toNat)
  else .error .indexOutOfRange

def copyInto (s : Bytes) (low high : Nat) (value : Bytes) : Except GoPanic Bytes :=
  if low ≤ high ∧ high ≤ s.length then
    let v := value.take (high - low)
    .ok (s.take low ++ v ++ s.drop (low + v.length))
  else .error .indexOutOfRange

def toWordSize (size : Nat) : Nat :=
  if maxUint64 - 31 < size then maxUint64 / 32 + 1 else (size + 31) / 32

def maxMemorySize : Nat := 0x1FFFFFFFE0

def memoryFee (words : Nat) : Nat := words * 3 + words * words / 512

/-- `memoryGasCost`: the fee for the part of the memory that is new.  The total paid so far
is kept in the memory, also when the caller then gives up. -/
def memoryGasCost (m : Memory) (newMemSize : Nat) : Except VmError (Nat × Memory) :=
  if newMemSize = 0 then .ok (0, m)
  else if maxMemorySize < newMemSize then .error .gasUintOverflow
  else
    let words := toWordSize newMemSize
    if m.len < words * 32 then
      let newTotalFee := memoryFee words
      .ok ((newTotalFee + uint64Mod - m.lastGasCost) % uint64Mod,
      { m with lastGasCost := newTotalFee })
    else .ok (0, m)

def safeMul (x y : Nat) : Nat × Bool := (x * y % uint64Mod, decide (uint64Mod ≤ x * y))

def safeAdd (x y : Nat) : Nat × Bool := ((x + y) % uint64Mod, decide (uint64Mod ≤ x + y))

def rightPadBytes (s : Bytes) (l : Nat) : Bytes := s ++ List.replicate (l - s.length) 0

def getData (data : Bytes) (start size : Nat) : Except GoPanic Bytes := do
  let start := min start data.length
  let stop := min ((start + size) % uint64Mod) data.length
  return rightPadBytes (← slice data start stop) size

abbrev MemResult (α : Type) := Except GoPanic (Except VmError α × Memory)

/-- `Ext_getData`: the fee of a fresh memory of that size bounds the padding. -/
def extGetData (data : Bytes) (start size maxGas : Nat) : Except GoPanic (Except VmError Bytes) :=
  match memoryGasCost newMemory size with
  | .error e => .ok (.error e)
  | .ok (gas, _) =>
    if maxGas < gas then .ok (.error .outOfGas)
    else do return .ok (← getData data start size)

namespace Memory

def extResize (m : Memory) (newMemSize maxGas : Nat) : Except VmError Unit × Memory :=
  match memoryGasCost m newMemSize with
  | .error e => (.error e, m)
  | .ok (gas, m) =>
    if maxGas < gas then (.error .outOfGas, m)
    else
      let (memorySize, overflow) := safeMul (toWordSize newMemSize) 32
      if overflow then (.error .gasUintOverflow, m)
      else (.ok (), if 0 < memorySize then m.resize memorySize else m)

def afterResize {α : Type} (m : Memory) (newMemSize maxGas : Nat)
    (access : Memory → Except GoPanic (α × Memory)) : MemResult α :=
  match m.extResize newMemSize maxGas with
  | (.error e, m) => .ok (.error e, m)
  | (.ok _, m) => (access m).map fun (a, m) => (.ok a, m)

def extSet (m : Memory) (offset size : Nat) (value : Bytes) (maxGas : Nat) : MemResult Unit :=
  if 0 < size then
    m.afterResize ((offset + size) % uint64Mod) maxGas fun m => do
      let store ← copyInto m.store offset ((offset + size) % uint64Mod) value
      return ((), { m with store })
  else .ok (.ok (), m)

def extSet32 (m : Memory) (offset : Nat) (val : Word) (maxGas : Nat) : MemResult Unit :=
  m.afterResize ((offset + 32) % uint64Mod) maxGas fun m => do
    let store ← copyInto m.store offset m.len (Uint256.bytes32 val)
    return ((), { m with store })

def extSet1 (m : Memory) (offset : Nat) (val : UInt8) (maxGas : Nat) : MemResult Unit :=
  m.afterResize ((offset + 1) % uint64Mod) maxGas fun m =>
    if offset < m.len then .ok ((), { m with store := m.store.set offset val })
    else .error .indexOutOfRange

/-- `GetCopy` and `GetPtr`, which differ only in aliasing: nothing for size 0 or an offset
past the end, else the slice. -/
def getPtr (m : Memory) (offset size : Int) : Except GoPanic Bytes :=
  if size = 0 then .ok []
  else if offset < m.len then slice m.store offset (addInt64 offset size)
  else .ok []

def extGetPtr (m : Memory) (offset size : Int) (maxGas : Nat) : MemResult Bytes :=
  m.afterResize (ofInt64 (addInt64 offset size)) maxGas fun m => do
    return (← m.getPtr offset size, m)

end Memory
end EtherVal.Vm
