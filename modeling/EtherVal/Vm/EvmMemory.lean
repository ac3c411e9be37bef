import EtherVal.Vm.EvmArithmetic
import EtherVal.Vm.MemoryRules

/-!
# Opcodes of the EVM interpreter that use memory

One round of the loop in `core/vm/interpreter.go` with unlimited gas, for the opcodes of
`memory_table.go`, `gas_table.go` and `instructions.go` that only read and write memory.  The
operands are the top of the stack, first operand first.
-/

namespace EtherVal.Vm
open EtherVal.Lib
open Uint256 (uint64WithOverflow uint64 bytes32 setBytes bytes20)

variable {size n : Nat} {off : Word} {mem : Memory}

inductive MemOp where
  | MLOAD | MSTORE | MSTORE8 | SHA3 | CALLDATACOPY | CODECOPY | EXTCODECOPY | RETURNDATACOPY
  | LOG (topics : Fin 5) | RETURN | REVERT
  deriving DecidableEq, Repr

def Stack.back (stack : Stack) (n : Nat) : Word := stack.getD n 0

@[simp] theorem Stack.back_zero (w : Word) (l : List Word) : Stack.back (w :: l) 0 = w := rfl

@[simp] theorem Stack.back_one (v w : Word) (l : List Word) : Stack.back (v :: w :: l) 1 = w := rfl

@[simp] theorem Stack.back_two (u v w : Word) (l : List Word) :
    Stack.back (u :: v :: w :: l) 2 = w := rfl

/-! ### Sizes (`common.go`, `memory_table.go`) -/

def calcMemSize64WithUint (off : Word) (length64 : Nat) : Nat × Bool :=
  -- the size is zero for no bytes, wherever they are
  if length64 = 0 then (0, false)
  else
    let (offset64, overflow) := uint64WithOverflow off
    if overflow then (0, true)
    else
      let val := (offset64 + length64) % uint64Mod
      (val, val < offset64)

def calcMemSize64 (off l : Word) : Nat × Bool :=
  if Uint256.isUint64 l then calcMemSize64WithUint off (uint64 l) else (0, true)

def MemOp.memorySize (stack : Stack) : MemOp → Nat × Bool
  | MLOAD | MSTORE => calcMemSize64WithUint (stack.back 0) 32
  | MSTORE8 => calcMemSize64WithUint (stack.back 0) 1
  | SHA3 | LOG _ | RETURN | REVERT => calcMemSize64 (stack.back 0) (stack.back 1)
  | CALLDATACOPY | CODECOPY | RETURNDATACOPY => calcMemSize64 (stack.back 0) (stack.back 2)
  | EXTCODECOPY => calcMemSize64 (stack.back 1) (stack.back 3)

/-! ### Gas (`gas_table.go`, `operations_acl.go`) -/

def orOverflow (p : Nat × Bool) : Except VmError Nat :=
  if p.2 then .error .gasUintOverflow else .ok p.1

theorem orOverflow_eq_ok {p : Nat × Bool} {k : Nat} :
    orOverflow p = .ok k ↔ p.2 = false ∧ p.1 = k := by
  unfold orOverflow
  cases p.2 <;> simp

theorem orOverflow_error {p : Nat × Bool} {e : VmError} (h : orOverflow p = .error e) :
    e = .gasUintOverflow := by
  unfold orOverflow at h
  split at h
  · exact (Except.error.inj h).symm
  · cases h

/-- `gas` together with what `n` units of a price add to it. -/
def addGas (gas n price : Nat) : Except VmError Nat := do
  let more ← orOverflow (safeMul n price)
  orOverflow (safeAdd gas more)

def memoryCopierGas (stackpos : Nat) (stack : Stack) (mem : Memory) (memorySize : Nat) :
    Except VmError (Nat × Memory) := do
  let (gas, mem) ← memoryGasCost mem memorySize
  let words ← orOverflow (uint64WithOverflow (stack.back stackpos))
  return (← addGas gas (toWordSize words) 3, mem)

/-- `gasExtCodeCopyEIP2929`, which before Berlin is `gasExtCodeCopy`. -/
def gasExtCodeCopy (coldAccount : Bool) (stack : Stack) (mem : Memory) (memorySize : Nat) :
    Except VmError (Nat × Memory) := do
  let (gas, mem) ← memoryCopierGas 3 stack mem memorySize
  return (← if coldAccount then orOverflow (safeAdd gas (2600 - 100)) else .ok gas, mem)

def gasKeccak256 (stack : Stack) (mem : Memory) (memorySize : Nat) :
    Except VmError (Nat × Memory) := do
  let (gas, mem) ← memoryGasCost mem memorySize
  let wordGas ← orOverflow (uint64WithOverflow (stack.back 1))
  return (← addGas gas (toWordSize wordGas) 6, mem)

def makeGasLog (n : Nat) (stack : Stack) (mem : Memory) (memorySize : Nat) :
    Except VmError (Nat × Memory) := do
  let requestedSize ← orOverflow (uint64WithOverflow (stack.back 1))
  let (gas, mem) ← memoryGasCost mem memorySize
  let gas ← orOverflow (safeAdd gas 375)
  let gas ← orOverflow (safeAdd gas (n * 375))
  return (← addGas gas requestedSize 8, mem)

def MemOp.dynamicGas (coldAccount : Bool) (stack : Stack) (mem : Memory) (memorySize : Nat) :
    MemOp → Except VmError (Nat × Memory)
  | MLOAD | MSTORE | MSTORE8 | RETURN | REVERT => memoryGasCost mem memorySize
  | SHA3 => gasKeccak256 stack mem memorySize
  | LOG n => makeGasLog n stack mem memorySize
  | CALLDATACOPY | CODECOPY | RETURNDATACOPY => memoryCopierGas 2 stack mem memorySize
  | EXTCODECOPY => gasExtCodeCopy coldAccount stack mem memorySize

/-! ### Bodies (`memory.go`, `instructions.go`) -/

namespace Memory

def set (m : Memory) (offset size : Nat) (value : Bytes) : Except GoPanic Memory :=
  if 0 < size then
    if m.len < (offset + size) % uint64Mod then
      .error (.text "invalid memory: store empty".toList)
    else do return { m with store := ← copyInto m.store offset ((offset + size) % uint64Mod) value }
  else .ok m

def set32 (m : Memory) (offset : Nat) (val : Word) : Except GoPanic Memory :=
  if m.len < (offset + 32) % uint64Mod then .error (.text "invalid memory: store empty".toList)
  else do return { m with store := ← copyInto m.store offset m.len (bytes32 val) }

def set1 (m : Memory) (offset : Nat) (val : UInt8) : Except GoPanic Memory :=
  if offset < m.len then .ok { m with store := m.store.set offset val }
  else .error .indexOutOfRange

end Memory

structure EvmScope where
  memory : Memory
  contract : Contract
  returnData : Bytes
  readOnly : Bool
  blockNumber : Nat
  getCode : Address → Bytes
  keccak256 : Bytes → Word
  /-- Berlin prices an address that is not in the access list higher. -/
  coldAccount : Bool

structure EvmResult where
  memory : Memory
  pushed : Option Word := none
  logged : Option Log := none
  ret : Bytes := []
  err : Option VmError := none

namespace EvmScope

def range (s : EvmScope) (offset size : Word) : Except GoPanic Bytes :=
  s.memory.getPtr (toInt64 (uint64 offset)) (toInt64 (uint64 size))

def opMload (s : EvmScope) (stack : Stack) : Except GoPanic EvmResult := do
  let data ← s.memory.getPtr (toInt64 (uint64 (stack.back 0))) 32
  return { memory := s.memory, pushed := some (setBytes data) }

def opMstore (s : EvmScope) (stack : Stack) : Except GoPanic EvmResult := do
  return { memory := ← s.memory.set32 (uint64 (stack.back 0)) (stack.back 1) }

def opMstore8 (s : EvmScope) (stack : Stack) : Except GoPanic EvmResult := do
  let val := UInt8.ofNat (uint64 (stack.back 1))
  return { memory := ← s.memory.set1 (uint64 (stack.back 0)) val }

def opKeccak256 (s : EvmScope) (stack : Stack) : Except GoPanic EvmResult := do
  let data ← s.range (stack.back 0) (stack.back 1)
  return { memory := s.memory, pushed := some (s.keccak256 data) }

def opCopy (s : EvmScope) (stack : Stack) (n : Nat) (data : Bytes) : Except GoPanic EvmResult := do
  let (offset64, overflow) := uint64WithOverflow (stack.back (n + 1))
  let length64 := uint64 (stack.back (n + 2))
  let copied ← getData data (if overflow then maxUint64 else offset64) length64
  return { memory := ← s.memory.set (uint64 (stack.back n)) length64 copied }

def opCallDataCopy (s : EvmScope) (stack : Stack) := s.opCopy stack 0 s.contract.input
def opCodeCopy (s : EvmScope) (stack : Stack) := s.opCopy stack 0 s.contract.code
def opExtCodeCopy (s : EvmScope) (stack : Stack) :=
  s.opCopy stack 1 (s.getCode (bytes20 (stack.back 0)))

def opReturnDataCopy (s : EvmScope) (stack : Stack) : Except GoPanic EvmResult :=
  let outOfBounds : EvmResult := { memory := s.memory, err := some .returnDataOutOfBounds }
  let (offset64, overflow) := uint64WithOverflow (stack.back 1)
  if overflow then .ok outOfBounds
  else
    let (end64, overflow) := uint64WithOverflow (stack.back 1 + stack.back 2)
    if overflow ∨ s.returnData.length < end64 then .ok outOfBounds
    else do
      let data ← slice s.returnData offset64 end64
      return { memory := ← s.memory.set (uint64 (stack.back 0))
                 (uint64 (stack.back 2)) data }

def makeLog (s : EvmScope) (size : Nat) (stack : Stack) : Except GoPanic EvmResult :=
  if s.readOnly then .ok { memory := s.memory, err := some .writeProtection }
  else do
    let d ← s.range (stack.back 0) (stack.back 1)
    return { memory := s.memory,
             logged := some ⟨s.contract.address, (stack.drop 2).take size, d, s.blockNumber⟩ }

theorem makeLog_readOnly {s : EvmScope} {stack : Stack} (h : s.readOnly = true) :
    s.makeLog size stack = .ok { memory := s.memory, err := some .writeProtection } := by
  unfold makeLog
  rw [if_pos h]

theorem makeLog_ok (s : EvmScope) (size : Nat) (stack : Stack) {d : Bytes}
    (h : ¬ s.readOnly = true) (hd : s.range (stack.back 0) (stack.back 1) = .ok d) :
    s.makeLog size stack = .ok
      { memory := s.memory
        logged := some ⟨s.contract.address, (stack.drop 2).take size, d, s.blockNumber⟩ } := by
  unfold makeLog
  rw [if_neg h, hd]
  rfl

def opReturn (s : EvmScope) (stack : Stack) : Except GoPanic EvmResult := do
  let ret ← s.range (stack.back 0) (stack.back 1)
  return { memory := s.memory, ret, err := some .stopToken }

def opRevert (s : EvmScope) (stack : Stack) : Except GoPanic EvmResult := do
  let ret ← s.range (stack.back 0) (stack.back 1)
  return { memory := s.memory, ret, err := some .executionReverted }

end EvmScope

def MemOp.execute (s : EvmScope) (stack : Stack) : MemOp → Except GoPanic EvmResult
  | MLOAD => s.opMload stack
  | MSTORE => s.opMstore stack
  | MSTORE8 => s.opMstore8 stack
  | SHA3 => s.opKeccak256 stack
  | CALLDATACOPY => s.opCallDataCopy stack
  | CODECOPY => s.opCodeCopy stack
  | EXTCODECOPY => s.opExtCodeCopy stack
  | RETURNDATACOPY => s.opReturnDataCopy stack
  | LOG n => s.makeLog n stack
  | RETURN => s.opReturn stack
  | REVERT => s.opRevert stack

/-! ### One round of the loop (`interpreter.go:218-264`) -/

def MemOp.expandedSize (op : MemOp) (stack : Stack) : Except VmError Nat := do
  let memSize ← orOverflow (op.memorySize stack)
  orOverflow (safeMul (toWordSize memSize) 32)

def MemOp.expand (op : MemOp) (s : EvmScope) (stack : Stack) : Except VmError Memory := do
  let memorySize ← op.expandedSize stack
  match op.dynamicGas s.coldAccount stack s.memory memorySize with
  | .error _ => .error .outOfGas
  | .ok (_, mem) => return if 0 < memorySize then mem.resize memorySize else mem

def evmRound (op : MemOp) (s : EvmScope) (stack : Stack) : Except GoPanic EvmResult :=
  match op.expand s stack with
  | .error e => .ok { memory := s.memory, err := some e }
  | .ok memory => op.execute { s with memory } stack

def evmMemoryFee (op : MemOp) (s : EvmScope) (stack : Stack) : Except VmError Nat := do
  let memorySize ← op.expandedSize stack
  return (← memoryGasCost s.memory memorySize).1

def MemOp.span (stack : Stack) : MemOp → Nat × Nat
  | MLOAD | MSTORE => ((stack.back 0).toNat, 32)
  | MSTORE8 => ((stack.back 0).toNat, 1)
  | SHA3 | LOG _ | RETURN | REVERT => ((stack.back 0).toNat, (stack.back 1).toNat)
  | CALLDATACOPY | CODECOPY | RETURNDATACOPY => ((stack.back 0).toNat, (stack.back 2).toNat)
  | EXTCODECOPY => ((stack.back 1).toNat, (stack.back 3).toNat)

def needed (span : Nat × Nat) : Nat := if span.2 = 0 then 0 else span.1 + span.2

theorem calcMemSize64WithUint_eq (h : needed (off.toNat, n) < uint64Mod) :
    calcMemSize64WithUint off n = (needed (off.toNat, n), false) := by
  unfold calcMemSize64WithUint needed at *
  split
  · rfl
  · next hn =>
    rw [if_neg hn] at h
    dsimp only at h
    have hoff : off.toNat % uint64Mod = off.toNat := Nat.mod_eq_of_lt (by omega)
    have hno : ¬ uint64Mod ≤ off.toNat := by omega
    simp only [uint64WithOverflow, uint64, hoff, hno, decide_false,
      Bool.false_eq_true, if_false, Nat.mod_eq_of_lt h]
    simp

theorem calcMemSize64WithUint_overflow (hn : n < uint64Mod) (h : uint64Mod ≤ needed (off.toNat, n))
    : (calcMemSize64WithUint off n).2 = true := by
  unfold calcMemSize64WithUint needed at *
  split at h
  · exact absurd h (by decide)
  · next hzero =>
    dsimp only at h hzero
    rw [if_neg hzero]
    by_cases hoff : uint64Mod ≤ off.toNat
    · simp [uint64WithOverflow, hoff]
    · have hmod : off.toNat % uint64Mod = off.toNat := Nat.mod_eq_of_lt (by omega)
      have hwrap : (off.toNat + n) % uint64Mod < off.toNat := by
        rw [Nat.mod_eq_sub_mod h, Nat.mod_eq_of_lt (by omega)]
        omega
      simp [uint64WithOverflow, uint64, hoff, hmod, hwrap]

theorem calcMemSize64_eq {l : Word} (h : needed (off.toNat, l.toNat) < uint64Mod) :
    calcMemSize64 off l = (needed (off.toNat, l.toNat), false) := by
  have hl : l.toNat < uint64Mod := by
    unfold needed at h
    split at h
    · next hzero =>
      dsimp only at hzero
      rw [hzero]
      decide
    · dsimp only at h
      omega
  have hmod : uint64 l = l.toNat := Nat.mod_eq_of_lt hl
  unfold calcMemSize64
  rw [if_pos (by simpa [Uint256.isUint64] using hl), hmod]
  exact calcMemSize64WithUint_eq h

theorem calcMemSize64_overflow {l : Word} (h : uint64Mod ≤ needed (off.toNat, l.toNat)) :
    (calcMemSize64 off l).2 = true := by
  unfold calcMemSize64
  split
  · next hl =>
    have hl : l.toNat < uint64Mod := by simpa [Uint256.isUint64] using hl
    rw [show uint64 l = l.toNat from Nat.mod_eq_of_lt hl]
    exact calcMemSize64WithUint_overflow hl h
  · rfl

namespace MemOp
variable {op : MemOp} {stack : Stack}

theorem memorySize_eq (h : needed (op.span stack) < uint64Mod) :
    op.memorySize stack = (needed (op.span stack), false) := by
  cases op
  case MLOAD | MSTORE | MSTORE8 => exact calcMemSize64WithUint_eq h
  all_goals exact calcMemSize64_eq h

theorem memorySize_overflow (h : uint64Mod ≤ needed (op.span stack)) :
    (op.memorySize stack).2 = true := by
  cases op
  case MLOAD | MSTORE | MSTORE8 => exact calcMemSize64WithUint_overflow (by decide) h
  all_goals exact calcMemSize64_overflow h

theorem expandedSize_eq (h : needed (op.span stack) ≤ maxMemorySize) :
    op.expandedSize stack = .ok (32 * wordsFor (needed (op.span stack))) := by
  have hwords := wordsFor_le h
  have hlt : wordsFor (needed (op.span stack)) * 32 < uint64Mod := by
    unfold maxMemorySize at hwords
    unfold uint64Mod
    omega
  have hneed : needed (op.span stack) < uint64Mod := by
    unfold maxMemorySize at h
    unfold uint64Mod
    omega
  unfold expandedSize
  rw [memorySize_eq hneed]
  show orOverflow (safeMul (toWordSize (needed (op.span stack))) 32) = _
  rw [toWordSize_eq h]
  simp only [orOverflow, safeMul, Nat.not_le.mpr hlt, decide_false, Bool.false_eq_true, if_false,
    Nat.mod_eq_of_lt hlt]
  rw [Nat.mul_comm]

theorem expandedSize_large {k : Nat} (h : maxMemorySize < needed (op.span stack))
    (hk : op.expandedSize stack = .ok k) : maxMemorySize < k := by
  by_cases hneed : needed (op.span stack) < uint64Mod
  · unfold expandedSize at hk
    rw [memorySize_eq hneed] at hk
    obtain ⟨size, hsize, hk⟩ := bind_ok hk
    cases hsize
    obtain ⟨hno, rfl⟩ := orOverflow_eq_ok.mp hk
    have hlt : toWordSize (needed (op.span stack)) * 32 < uint64Mod := by
      simpa [safeMul] using hno
    show maxMemorySize < toWordSize (needed (op.span stack)) * 32 % uint64Mod
    rw [Nat.mod_eq_of_lt hlt]
    unfold toWordSize at hlt ⊢
    split at hlt
    · exact absurd hlt (by decide)
    · next hsmall =>
      rw [if_neg hsmall]
      omega
  · have hover : (op.memorySize stack).2 = true := memorySize_overflow (by omega)
    obtain ⟨size, hsize, -⟩ := bind_ok hk
    exact absurd (hover.symm.trans (orOverflow_eq_ok.mp hsize).1) (by decide)

theorem safeAdd_ok {x y : Nat} (h : x + y < 2 ^ 64) : orOverflow (safeAdd x y) = .ok (x + y) := by
  have hlt : x + y < uint64Mod := h
  exact orOverflow_eq_ok.mpr ⟨by simpa [safeAdd] using hlt, Nat.mod_eq_of_lt hlt⟩

theorem addGas_ok {gas price : Nat} (hgas : gas < 2 ^ 63) (hn : n * price < 2 ^ 63) :
    addGas gas n price = .ok (gas + n * price) := by
  have hmul : ¬ uint64Mod ≤ n * price := by
    unfold uint64Mod
    omega
  have hprice : orOverflow (safeMul n price) = .ok (n * price) :=
    orOverflow_eq_ok.mpr ⟨by simpa [safeMul] using hmul, Nat.mod_eq_of_lt (Nat.not_le.mp hmul)⟩
  unfold addGas
  rw [hprice]
  exact safeAdd_ok (by omega)

theorem uint64_ok {x : Word} (h : x.toNat ≤ maxMemorySize) :
    orOverflow (uint64WithOverflow x) = .ok x.toNat := by
  have hlt : x.toNat < uint64Mod := by
    unfold maxMemorySize at h
    unfold uint64Mod
    omega
  exact orOverflow_eq_ok.mpr ⟨by simpa [uint64WithOverflow] using hlt,
    Nat.mod_eq_of_lt hlt⟩

theorem wordGas_ok {gas : Nat} {x : Word} (price : Nat) (hgas : gas < 2 ^ 62)
    (hx : x.toNat ≤ maxMemorySize) (hprice : price ≤ 8) :
    addGas gas (toWordSize x.toNat) price = .ok (gas + wordsFor x.toNat * price) ∧
      gas + wordsFor x.toNat * price < 2 ^ 63 := by
  have hwords : wordsFor x.toNat * price ≤ wordsFor x.toNat * 8 := Nat.mul_le_mul_left _ hprice
  have hle := wordsFor_le hx
  unfold maxMemorySize at hle
  rw [toWordSize_eq hx]
  exact ⟨addGas_ok (by omega) (by omega), by omega⟩

theorem memoryCopierGas_ok {mem' : Memory} {fee pos : Nat}
    (hcost : memoryGasCost mem size = .ok (fee, mem')) (hfee : fee < 2 ^ 62)
    (hlength : (stack.back pos).toNat ≤ maxMemorySize) :
    ∃ gas < 2 ^ 63, memoryCopierGas pos stack mem size = .ok (gas, mem') := by
  obtain ⟨hgas, hlt⟩ := wordGas_ok 3 hfee hlength (by decide)
  exact ⟨_, hlt, bind_ok_iff.mpr ⟨_, hcost, bind_ok_iff.mpr ⟨_, uint64_ok hlength,
    bind_ok_iff.mpr ⟨_, hgas, rfl⟩⟩⟩⟩

theorem dynamicGas_ok {mem' : Memory} {fee : Nat} (cold : Bool)
    (hcost : memoryGasCost mem size = .ok (fee, mem')) (hfee : fee < 2 ^ 62)
    (hlength : (op.span stack).2 ≤ maxMemorySize) :
    ∃ gas, op.dynamicGas cold stack mem size = .ok (gas, mem') := by
  cases op with
  | MLOAD | MSTORE | MSTORE8 | RETURN | REVERT => exact ⟨_, hcost⟩
  | SHA3 =>
    obtain ⟨hgas, -⟩ := wordGas_ok 6 hfee hlength (by decide)
    exact ⟨_, bind_ok_iff.mpr ⟨_, hcost, bind_ok_iff.mpr ⟨_, uint64_ok hlength,
      bind_ok_iff.mpr ⟨_, hgas, rfl⟩⟩⟩⟩
  | LOG n =>
    have hn : n.val * 375 < 2 ^ 16 := by omega
    have hlength : (stack.back 1).toNat ≤ maxMemorySize := hlength
    have hbytes : (stack.back 1).toNat * 8 < 2 ^ 63 := by
      unfold maxMemorySize at hlength
      omega
    exact ⟨_, bind_ok_iff.mpr ⟨_, uint64_ok hlength, bind_ok_iff.mpr ⟨_, hcost,
      bind_ok_iff.mpr ⟨_, safeAdd_ok (by omega), bind_ok_iff.mpr ⟨_,
        safeAdd_ok (by omega), bind_ok_iff.mpr ⟨_, addGas_ok (by omega) hbytes, rfl⟩⟩⟩⟩⟩⟩
  | CALLDATACOPY | CODECOPY | RETURNDATACOPY =>
    obtain ⟨gas, -, hgas⟩ := memoryCopierGas_ok hcost hfee hlength
    exact ⟨gas, hgas⟩
  | EXTCODECOPY =>
    obtain ⟨gas, hlt, hgas⟩ := memoryCopierGas_ok hcost hfee hlength
    cases cold with
    | false => exact ⟨gas, bind_ok_iff.mpr ⟨_, hgas, rfl⟩⟩
    | true =>
      exact ⟨_, bind_ok_iff.mpr ⟨_, hgas, bind_ok_iff.mpr ⟨_, safeAdd_ok (by omega),
        rfl⟩⟩⟩

theorem dynamicGas_error (cold : Bool) {p : Nat × Memory}
    (hcost : memoryGasCost mem size = .error .gasUintOverflow) :
    op.dynamicGas cold stack mem size ≠ .ok p := by
  have hcopy : ∀ pos q, memoryCopierGas pos stack mem size ≠ .ok q := by
    intro pos q h
    obtain ⟨_, h, -⟩ := bind_ok h
    rw [hcost] at h
    cases h
  intro h
  cases op with
  | MLOAD | MSTORE | MSTORE8 | RETURN | REVERT =>
    exact absurd (hcost.symm.trans h) (by simp)
  | SHA3 =>
    obtain ⟨_, h, -⟩ := bind_ok h
    exact absurd (hcost.symm.trans h) (by simp)
  | LOG n =>
    obtain ⟨_, -, h⟩ := bind_ok h
    obtain ⟨_, h, -⟩ := bind_ok h
    exact absurd (hcost.symm.trans h) (by simp)
  | CALLDATACOPY | CODECOPY | RETURNDATACOPY => exact hcopy 2 p h
  | EXTCODECOPY =>
    obtain ⟨q, h, -⟩ := bind_ok h
    exact hcopy 3 q h

end MemOp

section Round
variable {op : MemOp} {s : EvmScope} {stack : Stack}

theorem evmRound_eq (hpaid : s.memory.Paid) (h : needed (op.span stack) ≤ maxMemorySize) :
    evmRound op s stack =
      op.execute { s with memory := s.memory.grown (needed (op.span stack)) } stack := by
  have hcost := Memory.memoryGasCost_eq hpaid (wordsFor_le h)
  rw [Memory.newFee_words, Memory.grown_words] at hcost
  have hfee : s.memory.newFee (needed (op.span stack)) < 2 ^ 62 :=
    Nat.lt_of_le_of_lt (Nat.sub_le _ _) (memoryFee_lt h)
  have hlength : (op.span stack).2 ≤ maxMemorySize := by
    unfold needed at h
    split at h <;> omega
  obtain ⟨gas, hgas⟩ := MemOp.dynamicGas_ok s.coldAccount hcost hfee hlength
  have hexpand : op.expand s stack = .ok (s.memory.grown (needed (op.span stack))) := by
    refine bind_ok_iff.mpr ⟨_, MemOp.expandedSize_eq h, ?_⟩
    rw [hgas]
    exact congrArg Except.ok (Memory.resize_noted _ _)
  unfold evmRound
  rw [hexpand]

theorem evmRound_large (h : maxMemorySize < needed (op.span stack)) :
    ∃ e, evmRound op s stack = .ok { memory := s.memory, err := some e } ∧
      (e = .gasUintOverflow ∨ e = .outOfGas) := by
  have hexpand : ∃ e, op.expand s stack = .error e ∧ (e = .gasUintOverflow ∨ e = .outOfGas) := by
    cases hsize : op.expandedSize stack with
    | error e =>
      refine ⟨e, by unfold MemOp.expand; rw [hsize]; rfl, .inl ?_⟩
      unfold MemOp.expandedSize at hsize
      cases hmem : orOverflow (op.memorySize stack) with
      | error e' =>
        rw [hmem] at hsize
        obtain rfl : e' = e := Except.error.inj hsize
        exact orOverflow_error hmem
      | ok k =>
        rw [hmem] at hsize
        exact orOverflow_error hsize
    | ok k =>
      have hlarge := MemOp.expandedSize_large h hsize
      have hcost := Memory.memoryGasCost_of_lt (m := s.memory) hlarge
      refine ⟨.outOfGas, ?_, .inr rfl⟩
      unfold MemOp.expand
      rw [hsize]
      show (match op.dynamicGas s.coldAccount stack s.memory k with
        | .error _ => _
        | .ok (_, mem) => _) = _
      split
      · rfl
      · next hgas => exact absurd hgas (MemOp.dynamicGas_error _ hcost)
  obtain ⟨e, he, hcases⟩ := hexpand
  refine ⟨e, ?_, hcases⟩
  unfold evmRound
  rw [he]

theorem evmMemoryFee_eq (hpaid : s.memory.Paid) (h : needed (op.span stack) ≤ maxMemorySize) :
    evmMemoryFee op s stack = .ok (s.memory.newFee (needed (op.span stack))) := by
  have hcost := Memory.memoryGasCost_eq hpaid (wordsFor_le h)
  rw [Memory.newFee_words] at hcost
  exact bind_ok_iff.mpr ⟨_, MemOp.expandedSize_eq h, bind_ok_iff.mpr ⟨_, hcost, rfl⟩⟩

end Round
end EtherVal.Vm
