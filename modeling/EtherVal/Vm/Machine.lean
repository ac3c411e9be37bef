import EtherVal.TacParser.Program
import EtherVal.Vm.Memory

/-!
# State of the TAC interpreter (`core/vm/tac_context.go`, `tac_interpreter.go`)

The record `Host` stands for what lies behind the interfaces the interpreter calls: the
state database, the block context, Keccak-256 and the calls back into the EVM.
-/

namespace EtherVal.Vm
open EtherVal.Lib EtherVal.TacParser

/-- The part of `research.EVMCallTrace` the interpreter reads or writes. -/
structure EVMCallTrace where
  callee : Address
  depth : Int
  leftOverGas : Nat
  refundGas : Nat
  err : Option VmError
  gasInstRet : List Nat
  sha3HashToIndex : GoMap Word Nat
  sha3IndexToHash : GoMap Nat Word
  sha3IndexList : List Nat
  deriving Inhabited

def EVMCallTrace.addGasInstRet (ct : EVMCallTrace) (gas : Nat) : EVMCallTrace :=
  { ct with gasInstRet := ct.gasInstRet ++ [gas] }

def EVMCallTrace.addSHA3InstRet (ct : EVMCallTrace) (h : Word) : EVMCallTrace :=
  match ct.sha3HashToIndex[h]? with
  | some i => { ct with sha3IndexList := ct.sha3IndexList ++ [i] }
  | none =>
    let i := ct.sha3HashToIndex.size
    { ct with sha3HashToIndex := ct.sha3HashToIndex.insert h i,
              sha3IndexToHash := ct.sha3IndexToHash.insert i h,
              sha3IndexList := ct.sha3IndexList ++ [i] }

structure EVMEventTrace where
  topics : List Word
  data : Bytes
  deriving DecidableEq

/-- An entry `address,location,value` of the SSTORE trace. -/
structure SstoreEntry where
  address : Address
  loc : Word
  val : Word
  deriving DecidableEq

structure EVMTrace where
  sstoreCount : Nat
  sstoreTrace : List SstoreEntry
  eventTraces : List EVMEventTrace
  callTraces : List EVMCallTrace
  deriving Inhabited

structure TACStats where
  tacMaxInstCount : Int := 0
  tacInstCount : Int := 0
  tacStopCount : Nat := 0
  tacFallthroughStopCount : Nat := 0
  tacJumpCount : Nat := 0
  tacFallthroughJumpCount : Nat := 0
  tacAmbiguousJumpCount : Nat := 0
  tacThrowCount : Nat := 0
  tacFallthroughThrowCount : Nat := 0
  tacConstCount : Nat := 0
  tacReorderConstCount : Nat := 0
  tacPhiCount : Nat := 0
  tacReorderPhiCount : Nat := 0
  tacAmbiguousPhiCount : Nat := 0
  tacAmbiguousPhiChoiceCount : Nat := 0
  tacDeviation : GoString := []
  deriving Inhabited

structure DeltaSemantics where
  maxGas : Nat
  recordedTrace : EVMTrace
  substrateTrace : EVMTrace
  allocCount : Int := 0
  usedEVM : Bool := false
  substrateErr : Option VmError := none
  stats : TACStats := {}
  deriving Inhabited

structure Contract where
  callerAddress : Address
  address : Address
  code : Bytes
  input : Bytes
  gas : Nat
  value : Word
  deriving Inhabited

structure TACFrame where
  prog : TACProgram
  memory : Memory
  contract : Contract
  reverts : Bool := false
  halts : Bool := false
  recCallTrace : EVMCallTrace
  /-- position of the frame's trace in `SubstrateTrace.CallTraces` -/
  subCallTrace : Nat
  deriving Inhabited

inductive InterpreterKind where
  | evm | substrate | tac
  deriving DecidableEq, Repr, Inhabited

structure EVMConfig where
  origin : Address
  gasPrice : Nat
  coinbase : Address
  time : Nat
  blockNumber : Nat
  difficulty : Nat
  gasLimit : Nat
  chainID : Nat
  isEIP150 : Bool
  isHomestead : Bool
  isolationIndex : Nat
  evmTrace : Option EVMTrace
  enablePreimageRecording : Bool
  deriving Inhabited

/-- `TACInterpreter` together with the parts of the EVM object it uses. -/
structure TACInterpreter (σ : Type) where
  config : EVMConfig
  stateDB : σ
  evmAbort : Bool := false
  interpreter : InterpreterKind := .tac
  readOnly : Bool := false
  returnData : Bytes := []
  /- the current frame comes first -/
  frames : List TACFrame := []
  abort : Int := 0
  delta : DeltaSemantics
  deviationCheck : Bool := false
  deriving Inhabited

inductive ExternalCall where
  | call (addr : Address) (args : Bytes) (gas : Nat) (value : Word)
  | callCode (addr : Address) (args : Bytes) (gas : Nat) (value : Word)
  | delegateCall (addr : Address) (args : Bytes) (gas : Nat)
  | staticCall (addr : Address) (args : Bytes) (gas : Nat)
  | create (input : Bytes) (gas : Nat) (value : Word)
  | create2 (input : Bytes) (gas : Nat) (value salt : Word)

structure CallResult where
  ret : Bytes
  addr : Address
  leftOverGas : Nat
  err : Option VmError

structure Log where
  address : Address
  topics : List Word
  data : Bytes
  blockNumber : Nat

/-- What the interpreter calls: `vm.StateDB`, the block hash function, Keccak-256 and the
EVM.  A call may run code that uses the same interpreter object.  `timerFired` tells at the head
of a round whether the timer of `Run` has gone off by then. -/
structure Host (σ : Type) where
  getBalance : Address → σ → Word × σ
  getCode : Address → σ → Bytes × σ
  getCodeSize : Address → σ → Nat × σ
  getCodeHash : Address → σ → Word × σ
  empty : Address → σ → Bool × σ
  getState : Address → Word → σ → Word × σ
  setState : Address → Word → Word → σ → σ
  addBalance : Address → Word → σ → σ
  selfDestruct : Address → σ → σ
  addLog : Log → σ → σ
  addPreimage : Word → Bytes → σ → σ
  researchPreAlloc : σ → List Address
  getHash : Nat → σ → Word × σ
  keccak256 : Bytes → Word
  external : ExternalCall → TACInterpreter σ →
    Except (GoPanic × TACInterpreter σ) (CallResult × TACInterpreter σ)
  timerFired : TACInterpreter σ → Bool := fun _ => false
  deriving Inhabited

@[ext] structure TACRegister where
  val : Word := 0
  cycle : Nat := 0
  deriving DecidableEq, Repr

/-- `TACContext`.  Of the caller's context the callee only writes the buffer for returned
values, so `prevReturnData` stands for `PrevContext`. -/
structure TACContext where
  registers : List TACRegister
  cycle : Nat := 0
  blockFlag : Int := -1
  functionStop : Bool := false
  function : TACFunction
  privateReturnData : List Word := []
  prevReturnData : Option (List Word) := none

def initRegisters : List (Nat × Word) → List TACRegister → Except GoPanic (List TACRegister)
  | [], regs => .ok regs
  | (id, v) :: rest, regs =>
    match regs[id]? with
    | none => .error .indexOutOfRange
    | some r => initRegisters rest (regs.set id { r with val := v })

def argRegisters (f : TACFunction) (args : Option (List Word)) :
    Except GoPanic (List TACRegister) :=
  let regs := List.replicate f.numVars {}
  if f.isPublic then .ok regs
  else match args with
    | some a => initRegisters (f.args.zip a) regs
    | none => if f.args.isEmpty then .ok regs else .error .nilDereference

def newContext (f : TACFunction) (args : Option (List Word)) : Except GoPanic TACContext :=
  if args.any (fun a => a.length ≠ f.args.length) then
    .error (.text "calling function with unmatched arguments".toList)
  else do
    let regs ← argRegisters f args
    let regs ← initRegisters (f.constSym.map fun sym => (sym.index, sym.value)) regs
    return { registers := regs, function := f }

structure Machine (σ : Type) where
  pc : Int
  engine : TACInterpreter σ
  ctx : TACContext

namespace Machine
variable {σ : Type}

def inst (m : Machine σ) (off : Int) : Except GoPanic Int := m.ctx.function.cell (m.pc + off)

def getVar (m : Machine σ) (idx : Int) : Except GoPanic Nat :=
  match idx with
  | .ofNat n => if n < m.ctx.registers.length then .ok n else .error .indexOutOfRange
  | .negSucc _ => .error .indexOutOfRange

def operand (m : Machine σ) (off : Int) : Except GoPanic Nat := do
  m.getVar (← m.inst off)

def reg (m : Machine σ) (r : Nat) : TACRegister := m.ctx.registers.getD r {}

def val (m : Machine σ) (r : Nat) : Word := (m.reg r).val

def setReg (m : Machine σ) (r : Nat) (x : TACRegister) : Machine σ :=
  { m with ctx := { m.ctx with registers := m.ctx.registers.set r x } }

/-- The setters of `TACRegister`: the value, stamped with the current cycle. -/
def assign (m : Machine σ) (r : Nat) (w : Word) : Machine σ := m.setReg r ⟨w, m.ctx.cycle⟩

def advance (m : Machine σ) (n : Int) : Machine σ := { m with pc := m.pc + n }

end Machine

/-- Why a computation has no result: a panic, with the state it happened in, or a private
call that goes deeper than the fuel of the model allows. -/
inductive Stop (σ : Type) where
  | panic (p : GoPanic) (m : Machine σ)
  | outOfFuel

abbrev Exec (σ α : Type) := StateT (Machine σ) (Except (Stop σ)) α

abbrev Ret := Bytes × Option VmError

namespace Exec
variable {σ α β : Type}

def panicWith (p : GoPanic) : Exec σ α := fun m => .error (.panic p m)

def read (g : Machine σ → Except GoPanic α) : Exec σ α := fun m =>
  match g m with
  | .ok a => .ok (a, m)
  | .error p => .error (.panic p m)

def done : Exec σ Ret := pure ([], none)

def fail (e : VmError) : Exec σ Ret := pure ([], some e)

def inst (off : Int) : Exec σ Int := read (·.inst off)

def operand (off : Int) : Exec σ Nat := read (·.operand off)

def val (r : Nat) : Exec σ Word := fun m => .ok (m.val r, m)

def assign (r : Nat) (w : Word) : Exec σ Unit := modify (·.assign r w)

def advance (n : Int) : Exec σ Unit := modify (·.advance n)

def modifyEngine (g : TACInterpreter σ → TACInterpreter σ) : Exec σ Unit :=
  modify fun m => { m with engine := g m.engine }

def modifyDelta (g : DeltaSemantics → DeltaSemantics) : Exec σ Unit :=
  modifyEngine fun e => { e with delta := g e.delta }

def modifyStats (g : TACStats → TACStats) : Exec σ Unit :=
  modifyDelta fun d => { d with stats := g d.stats }

def onlyIf (c : Bool) (x : Exec σ Unit) : Exec σ Unit := if c then x else pure ()

def countIf (c : Bool) (g : TACStats → TACStats) : Exec σ Unit := onlyIf c (modifyStats g)

def onState (g : σ → α × σ) : Exec σ α := fun m =>
  let (a, s) := g m.engine.stateDB
  .ok (a, { m with engine := { m.engine with stateDB := s } })

def getFrame : Exec σ TACFrame := read fun m =>
  match m.engine.frames with
  | frame :: _ => .ok frame
  | [] => .error .indexOutOfRange

def modifyFrame (g : TACFrame → TACFrame) : Exec σ Unit :=
  modifyEngine fun e =>
    { e with frames := match e.frames with
      | frame :: rest => g frame :: rest
      | [] => [] }

/-- A write through the frame's pointer into `SubstrateTrace.CallTraces`. -/
def modifySubCallTrace (g : EVMCallTrace → EVMCallTrace) : Exec σ Unit := do
  let frame ← getFrame
  modifyDelta fun d => { d with substrateTrace := { d.substrateTrace with
    callTraces := d.substrateTrace.callTraces.modify frame.subCallTrace g } }

def onMemory (g : Memory → MemResult α) : Exec σ (Except VmError α) := do
  let frame ← getFrame
  let (res, memory) ← read fun _ => g frame.memory
  modifyFrame fun frame => { frame with memory }
  return res

end Exec
end EtherVal.Vm
