import EtherVal.Vm.Instructions

/-!
# The interpreter loop (`tac_operations.go`, `tac_interpreter.go:374-467`)
-/

namespace EtherVal.Vm
open EtherVal.Lib EtherVal.TacParser

variable {σ : Type}

structure TACOperation where
  returns : Bool := false
  reverts : Bool := false
  halts : Bool := false

def operation : TACOp → TACOperation
  | .THROW | .STOP | .SELFDESTRUCT | .RETURN => { halts := true }
  | .REVERT => { returns := true, reverts := true }
  | .CREATE | .CREATE2 | .CALL | .CALLCODE | .DELEGATECALL | .STATICCALL => { returns := true }
  | _ => {}

/-- The function of each opcode; `PHI` and `PHI_END` are handled by `PHI_START` and have
none. -/
def execution (host : Host σ) (run : Runner σ) : TACOp → Exec σ Ret
  | .THROW => execThrow
  | .STOP => execStop
  | .ADDRESS => execAddress
  | .ORIGIN => execOrigin
  | .CALLER => execCaller
  | .CALLVALUE => execCallvalue
  | .CALLDATASIZE => execCalldatasize
  | .CODESIZE => execCodesize
  | .GASPRICE => execGasprice
  | .RETURNDATASIZE => execReturndatasize
  | .COINBASE => execCoinbase
  | .TIMESTAMP => execTimestamp
  | .NUMBER => execNumber
  | .DIFFICULTY => execDifficulty
  | .GASLIMIT => execGaslimit
  | .MSIZE => execMsize
  | .GAS => execGas
  | .CHAINID => execChainid
  | .SELFBALANCE => execSelfbalance host
  | .BLOCK_FLAG => execBlockFlag
  | .ISZERO => execIszero
  | .BALANCE => execBalance host
  | .CALLDATALOAD => execCalldataload
  | .EXTCODESIZE => execExtcodesize host
  | .EXTCODEHASH => execExtcodehash host
  | .BLOCKHASH => execBlockhash host
  | .MLOAD => execMload
  | .SLOAD => execSload host
  | .JUMP => execJump
  | .SELFDESTRUCT => execSelfdestruct host
  | .NOT => execNot
  | .PHI_START => execPhiStart
  | .CONST => execConst
  | .JUMP_VAR => execJumpVar
  | .ADD => execAdd
  | .MUL => execMul
  | .SUB => execSub
  | .DIV => execDiv
  | .SDIV => execSdiv
  | .MOD => execMod
  | .SMOD => execSmod
  | .ADDMOD => execAddmod
  | .MULMOD => execMulmod
  | .EXP => execExp
  | .SIGNEXTEND => execSignextend
  | .LT => execLt
  | .GT => execGt
  | .SLT => execSlt
  | .SGT => execSgt
  | .EQ => execEq
  | .AND => execAnd
  | .OR => execOr
  | .XOR => execXor
  | .BYTE => execByte
  | .SHL => execShl
  | .SHR => execShr
  | .SAR => execSar
  | .SHA3 => execSha3 host
  | .MSTORE => execMstore
  | .MSTORE8 => execMstore8
  | .SSTORE => execSstore host
  | .JUMPI => execJumpi
  | .REVERT => execRevert
  | .RETURN => execReturn
  | .LOG0 => makeTACLog host 0
  | .JUMPI_VAR => execJumpiVar
  | .CALLDATACOPY => execCalldatacopy
  | .CODECOPY => execCodecopy
  | .RETURNDATACOPY => execReturndatacopy
  | .LOG1 => makeTACLog host 1
  | .CREATE => execCreate host
  | .EXTCODECOPY => execExtcodecopy host
  | .LOG2 => makeTACLog host 2
  | .LOG3 => makeTACLog host 3
  | .CREATE2 => execCreate2 host
  | .LOG4 => makeTACLog host 4
  | .DELEGATECALL => execDelegatecall host
  | .STATICCALL => execStaticcall host
  | .CALL => execCall host
  | .CALLCODE => execCallcode host
  | .CALLPRIVATE => execCallprivate run
  | .RETURNPRIVATE => execReturnprivate
  | .ILLPHI => execIllphi
  | .PHI | .PHI_END => Exec.panicWith .nilDereference

def callTreeLength (recTraces : List EVMCallTrace) (currIdx : Nat) (depth : Int) : Nat :=
  currIdx + 1 + ((recTraces.drop (currIdx + 1)).takeWhile (fun ct => depth < ct.depth)).length

def DeltaSemantics.checkOutOfGas (delta : DeltaSemantics) (currIdx : Nat) : Except GoPanic Bool :=
  let rec' := delta.recordedTrace
  let sub := delta.substrateTrace
  if rec'.callTraces.length < sub.callTraces.length then .ok false
  else match rec'.callTraces[currIdx]?, sub.callTraces[currIdx]? with
    | some recCt, some subCt =>
      if recCt.depth ≠ subCt.depth then .ok false
      else if !recCt.err.any (fun e => e.text = VmError.outOfGas.text) then .ok false
      else if sub.callTraces.length ≠ callTreeLength rec'.callTraces currIdx subCt.depth then
        .ok false
      else if rec'.sstoreCount ≤ sub.sstoreCount ∧ rec'.eventTraces.length ≤ sub.eventTraces.length
      then
        if subCt.sha3HashToIndex.size < recCt.sha3HashToIndex.size then .ok false
        else .ok (recCt.sha3HashToIndex.keys.all fun h => decide (h ∈ subCt.sha3HashToIndex))
      else .ok false
    | _, _ => .error .indexOutOfRange

def tacNoAbort : Int := 0
def tacAbortTimeout : Int := 1
def tacAbortOutOfGas : Int := 2

def checkOutOfGas (host : Host σ) (e : TACInterpreter σ) :
    Except GoPanic (Bool × TACInterpreter σ) := do
  let preAlloc := host.researchPreAlloc e.stateDB
  let count : Int := if e.config.coinbase ∈ preAlloc then preAlloc.length - 1 else preAlloc.length
  let e := { e with delta := { e.delta with allocCount := count } }
  if ← e.delta.checkOutOfGas e.config.isolationIndex then
    return (true, { e with abort := tacAbortOutOfGas })
  else return (false, e)

structure LoopState (σ : Type) where
  machine : Machine σ
  res : Bytes := []
  err : Option VmError := none

inductive Round (σ : Type) where
  | next (s : LoopState σ)
  | returned (ret : Ret) (m : Machine σ)

/-- The limit on the number of instructions, and the timer.  What the timer's branch of the
`select` in `Run` stores is read here first, at the next head of a loop, whichever frame and
function that is in. -/
def timedOut (host : Host σ) (e : TACInterpreter σ) : Bool :=
  host.timerFired e ||
    decide (0 < e.delta.stats.tacMaxInstCount ∧
      e.delta.stats.tacMaxInstCount ≤ e.delta.stats.tacInstCount)

def noteTimeout (host : Host σ) (e : TACInterpreter σ) : TACInterpreter σ :=
  if timedOut host e then
    { e with delta := { e.delta with substrateErr := some .tacTimeout },
             abort := tacAbortTimeout, evmAbort := true }
  else e

def abortResult (abort : Int) : VmError :=
  if abort = tacAbortTimeout then .tacTimeout
  else if abort = tacAbortOutOfGas then .outOfGas
  else .other ("unexpected abort value (" ++ toString abort ++ ")").toList

/-- The checks at the head of a round: `some` result ends the function. -/
def roundHead (host : Host σ) (s : LoopState σ) :
    Except (Stop σ) (Option Ret × LoopState σ) :=
  let m := s.machine
  match checkOutOfGas host m.engine with
  | .error p => .error (.panic p m)
  | .ok (outOfGas, e) =>
    let err := if timedOut host e then some VmError.tacTimeout
      else if outOfGas then some VmError.outOfGas else s.err
    let e := noteTimeout host e
    let m := { m with engine := e }
    let s := { s with machine := m, err }
    if e.abort ≠ tacNoAbort then .ok (some ([], some (abortResult e.abort)), s)
    else if e.evmAbort then .ok (some ([], some (e.delta.substrateErr.getD .stopToken)), s)
    else if e.deviationCheck ∧ err = none ∧ e.delta.stats.tacDeviation ≠ [] then
      .error (.panic (.text e.delta.stats.tacDeviation) m)
    else .ok (none, s)

def increaseCycle (m : Machine σ) : Machine σ :=
  { m with ctx := { m.ctx with cycle := (m.ctx.cycle + 1) % uint64Mod } }

def setReturnData (op : TACOperation) (res : Bytes) (m : Machine σ) : Machine σ :=
  if op.returns then { m with engine := { m.engine with returnData := res } } else m

def TACFrame.mark (op : TACOperation) (frame : TACFrame) : TACFrame :=
  if op.reverts then { frame with reverts := true }
  else if op.halts then { frame with halts := true } else frame

def roundTail (op : TACOperation) (ret : Ret) (m : Machine σ) : Except (Stop σ) (Round σ) :=
  let m := setReturnData op ret.1 (increaseCycle m)
  match m.engine.frames with
  | [] => .error (.panic .indexOutOfRange m)
  | frame :: rest =>
    if m.ctx.functionStop then .ok (.returned ret m)
    else if ret.2.isSome then .ok (.returned ([], ret.2) m)
    else
      let frame := frame.mark op
      let m := { m with engine := { m.engine with frames := frame :: rest } }
      if frame.reverts then .ok (.returned (ret.1, some .executionReverted) m)
      else if frame.halts then .ok (.returned (ret.1, none) m)
      else .ok (.next ⟨m, ret.1, ret.2⟩)

def fetch (m : Machine σ) : Except GoPanic TACOp := do
  match TACOp.ofCode (← m.inst 0) with
  | some op => return op
  | none => .error .nilDereference

def countInst : Exec σ Unit :=
  Exec.modifyStats fun st => { st with tacInstCount := st.tacInstCount + 1 }

def round (host : Host σ) (run : Runner σ) (s : LoopState σ) : Except (Stop σ) (Round σ) := do
  let (stopped, s) ← roundHead host s
  match stopped with
  | some ret => return .returned ret s.machine
  | none =>
    let (_, m) ← countInst s.machine
    let (op, m) ← Exec.read fetch m
    let (ret, m) ← execution host run op m
    roundTail (operation op) ret m

/-- `execute_func` from the state `s` of its loop on.  Fuel bounds the number of rounds and
the depth of private calls together. -/
def executeFrom (host : Host σ) : Nat → LoopState σ → Except (Stop σ) (Ret × Machine σ)
  | 0, _ => .error .outOfFuel
  | fuel + 1, s =>
    if s.machine.pc < s.machine.ctx.function.insts.length then do
      let run : Runner σ := fun ctx engine => executeFrom host fuel ⟨⟨0, engine, ctx⟩, [], none⟩
      match ← round host run s with
      | .returned ret m => return (ret, m)
      | .next s' => executeFrom host fuel s'
    else return ((s.res, s.err), s.machine)

def startLoop (ctx : TACContext) (engine : TACInterpreter σ) : LoopState σ :=
  ⟨⟨0, engine, ctx⟩, [], none⟩

def executeFunc (host : Host σ) (fuel : Nat) : Runner σ := fun ctx engine =>
  executeFrom host fuel (startLoop ctx engine)

def Step (host : Host σ) (s s' : LoopState σ) : Prop :=
  s.machine.pc < s.machine.ctx.function.insts.length ∧
    ∃ fuel, round host (executeFunc host fuel) s = .ok (.next s')

end EtherVal.Vm
