import EtherVal.Vm.Machine

/-!
# The instructions of the TAC interpreter (`core/vm/tac_interpreter.go:467-2007`)

Instructions that differ only in the operation are members of one family.  The constants
`TACUseGasTrace`, `TACPhiPolicy`, `TACDenyAmbiJump` and `checkEMI` have their values of the
source; the branches they switch off are not modelled.
-/

namespace EtherVal.Vm
open EtherVal.Lib EtherVal.TacParser Exec
open Uint256 (ofAddress setUint64 isZero bytes20 uint64WithOverflow setBytes uint64)

variable {σ : Type}

def getFuncBlockNames (ctx : TACContext) : GoString :=
  let fname := ctx.function.name.takeWhile (fun c => c ≠ ',' && c ≠ '(')
  let isBlank := fun c : Char => c.isWhitespace
  let trimmed := ((fname.dropWhile isBlank).reverse.dropWhile isBlank).reverse
  "func ".toList ++ trimmed ++ " block ".toList ++
    (ctx.function.blockByIndex[ctx.blockFlag]?.getD [])

def errInvalidJump : Exec σ VmError := do
  let frame ← getFrame
  return if frame.recCallTrace.err.any (fun e => e.text = VmError.invalidJump.text)
    then .invalidJump else .tacIllJump

def setDeviation (what : String) : Exec σ Unit := do
  let m ← get
  modifyStats fun s => { s with
    tacDeviation := "Deviated in ".toList ++ what.toList ++ " at ".toList ++
      getFuncBlockNames m.ctx }

/-- A deviation check made when a trace to compare with is configured. -/
def checkDeviation (what : String) (check : EVMTrace → EVMTrace → Except GoPanic Bool) :
    Exec σ Unit := do
  let m ← get
  match m.engine.config.evmTrace with
  | none => pure ()
  | some evmTrace =>
    let deviates ← read fun m => check evmTrace m.engine.delta.substrateTrace
    onlyIf deviates (setDeviation what)

def sstoreDeviates (entry : SstoreEntry) (evmTrace intrTrace : EVMTrace) : Except GoPanic Bool :=
  if evmTrace.sstoreCount ≤ intrTrace.sstoreCount then .ok true
  else match evmTrace.sstoreTrace[intrTrace.sstoreCount]? with
    | none => .error .indexOutOfRange
    | some recorded => .ok (entry ≠ recorded)

/-- `checkLogDeviation`; the recorded event is looked up before the lengths are compared. -/
def logDeviates (topics : List Word) (data : Bytes) (evmTrace intrTrace : EVMTrace) :
    Except GoPanic Bool :=
  match evmTrace.eventTraces[intrTrace.eventTraces.length]? with
  | none => .error .indexOutOfRange
  | some evmLog => .ok (topics ≠ evmLog.topics || data ≠ evmLog.data)

/-- `checkCallDeviation`; only the callee is compared. -/
def callDeviates (callee : Address) (evmTrace intrTrace : EVMTrace) : Except GoPanic Bool :=
  match evmTrace.callTraces[intrTrace.callTraces.length]? with
  | none => .error .indexOutOfRange
  | some evmCall => .ok (evmCall.callee ≠ callee)

/-- `checkSHA3Deviation` with `CHECK_SHA3_ORDER` off. -/
def sha3Deviates (isoIndex : Nat) (hash : Word) (evmTrace intrTrace : EVMTrace) :
    Except GoPanic Bool :=
  match evmTrace.callTraces[isoIndex]?, intrTrace.callTraces[isoIndex]? with
  | some evmCt, some intrCt =>
    if hash ∈ intrCt.sha3HashToIndex then .ok false
    else .ok (decide (hash ∉ evmCt.sha3HashToIndex))
  | _, _ => .error .indexOutOfRange

def execRead (src : Exec σ Word) : Exec σ Ret := do
  let w ← src
  let d ← operand 1
  assign d w
  advance 2
  done

def execUnary (g : Word → Exec σ Word) : Exec σ Ret := do
  let d ← operand 1
  let a ← operand 2
  let w ← g (← val a)
  assign d w
  advance 3
  done

def execBinary (g : Word → Word → Word) : Exec σ Ret := do
  let d ← operand 1
  let a ← operand 2
  let b ← operand 3
  assign d (g (← val a) (← val b))
  advance 4
  done

def execTernary (g : Word → Word → Word → Word) : Exec σ Ret := do
  let d ← operand 1
  let a ← operand 2
  let b ← operand 3
  let c ← operand 4
  assign d (g (← val a) (← val b) (← val c))
  advance 5
  done

def execThrow : Exec σ Ret := do
  let m ← get
  modifyStats fun s => { s with tacThrowCount := s.tacThrowCount + 1 }
  countIf (m.ctx.function.fallthroughThrowAddr[m.pc]?.getD false) fun s =>
    { s with tacFallthroughThrowCount := s.tacFallthroughThrowCount + 1 }
  fail .tacThrow

def execStop : Exec σ Ret := do
  let m ← get
  modifyStats fun s => { s with tacStopCount := s.tacStopCount + 1 }
  countIf (m.ctx.function.fallthroughStopAddr[m.pc]?.getD false) fun s =>
    { s with tacFallthroughStopCount := s.tacFallthroughStopCount + 1 }
  done

def fromFrame (g : TACFrame → Word) : Exec σ Word := do return g (← getFrame)

def fromConfig (g : EVMConfig → Word) : Exec σ Word := do return g (← get).engine.config

def execAddress : Exec σ Ret := execRead (fromFrame fun f => ofAddress f.contract.address)
def execOrigin : Exec σ Ret := execRead (fromConfig fun c => ofAddress c.origin)
def execCaller : Exec σ Ret :=
  execRead (fromFrame fun f => ofAddress f.contract.callerAddress)
def execCallvalue : Exec σ Ret := execRead (fromFrame fun f => f.contract.value)
def execCalldatasize : Exec σ Ret :=
  execRead (fromFrame fun f => setUint64 f.contract.input.length)
def execCodesize : Exec σ Ret :=
  execRead (fromFrame fun f => setUint64 f.contract.code.length)
def execGasprice : Exec σ Ret := execRead (fromConfig fun c => BitVec.ofNat 256 c.gasPrice)
def execReturndatasize : Exec σ Ret :=
  execRead (do return setUint64 (← get).engine.returnData.length)
def execCoinbase : Exec σ Ret := execRead (fromConfig fun c => ofAddress c.coinbase)
def execTimestamp : Exec σ Ret := execRead (fromConfig fun c => setUint64 c.time)
def execNumber : Exec σ Ret := execRead (fromConfig fun c => BitVec.ofNat 256 c.blockNumber)
def execDifficulty : Exec σ Ret := execRead (fromConfig fun c => BitVec.ofNat 256 c.difficulty)
def execGaslimit : Exec σ Ret := execRead (fromConfig fun c => setUint64 c.gasLimit)
def execMsize : Exec σ Ret := execRead (fromFrame fun f => setUint64 f.memory.len)
def execChainid : Exec σ Ret := execRead (fromConfig fun c => BitVec.ofNat 256 c.chainID)
def execSelfbalance (host : Host σ) : Exec σ Ret :=
  execRead (do onState (host.getBalance (← getFrame).contract.address))

/-- `exec_gas` replays the recorded values in order. -/
def execGas : Exec σ Ret := do
  let d ← operand 1
  let frame ← getFrame
  let done' := (← get).engine.delta.substrateTrace.callTraces[frame.subCallTrace]?.map
    (·.gasInstRet)
  match frame.recCallTrace.gasInstRet[(done'.getD []).length]? with
  | none => fail .tacNoGasTrace
  | some gas =>
    modifySubCallTrace (·.addGasInstRet gas)
    assign d (setUint64 gas)
    advance 2
    done

def boolWord (b : Bool) : Word := if b then Uint256.setOne else Uint256.clear

def execIszero : Exec σ Ret := execUnary fun x => pure (boolWord (isZero x))

def execBalance (host : Host σ) : Exec σ Ret :=
  execUnary fun x => onState (host.getBalance (bytes20 x))

def execCalldataload : Exec σ Ret := do
  let d ← operand 1
  let a ← operand 2
  let (offset, overflow) := uint64WithOverflow (← val a)
  if overflow then
    assign d Uint256.clear
    advance 3
    done
  else
    let frame ← getFrame
    let m ← get
    match ← read fun _ => extGetData frame.contract.input offset 32 m.engine.delta.maxGas with
    | .error e => fail e
    | .ok data =>
      assign d (setBytes data)
      advance 3
      done

def execExtcodesize (host : Host σ) : Exec σ Ret :=
  execUnary fun x => do
    return setUint64 (← onState (host.getCodeSize (bytes20 x)))

def execExtcodehash (host : Host σ) : Exec σ Ret :=
  execUnary fun x => do
    if ← onState (host.empty (bytes20 x)) then return Uint256.clear
    else onState (host.getCodeHash (bytes20 x))

def execBlockhash (host : Host σ) : Exec σ Ret :=
  execUnary fun x => do
    let (num64, overflow) := uint64WithOverflow x
    let upper := (← get).engine.config.blockNumber % uint64Mod
    let lower := if upper < 257 then 0 else upper - 256
    if overflow then return Uint256.clear
    else if lower ≤ num64 ∧ num64 < upper then onState (host.getHash num64)
    else return Uint256.clear

def execMload : Exec σ Ret := do
  let d ← operand 1
  let a ← operand 2
  let offset := toInt64 (uint64 (← val a))
  let m ← get
  match ← onMemory (·.extGetPtr offset 32 m.engine.delta.maxGas) with
  | .error e => fail e
  | .ok data =>
    assign d (setBytes data)
    advance 3
    done

def execSload (host : Host σ) : Exec σ Ret :=
  execUnary fun x => do onState (host.getState (← getFrame).contract.address x)

def execNot : Exec σ Ret := do
  let d ← operand 1
  let a ← operand 2
  modify fun m => m.setReg d { m.reg d with val := ~~~(m.val a) }
  advance 3
  done

def execAdd : Exec σ Ret := execBinary (· + ·)
def execMul : Exec σ Ret := execBinary (· * ·)
def execSub : Exec σ Ret := execBinary (· - ·)
def execDiv : Exec σ Ret := execBinary Uint256.div
def execSdiv : Exec σ Ret := execBinary Uint256.sdiv
def execMod : Exec σ Ret := execBinary Uint256.mod
def execSmod : Exec σ Ret := execBinary Uint256.smod
def execAddmod : Exec σ Ret := execTernary fun x y z =>
  if isZero z then Uint256.clear else Uint256.addMod x y z
def execMulmod : Exec σ Ret := execTernary fun x y z =>
  if isZero z then Uint256.clear else Uint256.mulMod x y z
def execExp : Exec σ Ret := execBinary Uint256.exp
def execSignextend : Exec σ Ret := execBinary fun back num => Uint256.extendSign num back
def execLt : Exec σ Ret := execBinary fun x y => boolWord (Uint256.lt x y)
def execGt : Exec σ Ret := execBinary fun x y => boolWord (Uint256.gt x y)
def execSlt : Exec σ Ret := execBinary fun x y => boolWord (Uint256.slt x y)
def execSgt : Exec σ Ret := execBinary fun x y => boolWord (Uint256.sgt x y)
def execEq : Exec σ Ret := execBinary fun x y => boolWord (Uint256.eq x y)
def execAnd : Exec σ Ret := execBinary (· &&& ·)
def execOr : Exec σ Ret := execBinary (· ||| ·)
def execXor : Exec σ Ret := execBinary (· ^^^ ·)
def execByte : Exec σ Ret := execBinary fun th x => Uint256.byte x th
def execShl : Exec σ Ret := execBinary fun shift value =>
  if Uint256.ltUint64 shift 256 then Uint256.lsh value (uint64 shift) else Uint256.clear
def execShr : Exec σ Ret := execBinary fun shift value =>
  if Uint256.ltUint64 shift 256 then Uint256.rsh value (uint64 shift) else Uint256.clear

def execSar : Exec σ Ret := execBinary fun shift value =>
  if Uint256.gtUint64 shift 256 then
    if 0 < Uint256.sign value then Uint256.clear else Uint256.setAllOne
  else Uint256.srsh value (uint64 shift)

def countJump : Exec σ Unit := do
  let m ← get
  modifyStats fun s => { s with tacJumpCount := s.tacJumpCount + 1 }
  countIf (m.ctx.function.fallthroughJumpAddr[m.pc]?.getD false) fun s =>
    { s with tacFallthroughJumpCount := s.tacFallthroughJumpCount + 1 }
  countIf (m.ctx.function.ambiguousJumpAddr[m.pc]?.getD false) fun s =>
    { s with tacAmbiguousJumpCount := s.tacAmbiguousJumpCount + 1 }

def jumpTo (addr : Int) : Exec σ Ret := do
  modify fun m => { m with pc := addr }
  done

def execJump : Exec σ Ret := do
  countJump
  let target ← inst 1
  if target = -1 then fail (← errInvalidJump) else jumpTo target

def execJumpi : Exec σ Ret := do
  countJump
  let target ← inst 1
  let cond ← operand 2
  if isZero (← val cond) then
    advance 3
    done
  else if target = -1 then fail (← errInvalidJump)
  else jumpTo target

/-- The first of the names with the base address of `addr`; `EqualBaseAddr` may panic. -/
def findSuccessor (addr : GoString) : List GoString → Except GoPanic (Option GoString)
  | [] => .ok none
  | name :: rest => do
    if ← equalBaseAddr addr name then return some name else findSuccessor addr rest

/-- The lookup of `exec_jump_var` and `exec_jumpi_var`: first among the names noted for this
instruction, whose position is looked up by name, then among the unique base addresses. -/
def jumpToValue (v : Word) : Exec σ Ret := do
  let m ← get
  let function := m.ctx.function
  let baseAddr := Uint256.hex v
  match ← read fun _ => findSuccessor baseAddr (function.uniqueJumpVarSucc[m.pc]?.getD []) with
  | some name => jumpTo (function.blockByName[name]?.getD 0)
  | none =>
    match function.uniqueBlockAddr[baseAddr]? with
    | some addr => jumpTo addr
    | none => fail (← errInvalidJump)

def execJumpVar : Exec σ Ret := do
  countJump
  let target ← operand 1
  jumpToValue (← val target)

def execJumpiVar : Exec σ Ret := do
  countJump
  let target ← operand 1
  let cond ← operand 2
  if isZero (← val cond) then
    advance 3
    done
  else jumpToValue (← val target)

def memoryRange (offset length : Nat) : Exec σ (Except VmError Bytes) := do
  let o := toInt64 (uint64 (← val offset))
  let n := toInt64 (uint64 (← val length))
  let m ← get
  onMemory (·.extGetPtr o n m.engine.delta.maxGas)

def execSha3 (host : Host σ) : Exec σ Ret := do
  let d ← operand 1
  let offset ← operand 2
  let length ← operand 3
  match ← memoryRange offset length with
  | .error e => fail e
  | .ok data =>
    let hash := host.keccak256 data
    let m ← get
    onlyIf m.engine.config.enablePreimageRecording
      (onState fun s => ((), host.addPreimage hash data s))
    checkDeviation "SHA3" (sha3Deviates m.engine.config.isolationIndex hash)
    modifySubCallTrace (·.addSHA3InstRet hash)
    assign d hash
    advance 4
    done

def execMstore : Exec σ Ret := do
  let offset ← operand 1
  let value ← operand 2
  let o := uint64 (← val offset)
  let v ← val value
  let m ← get
  match ← onMemory (·.extSet32 o v m.engine.delta.maxGas) with
  | .error e => fail e
  | .ok _ =>
    advance 3
    done

def execMstore8 : Exec σ Ret := do
  let offset ← operand 1
  let value ← operand 2
  let o := uint64 (← val offset)
  let v := UInt8.ofNat (uint64 (← val value))
  let m ← get
  match ← onMemory (·.extSet1 o v m.engine.delta.maxGas) with
  | .error e => fail e
  | .ok _ =>
    advance 3
    done

def execSstore (host : Host σ) : Exec σ Ret := do
  let loc ← operand 1
  let value ← operand 2
  let l ← val loc
  let v ← val value
  let address := (← getFrame).contract.address
  onState fun s => ((), host.setState address l v s)
  advance 3
  checkDeviation "SSTORE" (sstoreDeviates ⟨address, l, v⟩)
  modifyDelta fun d => { d with substrateTrace := { d.substrateTrace with
    sstoreTrace := d.substrateTrace.sstoreTrace ++ [⟨address, l, v⟩],
    sstoreCount := d.substrateTrace.sstoreCount + 1 } }
  done

def execRevert : Exec σ Ret := do
  let offset ← operand 1
  let value ← operand 2
  match ← memoryRange offset value with
  | .error e => fail e
  | .ok ret => return (ret, some .executionReverted)

def execReturn : Exec σ Ret := do
  let offset ← operand 1
  let value ← operand 2
  match ← memoryRange offset value with
  | .error e => fail e
  | .ok ret => return (ret, none)

def execCopy (first size : Int) (source : Exec σ Bytes) : Exec σ Ret := do
  let destOffset ← operand first
  let srcOffset ← operand (first + 1)
  let length ← operand (first + 2)
  let (src64, overflow) := uint64WithOverflow (← val srcOffset)
  let src64 := if overflow then maxUint64 else src64
  let dest64 := uint64 (← val destOffset)
  let length64 := uint64 (← val length)
  let data ← source
  let m ← get
  match ← read fun _ => extGetData data src64 length64 m.engine.delta.maxGas with
  | .error e => fail e
  | .ok copied =>
    match ← onMemory (·.extSet dest64 length64 copied m.engine.delta.maxGas) with
    | .error e => fail e
    | .ok _ =>
      advance size
      done

def execCalldatacopy : Exec σ Ret := execCopy 1 4 (do return (← getFrame).contract.input)
def execCodecopy : Exec σ Ret := execCopy 1 4 (do return (← getFrame).contract.code)
def execExtcodecopy (host : Host σ) : Exec σ Ret :=
  execCopy 2 5 (do
    let a ← operand 1
    onState (host.getCode (bytes20 (← val a))))

def execReturndatacopy : Exec σ Ret := do
  let destOffset ← operand 1
  let srcOffset ← operand 2
  let length ← operand 3
  let (src64, overflow) := uint64WithOverflow (← val srcOffset)
  if overflow then fail .returnDataOutOfBounds
  else
    let (end64, overflow) := uint64WithOverflow ((← val srcOffset) + (← val length))
    let m ← get
    if overflow ∨ m.engine.returnData.length < end64 then fail .returnDataOutOfBounds
    else
      let dest64 := uint64 (← val destOffset)
      let length64 := uint64 (← val length)
      let data ← read fun m => slice m.engine.returnData src64 end64
      match ← onMemory (·.extSet dest64 length64 data m.engine.delta.maxGas) with
      | .error e => fail e
      | .ok _ =>
        advance 4
        done

def optionalValue (present : Bool) (off : Int) : Exec σ Word :=
  if present then do val (← operand off) else pure 0

def operandValues (first : Int) : Nat → Exec σ (List Word)
  | 0 => pure []
  | n + 1 => do
    let r ← operand first
    let w ← val r
    return w :: (← operandValues (first + 1) n)

def makeTACLog (host : Host σ) (size : Nat) : Exec σ Ret := do
  let offset ← operand 1
  let length ← operand 2
  advance 3
  let topics ← operandValues 0 size
  match ← memoryRange offset length with
  | .error e => fail e
  | .ok d =>
    onlyIf ((← get).engine.delta.stats.tacDeviation = [])
      (checkDeviation ("LOG" ++ toString size) (logDeviates topics d))
    modifyDelta fun delta => { delta with substrateTrace := { delta.substrateTrace with
      eventTraces := delta.substrateTrace.eventTraces ++ [⟨topics, d⟩] } }
    let address := (← getFrame).contract.address
    let blockNumber := (← get).engine.config.blockNumber % uint64Mod
    onState fun s => ((), host.addLog ⟨address, topics, d, blockNumber⟩ s)
    advance size
    done

def execSelfdestruct (host : Host σ) : Exec σ Ret := do
  let addr ← operand 1
  let address := (← getFrame).contract.address
  let balance ← onState (host.getBalance address)
  let beneficiary := bytes20 (← val addr)
  onState fun s => ((), host.addBalance beneficiary balance s)
  onState fun s => ((), host.selfDestruct address s)
  done

def execIllphi : Exec σ Ret := fail .tacIllPhiExec

def execBlockFlag : Exec σ Ret := do
  modify fun m => { m with ctx := { m.ctx with blockFlag := m.pc } }
  advance 1
  done

/-- `exec_const` only stamps the register; the value was set with the context. -/
def execConst : Exec σ Ret := do
  let m ← get
  modifyStats fun s => { s with tacConstCount := s.tacConstCount + 1 }
  countIf (m.ctx.function.reorderConstAddr[m.pc]?.getD false) fun s =>
    { s with tacReorderConstCount := s.tacReorderConstCount + 1 }
  let c ← operand 1
  modify fun m => m.setReg c { m.reg c with cycle := m.ctx.cycle }
  advance 2
  done

/-- The choice with the greatest stamp among `recent` and the next `n` choices from cell `j`
on; the first one of several. -/
def selectRecent : Int → Nat → Nat → Exec σ Nat
  | _, 0, recent => pure recent
  | j, n + 1, recent => do
    let choice ← operand j
    let m ← get
    selectRecent (j + 1) n (if (m.reg recent).cycle < (m.reg choice).cycle then choice else recent)

def countPhi (function : TACFunction) (phiAddr : Int) : Exec σ Unit := do
  modifyStats fun s => { s with tacPhiCount := s.tacPhiCount + 1 }
  countIf (function.reorderPhiAddr[phiAddr]?.getD false) fun s =>
    { s with tacReorderPhiCount := s.tacReorderPhiCount + 1 }
  countIf (function.ambiguousPhiAddr[phiAddr]?.getD false) fun s =>
    { s with tacAmbiguousPhiCount := s.tacAmbiguousPhiCount + 1 }

def countPhiChoice (function : TACFunction) (phiAddr choice : Int) : Exec σ Unit :=
  countIf ((function.ambiguousPhiChoice[phiAddr]?.getD ∅)[choice]?.getD false) fun s =>
    { s with tacAmbiguousPhiChoiceCount := s.tacAmbiguousPhiChoiceCount + 1 }

/-- One `PHI` of a group.  The copy of the registers that the source takes before the group
shares its array with the registers, so the value read is the current one. -/
def execPhi : Exec σ Unit := do
  let m ← get
  countPhi m.ctx.function m.pc
  let numOfChoice ← inst 1
  let dest ← operand 2
  advance 3
  let first ← operand 0
  let recent ← selectRecent 1 (numOfChoice - 1).toNat first
  countPhiChoice m.ctx.function m.pc recent
  assign dest (← val recent)
  advance numOfChoice

def execPhis : Nat → Exec σ Unit
  | 0 => pure ()
  | n + 1 => do
    execPhi
    execPhis n

def execPhiStart : Exec σ Ret := do
  let numOfPHI ← inst 1
  if numOfPHI = 0 then
    advance 3
    done
  else
    advance 2
    execPhis numOfPHI.toNat
    advance 1
    done

/-- Runs a call or creation; it may change everything but this context. -/
def external (host : Host σ) (c : ExternalCall) : Exec σ CallResult := fun m =>
  match host.external c m.engine with
  | .ok (res, engine) => .ok (res, { m with engine })
  | .error (p, engine) => .error (.panic p { m with engine })

inductive CallKind where
  | call | callcode | delegatecall | staticcall
  deriving DecidableEq, Repr

def CallKind.hasValue : CallKind → Bool
  | .call | .callcode => true
  | .delegatecall | .staticcall => false

def CallKind.name : CallKind → String
  | .call => "CALL"
  | .callcode => "CALLCODE"
  | .delegatecall => "DELEGATECALL"
  | .staticcall => "STATICCALL"

def CallKind.toExternal (kind : CallKind) (addr : Address) (args : Bytes) (gas : Nat)
    (value : Word) : ExternalCall :=
  match kind with
  | .call => .call addr args gas value
  | .callcode => .callCode addr args gas value
  | .delegatecall => .delegateCall addr args gas
  | .staticcall => .staticCall addr args gas

def callStipend : Nat := 2300

def storeReturned (retOffset retSize : Nat) (res : CallResult) : Exec σ (Except VmError Unit) :=
  if res.err.isNone ∨ res.err = some .executionReverted then do
    let o := uint64 (← val retOffset)
    let n := uint64 (← val retSize)
    let m ← get
    onMemory (·.extSet o n res.ret m.engine.delta.maxGas)
  else pure (.ok ())

/-- What the four calls do with the result.  The place of the returned data is read after
the success flag is written. -/
def finishCall (host : Host σ) (toAddr : Address) (success retOffset retSize : Nat) (size : Int)
    (res : CallResult) : Exec σ Ret := do
  assign success (boolWord res.err.isNone)
  match ← storeReturned retOffset retSize res with
  | .error e => fail e
  | .ok _ =>
    modifyEngine fun e => { e with returnData := res.ret }
    onlyIf ((← get).engine.interpreter = .evm) do
      let code ← onState (host.getCode toAddr)
      onlyIf (code ≠ []) (modifyDelta fun d => { d with usedEVM := true })
    match res.err with
    | some e =>
      if (← get).engine.interpreter = .tac ∧ isTACGlobalError e then fail e
      else
        advance size
        return (res.ret, none)
    | none =>
      advance size
      return (res.ret, none)

structure CallOperands where
  success : Nat
  gas : Word
  addr : Word
  value : Word
  argsOffset : Nat
  argsSize : Nat
  retOffset : Nat
  retSize : Nat

/-- The operands of the four calls: `success gas addr [value] argsOffset argsSize retOffset
retSize`. -/
def callOperands (kind : CallKind) : Exec σ CallOperands := do
  let k : Int := if kind.hasValue then 1 else 0
  let success ← operand 1
  let gasVal ← operand 2
  let addr ← operand 3
  let value ← optionalValue kind.hasValue 4
  let argsOffset ← operand (4 + k)
  let argsSize ← operand (5 + k)
  let retOffset ← operand (6 + k)
  let retSize ← operand (7 + k)
  let gas ← val gasVal
  let addr ← val addr
  return ⟨success, gas, addr, value, argsOffset, argsSize, retOffset, retSize⟩

def forwardedGas (value gas : Word) : Nat :=
  if value ≠ 0 then (uint64 gas + callStipend) % uint64Mod else uint64 gas

def execCallKind (kind : CallKind) (host : Host σ) : Exec σ Ret := do
  let ops ← callOperands kind
  let toAddr := bytes20 ops.addr
  match ← memoryRange ops.argsOffset ops.argsSize with
  | .error e => fail e
  | .ok args =>
    if kind = .call ∧ (← get).engine.readOnly ∧ ops.value ≠ 0 then fail .writeProtection
    else
      let gas := forwardedGas ops.value ops.gas
      if (← get).engine.delta.maxGas < gas then fail .outOfGas
      else
        checkDeviation kind.name (callDeviates toAddr)
        let res ← external host (kind.toExternal toAddr args gas ops.value)
        finishCall host toAddr ops.success ops.retOffset ops.retSize
          (8 + if kind.hasValue then 1 else 0) res

def execCall : Host σ → Exec σ Ret := execCallKind .call
def execCallcode : Host σ → Exec σ Ret := execCallKind .callcode
def execDelegatecall : Host σ → Exec σ Ret := execCallKind .delegatecall
def execStaticcall : Host σ → Exec σ Ret := execCallKind .staticcall

/-- The two creations.  The source tests the wrong error variable for global errors, one
that is always `nil`, so such an error is not passed on here.  Before Homestead a code
deposit of `CREATE` that runs out of gas counts as a success. -/
def execCreateKind (salted : Bool) (host : Host σ) : Exec σ Ret := do
  let dest ← operand 1
  let value ← val (← operand 2)
  let offset ← operand 3
  let length ← operand 4
  let salt ← optionalValue salted 5
  advance (if salted then 6 else 5)
  let gas := (← getFrame).contract.gas
  match ← memoryRange offset length with
  | .error e => fail e
  | .ok input =>
    let config := (← get).engine.config
    let gas := if config.isEIP150 then gas - gas / 64 else gas
    if (← get).engine.delta.maxGas < gas then fail .outOfGas
    else
      let res ← external host
        (if salted then .create2 input gas value salt else .create input gas value)
      onlyIf ((← get).engine.interpreter = .evm) (modifyDelta fun d => { d with usedEVM := true })
      let failed := res.err.any fun e =>
        salted || config.isHomestead || e.text ≠ VmError.codeStoreOutOfGas.text
      assign dest (if failed then Uint256.clear else ofAddress res.addr)
      modifyFrame fun frame => { frame with contract := { frame.contract with
        gas := (frame.contract.gas + res.leftOverGas) % uint64Mod } }
      if res.err.any (fun e => e.text = VmError.executionReverted.text) then
        return (res.ret, none)
      else done

def execCreate : Host σ → Exec σ Ret := execCreateKind false
def execCreate2 : Host σ → Exec σ Ret := execCreateKind true

abbrev Runner (σ : Type) := TACContext → TACInterpreter σ → Except (Stop σ) (Ret × Machine σ)

def insts (first : Int) : Nat → Exec σ (List Int)
  | 0 => pure []
  | n + 1 => do
    let c ← inst first
    return c :: (← insts (first + 1) n)

def assignAll : List (Int × Word) → Exec σ Unit
  | [] => pure ()
  | (dest, w) :: rest => do
    let d ← read (·.getVar dest)
    assign d w
    assignAll rest

/-- The callee runs on the same interpreter; it only sees the buffer for returned values. -/
def runCallee (run : Runner σ) (ctx : TACContext) : Exec σ (Ret × List Word) := fun m =>
  match run ctx m.engine with
  | .error (.panic p m') => .error (.panic p { m with engine := m'.engine })
  | .error .outOfFuel => .error .outOfFuel
  | .ok (ret, m') =>
    .ok ((ret, m'.ctx.prevReturnData.getD []), { m with engine := m'.engine })

def targetFunction (id : Int) : Exec σ TACFunction := do
  let frame ← getFrame
  match id with
  | .ofNat n => match frame.prog.functions[n]? with
    | some f => pure f
    | none => panicWith .indexOutOfRange
  | .negSucc _ => panicWith .indexOutOfRange

/-- `exec_callprivate`: the number of arguments read is that of the callee's parameters. -/
def execCallprivate (run : Runner σ) : Exec σ Ret := do
  let numDest ← inst 1
  advance 2
  let destIds ← insts 0 numDest.toNat
  advance numDest
  let target ← targetFunction (← inst 0)
  advance 1
  let args ← operandValues 0 target.args.length
  let newCtx ← read fun _ => newContext target (some args)
  advance target.args.length
  if numDest < 0 then panicWith .indexOutOfRange
  else
    let buffer := List.replicate numDest.toNat (0 : Word)
    let (ret, returned) ← runCallee run { newCtx with prevReturnData := some buffer }
    modify fun m => { m with ctx := { m.ctx with privateReturnData := returned } }
    assignAll (destIds.zip returned)
    return ret

/-- `ctx.PrevContext.PrivateReturnData[i] = v` for the values in turn. -/
def returnValues : List Word → Nat → Exec σ Unit
  | [], _ => pure ()
  | v :: vs, i => do
    let m ← get
    match m.ctx.prevReturnData with
    | none => panicWith .nilDereference
    | some buffer =>
      if i < buffer.length then
        modify fun m => { m with ctx := { m.ctx with prevReturnData := some (buffer.set i v) } }
        returnValues vs (i + 1)
      else panicWith .indexOutOfRange

def execReturnprivate : Exec σ Ret := do
  let numRet ← inst 1
  advance 2
  let values ← operandValues 0 numRet.toNat
  returnValues values 0
  advance numRet
  modify fun m => { m with ctx := { m.ctx with functionStop := true } }
  done

end EtherVal.Vm
