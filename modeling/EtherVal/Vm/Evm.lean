import EtherVal.Vm.Interpreter
import EtherVal.Vm.Recorder

/-!
# Calls between contracts in TAC mode (`core/vm/evm.go`, `tac_interpreter.go:255-360`)

Each of the functions `Call`, `CallCode`, `DelegateCall`, `StaticCall`, `Create` and `Create2`
either ends before any code runs, or hands a contract to the interpreter and finishes with what
the interpreter returns; the two halves are separate functions here.
-/

namespace EtherVal.Vm
open EtherVal.Lib EtherVal.TacParser

structure EvmState (δ : Type) where
  depth : Nat
  db : δ
  deriving Inhabited

abbrev Engine (δ : Type) := TACInterpreter (EvmState δ)

/-- What the EVM calls besides the functions of `Host`, and the parts of its configuration that
only it reads.  `timerFires` tells whether the timer fires before the run that starts in a state
is done; if a head of a loop comes after that, `timerFired` of the host lets the run end there. -/
structure World (δ : Type) where
  host : Host (EvmState δ)
  exist : Address → δ → Bool × δ
  createAccount : Address → δ → δ
  canTransfer : Address → Word → δ → Bool × δ
  transfer : Address → Address → Word → δ → δ
  touch : Address → δ → δ
  getCode : Address → δ → Bytes × δ
  getCodeHash : Address → δ → Word × δ
  getNonce : Address → δ → Nat × δ
  setNonce : Address → Nat → δ → δ
  setCode : Address → Bytes → δ → δ
  addAddressToAccessList : Address → δ → δ
  snapshot : δ → Nat × δ
  revertToSnapshot : Nat → δ → δ
  getRefund : δ → Nat
  addRefund : Nat → δ → δ
  precompile : Address → Option (Bytes → Nat → Ret × Nat)
  createAddress : Address → Nat → Address
  createAddress2 : Address → Word → Bytes → Address
  emptyCodeHash : Word
  isEIP158 : Bool
  isHomestead : Bool
  isBerlin : Bool
  isLondon : Bool
  getTACProg : Contract → Except VmError TACProgram
  contractIso : Bool
  timeoutEnabled : Bool
  timerFires : Engine δ → Bool

/-! ### Errors and limits of `evm.go` -/

def errDepth : VmError := .other "max call depth exceeded".toList
def errInsufficientBalance : VmError := .other "insufficient balance for transfer".toList
def errContractAddressCollision : VmError := .other "contract address collision".toList
def errNonceUintOverflow : VmError := .other "nonce uint64 overflow".toList
def errMaxCodeSizeExceeded : VmError := .other "max code size exceeded".toList
def errInvalidCode : VmError := .other "invalid code: must not begin with 0xef".toList

def callCreateDepth : Nat := 1024
def maxCodeSize : Nat := 24576
def createDataGas : Nat := 200

section
variable {δ : Type}

/-- `sdb.ResearchEVMTrace.NextCallTrace()`; `Delta.SubstrateTrace` is the same object. -/
def nextCallTrace (e : Engine δ) : Engine δ :=
  { e with delta := { e.delta with substrateTrace := { e.delta.substrateTrace with
    callTraces := e.delta.substrateTrace.callTraces ++ [newCallTrace] } } }

/-- The deferred function that fills in the entry at position `i`. -/
def fillCallTrace (w : World δ) (i : Nat) (callee : Address) (res : CallResult) (e : Engine δ) :
    Engine δ :=
  { e with delta := { e.delta with substrateTrace := { e.delta.substrateTrace with
    callTraces := e.delta.substrateTrace.callTraces.modify i fun ct => { ct with
      callee
      depth := ((e.stateDB.depth + 1 : Nat) : Int)
      leftOverGas := res.leftOverGas
      refundGas := w.getRefund e.stateDB.db
      err := res.err } } } }

def onDb {α : Type} (g : δ → α × δ) (e : Engine δ) : α × Engine δ :=
  let (a, db) := g e.stateDB.db
  (a, { e with stateDB := { e.stateDB with db } })

def setDb (g : δ → δ) (e : Engine δ) : Engine δ :=
  { e with stateDB := { e.stateDB with db := g e.stateDB.db } }

/-- A contract for the interpreter, with the snapshot to go back to. -/
structure FrameRequest where
  contract : Contract
  input : Bytes
  readOnly : Bool
  snapshot : Nat

inductive Prepared (δ : Type) where
  | finished (res : CallResult) (e : Engine δ)
  | frame (req : FrameRequest) (e : Engine δ)

def failed (gas : Nat) (err : VmError) : CallResult := ⟨[], 0, gas, some err⟩

def settle (w : World δ) (snapshot : Nat) (ret : Ret) (gas : Nat) (e : Engine δ) :
    CallResult × Engine δ :=
  match ret.2 with
  | none => (⟨ret.1, 0, gas, none⟩, e)
  | some err =>
    (⟨ret.1, 0, if err = .executionReverted then gas else 0, some err⟩,
      setDb (w.revertToSnapshot snapshot) e)

def runPrecompiled (w : World δ) (p : Bytes → Nat → Ret × Nat) (input : Bytes) (gas snapshot : Nat)
    (e : Engine δ) : Prepared δ :=
  let (ret, left) := p input gas
  let (res, e) := settle w snapshot ret left e
  .finished res e

def prepareCall (w : World δ) (caller : Contract) (addr : Address) (input : Bytes) (gas : Nat)
    (value : Word) (e : Engine δ) : Prepared δ :=
  if callCreateDepth < e.stateDB.depth then .finished (failed gas errDepth) e
  else
    let (rich, e) := if value = 0 then (true, e) else onDb (w.canTransfer caller.address value) e
    if !rich then .finished (failed gas errInsufficientBalance) e
    else
      let (snapshot, e) := onDb w.snapshot e
      let p := w.precompile addr
      let (exists', e) := onDb (w.exist addr) e
      if !exists' ∧ p.isNone ∧ w.isEIP158 ∧ value = 0 then .finished ⟨[], 0, gas, none⟩ e
      else
        let e := if exists' then e else setDb (w.createAccount addr) e
        let e := setDb (w.transfer caller.address addr value) e
        match p with
        | some p => runPrecompiled w p input gas snapshot e
        | none =>
          let (code, e) := onDb (w.getCode addr) e
          if code = [] then .finished ⟨[], 0, gas, none⟩ e
          else .frame ⟨⟨caller.address, addr, code, [], gas, value⟩, input, false, snapshot⟩ e

def prepareCallCode (w : World δ) (caller : Contract) (addr : Address) (input : Bytes) (gas : Nat)
    (value : Word) (e : Engine δ) : Prepared δ :=
  if callCreateDepth < e.stateDB.depth then .finished (failed gas errDepth) e
  else
    let (rich, e) := onDb (w.canTransfer caller.address value) e
    if !rich then .finished (failed gas errInsufficientBalance) e
    else
      let (snapshot, e) := onDb w.snapshot e
      match w.precompile addr with
      | some p => runPrecompiled w p input gas snapshot e
      | none =>
        let (code, e) := onDb (w.getCode addr) e
        .frame ⟨⟨caller.address, caller.address, code, [], gas, value⟩, input, false, snapshot⟩ e

/-- `evm.DelegateCall` up to `run`; caller and value are those of the calling contract. -/
def prepareDelegateCall (w : World δ) (caller : Contract) (addr : Address) (input : Bytes)
    (gas : Nat) (e : Engine δ) : Prepared δ :=
  if callCreateDepth < e.stateDB.depth then .finished (failed gas errDepth) e
  else
    let (snapshot, e) := onDb w.snapshot e
    match w.precompile addr with
    | some p => runPrecompiled w p input gas snapshot e
    | none =>
      let (code, e) := onDb (w.getCode addr) e
      .frame ⟨⟨caller.callerAddress, caller.address, code, [], gas, caller.value⟩, input, false,
        snapshot⟩ e

def prepareStaticCall (w : World δ) (caller : Contract) (addr : Address) (input : Bytes)
    (gas : Nat) (e : Engine δ) : Prepared δ :=
  if callCreateDepth < e.stateDB.depth then .finished (failed gas errDepth) e
  else
    let (snapshot, e) := onDb w.snapshot e
    let e := setDb (w.touch addr) e
    match w.precompile addr with
    | some p => runPrecompiled w p input gas snapshot e
    | none =>
      let (code, e) := onDb (w.getCode addr) e
      .frame ⟨⟨caller.address, addr, code, [], gas, 0⟩, input, true, snapshot⟩ e

def prepareCreate (w : World δ) (caller : Contract) (code : Bytes) (gas : Nat) (value : Word)
    (address : Address) (e : Engine δ) : Prepared δ :=
  if callCreateDepth < e.stateDB.depth then .finished (failed gas errDepth) e
  else
    let (rich, e) := onDb (w.canTransfer caller.address value) e
    if !rich then .finished (failed gas errInsufficientBalance) e
    else
      let (nonce, e) := onDb (w.getNonce caller.address) e
      if nonce = maxUint64 then .finished (failed gas errNonceUintOverflow) e
      else
        let e := setDb (w.setNonce caller.address (nonce + 1)) e
        let e := if w.isBerlin then setDb (w.addAddressToAccessList address) e else e
        let (hash, e) := onDb (w.getCodeHash address) e
        let (nonce', e) := onDb (w.getNonce address) e
        if nonce' ≠ 0 ∨ (hash ≠ 0 ∧ hash ≠ w.emptyCodeHash) then
          .finished (failed 0 errContractAddressCollision) e
        else
          let (snapshot, e) := onDb w.snapshot e
          let e := setDb (w.createAccount address) e
          let e := if w.isEIP158 then setDb (w.setNonce address 1) e else e
          let e := setDb (w.transfer caller.address address value) e
          .frame ⟨⟨caller.address, address, code, [], gas, value⟩, [], false, snapshot⟩ e

def prepare (w : World δ) (caller : Contract) : ExternalCall → Engine δ → Prepared δ
  | .call addr input gas value, e => prepareCall w caller addr input gas value e
  | .callCode addr input gas value, e => prepareCallCode w caller addr input gas value e
  | .delegateCall addr input gas, e => prepareDelegateCall w caller addr input gas e
  | .staticCall addr input gas, e => prepareStaticCall w caller addr input gas e
  | .create code gas value, e =>
    let (nonce, e) := onDb (w.getNonce caller.address) e
    prepareCreate w caller code gas value (w.createAddress caller.address nonce) e
  | .create2 code gas value salt, e =>
    prepareCreate w caller code gas value (w.createAddress2 caller.address salt code) e

/-- `evm.create` after `run`; `gas` is what the contract has left. -/
def finishCreate (w : World δ) (req : FrameRequest) (ret : Ret) (gas : Nat) (e : Engine δ) :
    CallResult × Engine δ :=
  let size := ret.1.length
  let tooLarge : Bool := w.isEIP158 && decide (maxCodeSize < size)
  let err := if ret.2 = none ∧ tooLarge then some errMaxCodeSizeExceeded else ret.2
  let err := if err = none ∧ ret.1.head? = some 0xEF ∧ w.isLondon then some errInvalidCode else err
  let cost := size * createDataGas
  let stores : Bool := err.isNone && !tooLarge
  let paid : Bool := stores && decide (cost ≤ gas)
  let e := if paid then setDb (w.setCode req.contract.address ret.1) e else e
  let gas := if paid then gas - cost else gas
  let err := if stores && !paid then some VmError.codeStoreOutOfGas else err
  let undone : Bool :=
    tooLarge || (err.isSome && (w.isHomestead || err ≠ some .codeStoreOutOfGas))
  let e := if undone then setDb (w.revertToSnapshot req.snapshot) e else e
  let gas := if undone && err ≠ some .executionReverted then 0 else gas
  (⟨ret.1, req.contract.address, gas, err⟩, e)

def finish (w : World δ) : ExternalCall → FrameRequest → Ret → Nat → Engine δ →
    CallResult × Engine δ
  | .create .., req, ret, gas, e => finishCreate w req ret gas e
  | .create2 .., req, ret, gas, e => finishCreate w req ret gas e
  | _, req, ret, gas, e => settle w req.snapshot ret gas e

def ExternalCall.callee (self : Address) (c : ExternalCall) (res : CallResult) : Address :=
  match c with
  | .call addr .. | .staticCall addr .. => addr
  | .callCode .. | .delegateCall .. => self
  | .create .. | .create2 .. => res.addr

abbrev FrameRunner (δ : Type) :=
  FrameRequest → Engine δ → Except (GoPanic × Engine δ) ((Ret × Nat) × Engine δ)

/-- The six functions, called by the contract of the current frame.  The deferred functions also
run when the interpreter panics. -/
def evmExternal (w : World δ) (run : FrameRunner δ) (c : ExternalCall) (e : Engine δ) :
    Except (GoPanic × Engine δ) (CallResult × Engine δ) :=
  match e.frames with
  | [] => .error (.indexOutOfRange, e)
  | frame :: _ =>
    let caller := frame.contract
    let i := e.delta.substrateTrace.callTraces.length
    let fill := fun res e => fillCallTrace w i (c.callee caller.address res) res e
    match prepare w caller c (nextCallTrace e) with
    | .finished res e => .ok (res, fill res e)
    | .frame req e =>
      match run req e with
      | .error (p, e) => .error (p, fill ⟨[], req.contract.address, 0, none⟩ e)
      | .ok ((ret, gas), e) =>
        let (res, e) := finish w c req ret gas e
        .ok (res, fill res e)

/-! ### `TACInterpreter.Run` -/

inductive Entered (δ : Type) where
  | returned (ret : Ret) (e : Engine δ)
  | frame (frame : TACFrame) (e : Engine δ)

def setSubstrateErr (err : VmError) (e : Engine δ) : Engine δ :=
  { e with delta := { e.delta with substrateErr := some err } }

def enterRun (prog : TACProgram) (req : FrameRequest) (e : Engine δ) :
    Except (GoPanic × Engine δ) (Entered δ) :=
  let depth := e.stateDB.depth + 1
  let e := { e with stateDB := { e.stateDB with depth } }
  let i := e.config.isolationIndex
  let traces := e.delta.substrateTrace.callTraces
  if traces.length ≤ i then .error (.indexOutOfRange, e)
  else
    let traces := traces.modify i fun ct => { ct with depth := (depth : Int) }
    let e := { e with
      readOnly := e.readOnly || req.readOnly
      returnData := []
      delta := { e.delta with
        substrateTrace := { e.delta.substrateTrace with callTraces := traces } } }
    if req.contract.code = [] then .ok (.returned ([], none) e)
    else
      match e.delta.recordedTrace.callTraces[traces.length - 1]? with
      | none => .ok (.returned ([], some .tacNoCallTrace) (setSubstrateErr .tacNoCallTrace e))
      | some recCallTrace =>
        let frame : TACFrame :=
          { prog, memory := newMemory, contract := { req.contract with input := req.input },
            recCallTrace, subCallTrace := traces.length - 1 }
        .ok (.frame frame { e with frames := frame :: e.frames })

/-- `contract.UseGas(contract.Gas - LeftOverGas)` in the arithmetic of `uint64` -/
def replayGas (gas leftOverGas : Nat) : Nat :=
  let used := (gas + (uint64Mod - leftOverGas % uint64Mod)) % uint64Mod
  if gas < used then gas else gas - used

def leaveRun (before : Engine δ) (req : FrameRequest) (e : Engine δ) : Engine δ :=
  { e with
    readOnly := if req.readOnly && !before.readOnly then false else e.readOnly
    stateDB := { e.stateDB with depth := e.stateDB.depth - 1 } }

def replayRefund (w : World δ) (frame : TACFrame) (e : Engine δ) : Engine δ :=
  let refund := w.getRefund e.stateDB.db
  setDb (w.addRefund ((frame.recCallTrace.refundGas +
    (uint64Mod - refund % uint64Mod)) % uint64Mod))
    e

/-- The panic by which the model reports that its fuel did not suffice. -/
def fuelPanic : GoPanic := .text "model: out of fuel".toList

def runEntry (host : Host (EvmState δ)) (fuel : Nat) (prog : TACProgram) (e : Engine δ) :
    Except (GoPanic × Engine δ) (Ret × Engine δ) :=
  match prog.entry with
  | none => .error (.nilDereference, e)
  | some f =>
    match newContext f none with
    | .error p => .error (p, e)
    | .ok ctx =>
      match executeFunc host fuel ctx e with
      | .ok (ret, m) => .ok (ret, m.engine)
      | .error (.panic p m) => .error (p, m.engine)
      | .error .outOfFuel => .error (fuelPanic, e)

/-- Runs that a timer guards recover from panics. -/
def guarded (w : World δ) (e : Engine δ) : Bool :=
  (w.contractIso || decide (e.stateDB.depth ≤ 1)) && w.timeoutEnabled

/-- The `select` of the run that started in `start`.  A timer that fires makes the run end at its
next loop head, if it has not ended by then, and replaces its result. -/
def select (w : World δ) (start : Engine δ) (ret : Ret) (e : Engine δ) : Ret × Engine δ :=
  if guarded w start && w.timerFires start then
    (([], some .tacTimeout),
      { setSubstrateErr .tacTimeout e with abort := tacAbortTimeout, evmAbort := true })
  else (ret, e)

def ownFrame (before : Engine δ) (frame : TACFrame) (e : Engine δ) : TACFrame :=
  (e.frames.reverse[before.frames.length]?).getD frame

def finishRun (w : World δ) (before : Engine δ) (req : FrameRequest) (frame : TACFrame) (ret : Ret)
    (e : Engine δ) : (Ret × Nat) × Engine δ :=
  let gas := (ownFrame before frame e).contract.gas
  let e := { e with frames := e.frames.tail }
  let e := match ret.2 with
    | some err => if isTACGlobalError err then setSubstrateErr err e else e
    | none => e
  ((ret, replayGas gas frame.recCallTrace.leftOverGas),
    leaveRun before req (replayRefund w frame e))

def tacRun (w : World δ) (host : Host (EvmState δ)) (fuel : Nat) (prog : TACProgram) :
    FrameRunner δ := fun req before =>
  match enterRun prog req before with
  | .error pe => .error pe
  | .ok (.returned ret e) => .ok ((ret, req.contract.gas), leaveRun before req e)
  | .ok (.frame frame start) =>
    match runEntry host fuel prog start with
    | .ok (ret, e) =>
      let (ret, e) := select w start ret e
      .ok (finishRun w before req frame ret e)
    | .error (p, e) =>
      if guarded w start && p ≠ fuelPanic then
        let (ret, e) := select w start ([], some .tacPanic) e
        .ok (finishRun w before req frame ret e)
      else .error (p, leaveRun before req (replayRefund w frame e))

/-- `run` in TAC mode, without the row of results its deferred function writes. -/
def runTac (w : World δ) (host : Host (EvmState δ)) (fuel : Nat) : FrameRunner δ := fun req e =>
  match w.getTACProg req.contract with
  | .error err =>
    .ok ((([], some err), req.contract.gas),
      if isTACGlobalError err then setSubstrateErr err e else e)
  | .ok prog => tacRun w host fuel prog req e

/-- The EVM in plain TAC mode with at most `n` nested frames; the limit on the depth is 1024. -/
def hostAt (w : World δ) (fuel : Nat) : Nat → Host (EvmState δ)
  | 0 => { w.host with external := evmExternal w fun _ e => .error (fuelPanic, e) }
  | n + 1 => { w.host with external := evmExternal w (runTac w (hostAt w fuel n) fuel) }

end
end EtherVal.Vm
