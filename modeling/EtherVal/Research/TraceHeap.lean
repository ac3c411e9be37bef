import EtherVal.Lib.Heap
import EtherVal.Research.SubstateTrace

/-!
# Traces in memory (`substate_trace.go:138-315`)

The operations are stated over what they need of the memory that a trace is in; `TraceStore` runs
them on values.  Here a trace and its call traces are objects that are written to in place.  What no
operation of this file writes to is given by its value: logs, the data of events and the data a call
returned.
-/

namespace EtherVal.Research
open EtherVal.Lib

variable {ε : Type}

structure CallObject (ε : Type) where
  callee : Address := 0
  codeAddr : Address := 0
  codeHash : Word := 0
  callId : Int := 0
  callFn : GoString := []
  depth : Int := 0
  ret : Bytes := []
  callGas : Nat := 0
  refundGas : Nat := 0
  leftOverGas : Nat := 0
  err : Option ε := none
  errMsg : GoString := []
  reverted : Bool := false
  gasInstRet : GoSlice := .nil
  logInstRet : GoSlice := .nil
  sha3HashToIndex : Option Nat := none
  sha3IndexToHash : Option Nat := none
  sha3IndexList : GoSlice := .nil
  jumpInstPos : GoSlice := .nil
  jumpInstTarget : GoSlice := .nil

structure TraceObject where
  sstoreCount : Int := 0
  sstoreTrace : GoSlice := .nil
  eventTraces : GoSlice := .nil
  callTraces : GoSlice := .nil

structure TraceCell (ε : Type) where
  uint64s : List Nat := []
  logs : List TraceLog := []
  ints : List Int := []
  uint256s : List Word := []
  strings : List GoString := []
  events : List EVMEventTrace := []
  calls : List (Option Nat) := []
  hashToIndex : GoMap Word Int := ∅
  indexToHash : GoMap Int Word := ∅
  call : CallObject ε := {}
  trace : TraceObject := {}

instance : Inhabited (TraceCell ε) := ⟨{}⟩

abbrev TraceHeap (ε : Type) := Heap (TraceCell ε)

namespace TraceCell

def uint64sField : Field (TraceCell ε) (List Nat) := ⟨uint64s, fun l c => { c with uint64s := l }⟩
def logsField : Field (TraceCell ε) (List TraceLog) := ⟨logs, fun l c => { c with logs := l }⟩
def intsField : Field (TraceCell ε) (List Int) := ⟨ints, fun l c => { c with ints := l }⟩
def uint256sField : Field (TraceCell ε) (List Word) :=
  ⟨uint256s, fun l c => { c with uint256s := l }⟩
def stringsField : Field (TraceCell ε) (List GoString) :=
  ⟨strings, fun l c => { c with strings := l }⟩
def eventsField : Field (TraceCell ε) (List EVMEventTrace) :=
  ⟨events, fun l c => { c with events := l }⟩
def callsField : Field (TraceCell ε) (List (Option Nat)) :=
  ⟨calls, fun l c => { c with calls := l }⟩
def hashToIndexField : Field (TraceCell ε) (GoMap Word Int) :=
  ⟨hashToIndex, fun m c => { c with hashToIndex := m }⟩
def indexToHashField : Field (TraceCell ε) (GoMap Int Word) :=
  ⟨indexToHash, fun m c => { c with indexToHash := m }⟩

end TraceCell

open TraceCell

/-- A call trace with the field `Equal` does not know. -/
structure CallValue (ε : Type) extends EVMCallTrace ε where
  errMsg : GoString

structure TraceValue (ε : Type) where
  sstoreCount : Int
  sstoreTrace : List GoString
  eventTraces : List EVMEventTrace
  callTraces : List (Option (CallValue ε))

section view
variable (h : TraceHeap ε)

def viewMap {K V : Type} [Ord K] (f : Field (TraceCell ε) (GoMap K V)) : Option Nat → GoMap K V
  | none => ∅
  | some p => f.get (h.cell p)

def viewObject (ct : CallObject ε) : CallValue ε where
  callee := ct.callee
  codeAddr := ct.codeAddr
  codeHash := ct.codeHash
  callId := ct.callId
  callFn := ct.callFn
  depth := ct.depth
  ret := ct.ret
  callGas := ct.callGas
  refundGas := ct.refundGas
  leftOverGas := ct.leftOverGas
  err := ct.err
  errMsg := ct.errMsg
  reverted := ct.reverted
  gasInstRet := ct.gasInstRet.read fun p => (h.cell p).uint64s
  logInstRet := ct.logInstRet.read fun p => (h.cell p).logs
  sha3HashToIndex := viewMap h hashToIndexField ct.sha3HashToIndex
  sha3IndexToHash := viewMap h indexToHashField ct.sha3IndexToHash
  sha3IndexList := ct.sha3IndexList.read fun p => (h.cell p).ints
  jumpInstPos := ct.jumpInstPos.read fun p => (h.cell p).uint64s
  jumpInstTarget := ct.jumpInstTarget.read fun p => (h.cell p).uint256s

def viewCall (p : Nat) : CallValue ε := viewObject h (h.cell p).call

def callPtrs (t : Nat) : List (Option Nat) :=
  (h.cell t).trace.callTraces.read fun p => (h.cell p).calls

def view (t : Nat) : TraceValue ε where
  sstoreCount := (h.cell t).trace.sstoreCount
  sstoreTrace := (h.cell t).trace.sstoreTrace.read fun p => (h.cell p).strings
  eventTraces := (h.cell t).trace.eventTraces.read fun p => (h.cell p).events
  callTraces := (callPtrs h t).map (Option.map (viewCall h))

end view

/-! ### `Copy` -/

/-- `make(map[K]V, len(m))` filled from `m` -/
def copyMap {K V : Type} [Ord K] (f : Field (TraceCell ε) (GoMap K V)) (h : TraceHeap ε)
    (m : Option Nat) : Option Nat × TraceHeap ε :=
  (some h.next, h.alloc (f.set (viewMap h f m) default))

/-- `lCopy := new(types.Log)` and the three fields that are then copied -/
def TraceLog.copied (l : TraceLog) : TraceLog := { toConsensusLog := l.toConsensusLog }

/-- `EVMCallTrace.Copy`, which does not copy `RefundGas` and `ErrMsg` -/
def copyCall (h : TraceHeap ε) (p : Nat) : Nat × TraceHeap ε :=
  let ct := (h.cell p).call
  let (gasInstRet, h) := ct.gasInstRet.copy uint64sField h
  let (logInstRet, h) := ct.logInstRet.copyWith logsField TraceLog.copied h
  let (sha3HashToIndex, h) := copyMap hashToIndexField h ct.sha3HashToIndex
  let (sha3IndexToHash, h) := copyMap indexToHashField h ct.sha3IndexToHash
  let (sha3IndexList, h) := ct.sha3IndexList.copy intsField h
  let (jumpInstPos, h) := ct.jumpInstPos.copy uint64sField h
  let (jumpInstTarget, h) := ct.jumpInstTarget.copy uint256sField h
  (h.next, h.alloc { call :=
    { callee := ct.callee, codeAddr := ct.codeAddr, codeHash := ct.codeHash
      callId := ct.callId, callFn := ct.callFn
      depth := ct.depth, ret := ct.ret, callGas := ct.callGas, leftOverGas := ct.leftOverGas
      err := ct.err, reverted := ct.reverted
      gasInstRet, logInstRet, sha3HashToIndex, sha3IndexToHash, sha3IndexList, jumpInstPos
      jumpInstTarget } })

def copyCalls : TraceHeap ε → List (Option Nat) → Except GoPanic (List (Option Nat) × TraceHeap ε)
  | h, [] => .ok ([], h)
  | _, none :: _ => .error .nilDereference
  | h, some p :: ps => do
    let (q, h) := copyCall h p
    let (qs, h) ← copyCalls h ps
    .ok (some q :: qs, h)

def copyTrace (h : TraceHeap ε) (t : Nat) : Except GoPanic (Nat × TraceHeap ε) := do
  let et := (h.cell t).trace
  let (sstoreTrace, h1) := et.sstoreTrace.copy stringsField h
  let (eventTraces, h2) := et.eventTraces.copy eventsField h1
  let (calls, h3) ← copyCalls h2 (callPtrs h t)
  let h4 := h3.alloc { calls := calls }
  .ok (h4.next, h4.alloc { trace :=
    { sstoreCount := et.sstoreCount, sstoreTrace, eventTraces
      callTraces := ⟨h3.next, 0, calls.length, calls.length, le_rfl⟩ } })

/-! ### The operations -/

inductive CallOp where
  | addGasInstRet (gas : Nat)
  | addLogInstRet (log : TraceLog)
  | addSHA3InstRet (hash : Word)
  | addJumpInstPosTarget (instPos : Nat) (target : Word)

/-- A call trace in memory: `append` to its slices, and its maps. -/
structure CallMemory (κ : Type) where
  gasInstRet : κ → Nat → κ
  logInstRet : κ → TraceLog → κ
  sha3IndexList : κ → Int → κ
  jumpInstPos : κ → Nat → κ
  jumpInstTarget : κ → Word → κ
  /-- `if m == nil { m = make(map[K]V) }` for both maps -/
  makeMaps : κ → κ
  toIndex : κ → GoMap Word Int
  setIndex : κ → Word → Int → κ
  setHash : κ → Int → Word → κ

namespace CallMemory
variable {κ : Type} (m : CallMemory κ) (ct : κ)

def addSHA3InstRet (hash : Word) : κ :=
  let ct := m.makeMaps ct
  let ct :=
    if (m.toIndex ct)[hash]?.isNone then
      let i : Int := (m.toIndex ct).size
      m.setHash (m.setIndex ct hash i) i hash
    else ct
  m.sha3IndexList ct ((m.toIndex ct)[hash]?.getD 0)

def addJumpInstPosTarget (instPos : Nat) (target : Word) : κ :=
  m.jumpInstTarget (m.jumpInstPos ct instPos) target

def apply : CallOp → κ
  | .addGasInstRet gas => m.gasInstRet ct gas
  | .addLogInstRet log => m.logInstRet ct log
  | .addSHA3InstRet hash => m.addSHA3InstRet ct hash
  | .addJumpInstPosTarget pos target => m.addJumpInstPosTarget ct pos target

end CallMemory

structure TraceMemory (τ : Type) where
  sstoreTrace : τ → GoString → τ
  eventTraces : τ → EVMEventTrace → τ
  /-- a write to `SstoreCount` -/
  sstoreCount : τ → (Int → Int) → τ
  /-- `len(et.CallTraces)` -/
  calls : τ → Nat
  /-- `append(et.CallTraces, &EVMCallTrace{CallId: id})` -/
  callTraces : τ → Int → τ
  /-- An operation on the `i`-th call trace; without one it panics and writes nothing. -/
  onCall : τ → Nat → CallOp → τ

/-- `et.SstoreCount++` on an `int64` -/
def sstoreCountSucc (n : Int) : Int := (BitVec.ofInt 64 (n + 1)).toInt

inductive TraceOp where
  | addGasInstRet (i : Nat) (gas : Nat)
  | addLogInstRet (i : Nat) (log : TraceLog)
  | addSHA3InstRet (i : Nat) (hash : Word)
  | addJumpInstPosTarget (i : Nat) (instPos : Nat) (target : Word)
  | incSstoreCount
  | addSstoreTrace (t : GoString)
  | addEventTrace (topics : List Word) (data : Bytes)
  | nextCallTrace

namespace TraceMemory
variable {τ : Type} (m : TraceMemory τ) (et : τ)

def nextCallTrace : τ := m.callTraces et (BitVec.ofNat 32 (m.calls et)).toInt

def apply : TraceOp → τ
  | .addGasInstRet i gas => m.onCall et i (.addGasInstRet gas)
  | .addLogInstRet i log => m.onCall et i (.addLogInstRet log)
  | .addSHA3InstRet i hash => m.onCall et i (.addSHA3InstRet hash)
  | .addJumpInstPosTarget i pos target => m.onCall et i (.addJumpInstPosTarget pos target)
  | .incSstoreCount => m.sstoreCount et sstoreCountSucc
  | .addSstoreTrace text => m.sstoreTrace et text
  | .addEventTrace topics data => m.eventTraces et ⟨topics, data⟩
  | .nextCallTrace => m.nextCallTrace et

end TraceMemory

/-! ### In memory -/

section ops
variable (grow : Nat → Nat)

def setCall (h : TraceHeap ε) (p : Nat) (f : CallObject ε → CallObject ε) : TraceHeap ε :=
  h.update p fun c => { c with call := f c.call }

def setTrace (h : TraceHeap ε) (t : Nat) (f : TraceObject → TraceObject) : TraceHeap ε :=
  h.update t fun c => { c with trace := f c.trace }

structure CallSlice (ε α : Type) where
  arrays : Field (TraceCell ε) (List α)
  field : Field (CallObject ε) GoSlice

def gasInstRetSlice : CallSlice ε Nat :=
  ⟨uint64sField, ⟨CallObject.gasInstRet, fun s ct => { ct with gasInstRet := s }⟩⟩
def logInstRetSlice : CallSlice ε TraceLog :=
  ⟨logsField, ⟨CallObject.logInstRet, fun s ct => { ct with logInstRet := s }⟩⟩
def sha3IndexListSlice : CallSlice ε Int :=
  ⟨intsField, ⟨CallObject.sha3IndexList, fun s ct => { ct with sha3IndexList := s }⟩⟩
def jumpInstPosSlice : CallSlice ε Nat :=
  ⟨uint64sField, ⟨CallObject.jumpInstPos, fun s ct => { ct with jumpInstPos := s }⟩⟩
def jumpInstTargetSlice : CallSlice ε Word :=
  ⟨uint256sField, ⟨CallObject.jumpInstTarget, fun s ct => { ct with jumpInstTarget := s }⟩⟩

def appendCall {α : Type} [Inhabited α] (sl : CallSlice ε α) (h : TraceHeap ε) (p : Nat) (x : α) :
    TraceHeap ε :=
  let r := (sl.field.get (h.cell p).call).append sl.arrays grow h [x]
  setCall r.2 p (sl.field.set r.1)

/-- `if m == nil { m = make(map[K]V) }` for a map of a call trace -/
def makeMap (field : Field (CallObject ε) (Option Nat)) (h : TraceHeap ε) (p : Nat) : TraceHeap ε :=
  match field.get (h.cell p).call with
  | some _ => h
  | none => setCall (h.alloc default) p (field.set (some h.next))

def hashToIndexOf : Field (CallObject ε) (Option Nat) :=
  ⟨CallObject.sha3HashToIndex, fun m ct => { ct with sha3HashToIndex := m }⟩
def indexToHashOf : Field (CallObject ε) (Option Nat) :=
  ⟨CallObject.sha3IndexToHash, fun m ct => { ct with sha3IndexToHash := m }⟩

def setMap {K V : Type} [Ord K] [Std.TransOrd K] (arrays : Field (TraceCell ε) (GoMap K V))
    (field : Field (CallObject ε) (Option Nat)) (h : TraceHeap ε) (p : Nat) (k : K) (v : V) :
    TraceHeap ε :=
  match field.get (h.cell p).call with
  | some a => h.update a fun c => arrays.set ((arrays.get c).insert k v) c
  | none => h

def toIndex (h : TraceHeap ε) (p : Nat) : GoMap Word Int :=
  viewMap h hashToIndexField (h.cell p).call.sha3HashToIndex

def callMemory (p : Nat) : CallMemory (TraceHeap ε) where
  gasInstRet h := appendCall grow gasInstRetSlice h p
  logInstRet h := appendCall grow logInstRetSlice h p
  sha3IndexList h := appendCall grow sha3IndexListSlice h p
  jumpInstPos h := appendCall grow jumpInstPosSlice h p
  jumpInstTarget h := appendCall grow jumpInstTargetSlice h p
  makeMaps h := makeMap indexToHashOf (makeMap hashToIndexOf h p) p
  toIndex h := toIndex h p
  setIndex h := setMap hashToIndexField hashToIndexOf h p
  setHash h := setMap indexToHashField indexToHashOf h p

def appendTrace {α : Type} [Inhabited α] (arrays : Field (TraceCell ε) (List α))
    (field : Field TraceObject GoSlice) (h : TraceHeap ε) (t : Nat) (x : α) : TraceHeap ε :=
  let r := (field.get (h.cell t).trace).append arrays grow h [x]
  setTrace r.2 t (field.set r.1)

def sstoreTraceOf : Field TraceObject GoSlice :=
  ⟨TraceObject.sstoreTrace, fun s et => { et with sstoreTrace := s }⟩
def eventTracesOf : Field TraceObject GoSlice :=
  ⟨TraceObject.eventTraces, fun s et => { et with eventTraces := s }⟩
def callTracesOf : Field TraceObject GoSlice :=
  ⟨TraceObject.callTraces, fun s et => { et with callTraces := s }⟩

def appendCallTrace (h : TraceHeap ε) (t : Nat) (id : Int) : TraceHeap ε :=
  appendTrace grow callsField callTracesOf (h.alloc { call := { callId := id } }) t (some h.next)

def onCall (h : TraceHeap ε) (t i : Nat) (f : Nat → TraceHeap ε) : TraceHeap ε :=
  match (callPtrs h t)[i]? with
  | some (some p) => f p
  | _ => h

def traceMemory (t : Nat) : TraceMemory (TraceHeap ε) where
  sstoreTrace h := appendTrace grow stringsField sstoreTraceOf h t
  eventTraces h := appendTrace grow eventsField eventTracesOf h t
  sstoreCount h f := setTrace h t fun et => { et with sstoreCount := f et.sstoreCount }
  calls h := (h.cell t).trace.callTraces.len
  callTraces h := appendCallTrace grow h t
  onCall h i op := onCall h t i fun p => (callMemory grow p).apply h op

def TraceOp.apply (h : TraceHeap ε) (t : Nat) (op : TraceOp) : TraceHeap ε :=
  (traceMemory grow t).apply h op

end ops
end EtherVal.Research
