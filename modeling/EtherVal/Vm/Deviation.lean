import EtherVal.Vm.OutOfGas

/-!
# Deviation checks against a recorded trace (`track_deviation.go`)

The checks compare the next event of an isolated execution with the event at the same position
of the record.  The functions of `evm.go` that record calls note different addresses: the
target for `Call` and `StaticCall`, the caller for `CallCode` and `DelegateCall`.
-/

namespace EtherVal.Vm
open EtherVal.Lib

abbrev Nested := { es : List TraceEvent // level es 0 = some 0 }

/-- The outcome of a call as `evm.go` records it. -/
structure CallOutcome where
  leftOverGas : Nat
  refundGas : Nat
  err : Option VmError

/-- An operation of a frame that leaves something in the trace; calls come with what the
callee does. -/
inductive FrameOp where
  | sstore (loc val : Word)
  | log (topics : List Word) (data : Bytes)
  | sha3 (hash : Word)
  | gas (gas : Nat)
  | call (kind : CallKind) (target : Address) (input : Bytes) (value : Word) (inner : Nested)
      (outcome : CallOutcome)
  | create (address : Address) (inner : Nested) (outcome : CallOutcome)

/-- `currCt.Callee` for a call made by the contract `self`. -/
def recordedCallee (kind : CallKind) (self target : Address) : Address :=
  match kind with
  | .call | .staticcall => target
  | .callcode | .delegatecall => self

def callEvents (callee : Address) (inner : Nested) (o : CallOutcome) : List TraceEvent :=
  .enter :: (inner.1 ++ [.leave callee o.leftOverGas o.refundGas o.err])

namespace FrameOp

def events (self : Address) : FrameOp → List TraceEvent
  | .sstore loc val => [.sstore ⟨self, loc, val⟩]
  | .log topics data => [.log ⟨topics, data⟩]
  | .sha3 hash => [.sha3 hash]
  | .gas g => [.gas g]
  | .call kind target _ _ inner o => callEvents (recordedCallee kind self target) inner o
  | .create address inner o => callEvents address inner o

/-- The check the interpreter makes before it notes the operation. -/
def deviates (self : Address) (isoIndex : Nat) (op : FrameOp) (evmTrace intrTrace : EVMTrace) :
    Except GoPanic Bool :=
  match op with
  | .sstore loc val => sstoreDeviates ⟨self, loc, val⟩ evmTrace intrTrace
  | .log topics data => logDeviates topics data evmTrace intrTrace
  | .sha3 hash => sha3Deviates isoIndex hash evmTrace intrTrace
  | .call _ target _ _ _ _ => callDeviates target evmTrace intrTrace
  | .gas _ | .create .. => .ok false

end FrameOp

def frameEvents (self : Address) (ops : List FrameOp) : List TraceEvent :=
  ops.flatMap (·.events self)

theorem level_callEvents (callee : Address) (inner : Nested) (o : CallOutcome) :
    level (callEvents callee inner o) 0 = some 0 := by
  have h := level_shift inner.2 1
  change level (inner.1 ++ _) 1 = some 0
  rw [level_append h]
  rfl

theorem level_events (self : Address) (op : FrameOp) : level (op.events self) 0 = some 0 := by
  cases op with
  | call => exact level_callEvents _ _ _
  | create => exact level_callEvents _ _ _
  | _ => rfl

theorem level_frameEvents (self : Address) (ops : List FrameOp) :
    level (frameEvents self ops) 0 = some 0 := by
  induction ops with
  | nil => rfl
  | cons op ops ih =>
    rw [frameEvents, List.flatMap_cons, level_append (level_events self op)]
    exact ih

theorem frameEvents_split (self : Address) (done rest : List FrameOp) (op : FrameOp) :
    frameEvents self (done ++ op :: rest) =
      frameEvents self done ++ (op.events self ++ frameEvents self rest) := by
  simp [frameEvents]

def IsolatedCall.Does (c : IsolatedCall) (ops : List FrameOp) : Prop :=
  c.body = frameEvents c.callee ops

namespace IsolatedCall

section Split
variable {c : IsolatedCall} {done rest : List FrameOp} {op : FrameOp}

theorem Does.body_split (h : c.Does (done ++ op :: rest)) :
    c.body = frameEvents c.callee done ++ (op.events c.callee ++ frameEvents c.callee rest) := by
  rw [← frameEvents_split]
  exact h

def child (c : IsolatedCall) (done rest : List FrameOp) (callee : Address) (inner : Nested)
    (o : CallOutcome) : IsolatedCall where
  pre := c.pre ++ .enter :: frameEvents c.callee done
  body := inner.1
  callee := callee
  leftOverGas := o.leftOverGas
  refundGas := o.refundGas
  err := o.err
  post := frameEvents c.callee rest ++ .leave c.callee c.leftOverGas c.refundGas c.err :: c.post
  depth := c.depth + 1
  pre_level := by
    rw [level_append c.pre_level]
    have h := level_shift (level_frameEvents c.callee done) (c.depth + 1)
    rw [Nat.zero_add] at h
    exact h
  body_level := inner.2
  post_level := by
    have h := level_shift (level_frameEvents c.callee rest) (c.depth + 1)
    rw [Nat.zero_add] at h
    rw [level_append h]
    exact c.post_level

theorem child_events {callee : Address} {inner : Nested} {o : CallOutcome}
    (hop : op.events c.callee = callEvents callee inner o) (h : c.Does (done ++ op :: rest)) :
    (c.child done rest callee inner o).events = c.events := by
  rw [events, events, h.body_split, hop]
  simp [child, callEvents]

theorem child_index (callee : Address) (inner : Nested) (o : CallOutcome) :
    (c.child done rest callee inner o).index =
      c.index + 1 + nested (frameEvents c.callee done) := by
  rw [index, child, nested_append, nested_cons]
  exact (Nat.add_assoc _ _ _).symm

theorem not_sstoreDeviates {loc val : Word} (h : c.Does (done ++ .sstore loc val :: rest)) :
    sstoreDeviates ⟨c.callee, loc, val⟩ c.recorded (c.performed (frameEvents c.callee done)) =
      .ok false := by
  have hcount := c.recorded_totals.1
  have hdone := (c.performed_totals (frameEvents c.callee done)).1
  have hbody : sstores c.body = sstores (frameEvents c.callee done) ++
      ⟨c.callee, loc, val⟩ :: sstores (frameEvents c.callee rest) := by
    rw [h.body_split, sstores_append, sstores_append]
    rfl
  have htrace : c.recorded.sstoreTrace = (sstores c.pre ++ sstores (frameEvents c.callee done)) ++
      ⟨c.callee, loc, val⟩ :: (sstores (frameEvents c.callee rest) ++ sstores c.post) := by
    rw [recorded, Recorder.run_sstoreTrace, events, sstores_append, sstores_cons, sstores_append,
      sstores_cons, hbody]
    simp [Recorder.empty, sstores]
  rw [hbody, List.length_append, List.length_cons] at hcount
  unfold sstoreDeviates
  rw [if_neg (by omega), htrace, hdone, ← List.length_append, List.getElem?_append_right le_rfl,
    Nat.sub_self]
  simp

theorem not_logDeviates {topics : List Word} {data : Bytes}
    (h : c.Does (done ++ .log topics data :: rest)) :
    logDeviates topics data c.recorded (c.performed (frameEvents c.callee done)) = .ok false := by
  have hdone := (c.performed_totals (frameEvents c.callee done)).2.1
  have htrace : c.recorded.eventTraces = (logs c.pre ++ logs (frameEvents c.callee done)) ++
      ⟨topics, data⟩ :: (logs (frameEvents c.callee rest) ++ logs c.post) := by
    rw [recorded, Recorder.run_eventTraces, events, logs_append, logs_cons, logs_append,
      logs_cons, h.body_split, logs_append, logs_append]
    simp [Recorder.empty, logs, FrameOp.events]
  unfold logDeviates
  rw [htrace, hdone, ← List.length_append, List.getElem?_append_right le_rfl, Nat.sub_self]
  simp

theorem not_sha3Deviates {hash : Word} (h : c.Does (done ++ .sha3 hash :: rest)) :
    sha3Deviates c.index hash c.recorded (c.performed (frameEvents c.callee done)) =
      .ok false := by
  obtain ⟨recCt, hrecCt, hcall⟩ := c.recorded_entry
  obtain ⟨subCt, hsubCt, -, -⟩ := c.performed_entry (level_frameEvents c.callee done)
  have hmem : hash ∈ recCt.sha3HashToIndex := by
    rw [hcall.hash, h.body_split]
    rw [ownHashes_append (level_frameEvents c.callee done)]
    exact List.mem_append_right _ List.mem_cons_self
  unfold sha3Deviates
  rw [hrecCt, hsubCt]
  simp [hmem]

theorem callDeviates_eq {kind : CallKind} {target : Address} {input : Bytes} {value : Word}
    {inner : Nested} {o : CallOutcome}
    (h : c.Does (done ++ .call kind target input value inner o :: rest)) :
    callDeviates target c.recorded (c.performed (frameEvents c.callee done)) =
      .ok (decide (recordedCallee kind c.callee target ≠ target)) := by
  have hdone := (c.performed_totals (frameEvents c.callee done)).2.2
  have hevents : (c.child done rest (recordedCallee kind c.callee target) inner o).events =
      c.events := child_events rfl h
  obtain ⟨ct, hct, hcall⟩ :=
    (c.child done rest (recordedCallee kind c.callee target) inner o).recorded_entry
  rw [recorded, hevents, child_index] at hct
  unfold callDeviates
  rw [hdone, recorded, hct]
  dsimp only
  rw [hcall.callee]
  rfl

end Split

/-- While the isolated execution repeats the operations, no check deviates or panics. -/
def NoDeviation (c : IsolatedCall) (ops : List FrameOp) : Prop :=
  ∀ done op rest, ops = done ++ op :: rest →
    op.deviates c.callee c.index c.recorded (c.performed (frameEvents c.callee done)) = .ok false

def DelegatesToSelf (self : Address) (ops : List FrameOp) : Prop :=
  ∀ kind target input value inner o, FrameOp.call kind target input value inner o ∈ ops →
    kind = .callcode ∨ kind = .delegatecall → target = self

theorem recordedCallee_eq_iff (kind : CallKind) (self target : Address) :
    recordedCallee kind self target = target ↔
      (kind = .callcode ∨ kind = .delegatecall → target = self) := by
  cases kind <;> simp [recordedCallee, eq_comm]

theorem noDeviation_iff (c : IsolatedCall) (ops : List FrameOp) (h : c.Does ops) :
    c.NoDeviation ops ↔ DelegatesToSelf c.callee ops := by
  constructor
  · intro hno kind target input value inner o hmem
    obtain ⟨done, rest, rfl⟩ := List.append_of_mem hmem
    have hcheck := hno done _ rest rfl
    rw [FrameOp.deviates, callDeviates_eq h] at hcheck
    exact (recordedCallee_eq_iff kind c.callee target).mp (by simpa using hcheck)
  · rintro hself done op rest rfl
    cases op with
    | sstore loc val => exact not_sstoreDeviates h
    | log topics data => exact not_logDeviates h
    | sha3 hash => exact not_sha3Deviates h
    | gas g => rfl
    | create address inner o => rfl
    | call kind target input value inner o =>
      have heq := (recordedCallee_eq_iff kind c.callee target).mpr
        (hself kind target input value inner o (by simp))
      rw [FrameOp.deviates, callDeviates_eq h, heq]
      simp

def soloRecord (ops : List FrameOp) : IsolatedCall where
  pre := []
  body := frameEvents 1 ops
  callee := 1
  leftOverGas := 0
  refundGas := 0
  err := none
  post := []
  depth := 0
  pre_level := level_nil_zero
  body_level := level_frameEvents 1 ops
  post_level := level_nil_zero

def callTo (kind : CallKind) : FrameOp := .call kind 2 [] 0 ⟨[], level_nil_zero⟩ ⟨0, 0, none⟩

theorem noDeviation_call : (soloRecord [callTo .call]).NoDeviation [callTo .call] := by
  refine (noDeviation_iff (soloRecord [callTo .call]) [callTo .call] rfl).mpr ?_
  intro kind target input value inner o hmem hkind
  simp only [callTo, List.mem_singleton, FrameOp.call.injEq] at hmem
  obtain ⟨rfl, -⟩ := hmem
  simp at hkind

/-- A faithful `DELEGATECALL` counts as a deviation: the record names the caller. -/
theorem delegatecall_deviates :
    (soloRecord [callTo .delegatecall]).Does [callTo .delegatecall] ∧
      (callTo .delegatecall).deviates 1 0 (soloRecord [callTo .delegatecall]).recorded
        ((soloRecord [callTo .delegatecall]).performed []) = .ok true :=
  ⟨rfl, by decide⟩
end IsolatedCall
end EtherVal.Vm
