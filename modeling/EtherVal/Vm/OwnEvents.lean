import EtherVal.Lib.Interleave
import EtherVal.Vm.Deviation

/-!
# What an unreported execution has done (`track_deviation.go`, `evm.go:100-135`)

The checks compare an event of the isolated frame with the entry of the record at the same
position, and at the end only numbers are compared.  Events of the calls below count for the
positions but are not checked.
-/

namespace EtherVal.Vm
open EtherVal.Lib List

def remainingDeviates (isoIndex : Nat) (evmTrace intrTrace : EVMTrace) : Except GoPanic Bool :=
  if evmTrace.sstoreTrace.length ≠ intrTrace.sstoreTrace.length then .ok true
  else if evmTrace.eventTraces.length ≠ intrTrace.eventTraces.length then .ok true
  else if evmTrace.callTraces.length ≠ intrTrace.callTraces.length then .ok true
  else match evmTrace.callTraces[isoIndex]?, intrTrace.callTraces[isoIndex]? with
    | some evmCt, some intrCt =>
      .ok (decide (evmCt.sha3HashToIndex.size ≠ intrCt.sha3HashToIndex.size))
    | _, _ => .error .indexOutOfRange

inductive OwnEvent where
  | sstore (entry : SstoreEntry)
  | log (event : EVMEventTrace)
  | sha3 (hash : Word)
  | call (target : Address)
  | create (address : Address)
  deriving DecidableEq

namespace OwnEvent

def store? : OwnEvent → Option (SstoreEntry ⊕ Address)
  | .sstore entry => some (.inl entry)
  | .call a | .create a => some (.inr a)
  | _ => none

def log? : OwnEvent → Option (EVMEventTrace ⊕ Address)
  | .log event => some (.inl event)
  | .call a | .create a => some (.inr a)
  | _ => none

def call? : OwnEvent → Option (Bool × Address)
  | .call a => some (false, a)
  | .create a => some (true, a)
  | _ => none

end OwnEvent

abbrev storesOf (es : List OwnEvent) : List (SstoreEntry ⊕ Address) := es.filterMap (·.store?)
abbrev logsOf (es : List OwnEvent) : List (EVMEventTrace ⊕ Address) := es.filterMap (·.log?)
abbrev callsOf (es : List OwnEvent) : List (Bool × Address) := es.filterMap (·.call?)

/-- The record has no order between stores and logs: both have the same stores and calls in
order, the same logs and calls in order and the same set of hashes. -/
structure SameOwn (es rec' : List OwnEvent) : Prop where
  stores : storesOf es = storesOf rec'
  logs : logsOf es = logsOf rec'
  hashes : ∀ h, .sha3 h ∈ es ↔ .sha3 h ∈ rec'

structure Aligned (es rec' : List OwnEvent) : Prop where
  stores : Agree (marks 0 (storesOf es)) (marks 0 (storesOf rec'))
  logs : Agree (marks 0 (logsOf es)) (marks 0 (logsOf rec'))

def CreationsMatch (es rec' : List OwnEvent) : Prop :=
  ∀ (k : Nat) (a : Address) (x : Bool × Address),
    (callsOf es)[k]? = some (true, a) → (callsOf rec')[k]? = some x → x.2 = a

structure WithinRecord (es rec' : List OwnEvent) : Prop where
  logs : (lefts (logsOf es)).length ≤ (lefts (logsOf rec')).length
  calls : (callsOf es).length ≤ (callsOf rec').length

namespace FrameOp

def own (self : Address) : FrameOp → Option OwnEvent
  | .sstore loc val => some (.sstore ⟨self, loc, val⟩)
  | .log topics data => some (.log ⟨topics, data⟩)
  | .sha3 hash => some (.sha3 hash)
  | .gas _ => none
  | .call _ target _ _ _ _ => some (.call target)
  | .create address _ _ => some (.create address)

def ownRecorded (self : Address) : FrameOp → Option OwnEvent
  | .call kind target _ _ _ _ => some (.call (recordedCallee kind self target))
  | op => op.own self

def inner : FrameOp → Option Nested
  | .call _ _ _ _ inner _ => some inner
  | .create _ inner _ => some inner
  | _ => none

def storeItem (self : Address) : FrameOp → Option (SstoreEntry ⊕ Nested)
  | .sstore loc val => some (.inl ⟨self, loc, val⟩)
  | .call _ _ _ _ inner _ | .create _ inner _ => some (.inr inner)
  | _ => none

def logItem : FrameOp → Option (EVMEventTrace ⊕ Nested)
  | .log topics data => some (.inl ⟨topics, data⟩)
  | .call _ _ _ _ inner _ | .create _ inner _ => some (.inr inner)
  | _ => none

end FrameOp

abbrev ownEvents (self : Address) (ops : List FrameOp) : List OwnEvent :=
  ops.filterMap (·.own self)

abbrev recordedEvents (self : Address) (ops : List FrameOp) : List OwnEvent :=
  ops.filterMap (·.ownRecorded self)

abbrev inners (ops : List FrameOp) : List Nested := ops.filterMap (·.inner)

abbrev storeItems (self : Address) (ops : List FrameOp) : List (SstoreEntry ⊕ Nested) :=
  ops.filterMap (·.storeItem self)

abbrev logItems (ops : List FrameOp) : List (EVMEventTrace ⊕ Nested) := ops.filterMap (·.logItem)

section Frame
variable (self : Address) (ops : List FrameOp)

theorem sameShape_storesOf_own :
    SameShape (storesOf (ownEvents self ops)) (storeItems self ops) := by
  rw [storesOf, filterMap_filterMap]
  exact sameShape_filterMap (fun op => by cases op <;> rfl) ops

theorem sameShape_storesOf_recorded :
    SameShape (storesOf (recordedEvents self ops)) (storeItems self ops) := by
  rw [storesOf, filterMap_filterMap]
  exact sameShape_filterMap (fun op => by cases op <;> rfl) ops

theorem sameShape_logsOf_own : SameShape (logsOf (ownEvents self ops)) (logItems ops) := by
  rw [logsOf, filterMap_filterMap]
  exact sameShape_filterMap (fun op => by cases op <;> rfl) ops

theorem sameShape_logsOf_recorded :
    SameShape (logsOf (recordedEvents self ops)) (logItems ops) := by
  rw [logsOf, filterMap_filterMap]
  exact sameShape_filterMap (fun op => by cases op <;> rfl) ops

theorem lefts_storesOf_own :
    lefts (storesOf (ownEvents self ops)) = lefts (storeItems self ops) := by
  rw [storesOf, filterMap_filterMap, lefts_filterMap, lefts_filterMap]
  exact filterMap_congr fun op _ => by cases op <;> rfl

theorem lefts_storesOf_recorded :
    lefts (storesOf (recordedEvents self ops)) = lefts (storeItems self ops) := by
  rw [storesOf, filterMap_filterMap, lefts_filterMap, lefts_filterMap]
  exact filterMap_congr fun op _ => by cases op <;> rfl

theorem lefts_logsOf_own : lefts (logsOf (ownEvents self ops)) = lefts (logItems ops) := by
  rw [logsOf, filterMap_filterMap, lefts_filterMap, lefts_filterMap]
  exact filterMap_congr fun op _ => by cases op <;> rfl

theorem lefts_logsOf_recorded :
    lefts (logsOf (recordedEvents self ops)) = lefts (logItems ops) := by
  rw [logsOf, filterMap_filterMap, lefts_filterMap, lefts_filterMap]
  exact filterMap_congr fun op _ => by cases op <;> rfl

theorem rights_storesOf (es : List OwnEvent) :
    rights (storesOf es) = (callsOf es).map Prod.snd := by
  rw [rights_filterMap, map_filterMap]
  exact filterMap_congr fun e _ => by cases e <;> rfl

theorem rights_logsOf (es : List OwnEvent) : rights (logsOf es) = (callsOf es).map Prod.snd := by
  rw [rights_filterMap, map_filterMap]
  exact filterMap_congr fun e _ => by cases e <;> rfl

theorem SameOwn.calls {es rec' : List OwnEvent} (hs : SameOwn es rec') :
    (callsOf es).map Prod.snd = (callsOf rec').map Prod.snd := by
  rw [← rights_storesOf, hs.stores, rights_storesOf]

theorem rights_storeItems : rights (storeItems self ops) = inners ops := by
  rw [rights_filterMap]
  exact filterMap_congr fun op _ => by cases op <;> rfl

theorem rights_logItems : rights (logItems ops) = inners ops := by
  rw [rights_filterMap]
  exact filterMap_congr fun op _ => by cases op <;> rfl

theorem length_callsOf_own : (callsOf (ownEvents self ops)).length = (inners ops).length := by
  induction ops with
  | nil => rfl
  | cons op ops ih =>
    cases op with
    | call => exact congrArg (· + 1) ih
    | create => exact congrArg (· + 1) ih
    | _ => exact ih

theorem length_callsOf_recorded :
    (callsOf (recordedEvents self ops)).length = (inners ops).length := by
  induction ops with
  | nil => rfl
  | cons op ops ih =>
    cases op with
    | call => exact congrArg (· + 1) ih
    | create => exact congrArg (· + 1) ih
    | _ => exact ih

theorem sstores_callEvents (callee : Address) (inner : Nested) (o : CallOutcome) :
    sstores (callEvents callee inner o) = sstores inner.1 := by
  rw [callEvents, sstores_cons, sstores_append]
  simp [sstores]

theorem logs_callEvents (callee : Address) (inner : Nested) (o : CallOutcome) :
    logs (callEvents callee inner o) = logs inner.1 := by
  rw [callEvents, logs_cons, logs_append]
  simp [logs]

theorem nested_callEvents (callee : Address) (inner : Nested) (o : CallOutcome) :
    nested (callEvents callee inner o) = nested inner.1 + 1 := by
  rw [callEvents, nested_cons, nested_append]
  simp [nested, Nat.add_comm]

theorem spread_storeItems :
    spread (fun n => sstores n.1) (storeItems self ops) = sstores (frameEvents self ops) := by
  induction ops with
  | nil => rfl
  | cons op ops ih =>
    rw [frameEvents, flatMap_cons, sstores_append]
    cases op with
    | call => exact congr (congrArg _ (sstores_callEvents _ _ _).symm) ih
    | create => exact congr (congrArg _ (sstores_callEvents _ _ _).symm) ih
    | sstore => exact congrArg _ ih
    | _ => exact ih

theorem spread_logItems :
    spread (fun n => logs n.1) (logItems ops) = logs (frameEvents self ops) := by
  induction ops with
  | nil => rfl
  | cons op ops ih =>
    rw [frameEvents, flatMap_cons, logs_append]
    cases op with
    | call => exact congr (congrArg _ (logs_callEvents _ _ _).symm) ih
    | create => exact congr (congrArg _ (logs_callEvents _ _ _).symm) ih
    | log => exact congrArg _ ih
    | _ => exact ih

theorem nested_frameEvents :
    nested (frameEvents self ops) = ((inners ops).map fun n => nested n.1 + 1).sum := by
  induction ops with
  | nil => rfl
  | cons op ops ih =>
    rw [frameEvents, flatMap_cons, nested_append, ← frameEvents, ih]
    cases op with
    | call => exact congrArg (· + _) (nested_callEvents _ _ _)
    | create => exact congrArg (· + _) (nested_callEvents _ _ _)
    | _ => exact Nat.zero_add _

end Frame

theorem ownHashes_below {es : List TraceEvent} {a b : Nat} (h : level es a = some b) :
    ownHashes es (a + 1) = [] := by
  induction es generalizing a with
  | nil => rfl
  | cons e es ih =>
    cases e with
    | leave =>
      cases a with
      | zero => cases h
      | succ a => exact ih h
    | _ => exact ih h

theorem ownHashes_callEvents (callee : Address) (inner : Nested) (o : CallOutcome) :
    ownHashes (callEvents callee inner o) 0 = [] := by
  change ownHashes (inner.1 ++ _) 1 = []
  rw [ownHashes_append (level_shift inner.2 1), ownHashes_below inner.2]
  rfl

theorem mem_ownHashes (self : Address) (ops : List FrameOp) (h : Word) :
    h ∈ ownHashes (frameEvents self ops) 0 ↔ .sha3 h ∈ ownEvents self ops := by
  induction ops with
  | nil => simp [frameEvents, ownHashes]
  | cons op ops ih =>
    rw [frameEvents, flatMap_cons, ownHashes_append (level_events self op), mem_append,
      ← frameEvents, ih]
    cases op with
    | call => simp [FrameOp.events, ownHashes_callEvents, FrameOp.own]
    | create => simp [FrameOp.events, ownHashes_callEvents, FrameOp.own]
    | _ => simp [FrameOp.events, ownHashes, FrameOp.own]

theorem sha3_mem_recordedEvents (self : Address) (ops : List FrameOp) (h : Word) :
    .sha3 h ∈ recordedEvents self ops ↔ .sha3 h ∈ ownEvents self ops := by
  rw [mem_filterMap, mem_filterMap]
  refine exists_congr fun op => and_congr_right fun _ => ?_
  cases op <;> simp [FrameOp.ownRecorded, FrameOp.own]

namespace IsolatedCall

theorem remainingDeviates_false {i : Nat} {t t' : EVMTrace}
    (h : remainingDeviates i t t' = .ok false) :
    t.sstoreTrace.length = t'.sstoreTrace.length ∧ t.eventTraces.length = t'.eventTraces.length ∧
      t.callTraces.length = t'.callTraces.length ∧
      ∀ ct ct', t.callTraces[i]? = some ct → t'.callTraces[i]? = some ct' →
        ct.sha3HashToIndex.size = ct'.sha3HashToIndex.size := by
  unfold remainingDeviates at h
  split at h
  · cases h
  · split at h
    · cases h
    · split at h
      · cases h
      · next h1 h2 h3 =>
        refine ⟨not_not.mp h1, not_not.mp h2, not_not.mp h3, ?_⟩
        intro ct ct' hct hct'
        rw [hct, hct'] at h
        simpa using h

theorem recorded_sstoreTrace (c : IsolatedCall) :
    c.recorded.sstoreTrace = sstores c.pre ++ (sstores c.body ++ sstores c.post) := by
  rw [recorded, Recorder.run_sstoreTrace, events, sstores_append, sstores_cons, sstores_append,
    sstores_cons]
  simp [Recorder.empty, sstores]

theorem recorded_eventTraces (c : IsolatedCall) :
    c.recorded.eventTraces = logs c.pre ++ (logs c.body ++ logs c.post) := by
  rw [recorded, Recorder.run_eventTraces, events, logs_append, logs_cons, logs_append, logs_cons]
  simp [Recorder.empty, logs]

theorem performed_sstoreTrace (c : IsolatedCall) (iso : List TraceEvent) :
    (c.performed iso).sstoreTrace = sstores c.pre ++ sstores iso := by
  simp [performed, Recorder.run_sstoreTrace, start, Recorder.beginRun, opened, sstores,
    Recorder.empty]

structure Unreported (c : IsolatedCall) (rec' ops : List FrameOp) : Prop where
  does : c.Does rec'
  checked : c.NoDeviation ops
  children : Agree (inners rec') (inners ops)
  remaining : remainingDeviates c.index c.recorded (c.performed (frameEvents c.callee ops)) =
    .ok false

structure NothingAfter (c : IsolatedCall) : Prop where
  sstores : (sstores c.post).length = 0
  logs : (logs c.post).length = 0
  calls : nested c.post = 0

section Unreported
variable {c : IsolatedCall} {rec' ops : List FrameOp} (h : c.Unreported rec' ops)
include h

theorem Unreported.totals :
    (Vm.sstores (frameEvents c.callee ops)).length =
        (Vm.sstores (frameEvents c.callee rec')).length + (Vm.sstores c.post).length ∧
      (Vm.logs (frameEvents c.callee ops)).length =
        (Vm.logs (frameEvents c.callee rec')).length + (Vm.logs c.post).length ∧
      nested (frameEvents c.callee ops) =
        nested (frameEvents c.callee rec') + nested c.post := by
  obtain ⟨hs, hl, hc, -⟩ := remainingDeviates_false h.remaining
  obtain ⟨-, hrecLogs, hrecCalls⟩ := c.recorded_totals
  obtain ⟨-, hsubLogs, hsubCalls⟩ := c.performed_totals (frameEvents c.callee ops)
  rw [recorded_sstoreTrace, performed_sstoreTrace] at hs
  simp only [length_append] at hs
  have hbody : c.body = frameEvents c.callee rec' := h.does
  rw [hbody] at hs hrecLogs hrecCalls
  refine ⟨?_, ?_, ?_⟩ <;> omega

end Unreported

theorem length_sstores (self : Address) (ops : List FrameOp) :
    (Vm.sstores (frameEvents self ops)).length = (lefts (storeItems self ops)).length +
      ((inners ops).map fun n => (Vm.sstores n.1).length).sum := by
  rw [← spread_storeItems, length_spread, rights_storeItems]

theorem length_logs (self : Address) (ops : List FrameOp) :
    (Vm.logs (frameEvents self ops)).length = (lefts (logItems ops)).length +
      ((inners ops).map fun n => (Vm.logs n.1).length).sum := by
  rw [← spread_logItems, length_spread, rights_logItems]

theorem recorded_call {c : IsolatedCall} {done rest : List FrameOp} {op : FrameOp} {b : Bool}
    {a : Address} (h : c.Does (done ++ op :: rest))
    (hop : (op.ownRecorded c.callee).bind (·.call?) = some (b, a)) :
    ∃ ct, c.recorded.callTraces[c.index + 1 + nested (frameEvents c.callee done)]? = some ct ∧
      ct.callee = a := by
  obtain ⟨inner, o, hevents⟩ : ∃ inner o, op.events c.callee = callEvents a inner o := by
    cases op with
    | call kind target input value inner o =>
      cases hop
      exact ⟨inner, o, rfl⟩
    | create address inner o =>
      cases hop
      exact ⟨inner, o, rfl⟩
    | _ => cases hop
  obtain ⟨ct, hct, hcall⟩ := (c.child done rest a inner o).recorded_entry
  rw [recorded, child_events hevents h, child_index] at hct
  exact ⟨ct, hct, hcall.callee⟩

theorem NoDeviation.target {c : IsolatedCall} {ops done rest : List FrameOp} {kind : CallKind}
    {target : Address} {input : Bytes} {value : Word} {inner : Nested} {o : CallOutcome}
    (h : c.NoDeviation ops) (hops : ops = done ++ .call kind target input value inner o :: rest)
    {ct : EVMCallTrace}
    (hct : c.recorded.callTraces[c.index + 1 + nested (frameEvents c.callee done)]? = some ct) :
    ct.callee = target := by
  have hcheck := h done _ rest hops
  rw [FrameOp.deviates, callDeviates, (c.performed_totals _).2.2, hct] at hcheck
  simpa using hcheck

section Unreported
variable {c : IsolatedCall} {rec' ops : List FrameOp} (h : c.Unreported rec' ops)
include h

theorem Unreported.inners_eq (hafter : nested c.post = 0) : inners rec' = inners ops := by
  refine h.children.eq_of_sum (f := fun n => nested n.1 + 1) (fun n => Nat.succ_pos _) ?_
  rw [← nested_frameEvents c.callee, ← nested_frameEvents c.callee]
  have := h.totals.2.2
  omega

theorem Unreported.targets (hafter : nested c.post = 0)
    (hnew : CreationsMatch (ownEvents c.callee ops) (recordedEvents c.callee rec')) :
    (callsOf (ownEvents c.callee ops)).map Prod.snd =
      (callsOf (recordedEvents c.callee rec')).map Prod.snd := by
  have hin := h.inners_eq hafter
  have hlen : ((callsOf (ownEvents c.callee ops)).map Prod.snd).length =
      ((callsOf (recordedEvents c.callee rec')).map Prod.snd).length := by
    rw [length_map, length_map, length_callsOf_own, length_callsOf_recorded, hin]
  refine Agree.eq_of_length (fun k x y hx hy => ?_) hlen
  rw [getElem?_map] at hx hy
  obtain ⟨⟨b, x⟩, hbx, rfl⟩ := Option.map_eq_some_iff.mp hx
  obtain ⟨⟨b', y⟩, hby, rfl⟩ := Option.map_eq_some_iff.mp hy
  cases b with
  | true => exact (hnew k x (b', y) hbx hby).symm
  | false =>
    rw [callsOf, filterMap_filterMap] at hbx hby
    obtain ⟨done, op, rest, hops, hop, hk⟩ := getElem_filterMap hbx
    obtain ⟨done', op', rest', hrec, hop', hk'⟩ := getElem_filterMap hby
    rw [← filterMap_filterMap] at hk hk'
    have hdone : inners done = inners done' := by
      rw [hops, hrec, inners, inners, filterMap_append, filterMap_append] at hin
      refine (append_inj hin.symm ?_).1
      rw [← length_callsOf_own c.callee, ← length_callsOf_recorded c.callee, hk, hk']
    obtain ⟨ct, hct, rfl⟩ := recorded_call (hrec ▸ h.does) hop'
    rw [nested_frameEvents, ← hdone, ← nested_frameEvents c.callee] at hct
    cases op with
    | call kind target input value inner o =>
      obtain rfl := (Prod.mk.inj (Option.some.inj hop)).2
      exact (h.checked.target hops hct).symm
    | _ => cases hop

theorem Unreported.length_stores (hin : inners rec' = inners ops) :
    (lefts (storeItems c.callee ops)).length =
      (lefts (storeItems c.callee rec')).length + (Vm.sstores c.post).length := by
  have hs := h.totals.1
  rw [length_sstores, length_sstores, hin] at hs
  omega

theorem Unreported.length_logs (hin : inners rec' = inners ops) :
    (lefts (logItems ops)).length = (lefts (logItems rec')).length + (Vm.logs c.post).length := by
  have hl := h.totals.2.1
  rw [IsolatedCall.length_logs, IsolatedCall.length_logs, hin] at hl
  omega

theorem Unreported.stores (hafter : c.NothingAfter)
    (hal : Agree (marks 0 (storesOf (ownEvents c.callee ops)))
      (marks 0 (storesOf (recordedEvents c.callee rec')))) :
    SameShape (storeItems c.callee ops) (storeItems c.callee rec') ∧
      lefts (storeItems c.callee ops) = lefts (storeItems c.callee rec') := by
  have hin := h.inners_eq hafter.calls
  have hshape : SameShape (storeItems c.callee ops) (storeItems c.callee rec') := by
    rw [(sameShape_storesOf_own _ _).marks_eq, (sameShape_storesOf_recorded _ _).marks_eq] at hal
    refine sameShape_of_marks (hal.eq_of_length ?_) ?_
    · rw [marks_length, marks_length, rights_storeItems, rights_storeItems, hin]
    · have := h.length_stores hin
      have := hafter.sstores
      omega
  refine ⟨hshape, lefts_eq_of_positions (fun n => Vm.sstores n.1) hshape ?_ ?_⟩
  · rw [rights_storeItems, rights_storeItems, hin]
  intro d entry r hd
  have hget : (storeItems c.callee ops)[d.length]? = some (.inl entry) := by
    rw [hd]
    simp
  obtain ⟨done, op, rest, hops, hop, hlen⟩ := getElem_filterMap hget
  have hdone : storeItems c.callee done = d := by
    rw [hops, storeItems, filterMap_append] at hd
    exact (append_inj hd hlen).1
  cases op with
  | sstore loc val =>
    cases Option.some.inj hop
    have hcheck := h.checked done _ rest hops
    have hcount := (c.performed_totals (frameEvents c.callee done)).1
    rw [FrameOp.deviates, sstoreDeviates, hcount, recorded_sstoreTrace] at hcheck
    split at hcheck
    · cases hcheck
    · rw [getElem?_append_right (by omega), Nat.add_sub_cancel_left,
        length_eq_zero_iff.mp hafter.sstores, append_nil] at hcheck
      rw [spread_storeItems, ← hdone, spread_storeItems, ← show c.body = _ from h.does]
      split at hcheck
      · cases hcheck
      · next recorded hrecorded =>
        rw [hrecorded]
        exact congrArg some (not_not.mp (of_decide_eq_false (Except.ok.inj hcheck))).symm
  | _ => cases hop

theorem Unreported.logs (hafter : c.NothingAfter)
    (hal : Agree (marks 0 (logsOf (ownEvents c.callee ops)))
      (marks 0 (logsOf (recordedEvents c.callee rec')))) :
    SameShape (logItems ops) (logItems rec') ∧ lefts (logItems ops) = lefts (logItems rec') := by
  have hin := h.inners_eq hafter.calls
  have hshape : SameShape (logItems ops) (logItems rec') := by
    rw [(sameShape_logsOf_own _ _).marks_eq, (sameShape_logsOf_recorded _ _).marks_eq] at hal
    refine sameShape_of_marks (hal.eq_of_length ?_) ?_
    · rw [marks_length, marks_length, rights_logItems, rights_logItems, hin]
    · have := h.length_logs hin
      have := hafter.logs
      omega
  refine ⟨hshape, lefts_eq_of_positions (fun n => Vm.logs n.1) hshape ?_ ?_⟩
  · rw [rights_logItems, rights_logItems, hin]
  intro d event r hd
  have hget : (logItems ops)[d.length]? = some (.inl event) := by
    rw [hd]
    simp
  obtain ⟨done, op, rest, hops, hop, hlen⟩ := getElem_filterMap hget
  have hdone : logItems done = d := by
    rw [hops, logItems, filterMap_append] at hd
    exact (append_inj hd hlen).1
  cases op with
  | log topics data =>
    cases Option.some.inj hop
    have hcheck := h.checked done _ rest hops
    have hcount := (c.performed_totals (frameEvents c.callee done)).2.1
    rw [FrameOp.deviates, logDeviates, hcount, recorded_eventTraces,
      getElem?_append_right (by omega), Nat.add_sub_cancel_left,
      length_eq_zero_iff.mp hafter.logs, append_nil] at hcheck
    rw [spread_logItems c.callee, ← hdone, spread_logItems c.callee, ← show c.body = _ from h.does]
    split at hcheck
    · cases hcheck
    · next evmLog hlog =>
      rw [hlog]
      have hsame : topics = evmLog.topics ∧ data = evmLog.data := by simpa using hcheck
      rw [hsame.1, hsame.2]
  | _ => cases hop

theorem Unreported.hashes (hash : Word) :
    .sha3 hash ∈ ownEvents c.callee ops ↔ .sha3 hash ∈ recordedEvents c.callee rec' := by
  obtain ⟨recCt, hrecCt, hcall⟩ := c.recorded_entry
  obtain ⟨subCt, hsubCt, -, hsub⟩ := c.performed_entry (level_frameEvents c.callee ops)
  have hsize := (remainingDeviates_false h.remaining).2.2.2 recCt subCt hrecCt hsubCt
  have hdone : ∀ done rest, ops = done ++ rest →
      ∀ w ∈ ownHashes (frameEvents c.callee done) 0, w ∈ recCt.sha3HashToIndex := by
    intro done
    induction done using List.reverseRecOn with
    | nil =>
      intro rest hops w hw
      cases hw
    | append_singleton done op ih =>
      intro rest hops w hw
      rw [append_assoc] at hops
      have hlast : w ∈ ownHashes (frameEvents c.callee done) 0 ∨
          .sha3 w ∈ ownEvents c.callee [op] := by
        rw [mem_ownHashes, ownEvents, filterMap_append, mem_append] at hw
        rwa [mem_ownHashes]
      rcases hlast with hw | hw
      · exact ih _ hops w hw
      · cases op with
        | sha3 w' =>
          obtain rfl : w = w' := by simpa [FrameOp.own] using hw
          obtain ⟨ct, hct, -, hmem⟩ := c.performed_entry (level_frameEvents c.callee done)
          have hcheck := h.checked done _ rest hops
          rw [FrameOp.deviates, sha3Deviates, hrecCt, hct] at hcheck
          by_cases hold : w ∈ ct.sha3HashToIndex
          · exact ih _ hops w ((hmem w).mp hold)
          · simpa [hold] using hcheck
        | _ => simp [FrameOp.own] at hw
  have hsubset : ∀ w ∈ subCt.sha3HashToIndex, w ∈ recCt.sha3HashToIndex := by
    intro w hw
    exact hdone ops [] (append_nil ops).symm w ((hsub w).mp hw)
  have hbody : hash ∈ recCt.sha3HashToIndex ↔ .sha3 hash ∈ recordedEvents c.callee rec' := by
    rw [hcall.hash, sha3_mem_recordedEvents, ← mem_ownHashes, ← show c.body = _ from h.does]
  rw [← hbody, ← mem_ownHashes, ← hsub]
  exact ⟨hsubset hash, GoMap.mem_of_subset_of_size hsubset hsize.symm hash⟩

/-- The conditions under which an unreported execution has done what is recorded. -/
structure Faithful (c : IsolatedCall) (es rec' : List OwnEvent) : Prop where
  after : c.NothingAfter
  aligned : Aligned es rec'
  creations : CreationsMatch es rec'
  within : WithinRecord es rec'

omit h in
theorem inners_eq_of_calls {es : List OwnEvent} (hchildren : Agree (inners rec') (inners ops))
    (hcalls : (callsOf es).map Prod.snd = (callsOf (recordedEvents c.callee rec')).map Prod.snd)
    (hes : (callsOf es).length = (inners ops).length) : inners rec' = inners ops := by
  refine hchildren.eq_of_length ?_
  rw [← hes, ← length_callsOf_recorded c.callee, ← length_map Prod.snd, ← hcalls,
    length_map]

theorem Unreported.sameOwn (hf : c.Faithful (ownEvents c.callee ops)
    (recordedEvents c.callee rec')) :
    SameOwn (ownEvents c.callee ops) (recordedEvents c.callee rec') where
  stores := by
    obtain ⟨hshape, hlefts⟩ := h.stores hf.after hf.aligned.stores
    refine eq_of_sameShape ?_ ?_ ?_
    · exact (sameShape_storesOf_own _ _).trans
        (hshape.trans (sameShape_storesOf_recorded _ _).symm)
    · rw [lefts_storesOf_own, lefts_storesOf_recorded, hlefts]
    · rw [rights_storesOf, rights_storesOf, h.targets hf.after.calls hf.creations]
  logs := by
    obtain ⟨hshape, hlefts⟩ := h.logs hf.after hf.aligned.logs
    refine eq_of_sameShape ?_ ?_ ?_
    · exact (sameShape_logsOf_own _ _).trans (hshape.trans (sameShape_logsOf_recorded _ _).symm)
    · rw [lefts_logsOf_own, lefts_logsOf_recorded, hlefts]
    · rw [rights_logsOf, rights_logsOf, h.targets hf.after.calls hf.creations]
  hashes := h.hashes

omit h in
theorem faithful_of_sameOwn {es rec' : List OwnEvent} (hs : SameOwn es rec')
    (hafter : c.NothingAfter) : c.Faithful es rec' where
  after := hafter
  aligned := ⟨by rw [hs.stores]; exact .refl _, by rw [hs.logs]; exact .refl _⟩
  creations := by
    intro k a x ha hx
    have hk := congrArg (·[k]?) hs.calls
    simp only [getElem?_map, ha, hx, Option.map_some, Option.some.injEq] at hk
    exact hk.symm
  within := by
    refine ⟨by rw [hs.logs], ?_⟩
    have := congrArg List.length hs.calls
    simp only [length_map] at this
    omega

theorem Unreported.faithful (hs : SameOwn (ownEvents c.callee ops)
    (recordedEvents c.callee rec')) :
    c.Faithful (ownEvents c.callee ops) (recordedEvents c.callee rec') := by
  have hin := inners_eq_of_calls h.children hs.calls (length_callsOf_own _ _)
  refine faithful_of_sameOwn hs ⟨?_, ?_, ?_⟩
  · have hlen := h.length_stores hin
    rw [← lefts_storesOf_own, hs.stores, lefts_storesOf_recorded] at hlen
    omega
  · have hlen := h.length_logs hin
    rw [← lefts_logsOf_own c.callee, hs.logs, lefts_logsOf_recorded] at hlen
    omega
  · have hcalls := h.totals.2.2
    rw [nested_frameEvents, nested_frameEvents, hin] at hcalls
    omega

theorem Unreported.extra_log (event : EVMEventTrace) :
    ¬ SameOwn (ownEvents c.callee ops ++ [.log event]) (recordedEvents c.callee rec') ∧
      ¬ c.Faithful (ownEvents c.callee ops ++ [.log event]) (recordedEvents c.callee rec') := by
  have hcalls : callsOf (ownEvents c.callee ops ++ [.log event]) =
      callsOf (ownEvents c.callee ops) := by simp [callsOf, OwnEvent.call?]
  have hlogs : (lefts (logsOf (ownEvents c.callee ops ++ [.log event]))).length =
      (lefts (logItems ops)).length + 1 := by
    rw [logsOf, filterMap_append, lefts_append, length_append, ← logsOf,
      lefts_logsOf_own]
    rfl
  constructor
  · intro hs
    have hin := inners_eq_of_calls h.children hs.calls (by rw [hcalls, length_callsOf_own])
    have hlen := h.length_logs hin
    rw [hs.logs, lefts_logsOf_recorded] at hlogs
    omega
  · intro hf
    have hlen := h.length_logs (h.inners_eq hf.after.calls)
    have hwithin := hf.within.logs
    rw [hlogs, lefts_logsOf_recorded] at hwithin
    have := hf.after.logs
    omega

theorem Unreported.extra_call (target : Address) :
    ¬ SameOwn (ownEvents c.callee ops ++ [.call target]) (recordedEvents c.callee rec') ∧
      ¬ c.Faithful (ownEvents c.callee ops ++ [.call target])
        (recordedEvents c.callee rec') := by
  have hcalls : (callsOf (ownEvents c.callee ops ++ [.call target])).length =
      (inners ops).length + 1 := by
    rw [callsOf, filterMap_append, length_append, ← callsOf, length_callsOf_own]
    rfl
  constructor
  · intro hs
    have hlen := congrArg List.length hs.calls
    rw [length_map, length_map, hcalls, length_callsOf_recorded] at hlen
    have htotal := h.totals.2.2
    rw [nested_frameEvents, nested_frameEvents] at htotal
    have hlt := h.children.sum_lt (f := fun n => nested n.1 + 1) (fun n => Nat.succ_pos _)
      (by omega)
    omega
  · intro hf
    have hwithin := hf.within.calls
    rw [hcalls, length_callsOf_recorded, h.inners_eq hf.after.calls] at hwithin
    omega

end Unreported

end IsolatedCall

end EtherVal.Vm
