import EtherVal.Vm.Interpreter
import EtherVal.Vm.Recorder

/-!
# Recorded out-of-gas points (`delta_semantics.go:109-161`)

`CheckOutOfGas` finds the calls below the isolated call by their depth, but compares the
numbers of stores and logs with those of the whole transaction.
-/

namespace EtherVal.Vm
open EtherVal.Lib List

/-- A transaction with one call singled out: what happened before it, in it and after it. -/
structure IsolatedCall where
  pre : List TraceEvent
  body : List TraceEvent
  callee : Address
  leftOverGas : Nat
  refundGas : Nat
  err : Option VmError
  post : List TraceEvent
  /-- the calls in progress when this one starts -/
  depth : Nat
  pre_level : level pre 0 = some depth
  body_level : level body 0 = some 0
  post_level : level post depth = some 0

namespace IsolatedCall

def events (c : IsolatedCall) : List TraceEvent :=
  c.pre ++ .enter :: (c.body ++ .leave c.callee c.leftOverGas c.refundGas c.err :: c.post)

def index (c : IsolatedCall) : Nat := nested c.pre

def recorded (c : IsolatedCall) : EVMTrace := (Recorder.empty.run c.events).trace

def opened (c : IsolatedCall) : Recorder := Recorder.empty.run (c.pre ++ [.enter])

def start (c : IsolatedCall) : Recorder := c.opened.beginRun

def performed (c : IsolatedCall) (iso : List TraceEvent) : EVMTrace := (c.start.run iso).trace

theorem level_events (c : IsolatedCall) : level c.events 0 = some 0 := by
  have hbody := level_shift c.body_level (c.depth + 1)
  rw [events, level_append c.pre_level]
  change level (c.body ++ _) (c.depth + 1) = some 0
  rw [Nat.zero_add] at hbody
  rw [level_append hbody]
  exact c.post_level

theorem depths_events (c : IsolatedCall) :
    depths c.events 0 =
      depths c.pre 0 ++ (c.depth + 1) ::
      (depths c.body (c.depth + 1) ++ depths c.post c.depth) := by
  have hbody := level_shift c.body_level (c.depth + 1)
  rw [Nat.zero_add] at hbody
  rw [events, depths_append c.pre_level]
  change _ ++ (c.depth + 1) :: depths (c.body ++ _) (c.depth + 1) = _
  rw [depths_append hbody]
  rfl

theorem recorded_hasDepths (c : IsolatedCall) :
    (Recorder.empty.run c.events).HasDepths (depths c.events 0) ∧
      (Recorder.empty.run c.events).open' = [] := by
  obtain ⟨hd, ho⟩ := Recorder.hasDepths_empty.run c.level_events
  exact ⟨hd, length_eq_zero_iff.mp ho⟩

theorem recorded_depths (c : IsolatedCall) :
    c.recorded.callTraces.map (·.depth) = (depths c.events 0).map Int.ofNat := by
  obtain ⟨hd, ho⟩ := c.recorded_hasDepths
  apply ext_getElem?
  intro j
  rw [getElem?_map, getElem?_map]
  cases hj : c.recorded.callTraces[j]? with
  | none =>
    have hlen : c.recorded.callTraces.length = (depths c.events 0).length := hd.length
    have hge := getElem?_eq_none_iff.mp hj
    rw [getElem?_eq_none_iff.mpr (hlen ▸ hge)]
    rfl
  | some ct =>
    obtain ⟨x, hx, hdepth⟩ := hd.returned j ct hj (by rw [ho]; exact not_mem_nil)
    rw [hx]
    exact congrArg some hdepth

theorem recorded_drop (c : IsolatedCall) :
    (c.recorded.callTraces.drop (c.index + 1)).map (·.depth) =
      (depths c.body (c.depth + 1) ++ depths c.post c.depth).map Int.ofNat := by
  rw [map_drop, recorded_depths, ← map_drop, depths_events]
  congr 1
  have hlen : c.index + 1 = (depths c.pre 0 ++ [c.depth + 1]).length := by
    simp [index, depths_length]
  rw [append_cons, hlen, drop_left]

theorem callTreeLength_recorded (c : IsolatedCall) :
    callTreeLength c.recorded.callTraces c.index ((c.depth + 1 : Nat) : Int) =
      c.index + 1 + nested c.body := by
  unfold callTreeLength
  congr 1
  have hmap := c.recorded_drop
  generalize c.recorded.callTraces.drop (c.index + 1) = cts at hmap
  have hlen : (cts.takeWhile fun ct => ((c.depth + 1 : Nat) : Int) < ct.depth).length =
      ((cts.map (·.depth)).takeWhile fun x => ((c.depth + 1 : Nat) : Int) < x).length := by
    rw [takeWhile_map, length_map]
    rfl
  rw [hlen, hmap, takeWhile_map, length_map, takeWhile_append_of_pos]
  · have htail : (depths c.post c.depth).takeWhile
        ((fun x : Int => decide (((c.depth + 1 : Nat) : Int) < x)) ∘ Int.ofNat) = [] := by
      cases hp : depths c.post c.depth with
      | nil => rfl
      | cons x xs =>
        have hx : x ≤ c.depth + 1 := head_depths_le (by rw [hp]; rfl)
        apply takeWhile_cons_of_neg
        simp only [Function.comp_apply, decide_eq_true_eq, Int.ofNat_eq_natCast, Nat.cast_lt]
        omega
    rw [htail, append_nil, depths_length]
  · intro x hx
    have hlt := lt_of_mem_depths c.body_level (c := c.depth + 1) (by rwa [Nat.zero_add])
    simp only [Function.comp_apply, decide_eq_true_eq, Int.ofNat_eq_natCast, Nat.cast_lt]
    exact hlt

theorem opened_open (c : IsolatedCall) :
    c.opened.open' = c.index :: (Recorder.empty.run c.pre).open' ∧
      c.opened.open'.length = c.depth + 1 := by
  obtain ⟨hd, ho⟩ := Recorder.hasDepths_empty.run c.pre_level
  have hopen : c.opened.open' = c.index :: (Recorder.empty.run c.pre).open' := by
    rw [opened, Recorder.run_append]
    simp [Recorder.step, Recorder.run_length, index, Recorder.empty]
  exact ⟨hopen, by rw [hopen, length_cons, ho]⟩

theorem opened_entry (c : IsolatedCall) :
    c.opened.trace.callTraces[c.index]? = some newCallTrace := by
  have hlen : (Recorder.empty.run c.pre).trace.callTraces.length = c.index := by
    simp [Recorder.run_length, index, Recorder.empty]
  rw [opened, Recorder.run_append]
  simp [Recorder.step, ← hlen]

theorem opened_within (c : IsolatedCall) :
    c.opened.Within c.index (Recorder.empty.run c.pre).open' 0 where
  shape := ⟨[], c.opened_open.1, rfl, not_mem_nil⟩
  lt := (List.getElem?_eq_some_iff.mp c.opened_entry).1

theorem index_notMem_outer (c : IsolatedCall) : c.index ∉ (Recorder.empty.run c.pre).open' := by
  obtain ⟨hd, -⟩ := Recorder.hasDepths_empty.run c.pre_level
  intro hmem
  have hlt := hd.levels.lt hmem
  rw [← hd.length, Recorder.run_length] at hlt
  simp [index, Recorder.empty] at hlt

theorem start_within (c : IsolatedCall) :
    c.start.Within c.index (Recorder.empty.run c.pre).open' 0 := c.opened_within.onCurrent _

theorem start_entry (c : IsolatedCall) :
    c.start.trace.callTraces[c.index]? =
      some { newCallTrace with depth := ((c.depth + 1 : Nat) : Int) } := by
  rw [start, Recorder.beginRun, Recorder.onCurrent_getElem, if_pos (c.opened_within.head.mpr rfl),
    opened_entry, c.opened_open.2]
  rfl

structure RecordsCall (c : IsolatedCall) (ct : EVMCallTrace) : Prop where
  callee : ct.callee = c.callee
  depth : ct.depth = ((c.depth + 1 : Nat) : Int)
  err : ct.err = c.err
  hash : ∀ h, h ∈ ct.sha3HashToIndex ↔ h ∈ ownHashes c.body 0

theorem recorded_entry (c : IsolatedCall) :
    ∃ ct, c.recorded.callTraces[c.index]? = some ct ∧ c.RecordsCall ct := by
  obtain ⟨hw, ct, ct', hct, hct', hsame⟩ := c.opened_within.run c.body_level
  cases hct.symm.trans c.opened_entry
  obtain ⟨inner, hopen, hinner, -⟩ := hw.shape
  obtain rfl := length_eq_zero_iff.mp hinner
  have hlen : (c.opened.run c.body).open'.length = c.depth + 1 := by
    have := c.opened_open
    rw [hopen, ← this.2, this.1]
    rfl
  have hevents : c.events = (c.pre ++ [.enter]) ++ (c.body ++
      .leave c.callee c.leftOverGas c.refundGas c.err :: c.post) := by simp [events]
  refine ⟨{ ct' with callee := c.callee, depth := ((c.depth + 1 : Nat) : Int),
                     leftOverGas := c.leftOverGas, refundGas := c.refundGas, err := c.err },
    ?_, rfl, rfl, rfl, ?_⟩
  · change (Recorder.empty.run c.events).trace.callTraces[c.index]? = _
    rw [hevents, Recorder.run_append, Recorder.run_append]
    change (((c.opened.run c.body).step _).run c.post).trace.callTraces[c.index]? = _
    rw [Recorder.run_getElem_of_returned]
    · simp only [Recorder.step]
      rw [Recorder.onCurrent_getElem, if_pos (hw.head.mpr rfl), hct', hlen]
      rfl
    · simp only [Recorder.step, Recorder.onCurrent_length]
      exact hw.lt
    · simp only [Recorder.step, hopen]
      exact c.index_notMem_outer
  · intro h
    refine (hsame.hash h).trans ?_
    simp [newCallTrace]

structure PerformedAll (c : IsolatedCall) (iso : List TraceEvent) (k : Nat) : Prop where
  inside : level iso 0 = some k
  calls : nested iso = nested c.body
  sstores : (sstores c.body).Sublist (sstores iso)
  logs : (logs c.body).Sublist (logs iso)
  hashes : ∀ h ∈ ownHashes c.body 0, h ∈ ownHashes iso 0

theorem performed_entry (c : IsolatedCall) {iso : List TraceEvent} {k : Nat}
    (hlevel : level iso 0 = some k) :
    ∃ ct, (c.performed iso).callTraces[c.index]? = some ct ∧
      ct.depth = ((c.depth + 1 : Nat) : Int) ∧
      ∀ h, h ∈ ct.sha3HashToIndex ↔ h ∈ ownHashes iso 0 := by
  obtain ⟨-, ct, ct', hct, hct', hsame⟩ := c.start_within.run hlevel
  cases hct.symm.trans c.start_entry
  refine ⟨ct', hct', hsame.depth, ?_⟩
  intro h
  refine (hsame.hash h).trans ?_
  simp [newCallTrace]

theorem recorded_totals (c : IsolatedCall) :
    c.recorded.sstoreCount =
        (sstores c.pre).length + (sstores c.body).length + (sstores c.post).length ∧
      c.recorded.eventTraces.length =
        (logs c.pre).length + (logs c.body).length + (logs c.post).length ∧
      c.recorded.callTraces.length = c.index + 1 + nested c.body + nested c.post := by
  refine ⟨?_, ?_, ?_⟩
  · simp [recorded, Recorder.run_sstoreCount, events, sstores, Recorder.empty, Nat.add_assoc]
  · simp [recorded, Recorder.run_eventTraces, events, logs, Recorder.empty, Nat.add_assoc]
  · rw [recorded, Recorder.run_length, events, nested_append, nested_cons,
      nested_append, nested_cons]
    simp [Recorder.empty, index, nested]
    omega

theorem performed_totals (c : IsolatedCall) (iso : List TraceEvent) :
    (c.performed iso).sstoreCount = (sstores c.pre).length + (sstores iso).length ∧
      (c.performed iso).eventTraces.length = (logs c.pre).length + (logs iso).length ∧
      (c.performed iso).callTraces.length = c.index + 1 + nested iso := by
  refine ⟨?_, ?_, ?_⟩
  · simp [performed, Recorder.run_sstoreCount, start, Recorder.beginRun, opened, sstores,
      Recorder.empty]
  · simp [performed, Recorder.run_eventTraces, start, Recorder.beginRun, opened, logs,
      Recorder.empty]
  · simp [performed, Recorder.run_length, start, Recorder.beginRun, opened, index, nested,
      Recorder.empty]

def CountsReached (c : IsolatedCall) (iso : List TraceEvent) : Prop :=
  (sstores c.body).length + (sstores c.post).length ≤ (sstores iso).length ∧
    (logs c.body).length + (logs c.post).length ≤ (logs iso).length

instance (c : IsolatedCall) (iso : List TraceEvent) : Decidable (c.CountsReached iso) :=
  inferInstanceAs (Decidable (_ ∧ _))

theorem checkOutOfGas_iff (c : IsolatedCall) (iso : List TraceEvent) (k : Nat)
    (hgas : c.err.any (fun e => e.text = VmError.outOfGas.text) = true)
    (hall : c.PerformedAll iso k) (delta : DeltaSemantics)
    (hrec : delta.recordedTrace = c.recorded) (hsub : delta.substrateTrace = c.performed iso) :
    delta.checkOutOfGas c.index = .ok true ↔ c.CountsReached iso := by
  obtain ⟨recCt, hrecCt, hcall⟩ := c.recorded_entry
  obtain ⟨subCt, hsubCt, hdepth, hhash⟩ := c.performed_entry hall.inside
  obtain ⟨hrecStores, hrecLogs, hrecCalls⟩ := c.recorded_totals
  obtain ⟨hsubStores, hsubLogs, hsubCalls⟩ := c.performed_totals iso
  have hcalls := hall.calls
  have hlen : ¬ c.recorded.callTraces.length < (c.performed iso).callTraces.length := by omega
  have htree : (c.performed iso).callTraces.length =
      callTreeLength c.recorded.callTraces c.index ((c.depth + 1 : Nat) : Int) := by
    rw [callTreeLength_recorded]
    omega
  have hkeys : ∀ h ∈ recCt.sha3HashToIndex, h ∈ subCt.sha3HashToIndex := by
    intro h hmem
    exact (hhash h).mpr (hall.hashes h ((hcall.hash h).mp hmem))
  have hsize := GoMap.size_le_of_subset hkeys
  have hcounts : c.CountsReached iso ↔
      c.recorded.sstoreCount ≤ (c.performed iso).sstoreCount ∧
        c.recorded.eventTraces.length ≤ (c.performed iso).eventTraces.length := by
    unfold CountsReached
    omega
  rw [hcounts]
  unfold DeltaSemantics.checkOutOfGas
  simp only [hrec, hsub, if_neg hlen, hrecCt, hsubCt]
  rw [if_neg (by rw [hcall.depth, hdepth]; simp), hcall.err, hgas, hdepth, htree]
  by_cases hreached : c.recorded.sstoreCount ≤ (c.performed iso).sstoreCount ∧
      c.recorded.eventTraces.length ≤ (c.performed iso).eventTraces.length
  · refine iff_of_true ?_ hreached
    rw [if_neg (by decide), if_neg (by omega), if_pos hreached, if_neg hsize.not_gt]
    simpa using hkeys
  · simp [hreached]

/-- Call 0 makes call 1, which stores, logs and hashes and then runs out of gas; after it call 0
does `rest`. -/
def innerOutOfGas (rest : List TraceEvent) (h : level rest 1 = some 0) : IsolatedCall where
  pre := [.enter]
  body := [.sstore ⟨2, 0, 7⟩, .log ⟨[3], [4]⟩, .sha3 5]
  callee := 2
  leftOverGas := 0
  refundGas := 0
  err := some .outOfGas
  post := rest
  depth := 1
  pre_level := rfl
  body_level := rfl
  post_level := h

theorem performedAll_body (c : IsolatedCall) : c.PerformedAll c.body 0 where
  inside := c.body_level
  calls := rfl
  sstores := .refl _
  logs := .refl _
  hashes := fun _ h => h

def outOfGasDelta (c : IsolatedCall) : DeltaSemantics where
  maxGas := 0
  recordedTrace := c.recorded
  substrateTrace := c.performed c.body

/-- Nothing follows but the return of call 0. -/
theorem checkOutOfGas_at_end :
    (outOfGasDelta (innerOutOfGas [.leave 1 0 0 none] rfl)).checkOutOfGas 1 = .ok true :=
  (checkOutOfGas_iff (innerOutOfGas [.leave 1 0 0 none] rfl) _ 0 rfl (performedAll_body _) _ rfl
    rfl).mpr (by decide)

/-- A store of call 0 after call 1 has failed hides the point where it failed. -/
theorem checkOutOfGas_before_store :
    let c := innerOutOfGas [.sstore ⟨1, 0, 7⟩, .leave 1 0 0 none] rfl
    c.PerformedAll c.body 0 ∧ (outOfGasDelta c).checkOutOfGas 1 = .ok false :=
  ⟨performedAll_body _, by decide⟩

end IsolatedCall
end EtherVal.Vm
