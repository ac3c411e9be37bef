import EtherVal.Vm.DeviationRun
import EtherVal.Vm.GlobalErrors

/-!
# Runs that are not reported as deviating (`evm.go:72-144`, `tac_interpreter.go:255-360`)

A deviation is reported when a check notes one or when numbers differ at the end.  A panic inside
the frame is no report: a log or call beyond the end of the record makes its check panic before
it can note anything.
-/

namespace EtherVal.Vm
open EtherVal.Lib EtherVal.TacParser Exec List

variable {es : List OwnEvent}

section
variable {σ : Type} {c : IsolatedCall} {rec' ops : List FrameOp}

theorem traceInv_keepsUp (es : List OwnEvent) (panicked : Prop) :
    TraceInv (KeepsUp (σ := σ) c rec' ops es panicked) := by
  rintro e e' h (hd | ⟨new, extra, heq, ht, hextra⟩)
  · exact .inl (by rwa [Deviated, h.deviation])
  · exact .inr ⟨new, extra, heq, traceInv_tracks e e' h ht, hextra⟩

variable {es : List OwnEvent}

theorem KeepsUp.mono {e : TACInterpreter σ} (h : KeepsUp c rec' ops es False e) :
    KeepsUp c rec' ops es True e := by
  rcases h with hd | ⟨new, extra, heq, ht, hextra⟩
  · exact .inl hd
  · exact .inr ⟨new, extra, heq, ht, hextra.imp_right fun hp => hp.1.elim⟩

theorem KeepsUp.append {new : List FrameOp} {panicked : Prop} {e : TACInterpreter σ}
    (h : KeepsUp c rec' (ops ++ new) es panicked e) :
    KeepsUp c rec' ops (ownEvents c.callee new ++ es) panicked e := by
  rcases h with hd | ⟨new', extra, heq, ht, hextra⟩
  · exact .inl hd
  · refine .inr ⟨new ++ new', extra, ?_, by rwa [← append_assoc], hextra⟩
    rw [heq, ownEvents, ownEvents, ownEvents, filterMap_append, append_assoc]

variable {m : Machine σ}

theorem leavePrivate_keepsUp {run : Runner σ} {ctx : TACContext} {dests : List Int}
    (h : KeepsUpRun c rec' ops es (run ctx m.engine)) :
    KeepsUpRun c rec' ops es (leavePrivate run ctx dests m) := by
  have hrest : ∀ q : Ret × List Word, Keeps (KeepsUp (σ := σ) c rec' ops es False)
      (do
        modify fun m => { m with ctx := { m.ctx with privateReturnData := q.2 } }
        assignAll (dests.zip q.2)
        return q.1) := fun q =>
    Keeps.bind (Keeps.modify fun _ => rfl) fun _ => Keeps.bind (keeps_assignAll _) fun _ =>
      Keeps.pure _
  unfold leavePrivate
  rw [bind_apply, runCallee]
  cases hrun : run ctx m.engine with
  | error stop =>
    cases stop with
    | outOfFuel => exact ⟨fun a m' heq => (by cases heq), fun p m' heq => (by cases heq)⟩
    | panic p m1 =>
      exact outcome_panic (h.2 p m1 hrun)
  | ok q =>
    have hq := h.1 q.1 q.2 hrun
    have hm := hrest (q.1, q.2.ctx.prevReturnData.getD []) { m with engine := q.2.engine } hq
    exact ⟨hm.1, fun p m' heq => (hm.2 p m' heq).mono⟩

variable {host : Host σ}
variable {fuel : Nat}

theorem callprivate_keepsUp (ht : Tracks c rec' ops m.engine)
    (hrun : ∀ ctx (e : TACInterpreter σ), Tracks c rec' ops e →
      KeepsUpRun c rec' ops (attempts host fuel (startLoop ctx e)) (executeFunc host fuel ctx e)) :
    KeepsUpRun c rec' ops
      (match enterPrivate m with
        | .ok ((ctx, _), m1) => attempts host fuel (startLoop ctx m1.engine)
        | .error _ => [])
      (execution host (executeFunc host fuel) .CALLPRIVATE m) := by
  change KeepsUpRun c rec' ops _ (execCallprivate _ m)
  rw [execCallprivate_eq]
  refine keepsUpRun_bind ht (keeps_enterPrivate _) ?_ ?_
  · intro stop h
    rw [h]
  · intro q m1 h ht1
    rw [h]
    exact leavePrivate_keepsUp (hrun q.1 m1.engine ht1)

def roundAttempts (host : Host σ) (fuel : Nat) (op : TACOp) (m : Machine σ) : List OwnEvent :=
  if op = .CALLPRIVATE then
    match enterPrivate m with
    | .ok ((ctx, _), m1) => attempts host fuel (startLoop ctx m1.engine)
    | .error _ => []
  else attempt host op m

variable {s : LoopState σ}

theorem attempts_of_begins {op : TACOp} (hpc : s.machine.pc < s.machine.ctx.function.insts.length)
    (hb : Begins host s op m) :
    attempts host (fuel + 1) s = roundAttempts host fuel op m ++
      match round host (executeFunc host fuel) s with
      | .ok (.next s') => attempts host fuel s'
      | _ => [] := by
  rw [attempts, if_pos hpc, begun_eq_some.mpr hb]
  rfl

theorem attempts_of_not_begins (hb : ∀ op m, ¬ Begins host s op m) :
    attempts host (fuel + 1) s = [] := by
  have hnone : begun host s = none := by
    cases h : begun host s with
    | none => rfl
    | some q => exact absurd (begun_eq_some.mp h) (hb q.1 q.2)
  rw [attempts, hnone]
  split <;> rfl

theorem round_keepsUp {run : Runner σ} {op : TACOp} (hb : Begins host s op m)
    (hx : KeepsUpRun c rec' ops es (execution host run op m)) :
    (∀ r, round host run s = .ok r → KeepsUp c rec' ops es False r.machine.engine) ∧
      ∀ p m', round host run s = .error (.panic p m') → KeepsUp c rec' ops es True m'.engine := by
  rw [hb.round_eq run]
  cases hxm : execution host run op m with
  | error stop =>
    exact outcome_value_of_error hxm hx.2
  | ok q =>
    have hq := hx.1 q.1 q.2 hxm
    refine ⟨fun r hr => ?_, fun p m' hp => ?_⟩
    · exact traceInv_keepsUp _ _ _ _ (roundTail_sameFrames.1 r hr).sameTraces hq
    · exact (traceInv_keepsUp _ _ _ _ (roundTail_sameFrames.2 p m' hp).sameTraces hq).mono

theorem executeFrom_keepsUp (hc : ChildrenRecorded c rec' host)
    (ht : Tracks c rec' ops s.machine.engine) :
    KeepsUpRun c rec' ops (attempts host fuel s) (executeFrom host fuel s) := by
  induction fuel generalizing s ops with
  | zero => exact ⟨fun _ _ h => (by cases h), fun _ _ h => (by cases h)⟩
  | succ fuel ih =>
    have hnil : Tracks c rec' (ops ++ []) s.machine.engine := by rwa [append_nil]
    by_cases hpc : s.machine.pc < s.machine.ctx.function.insts.length
    swap
    · rw [attempts, executeFrom, if_neg hpc, if_neg hpc]
      exact outcome_ok hnil.keepsUp
    rw [executeFrom_succ hpc]
    by_cases hbegins : ∃ op m, Begins host s op m
    swap
    · have hb : ∀ op m, ¬ Begins host s op m := fun op m h => hbegins ⟨op, m, h⟩
      obtain ⟨hok, hpanic⟩ := round_idle (executeFunc host fuel) traceInv_tracks.frameInv hb hnil
      rw [attempts_of_not_begins hb]
      cases hr : round host (executeFunc host fuel) s with
      | error stop =>
        exact outcome_of_error hr fun p m' h => (hpanic p m' h).keepsUp
      | ok r =>
        obtain ⟨ret, m', rfl, hm'⟩ := hok r hr
        exact outcome_ok hm'.keepsUp
    · obtain ⟨op, m, hb⟩ := hbegins
      have hm := traceInv_tracks _ _ hb.sameFrames.sameTraces ht
      have hx : KeepsUpRun c rec' ops (roundAttempts host fuel op m)
          (execution host (executeFunc host fuel) op m) := by
        unfold roundAttempts
        split
        · next hop =>
          subst hop
          exact callprivate_keepsUp hm fun ctx e he => ih he
        · next hop => exact execution_keepsUp hc _ hop hm
      obtain ⟨hok, hpanic⟩ := round_keepsUp hb hx
      rw [attempts_of_begins hpc hb]
      cases hr : round host (executeFunc host fuel) s with
      | error stop =>
        rw [append_nil]
        exact outcome_of_error hr hpanic
      | ok r =>
        have hr' := hok r hr
        cases r with
        | returned ret m' =>
          rw [append_nil]
          exact outcome_ok hr'
        | next s' =>
          rcases hr' with hd | ⟨new, extra, heq, ht', rfl | ⟨hfalse, -⟩⟩
          · -- a deviation that has been noted stays
            have hkeep := noteInv_deviated.keepsEvents hc.deviated
            exact ⟨fun a m' h => .inl ((executeFrom_keeps hkeep hd).1 a m' h),
              fun p m' h => .inl ((executeFrom_keeps hkeep hd).2 p m' h)⟩
          · obtain ⟨h1, h2⟩ := ih ht'
            rw [heq, append_nil]
            exact ⟨fun a m' h => (h1 a m' h).append, fun p m' h => (h2 p m' h).append⟩
          · exact hfalse.elim

end

section
variable {δ : Type} {c : IsolatedCall} {rec' : List FrameOp}

structure SameReport (e e' : Engine δ) : Prop where
  config : e'.config = e.config
  substrate : e'.delta.substrateTrace = e.delta.substrateTrace
  deviation : e'.delta.stats.tacDeviation = e.delta.stats.tacDeviation

variable {e : Engine δ}

theorem SameReport.trans {e' e'' : Engine δ} (h : SameReport e e') (h' : SameReport e' e'') :
    SameReport e e'' :=
  ⟨h'.config.trans h.config, h'.substrate.trans h.substrate, h'.deviation.trans h.deviation⟩

theorem sameReport_select (w : World δ) (start : Engine δ) (ret : Ret) (e : Engine δ) :
    SameReport e (select w start ret e).2 := by
  unfold select
  split <;> exact ⟨rfl, rfl, rfl⟩

theorem sameReport_finishRun (w : World δ) (before : Engine δ) (req : FrameRequest)
    (frame : TACFrame) (ret : Ret) (e : Engine δ) :
    SameReport e (finishRun w before req frame ret e).2 := by
  unfold finishRun
  cases ret.2 with
  | none => exact ⟨rfl, rfl, rfl⟩
  | some err =>
    dsimp only
    split <;> exact ⟨rfl, rfl, rfl⟩

def engineAfter {α : Type} : Except (GoPanic × Engine δ) (α × Engine δ) → Engine δ
  | .ok (_, e) => e
  | .error (_, e) => e

structure NotReported (e : Engine δ) : Prop where
  deviation : e.delta.stats.tacDeviation = []
  remaining : ∃ t, e.config.evmTrace = some t ∧
    remainingDeviates e.config.isolationIndex t e.delta.substrateTrace = .ok false

structure StartsIsolated (c : IsolatedCall) (req : FrameRequest) (before : Engine δ) : Prop where
  evmTrace : before.config.evmTrace = some c.recorded
  isolationIndex : before.config.isolationIndex = c.index
  substrate : before.delta.substrateTrace = c.opened.trace
  depth : before.stateDB.depth = c.depth
  address : req.contract.address = c.callee
  deviation : before.delta.stats.tacDeviation = []

def entryAttempts (host : Host (EvmState δ)) (fuel : Nat) (prog : TACProgram) (start : Engine δ) :
    List OwnEvent :=
  match prog.entry with
  | none => []
  | some f =>
    match newContext f none with
    | .error _ => []
    | .ok ctx => attempts host fuel (startLoop ctx start)

def attemptedBy (w : World δ) (host : Host (EvmState δ)) (fuel : Nat) (req : FrameRequest)
    (before : Engine δ) : List OwnEvent :=
  match w.getTACProg req.contract with
  | .error _ => []
  | .ok prog =>
    match enterRun prog req before with
    | .ok (.frame _ start) => entryAttempts host fuel prog start
    | _ => []

theorem opened_length (c : IsolatedCall) : c.opened.trace.callTraces.length = c.index + 1 := by
  simp [IsolatedCall.opened, Recorder.run_length, IsolatedCall.index, nested, Recorder.empty]

def noteDepth (i depth : Nat) (t : EVMTrace) : EVMTrace :=
  { t with callTraces := t.callTraces.modify i fun ct => { ct with depth := (depth : Int) } }

theorem performed_nil (c : IsolatedCall) :
    c.performed [] = noteDepth c.index (c.depth + 1) c.opened.trace := by
  obtain ⟨hopen, hlen⟩ := c.opened_open
  rw [IsolatedCall.performed, Recorder.run_nil, IsolatedCall.start, Recorder.beginRun, hlen,
    Recorder.onCurrent, hopen]
  rfl

theorem enterRun_tracks (rec' : List FrameOp) (prog : TACProgram) {req : FrameRequest}
    {before : Engine δ}
    (h : StartsIsolated c req before) :
    (∃ ret e, enterRun prog req before = .ok (.returned ret e) ∧
        e.config = before.config ∧ e.delta.substrateTrace = c.performed [] ∧
        e.delta.stats.tacDeviation = []) ∨
      ∃ frame start, enterRun prog req before = .ok (.frame frame start) ∧
        Tracks c rec' [] start := by
  have hlen := opened_length c
  have hsub : noteDepth before.config.isolationIndex (before.stateDB.depth + 1)
      before.delta.substrateTrace = c.performed [] := by
    rw [performed_nil, h.substrate, h.isolationIndex, h.depth]
  unfold enterRun
  dsimp only
  rw [if_neg (by rw [h.substrate, h.isolationIndex]; omega)]
  split
  · exact .inl ⟨_, _, rfl, rfl, hsub, h.deviation⟩
  · split
    · exact .inl ⟨_, _, rfl, rfl, hsub, h.deviation⟩
    · next recCallTrace hrec =>
      refine .inr ⟨_, _, rfl, h.evmTrace, h.isolationIndex, ?_, hsub, h.deviation, .nil, .nil _⟩
      simp [TACFrame.key, h.address, h.substrate, hlen]

def EndsUp (c : IsolatedCall) (rec' : List FrameOp) (es : List OwnEvent) (e : Engine δ) : Prop :=
  Deviated e ∨ ∃ ops extra, es = ownEvents c.callee ops ++ extra ∧
    e.config.evmTrace = some c.recorded ∧ e.config.isolationIndex = c.index ∧
    e.delta.substrateTrace = c.performed (frameEvents c.callee ops) ∧ c.NoDeviation ops ∧
    Agree (inners rec') (inners ops) ∧ (extra = [] ∨ ∃ x, extra = [x] ∧ Surplus x)

theorem EndsUp.of_sameReport {e' : Engine δ} (h : EndsUp c rec' es e) (hs : SameReport e e') :
    EndsUp c rec' es e' := by
  rcases h with hd | ⟨ops, extra, heq, ht, hi, hsub, hrest⟩
  · exact .inl (by rwa [Deviated, hs.deviation])
  · exact .inr ⟨ops, extra, heq, by rw [hs.config, ht], by rw [hs.config, hi],
      by rw [hs.substrate, hsub], hrest⟩

theorem KeepsUp.endsUp {panicked : Prop} (h : KeepsUp c rec' [] es panicked e) :
    EndsUp c rec' es e := by
  rcases h with hd | ⟨new, extra, heq, ht, hextra⟩
  · exact .inl hd
  · exact .inr ⟨new, extra, heq, ht.evmTrace, ht.isolationIndex, ht.substrate, ht.checked,
      ht.children, hextra.imp_right fun h => h.2⟩

theorem endsUp_of_nothing (ht : e.config.evmTrace = some c.recorded)
    (hi : e.config.isolationIndex = c.index) (hsub : e.delta.substrateTrace = c.performed []) :
    EndsUp c rec' [] e := by
  exact .inr ⟨[], [], rfl, ht, hi, hsub, .nil, .nil _, .inl rfl⟩

theorem runEntry_endsUp {host : Host (EvmState δ)} (hc : ChildrenRecorded c rec' host) (fuel : Nat)
    (prog : TACProgram) {start : Engine δ} (ht : Tracks c rec' [] start) :
    (∀ ret e, runEntry host fuel prog start = .ok (ret, e) →
        EndsUp c rec' (entryAttempts host fuel prog start) e) ∧
      ∀ p e, runEntry host fuel prog start = .error (p, e) → p ≠ fuelPanic →
        EndsUp c rec' (entryAttempts host fuel prog start) e := by
  have hnil : EndsUp c rec' [] start :=
    endsUp_of_nothing ht.evmTrace ht.isolationIndex ht.substrate
  unfold runEntry entryAttempts
  cases prog.entry with
  | none =>
    refine ⟨fun ret e h => (by cases h), fun p e h _ => ?_⟩
    cases Except.error.inj h
    exact hnil
  | some f =>
    cases hctx : newContext f none with
    | error p =>
      simp only [hctx]
      refine ⟨fun ret e h => (by cases h), fun p' e h _ => ?_⟩
      cases Except.error.inj h
      exact hnil
    | ok ctx =>
      have hrun : KeepsUpRun c rec' [] (attempts host fuel (startLoop ctx start))
          (executeFunc host fuel ctx start) := executeFrom_keepsUp hc ht
      simp only [hctx]
      cases hx : executeFunc host fuel ctx start with
      | ok q =>
        exact outcome_ok ((hrun.1 q.1 q.2 hx).endsUp)
      | error stop =>
        refine ⟨fun ret e h => (by cases stop <;> cases h), fun p e h hp => ?_⟩
        cases stop with
        | panic p' m =>
          obtain ⟨-, rfl⟩ := Prod.mk.inj (Except.error.inj h)
          exact (hrun.2 p' m hx).endsUp
        | outOfFuel =>
          cases Except.error.inj h
          exact absurd rfl hp

theorem tacRun_endsUp (w : World δ) {host : Host (EvmState δ)} (hc : ChildrenRecorded c rec' host)
    {fuel : Nat} {prog : TACProgram} {req : FrameRequest} {before : Engine δ}
    (h : StartsIsolated c req before)
    (hends : ∀ e, tacRun w host fuel prog req before ≠ .error (fuelPanic, e)) :
    EndsUp c rec'
      (match enterRun prog req before with
        | .ok (.frame _ start) => entryAttempts host fuel prog start
        | _ => [])
      (engineAfter (tacRun w host fuel prog req before)) := by
  unfold tacRun at hends ⊢
  rcases enterRun_tracks rec' prog h with ⟨ret, e, heq, hconfig, hsub, hdev⟩ |
      ⟨frame, start, heq, ht⟩
  · rw [heq]
    refine (endsUp_of_nothing ?_ ?_ hsub).of_sameReport ⟨rfl, rfl, rfl⟩
    · rw [hconfig, h.evmTrace]
    · rw [hconfig, h.isolationIndex]
  · rw [heq] at hends ⊢
    dsimp only at hends ⊢
    obtain ⟨hok, herr⟩ := runEntry_endsUp hc fuel prog ht
    cases hrun : runEntry host fuel prog start with
    | ok q =>
      exact (hok q.1 q.2 hrun).of_sameReport
        ((sameReport_select w start q.1 q.2).trans (sameReport_finishRun w before req frame _ _))
    | error q =>
      obtain ⟨p, e⟩ := q
      rw [hrun] at hends
      dsimp only at hends ⊢
      by_cases hg : (guarded w start && decide (p ≠ fuelPanic)) = true
      · rw [if_pos hg]
        have hp : p ≠ fuelPanic := by
          rw [Bool.and_eq_true] at hg
          exact of_decide_eq_true hg.2
        exact (herr p e hrun hp).of_sameReport
          ((sameReport_select w start _ e).trans (sameReport_finishRun w before req frame _ _))
      · rw [if_neg hg] at hends ⊢
        have hp : p ≠ fuelPanic := by
          rintro rfl
          exact hends _ rfl
        exact (herr p e hrun hp).of_sameReport ⟨rfl, rfl, rfl⟩

theorem sameOwn_iff_faithful {ops : List FrameOp} (h : c.Unreported rec' ops)
    {extra : List OwnEvent} (hes : es = ownEvents c.callee ops ++ extra)
    (hextra : extra = [] ∨ ∃ x, extra = [x] ∧ Surplus x) :
    SameOwn es (recordedEvents c.callee rec') ↔ c.Faithful es (recordedEvents c.callee rec') := by
  subst hes
  rcases hextra with rfl | ⟨x, rfl, ⟨event, rfl⟩ | ⟨target, rfl⟩⟩
  · rw [append_nil]
    exact ⟨h.faithful, h.sameOwn⟩
  · exact iff_of_false (h.extra_log event).1 (h.extra_log event).2
  · exact iff_of_false (h.extra_call target).1 (h.extra_call target).2

theorem remainingDeviates_noteDepth (i j depth : Nat) (t t' : EVMTrace) :
    remainingDeviates i t (noteDepth j depth t') = remainingDeviates i t t' := by
  unfold remainingDeviates noteDepth
  simp only [length_modify, getElem?_modify]
  cases t.callTraces[i]? with
  | none => rfl
  | some ct => cases t'.callTraces[i]? <;> by_cases hj : j = i <;> simp [hj]

theorem unreported_sameOwn_iff (w : World δ) (host : Host (EvmState δ)) (fuel : Nat)
    (req : FrameRequest) (before : Engine δ) (c : IsolatedCall) (rec' : List FrameOp)
    (hdoes : c.Does rec') (hstart : StartsIsolated c req before)
    (hc : ChildrenRecorded c rec' host)
    (hends : ∀ e, runTac w host fuel req before ≠ .error (fuelPanic, e))
    (hnot : NotReported (engineAfter (runTac w host fuel req before))) :
    SameOwn (attemptedBy w host fuel req before) (recordedEvents c.callee rec') ↔
      c.Faithful (attemptedBy w host fuel req before) (recordedEvents c.callee rec') := by
  cases hprog : w.getTACProg req.contract with
  | error err =>
    -- nothing has run
    have hreport : SameReport before (engineAfter (runTac w host fuel req before)) := by
      rw [runTac, hprog]
      dsimp only [engineAfter]
      split <;> exact ⟨rfl, rfl, rfl⟩
    obtain ⟨-, t, ht, hrem⟩ := hnot
    rw [hreport.config, hstart.evmTrace] at ht
    cases ht
    rw [hreport.config, hreport.substrate, hstart.isolationIndex, hstart.substrate,
      ← remainingDeviates_noteDepth c.index c.index (c.depth + 1), ← performed_nil] at hrem
    rw [attemptedBy, hprog]
    exact sameOwn_iff_faithful ⟨hdoes, .nil, .nil _, hrem⟩ rfl (.inl rfl)
  | ok prog =>
    rw [runTac, hprog] at hends hnot
    rw [attemptedBy, hprog]
    obtain ⟨hdev, t, ht, hrem⟩ := hnot
    rcases tacRun_endsUp w hc hstart hends with hd | ⟨ops, extra, hes, ht', hi, hsub, hno, hag, hx⟩
    · exact absurd hdev hd
    · cases ht'.symm.trans ht
      rw [hi, hsub] at hrem
      exact sameOwn_iff_faithful ⟨hdoes, hno, hag, hrem⟩ hes hx

open IsolatedCall (soloRecord)

def soloIsolated (c : IsolatedCall) : Engine Unit :=
  { soloEngine with
    config := { (default : EVMConfig) with evmTrace := some c.recorded, isolationIndex := c.index }
    delta := { soloEngine.delta with
      recordedTrace := c.recorded
      substrateTrace := c.opened.trace } }

def quietHost (w : World Unit) : Host (EvmState Unit) :=
  { w.host with
    external := fun call e =>
      let callee := match e.frames with
        | frame :: _ => call.callee frame.contract.address ⟨[], 0, 0, none⟩
        | [] => 0
      .ok (⟨[], 0, 0, none⟩, { e with delta := { e.delta with
        substrateTrace := { e.delta.substrateTrace with
          callTraces := e.delta.substrateTrace.callTraces ++
            [{ newCallTrace with callee, depth := 2 }] } } }) }

theorem performed_quietCall (c : IsolatedCall) (ops : List FrameOp) (callee : Address)
    (hdepth : c.depth = 0) :
    c.performed (frameEvents c.callee ops ++ callEvents callee ⟨[], rfl⟩ ⟨0, 0, none⟩) =
      { c.performed (frameEvents c.callee ops) with
        callTraces := (c.performed (frameEvents c.callee ops)).callTraces ++
          [{ newCallTrace with callee, depth := 2 }] } := by
  obtain ⟨inner, hopen, hinner, -⟩ := (c.start_within.run (level_frameEvents c.callee ops)).1.shape
  obtain rfl := length_eq_zero_iff.mp hinner
  have hlen : (Recorder.empty.run c.pre).open'.length = 0 := by
    have hopened := c.opened_open
    rw [hopened.1, length_cons, hdepth] at hopened
    omega
  rw [c.performed_append, callEvents]
  simp only [nil_append, Recorder.run_cons, Recorder.run_nil, Recorder.step,
    Recorder.onCurrent, hopen]
  have hlast : ∀ (l : List EVMCallTrace) g, (l ++ [newCallTrace]).modify l.length g =
      l ++ [g newCallTrace] := fun l g => modifyTailIdx_add (List.modifyHead g) 0 l [_]
  rw [hlast]
  simp [hlen, IsolatedCall.performed, newCallTrace]

theorem quietHost_childrenRecorded (w : World Unit) {c : IsolatedCall} {rec' : List FrameOp}
    (hdepth : c.depth = 0) (hrec : inners rec' = []) :
    ChildrenRecorded c rec' (quietHost w) where
  answers := by
    intro ops e call ht
    obtain ⟨frame, rest, hf, haddr, -⟩ := ht.getFrame
    refine ⟨_, _, ⟨[], rfl⟩, ⟨0, 0, none⟩, rfl, rfl, rfl, rfl, ?_, ?_⟩
    · rw [performed_quietCall c ops _ hdepth, ← ht.substrate, ← haddr]
      simp [hf]
    · intro x hx
      rw [hrec] at hx
      cases hx
  deviated := by
    intro call e he
    exact outcome_ok he

def soloLog : TACFunction := soloFunction .LOG0 2

theorem soloIsolated_starts (ops : List FrameOp) :
    StartsIsolated (soloRecord ops) soloRequest (soloIsolated (soloRecord ops)) :=
  ⟨rfl, rfl, rfl, rfl, rfl, rfl⟩

/-- A log that is recorded. -/
theorem soloLog_sameOwn :
    SameOwn (attemptedBy (soloWorld soloLog) (quietHost (soloWorld soloLog)) 5 soloRequest
      (soloIsolated (soloRecord [.log [] []]))) [.log ⟨[], []⟩] := by
  have hattempts : attemptedBy (soloWorld soloLog) (quietHost (soloWorld soloLog)) 5 soloRequest
      (soloIsolated (soloRecord [.log [] []])) = [.log ⟨[], []⟩] := rfl
  refine (unreported_sameOwn_iff (soloWorld soloLog) (quietHost (soloWorld soloLog)) 5 soloRequest
    (soloIsolated (soloRecord [.log [] []])) (soloRecord [.log [] []]) [.log [] []] rfl
    (soloIsolated_starts _) (quietHost_childrenRecorded _ rfl rfl) ?_ ⟨rfl, _, rfl, rfl⟩).mpr ?_
  · intro e h
    cases h
  · rw [hattempts]
    refine ⟨⟨rfl, rfl, rfl⟩, ⟨.refl _, .refl _⟩, ?_, ⟨le_rfl, le_rfl⟩⟩
    intro k a x h
    simp [callsOf, OwnEvent.call?] at h

/-- A log that is not recorded makes its check panic, and nothing is reported. -/
theorem soloLog_beyond_record :
    (soloRecord []).Does [] ∧
      StartsIsolated (soloRecord []) soloRequest (soloIsolated (soloRecord [])) ∧
      ChildrenRecorded (soloRecord []) [] (quietHost (soloWorld soloLog)) ∧
      (runTac (soloWorld soloLog) (quietHost (soloWorld soloLog)) 5 soloRequest
        (soloIsolated (soloRecord []))).toOption.map (·.1.1) = some ([], some .tacPanic) ∧
      NotReported (engineAfter (runTac (soloWorld soloLog) (quietHost (soloWorld soloLog)) 5
        soloRequest (soloIsolated (soloRecord [])))) ∧
      attemptedBy (soloWorld soloLog) (quietHost (soloWorld soloLog)) 5 soloRequest
        (soloIsolated (soloRecord [])) = [.log ⟨[], []⟩] ∧
      ¬ SameOwn (attemptedBy (soloWorld soloLog) (quietHost (soloWorld soloLog)) 5 soloRequest
        (soloIsolated (soloRecord []))) (recordedEvents 1 []) := by
  have hattempts : attemptedBy (soloWorld soloLog) (quietHost (soloWorld soloLog)) 5 soloRequest
      (soloIsolated (soloRecord [])) = [.log ⟨[], []⟩] := rfl
  refine ⟨rfl, soloIsolated_starts _, quietHost_childrenRecorded _ rfl rfl, rfl,
    ⟨rfl, _, rfl, rfl⟩, hattempts, fun h => ?_⟩
  rw [hattempts] at h
  have := h.logs
  simp [logsOf, OwnEvent.log?] at this

end

end EtherVal.Vm
