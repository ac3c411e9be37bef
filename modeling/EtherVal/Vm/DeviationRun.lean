import EtherVal.Vm.Stack

/-!
# Runs of the isolated call under deviation checks
-/

namespace EtherVal.Vm
open EtherVal.Lib EtherVal.TacParser Exec List

variable {σ : Type} {c : IsolatedCall} {rec' ops : List FrameOp}
variable {m : Machine σ} {host : Host σ}

theorem frameEvents_snoc (self : Address) (ops : List FrameOp) (op : FrameOp) :
    frameEvents self (ops ++ [op]) = frameEvents self ops ++ op.events self := by
  simp [frameEvents]

namespace IsolatedCall

theorem performed_append (c : IsolatedCall) (iso es : List TraceEvent) :
    c.performed (iso ++ es) = ((c.start.run iso).run es).trace := by
  rw [performed, Recorder.run_append]

theorem NoDeviation.nil : c.NoDeviation [] := by
  intro done op rest heq
  simp at heq

theorem NoDeviation.snoc {op : FrameOp} (h : c.NoDeviation ops)
    (hop : op.deviates c.callee c.index c.recorded (c.performed (frameEvents c.callee ops)) =
      .ok false) : c.NoDeviation (ops ++ [op]) := by
  intro done op' rest heq
  rcases eq_nil_or_concat rest with rfl | ⟨rest', last, rfl⟩
  · obtain ⟨rfl, hlast⟩ := append_inj' heq rfl
    obtain rfl := (List.cons.inj hlast).1
    exact hop
  · rw [concat_eq_append, ← cons_append, ← append_assoc] at heq
    exact h done op' rest' (append_inj' heq rfl).1

theorem performed_onCurrent (c : IsolatedCall) {iso : List TraceEvent}
    (h : level iso 0 = some 0) (g : EVMCallTrace → EVMCallTrace) :
    ((c.start.run iso).onCurrent g).trace =
      { c.performed iso with callTraces := (c.performed iso).callTraces.modify c.index g } := by
  obtain ⟨inner, hopen, hinner, -⟩ := (c.start_within.run h).1.shape
  obtain rfl := length_eq_zero_iff.mp hinner
  rw [Recorder.onCurrent, hopen]
  rfl

theorem sstoreDeviates_ne_error (c : IsolatedCall) (entry : SstoreEntry) (iso : List TraceEvent)
    (p : GoPanic) : sstoreDeviates entry c.recorded (c.performed iso) ≠ .error p := by
  intro h
  unfold sstoreDeviates at h
  split at h
  · cases h
  · next hlt =>
    split at h
    · next hnone =>
      have hlen := getElem?_eq_none_iff.mp hnone
      have htotal := c.recorded_totals.1
      rw [recorded_sstoreTrace] at hlen
      simp only [length_append] at hlen
      omega
    · cases h

theorem sha3Deviates_ne_error (c : IsolatedCall) (hash : Word) {iso : List TraceEvent}
    (hiso : level iso 0 = some 0) (p : GoPanic) :
    sha3Deviates c.index hash c.recorded (c.performed iso) ≠ .error p := by
  obtain ⟨recCt, hrecCt, -⟩ := c.recorded_entry
  obtain ⟨subCt, hsubCt, -⟩ := c.performed_entry hiso
  intro h
  rw [sha3Deviates, hrecCt, hsubCt] at h
  dsimp only at h
  split at h <;> cases h

end IsolatedCall

structure Tracks (c : IsolatedCall) (rec' ops : List FrameOp) (e : TACInterpreter σ) : Prop where
  evmTrace : e.config.evmTrace = some c.recorded
  isolationIndex : e.config.isolationIndex = c.index
  frame : (e.frames.map TACFrame.key).head? = some (c.callee, c.index)
  substrate : e.delta.substrateTrace = c.performed (frameEvents c.callee ops)
  deviation : e.delta.stats.tacDeviation = []
  checked : c.NoDeviation ops
  children : Agree (inners rec') (inners ops)

theorem traceInv_tracks : TraceInv (Tracks (σ := σ) c rec' ops) := by
  intro e e' h ht
  refine ⟨?_, ?_, ?_, ?_, ?_, ht.checked, ht.children⟩
  · rw [h.config, ht.evmTrace]
  · rw [h.config, ht.isolationIndex]
  · rw [h.frames, ht.frame]
  · rw [h.substrate, ht.substrate]
  · rw [h.deviation, ht.deviation]

theorem noteInv_deviated : NoteInv (Deviated (σ := σ)) := fun _ _ _ _ hd h => hd h

def Surplus (x : OwnEvent) : Prop := (∃ event, x = .log event) ∨ ∃ target, x = .call target

def KeepsUp (c : IsolatedCall) (rec' ops : List FrameOp) (es : List OwnEvent) (panicked : Prop)
    (e : TACInterpreter σ) : Prop :=
  Deviated e ∨ ∃ new extra, es = ownEvents c.callee new ++ extra ∧ Tracks c rec' (ops ++ new) e ∧
    (extra = [] ∨ panicked ∧ ∃ x, extra = [x] ∧ Surplus x)

def KeepsUpRun {α : Type} (c : IsolatedCall) (rec' ops : List FrameOp) (es : List OwnEvent)
    (r : Except (Stop σ) (α × Machine σ)) : Prop :=
  (∀ a m', r = .ok (a, m') → KeepsUp c rec' ops es False m'.engine) ∧
    ∀ p m', r = .error (.panic p m') → KeepsUp c rec' ops es True m'.engine

variable {e : TACInterpreter σ}

theorem Tracks.keepsUp {new : List FrameOp} {panicked : Prop} (h : Tracks c rec' (ops ++ new) e) :
    KeepsUp c rec' ops (ownEvents c.callee new) panicked e :=
  .inr ⟨new, [], (append_nil _).symm, h, .inl rfl⟩

variable {α : Type} {x : Exec σ α}

theorem keepsUpRun_of_keeps (new : List FrameOp) (h : Tracks c rec' (ops ++ new) m.engine)
    (hx : Keeps (Tracks c rec' (ops ++ new)) x) :
    KeepsUpRun c rec' ops (ownEvents c.callee new) (x m) :=
  ⟨fun a m' heq => ((hx m h).1 a m' heq).keepsUp, fun p m' heq => ((hx m h).2 p m' heq).keepsUp⟩

theorem keepsUpRun_of_deviated {es : List OwnEvent} (h : Deviated m.engine) (hx : Keeps Deviated x)
    : KeepsUpRun c rec' ops es (x m) :=
  ⟨fun a m' heq => .inl ((hx m h).1 a m' heq), fun p m' heq => .inl ((hx m h).2 p m' heq)⟩

theorem Tracks.snoc {op : FrameOp} {e' : TACInterpreter σ} (h : Tracks c rec' ops e)
    (hconfig : e'.config = e.config)
    (hframes : e'.frames.map TACFrame.key = e.frames.map TACFrame.key)
    (hdev : e'.delta.stats.tacDeviation = e.delta.stats.tacDeviation)
    (hsub : e'.delta.substrateTrace =
      c.performed (frameEvents c.callee ops ++ op.events c.callee))
    (hcheck : op.deviates c.callee c.index c.recorded (c.performed (frameEvents c.callee ops)) =
      .ok false) (hinner : Agree (inners rec') (inners (ops ++ [op]))) :
    Tracks c rec' (ops ++ [op]) e' where
  evmTrace := by rw [hconfig, h.evmTrace]
  isolationIndex := by rw [hconfig, h.isolationIndex]
  frame := by rw [hframes, h.frame]
  substrate := by rw [hsub, frameEvents_snoc]
  deviation := by rw [hdev, h.deviation]
  checked := h.checked.snoc hcheck
  children := hinner

theorem checkDeviation_eq (what : String) (check : EVMTrace → EVMTrace → Except GoPanic Bool)
    {t : EVMTrace} (h : m.engine.config.evmTrace = some t) :
    checkDeviation what check m = match check t m.engine.delta.substrateTrace with
      | .error p => .error (.panic p m)
      | .ok deviates => onlyIf deviates (setDeviation what) m := by
  unfold checkDeviation
  rw [bind_of_ok (show (get : Exec σ (Machine σ)) m = .ok (m, m) from rfl)]
  simp only [h]
  rw [bind_apply, Exec.read]
  cases check t m.engine.delta.substrateTrace <;> rfl

theorem setDeviation_eq (what : String) (m : Machine σ) :
    ∃ m', setDeviation what m = .ok ((), m') ∧ Deviated m'.engine :=
  ⟨_, rfl, by simp [Deviated]⟩

theorem check_keepsUp {x : OwnEvent} {what : String}
    {check : EVMTrace → EVMTrace → Except GoPanic Bool} {rest : Exec σ Ret}
    (ht : Tracks c rec' ops m.engine)
    (hpanic : ∀ p, check c.recorded (c.performed (frameEvents c.callee ops)) = .error p →
      Surplus x) (hdev : Keeps Deviated rest)
    (hrest : check c.recorded (c.performed (frameEvents c.callee ops)) = .ok false →
      KeepsUpRun c rec' ops [x] (rest m)) :
    KeepsUpRun c rec' ops [x] ((checkDeviation what check >>= fun _ => rest) m) := by
  have heq := checkDeviation_eq what check ht.evmTrace
  rw [ht.substrate] at heq
  cases hcheck : check c.recorded (c.performed (frameEvents c.callee ops)) with
  | error p =>
    rw [hcheck] at heq
    rw [bind_apply, heq]
    refine ⟨fun a m' h => (by cases h), fun p' m' h => ?_⟩
    obtain ⟨-, rfl⟩ := Stop.panic.inj (Except.error.inj h)
    have ht' : Tracks c rec' (ops ++ []) m.engine := by rwa [append_nil]
    exact .inr ⟨[], [x], rfl, ht', .inr ⟨trivial, x, rfl, hpanic p hcheck⟩⟩
  | ok deviates =>
    rw [hcheck] at heq
    cases deviates with
    | true =>
      obtain ⟨m', hset, hm'⟩ := setDeviation_eq what m
      rw [bind_of_ok (heq.trans hset)]
      exact keepsUpRun_of_deviated hm' hdev
    | false =>
      have hpass : checkDeviation what check m = .ok ((), m) := heq
      rw [bind_of_ok hpass]
      exact hrest hcheck

theorem Tracks.getFrame (h : Tracks c rec' ops e) :
    ∃ frame rest, e.frames = frame :: rest ∧ frame.contract.address = c.callee ∧
      frame.subCallTrace = c.index := by
  have hframe := h.frame
  cases hf : e.frames with
  | nil =>
    rw [hf] at hframe
    cases hframe
  | cons frame rest =>
    rw [hf] at hframe
    have hkey : frame.key = (c.callee, c.index) := Option.some.inj hframe
    exact ⟨frame, rest, rfl, congrArg Prod.fst hkey, congrArg Prod.snd hkey⟩

theorem agree_snoc_of_no_inner {op : FrameOp} (h : Agree (inners rec') (inners ops))
    (hop : op.inner = none) : Agree (inners rec') (inners (ops ++ [op])) := by
  have heq : inners (ops ++ [op]) = inners ops := by simp [inners, hop]
  rwa [heq]

section Instructions
variable (host : Host σ) {m : Machine σ} (ht : Tracks c rec' ops m.engine)
include ht

theorem sstoreUse_keepsUp {entry : SstoreEntry} (haddr : entry.address = c.callee) :
    KeepsUpRun c rec' ops [.sstore entry] (sstoreUse host entry m) := by
  obtain ⟨address, loc, val⟩ := entry
  obtain rfl : address = c.callee := haddr
  unfold sstoreUse
  rw [bind_of_ok rfl, bind_of_ok rfl]
  have ht' : Tracks c rec' ops (Machine.advance { m with engine := { m.engine with
      stateDB := host.setState c.callee loc val m.engine.stateDB } } 3).engine :=
    traceInv_tracks m.engine _ ⟨rfl, rfl, rfl, rfl, rfl, rfl, rfl⟩ ht
  refine check_keepsUp ht' ?_ ?_ ?_
  · intro p hp
    exact absurd hp (c.sstoreDeviates_ne_error _ _ p)
  · exact Keeps.bind (noteInv_deviated.eventInv.modifyDelta fun _ => rfl) fun _ => Keeps.done
  · intro hcheck
    rw [bind_of_ok rfl]
    refine keepsUpRun_of_keeps [.sstore loc val] ?_ Keeps.done
    refine ht'.snoc rfl rfl rfl ?_ hcheck (agree_snoc_of_no_inner ht.children rfl)
    rw [c.performed_append]
    dsimp only
    rw [ht'.substrate]
    rfl

theorem logUse_keepsUp (event : EVMEventTrace) (size : Nat) :
    KeepsUpRun c rec' ops [.log event] (logUse host event.topics size event.data m) := by
  obtain ⟨frame, rest, hf, -, -⟩ := ht.getFrame
  unfold logUse
  rw [bind_of_ok (show (get : Exec σ (Machine σ)) m = .ok (m, m) from rfl)]
  simp only [ht.deviation, decide_true]
  refine check_keepsUp ht (fun p hp => .inl ⟨event, rfl⟩) ?_ ?_
  · exact Keeps.bind (noteInv_deviated.eventInv.modifyDelta fun _ => rfl) fun _ =>
      Keeps.bind Keeps.getFrame fun _ => Keeps.bind Keeps.get fun _ =>
        Keeps.bind (EngineOnly.onState noteInv_deviated.eventInv.frameInv _).keeps fun _ =>
          Keeps.move _
  · intro hcheck
    rw [bind_of_ok rfl]
    refine keepsUpRun_of_keeps [.log event.topics event.data] ?_ ?_
    · refine ht.snoc rfl rfl rfl ?_ hcheck (agree_snoc_of_no_inner ht.children rfl)
      rw [c.performed_append]
      dsimp only
      rw [ht.substrate]
      rfl
    · exact Keeps.bind Keeps.getFrame fun _ => Keeps.bind Keeps.get fun _ =>
        Keeps.bind (EngineOnly.onState traceInv_tracks.frameInv _).keeps fun _ =>
          Keeps.move _

theorem modifySubCallTrace_eq (g : EVMCallTrace → EVMCallTrace) :
    ∃ m', modifySubCallTrace g m = .ok ((), m') ∧ m'.engine.config = m.engine.config ∧
      m'.engine.frames = m.engine.frames ∧
      m'.engine.delta.stats = m.engine.delta.stats ∧
      m'.engine.delta.substrateTrace =
        ((c.start.run (frameEvents c.callee ops)).onCurrent g).trace := by
  obtain ⟨frame, rest, hf, -, hi⟩ := ht.getFrame
  have hget : Exec.getFrame m = .ok (frame, m) := by
    rw [Exec.getFrame, Exec.read, hf]
  rw [modifySubCallTrace, bind_of_ok hget]
  refine ⟨_, rfl, rfl, rfl, rfl, ?_⟩
  rw [c.performed_onCurrent (level_frameEvents _ _)]
  dsimp only
  rw [hi, ht.substrate]

theorem sha3Use_keepsUp (d : Nat) (data : Bytes) :
    KeepsUpRun c rec' ops [.sha3 (host.keccak256 data)] (sha3Use host d data m) := by
  unfold sha3Use
  rw [bind_of_ok (show (get : Exec σ (Machine σ)) m = .ok (m, m) from rfl)]
  obtain ⟨m1, hm1, ht1⟩ : ∃ m1, onlyIf m.engine.config.enablePreimageRecording
      (onState fun s => ((), host.addPreimage (host.keccak256 data) data s)) m = .ok ((), m1) ∧
      Tracks c rec' ops m1.engine := by
    cases m.engine.config.enablePreimageRecording with
    | false => exact ⟨m, rfl, ht⟩
    | true =>
      exact ⟨_, rfl, traceInv_tracks m.engine _ ⟨rfl, rfl, rfl, rfl, rfl, rfl, rfl⟩ ht⟩
  rw [bind_of_ok hm1, ht.isolationIndex]
  refine check_keepsUp ht1 ?_ ?_ ?_
  · intro p hp
    exact absurd hp (c.sha3Deviates_ne_error _ (level_frameEvents _ _) p)
  · exact Keeps.bind (EngineOnly.modifySubCallTrace noteInv_deviated.eventInv _).keeps fun _ =>
      Keeps.write _ _ _
  · intro hcheck
    obtain ⟨m2, hm2, hconfig, hframes, hstats, hsub⟩ :=
      modifySubCallTrace_eq ht1 (·.addSHA3InstRet (host.keccak256 data))
    rw [bind_of_ok hm2]
    refine keepsUpRun_of_keeps [.sha3 (host.keccak256 data)] ?_ ?_
    · refine ht1.snoc hconfig (by rw [hframes]) (by rw [hstats]) ?_ hcheck
        (agree_snoc_of_no_inner ht.children rfl)
      rw [hsub, c.performed_append]
      rfl
    · exact Keeps.write _ _ _

theorem keepsUpRun_bind {β : Type} {es : List OwnEvent} {f : α → Exec σ β}
    (hx : Keeps (Tracks c rec' ops) x) (herr : ∀ stop, x m = .error stop → es = [])
    (hok : ∀ a m1, x m = .ok (a, m1) → Tracks c rec' ops m1.engine →
      KeepsUpRun c rec' ops es (f a m1)) : KeepsUpRun c rec' ops es ((x >>= f) m) := by
  obtain ⟨hkeep, hpanic⟩ := hx m ht
  rw [bind_apply]
  cases hxm : x m with
  | ok q => exact hok q.1 q.2 hxm (hkeep q.1 q.2 hxm)
  | error stop =>
    refine ⟨fun a m' h => (by cases h), fun p m' h => ?_⟩
    obtain rfl := Except.error.inj h
    have htracks : Tracks c rec' (ops ++ []) m'.engine := by
      rw [append_nil]
      exact hpanic p m' hxm
    rw [herr _ hxm]
    exact htracks.keepsUp

omit ht in
theorem keepsUpRun_fail (ht : Tracks c rec' ops m.engine) (e : VmError) :
    KeepsUpRun c rec' ops [] (Exec.fail e m) := by
  have htracks : Tracks c rec' (ops ++ []) m.engine := by rwa [append_nil]
  exact keepsUpRun_of_keeps [] htracks (Keeps.fail e)

theorem execGas_keepsUp : KeepsUpRun c rec' ops [] (execGas m) := by
  refine keepsUpRun_bind ht (Keeps.operand _) (fun _ _ => rfl) fun d m1 _ ht1 => ?_
  refine keepsUpRun_bind ht1 Keeps.getFrame (fun _ _ => rfl) fun frame m2 _ ht2 => ?_
  refine keepsUpRun_bind ht2 Keeps.get (fun _ _ => rfl) fun m' m3 _ ht3 => ?_
  generalize frame.recCallTrace.gasInstRet[(_ : Nat)]? = found
  cases found with
  | none => exact keepsUpRun_fail ht3 _
  | some gas =>
    dsimp only
    obtain ⟨m4, hm4, hconfig, hframes, hstats, hsub⟩ :=
      modifySubCallTrace_eq ht3 (·.addGasInstRet gas)
    rw [bind_of_ok hm4]
    refine keepsUpRun_of_keeps [.gas gas] ?_ ?_
    · refine ht3.snoc hconfig (by rw [hframes]) (by rw [hstats]) ?_ rfl
        (agree_snoc_of_no_inner ht.children rfl)
      rw [hsub, c.performed_append]
      rfl
    · exact Keeps.write _ _ _

end Instructions

/-- The calls the frame makes return, and leave in the trace what is recorded for the call at
the same place among the calls of the frame. -/
structure ChildrenRecorded (c : IsolatedCall) (rec' : List FrameOp) (host : Host σ) : Prop where
  answers : ∀ ops e call, Tracks c rec' ops e → ∃ res e' inner o,
    host.external call e = .ok (res, e') ∧ e'.config = e.config ∧
      e'.frames.map TACFrame.key = e.frames.map TACFrame.key ∧
      e'.delta.stats.tacDeviation = e.delta.stats.tacDeviation ∧
      e'.delta.substrateTrace = c.performed
        (frameEvents c.callee ops ++ callEvents (call.callee c.callee res) inner o) ∧
      ∀ x, (inners rec')[(inners ops).length]? = some x → x = inner
  deviated : CallKeeps Deviated host

variable {q : Address × CallSite σ}

theorem external_keepsUp (hc : ChildrenRecorded c rec' host) (ht : Tracks c rec' ops m.engine)
    (call : ExternalCall) (resume : CallResult → Exec σ Ret)
    (make : CallResult → Nested → CallOutcome → FrameOp) (hevents : ∀ res inner o,
      (make res inner o).events c.callee = callEvents (call.callee c.callee res) inner o)
    (hinner : ∀ res inner o, (make res inner o).inner = some inner)
    (hcheck : ∀ res inner o, (make res inner o).deviates c.callee c.index c.recorded
      (c.performed (frameEvents c.callee ops)) = .ok false)
    (hresume : ∀ (I : TACInterpreter σ → Prop) res, TraceInv I → Keeps I (resume res)) :
    ∃ res e' inner o, host.external call m.engine = .ok (res, e') ∧
      KeepsUpRun c rec' ops (ownEvents c.callee [make res inner o])
        ((external host call >>= resume) m) := by
  obtain ⟨res, e', inner, o, hext, hconfig, hframes, hdev, hsub, hrec⟩ :=
    hc.answers ops m.engine call ht
  have hx : external host call m = .ok (res, { m with engine := e' }) := by
    rw [external, hext]
  refine ⟨res, e', inner, o, hext, ?_⟩
  rw [bind_of_ok hx]
  refine keepsUpRun_of_keeps [make res inner o] ?_ (hresume _ res traceInv_tracks)
  refine ht.snoc hconfig hframes hdev (by rw [hsub, hevents]) (hcheck _ _ _) ?_
  have heq : inners (ops ++ [make res inner o]) = inners ops ++ [inner] := by
    simp [inners, hinner]
  rw [heq]
  exact ht.children.snoc hrec

theorem callUse_keepsUp (hc : ChildrenRecorded c rec' host) {kind : CallKind} {m0 : Machine σ}
    (hq : callArgs kind host m0 = .ok (.ok q, m)) (ht : Tracks c rec' ops m.engine) :
    KeepsUpRun c rec' ops [.call q.1] (callUse kind host q m) := by
  obtain ⟨⟨args, gas, value, hcall⟩, success, retOffset, retSize, size, hresume⟩ :=
    callArgs_site hq
  have hkeep : ∀ (I : TACInterpreter σ → Prop) res, TraceInv I → Keeps I (q.2.resume res) := by
    intro I res hI
    rw [hresume]
    exact (writesTo_finishCall hI.frameInv _ _ _ _ _ _ _).keeps
  refine check_keepsUp ht (fun p hp => .inr ⟨q.1, rfl⟩) ?_ ?_
  · exact Keeps.bind (EngineOnly.external hc.deviated _).keeps fun res =>
      hkeep _ res noteInv_deviated.traceInv
  · intro hcheck
    have hevents : ∀ res inner o, (FrameOp.call kind q.1 args value inner o).events c.callee =
        callEvents (q.2.call.callee c.callee res) inner o := by
      intro res inner o
      rw [hcall]
      cases kind <;> rfl
    obtain ⟨res, e', inner, o, -, hup⟩ := external_keepsUp hc ht q.2.call q.2.resume
      (fun _ inner o => .call kind q.1 args value inner o) hevents (fun _ _ _ => rfl)
      (fun _ _ _ => hcheck) hkeep
    exact hup

theorem execCreateKind_keepsUp (hc : ChildrenRecorded c rec' host) (salted : Bool)
    (ht : Tracks c rec' ops m.engine) :
    KeepsUpRun c rec' ops (attemptCreate host (askCreate salted m))
      (execCreateKind salted host m) := by
  rw [execCreateKind_eq]
  refine keepsUpRun_bind ht (keeps_askCreate traceInv_tracks.frameInv salted) ?_ ?_
  · intro stop h
    rw [h]
    rfl
  · intro asked m1 h ht1
    rw [h]
    cases asked with
    | error ret =>
      have hnil : Tracks c rec' (ops ++ []) m1.engine := by rwa [append_nil]
      exact keepsUpRun_of_keeps [] hnil (Keeps.pure ret)
    | ok site =>
      obtain ⟨⟨isHomestead, dest, hresume⟩, input, gas, value, salt, hcall⟩ := askCreate_site h
      have hevents : ∀ res inner o, (FrameOp.create res.addr inner o).events c.callee =
          callEvents (site.call.callee c.callee res) inner o := by
        intro res inner o
        rw [hcall]
        cases salted <;> rfl
      have hkeep : ∀ (I : TACInterpreter σ → Prop) res, TraceInv I → Keeps I (site.resume res) := by
        intro I res hI
        rw [hresume]
        exact keeps_resumeCreate hI.frameInv (hI.modifyFrame fun _ => rfl) _ _ _
      obtain ⟨res, e', inner, o, hext, hup⟩ := external_keepsUp hc ht1 site.call site.resume
        (fun res inner o => .create res.addr inner o) hevents (fun _ _ _ => rfl)
        (fun _ _ _ => rfl) hkeep
      rw [attemptCreate, hext]
      exact hup

theorem sstoreArgs_address {m1 : Machine σ} {entry : SstoreEntry} (ht : Tracks c rec' ops m.engine)
    (h : sstoreArgs m = .ok (entry, m1)) :
    entry.address = c.callee := by
  obtain ⟨frame, rest, hf, haddr, -⟩ := ht.getFrame
  obtain ⟨_, -, h⟩ := Exec.operand_bind h
  obtain ⟨_, -, h⟩ := Exec.operand_bind h
  have h := Exec.val_bind h
  have h := Exec.val_bind h
  obtain ⟨frame', _, h1, h⟩ := bind_eq_ok.mp h
  obtain ⟨hframe, -⟩ := read_eq_ok.mp h1
  rw [hf] at hframe
  cases hframe
  obtain ⟨rfl, -⟩ := pure_eq_ok.mp h
  exact haddr

theorem orFail_keepsUp (ht : Tracks c rec' ops m.engine) {x : Exec σ (Except VmError α)}
    {use : α → Exec σ Ret} (g : α → OwnEvent) (hx : Keeps (Tracks c rec' ops) x)
    (huse : ∀ a m1, x m = .ok (.ok a, m1) → Tracks c rec' ops m1.engine →
      KeepsUpRun c rec' ops [g a] (use a m1)) :
    KeepsUpRun c rec' ops (attemptOf g (x m)) ((x >>= orFail use) m) := by
  refine keepsUpRun_bind ht hx ?_ ?_
  · intro stop h
    rw [h]
    rfl
  · intro r m1 h ht1
    rw [h]
    cases r with
    | error e => exact keepsUpRun_fail ht1 e
    | ok a => exact huse a m1 h ht1

theorem log_keepsUp (host : Host σ) (size : Nat) (ht : Tracks c rec' ops m.engine) :
    KeepsUpRun c rec' ops (attemptOf .log (logArgs size m)) (makeTACLog host size m) := by
  rw [makeTACLog_eq_args]
  exact orFail_keepsUp ht .log (keeps_logArgs traceInv_tracks.frameInv size)
    fun event m1 _ ht1 => logUse_keepsUp host ht1 event size

theorem call_keepsUp (hc : ChildrenRecorded c rec' host) (kind : CallKind)
    (ht : Tracks c rec' ops m.engine) :
    KeepsUpRun c rec' ops (attemptOf (fun q => .call q.1) (callArgs kind host m))
      (execCallKind kind host m) := by
  rw [execCallKind_eq_args]
  exact orFail_keepsUp ht _ (EngineOnly.callArgs traceInv_tracks.frameInv kind host).keeps
    fun q m1 hq ht1 => callUse_keepsUp hc hq ht1

theorem sstore_keepsUp (host : Host σ) (ht : Tracks c rec' ops m.engine) (run : Runner σ) :
    KeepsUpRun c rec' ops (attempt host .SSTORE m) (execution host run .SSTORE m) := by
  change KeepsUpRun c rec' ops _ (execSstore host m)
  rw [execSstore_eq_args]
  refine keepsUpRun_bind ht EngineOnly.sstoreArgs.keeps ?_ ?_
  · intro stop h
    rw [attempt, h]
  · intro entry m1 h ht1
    rw [attempt, h]
    exact sstoreUse_keepsUp host ht1 (sstoreArgs_address ht h)

theorem attempt_of_plain (host : Host σ) {op : TACOp} (h : writesTraces op = false)
    (m : Machine σ) : attempt host op m = [] := by
  unfold attempt
  split <;> first
    | cases h
    | rfl

theorem execution_keepsUp (hc : ChildrenRecorded c rec' host) (run : Runner σ) {op : TACOp}
    (hop : op ≠ .CALLPRIVATE) (ht : Tracks c rec' ops m.engine) :
    KeepsUpRun c rec' ops (attempt host op m) (execution host run op m) := by
  cases hw : writesTraces op with
  | false =>
    have hnil : Tracks c rec' (ops ++ []) m.engine := by rwa [append_nil]
    rw [attempt_of_plain host hw]
    exact keepsUpRun_of_keeps [] hnil (execution_keeps_plain traceInv_tracks.frameInv host run hw)
  | true =>
    unfold writesTraces at hw
    split at hw
    · exact sstore_keepsUp host ht run
    · exact log_keepsUp host 0 ht
    · exact log_keepsUp host 1 ht
    · exact log_keepsUp host 2 ht
    · exact log_keepsUp host 3 ht
    · exact log_keepsUp host 4 ht
    · change KeepsUpRun c rec' ops _ (execSha3 host m)
      rw [execSha3_eq_args]
      exact orFail_keepsUp ht _ (EngineOnly.sha3Args traceInv_tracks.frameInv).keeps
        fun q m1 _ ht1 => sha3Use_keepsUp host ht1 q.1 q.2
    · exact execGas_keepsUp ht
    · exact call_keepsUp hc .call ht
    · exact call_keepsUp hc .callcode ht
    · exact call_keepsUp hc .delegatecall ht
    · exact call_keepsUp hc .staticcall ht
    · exact execCreateKind_keepsUp hc false ht
    · exact execCreateKind_keepsUp hc true ht
    · exact absurd rfl hop
    · cases hw

end EtherVal.Vm
