import EtherVal.Vm.Run
import EtherVal.Vm.Stack

/-!
# The program of the frame on top
-/

namespace EtherVal.Vm
open EtherVal.Lib EtherVal.TacParser

variable {σ : Type}
variable {fuel : Nat}

def Host.calm (host : Host σ) : Host σ :=
  { host with external := fun c e =>
      match host.external c e with
      | .ok r => .ok r
      | .error (p, _) => .error (p, e) }

variable {host : Host σ}
variable {m m' : Machine σ} {ret : Ret}

theorem answer_calm {a : Except Ret (CallSite σ)} (h : answer host a m = .ok (ret, m')) :
    answer host.calm a m = .ok (ret, m') := by
  cases a with
  | error ret => exact h
  | ok site =>
    obtain ⟨res, m1, hext, hresume⟩ := Exec.bind_eq_ok.mp h
    have hcalm : external host.calm site.call m = .ok (res, m1) := by
      unfold external at hext ⊢
      unfold Host.calm
      cases hx : host.external site.call m.engine with
      | error q =>
        rw [hx] at hext
        cases hext
      | ok q =>
        rw [hx] at hext
        dsimp only
        rw [hx]
        exact hext
    exact Exec.bind_eq_ok.mpr ⟨res, m1, hcalm, hresume⟩

def Below (run run' : Runner σ) : Prop :=
  ∀ ctx e r, run ctx e = .ok r → run' ctx e = .ok r

variable {run run' : Runner σ}

theorem runCallee_below (h : Below run run') {ctx : TACContext} {q : Ret × List Word}
    (hr : runCallee run ctx m = .ok (q, m')) :
    runCallee run' ctx m = .ok (q, m') := by
  unfold runCallee at hr ⊢
  cases hx : run ctx m.engine with
  | error stop =>
    rw [hx] at hr
    cases stop <;> cases hr
  | ok q =>
    rw [hx] at hr
    rw [h ctx m.engine q hx]
    exact hr

theorem execCallprivate_below (h : Below run run') (hr : execCallprivate run m = .ok (ret, m')) :
    execCallprivate run' m = .ok (ret, m') := by
  rw [execCallprivate_eq] at hr ⊢
  obtain ⟨⟨ctx, dests⟩, m1, henter, hleave⟩ := Exec.bind_eq_ok.mp hr
  obtain ⟨q, m2, hcallee, hrest⟩ := Exec.bind_eq_ok.mp hleave
  have hleave' : leavePrivate run' ctx dests m1 = .ok (ret, m') :=
    Exec.bind_eq_ok.mpr ⟨q, m2, runCallee_below h hcallee, hrest⟩
  exact Exec.bind_eq_ok.mpr ⟨(ctx, dests), m1, henter, hleave'⟩

theorem ask_calm (host : Host σ) (op : TACOp) : ask host.calm op = ask host op := by
  cases op <;> rfl

theorem execution_calm (h : Below run run') {op : TACOp}
    (hr : execution host run op m = .ok (ret, m')) :
    execution host.calm run' op m = .ok (ret, m') := by
  cases hask : ask host op with
  | some x =>
    rw [execution_ask hask] at hr
    rw [execution_ask ((ask_calm host op).trans hask)]
    obtain ⟨a, m1, hx, hanswer⟩ := Exec.bind_eq_ok.mp hr
    exact Exec.bind_eq_ok.mpr ⟨a, m1, hx, answer_calm hanswer⟩
  | none =>
    cases op
    case CALLPRIVATE => exact execCallprivate_below h hr
    case CALL | CALLCODE | DELEGATECALL | STATICCALL | CREATE | CREATE2 => cases hask
    all_goals exact hr

variable {s : LoopState σ}

theorem round_calm (h : Below run run') {r : Round σ} (hr : round host run s = .ok r) :
    round host.calm run' s = .ok r := by
  obtain ⟨⟨o, s1⟩, hhead, hrest⟩ := bind_ok hr
  have hhead' : roundHead host.calm s = .ok (o, s1) := hhead
  refine bind_ok_iff.mpr ⟨(o, s1), hhead', ?_⟩
  cases o with
  | some ret => exact hrest
  | none =>
    obtain ⟨q1, hcount, hrest⟩ := bind_ok hrest
    obtain ⟨q2, hfetch, hrest⟩ := bind_ok hrest
    obtain ⟨q3, hexec, htail⟩ := bind_ok hrest
    exact bind_ok_iff.mpr ⟨q1, hcount, bind_ok_iff.mpr ⟨q2, hfetch,
      bind_ok_iff.mpr ⟨q3, execution_calm h hexec, htail⟩⟩⟩

theorem executeFrom_calm {r : Ret × Machine σ} (hr : executeFrom host fuel s = .ok r) :
    executeFrom host.calm fuel s = .ok r := by
  induction fuel generalizing s r with
  | zero => cases hr
  | succ fuel ih =>
    have hbelow : Below (executeFunc host fuel) (executeFunc host.calm fuel) :=
      fun ctx e r h => ih h
    unfold executeFrom at hr ⊢
    split at hr
    · next hpc =>
      rw [if_pos hpc]
      obtain ⟨q, hround, hrest⟩ := bind_ok hr
      refine bind_ok_iff.mpr ⟨q, round_calm hbelow hround, ?_⟩
      cases q with
      | returned ret m => exact hrest
      | next s' => exact ih hrest
    · next hpc =>
      rw [if_neg hpc]
      exact hr

variable {s' : LoopState σ}

theorem Step.calm (h : Step host s s') :
    Step host.calm s s' := by
  obtain ⟨hpc, fuel, hround⟩ := h
  exact ⟨hpc, fuel, round_calm (fun ctx e r => executeFrom_calm) hround⟩

def CallReturns (I : TACInterpreter σ → Prop) (host : Host σ) : Prop :=
  ∀ c e res e', I e → host.external c e = .ok (res, e') → I e'

variable {I : TACInterpreter σ → Prop}

theorem CallReturns.calm (h : CallReturns I host) :
    CallKeeps I host.calm := by
  intro c e he
  unfold Host.calm
  dsimp only
  cases hx : host.external c e with
  | error q =>
    exact outcome_error he
  | ok q =>
    refine ⟨fun res e' heq => ?_, fun _ _ heq => (by cases heq)⟩
    cases heq
    exact h c e res e' he hx

theorem KeepsEvents.step (hI : KeepsEvents host I) (h : Step host s s') (hs : I s.machine.engine) :
    I s'.machine.engine := by
  obtain ⟨-, fuel, hround⟩ := h
  exact (round_keeps hI (runKeeps_executeFunc hI fuel) hs).1 _ hround

def RunsProg (prog : TACProgram) (e : TACInterpreter σ) : Prop :=
  e.frames.head?.map TACFrame.prog = some prog

theorem ledgerInv_runsProg (prog : TACProgram) : LedgerInv (RunsProg (σ := σ) prog) := by
  intro e e' _ hf he
  have hprogs := congrArg (fun l => (List.map TACFrame.prog l).head?) hf
  simp only [List.map_map, List.head?_map] at hprogs
  exact hprogs.trans he

theorem creditInv_runsProg (prog : TACProgram) : CreditInv (RunsProg (σ := σ) prog) := by
  intro gas
  refine Keeps.modifyEngine fun e he => ?_
  unfold RunsProg at he ⊢
  cases hf : e.frames with
  | nil =>
    rw [hf] at he
    exact he
  | cons f rest =>
    rw [hf] at he
    exact he

variable {prog : TACProgram}

theorem keepsEvents_runsProg (hhost : CallReturns (RunsProg prog) host) :
    KeepsEvents host.calm (RunsProg prog) :=
  ⟨⟨(ledgerInv_runsProg prog).eventInv, hhost.calm⟩, creditInv_runsProg prog⟩

theorem RunsProg.step (hhost : CallReturns (RunsProg prog) host) (h : Step host s s')
    (hs : RunsProg prog s.machine.engine) :
    RunsProg prog s'.machine.engine :=
  (keepsEvents_runsProg hhost).step h.calm hs

theorem RunsProg.execution (hhost : CallReturns (RunsProg prog) host) {left : Nat} {op : TACOp}
    (hm : RunsProg prog m.engine) (hx : execution host (executeFunc host left) op m = .ok
    (ret, m')) :
    RunsProg prog m'.engine := by
  have hI := keepsEvents_runsProg hhost
  have hbelow : Below (executeFunc host left) (executeFunc host.calm left) :=
    fun ctx e r => executeFrom_calm
  have hcalm := execution_calm hbelow hx
  exact (execution_keeps hI (runKeeps_executeFunc hI left) op m hm).1 ret m' hcalm

/-! ### Without timers the EVM gives the frames back

A panic is then never caught, so the frames it leaves behind are never seen. -/

section
variable {δ : Type}

def Stacked (l : List TACProgram) (e : TACInterpreter σ) : Prop := e.frames.map TACFrame.prog = l

theorem ledgerInv_stacked (l : List TACProgram) : LedgerInv (Stacked (σ := σ) l) := by
  intro e e' _ hf he
  have hprogs := congrArg (List.map TACFrame.prog) hf
  simp only [List.map_map] at hprogs
  exact hprogs.trans he

theorem creditInv_stacked (l : List TACProgram) : CreditInv (Stacked (σ := σ) l) := by
  intro gas
  refine Keeps.modifyEngine fun e he => ?_
  unfold Stacked at he ⊢
  cases hf : e.frames with
  | nil =>
    rw [hf] at he
    exact he
  | cons f rest =>
    rw [hf] at he
    exact he

variable {e : Engine δ} {l : List TACProgram} {e' : Engine δ}

theorem SameStack.stacked (h : SameStack e e') (he : Stacked l e) : Stacked l e' := by
  unfold Stacked
  rw [h.frames]
  exact he

theorem runEntry_calm {host : Host (EvmState δ)} {r : Ret × Engine δ}
    (h : runEntry host fuel prog e = .ok r) :
    runEntry host.calm fuel prog e = .ok r := by
  unfold runEntry at h ⊢
  cases hentry : prog.entry with
  | none =>
    rw [hentry] at h
    cases h
  | some f =>
    rw [hentry] at h
    dsimp only at h ⊢
    cases hctx : newContext f none with
    | error p =>
      rw [hctx] at h
      cases h
    | ok ctx =>
      rw [hctx] at h
      dsimp only at h ⊢
      cases hx : executeFunc host fuel ctx e with
      | error stop =>
        rw [hx] at h
        cases stop <;> cases h
      | ok q =>
        rw [hx] at h
        have hcalm : executeFunc host.calm fuel ctx e = .ok q := executeFrom_calm hx
        rw [hcalm]
        exact h

variable {w : World δ}

theorem runTac_stacked (hw : w.timeoutEnabled = false) {host : Host (EvmState δ)}
    (hhost : ∀ l, CallReturns (Stacked l) host) {req : FrameRequest} {q : Ret × Nat}
    (he : Stacked l e) (h : runTac w host fuel req e = .ok (q, e')) : Stacked l e' := by
  unfold runTac at h
  cases hprog : w.getTACProg req.contract with
  | error err =>
    rw [hprog] at h
    cases h
    have hsame : SameStack e (if isTACGlobalError err then setSubstrateErr err e else e) :=
      .ite ⟨rfl, rfl⟩ (.refl e)
    exact hsame.stacked he
  | ok prog =>
    rw [hprog] at h
    dsimp only at h
    unfold tacRun at h
    cases hen : enterRun prog req e with
    | error p =>
      rw [hen] at h
      cases h
    | ok entered =>
      rw [hen] at h
      cases entered with
      | returned ret e1 =>
        cases h
        exact (enterRun_returned hen).stacked he
      | frame frame start =>
        dsimp only at h
        have hstart : Stacked (frame.prog :: l) start := by
          unfold Stacked
          rw [(enterRun_frame hen).2, List.map_cons, he]
        cases hx : runEntry host fuel prog start with
        | error p =>
          rw [hx] at h
          have hguard : guarded w start = false := by simp [guarded, hw]
          dsimp only at h
          rw [if_neg (by simp [hguard])] at h
          cases h
        | ok r =>
          rw [hx] at h
          have hI : KeepsEvents host.calm (Stacked (frame.prog :: l)) :=
            ⟨⟨(ledgerInv_stacked _).eventInv, (hhost _).calm⟩, creditInv_stacked _⟩
          have hout := (runEntry_keeps hI fuel prog hstart).1 r.1 r.2 (runEntry_calm hx)
          have hsel := (sameStack_select w start r.1 r.2).stacked hout
          have hlast : _ = e' := congrArg Prod.snd (Except.ok.inj h)
          have hframes : e'.frames = (select w start r.1 r.2).2.frames.tail := by
            rw [← hlast]
            unfold finishRun
            dsimp only
            split
            · split <;> rfl
            · rfl
          unfold Stacked at hsel ⊢
          rw [hframes, List.map_tail, hsel]
          rfl

theorem evmExternal_stacked {run : FrameRunner δ}
    (hrun : ∀ req e q e', Stacked l e → run req e = .ok (q, e') → Stacked l e') {c : ExternalCall}
    {res : CallResult} (he : Stacked l e) (h : evmExternal w run c e = .ok (res, e')) :
    Stacked l e' := by
  unfold evmExternal at h
  cases hf : e.frames with
  | nil =>
    rw [hf] at h
    cases h
  | cons frame rest =>
    rw [hf] at h
    dsimp only at h
    have hprep : Stacked l (prepare w frame.contract c (nextCallTrace e)).engine :=
      (sameStack_prepare w frame.contract c (nextCallTrace e)).stacked he
    cases hp : prepare w frame.contract c (nextCallTrace e) with
    | finished res1 e1 =>
      rw [hp] at h hprep
      cases h
      exact hprep
    | frame req e1 =>
      rw [hp] at h hprep
      dsimp only at h
      cases hx : run req e1 with
      | error q =>
        rw [hx] at h
        cases h
      | ok q =>
        rw [hx] at h
        have hback := hrun req e1 q.1 q.2 hprep hx
        have hfin := (sameStack_finish w c req q.1.1 q.1.2 q.2).stacked hback
        cases h
        exact hfin

theorem hostAt_stacked (hw : w.timeoutEnabled = false) (fuel n : Nat) (l : List TACProgram) :
    CallReturns (Stacked l) (hostAt w fuel n) := by
  induction n generalizing l with
  | zero =>
    intro c e res e' he h
    have hnone : ∀ (req : FrameRequest) (e1 : Engine δ) (q : Ret × Nat) e2, Stacked l e1 →
        (.error (fuelPanic, e1) : Except (GoPanic × Engine δ) ((Ret × Nat) × Engine δ))
          = .ok (q, e2) → Stacked l e2 := fun _ _ _ _ _ hx => (by cases hx)
    exact evmExternal_stacked hnone he h
  | succ n ih =>
    intro c e res e' he h
    exact evmExternal_stacked (fun req e1 q e2 he1 hx => runTac_stacked hw ih he1 hx) he h

theorem hostAt_runsProg (hw : w.timeoutEnabled = false) (fuel n : Nat) (prog : TACProgram) :
    CallReturns (RunsProg prog) (hostAt w fuel n) := by
  intro c e res e' he h
  have hback := hostAt_stacked hw fuel n (e.frames.map TACFrame.prog) c e res e' rfl h
  unfold RunsProg at he ⊢
  rw [← List.head?_map] at he ⊢
  rw [← he]
  exact congrArg List.head? hback

end

end EtherVal.Vm
