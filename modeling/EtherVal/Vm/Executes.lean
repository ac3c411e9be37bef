import EtherVal.Vm.Keeps
import EtherVal.Vm.Run

/-!
# Instructions a run comes to
-/

namespace EtherVal.Vm
open EtherVal.Lib EtherVal.TacParser
open Exec

variable {σ : Type}
variable {m m1 m' : Machine σ} {host : Host σ} {s s' : LoopState σ} {fuel left : Nat} {op : TACOp}
  {dests : List Int} {ret : Ret}

def bufferLength (m : Machine σ) : Option Nat := m.ctx.prevReturnData.map List.length

def KeepsCaller {α : Type} (x : Exec σ α) : Prop :=
  ∀ m a m', x m = .ok (a, m') →
    m'.ctx.functionStop = m.ctx.functionStop ∧ bufferLength m' = bufferLength m

namespace KeepsCaller
variable {α β : Type}

theorem bind {x : Exec σ α} {f : α → Exec σ β} (hx : KeepsCaller x) (hf : ∀ a, KeepsCaller (f a)) :
    KeepsCaller (x >>= f) := by
  intro m b m' h
  obtain ⟨a, m1, h1, h2⟩ := bind_eq_ok.mp h
  obtain ⟨hs1, hb1⟩ := hx m a m1 h1
  obtain ⟨hs2, hb2⟩ := hf a m1 b m' h2
  exact ⟨hs2.trans hs1, hb2.trans hb1⟩

theorem of_engineOnly {x : Exec σ α} (hx : EngineOnly Always x) : KeepsCaller x := by
  intro m a m' h
  obtain ⟨-, hctx⟩ := hx.same m a m' h
  rw [bufferLength, hctx]
  exact ⟨rfl, rfl⟩

theorem advance (n : Int) : KeepsCaller (Exec.advance (σ := σ) n) := by
  intro m a m' h
  obtain rfl := advance_eq_ok.mp h
  exact ⟨rfl, rfl⟩

theorem assign (r : Nat) (w : Word) : KeepsCaller (Exec.assign (σ := σ) r w) := by
  intro m a m' h
  obtain rfl := assign_eq_ok.mp h
  exact ⟨rfl, rfl⟩

theorem pure (a : α) : KeepsCaller (pure a : Exec σ α) := of_engineOnly (.pure a)

end KeepsCaller

structure CallSite (σ : Type) where
  call : ExternalCall
  resume : CallResult → Exec σ Ret

/-- The call of an instruction with the operands `ops`, and its callee. -/
def admitCall (kind : CallKind) (host : Host σ) (ops : CallOperands) :
    Exec σ (Except VmError (Address × CallSite σ)) := do
  let toAddr := Uint256.bytes20 ops.addr
  match ← memoryRange ops.argsOffset ops.argsSize with
  | .error e => return .error e
  | .ok args =>
    if kind = .call ∧ (← get).engine.readOnly ∧ ops.value ≠ 0 then return .error .writeProtection
    else
      let gas := forwardedGas ops.value ops.gas
      if (← get).engine.delta.maxGas < gas then return .error .outOfGas
      else
        return .ok (toAddr, ⟨kind.toExternal toAddr args gas ops.value,
          finishCall host toAddr ops.success ops.retOffset ops.retSize
            (8 + if kind.hasValue then 1 else 0)⟩)

def callArgs (kind : CallKind) (host : Host σ) : Exec σ (Except VmError (Address × CallSite σ)) :=
  callOperands kind >>= admitCall kind host

def asked (kind : CallKind) :
    Except VmError (Address × CallSite σ) → Exec σ (Except Ret (CallSite σ))
  | .error e => return .error ([], some e)
  | .ok q => do
    checkDeviation kind.name (callDeviates q.1)
    return .ok q.2

def askCall (kind : CallKind) (host : Host σ) : Exec σ (Except Ret (CallSite σ)) :=
  callArgs kind host >>= asked kind

def resumeCreate (salted isHomestead : Bool) (dest : Nat) (res : CallResult) : Exec σ Ret := do
  onlyIf ((← get).engine.interpreter = .evm) (modifyDelta fun d => { d with usedEVM := true })
  let failed := res.err.any fun e =>
    salted || isHomestead || e.text ≠ VmError.codeStoreOutOfGas.text
  assign dest (if failed then Uint256.clear else Uint256.ofAddress res.addr)
  modifyFrame fun frame => { frame with contract := { frame.contract with
    gas := (frame.contract.gas + res.leftOverGas) % uint64Mod } }
  if res.err.any (fun e => e.text = VmError.executionReverted.text) then
    return (res.ret, none)
  else done

def askCreate (salted : Bool) : Exec σ (Except Ret (CallSite σ)) := do
  let dest ← operand 1
  let value ← val (← operand 2)
  let offset ← operand 3
  let length ← operand 4
  let salt ← optionalValue salted 5
  advance (if salted then 6 else 5)
  let gas := (← getFrame).contract.gas
  match ← memoryRange offset length with
  | .error e => return .error ([], some e)
  | .ok input =>
    let config := (← get).engine.config
    let gas := if config.isEIP150 then gas - gas / 64 else gas
    if (← get).engine.delta.maxGas < gas then return .error ([], some .outOfGas)
    else
      return .ok ⟨if salted then .create2 input gas value salt else .create input gas value,
        resumeCreate salted config.isHomestead dest⟩

def answer (host : Host σ) : Except Ret (CallSite σ) → Exec σ Ret
  | .error ret => pure ret
  | .ok site => external host site.call >>= site.resume

theorem execCallKind_eq (kind : CallKind) (host : Host σ) :
    execCallKind kind host = askCall kind host >>= answer host := by
  unfold execCallKind askCall callArgs admitCall
  simp only [bind_assoc]
  refine bind_congr fun ops => bind_congr fun range => ?_
  cases range with
  | error e => rfl
  | ok args =>
    dsimp only
    rw [bind_assoc]
    refine bind_congr fun m => ?_
    split
    · rfl
    · rw [bind_assoc]
      refine bind_congr fun m' => ?_
      split
      · rfl
      · rw [pure_bind, asked, bind_assoc]
        rfl

theorem execCreateKind_eq (salted : Bool) (host : Host σ) :
    execCreateKind salted host = askCreate salted >>= answer host := by
  unfold execCreateKind askCreate
  simp only [bind_assoc]
  refine bind_congr fun dest => bind_congr fun _ => bind_congr fun value =>
    bind_congr fun offset => bind_congr fun length => bind_congr fun salt =>
      bind_congr fun _ => bind_congr fun frame => bind_congr fun range => ?_
  cases range with
  | error e => rfl
  | ok input =>
    dsimp only
    rw [bind_assoc]
    refine bind_congr fun m => ?_
    rw [bind_assoc]
    refine bind_congr fun m' => ?_
    generalize (if m.engine.config.isEIP150 = true then frame.contract.gas - frame.contract.gas / 64
      else frame.contract.gas) = total
    split <;> rfl

def ask (host : Host σ) : TACOp → Option (Exec σ (Except Ret (CallSite σ)))
  | .CALL => some (askCall .call host)
  | .CALLCODE => some (askCall .callcode host)
  | .DELEGATECALL => some (askCall .delegatecall host)
  | .STATICCALL => some (askCall .staticcall host)
  | .CREATE => some (askCreate false)
  | .CREATE2 => some (askCreate true)
  | _ => none

theorem execution_ask {x : Exec σ (Except Ret (CallSite σ))} (h : ask host op = some x)
    (run : Runner σ) :
    execution host run op = x >>= answer host := by
  cases op <;> simp only [ask, Option.some.injEq, reduceCtorEq] at h <;> subst h
  case CREATE | CREATE2 => exact execCreateKind_eq _ host
  all_goals exact execCallKind_eq _ host

def Asks (host : Host σ) (op : TACOp) (m : Machine σ) (site : CallSite σ) (m1 : Machine σ) : Prop :=
  ∃ x, ask host op = some x ∧ x m = .ok (.ok site, m1)

variable {site : CallSite σ}

theorem Asks.execution_eq (h : Asks host op m site m1) {res : CallResult} {e : TACInterpreter σ}
    (hx : host.external site.call m1.engine = .ok (res, e)) (run : Runner σ) :
    execution host run op m = site.resume res { m1 with engine := e } := by
  obtain ⟨x, hask, hm⟩ := h
  have hext : external host site.call m1 = .ok (res, { m1 with engine := e }) := by
    rw [external, hx]
  rw [execution_ask hask, bind_of_ok hm, answer, bind_of_ok hext]

def IsCreation (op : TACOp) : Prop := op = .CREATE ∨ op = .CREATE2

theorem callArgs_site {q : Address × CallSite σ} {kind : CallKind}
    (h : callArgs kind host m = .ok (.ok q, m1)) :
    (∃ args gas value, q.2.call = kind.toExternal q.1 args gas value) ∧
      ∃ success retOffset retSize size,
        q.2.resume = finishCall host q.1 success retOffset retSize size := by
  obtain ⟨ops, _, -, h⟩ := bind_eq_ok.mp h
  obtain ⟨range, _, -, h⟩ := bind_eq_ok.mp h
  cases range with
  | error e => cases (pure_eq_ok.mp h).1
  | ok args =>
    obtain ⟨_, _, -, h⟩ := bind_eq_ok.mp h
    split at h
    · cases (pure_eq_ok.mp h).1
    · obtain ⟨_, _, -, h⟩ := bind_eq_ok.mp h
      split at h
      · cases (pure_eq_ok.mp h).1
      · obtain rfl := Except.ok.inj (pure_eq_ok.mp h).1
        exact ⟨⟨_, _, _, rfl⟩, _, _, _, _, rfl⟩

theorem askCall_site {kind : CallKind} (h : askCall kind host m = .ok (.ok site, m1)) :
    ∃ toAddr success retOffset retSize size,
      site.resume = finishCall host toAddr success retOffset retSize size := by
  obtain ⟨r, _, hargs, h⟩ := bind_eq_ok.mp h
  cases r with
  | error e => cases (pure_eq_ok.mp h).1
  | ok q =>
    obtain ⟨_, _, -, h⟩ := bind_eq_ok.mp h
    obtain rfl := Except.ok.inj (pure_eq_ok.mp h).1
    exact ⟨q.1, (callArgs_site hargs).2⟩

theorem askCreate_site {salted : Bool} (h : askCreate salted m = .ok (.ok site, m1)) :
    (∃ isHomestead dest, site.resume = resumeCreate salted isHomestead dest) ∧
      ∃ input gas value salt, site.call =
        if salted then .create2 input gas value salt else .create input gas value := by
  obtain ⟨dest, _, -, h⟩ := bind_eq_ok.mp h
  obtain ⟨_, _, -, h⟩ := bind_eq_ok.mp h
  obtain ⟨_, _, -, h⟩ := bind_eq_ok.mp h
  obtain ⟨_, _, -, h⟩ := bind_eq_ok.mp h
  obtain ⟨_, _, -, h⟩ := bind_eq_ok.mp h
  obtain ⟨_, _, -, h⟩ := bind_eq_ok.mp h
  obtain ⟨_, _, -, h⟩ := bind_eq_ok.mp h
  obtain ⟨frame, _, -, h⟩ := bind_eq_ok.mp h
  obtain ⟨range, _, -, h⟩ := bind_eq_ok.mp h
  cases range with
  | error e => cases (pure_eq_ok.mp h).1
  | ok input =>
    obtain ⟨m2, _, -, h⟩ := bind_eq_ok.mp h
    obtain ⟨_, _, -, h⟩ := bind_eq_ok.mp h
    generalize (if m2.engine.config.isEIP150 = true
      then frame.contract.gas - frame.contract.gas / 64 else frame.contract.gas) = gas at h
    split at h
    · cases (pure_eq_ok.mp h).1
    · obtain rfl := Except.ok.inj (pure_eq_ok.mp h).1
      exact ⟨⟨_, _, rfl⟩, _, _, _, _, rfl⟩

theorem Asks.call_site (h : Asks host op m site m1) (hop : ¬ IsCreation op) :
    ∃ toAddr success retOffset retSize size,
      site.resume = finishCall host toAddr success retOffset retSize size := by
  obtain ⟨x, hask, hm⟩ := h
  cases op <;> simp only [ask, Option.some.injEq, reduceCtorEq] at hask <;> subst hask
  case CREATE => exact absurd (.inl rfl) hop
  case CREATE2 => exact absurd (.inr rfl) hop
  all_goals exact askCall_site hm

theorem Asks.create_site (h : Asks host op m site m1) (hop : IsCreation op) :
    ∃ salted isHomestead dest, site.resume = resumeCreate salted isHomestead dest := by
  obtain ⟨x, hask, hm⟩ := h
  rcases hop with rfl | rfl <;>
    · cases hask
      exact ⟨_, (askCreate_site hm).1⟩

structure Activation (σ : Type) where
  fuel : Nat
  ctx : TACContext
  caller : Machine σ
  dests : List Int

/-- The loop of `execute_func` that is in state `s` comes to execute `op` on `m`, inside the
private calls `path`, outermost first. -/
inductive Executes (host : Host σ) (op : TACOp) (m : Machine σ) (left : Nat) :
    Nat → LoopState σ → List (Activation σ) → Prop where
  | now {s : LoopState σ} (hpc : s.machine.pc < s.machine.ctx.function.insts.length)
      (hb : Begins host s op m) : Executes host op m left (left + 1) s []
  | later {fuel : Nat} {s s' : LoopState σ} {path : List (Activation σ)}
      (hpc : s.machine.pc < s.machine.ctx.function.insts.length)
      (hr : round host (executeFunc host fuel) s = .ok (.next s'))
      (h : Executes host op m left fuel s' path) : Executes host op m left (fuel + 1) s path
  | inside {fuel : Nat} {s : LoopState σ} {m0 m1 : Machine σ} {ctx : TACContext}
      {dests : List Int} {path : List (Activation σ)}
      (hpc : s.machine.pc < s.machine.ctx.function.insts.length)
      (hb : Begins host s .CALLPRIVATE m0) (he : enterPrivate m0 = .ok ((ctx, dests), m1))
      (h : Executes host op m left fuel (startLoop ctx m1.engine) path) :
      Executes host op m left (fuel + 1) s (⟨fuel, ctx, m1, dests⟩ :: path)

theorem executeFrom_succ (hpc : s.machine.pc < s.machine.ctx.function.insts.length) :
    executeFrom host (fuel + 1) s = (round host (executeFunc host fuel) s).bind fun
      | .returned ret m => .ok (ret, m)
      | .next s' => executeFrom host fuel s' := by
  rw [executeFrom, if_pos hpc]
  change (round host (executeFunc host fuel) s >>= _) = _
  cases round host (executeFunc host fuel) s with
  | error stop => rfl
  | ok r => cases r <;> rfl

theorem executeFrom_next (hpc : s.machine.pc < s.machine.ctx.function.insts.length)
    (hr : round host (executeFunc host fuel) s = .ok (.next s')) :
    executeFrom host (fuel + 1) s = executeFrom host fuel s' := by
  rw [executeFrom_succ hpc, hr]
  rfl

theorem execution_callprivate {ctx : TACContext} (host : Host σ) (run : Runner σ)
    (he : enterPrivate m = .ok ((ctx, dests), m1)) :
    execution host run .CALLPRIVATE m = leavePrivate run ctx dests m1 := by
  change execCallprivate run m = _
  rw [execCallprivate_eq, bind_of_ok he]

theorem Begins.ctx_eq (h : Begins host s op m) : m.ctx = s.machine.ctx := by
  obtain ⟨s', hhead, rfl⟩ := h.passes
  obtain ⟨⟨e, -, hm⟩, -⟩ := roundHead_inv hhead
  change s'.machine.ctx = _
  rw [hm]

/-! #### Invariants -/

theorem keepsCaller_enterPrivate : KeepsCaller (enterPrivate (σ := σ)) := by
  intro m q m' h
  obtain ⟨target, n, henters⟩ := enterPrivate_inv h
  rw [bufferLength, henters.ctx]
  exact ⟨rfl, rfl⟩

variable {I : TACInterpreter σ → Prop}

def KeptAlong (host : Host σ) (I : TACInterpreter σ → Prop) (fuel : Nat) (s : LoopState σ) : Prop :=
  ∀ op m left path, Executes host op m left fuel s path → op ≠ .CALLPRIVATE → I m.engine →
    (∀ q, execution host (executeFunc host left) op m = .ok q → I q.2.engine) ∧
      ∀ p m', execution host (executeFunc host left) op m = .error (.panic p m') → I m'.engine

variable {run : Runner σ}

theorem execCallprivate_keeps_of (hm : I m.engine)
    (hrun : ∀ ctx dests m1, enterPrivate m = .ok ((ctx, dests), m1) → I m1.engine →
      (∀ ret m', run ctx m1.engine = .ok (ret, m') → I m'.engine) ∧
        ∀ p m', run ctx m1.engine = .error (.panic p m') → I m'.engine) :
    (∀ q, execCallprivate run m = .ok q → I q.2.engine) ∧
      ∀ p m', execCallprivate run m = .error (.panic p m') → I m'.engine := by
  have henter := keeps_enterPrivate I m hm
  rw [execCallprivate_eq, bind_apply]
  cases hx : enterPrivate m with
  | error stop =>
    exact outcome_value_of_error hx henter.2
  | ok q =>
    have hm1 := henter.1 q.1 q.2 hx
    -- the callee runs once, so its run may be taken as a constant
    have hconst : RunKeeps I fun _ _ => run q.1.1 q.2.engine :=
      fun _ _ _ => hrun q.1.1 q.1.2 q.2 hx hm1
    obtain ⟨hok, hpanic⟩ := keeps_leavePrivate hconst q.1.1 q.1.2 q.2 hm1
    exact ⟨fun q' h => hok q'.1 q'.2 h, fun p m' h => hpanic p m' h⟩

theorem KeptAlong.round_keeps (hI : FrameInv I) (h : KeptAlong host I (fuel + 1) s)
    (hpc : s.machine.pc < s.machine.ctx.function.insts.length) (hs : I s.machine.engine)
    (hrun : ∀ ctx e, KeptAlong host I fuel (startLoop ctx e) → I e →
      (∀ ret m', executeFunc host fuel ctx e = .ok (ret, m') → I m'.engine) ∧
        ∀ p m', executeFunc host fuel ctx e = .error (.panic p m') → I m'.engine) :
    (∀ r, round host (executeFunc host fuel) s = .ok r → I r.machine.engine) ∧
      ∀ p m', round host (executeFunc host fuel) s = .error (.panic p m') → I m'.engine := by
  refine round_keeps_of hI hs fun op m hb hm => ?_
  by_cases hop : op = .CALLPRIVATE
  · subst hop
    refine execCallprivate_keeps_of hm fun ctx dests m1 he hm1 => ?_
    exact hrun ctx m1.engine
      (fun op' m' left path hx => h op' m' left _ (.inside hpc hb he hx)) hm1
  · exact h op m fuel [] (.now hpc hb) hop hm

theorem KeptAlong.executeFrom (hI : FrameInv I) (h : KeptAlong host I fuel s)
    (hs : I s.machine.engine) :
    (∀ ret m', executeFrom host fuel s = .ok (ret, m') → I m'.engine) ∧
      ∀ p m', executeFrom host fuel s = .error (.panic p m') → I m'.engine := by
  induction fuel generalizing s with
  | zero => exact ⟨fun _ _ h => (by cases h), fun _ _ h => (by cases h)⟩
  | succ fuel ih =>
    by_cases hpc : s.machine.pc < s.machine.ctx.function.insts.length
    · have hround := h.round_keeps hI hpc hs fun ctx e hk he => ih hk he
      rw [executeFrom_succ hpc]
      cases hr : round host (executeFunc host fuel) s with
      | error stop =>
        exact outcome_of_error hr hround.2
      | ok r =>
        have hr' := hround.1 r hr
        cases r with
        | returned ret m =>
          exact outcome_ok hr'
        | next s' =>
          exact ih (fun op m left path hx => h op m left path (.later hpc hr hx)) hr'
    · rw [Vm.executeFrom, if_neg hpc]
      exact outcome_ok hs

theorem KeptAlong.reached (hI : FrameInv I) {path : List (Activation σ)}
    (hx : Executes host op m left fuel s path) (h : KeptAlong host I fuel s)
    (hs : I s.machine.engine) : I m.engine := by
  induction hx with
  | now hpc hb => exact hI _ _ hb.sameFrames hs
  | @later fuel s s' path hpc hr hx ih =>
    refine ih (fun op m left path hx => h op m left path (.later hpc hr hx)) ?_
    exact (h.round_keeps hI hpc hs fun ctx e hk he => hk.executeFrom hI he).1 _ hr
  | @inside fuel s m0 m1 ctx dests path hpc hb he hx ih =>
    have hm1 : I m1.engine := (keeps_enterPrivate I m0 (hI _ _ hb.sameFrames hs)).1 _ _ he
    exact ih (fun op m left path hx => h op m left _ (.inside hpc hb he hx)) hm1

theorem KeepsEvents.keptAlong (h : KeepsEvents host I) (fuel : Nat) (s : LoopState σ) :
    KeptAlong host I fuel s := by
  intro op m left path _ hop hm
  obtain ⟨hok, hpanic⟩ := execution_keeps_events h (executeFunc host left) hop m hm
  exact ⟨fun q hq => hok q.1 q.2 hq, hpanic⟩

theorem executeFrom_keeps (h : KeepsEvents host I) (hs : I s.machine.engine) :
    (∀ ret m', executeFrom host fuel s = .ok (ret, m') → I m'.engine) ∧
      ∀ p m', executeFrom host fuel s = .error (.panic p m') → I m'.engine :=
  (h.keptAlong fuel s).executeFrom h.frameInv hs

theorem runKeeps_executeFunc (h : KeepsEvents host I) (fuel : Nat) :
    RunKeeps I (executeFunc host fuel) :=
  fun _ _ he => executeFrom_keeps h he

theorem Executes.keeps {path : List (Activation σ)} (h : Executes host op m left fuel s path)
    (hI : KeepsEvents host I) (hs : I s.machine.engine) : I m.engine :=
  (hI.keptAlong fuel s).reached hI.frameInv h hs

variable {ctx : TACContext}

theorem Executes.inner {left' : Nat} {path path' : List (Activation σ)}
    (hx : Executes host .CALLPRIVATE m left fuel s path)
    (he : enterPrivate m = .ok ((ctx, dests), m1))
    (h : Executes host op m' left' left (startLoop ctx m1.engine) path') :
    Executes host op m' left' fuel s (path ++ ⟨left, ctx, m1, dests⟩ :: path') := by
  induction hx with
  | now hpc hb => exact .inside hpc hb he h
  | later hpc hr _ ih => exact .later hpc hr ih
  | inside hpc hb he' _ ih => exact .inside hpc hb he' ih

theorem KeptAlong.execution (hI : FrameInv I) {path : List (Activation σ)}
    (hx : Executes host op m left fuel s path) (h : KeptAlong host I fuel s)
    (hs : I s.machine.engine) {q : Ret × Machine σ}
    (hexec : execution host (executeFunc host left) op m = .ok q) : I q.2.engine := by
  have hm := h.reached hI hx hs
  by_cases hop : op = .CALLPRIVATE
  · subst hop
    refine (execCallprivate_keeps_of hm fun ctx dests m1 he hm1 => ?_).1 q hexec
    have hin : KeptAlong host I left (startLoop ctx m1.engine) :=
      fun op' m' left' path' hx' => h op' m' left' _ (hx.inner he hx')
    exact hin.executeFrom hI hm1
  · exact (h op m left path hx hop hm).1 q hexec

theorem newContext_functionStop {f : TACFunction} {args : Option (List Word)}
    (h : newContext f args = .ok ctx) : ctx.functionStop = false := by
  unfold newContext at h
  split at h
  · cases h
  · obtain ⟨regs, -, h⟩ := bind_ok h
    obtain ⟨regs', -, h⟩ := bind_ok h
    cases h
    rfl

theorem enterPrivate_ctx (h : enterPrivate m = .ok ((ctx, dests), m1)) :
    ctx.functionStop = false ∧ ctx.prevReturnData.map List.length = some dests.length := by
  obtain ⟨target, n, henters⟩ := enterPrivate_inv h
  obtain ⟨fresh, hfresh, rfl⟩ := henters.created
  have hstop := newContext_functionStop hfresh
  refine ⟨hstop, ?_⟩
  rw [henters.dests, length_cellsFrom]
  simp

theorem round_next_functionStop (h : round host run s = .ok (.next s')) :
    s'.machine.ctx.functionStop = false := by
  rcases round_inv h with ⟨_, _, hne, -⟩ | ⟨_, _, _, _, -, -, -, htail⟩
  · cases hne
  · obtain ⟨-, -, hstop, -, hctx⟩ := roundTail_next htail
    rw [hctx]
    exact hstop

theorem Executes.functionStop {path : List (Activation σ)} (h : Executes host op m left fuel s path)
    (hs : s.machine.ctx.functionStop = false) : m.ctx.functionStop = false := by
  induction h with
  | now hpc hb => rwa [hb.ctx_eq]
  | later hpc hr h ih => exact ih (round_next_functionStop hr)
  | inside hpc hb he h ih => exact ih (enterPrivate_ctx he).1

/-! #### Errors on the way out -/

theorem SameButData.trans {e e' e'' : TACInterpreter σ} (h : SameButData e e')
    (h' : SameButData e' e'') : SameButData e e'' := by
  obtain ⟨d, rfl⟩ := h
  obtain ⟨d', rfl⟩ := h'
  exact ⟨d', rfl⟩

def Activation.DestsExist (a : Activation σ) : Prop := ∀ d ∈ a.dests, ∃ r, a.caller.getVar d = .ok r

theorem getVar_assign (m : Machine σ) (r : Nat) (w : Word) (d : Int) :
    (m.assign r w).getVar d = m.getVar d := by
  cases d with
  | negSucc n => rfl
  | ofNat n => simp [Machine.getVar, Machine.assign, Machine.setReg]

theorem assignAll_of_exist {l : List (Int × Word)} (h : ∀ q ∈ l, ∃ r, m.getVar q.1 = .ok r) :
    ∃ m', assignAll l m = .ok ((), m') ∧ m'.engine = m.engine ∧
      m'.ctx.functionStop = m.ctx.functionStop ∧
      m'.ctx.prevReturnData = m.ctx.prevReturnData := by
  induction l generalizing m with
  | nil => exact ⟨m, rfl, rfl, rfl, rfl⟩
  | cons q l ih =>
    obtain ⟨r, hr⟩ := h q List.mem_cons_self
    have hl : ∀ q' ∈ l, ∃ r', (m.assign r q.2).getVar q'.1 = .ok r' := by
      intro q' hq'
      rw [getVar_assign]
      exact h q' (List.mem_cons_of_mem _ hq')
    obtain ⟨m', heq, he, hs, hp⟩ := ih hl
    refine ⟨m', ?_, he, hs, hp⟩
    rw [assignAll, bind_of_ok (read_eq_ok.mpr ⟨hr, rfl⟩)]
    exact heq

theorem assignAll_of_missing {l : List (Int × Word)} (h : ∃ q ∈ l, ∀ r, m.getVar q.1 ≠ .ok r) :
    ∃ p m', assignAll l m = .error (.panic p m') := by
  induction l generalizing m with
  | nil => simp at h
  | cons q l ih =>
    rw [assignAll, bind_apply, Exec.read]
    cases hr : m.getVar q.1 with
    | error p => exact ⟨p, m, rfl⟩
    | ok r =>
      obtain ⟨q', hq', hmiss⟩ := h
      have hl : ∃ q' ∈ l, ∀ r', (m.assign r q.2).getVar q'.1 ≠ .ok r' := by
        rcases List.mem_cons.mp hq' with rfl | hq'
        · exact absurd hr (hmiss r)
        · exact ⟨q', hq', fun r' => by rw [getVar_assign]; exact hmiss r'⟩
      exact ih hl

def afterCallee (m m' : Machine σ) : Machine σ :=
  { m with engine := m'.engine, ctx := { m.ctx with
    privateReturnData := m'.ctx.prevReturnData.getD [] } }

theorem leavePrivate_of_returned (hrun : run ctx m.engine = .ok (ret, m')) (dests : List Int) :
    leavePrivate run ctx dests m =
      (assignAll (dests.zip (m'.ctx.prevReturnData.getD [])) >>= fun _ => pure ret)
        (afterCallee m m') := by
  have hcallee : runCallee run ctx m
      = .ok ((ret, m'.ctx.prevReturnData.getD []), { m with engine := m'.engine }) := by
    rw [runCallee, hrun]
  rw [leavePrivate, bind_of_ok hcallee]
  rfl

theorem leavePrivate_of_exist (hrun : run ctx m.engine = .ok (ret, m'))
    (hd : ∀ d ∈ dests, ∃ r, m.getVar d = .ok r) :
    ∃ m2, leavePrivate run ctx dests m = .ok (ret, m2) ∧ m2.engine = m'.engine ∧
      m2.ctx.functionStop = m.ctx.functionStop ∧
      m2.ctx.prevReturnData = m.ctx.prevReturnData := by
  have hexist : ∀ q ∈ dests.zip (m'.ctx.prevReturnData.getD []),
      ∃ r, (afterCallee m m').getVar q.1 = .ok r := fun q hq => hd q.1 (List.of_mem_zip hq).1
  obtain ⟨m2, heq, he, hs, hp⟩ := assignAll_of_exist hexist
  refine ⟨m2, ?_, he, hs, hp⟩
  rw [leavePrivate_of_returned hrun, bind_of_ok heq]
  rfl

theorem leavePrivate_of_missing (hrun : run ctx m.engine = .ok (ret, m'))
    (hlen : m'.ctx.prevReturnData.map List.length = some dests.length)
    (hd : ¬ ∀ d ∈ dests, ∃ r, m.getVar d = .ok r) :
    ∃ p m2, leavePrivate run ctx dests m = .error (.panic p m2) := by
  obtain ⟨buffer, hbuf, hblen⟩ := Option.map_eq_some_iff.mp hlen
  obtain ⟨d, hmem, hmiss⟩ : ∃ d ∈ dests, ∀ r, m.getVar d ≠ .ok r := by
    simpa using hd
  -- the buffer is as long as the list of destinations, so the missing one is assigned to
  have hzip : ∃ q ∈ dests.zip (m'.ctx.prevReturnData.getD []),
      ∀ r, (afterCallee m m').getVar q.1 ≠ .ok r := by
    rw [hbuf, Option.getD_some]
    have hmap : (dests.zip buffer).map Prod.fst = dests := List.map_fst_zip hblen.ge
    rw [← hmap] at hmem
    obtain ⟨q, hq, rfl⟩ := List.mem_map.mp hmem
    exact ⟨q, hq, hmiss⟩
  obtain ⟨p, m2, heq⟩ := assignAll_of_missing hzip
  refine ⟨p, m2, ?_⟩
  rw [leavePrivate_of_returned hrun, bind_apply, heq]
  rfl

theorem leavePrivate_of_panic {run : Runner σ} {ctx : TACContext} {m2 : Machine σ} {p : GoPanic}
    (dests : List Int) (hrun : run ctx m.engine = .error (.panic p m2)) :
    leavePrivate run ctx dests m = .error (.panic p { m with engine := m2.engine }) := by
  have hcallee : runCallee run ctx m = .error (.panic p { m with engine := m2.engine }) := by
    rw [runCallee, hrun]
  rw [leavePrivate, bind_apply, hcallee]
  rfl

theorem roundTail_of_error (op : TACOperation) {err : VmError} (herr : ret.2 = some err)
    (hstop : m.ctx.functionStop = false) (hf : m.engine.frames ≠ []) :
    ∃ m', roundTail op ret m = .ok (.returned ([], some err) m') ∧
      SameButData m.engine m'.engine ∧ m'.ctx = (increaseCycle m).ctx := by
  obtain ⟨m1, -, hctx, hsame, htail⟩ := roundTail_tail op ret m
  refine ⟨m1, ?_, hsame, hctx⟩
  generalize roundTail op ret m = r at htail ⊢
  cases htail with
  | noFrame hnil => exact absurd hnil hf
  | stop _ hstop' => cases hstop.symm.trans hstop'
  | error _ _ herr' => rw [Option.some.inj (herr.symm.trans herr')]
  | reverts _ _ hnone => cases herr.symm.trans hnone
  | halts _ _ hnone => cases herr.symm.trans hnone
  | next _ _ hnone => cases herr.symm.trans hnone

def Fails (host : Host σ) (fuel : Nat) (s : LoopState σ) (err : VmError) (e : TACInterpreter σ) :
    Prop :=
  ∃ m2, executeFrom host fuel s = .ok (([], some err), m2) ∧ SameButData e m2.engine ∧
    bufferLength m2 = bufferLength s.machine

theorem round_bufferLength (h : round host (executeFunc host fuel) s = .ok (.next s')) :
    bufferLength s'.machine = bufferLength s.machine := by
  rcases round_inv h with ⟨ret, m', hne, -⟩ | ⟨e, op, ret, m', -, -, hexec, htail⟩
  · cases hne
  · obtain ⟨hnone, -, -, -, hctx⟩ := roundTail_next htail
    have hsame := execution_sameFrame (keepsBuffer_executeFunc host fuel) hexec hnone
    rw [bufferLength, hctx]
    exact hsame.buffer

section Errors
variable {host : Host σ} {op : TACOp} {m m1 : Machine σ} {left fuel : Nat} {s : LoopState σ}
  {path : List (Activation σ)} {ret : Ret} {err : VmError}

theorem Begins.returns {ret' : Ret} {m2 : Machine σ}
    (hpc : s.machine.pc < s.machine.ctx.function.insts.length) (hb : Begins host s op m)
    (hx : execution host (executeFunc host left) op m = .ok (ret, m1))
    (htail : roundTail (operation op) ret m1 = .ok (.returned ret' m2)) :
    executeFrom host (left + 1) s = .ok (ret', m2) := by
  rw [executeFrom_succ hpc, hb.round_eq, hx]
  change Except.bind (roundTail (operation op) ret m1) _ = _
  rw [htail]
  rfl

theorem Begins.fails (hpc : s.machine.pc < s.machine.ctx.function.insts.length)
    (hb : Begins host s op m) (hx : execution host (executeFunc host left) op m = .ok (ret, m1))
    (herr : ret.2 = some err) (hstop : m1.ctx.functionStop = false)
    (hbuf : bufferLength m1 = bufferLength m) (hf : m1.engine.frames ≠ []) :
    Fails host (left + 1) s err m1.engine := by
  obtain ⟨m2, htail, hsame, hctx⟩ := roundTail_of_error (operation op) herr hstop hf
  refine ⟨m2, hb.returns hpc hx htail, hsame, ?_⟩
  have hm2 : bufferLength m2 = bufferLength m1 := by
    rw [bufferLength, hctx]
    rfl
  rw [hm2, hbuf, bufferLength, hb.ctx_eq, bufferLength]

theorem Begins.panics (hpc : s.machine.pc < s.machine.ctx.function.insts.length)
    (hb : Begins host s op m) {p : GoPanic}
    (hx : execution host (executeFunc host left) op m = .error (.panic p m')) :
    executeFrom host (left + 1) s = .error (.panic p m') := by
  rw [executeFrom_succ hpc, hb.round_eq, hx]
  rfl

theorem Executes.fails (h : Executes host op m left fuel s path)
    (hx : execution host (executeFunc host left) op m = .ok (ret, m1)) (herr : ret.2 = some err)
    (hstop : m1.ctx.functionStop = false) (hbuf : bufferLength m1 = bufferLength m)
    (hf : m1.engine.frames ≠ []) (hs : s.machine.ctx.functionStop = false)
    (hd : ∀ a ∈ path, a.DestsExist) :
    Fails host fuel s err m1.engine ∧
      ∀ a ∈ path, Fails host a.fuel (startLoop a.ctx a.caller.engine) err m1.engine := by
  induction h with
  | now hpc hb => exact ⟨hb.fails hpc hx herr hstop hbuf hf, by simp⟩
  | @later fuel s s' path hpc hr h ih =>
    obtain ⟨⟨m2, heq, hsame, hlen⟩, hpath⟩ := ih (round_next_functionStop hr) hd
    exact ⟨⟨m2, (executeFrom_next hpc hr).trans heq, hsame, hlen.trans (round_bufferLength hr)⟩,
      hpath⟩
  | @inside fuel s m0 caller ctx dests path hpc hb he h ih =>
    obtain ⟨hinner, hpath⟩ := ih (enterPrivate_ctx he).1 fun a ha =>
      hd a (List.mem_cons_of_mem _ ha)
    have hinner' := hinner
    obtain ⟨m2, heq, hsame, hlen⟩ := hinner
    obtain ⟨hstop0, hbuf0⟩ := keepsCaller_enterPrivate _ _ _ he
    have hrun : executeFunc host fuel ctx caller.engine = .ok (([], some err), m2) := heq
    obtain ⟨m3, hleave, heng, hstop3, hprev3⟩ :=
      leavePrivate_of_exist hrun (hd _ List.mem_cons_self)
    have hx3 := (execution_callprivate host (executeFunc host fuel) he).trans hleave
    have hsame3 : SameButData m1.engine m3.engine := heng ▸ hsame
    have hf3 : m3.engine.frames ≠ [] := by
      obtain ⟨data, hdata⟩ := hsame3
      rw [hdata]
      exact hf
    obtain ⟨m4, heq4, hsame4, hlen4⟩ := hb.fails hpc hx3 rfl
      (by rw [hstop3, hstop0, hb.ctx_eq]; exact hs)
      ((congrArg (Option.map List.length) hprev3).trans hbuf0) hf3
    refine ⟨⟨m4, heq4, hsame3.trans hsame4, hlen4⟩, fun a ha => ?_⟩
    rcases List.mem_cons.mp ha with rfl | ha
    · exact hinner'
    · exact hpath a ha

theorem Executes.panics (h : Executes host op m left fuel s path)
    (hx : execution host (executeFunc host left) op m = .ok (ret, m1)) (herr : ret.2 = some err)
    (hstop : m1.ctx.functionStop = false) (hbuf : bufferLength m1 = bufferLength m)
    (hf : m1.engine.frames ≠ []) (hs : s.machine.ctx.functionStop = false)
    (hd : ¬ ∀ a ∈ path, a.DestsExist) :
    ∃ p m2, executeFrom host fuel s = .error (.panic p m2) := by
  induction h with
  | now hpc hb => simp at hd
  | @later fuel s s' path hpc hr h ih =>
    rw [executeFrom_next hpc hr]
    exact ih (round_next_functionStop hr) hd
  | @inside fuel s m0 caller ctx dests path hpc hb he h ih =>
    have hctx := enterPrivate_ctx he
    have hexec := execution_callprivate host (executeFunc host fuel) he
    by_cases hrest : ∀ a ∈ path, a.DestsExist
    · have hmiss : ¬ ∀ d ∈ dests, ∃ r, caller.getVar d = .ok r := by
        intro hall
        refine hd fun a ha => ?_
        rcases List.mem_cons.mp ha with rfl | ha
        · exact hall
        · exact hrest a ha
      obtain ⟨⟨m2, heq, -, hlen⟩, -⟩ := h.fails hx herr hstop hbuf hf hctx.1 hrest
      have hrun : executeFunc host fuel ctx caller.engine = .ok (([], some err), m2) := heq
      obtain ⟨p, m3, hleave⟩ := leavePrivate_of_missing hrun (hlen.trans hctx.2) hmiss
      exact ⟨p, m3, hb.panics hpc (hexec.trans hleave)⟩
    · obtain ⟨p, m2, heq⟩ := ih hctx.1 hrest
      exact ⟨p, _, hb.panics hpc (hexec.trans (leavePrivate_of_panic dests heq))⟩

end Errors

end EtherVal.Vm
