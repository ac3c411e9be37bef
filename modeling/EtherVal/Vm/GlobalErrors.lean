import EtherVal.Vm.Stack

/-!
# Global errors on their way up (`core/vm/tac_interpreter.go:88-100`, `1532-1955`)

An error that concerns the TAC itself is meant to end the whole transaction.  Every frame that
waits for a nested call has to pass it on: the instruction, the private functions around it,
the entry function and `Run`.
-/

namespace EtherVal.Vm
open EtherVal.Lib EtherVal.TacParser
open Exec

variable {op : TACOp}

section
variable {σ : Type} {host : Host σ} {res : CallResult} {err : VmError}

theorem ne_executionReverted_of_global (h : isTACGlobalError err = true) :
    err ≠ .executionReverted := by
  rintro rfl
  cases h

theorem finishCall_global (host : Host σ) {m : Machine σ} (toAddr : Address)
    (success retOffset retSize : Nat)
    (size : Int) (hres : res.err = some err) (hg : isTACGlobalError err = true)
    (htac : m.engine.interpreter = .tac) :
    ∃ m', finishCall host toAddr success retOffset retSize size res m = .ok (([], some err), m') ∧
      SameButData m.engine m'.engine := by
  have hne := ne_executionReverted_of_global hg
  have hassign : assign success (boolWord res.err.isNone) m
      = .ok ((), m.assign success (boolWord res.err.isNone)) := rfl
  have hstore (m1 : Machine σ) : storeReturned retOffset retSize res m1 = .ok (.ok (), m1) := by
    rw [storeReturned, if_neg (by simp [hres, hne])]
    rfl
  let m2 : Machine σ := { m.assign success (boolWord res.err.isNone) with
    engine := { m.engine with returnData := res.ret } }
  refine ⟨m2, ?_, ⟨res.ret, rfl⟩⟩
  rw [finishCall, bind_of_ok hassign, bind_of_ok (hstore _)]
  refine bind_eq_ok.mpr ⟨(), m2, rfl, bind_eq_ok.mpr ⟨m2, m2, rfl, ?_⟩⟩
  have hevm : decide (m2.engine.interpreter = .evm) = false := by
    change decide (m.engine.interpreter = .evm) = false
    rw [htac]
    rfl
  refine bind_eq_ok.mpr ⟨(), m2, ?_, ?_⟩
  · rw [hevm]
    rfl
  · rw [hres]
    refine bind_eq_ok.mpr ⟨m2, m2, rfl, ?_⟩
    rw [if_pos ⟨htac, hg⟩]
    rfl

theorem resumeCreate_no_error {m m' : Machine σ} {salted isHomestead : Bool}
    {dest : Nat} {ret : Ret}
    (h : resumeCreate salted isHomestead dest res m = .ok (ret, m')) : ret.2 = none := by
  obtain ⟨_, _, -, h⟩ := bind_eq_ok.mp h
  obtain ⟨_, _, -, h⟩ := bind_eq_ok.mp h
  obtain ⟨_, _, -, h⟩ := bind_eq_ok.mp h
  obtain ⟨_, _, -, h⟩ := bind_eq_ok.mp h
  split at h
  · obtain ⟨rfl, -⟩ := pure_eq_ok.mp h
    rfl
  · obtain ⟨rfl, -⟩ := done_eq_ok.mp h
    rfl

theorem keepsCaller_finishCall (host : Host σ) (toAddr : Address)
    (success retOffset retSize : Nat) (size : Int) (res : CallResult) :
    KeepsCaller (finishCall host toAddr success retOffset retSize size res) := by
  have hI := always_frameInv (σ := σ)
  refine .bind (.assign _ _) fun _ =>
    .bind (.of_engineOnly (.storeReturned hI _ _ _)) fun stored => ?_
  cases stored with
  | error e => exact .pure _
  | ok u =>
    refine .bind (.of_engineOnly (.modifyEngine fun _ _ => trivial)) fun _ =>
      .bind (.of_engineOnly .get) fun _ =>
        .bind (.of_engineOnly (.onlyIf _ ((EngineOnly.onState hI _).bind fun _ =>
          .onlyIf _ (.noteUsedEVM hI)))) fun _ => ?_
    cases res.err with
    | none => exact .bind (.advance _) fun _ => .pure _
    | some e =>
      refine .bind (.of_engineOnly .get) fun m => ?_
      split
      · exact .pure _
      · exact .bind (.advance _) fun _ => .pure _

theorem Asks.ctx_eq {m m1 : Machine σ} {site : CallSite σ} (h : Asks host op m site m1)
    (hop : ¬ IsCreation op) : m1.ctx = m.ctx := by
  obtain ⟨x, hask, hm⟩ := h
  cases op <;> simp only [ask, Option.some.injEq, reduceCtorEq] at hask <;> subst hask
  case CREATE => exact absurd (.inl rfl) hop
  case CREATE2 => exact absurd (.inr rfl) hop
  all_goals exact ((EngineOnly.askCall always_eventInv _ host).same _ _ _ hm).2

theorem Asks.keeps {I : TACInterpreter σ → Prop} (hI : StackInv I) {m m1 : Machine σ}
    {site : CallSite σ} (h : Asks host op m site m1) (hm : I m.engine) : I m1.engine := by
  obtain ⟨x, hask, hx⟩ := h
  cases op <;> simp only [ask, Option.some.injEq, reduceCtorEq] at hask <;> subst hask
  case CREATE | CREATE2 => exact (keeps_askCreate hI.noteInv.eventInv.frameInv _ m hm).1 _ _ hx
  all_goals exact ((EngineOnly.askCall hI.noteInv.eventInv _ host).keeps m hm).1 _ _ hx

theorem Asks.execution_global {m m1 : Machine σ} {site : CallSite σ} {e : TACInterpreter σ}
    (h : Asks host op m site m1) (hop : ¬ IsCreation op)
    (hx : host.external site.call m1.engine = .ok (res, e)) (hres : res.err = some err)
    (hg : isTACGlobalError err = true) (htac : e.interpreter = .tac) (run : Runner σ) :
    ∃ m', execution host run op m = .ok (([], some err), m') ∧ SameButData e m'.engine ∧
      m'.ctx.functionStop = m.ctx.functionStop ∧ bufferLength m' = bufferLength m := by
  obtain ⟨toAddr, success, retOffset, retSize, size, hresume⟩ := h.call_site hop
  have hm : ({ m1 with engine := e } : Machine σ).engine.interpreter = .tac := htac
  obtain ⟨m', hfin, hsame⟩ :=
    finishCall_global host toAddr success retOffset retSize size hres hg hm
  obtain ⟨hstop, hbuf⟩ :=
    keepsCaller_finishCall host toAddr success retOffset retSize size res _ _ _ hfin
  refine ⟨m', ?_, hsame, ?_, ?_⟩
  · rw [h.execution_eq hx run, hresume, hfin]
  · rw [hstop, ← h.ctx_eq hop]
  · rw [hbuf, bufferLength, bufferLength, ← h.ctx_eq hop]

end

section
variable {δ : Type}

structure PendingFrame (δ : Type) extends RunningFrame δ where
  level : Nat
  site : CallSite (EvmState δ)
  asked : Machine (EvmState δ)

namespace PendingFrame

def host (w : World δ) (fuel : Nat) (p : PendingFrame δ) : Host (EvmState δ) :=
  hostAt w fuel p.level

structure Reached (w : World δ) (fuel : Nat) (p : PendingFrame δ) : Prop where
  running : p.toRunningFrame.Reached w (p.host w fuel) fuel
  asks : Asks (p.host w fuel) p.op p.machine p.site p.asked

/-- The instruction, the functions around it and `Run` return the error, and no instruction has
been counted since the count was `count`. -/
structure Returns (w : World δ) (fuel : Nat) (p : PendingFrame δ) (err : VmError) (count : Int) :
    Prop where
  exec : ∃ m', execution (p.host w fuel) (executeFunc (p.host w fuel) p.left) p.op p.machine
    = .ok (([], some err), m') ∧ instCount m'.engine = count
  privates : ∀ a ∈ p.path, ∃ m', executeFunc (p.host w fuel) a.fuel a.ctx a.caller.engine
    = .ok (([], some err), m') ∧ instCount m'.engine = count
  entry : ∃ m', executeFunc (p.host w fuel) fuel p.ctx p.start = .ok (([], some err), m') ∧
    instCount m'.engine = count
  run : ∃ gas e', runTac w (p.host w fuel) fuel p.req p.before = .ok ((([], some err), gas), e') ∧
    instCount e' = count

/-- The frame passes the error on: it does not wait in a creation, the registers its private
calls return to exist, and no timer replaces the result. -/
structure PassesOn (w : World δ) (p : PendingFrame δ) (err : VmError) : Prop where
  call : ¬ IsCreation p.op
  dests : ∀ a ∈ p.path, a.DestsExist
  timer : (guarded w p.start && w.timerFires p.start) = true → err = .tacTimeout

variable {w : World δ} {fuel : Nat} {p : PendingFrame δ} {err : VmError}

theorem Reached.inStack_asked (hp : p.Reached w fuel) (htac : p.before.interpreter = .tac) :
    InStack (p.frame.key :: keysOf p.before) p.asked.engine := by
  have hI := stackInv_inStack (δ := δ) (p.frame.key :: keysOf p.before)
  have hm := hp.running.executes.keeps (hI.keepsEvents (hostAt_keeps w fuel p.level _))
    (hp.running.inStack_start htac)
  exact hp.asks.keeps hI hm

theorem Reached.returns_iff (hp : p.Reached w fuel) (htac : p.before.interpreter = .tac)
    {res : CallResult} {e : Engine δ}
    (hx : (p.host w fuel).external p.site.call p.asked.engine = .ok (res, e))
    (hres : res.err = some err) (hg : isTACGlobalError err = true) :
    p.Returns w fuel err (instCount e) ↔ p.PassesOn w err := by
  have he : InStack (p.frame.key :: keysOf p.before) e :=
    (hostAt_keeps w fuel p.level _ _ _ (hp.inStack_asked htac)).1 _ _ hx
  by_cases hop : IsCreation p.op
  · refine ⟨fun h => ?_, fun h => absurd hop h.call⟩
    obtain ⟨m', hexec, -⟩ := h.exec
    obtain ⟨salted, isHomestead, dest, hresume⟩ := hp.asks.create_site hop
    rw [hp.asks.execution_eq hx, hresume] at hexec
    cases resumeCreate_no_error hexec
  obtain ⟨m', hexec, hsame, hstop, hbuf⟩ := hp.asks.execution_global hop hx hres hg he.tac
    (executeFunc (p.host w fuel) p.left)
  have hs : (startLoop p.ctx p.start).machine.ctx.functionStop = false :=
    newContext_functionStop hp.running.ctx
  have hstop' : m'.ctx.functionStop = false := by
    rw [hstop]
    exact hp.running.executes.functionStop hs
  have hf : m'.engine.frames ≠ [] := by
    obtain ⟨data, hdata⟩ := hsame
    rw [hdata]
    exact he.frames_ne_nil
  by_cases hd : ∀ a ∈ p.path, a.DestsExist
  · obtain ⟨⟨m2, heq2, hsame2, -⟩, hpath⟩ :=
      hp.running.executes.fails hexec rfl hstop' hbuf hf hs hd
    have hcount2 := instCount_sameButData (hsame.trans hsame2)
    obtain ⟨gas, e', hrun, hcount⟩ := hp.running.run_eq heq2
    constructor
    · intro h
      refine ⟨hop, hd, fun htimer => ?_⟩
      obtain ⟨gas', e'', hrun', -⟩ := h.run
      rw [hrun, if_pos htimer] at hrun'
      simp only [Except.ok.injEq, Prod.mk.injEq, Option.some.injEq, true_and] at hrun'
      exact hrun'.1.1.symm
    · intro h
      refine ⟨⟨m', hexec, instCount_sameButData hsame⟩, fun a ha => ?_, ⟨m2, heq2, hcount2⟩, ?_⟩
      · obtain ⟨m3, heq3, hsame3, -⟩ := hpath a ha
        exact ⟨m3, heq3, instCount_sameButData (hsame.trans hsame3)⟩
      · refine ⟨gas, e', ?_, hcount.trans hcount2⟩
        rw [hrun]
        split
        · next htimer => rw [h.timer htimer]
        · rfl
  · refine ⟨fun h => ?_, fun h => absurd h.dests hd⟩
    obtain ⟨q, m2, heq2⟩ := hp.running.executes.panics hexec rfl hstop' hbuf hf hs hd
    obtain ⟨m3, heq3, -⟩ := h.entry
    rw [executeFunc, heq2] at heq3
    cases heq3

end PendingFrame

theorem finish_error (w : World δ) (c : ExternalCall) (req : FrameRequest) (d : Bytes)
    (err : VmError) (gas : Nat) (e : Engine δ) :
    (finish w c req (d, some err) gas e).1.ret = d ∧
      (finish w c req (d, some err) gas e).1.err = some err ∧
      instCount (finish w c req (d, some err) gas e).2 = instCount e := by
  have hcreate : (finishCreate w req (d, some err) gas e).1.ret = d ∧
      (finishCreate w req (d, some err) gas e).1.err = some err ∧
      instCount (finishCreate w req (d, some err) gas e).2 = instCount e := by
    simp only [finishCreate, reduceCtorEq, false_and, if_false, Option.isNone_some,
      Bool.false_and, Bool.false_eq_true]
    refine ⟨trivial, trivial, ?_⟩
    split <;> rfl
  cases c with
  | create | create2 => exact hcreate
  | call | callCode | delegateCall | staticCall => exact ⟨rfl, rfl, rfl⟩

theorem evmExternal_error {w : World δ} {run : FrameRunner δ} {c : ExternalCall}
    {e e1 e2 : Engine δ} {caller : TACFrame} {rest : List TACFrame} {req : FrameRequest}
    {d : Bytes} {err : VmError} {gas : Nat} (hf : e.frames = caller :: rest)
    (hp : prepare w caller.contract c (nextCallTrace e) = .frame req e1)
    (hrun : run req e1 = .ok (((d, some err), gas), e2)) :
    ∃ res e3, evmExternal w run c e = .ok (res, e3) ∧ res.ret = d ∧ res.err = some err ∧
      instCount e3 = instCount e2 := by
  obtain ⟨hret, herr, hcount⟩ := finish_error w c req d err gas e2
  rw [evmExternal, hf]
  dsimp only
  rw [hp]
  dsimp only
  rw [hrun]
  exact ⟨_, _, rfl, hret, herr, hcount⟩

structure PendingFrame.Calls (w : World δ) (p q : PendingFrame δ) : Prop where
  level : p.level = q.level + 1
  prepares : ∃ caller rest, p.asked.engine.frames = caller :: rest ∧
    prepare w caller.contract p.site.call (nextCallTrace p.asked.engine) = .frame q.req q.before

/-- Frames that wait for each other, outermost first, when the call of the innermost one has
returned the error `err` and left the engine `after`. -/
inductive CallStack (w : World δ) (fuel : Nat) (err : VmError) :
    List (PendingFrame δ) → Engine δ → Prop where
  | innermost {p : PendingFrame δ} {res : CallResult} {after : Engine δ} (hp : p.Reached w fuel)
      (hx : (p.host w fuel).external p.site.call p.asked.engine = .ok (res, after))
      (hres : res.err = some err) : CallStack w fuel err [p] after
  | under {p q : PendingFrame δ} {rest : List (PendingFrame δ)} {after : Engine δ}
      (hp : p.Reached w fuel) (hq : p.Calls w q) (h : CallStack w fuel err (q :: rest) after) :
      CallStack w fuel err (p :: q :: rest) after

def StartsInTac (ps : List (PendingFrame δ)) : Prop :=
  ∀ p ∈ ps.head?, p.before.interpreter = .tac

theorem PendingFrame.Calls.interpreter {w : World δ} {fuel : Nat} {p q : PendingFrame δ}
    (hp : p.Reached w fuel) (hq : p.Calls w q) (htac : p.before.interpreter = .tac) :
    q.before.interpreter = .tac := by
  obtain ⟨caller, rest, -, hprep⟩ := hq.prepares
  have hsame := (sameStack_prepare w caller.contract p.site.call (nextCallTrace p.asked.engine))
  rw [hprep] at hsame
  exact hsame.interpreter.trans (hp.inStack_asked htac).tac

/-- A global error that a nested call returns goes through every waiting frame, with no further
instruction on the way, exactly if every one of them passes it on. -/
theorem globalError_returned_iff {w : World δ} {fuel : Nat} {err : VmError}
    {ps : List (PendingFrame δ)} {after : Engine δ} (h : CallStack w fuel err ps after)
    (hg : isTACGlobalError err = true) (htac : StartsInTac ps) :
    (∀ p ∈ ps, p.Returns w fuel err (instCount after)) ↔ ∀ p ∈ ps, p.PassesOn w err := by
  induction h with
  | @innermost p res after hp hx hres =>
    have hiff := hp.returns_iff (htac p rfl) hx hres hg
    simpa using hiff
  | @under p q rest after hp hq h ih =>
    have htacp := htac p rfl
    have hrest := ih fun q' hq' => by
      cases hq'
      exact hq.interpreter hp htacp
    -- once the inner frames return the error, the call at the site of `p` does
    have hiff (hin : ∀ p' ∈ q :: rest, p'.Returns w fuel err (instCount after)) :
        p.Returns w fuel err (instCount after) ↔ p.PassesOn w err := by
      obtain ⟨gas, e', hrun, hcount⟩ := (hin q List.mem_cons_self).run
      obtain ⟨caller, frames, hf, hprep⟩ := hq.prepares
      obtain ⟨res, e3, hx, -, hres, hcount3⟩ := evmExternal_error hf hprep hrun
      have hhost : (p.host w fuel).external p.site.call p.asked.engine = .ok (res, e3) := by
        rw [PendingFrame.host, hq.level]
        exact hx
      rw [← hcount, ← hcount3]
      exact hp.returns_iff htacp hhost hres hg
    constructor
    · intro hall
      have hin : ∀ p' ∈ q :: rest, p'.Returns w fuel err (instCount after) :=
        fun p' hp' => hall p' (List.mem_cons_of_mem _ hp')
      exact List.forall_mem_cons.mpr ⟨(hiff hin).mp (hall p List.mem_cons_self), hrest.mp hin⟩
    · intro hall
      have hin := hrest.mpr fun p' hp' => hall p' (List.mem_cons_of_mem _ hp')
      exact List.forall_mem_cons.mpr ⟨(hiff hin).mpr (hall p List.mem_cons_self), hin⟩

end

/-- A world in which nothing happens. -/
def plainWorld (δ : Type) [Inhabited δ] (getTACProg : Contract → Except VmError TACProgram) :
    World δ where
  host := { (default : Host (EvmState δ)) with researchPreAlloc := fun _ => [] }
  exist := fun _ s => (true, s)
  createAccount := fun _ s => s
  canTransfer := fun _ _ s => (true, s)
  transfer := fun _ _ _ s => s
  touch := fun _ s => s
  getCode := fun _ s => ([0], s)
  getCodeHash := fun _ s => (0, s)
  getNonce := fun _ s => (0, s)
  setNonce := fun _ _ s => s
  setCode := fun _ _ s => s
  addAddressToAccessList := fun _ s => s
  snapshot := fun s => (0, s)
  revertToSnapshot := fun _ s => s
  getRefund := fun _ => 0
  addRefund := fun _ s => s
  precompile := fun _ => none
  createAddress := fun _ _ => 0
  createAddress2 := fun _ _ _ => 0
  emptyCodeHash := 0
  isEIP158 := true
  isHomestead := true
  isBerlin := true
  isLondon := true
  getTACProg := getTACProg
  contractIso := false
  timeoutEnabled := true
  timerFires := fun _ => false

def soloWorld (f : TACFunction) : World Unit :=
  plainWorld Unit fun c => if c.address = 1 then .ok ⟨[f], ∅⟩ else .error .tacNoTac

def soloRequest : FrameRequest := ⟨⟨0, 1, [0], [], 0, 0⟩, [], false, 0⟩

def soloEngine : Engine Unit where
  config := default
  stateDB := ⟨0, ()⟩
  delta :=
    { maxGas := 100
      recordedTrace := ⟨0, [], [], [newCallTrace, newCallTrace]⟩
      substrateTrace := ⟨0, [], [], [newCallTrace]⟩ }

def soloFrame (f : TACFunction) : TACFrame where
  prog := ⟨[f], ∅⟩
  memory := newMemory
  contract := soloRequest.contract
  recCallTrace := newCallTrace
  subCallTrace := 0

def soloStart (f : TACFunction) : Engine Unit :=
  { soloEngine with
    stateDB := ⟨1, ()⟩
    frames := [soloFrame f]
    delta := { soloEngine.delta with
      substrateTrace := ⟨0, [], [], [{ newCallTrace with depth := 1 }]⟩ } }

def soloMachine (f : TACFunction) (registers : List TACRegister) : Machine (EvmState Unit) :=
  ⟨0, soloStart f, { registers, function := f }⟩

def soloRunning (f : TACFunction) (registers : List TACRegister) (op : TACOp) :
    RunningFrame Unit where
  req := soloRequest
  before := soloEngine
  prog := ⟨[f], ∅⟩
  entry := f
  frame := soloFrame f
  start := soloStart f
  ctx := (soloMachine f registers).ctx
  op := op
  machine := counted (soloMachine f registers)
  left := 4
  path := []

theorem soloRunning_reached {f : TACFunction} {registers : List TACRegister}
    (hctx : newContext f none = .ok (soloMachine f registers).ctx) (hpos : 0 < f.insts.length)
    (hop : fetch (counted (soloMachine f registers)) = .ok op) :
    (soloRunning f registers op).Reached (soloWorld f) (hostAt (soloWorld f) 5 1) 5 where
  prog := rfl
  enters := rfl
  entry := rfl
  ctx := hctx
  executes :=
    .now (Int.natCast_pos.mpr hpos) ⟨⟨⟨soloMachine f registers, [], none⟩, rfl, rfl⟩, hop⟩

def soloFunction (op : TACOp) (operands : Nat) : TACFunction where
  insts := op.code :: List.replicate operands 0 ++ [TACOp.STOP.code]
  numVars := 1

def soloPending (op : TACOp) (operands : Nat) (site : CallSite (EvmState Unit))
    (asked : Machine (EvmState Unit)) : PendingFrame Unit :=
  { soloRunning (soloFunction op operands) [{}] op with level := 1, site, asked }

def soloCallSite : CallSite (EvmState Unit) :=
  ⟨.call 0 [] 0 0, finishCall (hostAt (soloWorld (soloFunction .CALL 8)) 5 1) 0 0 0 0 9⟩

def soloCreateSite : CallSite (EvmState Unit) := ⟨.create [] 0 0, resumeCreate false false 0⟩

/-- The error of the contract called, which has no TAC, ends the calling contract. -/
theorem soloCall_globalError :
    ∃ p after, CallStack (soloWorld (soloFunction .CALL 8)) 5 .tacNoTac [p] after ∧ p.op = .CALL ∧
      ∀ q ∈ [p], q.Returns (soloWorld (soloFunction .CALL 8)) 5 .tacNoTac (instCount after) := by
  have hp : (soloPending .CALL 8 soloCallSite
      (counted (soloMachine (soloFunction .CALL 8) [{}]))).Reached _ 5 :=
    ⟨soloRunning_reached rfl (by decide) rfl, _, rfl, rfl⟩
  obtain ⟨after, hstack⟩ : ∃ after, CallStack _ 5 .tacNoTac [_] after :=
    ⟨_, .innermost hp (by rfl) (by rfl)⟩
  refine ⟨_, after, hstack, rfl, (globalError_returned_iff hstack rfl ?_).mpr ?_⟩
  · intro p hmem
    cases hmem
    rfl
  · intro p hmem
    obtain rfl := List.mem_singleton.mp hmem
    refine ⟨?_, ?_, ?_⟩
    · rintro (h | h) <;> exact absurd h (by decide)
    · simp [soloPending, soloRunning]
    · simp [soloWorld, plainWorld]

/-- The error of a creation is lost: the contract goes on to its `STOP` and succeeds. -/
theorem soloCreate_globalError_lost :
    ∃ w p after, CallStack w 5 .tacNoTac [p] after ∧ StartsInTac [p] ∧
      isTACGlobalError .tacNoTac = true ∧ p.op = .CREATE ∧ instCount after = 1 ∧
      (runTac w (p.host w 5) 5 p.req p.before).toOption.map
        (fun q => (q.1.1, instCount q.2)) = some (([], none), 2) ∧
      ¬ ∀ q ∈ [p], q.Returns w 5 .tacNoTac (instCount (after : Engine Unit)) := by
  have hp : (soloPending .CREATE 4 soloCreateSite
      ((counted (soloMachine (soloFunction .CREATE 4) [{}])).advance 5)).Reached
        (soloWorld (soloFunction .CREATE 4)) 5 :=
    ⟨soloRunning_reached rfl (by decide) rfl, _, rfl, rfl⟩
  refine ⟨_, _, _, .innermost hp (by rfl) (by rfl), ?_, rfl, rfl, by rfl, by rfl, fun h => ?_⟩
  · intro p hmem
    cases hmem
    rfl
  · obtain ⟨m', hexec, -⟩ := (h _ List.mem_cons_self).exec
    cases hexec

end EtherVal.Vm
