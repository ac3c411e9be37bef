import EtherVal.Vm.GlobalErrors

/-!
# Revert data (`tac_interpreter.go:374-467`, `1278-1287`, `substrate_interpreter.go:398-436`)

`exec_revert` returns the bytes of memory together with `ErrExecutionReverted`, but the loop of
`execute_func` drops the bytes that come with an error.  The Substrate interpreter sets the error
of a revert value and not its bytes.
-/

namespace EtherVal.Vm
open EtherVal.Lib EtherVal.TacParser
open Exec

variable {d : Bytes} {fuel : Nat}

section
variable {σ : Type}

theorem engineOnly_execRevert : EngineOnly Always (execRevert (σ := σ)) := by
  refine (EngineOnly.operand _).bind fun _ => (EngineOnly.operand _).bind fun _ =>
    (EngineOnly.memoryRange always_frameInv _ _).bind fun range => ?_
  cases range <;> exact .pure _

theorem onMemory_inv {α : Type} {g : Memory → MemResult α} {a : Except VmError α}
    {m m' : Machine σ} (h : onMemory g m = .ok (a, m')) :
    ∃ frame rest mem, m.engine.frames = frame :: rest ∧ g frame.memory = .ok (a, mem) ∧
      m' = { m with
        engine := { m.engine with frames := { frame with memory := mem } :: rest } } := by
  obtain ⟨frame, hget, h⟩ := Exec.read_bind h
  obtain ⟨q, hg, h⟩ := Exec.read_bind h
  obtain ⟨_, m2, hmod, h⟩ := bind_eq_ok.mp h
  have hm2 := modify_eq_ok.mp hmod
  obtain ⟨rfl, rfl⟩ := pure_eq_ok.mp h
  cases hf : m.engine.frames with
  | nil =>
    rw [hf] at hget
    cases hget
  | cons f rest =>
    rw [hf] at hget
    obtain rfl := Except.ok.inj hget
    refine ⟨f, rest, q.2, rfl, hg, ?_⟩
    rw [hm2]
    dsimp only
    rw [hf]

theorem execRevert_frames {m m' : Machine σ} {ret : Ret} (h : execRevert m = .ok (ret, m')) :
    m'.engine.frames ≠ [] := by
  obtain ⟨_, _, -, h⟩ := bind_eq_ok.mp h
  obtain ⟨_, _, -, h⟩ := bind_eq_ok.mp h
  obtain ⟨range, m1, hrange, h⟩ := bind_eq_ok.mp h
  obtain ⟨_, _, -, hrange⟩ := bind_eq_ok.mp hrange
  obtain ⟨_, _, -, hrange⟩ := bind_eq_ok.mp hrange
  obtain ⟨_, _, -, hrange⟩ := bind_eq_ok.mp hrange
  obtain ⟨frame, rest, mem, -, -, rfl⟩ := onMemory_inv hrange
  cases range with
  | error e =>
    obtain ⟨-, rfl⟩ := fail_eq_ok.mp h
    simp
  | ok d =>
    obtain ⟨-, rfl⟩ := pure_eq_ok.mp h
    simp

/-- The machine has the bytes `d` as returned data and in the area `o..o+n` of the memory of its
frame; `e` is the engine the EVM gave back. -/
structure Receives (d : Bytes) (e : TACInterpreter σ) (o n : Nat) (m : Machine σ) : Prop where
  data : m.engine.returnData = d
  memory : ∃ frame rest mem, e.frames = frame :: rest ∧
    frame.memory.extSet o n d e.delta.maxGas = .ok (.ok (), mem) ∧
    m.engine.frames = { frame with memory := mem } :: rest

theorem noteEVM_inv {host : Host σ} {toAddr : Address} {c : Bool} {u : Unit} {m m' : Machine σ}
    (h : onlyIf c (do
      let code ← onState (host.getCode toAddr)
      onlyIf (code ≠ []) (modifyDelta fun d => { d with usedEVM := true })) m = .ok (u, m')) :
    m'.engine.frames = m.engine.frames ∧ m'.engine.returnData = m.engine.returnData := by
  cases c with
  | false =>
    obtain ⟨-, rfl⟩ := pure_eq_ok.mp h
    exact ⟨rfl, rfl⟩
  | true =>
    obtain ⟨code, m1, hcode, h⟩ := bind_eq_ok.mp h
    obtain ⟨-, rfl⟩ := Prod.mk.inj (Except.ok.inj hcode)
    by_cases hc : code ≠ []
    · rw [onlyIf, if_pos (by simpa using hc)] at h
      obtain rfl := modify_eq_ok.mp h
      exact ⟨rfl, rfl⟩
    · rw [onlyIf, if_neg (by simpa using hc)] at h
      obtain ⟨-, rfl⟩ := pure_eq_ok.mp h
      exact ⟨rfl, rfl⟩

theorem finishCall_receives {host : Host σ} {toAddr : Address} {success retOffset retSize : Nat}
    {size : Int} {res : CallResult} {m m' : Machine σ} {ret : Ret}
    (hres : res.err = some .executionReverted)
    (h : finishCall host toAddr success retOffset retSize size res m = .ok (ret, m'))
    (hret : ret.2 = none) :
    ret.1 = res.ret ∧
      Receives res.ret m.engine (Uint256.uint64 ((m.assign success Uint256.clear).val retOffset))
        (Uint256.uint64 ((m.assign success Uint256.clear).val retSize)) m' := by
  have hflag : boolWord res.err.isNone = Uint256.clear := by rw [hres]; rfl
  have h := Exec.assign_bind h
  rw [hflag] at h
  obtain ⟨stored, m2, hstore, h⟩ := bind_eq_ok.mp h
  rw [storeReturned, if_pos (.inr hres)] at hstore
  have hstore := Exec.val_bind hstore
  have hstore := Exec.val_bind hstore
  have hstore := Exec.get_bind hstore
  obtain ⟨frame, rest, mem, hframes, hmem, rfl⟩ := onMemory_inv hstore
  cases stored with
  | error e =>
    obtain ⟨rfl, -⟩ := fail_eq_ok.mp h
    cases hret
  | ok _ =>
    have h := Exec.modify_bind h
    have h := Exec.get_bind h
    obtain ⟨_, m4, hnote, h⟩ := bind_eq_ok.mp h
    obtain ⟨hf4, hd4⟩ := noteEVM_inv hnote
    rw [hres] at h
    have h := Exec.get_bind h
    rw [if_neg (by simp [isTACGlobalError])] at h
    have h := Exec.advance_bind h
    obtain ⟨rfl, rfl⟩ := pure_eq_ok.mp h
    exact ⟨rfl, hd4, frame, rest, mem, hframes, hmem, hf4⟩

end

section
variable {δ : Type}

/-- The bytes `d` of a reverted run reach the caller: `Run` returns them, the function of the EVM
that started it returns them, and so the calling frame receives them. -/
structure RevertReaches (w : World δ) (host : Host (EvmState δ)) (fuel : Nat) (p : RunningFrame δ)
    (d : Bytes) : Prop where
  run : ∃ gas e, runTac w host fuel p.req p.before = .ok (((d, some .executionReverted), gas), e)
  call : ∀ caller rest c e, e.frames = caller :: rest →
    prepare w caller.contract c (nextCallTrace e) = .frame p.req p.before →
    ∃ res e', evmExternal w (runTac w host fuel) c e = .ok (res, e') ∧ res.ret = d ∧
      res.err = some .executionReverted
  caller : ∀ (host' : Host (EvmState δ)) op m site m1 toAddr success retOffset retSize size
    frame rest, host'.external = evmExternal w (runTac w host fuel) → Asks host' op m site m1 →
    site.resume = finishCall host' toAddr success retOffset retSize size →
    m1.engine.frames = frame :: rest →
    prepare w frame.contract site.call (nextCallTrace m1.engine) = .frame p.req p.before →
    ∀ run ret m', execution host' run op m = .ok (ret, m') → ret.2 = none →
      ret.1 = d ∧ ∃ res e, host'.external site.call m1.engine = .ok (res, e) ∧
        Receives d e (Uint256.uint64 ((m1.assign success Uint256.clear).val retOffset))
          (Uint256.uint64 ((m1.assign success Uint256.clear).val retSize)) m'

theorem revertReaches_of_run {w : World δ} {host : Host (EvmState δ)} {p : RunningFrame δ}
    {gas : Nat} {e : Engine δ}
    (h : runTac w host fuel p.req p.before = .ok (((d, some .executionReverted), gas), e)) :
    RevertReaches w host fuel p d where
  run := ⟨gas, e, h⟩
  call := by
    intro caller rest c e1 hf hprep
    obtain ⟨res, e3, hx, hret, herr, -⟩ := evmExternal_error hf hprep h
    exact ⟨res, e3, hx, hret, herr⟩
  caller := by
    intro host' op m site m1 toAddr success retOffset retSize size frame rest hhost hasks hresume
      hf hprep run ret m' hexec hret
    obtain ⟨res, e3, hx, hd, herr, -⟩ := evmExternal_error hf hprep h
    rw [← hhost] at hx
    rw [hasks.execution_eq hx run, hresume] at hexec
    obtain ⟨hbytes, hrec⟩ := finishCall_receives herr hexec hret
    rw [hd] at hbytes hrec
    exact ⟨hbytes, res, e3, hx, hrec⟩

/-- Revert data of a TAC frame reaches the caller only if there is none: the loop drops it.  The
other two conditions are those for the error itself. -/
theorem revertReaches_iff {w : World δ} {host : Host (EvmState δ)} {p : RunningFrame δ}
    {m : Machine (EvmState δ)} (hp : p.Reached w host fuel) (hop : p.op = .REVERT)
    (hx : execRevert p.machine = .ok ((d, some .executionReverted), m)) :
    RevertReaches w host fuel p d ↔
      d = [] ∧ (∀ a ∈ p.path, a.DestsExist) ∧
        (guarded w p.start && w.timerFires p.start) = false := by
  obtain ⟨-, hctx⟩ := engineOnly_execRevert.same _ _ _ hx
  have hs : (startLoop p.ctx p.start).machine.ctx.functionStop = false :=
    newContext_functionStop hp.ctx
  have hstop : m.ctx.functionStop = false := by
    rw [hctx]
    exact hp.executes.functionStop hs
  have hbuf : bufferLength m = bufferLength p.machine := by
    rw [bufferLength, hctx, bufferLength]
  have hexec : execution host (executeFunc host p.left) p.op p.machine
      = .ok ((d, some .executionReverted), m) := by
    rw [hop]
    exact hx
  have hf := execRevert_frames hx
  by_cases hd : ∀ a ∈ p.path, a.DestsExist
  · obtain ⟨⟨m2, heq, -⟩, -⟩ := hp.executes.fails hexec rfl hstop hbuf hf hs hd
    obtain ⟨gas, e, hrun, -⟩ := hp.run_eq heq
    constructor
    · intro h
      obtain ⟨gas', e', hrun'⟩ := h.run
      rw [hrun] at hrun'
      simp only [Except.ok.injEq, Prod.mk.injEq, Option.some.injEq] at hrun'
      refine ⟨hrun'.1.1.1.symm, hd, ?_⟩
      by_contra htimer
      rw [if_pos (by simpa using htimer)] at hrun'
      exact absurd hrun'.1.1.2 (by decide)
    · rintro ⟨rfl, -, htimer⟩
      rw [if_neg (by simp [htimer])] at hrun
      exact revertReaches_of_run hrun
  · refine ⟨fun h => ?_, fun h => absurd h.2.1 hd⟩
    obtain ⟨q, m2, heq⟩ := hp.executes.panics hexec rfl hstop hbuf hf hs hd
    obtain ⟨gas, e, hrun⟩ := h.run
    rcases hp.run_panic heq hrun with hret | hret <;>
      · obtain ⟨-, herr⟩ := Prod.mk.inj hret
        cases herr

/-- The values `SubstrateInterpreter.Run` tells apart. -/
inductive NodeValue where
  | empty | revert (value : Bytes) | invalid
  | bytes (value : Bytes) | words (value : List Word) | num (value : Word) | other

/-- The results set from the value of the program; a revert sets the error only. -/
def NodeValue.results : NodeValue → Ret
  | .empty | .other => ([], none)
  | .revert _ => ([], some .executionReverted)
  | .invalid => ([], some .invalidJump)
  | .bytes value => (value, none)
  | .words value => (value.flatMap Uint256.bytes32, none)
  | .num value => (Uint256.bytes32 value, none)

/-- `SubstrateInterpreter.Run` once the program has the value `r`.  A frame that was terminated on
purpose, with the flag 2, takes the recorded error. -/
def substrateRun (delta : DeltaSemantics) (isolationIndex : Nat) (terminate : Int) (r : NodeValue) :
    Except GoPanic Ret := do
  let outOfGas ← delta.checkOutOfGas isolationIndex
  if outOfGas ∨ terminate = 2 then
    match delta.recordedTrace.callTraces[isolationIndex]? with
    | some ct => return (r.results.1, ct.err)
    | none => .error .indexOutOfRange
  else return r.results

theorem checkOutOfGas_of_lt {delta : DeltaSemantics} {i : Nat}
    (h : i < delta.substrateTrace.callTraces.length) : ∃ b, delta.checkOutOfGas i = .ok b := by
  unfold DeltaSemantics.checkOutOfGas
  dsimp only
  split
  · exact ⟨_, rfl⟩
  · next hlen =>
    have hrec : i < delta.recordedTrace.callTraces.length := by omega
    rw [List.getElem?_eq_getElem h, List.getElem?_eq_getElem hrec]
    dsimp only
    repeat' split
    all_goals exact ⟨_, rfl⟩

/-- The recorded error stands in for the error of a frame terminated on purpose. -/
def KeepsRevert (delta : DeltaSemantics) (i : Nat) (terminate : Int) : Prop :=
  (delta.checkOutOfGas i = .ok true ∨ terminate = 2) →
    delta.recordedTrace.callTraces[i]?.bind (·.err) = some .executionReverted

theorem substrateRun_revert_iff {delta : DeltaSemantics} {i : Nat} {terminate : Int}
    (h : i < delta.substrateTrace.callTraces.length) :
    substrateRun delta i terminate (.revert d) = .ok (d, some .executionReverted) ↔
      d = [] ∧ KeepsRevert delta i terminate := by
  obtain ⟨b, hb⟩ := checkOutOfGas_of_lt h
  have hcond : (delta.checkOutOfGas i = .ok true ∨ terminate = 2) ↔ (b = true ∨ terminate = 2) := by
    rw [hb, Except.ok.injEq]
  unfold substrateRun KeepsRevert
  rw [hcond, hb]
  change (if b = true ∨ terminate = 2 then _ else _ : Except GoPanic Ret) = _ ↔ _
  by_cases hc : b = true ∨ terminate = 2
  · rw [if_pos hc]
    cases delta.recordedTrace.callTraces[i]? with
    | none => simp [hc]
    | some ct =>
      change (Except.ok (([] : Bytes), ct.err) : Except GoPanic Ret) = _ ↔ _
      simp only [Except.ok.injEq, Prod.mk.injEq, hc, true_imp_iff, Option.bind_some]
      exact and_congr_left' eq_comm
  · rw [if_neg hc]
    change (Except.ok (([] : Bytes), some .executionReverted) : Except GoPanic Ret) = _ ↔ _
    simp only [Except.ok.injEq, Prod.mk.injEq, and_true, hc, false_imp_iff]
    exact eq_comm

/-- Revert data reaches the caller, from a TAC frame and from a Substrate frame, only if there
is none. -/
theorem revertData_reaches_iff {w : World δ} {host : Host (EvmState δ)} {p : RunningFrame δ}
    {m : Machine (EvmState δ)} (hp : p.Reached w host fuel) (hop : p.op = .REVERT)
    (hx : execRevert p.machine = .ok ((d, some .executionReverted), m)) (delta : DeltaSemantics)
    (i : Nat) (terminate : Int) (d' : Bytes) (hi : i < delta.substrateTrace.callTraces.length) :
    (RevertReaches w host fuel p d ↔
      d = [] ∧ (∀ a ∈ p.path, a.DestsExist) ∧
        (guarded w p.start && w.timerFires p.start) = false) ∧
      (substrateRun delta i terminate (.revert d') = .ok (d', some .executionReverted) ↔
        d' = [] ∧ KeepsRevert delta i terminate) :=
  ⟨revertReaches_iff hp hop hx, substrateRun_revert_iff hi⟩

end

def revertFunction (n : Word) : TACFunction where
  insts := [TACOp.REVERT.code, 0, 1]
  constSym := [⟨1, n⟩]
  numVars := 2

theorem revertFunction_reached (n : Word) :
    (soloRunning (revertFunction n) [{}, { val := n }] .REVERT).Reached
      (soloWorld (revertFunction n)) (hostAt (soloWorld (revertFunction n)) 5 1) 5 :=
  soloRunning_reached rfl (Nat.succ_pos 2) rfl

theorem revertData_reaches_empty :
    ∃ (w : World Unit) (host : Host (EvmState Unit)) (p : RunningFrame Unit),
      p.Reached w host 5 ∧ p.op = .REVERT ∧ RevertReaches w host 5 p [] ∧
      substrateRun soloEngine.delta 0 0 (.revert []) = .ok ([], some .executionReverted) := by
  have h := revertData_reaches_iff (revertFunction_reached 0) rfl (by rfl) soloEngine.delta 0 0 []
    (by decide)
  refine ⟨_, _, _, revertFunction_reached 0, rfl, h.1.mpr ⟨rfl, ?_, rfl⟩, h.2.mpr ⟨rfl, ?_⟩⟩
  · simp [soloRunning]
  · rintro (h | h) <;> cases h

/-- One byte of revert data is lost in both interpreters. -/
theorem revertData_byte_lost :
    ∃ (w : World Unit) (host : Host (EvmState Unit)) (p : RunningFrame Unit)
      (m : Machine (EvmState Unit)), p.Reached w host 5 ∧ p.op = .REVERT ∧
      execRevert p.machine = .ok (([0], some .executionReverted), m) ∧
      ¬ RevertReaches w host 5 p [0] ∧
      substrateRun soloEngine.delta 0 0 (.revert [0]) ≠ .ok ([0], some .executionReverted) := by
  refine ⟨_, _, _, _, revertFunction_reached 1, rfl, by rfl, fun h => ?_, fun h => ?_⟩
  · obtain ⟨gas, e, hrun⟩ := h.run
    cases hrun
  · cases h

end EtherVal.Vm
