import EtherVal.Vm.GlobalErrors

/-!
# Gas and refund at the end of a run (`tac_interpreter.go:305-309`)

The interpreter counts no gas.  A deferred function of `Run` sets the gas of the contract and the
refund counter to what the recorded trace says, by a subtraction and an addition on `uint64`.
-/

namespace EtherVal.Vm
open EtherVal.Lib EtherVal.TacParser

variable {frame : TACFrame} {prog : TACProgram} {req : FrameRequest}

def OwnGas (k : Nat) (P : Nat → Prop) (l : List TACFrame) : Prop :=
  ∃ f rest, l = f :: rest ∧ rest.length = k ∧ P f.contract.gas

theorem ledgerPred_ownGas (k : Nat) (P : Nat → Prop) : LedgerPred (OwnGas k P) := by
  rintro l l' hl ⟨f, rest, rfl, hlen, hgas⟩
  obtain ⟨f', rest', rfl, hf, hrest⟩ := List.map_eq_cons_iff.mp hl
  have hgas' := congrArg (fun g : TACFrame => g.contract.gas) hf
  change f'.contract.gas = f.contract.gas at hgas'
  have hlen' := congrArg List.length hrest
  simp only [List.length_map] at hlen'
  exact ⟨f', rest', rfl, hlen'.trans hlen, hgas' ▸ hgas⟩

section
variable {δ : Type} {J : InterpreterKind → Prop} {k : Nat} {P : Nat → Prop}

theorem ownGas_credit {gas : Nat} (hP : ∀ g, P g → P ((g + gas) % uint64Mod)) :
    Keeps (OnStack (δ := δ) J (OwnGas k P)) (Exec.modifyFrame (TACFrame.credit gas)) := by
  refine Keeps.modifyEngine fun e he => ⟨he.kind, ?_⟩
  obtain ⟨base, ⟨top, htop⟩, f, rest, rfl, hlen, hgas⟩ := he.base
  rw [← htop]
  cases top with
  | nil => exact ⟨_, List.suffix_refl _, f.credit gas, rest, rfl, hlen, hP _ hgas⟩
  | cons a top => exact ⟨f :: rest, ⟨_ :: top, rfl⟩, f, rest, rfl, hlen, hgas⟩

theorem OnStack.ownFrame {before e : Engine δ} (h : OnStack J (OwnGas before.frames.length P) e)
    (frame : TACFrame) : P (ownFrame before frame e).contract.gas := by
  obtain ⟨base, ⟨top, htop⟩, f, rest, rfl, hlen, hgas⟩ := h.base
  have hown : e.frames.reverse[before.frames.length]? = some f := by
    rw [← htop, ← hlen]
    simp
  rw [Vm.ownFrame, hown]
  exact hgas

/-- Whatever a call does, the frames below stay where they are, with their gas. -/
def GivesFramesBack (host : Host (EvmState δ)) : Prop :=
  ∀ J B, LedgerPred B → CallKeeps (OnStack J B) host

theorem hostAt_givesFramesBack (w : World δ) (fuel n : Nat) : GivesFramesBack (hostAt w fuel n) :=
  fun _ _ hB => hostAt_onStack w fuel n hB

end

def addRefund (gas refund : Nat) : Nat := (refund + gas) % uint64Mod

def CountsRefund {δ : Type} (w : World δ) : Prop :=
  ∀ gas db, w.getRefund (w.addRefund gas db) = addRefund gas (w.getRefund db)

theorem addRefund_difference {recorded : Nat} (hrec : recorded < uint64Mod) (refund : Nat) :
    addRefund ((recorded + (uint64Mod - refund % uint64Mod)) % uint64Mod) refund = recorded := by
  unfold addRefund
  unfold uint64Mod at *
  omega

theorem replayGas_eq {gas leftOverGas : Nat} (hgas : gas < uint64Mod)
    (hleft : leftOverGas < uint64Mod) :
    replayGas gas leftOverGas = if leftOverGas ≤ gas then leftOverGas else gas := by
  unfold replayGas
  unfold uint64Mod at *
  dsimp only
  by_cases h : leftOverGas ≤ gas
  · have hused : (gas + (2 ^ 64 - leftOverGas % 2 ^ 64)) % 2 ^ 64 = gas - leftOverGas := by omega
    rw [hused, if_pos h, if_neg (by omega)]
    omega
  · have hused : (gas + (2 ^ 64 - leftOverGas % 2 ^ 64)) % 2 ^ 64 = gas + 2 ^ 64 - leftOverGas := by
      omega
    rw [hused, if_neg h, if_pos (by omega)]

section
variable {δ : Type}

theorem refund_replayRefund {w : World δ} (hw : CountsRefund w)
    (hrec : frame.recCallTrace.refundGas < uint64Mod) (e : Engine δ) :
    w.getRefund (replayRefund w frame e).stateDB.db = frame.recCallTrace.refundGas := by
  have hadd := hw ((frame.recCallTrace.refundGas +
    (uint64Mod - w.getRefund e.stateDB.db % uint64Mod)) % uint64Mod) e.stateDB.db
  rw [addRefund_difference hrec] at hadd
  exact hadd

theorem enterRun_created {e start : Engine δ} (h : enterRun prog req e = .ok (.frame frame start)) :
    frame.contract.gas = req.contract.gas ∧
      frame.recCallTrace ∈ e.delta.recordedTrace.callTraces := by
  unfold enterRun at h
  dsimp only at h
  split at h
  · cases h
  · split at h
    · cases h
    · split at h
      · cases h
      · rename_i hrec
        obtain ⟨rfl, rfl⟩ := Entered.frame.inj (Except.ok.inj h)
        exact ⟨rfl, List.mem_of_getElem? hrec⟩

def stopped (host : Host (EvmState δ)) (fuel : Nat) (prog : TACProgram) (start : Engine δ) :
    Engine δ :=
  match runEntry host fuel prog start with
  | .ok (_, e) => e
  | .error (_, e) => e

def endGas (host : Host (EvmState δ)) (fuel : Nat) (prog : TACProgram) (before : Engine δ)
    (frame : TACFrame) (start : Engine δ) : Nat :=
  (ownFrame before frame (stopped host fuel prog start)).contract.gas

theorem endGas_lt {host : Host (EvmState δ)} (hhost : GivesFramesBack host) (fuel : Nat)
    {before start : Engine δ} (henter : enterRun prog req before = .ok (.frame frame start))
    (hgas : req.contract.gas < uint64Mod) :
    endGas host fuel prog before frame start < uint64Mod := by
  obtain ⟨-, hframes⟩ := enterRun_frame henter
  obtain ⟨hframe, -⟩ := enterRun_created henter
  have hstart : OnStack (fun _ => True) (OwnGas before.frames.length (· < uint64Mod)) start := by
    refine ⟨trivial, start.frames, List.suffix_refl _, frame, before.frames, hframes, rfl, ?_⟩
    rw [hframe]
    exact hgas
  have hB := ledgerPred_ownGas before.frames.length (· < uint64Mod)
  have hcredit : CreditInv
      (OnStack (δ := δ) (fun _ => True) (OwnGas before.frames.length (· < uint64Mod))) :=
    fun gas => ownGas_credit fun g _ => Nat.mod_lt _ (by decide)
  have hrun := runEntry_keeps ⟨⟨(ledgerInv_onStack hB).eventInv, hhost _ _ hB⟩, hcredit⟩
    fuel prog hstart
  have hstop : OnStack (fun _ => True) (OwnGas before.frames.length (· < uint64Mod))
      (stopped host fuel prog start) := by
    unfold stopped
    cases hx : runEntry host fuel prog start with
    | ok q => exact hrun.1 q.1 q.2 hx
    | error q => exact hrun.2 q.1 q.2 hx
  exact hstop.ownFrame frame

theorem refund_finishRun {w : World δ} (hw : CountsRefund w)
    (hrec : frame.recCallTrace.refundGas < uint64Mod) (before : Engine δ) (req : FrameRequest)
    (ret : Ret) (e : Engine δ) :
    w.getRefund (finishRun w before req frame ret e).2.stateDB.db = frame.recCallTrace.refundGas :=
  refund_replayRefund hw hrec _

theorem ownFrame_select (w : World δ) (before start : Engine δ) (frame : TACFrame) (ret : Ret)
    (e : Engine δ) : ownFrame before frame (select w start ret e).2 = ownFrame before frame e := by
  unfold ownFrame
  rw [(sameStack_select w start ret e).frames]

/-- A run that gets as far as its frame ends with the refund counter and the gas of the recorded
trace, unless less gas than recorded is left. -/
theorem tacRun_replays {w : World δ} (hw : CountsRefund w) {host : Host (EvmState δ)}
    (hhost : GivesFramesBack host) (fuel : Nat) {before start : Engine δ}
    (henter : enterRun prog req before = .ok (.frame frame start))
    (hgas : req.contract.gas < uint64Mod) (hrec : ∀ ct ∈ before.delta.recordedTrace.callTraces,
      ct.leftOverGas < uint64Mod ∧ ct.refundGas < uint64Mod) :
    (∀ ret gas e, tacRun w host fuel prog req before = .ok ((ret, gas), e) →
      w.getRefund e.stateDB.db = frame.recCallTrace.refundGas ∧
        gas = if frame.recCallTrace.leftOverGas ≤ endGas host fuel prog before frame start
          then frame.recCallTrace.leftOverGas else endGas host fuel prog before frame start) ∧
      ∀ p e, tacRun w host fuel prog req before = .error (p, e) →
        w.getRefund e.stateDB.db = frame.recCallTrace.refundGas := by
  obtain ⟨hleft, hrefund⟩ := hrec _ (enterRun_created henter).2
  have hend := endGas_lt hhost fuel henter hgas
  -- both ways to return go through the `select` and the deferred function
  have hfinish : ∀ ret e, stopped host fuel prog start = e →
      w.getRefund (finishRun w before req frame (select w start ret e).1
        (select w start ret e).2).2.stateDB.db = frame.recCallTrace.refundGas ∧
      (finishRun w before req frame (select w start ret e).1 (select w start ret e).2).1.2 =
        if frame.recCallTrace.leftOverGas ≤ endGas host fuel prog before frame start
          then frame.recCallTrace.leftOverGas else endGas host fuel prog before frame start := by
    intro ret e he
    refine ⟨refund_finishRun hw hrefund before req _ _, ?_⟩
    rw [finishRun, ownFrame_select, ← he]
    exact replayGas_eq hend hleft
  rw [tacRun, henter]
  dsimp only
  cases hx : runEntry host fuel prog start with
  | ok q =>
    have hstop : stopped host fuel prog start = q.2 := by rw [stopped, hx]
    obtain ⟨hr, hg⟩ := hfinish q.1 q.2 hstop
    refine ⟨fun ret gas e h => ?_, fun p e h => (by cases h)⟩
    have hq := Except.ok.inj h
    rw [hq] at hr hg
    exact ⟨hr, hg⟩
  | error q =>
    have hstop : stopped host fuel prog start = q.2 := by rw [stopped, hx]
    dsimp only
    split
    · obtain ⟨hr, hg⟩ := hfinish ([], some .tacPanic) q.2 hstop
      refine ⟨fun ret gas e h => ?_, fun p e h => (by cases h)⟩
      have hq := Except.ok.inj h
      rw [hq] at hr hg
      exact ⟨hr, hg⟩
    · refine ⟨fun ret gas e h => (by cases h), fun p e h => ?_⟩
      cases Except.error.inj h
      exact refund_replayRefund hw hrefund _

end

/-- A function that jumps to its first instruction. -/
def spin : TACFunction where
  insts := [TACOp.JUMP.code, 0]
  numVars := 1

/-- The database is the refund counter.  The timer fires after three instructions. -/
def refundWorld : World Nat :=
  { plainWorld Nat fun _ => .ok ⟨[spin], ∅⟩ with
    host := { (default : Host (EvmState Nat)) with
      timerFired := fun e => decide (3 ≤ e.delta.stats.tacInstCount) }
    getRefund := fun s => s
    addRefund := addRefund
    timerFires := fun _ => true }

def refundRequest : FrameRequest := ⟨⟨0, 1, [0], [], 100, 0⟩, [], false, 0⟩

def refundEngine : Engine Nat where
  config := default
  stateDB := ⟨0, 9⟩
  delta :=
    { maxGas := 100
      recordedTrace := ⟨0, [], [], [{ newCallTrace with leftOverGas := 30, refundGas := 5 }]⟩
      substrateTrace := ⟨0, [], [], [newCallTrace]⟩ }

/-- Only the timer ends the run of `spin`. -/
theorem refundRun_replays :
    ∃ e, tacRun refundWorld (hostAt refundWorld 5 1) 5 ⟨[spin], ∅⟩ refundRequest refundEngine =
        .ok ((([], some .tacTimeout), 30), e) ∧
      e.delta.stats.tacInstCount = 3 ∧ e.stateDB.db = 5 := by
  obtain ⟨gas, e, hrun, hcount⟩ : ∃ gas e, tacRun refundWorld (hostAt refundWorld 5 1) 5
      ⟨[spin], ∅⟩ refundRequest refundEngine = .ok ((([], some .tacTimeout), gas), e) ∧
      e.delta.stats.tacInstCount = 3 := ⟨_, _, rfl, rfl⟩
  have hrec : ∀ ct ∈ refundEngine.delta.recordedTrace.callTraces,
      ct.leftOverGas < uint64Mod ∧ ct.refundGas < uint64Mod := by
    intro ct hct
    rw [List.mem_singleton.mp hct]
    decide
  obtain ⟨hrefund, hgas⟩ := (tacRun_replays (w := refundWorld) (fun _ _ => rfl)
    (hostAt_givesFramesBack refundWorld 5 1) 5 (by rfl) (by decide) hrec).1 _ gas e hrun
  have hend : gas = 30 := hgas.trans (by rfl)
  exact ⟨e, hend ▸ hrun, hcount, hrefund⟩

end EtherVal.Vm
