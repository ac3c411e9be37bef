import EtherVal.TacParser.Resolve
import EtherVal.Vm.Run

/-!
# Cycle stamps

A `PHI` takes the choice with the greatest stamp.  That is the choice assigned last as long
as every assignment stamps its register, which `NOT` does not, and the cycle counter has not
wrapped around.
-/

namespace EtherVal.Vm
open EtherVal.Lib EtherVal.TacParser List

variable {σ : Type}

structure Event where
  op : TACOp
  cycle : Nat
  regs : List Nat
  deriving DecidableEq

def eventOf (m : Machine σ) (op : TACOp) : Event :=
  ⟨op, m.ctx.cycle, assignedRegs m.ctx.function m.pc op⟩

inductive Run (host : Host σ) (s0 : LoopState σ) : List Event → LoopState σ → Prop where
  | start : Run host s0 [] s0
  | step {hist : List Event} {s s' : LoopState σ} {op : TACOp} (hrun : Run host s0 hist s)
      (hop : fetch s.machine = .ok op) (hstep : Step host s s') :
      Run host s0 (hist ++ [eventOf s.machine op]) s'

variable {hist : List Event} {s : LoopState σ}
variable {host : Host σ} {s0 : LoopState σ}

theorem Run.cons {s1 : LoopState σ} {op : TACOp} (hop : fetch s0.machine = .ok op)
    (hstep : Step host s0 s1) (hrun : Run host s1 hist s) :
    Run host s0 (eventOf s0.machine op :: hist) s := by
  induction hrun with
  | start => exact Run.start.step hop hstep
  | step _ hop' hstep' ih => exact ih.step hop' hstep'

theorem Run.function (hrun : Run host s0 hist s) :
    s.machine.ctx.function = s0.machine.ctx.function := by
  induction hrun with
  | start => rfl
  | step _ _ hstep ih => exact (step_frame hstep).1.trans ih

def runFor (host : Host σ) : Nat → LoopState σ → Option (List Event × LoopState σ)
  | 0, s => some ([], s)
  | n + 1, s =>
    match fetch s.machine, stepOnce host s with
    | .ok op, some s' => (runFor host n s').map fun r => (eventOf s.machine op :: r.1, r.2)
    | _, _ => none

theorem run_of_runFor {n : Nat} (h : runFor host n s0 = some (hist, s)) : Run host s0 hist s := by
  induction n generalizing s0 hist with
  | zero =>
    cases h
    exact Run.start
  | succ n ih =>
    unfold runFor at h
    split at h
    · next op s1 hop hstep =>
      obtain ⟨⟨hist', s'⟩, hr, heq⟩ := Option.map_eq_some_iff.mp h
      cases heq
      exact (ih hr).cons hop (step_of_stepOnce hstep)
    · cases h

def lastAssigned (hist : List Event) (r : Nat) : Option Nat :=
  hist.foldl (fun last e => if r ∈ e.regs then some e.cycle else last) none

theorem lastAssigned_snoc (hist : List Event) (e : Event) (r : Nat) :
    lastAssigned (hist ++ [e]) r = if r ∈ e.regs then some e.cycle else lastAssigned hist r := by
  simp [lastAssigned]

structure StampsExact (hist : List Event) (m : Machine σ) : Prop where
  stamp : ∀ r, r < m.ctx.registers.length → (m.reg r).cycle = (lastAssigned hist r).getD 0
  nonzero : ∀ e ∈ hist, e.regs ≠ [] → e.cycle ≠ 0

def IsLatest (hist : List Event) (choices : List Nat) (s : Nat) : Prop :=
  s ∈ choices ∧ ∀ c ∈ choices, ∀ t, lastAssigned hist c = some t →
    ∃ t', lastAssigned hist s = some t' ∧ t ≤ t'

/-- Whenever a group is executed at this point, every `PHI` copies its latest choice.  The
assignments before it in the group belong to the history. -/
def PhiPicksLatest (hist : List Event) (m : Machine σ) : Prop :=
  fetch m = .ok .PHI_START → ∀ k m1 m2, execPhis k (m.advance 2) = .ok ((), m1) →
    execPhi m1 = .ok ((), m2) →
    let p := phiAt m1.ctx.function m1.pc
    ∃ s, IsLatest (hist ++ [⟨.PHI_START, m.ctx.cycle, phiDests m.ctx.function k (m.pc + 2)⟩])
      p.choices s ∧ m2.val p.dest = m1.val s

structure StampInv (f : TACFunction) (hist : List Event) (s : LoopState σ) : Prop extends
    StampsExact hist s.machine where
  function : s.machine.ctx.function = f
  cycle : s.machine.ctx.cycle = hist.length
  first : hist = [] → s.machine.pc = 0

variable {regs : List TACRegister}

theorem initRegisters_cycle {l : List (Nat × Word)} {regs' : List TACRegister}
    (h : initRegisters l regs = .ok regs') (hz : ∀ x ∈ regs, x.cycle = 0) :
    ∀ x ∈ regs', x.cycle = 0 := by
  induction l generalizing regs with
  | nil =>
    cases h
    exact hz
  | cons p l ih =>
    unfold initRegisters at h
    cases hr : regs[p.1]? with
    | none =>
      simp only [hr] at h
      cases h
    | some r =>
      simp only [hr] at h
      refine ih h fun x hx => ?_
      rcases mem_or_eq_of_mem_set hx with hx | rfl
      · exact hz x hx
      · exact hz r (mem_of_getElem? hr)

variable {f : TACFunction}
variable {args : Option (List Word)}

theorem argRegisters_cycle (h : argRegisters f args = .ok regs) : ∀ x ∈ regs, x.cycle = 0 := by
  have hrep : ∀ x ∈ List.replicate f.numVars ({} : TACRegister), x.cycle = 0 := by
    intro x hx
    rw [eq_of_mem_replicate hx]
  unfold argRegisters at h
  dsimp only at h
  split at h
  · cases h
    exact hrep
  · split at h
    · exact initRegisters_cycle h hrep
    · split at h
      · cases h
        exact hrep
      · cases h

theorem newContext_fresh {ctx : TACContext} (h : newContext f args = .ok ctx) :
    ctx.function = f ∧ ctx.cycle = 0 ∧ ∀ x ∈ ctx.registers, x.cycle = 0 := by
  unfold newContext at h
  split at h
  · cases h
  · obtain ⟨regs1, h1, h⟩ := bind_ok h
    obtain ⟨regs2, h2, h⟩ := bind_ok h
    cases h
    exact ⟨rfl, rfl, initRegisters_cycle h2 (argRegisters_cycle h1)⟩

theorem stampInv_start (ctx : TACContext) (hf : ctx.function = f) (hc : ctx.cycle = 0)
    (hz : ∀ x ∈ ctx.registers, x.cycle = 0) (engine : TACInterpreter σ) :
    StampInv f [] (startLoop ctx engine) where
  stamp := by
    intro r (hr : r < ctx.registers.length)
    have hget : ctx.registers.getD r {} ∈ ctx.registers := by
      rw [getD_eq_getElem?_getD, getElem?_eq_getElem hr]
      exact getElem_mem hr
    exact hz _ hget
  nonzero := by simp
  function := hf
  cycle := hc
  first := fun _ => rfl

theorem cell_zero_transformed {enc : GoMap GoString Nat} {f : AstFunction} {tf : TACFunction}
    (h : transformFunction enc f = .ok tf) : tf.cell 0 = .ok TACOp.BLOCK_FLAG.code := by
  obtain ⟨order, ht⟩ := transformed_transformFunction h
  obtain ⟨rest, hhead⟩ := ht.walk.head
  cases order with
  | nil => simp at hhead
  | cons b order =>
    refine ht.code 0 ⟨.BLOCK_FLAG, 1, none, []⟩ ⟨[], ?_⟩
    exact ⟨_, by rw [flatMap_cons]; rfl, rfl⟩

theorem stampInv_step (h0 : f.cell 0 = .ok TACOp.BLOCK_FLAG.code) {s' : LoopState σ} {op : TACOp}
    (hi : StampInv f hist s) (hop : fetch s.machine = .ok op) (hstep : Step host s s')
    (hnot : op ≠ .NOT) (hlen : hist.length + 1 < uint64Mod) :
    StampInv f (hist ++ [eventOf s.machine op]) s' := by
  obtain ⟨hfun, hregs, hcycle⟩ := step_frame hstep
  refine ⟨⟨?_, ?_⟩, hfun.trans hi.function, ?_, by simp⟩
  · intro r hr
    rw [hregs] at hr
    obtain ⟨hin, hout⟩ := step_registers hstep hop hnot r
    rw [lastAssigned_snoc]
    by_cases hmem : r ∈ (eventOf s.machine op).regs
    · rw [if_pos hmem]
      exact hin hmem
    · rw [if_neg hmem, hout hmem]
      exact hi.stamp r hr
  · intro e he hne
    rcases mem_append.mp he with he | he
    · exact hi.nonzero e he hne
    · obtain rfl := mem_singleton.mp he
      -- only the first instruction runs at cycle 0, and it assigns nothing
      show s.machine.ctx.cycle ≠ 0
      rw [hi.cycle]
      intro hnil
      have hpc := hi.first (length_eq_zero_iff.mp hnil)
      have hcell : s.machine.inst 0 = .ok TACOp.BLOCK_FLAG.code := by
        rw [Machine.inst, hi.function, hpc]
        exact h0
      have hflag : op = .BLOCK_FLAG := by
        unfold fetch at hop
        rw [hcell] at hop
        exact (Except.ok.inj hop).symm
      subst hflag
      exact hne rfl
  · rw [hcycle, hi.cycle, length_append, length_singleton, Nat.mod_eq_of_lt hlen]

theorem stampInv_run (h0 : f.cell 0 = .ok TACOp.BLOCK_FLAG.code) (hs0 : StampInv f [] s0)
    (hrun : Run host s0 hist s) (hnot : ∀ e ∈ hist, e.op ≠ .NOT) (hlen : hist.length < uint64Mod) :
    StampInv f hist s := by
  induction hrun with
  | start => exact hs0
  | @step hist s s' op hrun hop hstep ih =>
    rw [length_append, length_singleton] at hlen
    have hi := ih (fun e he => hnot e (mem_append_left _ he)) (by omega)
    exact stampInv_step h0 hi hop hstep (hnot (eventOf s.machine op) (by simp)) hlen

theorem lastAssigned_some {r t : Nat} (h : lastAssigned hist r = some t) :
    ∃ e ∈ hist, r ∈ e.regs ∧ e.cycle = t := by
  induction hist using List.reverseRecOn with
  | nil => cases h
  | append_singleton hist e ih =>
    rw [lastAssigned_snoc] at h
    split at h
    · next hr => exact ⟨e, by simp, hr, Option.some.inj h⟩
    · obtain ⟨e', he', hr⟩ := ih h
      exact ⟨e', mem_append_left _ he', hr⟩

theorem isLatest_select {m : Machine σ} (hex : StampsExact hist m) {p : Phi Nat}
    (hr : PhiInRange m p) : IsLatest hist p.choices (p.select m.stamped.stamp) := by
  have hsel := p.selected_select m.stamped.stamp
  refine ⟨hsel.mem, fun c hc t ht => ?_⟩
  have hle := hsel.stamp_le hc
  have hc' : m.stamped.stamp c = (lastAssigned hist c).getD 0 := hex.stamp c (hr.2 c hc)
  have hs' : m.stamped.stamp (p.select m.stamped.stamp) = _ := hex.stamp _ (hr.2 _ hsel.mem)
  rw [hc', hs', ht, Option.getD_some] at hle
  cases hlast : lastAssigned hist (p.select m.stamped.stamp) with
  | some t' =>
    rw [hlast] at hle
    exact ⟨t', rfl, hle⟩
  | none =>
    rw [hlast, Option.getD_none] at hle
    obtain ⟨e, he, hmem, hcyc⟩ := lastAssigned_some ht
    have hpos := hex.nonzero e he (ne_nil_of_mem hmem)
    omega

theorem phiPicksLatest_of_inv (h0 : f.cell 0 = .ok TACOp.BLOCK_FLAG.code) (hi : StampInv f hist s) :
    PhiPicksLatest hist s.machine := by
  intro hop k m1 m2 h1 h2
  have heff : Effect (s.machine.advance 2) m1
      (phiDests s.machine.ctx.function k (s.machine.pc + 2)) :=
    execPhis_effect h1
  obtain ⟨hr, hc, -⟩ := execPhi_inv h2
  -- the group is not the first instruction, so its cycle is not 0
  have hne : s.machine.ctx.cycle ≠ 0 := by
    rw [hi.cycle]
    intro hnil
    have hpc := hi.first (length_eq_zero_iff.mp hnil)
    have hcell : s.machine.inst 0 = .ok TACOp.BLOCK_FLAG.code := by
      rw [Machine.inst, hi.function, hpc]
      exact h0
    unfold fetch at hop
    rw [hcell] at hop
    exact absurd (Except.ok.inj hop) (by decide)
  have hex : StampsExact (hist ++ [⟨.PHI_START, s.machine.ctx.cycle,
      phiDests s.machine.ctx.function k (s.machine.pc + 2)⟩]) m1 := by
    refine ⟨fun r hrlen => ?_, fun e he hregs => ?_⟩
    · rw [lastAssigned_snoc]
      split
      · next hmem => exact heff.stamped r hmem
      · next hmem =>
        rw [heff.other r hmem]
        rw [heff.length] at hrlen
        exact hi.stamp r hrlen
    · rcases mem_append.mp he with he | he
      · exact hi.nonzero e he hregs
      · obtain rfl := mem_singleton.mp he
        exact hne
  refine ⟨_, isLatest_select hex hr, ?_⟩
  rw [Machine.val, reg_congr hc, Machine.reg_assign m1 _ hr.1, if_pos rfl]

/-- In a context made by `NewContext` for a transformed function, after any run of fewer
than 2^64 instructions without `NOT`. -/
theorem run_stampsExact (host : Host σ) (enc : GoMap GoString Nat) (f : AstFunction)
    (tf : TACFunction) (htf : transformFunction enc f = .ok tf) (args : Option (List Word))
    (ctx : TACContext) (hctx : newContext tf args = .ok ctx) (prev : Option (List Word))
    (engine : TACInterpreter σ) (hist : List Event) (s : LoopState σ)
    (hrun : Run host (startLoop { ctx with prevReturnData := prev } engine) hist s)
    (hnot : ∀ e ∈ hist, e.op ≠ .NOT) (hlen : hist.length < 2 ^ 64) :
    StampsExact hist s.machine ∧ PhiPicksLatest hist s.machine := by
  obtain ⟨hf, hc, hz⟩ := newContext_fresh hctx
  have h0 := cell_zero_transformed htf
  have hstart : StampInv tf [] (startLoop { ctx with prevReturnData := prev } engine) :=
    stampInv_start { ctx with prevReturnData := prev } hf hc hz engine
  have hinv : StampInv tf hist s := stampInv_run h0 hstart hrun hnot hlen
  exact ⟨hinv.toStampsExact, phiPicksLatest_of_inv h0 hinv⟩

def unaryStatement (op : TokenType) : AstStatement where
  address := "0x1".toList
  operation := op
  numAssignee := 1
  blockName := "0x0".toList
  args := [⟨"v0".toList, [], .VARIABLE⟩, ⟨"v1".toList, [], .VARIABLE⟩]

def unaryFunction (op : TokenType) : AstFunction where
  name := "f".toList
  args := []
  isPublic := true
  blocks := [⟨"0x0".toList, "0x0".toList, [], [], [unaryStatement op]⟩]

def idleEngine : TACInterpreter Unit where
  config := default
  stateDB := ()
  frames := [default]
  delta := ⟨0, ⟨0, [], [], [default]⟩, ⟨0, [], [], [default]⟩, 0, false, none, {}⟩

def startOf (f : AstFunction) : Option (LoopState Unit) :=
  match transformFunction ∅ f with
  | .error _ => none
  | .ok tf =>
    match newContext tf none with
    | .error _ => none
    | .ok ctx => some (startLoop ctx idleEngine)

theorem startOf_eq_some {f : AstFunction} {s : LoopState Unit} (h : startOf f = some s) :
    ∃ tf ctx, transformFunction ∅ f = .ok tf ∧ newContext tf none = .ok ctx ∧
      s = startLoop ctx idleEngine := by
  unfold startOf at h
  split at h
  · cases h
  next tf htf =>
  split at h
  · cases h
  next ctx hctx =>
  exact ⟨tf, ctx, htf, hctx, (Option.some.inj h).symm⟩

def unaryRun (op : TokenType) : Option (List Event × List TACRegister) :=
  ((startOf (unaryFunction op)).bind (runFor default 2)).map
    fun r => (r.1, r.2.machine.ctx.registers)

theorem unaryRun_eq_some {op : TokenType} (h : unaryRun op = some (hist, regs)) :
    ∃ tf ctx s, transformFunction ∅ (unaryFunction op) = .ok tf ∧ newContext tf none = .ok ctx ∧
      Run default (startLoop ctx idleEngine) hist s ∧ s.machine.ctx.registers = regs := by
  obtain ⟨⟨hist', s⟩, hr, heq⟩ := Option.map_eq_some_iff.mp h
  cases heq
  obtain ⟨s0, hs0, hr⟩ := Option.bind_eq_some_iff.mp hr
  obtain ⟨tf, ctx, htf, hctx, rfl⟩ := startOf_eq_some hs0
  exact ⟨tf, ctx, s, htf, hctx, run_of_runFor hr, rfl⟩

theorem run_stampsExact_iszero :
    ∃ tf ctx s, transformFunction ∅ (unaryFunction .ISZERO) = .ok tf ∧
      newContext tf none = .ok ctx ∧
      Run default (startLoop ctx idleEngine) [⟨.BLOCK_FLAG, 0, []⟩, ⟨.ISZERO, 1, [0]⟩] s ∧
      StampsExact [⟨.BLOCK_FLAG, 0, []⟩, ⟨.ISZERO, 1, [0]⟩] s.machine ∧
      PhiPicksLatest [⟨.BLOCK_FLAG, 0, []⟩, ⟨.ISZERO, 1, [0]⟩] s.machine := by
  have hrun : unaryRun .ISZERO =
      some ([⟨.BLOCK_FLAG, 0, []⟩, ⟨.ISZERO, 1, [0]⟩], [⟨1, 1⟩, ⟨0, 0⟩]) := by
    decide +kernel
  obtain ⟨tf, ctx, s, htf, hctx, hrun, -⟩ := unaryRun_eq_some hrun
  exact ⟨tf, ctx, s, htf, hctx, hrun,
    run_stampsExact default ∅ (unaryFunction .ISZERO) tf htf none ctx hctx ctx.prevReturnData
      idleEngine _ s hrun (by decide) (by decide)⟩

/-- `NOT` assigns register 0 at cycle 1 and leaves its stamp at 0. -/
theorem run_not_unstamped :
    ∃ tf ctx s, transformFunction ∅ (unaryFunction .NOT) = .ok tf ∧
      newContext tf none = .ok ctx ∧
      Run default (startLoop ctx idleEngine) [⟨.BLOCK_FLAG, 0, []⟩, ⟨.NOT, 1, [0]⟩] s ∧
      (s.machine.reg 0).cycle = 0 ∧ lastAssigned [⟨.BLOCK_FLAG, 0, []⟩, ⟨.NOT, 1, [0]⟩] 0 = some 1 ∧
      ¬ StampsExact [⟨.BLOCK_FLAG, 0, []⟩, ⟨.NOT, 1, [0]⟩] s.machine := by
  have hrun : unaryRun .NOT =
      some ([⟨.BLOCK_FLAG, 0, []⟩, ⟨.NOT, 1, [0]⟩], [⟨-1, 0⟩, ⟨0, 0⟩]) := by
    decide +kernel
  obtain ⟨tf, ctx, s, htf, hctx, hrun, hregs⟩ := unaryRun_eq_some hrun
  have hstamp : (s.machine.reg 0).cycle = 0 := by
    rw [Machine.reg, hregs]
    rfl
  refine ⟨tf, ctx, s, htf, hctx, hrun, hstamp, rfl, fun hex => ?_⟩
  have h0 := hex.stamp 0 (by rw [hregs]; decide)
  rw [hstamp] at h0
  exact absurd h0 (by decide)

end EtherVal.Vm
