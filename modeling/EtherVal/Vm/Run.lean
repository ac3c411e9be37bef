import EtherVal.Vm.StepEffect

/-!
# Rounds and runs of `execute_func`

What a round does besides the instruction it executes, and what it keeps.
-/

namespace EtherVal.Vm
open EtherVal.Lib EtherVal.TacParser

variable {σ : Type}

variable {host : Host σ}
variable {ret : Ret}

theorem checkOutOfGas_frames {e e' : TACInterpreter σ} {b : Bool}
    (h : checkOutOfGas host e = .ok (b, e')) : e'.frames = e.frames := by
  unfold checkOutOfGas at h
  simp only [bind, Except.bind, pure, Except.pure] at h
  split at h
  · cases h
  · split at h <;> (obtain ⟨-, rfl⟩ := Prod.mk.inj (Except.ok.inj h); rfl)

theorem noteTimeout_frames (host : Host σ) (e : TACInterpreter σ) :
    (noteTimeout host e).frames = e.frames := by
  unfold noteTimeout
  split <;> rfl

variable {s s' : LoopState σ}

theorem roundHead_inv {o : Option Ret} (h : roundHead host s = .ok (o, s')) :
    (∃ e, e.frames = s.machine.engine.frames ∧ s'.machine = { s.machine with engine := e }) ∧
      ∀ ret, o = some ret → ret.2 ≠ none := by
  unfold roundHead at h
  dsimp only at h
  cases hc : checkOutOfGas host s.machine.engine with
  | error p =>
    rw [hc] at h
    cases h
  | ok p =>
    obtain ⟨b, e⟩ := p
    rw [hc] at h
    dsimp only at h
    generalize (if timedOut host e = true then some VmError.tacTimeout
      else if b = true then some VmError.outOfGas else s.err) = err at h
    have hf : (noteTimeout host e).frames = s.machine.engine.frames :=
      (noteTimeout_frames host e).trans (checkOutOfGas_frames hc)
    split at h
    · cases h
      exact ⟨⟨_, hf, rfl⟩, by rintro ret ⟨⟩; simp⟩
    · split at h
      · cases h
        exact ⟨⟨_, hf, rfl⟩, by rintro ret ⟨⟩; simp⟩
      · split at h
        · cases h
        · cases h
          exact ⟨⟨_, hf, rfl⟩, by simp⟩

theorem roundTail_next {op : TACOperation} {m : Machine σ} (h : roundTail op ret m = .ok (.next s'))
    :
    ret.2 = none ∧ op.halts = false ∧ m.ctx.functionStop = false ∧ s'.machine.pc = m.pc ∧
      s'.machine.ctx = (increaseCycle m).ctx := by
  obtain ⟨m1, hpc, hctx, -, htail⟩ := roundTail_tail op ret m
  rw [h] at htail
  cases htail with
  | next hf hstop hnone hreverts hhalts =>
    refine ⟨hnone, ?_, hstop, hpc, hctx⟩
    unfold TACFrame.mark at hreverts hhalts
    cases hr : op.reverts with
    | true => simp [hr] at hreverts
    | false =>
      cases hh : op.halts with
      | true => simp [hr, hh] at hhalts
      | false => rfl

theorem roundTail_returned {op : TACOperation} {ret' : Ret} {m m' : Machine σ}
    (h : roundTail op ret m = .ok (.returned ret' m')) :
    m'.ctx = (increaseCycle m).ctx ∧ (ret'.2 = none → ret.2 = none) := by
  obtain ⟨m1, -, hctx, -, htail⟩ := roundTail_tail op ret m
  rw [h] at htail
  cases htail with
  | stop => exact ⟨hctx, id⟩
  | error => exact ⟨hctx, nofun⟩
  | reverts _ _ hnone => exact ⟨hctx, fun _ => hnone⟩
  | halts _ _ hnone => exact ⟨hctx, fun _ => hnone⟩

theorem round_inv {run : Runner σ} {r : Round σ} (h : round host run s = .ok r) :
    (∃ ret m', r = .returned ret m' ∧ ret.2 ≠ none) ∨
      ∃ e op ret m', e.frames = s.machine.engine.frames ∧ fetch s.machine = .ok op ∧
        execution host run op { s.machine with engine := e } = .ok (ret, m') ∧
        roundTail (operation op) ret m' = .ok r := by
  obtain ⟨⟨o, s1⟩, hhead, h⟩ := bind_ok h
  obtain ⟨⟨e, hf, hm⟩, ho⟩ := roundHead_inv hhead
  cases o with
  | some ret =>
    cases h
    exact .inl ⟨ret, s1.machine, rfl, ho ret rfl⟩
  | none =>
    right
    obtain ⟨⟨_, m1⟩, hcount, h⟩ := bind_ok h
    obtain rfl := Exec.modify_eq_ok.mp hcount
    obtain ⟨⟨op, m2⟩, hread, h⟩ := bind_ok h
    obtain ⟨hop, rfl⟩ := Exec.read_eq_ok.mp hread
    obtain ⟨⟨ret, m3⟩, hexec, h⟩ := bind_ok h
    rw [hm] at hop hexec
    refine ⟨_, op, ret, m3, ?_, hop, hexec, h⟩
    exact hf

theorem executeFrom_buffer {fuel : Nat} {m' : Machine σ}
    (h : executeFrom host fuel s = .ok (ret, m')) (hret : ret.2 = none) :
    m'.ctx.prevReturnData.map List.length = s.machine.ctx.prevReturnData.map List.length := by
  induction fuel generalizing s ret m' with
  | zero => cases h
  | succ fuel ih =>
    have hrun : KeepsBuffer (executeFunc host fuel) := fun ctx engine ret m' h hret => ih h hret
    unfold executeFrom at h
    split at h
    · obtain ⟨r, hr, h⟩ := bind_ok h
      rcases round_inv hr with ⟨ret1, m1, rfl, hne⟩ | ⟨e, op, ret1, m1, -, -, hexec, htail⟩
      · cases h
        exact absurd hret hne
      · cases r with
        | returned ret2 m2 =>
          cases h
          obtain ⟨hctx, hnone⟩ := roundTail_returned htail
          rw [hctx]
          exact (execution_sameFrame hrun hexec (hnone hret)).buffer
        | next s2 =>
          obtain ⟨hnone, -, -, -, hctx⟩ := roundTail_next htail
          rw [ih h hret, hctx]
          exact (execution_sameFrame hrun hexec hnone).buffer
    · cases h
      rfl

theorem keepsBuffer_executeFunc (host : Host σ) (fuel : Nat) :
    KeepsBuffer (executeFunc host fuel) :=
  fun _ _ _ _ h hret => executeFrom_buffer h hret

theorem step_inv (h : Step host s s') :
    ∃ fuel e op ret m', e.frames = s.machine.engine.frames ∧ fetch s.machine = .ok op ∧
      execution host (executeFunc host fuel) op { s.machine with engine := e } = .ok (ret, m') ∧
      ret.2 = none ∧ (operation op).halts = false ∧ m'.ctx.functionStop = false ∧
      s'.machine.pc = m'.pc ∧ s'.machine.ctx = (increaseCycle m').ctx := by
  obtain ⟨-, fuel, hr⟩ := h
  rcases round_inv hr with ⟨ret, m', hne, -⟩ | ⟨e, op, ret, m', hf, hop, hexec, htail⟩
  · cases hne
  · obtain ⟨hnone, hhalts, hstop, hpc, hctx⟩ := roundTail_next htail
    exact ⟨fuel, e, op, ret, m', hf, hop, hexec, hnone, hhalts, hstop, hpc, hctx⟩

theorem step_frame (h : Step host s s') :
    s'.machine.ctx.function = s.machine.ctx.function ∧
      s'.machine.ctx.registers.length = s.machine.ctx.registers.length ∧
      s'.machine.ctx.cycle = (s.machine.ctx.cycle + 1) % uint64Mod := by
  obtain ⟨fuel, e, op, ret, m', -, -, hexec, hnone, -, -, -, hctx⟩ := step_inv h
  have hsame := execution_sameFrame (keepsBuffer_executeFunc host fuel) hexec hnone
  rw [hctx]
  refine ⟨hsame.function, hsame.length, ?_⟩
  show (m'.ctx.cycle + 1) % uint64Mod = _
  rw [hsame.cycle]

theorem step_registers {op : TACOp} (h : Step host s s') (hop : fetch s.machine = .ok op)
    (hnot : op ≠ .NOT) (r : Nat) :
    (r ∈ assignedRegs s.machine.ctx.function s.machine.pc op →
        (s'.machine.reg r).cycle = s.machine.ctx.cycle) ∧
      (r ∉ assignedRegs s.machine.ctx.function s.machine.pc op →
        s'.machine.reg r = s.machine.reg r) := by
  obtain ⟨fuel, e, op', ret, m', -, hop', hexec, hnone, -, -, -, hctx⟩ := step_inv h
  cases hop'.symm.trans hop
  have heff := execution_effect (keepsBuffer_executeFunc host fuel) hnot hexec hnone
  have hreg : s'.machine.reg r = m'.reg r := by
    rw [Machine.reg, hctx]
    rfl
  rw [hreg]
  exact ⟨heff.stamped r, heff.other r⟩

def stepOnce (host : Host σ) (s : LoopState σ) : Option (LoopState σ) :=
  if s.machine.pc < s.machine.ctx.function.insts.length then
    match round host (executeFunc host 0) s with
    | .ok (.next s') => some s'
    | _ => none
  else none

theorem step_of_stepOnce (h : stepOnce host s = some s') :
    Step host s s' := by
  unfold stepOnce at h
  split at h
  · next hpc =>
    split at h
    · next s1 hround =>
      cases h
      exact ⟨hpc, 0, hround⟩
    · cases h
  · cases h

end EtherVal.Vm
