import EtherVal.TacParser.Layout
import EtherVal.Vm.Run

/-!
# Where execution goes on
-/

namespace EtherVal.Vm
open EtherVal.Lib EtherVal.TacParser
open Exec (bind_eq_ok pure_eq_ok get_eq_ok read_eq_ok val_eq_ok modify_eq_ok advance_eq_ok
  assign_eq_ok operand_eq_ok inst_eq_ok done_eq_ok)

variable {σ α β : Type}
variable {run : Runner σ}

def phiEnd (f : TACFunction) : Nat → Int → Int
  | 0, pc => pc
  | n + 1, pc => phiEnd f n (nextPhi f pc)

def nextPc (m : Machine σ) (op : TACOp) : Int :=
  match op with
  | .PHI_START =>
    phiEnd m.ctx.function (cellD m.ctx.function (m.pc + 1)).toNat (m.pc + 2) + 1
  | .CALLPRIVATE =>
    m.pc + 3 + cellD m.ctx.function (m.pc + 1) + ((calleeAt m).map (·.args.length)).getD 0
  | op => m.pc + (1 + op.operands : Nat)

variable {m m' : Machine σ}

theorem execPhis_pc {n : Nat} (h : execPhis n m = .ok ((), m')) :
    m'.pc = phiEnd m.ctx.function n m.pc := by
  induction n generalizing m with
  | zero =>
    obtain ⟨-, rfl⟩ := pure_eq_ok.mp h
    rfl
  | succ n ih =>
    obtain ⟨_, m1, h1, h2⟩ := bind_eq_ok.mp h
    obtain ⟨hr, hc, hp⟩ := execPhi_inv h1
    have hf : m1.ctx.function = m.ctx.function := (Effect.of_assign hr.1 hc).function
    rw [ih h2, hf, hp]
    rfl

variable {ret : Ret}

theorem execPhiStart_pc (h : execPhiStart m = .ok (ret, m')) :
    m'.pc = nextPc m .PHI_START := by
  obtain ⟨n, hn, h⟩ := Exec.execPhiStart_inv h
  rw [nextPc, cellD_of_inst hn]
  rcases h with ⟨rfl, rfl⟩ | ⟨m1, hphis, rfl⟩
  · show m.pc + 3 = m.pc + 2 + 1
    ring
  · show m1.pc + 1 = _
    rw [execPhis_pc hphis]
    rfl

theorem execCallprivate_inv (h : execCallprivate run m = .ok (ret, m')) :
    ∃ target, calleeAt m = some target ∧
      m'.pc = m.pc + 3 + cellD m.ctx.function (m.pc + 1) + target.args.length := by
  obtain ⟨ctx, dests, m1, mc, henter, -, hassign⟩ := execCallprivate_cases h
  obtain ⟨target, n, henters⟩ := enterPrivate_inv henter
  refine ⟨target, henters.callee, ?_⟩
  rw [(assignAll_inv hassign).2.1, henters.count]
  exact henters.pc

theorem execCallprivate_pc (h : execCallprivate run m = .ok (ret, m')) :
    m'.pc = nextPc m .CALLPRIVATE := by
  obtain ⟨target, htarget, hpc⟩ := execCallprivate_inv h
  rw [hpc, nextPc, htarget]
  rfl

theorem execReturnprivate_stops (h : execReturnprivate m = .ok (ret, m')) :
    m'.ctx.functionStop = true := by
  obtain ⟨n, _, hinst, h⟩ := bind_eq_ok.mp h
  obtain ⟨_, _, hadv, h⟩ := bind_eq_ok.mp h
  obtain ⟨values, m2, h2, h⟩ := bind_eq_ok.mp h
  obtain ⟨_, m3, h3, h⟩ := bind_eq_ok.mp h
  obtain ⟨_, _, hadv, h⟩ := bind_eq_ok.mp h
  have h := Exec.modify_bind h
  obtain ⟨-, rfl⟩ := done_eq_ok.mp h
  rfl

def NotTaken (m : Machine σ) : Prop := ∃ c, m.operand 2 = .ok c ∧ m.val c = 0

theorem isZero_of_notTaken {m1 : Machine σ} (h : NotTaken m) (hpc : m1.pc = m.pc)
    (hctx : m1.ctx = m.ctx) {c : Nat} (hc : m1.operand 2 = .ok c) :
    Uint256.isZero (m1.val c) = true := by
  obtain ⟨c', hc', hz⟩ := h
  rw [operand_congr hpc hctx] at hc
  obtain rfl : c' = c := Except.ok.inj (hc'.symm.trans hc)
  have hval : m1.val c' = m.val c' := by rw [Machine.val, Machine.reg, hctx]; rfl
  rw [hval, hz]
  rfl

theorem notTaken_iff {m1 : Machine σ} (hpc : m1.pc = m.pc) (hctx : m1.ctx = m.ctx) {c : Nat}
    (hc : m1.operand 2 = .ok c) : Uint256.isZero (m1.val c) = true ↔ NotTaken m := by
  refine ⟨fun h => ⟨c, operand_congr hpc hctx 2 ▸ hc, ?_⟩, fun h =>
    isZero_of_notTaken h hpc hctx hc⟩
  rw [Machine.val, Machine.reg, ← hctx]
  exact of_decide_eq_true h

theorem execJumpi_inv (h : execJumpi m = .ok (ret, m')) (hret : ret.2 = none) :
    (NotTaken m ∧ m'.pc = m.pc + 3) ∨ (¬ NotTaken m ∧ m.inst 1 = .ok m'.pc ∧ m'.pc ≠ -1) := by
  obtain ⟨_, m1, hcount, h⟩ := bind_eq_ok.mp h
  obtain ⟨hpc, hctx⟩ := (EngineOnly.countJump always_frameInv).same _ _ _ hcount
  obtain ⟨target, htarget, h⟩ := Exec.inst_bind h
  obtain ⟨c, hop, h⟩ := Exec.operand_bind h
  have h := Exec.val_bind h
  rw [← notTaken_iff hpc hctx hop]
  split at h
  · next hzero =>
    have hdone := Exec.advance_bind h
    obtain ⟨-, rfl⟩ := done_eq_ok.mp hdone
    rw [← hpc]
    exact .inl ⟨hzero, rfl⟩
  · next hset =>
    split at h
    · obtain ⟨err, m2, -, hfail⟩ := bind_eq_ok.mp h
      obtain ⟨rfl, -⟩ := Exec.fail_eq_ok.mp hfail
      cases hret
    · next hne =>
      have hdone := Exec.modify_bind h
      obtain ⟨-, rfl⟩ := done_eq_ok.mp hdone
      rw [Machine.inst, ← hpc, ← hctx]
      exact .inr ⟨hset, htarget, hne⟩

theorem execJumpVar_inv (h : execJumpVar m = .ok (ret, m')) :
    ∃ m1 v, m1.pc = m.pc ∧ m1.ctx = m.ctx ∧ jumpToValue v m1 = .ok (ret, m') := by
  obtain ⟨_, m1, hcount, h⟩ := bind_eq_ok.mp h
  obtain ⟨hpc, hctx⟩ := (EngineOnly.countJump always_frameInv).same _ _ _ hcount
  obtain ⟨r, -, h⟩ := Exec.operand_bind h
  obtain ⟨v, m2, hval, h⟩ := bind_eq_ok.mp h
  obtain ⟨-, rfl⟩ := val_eq_ok.mp hval
  exact ⟨m1, v, hpc, hctx, h⟩

theorem execJumpiVar_inv (h : execJumpiVar m = .ok (ret, m')) :
    (NotTaken m ∧ m'.pc = m.pc + 3) ∨ (¬ NotTaken m ∧
      ∃ m1 v, m1.pc = m.pc ∧ m1.ctx = m.ctx ∧ jumpToValue v m1 = .ok (ret, m')) := by
  obtain ⟨_, m1, hcount, h⟩ := bind_eq_ok.mp h
  obtain ⟨hpc, hctx⟩ := (EngineOnly.countJump always_frameInv).same _ _ _ hcount
  obtain ⟨r, -, h⟩ := Exec.operand_bind h
  obtain ⟨c, hop, h⟩ := Exec.operand_bind h
  have h := Exec.val_bind h
  rw [← notTaken_iff hpc hctx hop]
  split at h
  · next hzero =>
    have hdone := Exec.advance_bind h
    obtain ⟨-, rfl⟩ := done_eq_ok.mp hdone
    rw [← hpc]
    exact .inl ⟨hzero, rfl⟩
  · next hset =>
    obtain ⟨v, m2, hval2, h⟩ := bind_eq_ok.mp h
    obtain ⟨-, rfl⟩ := val_eq_ok.mp hval2
    exact .inr ⟨hset, m1, v, hpc, hctx, h⟩

theorem pc_of_writes {x : Exec σ Ret} {k : Int} (hx : Writes Always k x) (h : x m = .ok (ret, m'))
    (hret : ret.2 = none) : m'.pc = m.pc + k := by
  obtain ⟨d, w, -, -, hp⟩ := hx.writes m ret m' h hret
  exact hp

theorem pc_of_advances {x : Exec σ Ret} {k : Int} (hx : Advances Always k x)
    (h : x m = .ok (ret, m'))
    (hret : ret.2 = none) : m'.pc = m.pc + k :=
  (hx.moves m ret m' h hret).2

def isConditional (op : TACOp) : Bool := op = .JUMPI || op = .JUMPI_VAR

theorem execution_pc {host : Host σ} {op : TACOp} (h : execution host run op m = .ok (ret, m'))
    (hret : ret.2 = none) (hhalts : (operation op).halts = false)
    (hstop : m'.ctx.functionStop = false) (hjump : op ≠ .JUMP ∧ op ≠ .JUMP_VAR)
    (hcond : isConditional op = true → NotTaken m) :
    m'.pc = nextPc m op := by
  by_cases hplain : isPlain op = true
  · have hnext : nextPc m op = m.pc + plainSize op := by
      unfold nextPc plainSize
      split
      · cases hplain
      · cases hplain
      · simp [hhalts]
    have hx := execution_plain hplain host run
    rw [hnext]
    unfold Plain at hx
    split at hx
    · exact pc_of_writes hx h hret
    · exact pc_of_advances hx h hret
  · cases op
    case JUMP => exact absurd rfl hjump.1
    case JUMP_VAR => exact absurd rfl hjump.2
    case JUMPI =>
      rcases execJumpi_inv h hret with ⟨-, hpc⟩ | ⟨hset, -⟩
      · exact hpc
      · exact absurd (hcond rfl) hset
    case JUMPI_VAR =>
      rcases execJumpiVar_inv h with ⟨-, hpc⟩ | ⟨hset, -⟩
      · exact hpc
      · exact absurd (hcond rfl) hset
    case RETURNPRIVATE => exact absurd ((execReturnprivate_stops h).symm.trans hstop) (by decide)
    case PHI_START => exact execPhiStart_pc h
    case CALLPRIVATE => exact execCallprivate_pc h
    case BLOCK_FLAG => exact (effect_execBlockFlag h).2
    case NOT =>
      obtain ⟨d, a, -, -, -, rfl⟩ := execNot_eq_ok.mp h
      rfl
    case PHI | PHI_END => exact absurd h Exec.panicWith_ne_ok
    all_goals exact absurd rfl hplain

theorem step_pc {host : Host σ} {s s' : LoopState σ} {op : TACOp} (h : Step host s s')
    (hop : fetch s.machine = .ok op) (hjump : op ≠ .JUMP ∧ op ≠ .JUMP_VAR)
    (hcond : isConditional op = true → NotTaken s.machine) :
    s'.machine.pc = nextPc s.machine op := by
  obtain ⟨fuel, e, op', ret, m', hframes, hop', hexec, hnone, hhalts, hstop, hpc, -⟩ := step_inv h
  cases hop'.symm.trans hop
  rw [hpc, execution_pc hexec hnone hhalts hstop hjump hcond]
  unfold nextPc calleeAt
  rw [hframes]

end EtherVal.Vm
