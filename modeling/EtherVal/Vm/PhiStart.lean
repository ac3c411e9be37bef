import EtherVal.Lib.PhiGroup
import EtherVal.Vm.ExecRules

/-!
# `exec_phi_start` (`tac_interpreter.go:1392`)

The group is meant to be a parallel assignment.  The source saves the register slice before
it runs the group, but the slice shares its array with the registers.
-/

namespace EtherVal.Vm
open EtherVal.Lib EtherVal.TacParser Exec List

variable {σ : Type}
variable {ps : List (Phi Nat)}

/- The cells of one assignment and of a group, as `trans_phi` and `trans_phi_statements`
write them. -/
def phiCells (p : Phi Nat) : List Int :=
  [TACOp.PHI.code, p.choices.length, p.dest] ++ p.choices.map Int.ofNat

def phiGroupCells (ps : List (Phi Nat)) : List Int :=
  [TACOp.PHI_START.code, ps.length] ++ (ps.flatMap phiCells ++ [TACOp.PHI_END.code])

def Machine.stamped (m : Machine σ) : Stamped Nat Word := fun r => ((m.reg r).val, (m.reg r).cycle)

def PhiInRange (m : Machine σ) (p : Phi Nat) : Prop :=
  p.dest < m.ctx.registers.length ∧ ∀ c ∈ p.choices, c < m.ctx.registers.length

variable {m : Machine σ}

theorem operand_of_cell {off : Int} {r : Nat}
    (hc : m.ctx.function.cell (m.pc + off) = .ok (r : Int)) (hr : r < m.ctx.registers.length) :
    m.operand off = .ok r := Machine.operand_iff.mpr ⟨hc, hr⟩

theorem selectRecent_eq {cs : List Nat} {j : Int} {best : Nat}
    (hcells : m.ctx.function.HasCells (m.pc + j) (cs.map Int.ofNat))
    (hr : ∀ c ∈ cs, c < m.ctx.registers.length) :
    selectRecent j cs.length best m = .ok (latest m.stamped.stamp best cs, m) := by
  induction cs generalizing j best with
  | nil => rfl
  | cons c cs ih =>
    rw [map_cons, TACFunction.HasCells.cons_iff] at hcells
    have hop : Exec.operand j m = .ok (c, m) := by
      rw [operand_eq_ok]
      exact ⟨operand_of_cell hcells.1 (hr c mem_cons_self), rfl⟩
    have hget : (get : Exec σ (Machine σ)) m = .ok (m, m) := rfl
    have htail := hcells.2
    rw [add_assoc] at htail
    simp only [length_cons, selectRecent]
    rw [bind_of_ok hop, bind_of_ok hget, ih htail fun x hx => hr x (mem_cons_of_mem _ hx)]
    rfl

theorem quiet_countPhi (f : TACFunction) (pc : Int) : Quiet (countPhi (σ := σ) f pc) :=
  (quiet_modifyStats _).bind ((quiet_countIf _ _).bind (quiet_countIf _ _))

theorem quiet_countPhiChoice (f : TACFunction) (pc c : Int) :
    Quiet (countPhiChoice (σ := σ) f pc c) := quiet_countIf _ _

theorem execPhi_eq {p : Phi Nat} (hcells : m.ctx.function.HasCells m.pc (phiCells p))
    (hr : PhiInRange m p) :
    ∃ e, execPhi m = .ok ((), (({ m with engine := e }).assign p.dest
      (m.val (p.select m.stamped.stamp))).advance (phiCells p).length) := by
  obtain ⟨d, first, rest⟩ := p
  obtain ⟨hd, hc⟩ := hr
  have hc' : ∀ c ∈ rest, c < m.ctx.registers.length := fun c h => hc c (mem_cons_of_mem _ h)
  obtain ⟨-, hn, hdest, hfirst, hrest⟩ :
      _ ∧ m.ctx.function.cell (m.pc + 1) = .ok ((rest.length + 1 : Nat) : Int) ∧
      m.ctx.function.cell (m.pc + 2) = .ok (d : Int) ∧
      m.ctx.function.cell (m.pc + 3) = .ok (first : Int) ∧
      m.ctx.function.HasCells (m.pc + 4) (rest.map Int.ofNat) := by
    simpa [phiCells, Phi.choices, TACFunction.HasCells.cons_iff, add_assoc] using hcells
  obtain ⟨e1, he1⟩ := quiet_countPhi (σ := σ) m.ctx.function m.pc m
  set m1 : Machine σ := { m with engine := e1 } with hm1
  set m2 : Machine σ := m1.advance 3 with hm2
  have hget : (get : Exec σ (Machine σ)) m = .ok (m, m) := rfl
  have hcount : Exec.inst 1 m1 = .ok (((rest.length + 1 : Nat) : Int), m1) :=
    inst_eq_ok.mpr ⟨hn, rfl⟩
  have hop2 : Exec.operand 2 m1 = .ok (d, m1) :=
    operand_eq_ok.mpr ⟨operand_of_cell hdest hd, rfl⟩
  have hadv : Exec.advance 3 m1 = .ok ((), m2) := rfl
  have hop0 : Exec.operand 0 m2 = .ok (first, m2) := by
    refine operand_eq_ok.mpr ⟨operand_of_cell ?_ (hc first mem_cons_self), rfl⟩
    rw [add_zero]
    exact hfirst
  have hsel : selectRecent 1 (((rest.length + 1 : Nat) : Int) - 1).toNat first m2 =
      .ok (latest m.stamped.stamp first rest, m2) := by
    have hlen : (((rest.length + 1 : Nat) : Int) - 1).toNat = rest.length := by omega
    rw [hlen]
    refine selectRecent_eq (m := m2) ?_ hc'
    change m.ctx.function.HasCells (m.pc + 3 + 1) _
    rw [add_assoc]
    exact hrest
  obtain ⟨e2, he2⟩ := quiet_countPhiChoice (σ := σ) m.ctx.function m.pc
    (latest m.stamped.stamp first rest : Nat) m2
  refine ⟨e2, ?_⟩
  unfold execPhi
  rw [bind_of_ok hget, bind_of_ok he1, bind_of_ok hcount, bind_of_ok hop2, bind_of_ok hadv,
    bind_of_ok hop0, bind_of_ok hsel, bind_of_ok he2]
  simp only [bind_eq_ok, val_eq_ok, assign_eq_ok, advance_eq_ok]
  refine ⟨_, _, ⟨rfl, rfl⟩, (), _, rfl, ?_⟩
  simp only [Machine.advance, Machine.assign, Machine.setReg, phiCells, Phi.choices, hm2, hm1,
    Phi.select, Machine.val, Machine.reg]
  congr 1
  simp only [length_append, length_cons, length_nil, length_map]
  push_cast
  ring

theorem stamped_assign {d : Nat} (w : Word) (hd : d < m.ctx.registers.length) :
    (m.assign d w).stamped = Function.update m.stamped d (w, m.ctx.cycle) := by
  funext r
  unfold Machine.stamped
  rw [Machine.reg_assign m w hd]
  by_cases hr : r = d
  · rw [if_pos hr, hr, Function.update_self]
  · rw [if_neg hr, Function.update_of_ne hr]

def OnlyRegisters (m m' : Machine σ) : Prop :=
  m'.ctx = { m.ctx with registers := m'.ctx.registers } ∧
    m'.ctx.registers.length = m.ctx.registers.length

theorem execPhis_eq (hcells : m.ctx.function.HasCells m.pc (ps.flatMap phiCells))
    (hr : ∀ p ∈ ps, PhiInRange m p) :
    ∃ m', execPhis ps.length m = .ok ((), m') ∧ OnlyRegisters m m' ∧
      m'.pc = m.pc + (ps.flatMap phiCells).length ∧
      m'.stamped = runPhis m.ctx.cycle m.stamped ps := by
  induction ps generalizing m with
  | nil => exact ⟨m, rfl, ⟨rfl, rfl⟩, by simp, rfl⟩
  | cons p ps ih =>
    rw [flatMap_cons, TACFunction.HasCells.append_iff] at hcells
    have hp := hr p mem_cons_self
    obtain ⟨e, he⟩ := execPhi_eq hcells.1 hp
    set m1 := (({ m with engine := e }).assign p.dest
      (m.val (p.select m.stamped.stamp))).advance (phiCells p).length with hm1
    have hlen : m1.ctx.registers.length = m.ctx.registers.length := length_set
    have hst : m1.stamped = runPhi m.ctx.cycle m.stamped p :=
      stamped_assign (m := { m with engine := e }) _ hp.1
    obtain ⟨m', hx, hregs, hpc, hfin⟩ := ih (m := m1) hcells.2 (fun q hq => by
      have := hr q (mem_cons_of_mem _ hq)
      unfold PhiInRange at this ⊢
      rwa [hlen])
    refine ⟨m', ?_, ⟨hregs.1, hregs.2.trans hlen⟩, ?_, ?_⟩
    · rw [length_cons, execPhis, bind_of_ok he, hx]
    · rw [hpc]
      simp only [hm1, Machine.advance, Machine.assign, Machine.setReg, flatMap_cons,
        length_append]
      push_cast
      ring
    · rw [hfin, hst]
      rfl

theorem execPhiStart_eq (hcells : m.ctx.function.HasCells m.pc (phiGroupCells ps))
    (hr : ∀ p ∈ ps, PhiInRange m p) :
    ∃ m', execPhiStart m = .ok (([], none), m') ∧ OnlyRegisters m m' ∧
      m'.pc = m.pc + (phiGroupCells ps).length ∧
      m'.stamped = runPhis m.ctx.cycle m.stamped ps := by
  unfold phiGroupCells at hcells ⊢
  obtain ⟨hhead, hbody⟩ := TACFunction.HasCells.append_iff.mp hcells
  obtain ⟨hphis, -⟩ := TACFunction.HasCells.append_iff.mp hbody
  have hn : Exec.inst 1 m = .ok ((ps.length : Int), m) :=
    inst_eq_ok.mpr ⟨hhead.tail.head, rfl⟩
  unfold execPhiStart
  rw [bind_of_ok hn]
  cases ps with
  | nil => exact ⟨m.advance 3, rfl, ⟨rfl, rfl⟩, rfl, rfl⟩
  | cons p ps =>
    obtain ⟨m', hx, hregs, hpc, hfin⟩ := execPhis_eq (m := m.advance 2) hphis hr
    have hne : ¬ ((p :: ps).length : Int) = 0 := by simp; omega
    have hadv : Exec.advance 2 m = .ok ((), m.advance 2) := rfl
    have hadv' : Exec.advance 1 m' = .ok ((), m'.advance 1) := rfl
    rw [if_neg hne, bind_of_ok hadv, Int.toNat_natCast, bind_of_ok hx, bind_of_ok hadv']
    refine ⟨m'.advance 1, rfl, hregs, ?_, hfin⟩
    simp only [Machine.advance, hpc, length_append, length_cons, length_nil]
    push_cast
    ring

/-- The group works as a parallel assignment: every destination gets the value its selected
choice had before, and the other registers keep value and stamp. -/
def PhiParallel (m : Machine σ) (ps : List (Phi Nat)) : Prop :=
  ∃ m', execPhiStart m = .ok (([], none), m') ∧
    (∀ p ∈ ps, ∃ s, Selected (fun r => (m.reg r).cycle) p.choices s ∧ m'.val p.dest = m.val s) ∧
    ∀ r, r ∉ ps.map Phi.dest → m'.reg r = m.reg r

/-- What keeps the group parallel: each assignment, run with the destinations before it
stamped with the current cycle, picks a register that then carries the value of the choice
selected by the stamps before the group. -/
def PhiUndisturbed (m : Machine σ) (ps : List (Phi Nat)) : Prop :=
  AllUndisturbed m.ctx.cycle m.stamped [] ps

instance (m : Machine σ) (ps : List (Phi Nat)) : Decidable (PhiUndisturbed m ps) :=
  inferInstanceAs (Decidable (AllUndisturbed _ _ _ _))

theorem phiParallel_iff {m' : Machine σ} (hx : execPhiStart m = .ok (([], none), m'))
    (hfin : m'.stamped = runPhis m.ctx.cycle m.stamped ps) :
    PhiParallel m ps ↔ Parallel m.stamped (runPhis m.ctx.cycle m.stamped ps) ps := by
  rw [← hfin]
  constructor
  · rintro ⟨m'', hx', hval, -⟩ p hp
    rw [hx, Except.ok.injEq, Prod.mk.injEq] at hx'
    obtain ⟨s, hs, hv⟩ := hval p hp
    obtain rfl := hs.unique (p.selected_select m.stamped.stamp)
    rw [← hx'.2] at hv
    exact hv
  · intro hpar
    refine ⟨m', hx, fun p hp => ⟨_, p.selected_select m.stamped.stamp, hpar p hp⟩, ?_⟩
    intro r hrd
    have hreg := congrFun hfin r
    rw [runPhis_of_not_mem _ _ _ hrd, Machine.stamped, Machine.stamped, Prod.mk.injEq] at hreg
    exact TACRegister.ext hreg.1 hreg.2

/-- For any group with different destinations, in any context. -/
theorem phiStart_parallel_iff (m : Machine σ) (ps : List (Phi Nat))
    (hcells : m.ctx.function.HasCells m.pc (phiGroupCells ps))
    (hr : ∀ p ∈ ps, PhiInRange m p) (hnd : (ps.map Phi.dest).Nodup) :
    PhiParallel m ps ↔ PhiUndisturbed m ps := by
  obtain ⟨m', hx, -, -, hfin⟩ := execPhiStart_eq hcells hr
  rw [phiParallel_iff hx hfin, PhiUndisturbed]
  exact parallel_iff hnd

/- Two assignments over three registers; the stamps are in the order of the registers. -/
def phiMachine (ps : List (Phi Nat)) : Machine Unit where
  pc := 0
  engine := default
  ctx := { registers := [⟨5, 1⟩, ⟨7, 2⟩, ⟨9, 3⟩], cycle := 4,
           function := { insts := phiGroupCells ps } }

theorem hasCells_phiMachine (ps : List (Phi Nat)) :
    (phiMachine ps).ctx.function.HasCells (phiMachine ps).pc (phiGroupCells ps) := by
  intro i c hc
  rw [TACFunction.cell_eq_ok]
  exact ⟨by simp [phiMachine], by simpa [phiMachine] using hc⟩

/-- A rotation that reads every register before it is written. -/
theorem phiStart_parallel_shift :
    PhiParallel (phiMachine [⟨0, 0, [1]⟩, ⟨1, 2, []⟩]) [⟨0, 0, [1]⟩, ⟨1, 2, []⟩] :=
  (phiStart_parallel_iff _ _ (hasCells_phiMachine _) (by unfold PhiInRange; decide)
    (by decide)).mpr (by decide)

/-- The swap `r0 = PHI(r1), r1 = PHI(r0)`: both registers end with the value of `r1`. -/
theorem phiStart_swap_not_parallel :
    (phiMachine [⟨0, 1, []⟩, ⟨1, 0, []⟩]).ctx.function.HasCells 0
      (phiGroupCells [⟨0, 1, []⟩, ⟨1, 0, []⟩]) ∧
    ¬ PhiParallel (phiMachine [⟨0, 1, []⟩, ⟨1, 0, []⟩]) [⟨0, 1, []⟩, ⟨1, 0, []⟩] := by
  refine ⟨hasCells_phiMachine _, fun hpar => ?_⟩
  obtain ⟨m', hx, -, -, hfin⟩ := execPhiStart_eq (hasCells_phiMachine [⟨0, 1, []⟩, ⟨1, 0, []⟩])
    (by unfold PhiInRange; decide)
  rw [phiParallel_iff hx hfin, parallel_iff (by decide)] at hpar
  exact absurd hpar (by decide)

end EtherVal.Vm
