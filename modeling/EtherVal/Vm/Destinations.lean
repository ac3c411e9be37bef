import EtherVal.TacParser.Arguments
import EtherVal.Vm.Boundaries

/-!
# The variables an instruction writes
-/

namespace EtherVal.Vm
open EtherVal.Lib EtherVal.TacParser List

variable {σ : Type}
variable {b : AstBlock} {it : Item}

def stmtDests (s : AstStatement) : List AstVariable :=
  match s.operation with
  | .PHI => s.args.take 1
  | .CALLPRIVATE => s.args.take s.numAssignee
  | _ => if hasDest (opcodeOf s) then s.args.take 1 else []

def dests (s : AstStatement) : List AstVariable := stmtDests s.plain

variable {s : AstStatement}

theorem dests_congr {t : AstStatement} (h : s.plain = t.plain) : dests s = dests t := by
  rw [dests, dests, h]

theorem dests_of_inserted (h : isInserted s.plain) : dests s = [] := by
  unfold dests stmtDests
  rcases h with h | h | h
  · simp [h, opcodeOf, hasDest]
  · simp only [h, opcodeOf]
    split <;> rfl
  · simp [h, opcodeOf, hasDest]

theorem not_numbered_of_mem_emitted (h : s ∈ b.emitted) :
    isNumberedIllphi s.operation = false := by
  have hconv : ∀ t ∈ b.converted, isNumberedIllphi t.operation = false := by
    intro t ht
    obtain ⟨u, -, rfl⟩ := mem_map.mp ht
    unfold convertIllphi
    split
    · rfl
    · next hu => exact Bool.eq_false_iff.mpr hu
  rcases mem_append.mp h with h | h
  · rcases mem_append.mp h with h | h
    · rw [operation_constStatements h]
      rfl
    · rw [operation_phiStatements h]
      rfl
  · exact hconv s (mem_filter.mp h).1

theorem plain_of_emitted (h : s ∈ b.emitted) :
    s.plain = { s with patchReorder := false } := by
  rw [AstStatement.plain, convertIllphi, if_neg (by simp [not_numbered_of_mem_emitted h])]

theorem dests_of_emitted (h : s ∈ b.emitted) :
    dests s = stmtDests s := by
  rw [dests, plain_of_emitted h]
  rfl

theorem hasDest_operands {op : TACOp} (h : hasDest op = true) : 1 ≤ op.operands := by
  revert h
  cases op <;> decide

theorem mem_cellsFrom {f : TACFunction} {n : Nat} {pc c : Int} (h : c ∈ cellsFrom f pc n) :
    ∃ i < n, c = cellD f (pc + i) := by
  induction n generalizing pc with
  | zero => cases h
  | succ n ih =>
    rcases mem_cons.mp h with rfl | h
    · exact ⟨0, by omega, by simp⟩
    · obtain ⟨i, hi, rfl⟩ := ih h
      exact ⟨i + 1, by omega, by push_cast; ring_nf⟩

theorem toNat_of_holdsRegister {tf : TACFunction} {v : AstVariable} {p : Nat}
    (h : HoldsRegister tf v p) : tf.variableEncoding[v.name]? = some (cellD tf p).toNat := by
  obtain ⟨idx, hcell, hidx⟩ := h
  rw [cellD_of_ok hcell, hidx]
  rfl

theorem mem_zipIdx_of_getElem? {l : List AstVariable} {b i : Nat} {v : AstVariable}
    (h : l[i]? = some v) : (v, b + i) ∈ l.zipIdx b := by
  rw [mk_mem_zipIdx_iff_le_and_getElem?_sub]
  simpa using h

section
variable {enc : GoMap GoString Nat} {f : AstFunction} {order : List AstBlock} {tf : TACFunction}
  {k r : Nat}

theorem dest_cell (hreg : Registered enc f order tf)
    (hat : ItemAt (order.flatMap AstBlock.items) k (stmtItem s)) (hop : s.operation = .CALLPRIVATE)
    (hcomplete : s.Complete) {i : Nat} (hi : i < s.numAssignee) :
    ∃ v q, s.args[i]? = some v ∧ tf.variableEncoding[v.name]? = some q ∧
      cellD tf (k + 2 + i) = (q : Int) := by
  have hlen : s.numAssignee < s.args.length := by
    simpa only [AstStatement.Complete, hop] using hcomplete
  have hv := getElem?_eq_getElem (l := s.args) (i := i) (by omega)
  generalize s.args[i] = v at hv
  have htake : (s.args.take s.numAssignee)[i]? = some v := by
    rw [getElem?_take_of_lt hi, hv]
  have hmem : (v, k + 2 + i) ∈ stmtVars k s := by
    simp only [stmtVars, hop]
    exact mem_append_left _ (mem_zipIdx_of_getElem? htake)
  obtain ⟨q, hcell, hq⟩ := hreg.operand k s hat _ hmem (.inr (by dsimp only; omega))
  exact ⟨v, q, hv, hq, cellD_of_ok hcell⟩

theorem assigned_of_callprivate (h : Transformed f order tf) (hreg : Registered enc f order tf)
    (hat : ItemAt (order.flatMap AstBlock.items) k (stmtItem s)) (hop : s.operation = .CALLPRIVATE)
    (hcomplete : s.Complete) (hr : r ∈ assignedRegs tf k .CALLPRIVATE) :
    ∃ v ∈ stmtDests s, tf.variableEncoding[v.name]? = some r := by
  have hcount := h.known k _ hat (1, s.numAssignee) (by simp [stmtItem, stmtKnown, hop])
  have hpos : (k : Int) + 1 = ((k + 1 : Nat) : Int) := by push_cast; rfl
  unfold assignedRegs at hr
  dsimp only at hr
  rw [hpos, cellD_of_ok hcount, Int.toNat_natCast] at hr
  obtain ⟨c, hc, rfl⟩ := mem_map.mp hr
  obtain ⟨i, hi, rfl⟩ := mem_cellsFrom hc
  obtain ⟨v, q, hv, hq, hcell⟩ := dest_cell hreg hat hop hcomplete hi
  refine ⟨v, ?_, ?_⟩
  · simp only [stmtDests, hop]
    exact mem_of_getElem? (i := i) (by rw [getElem?_take_of_lt hi, hv])
  · rw [hcell, hq, Int.toNat_natCast]

theorem not_jump_of_hasDest (h : hasDest (opcodeOf s) = true) :
    (stmtItem s).jump = none := by
  have hne : s.operation ≠ .JUMP ∧ s.operation ≠ .JUMPI := by
    constructor <;>
    · intro hs
      unfold opcodeOf at h
      simp only [hs] at h
      split at h <;> cases h
  simp [Item.jump, stmtItem, hne]

theorem assigned_of_stmt (h : Transformed f order tf) (hreg : Registered enc f order tf)
    (hat : ItemAt (order.flatMap AstBlock.items) k (stmtItem s)) (hphi : s.operation ≠ .PHI)
    (hcomplete : s.Complete) (hr : r ∈ assignedRegs tf k (opcodeOf s)) :
    ∃ v ∈ stmtDests s, tf.variableEncoding[v.name]? = some r := by
  by_cases hcall : opcodeOf s = .CALLPRIVATE
  · rw [hcall] at hr
    exact assigned_of_callprivate h hreg hat (opcodeOf_eq_callprivate hcall) hcomplete hr
  · rw [assignedRegs_plain (opcodeOf_ne_phiStart s) hcall] at hr
    split at hr
    · next hdest =>
      have hop : s.operation ≠ .CALLPRIVATE := fun hs => hcall (by simp [opcodeOf, hs])
      have hret : s.operation ≠ .RETURNPRIVATE := by
        intro hs
        simp [opcodeOf, hs, hasDest] at hdest
      have hdests : stmtDests s = s.args.take 1 := by
        unfold stmtDests
        split
        · rfl
        · next hs => exact absurd hs hop
        · rw [if_pos hdest]
      have hone := hasDest_operands hdest
      have hlen : (opcodeOf s).operands ≤ s.args.length := by
        unfold AstStatement.Complete at hcomplete
        split at hcomplete
        · next hs => exact absurd hs hop
        · next hs => exact absurd hs hret
        · next hs => exact absurd hs hphi
        · exact hcomplete
      obtain ⟨v, rest, hargs⟩ : ∃ v rest, s.args = v :: rest := by
        cases hargs : s.args with
        | nil =>
          rw [hargs, length_nil] at hlen
          omega
        | cons v rest => exact ⟨v, rest, rfl⟩
      have hget : (s.args.take (opcodeOf s).operands)[0]? = some v := by
        rw [getElem?_take_of_lt (by omega), hargs]
        rfl
      have hmem : (v, k + 1) ∈ stmtVars k s := by
        rw [stmtVars_fixed k hop hret]
        exact mem_zipIdx_of_getElem? (b := k + 1) hget
      have hcell := toNat_of_holdsRegister
        (hreg.operand k s hat _ hmem (.inl (not_jump_of_hasDest hdest)))
      refine ⟨v, by rw [hdests, hargs]; exact mem_cons_self, ?_⟩
      rw [mem_singleton.mp hr]
      exact hcell
    · cases hr

theorem assigned_of_phis {phis : List AstStatement} {base off : Nat}
    (hcount : ∀ q ∈ phiCounts off phis, tf.cell ((base + q.1 : Nat) : Int) = .ok q.2)
    (hvars : ∀ p ∈ stmtsAt phiVar phiSize (base + off) phis, HoldsRegister tf p.1 p.2)
    (hargs : ∀ s ∈ phis, s.operation = .PHI ∧ s.Complete)
    (hr : r ∈ phiDests tf phis.length ((base + off : Nat) : Int)) :
    ∃ s ∈ phis, ∃ v ∈ stmtDests s, tf.variableEncoding[v.name]? = some r := by
  induction phis generalizing off with
  | nil => cases hr
  | cons s phis ih =>
    obtain ⟨hop, hcomplete⟩ := hargs s mem_cons_self
    rcases mem_cons.mp hr with rfl | hr
    · have hlen : 2 ≤ s.args.length := by
        simpa only [AstStatement.Complete, hop] using hcomplete
      obtain ⟨v, rest, hs⟩ : ∃ v rest, s.args = v :: rest := by
        cases hs : s.args with
        | nil =>
          rw [hs, length_nil] at hlen
          omega
        | cons v rest => exact ⟨v, rest, rfl⟩
      have hmem : (v, base + off + 2) ∈ stmtsAt phiVar phiSize (base + off) (s :: phis) := by
        refine mem_append_left _ ?_
        rw [phiVar, hs]
        exact mem_cons_self
      have hcell := toNat_of_holdsRegister (hvars _ hmem)
      refine ⟨s, mem_cons_self, v, ?_, hcell⟩
      simp [stmtDests, hop, hs]
    · have hnext := nextPhi_phiCounts hcount
      rw [hnext] at hr
      have hrest := @ih (off + phiSize s) (fun q hq => hcount q (mem_cons_of_mem _ hq))
        (fun p hp => hvars p (mem_append_right _ (by rwa [Nat.add_assoc])))
        (fun t ht => hargs t (mem_cons_of_mem _ ht)) hr
      obtain ⟨t, ht, hv⟩ := hrest
      exact ⟨t, mem_cons_of_mem _ ht, hv⟩

theorem itemAt_flatMap_cases (h : ItemAt (order.flatMap AstBlock.items) k it) :
    ∃ before b after off, order = before ++ b :: after ∧ ItemAt b.items off it ∧
      k = codeSize before + off := by
  induction order generalizing k with
  | nil =>
    obtain ⟨before, after, hl, -⟩ := h
    simp at hl
  | cons b rest ih =>
    rw [flatMap_cons] at h
    rcases itemAt_append_cases h with hin | ⟨k', rfl, hin⟩
    · exact ⟨[], b, rest, k, rfl, hin, (Nat.zero_add k).symm⟩
    · obtain ⟨before, c, after, off, rfl, hc, rfl⟩ := ih hin
      refine ⟨b :: before, c, after, off, rfl, hc, ?_⟩
      simp only [codeSize, flatMap_cons, totalSize_append]
      omega

theorem itemAt_block_cases {off : Nat} (h : ItemAt b.items off it) :
    it = ⟨.BLOCK_FLAG, 1, none, []⟩ ∨
      (∃ s ∈ b.constStatements, it = stmtItem s) ∨
      (it = ⟨.PHI_START, phiGroupSize b.phiStatements, none,
        (1, b.phiStatements.length) :: phiCounts 2 b.phiStatements⟩ ∧ b.phiStatements ≠ [] ∧
        off = 1 + totalSize (b.constStatements.map stmtItem)) ∨
      ∃ s ∈ b.otherStatements, it = stmtItem s := by
  rcases itemAt_append_cases h with hhead | ⟨k', rfl, hin⟩
  · rcases itemAt_append_cases hhead with hconst | ⟨k', rfl, hin⟩
    · rcases itemAt_cons_cases hconst with ⟨-, heq⟩ | ⟨k', rfl, hin⟩
      · exact .inl heq
      · obtain ⟨s, hs, rfl⟩ := mem_map.mp hin.mem
        exact .inr (.inl ⟨s, hs, rfl⟩)
    · unfold AstBlock.phiItems at hin
      split at hin
      · cases hin.mem
      · next hne =>
        rcases itemAt_cons_cases hin with ⟨rfl, rfl⟩ | ⟨k2, -, hnil⟩
        · refine .inr (.inr (.inl ⟨rfl, hne, ?_⟩))
          rw [totalSize_cons, Nat.add_zero]
        · cases hnil.mem
  · obtain ⟨s, hs, rfl⟩ := mem_map.mp hin.mem
    exact .inr (.inr (.inr ⟨s, hs, rfl⟩))

theorem assigned_of_item (h : Transformed f order tf) (hreg : Registered enc f order tf)
    (hcomplete : ∀ b ∈ order, ∀ s ∈ b.emitted, s.Complete)
    (hat : ItemAt (order.flatMap AstBlock.items) k it) (hconst : it.opcode ≠ .CONST)
    (hr : r ∈ assignedRegs tf k it.opcode) :
    ∃ b ∈ order, ∃ s ∈ b.emitted, s.operation ≠ .CONST ∧
      ∃ v ∈ dests s, tf.variableEncoding[v.name]? = some r := by
  obtain ⟨before, b, after, off, rfl, hb, rfl⟩ := itemAt_flatMap_cases hat
  have hmem : b ∈ before ++ b :: after := by simp
  rcases itemAt_block_cases hb with rfl | ⟨s, hs, rfl⟩ | ⟨rfl, hne, rfl⟩ | ⟨s, hs, rfl⟩
  · rw [assignedRegs_plain (by decide) (by decide)] at hr
    cases hr
  · have hop : opcodeOf s = .CONST := by simp [opcodeOf, operation_constStatements hs]
    exact absurd hop hconst
  · have hstart : codeSize before + (1 + totalSize (b.constStatements.map stmtItem)) =
        groupStart before b := by
      simp only [groupStart, AstBlock.phiStart]
      omega
    rw [hstart] at hat hr
    have hcells := h.known _ _ hat
    have hcount := hcells _ mem_cons_self
    have hpos : ((groupStart before b : Nat) : Int) + 1 =
        ((groupStart before b + 1 : Nat) : Int) := by
      push_cast
      rfl
    have hpos2 : ((groupStart before b : Nat) : Int) + 2 =
        ((groupStart before b + 2 : Nat) : Int) := by
      push_cast
      rfl
    unfold assignedRegs at hr
    dsimp only at hr
    rw [hpos, hpos2, cellD_of_ok hcount, Int.toNat_natCast] at hr
    have hphis : ∀ s ∈ b.phiStatements, s ∈ b.emitted := fun s hs =>
      mem_append_left _ (mem_append_right _ hs)
    obtain ⟨s, hs, v, hv, henc⟩ := assigned_of_phis
      (fun q hq => hcells q (mem_cons_of_mem _ hq)) (hreg.phi before b after rfl)
      (fun s hs => ⟨operation_phiStatements hs, hcomplete b hmem s (hphis s hs)⟩) hr
    refine ⟨b, hmem, s, hphis s hs, by simp [operation_phiStatements hs], v, ?_, henc⟩
    rwa [dests_of_emitted (hphis s hs)]
  · have hemit : s ∈ b.emitted := mem_append_right _ hs
    have hop := operation_otherStatements hs
    obtain ⟨v, hv, henc⟩ :=
      assigned_of_stmt h hreg hat hop.2 (hcomplete b hmem s hemit) hr
    exact ⟨b, hmem, s, hemit, hop.1, v, by rwa [dests_of_emitted hemit], henc⟩

end

theorem execConst_val {m m' : Machine σ} {ret : Ret} (h : execConst m = .ok (ret, m')) (r : Nat) :
    m'.val r = m.val r := by
  have h := Exec.get_bind h
  obtain ⟨_, m1, hstats, h⟩ := Exec.bind_eq_ok.mp h
  obtain ⟨_, m2, hcount, h⟩ := Exec.bind_eq_ok.mp h
  have hctx : m2.ctx = m.ctx :=
    ((EngineOnly.countIf always_frameInv _ (by simp)).same _ _ _ hcount).2.trans
      ((EngineOnly.modifyStats always_frameInv (by simp)).same _ _ _ hstats).2
  obtain ⟨c, hc, h⟩ := Exec.operand_bind h
  have h := Exec.modify_bind h
  have h := Exec.advance_bind h
  obtain ⟨-, rfl⟩ := Exec.done_eq_ok.mp h
  have hval : m.val r = m2.val r := by
    rw [Machine.val, Machine.reg, ← hctx]
    rfl
  rw [hval, Machine.val_advance, Machine.val, Machine.reg_setReg m2 _ (Machine.operand_lt hc)]
  split
  · next heq =>
    rw [heq]
    rfl
  · rfl

theorem execNot_other {m m' : Machine σ} {ret : Ret} (h : execNot m = .ok (ret, m')) {r : Nat}
    (hr : r ∉ assignedRegs m.ctx.function m.pc .NOT) : m'.reg r = m.reg r := by
  obtain ⟨d, a, hd, -, -, rfl⟩ := execNot_eq_ok.mp h
  have hdest : hasDest .NOT = true := rfl
  rw [assignedRegs_plain (by decide) (by decide), if_pos hdest, toNat_cellD_of_operand hd,
    mem_singleton] at hr
  rw [Machine.reg_advance, Machine.reg_setReg m _ (Machine.operand_lt hd), if_neg hr]

theorem step_unassigned {host : Host σ} {s s' : LoopState σ} {op : TACOp} (h : Step host s s')
    (hop : fetch s.machine = .ok op) {r : Nat}
    (hr : r ∉ assignedRegs s.machine.ctx.function s.machine.pc op) :
    s'.machine.val r = s.machine.val r := by
  by_cases hnot : op = .NOT
  · subst hnot
    obtain ⟨fuel, e, op', ret, m', -, hop', hexec, -, -, -, -, hctx⟩ := step_inv h
    cases hop'.symm.trans hop
    have hreg : m'.reg r = s.machine.reg r := execNot_other hexec hr
    rw [Machine.val, Machine.val, ← hreg, Machine.reg, hctx]
    rfl
  · exact congrArg TACRegister.val ((step_registers h hop hnot r).2 hr)

theorem step_const_val {host : Host σ} {s s' : LoopState σ} (h : Step host s s')
    (hop : fetch s.machine = .ok .CONST) (r : Nat) : s'.machine.val r = s.machine.val r := by
  obtain ⟨fuel, e, op', ret, m', -, hop', hexec, -, -, -, -, hctx⟩ := step_inv h
  cases hop'.symm.trans hop
  have hval : m'.val r = s.machine.val r := execConst_val hexec r
  rw [← hval, Machine.val, Machine.reg, hctx]
  rfl

end EtherVal.Vm
