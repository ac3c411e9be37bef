import EtherVal.TacParser.Registers
import EtherVal.Vm.Fallthrough
import EtherVal.Vm.OnTop

/-!
# Instruction boundaries
-/

namespace EtherVal.Vm
open EtherVal.Lib EtherVal.TacParser

variable {σ : Type}
variable {prog : TACProgram}

theorem itemAt_next {items : List Item} {k : Nat} {it : Item} (h : ItemAt items k it) :
    (∃ it', ItemAt items (k + it.size) it') ∨ k + it.size = totalSize items := by
  obtain ⟨before, after, rfl, rfl⟩ := h
  cases after with
  | nil =>
    right
    simp
  | cons it' after =>
    left
    exact ⟨it', before ++ [it], after, by simp, by simp⟩

def AtBoundary (order : List AstBlock) (pc : Int) : Prop :=
  ∃ k : Nat, pc = k ∧
    ((∃ it, ItemAt (order.flatMap AstBlock.items) k it) ∨ k = codeSize order)

theorem atBoundary_behind {order : List AstBlock} {k : Nat} {it : Item}
    (h : ItemAt (order.flatMap AstBlock.items) k it) :
    AtBoundary order ((k + it.size : Nat) : Int) :=
  ⟨_, rfl, itemAt_next h⟩

theorem atBoundary_of_placed {f : AstFunction} {order : List AstBlock} {tf : TACFunction}
    (h : Transformed f order tf) {q : Int}
    (hq : ∃ name : GoString, tf.blockByName[name]? = some q) : AtBoundary order q := by
  obtain ⟨name, hname⟩ := hq
  obtain ⟨k, rfl, hat⟩ := Transformed.itemAt_of_placed h hname
  exact ⟨k, rfl, .inl ⟨_, hat⟩⟩

def CallsFit (prog : TACProgram) (enc : GoMap GoString Nat) (order : List AstBlock) : Prop :=
  ∀ s, stmtItem s ∈ order.flatMap AstBlock.items → s.operation = .CALLPRIVATE →
    ∀ callee, prog.functions[calleeOf enc s]? = some callee → callee.args.length = passedArgs s

/-- A private call at `pc` passes as many arguments as its callee declares. -/
def FitsAt (prog : TACProgram) (enc : GoMap GoString Nat) (order : List AstBlock) (pc : Int) :
    Prop :=
  ∀ (k : Nat) s, pc = k → ItemAt (order.flatMap AstBlock.items) k (stmtItem s) →
    s.operation = .CALLPRIVATE →
    ∀ callee, prog.functions[calleeOf enc s]? = some callee → callee.args.length = passedArgs s

section
variable {enc : GoMap GoString Nat} {f : AstFunction} {order : List AstBlock} {tf : TACFunction}
  {k : Nat} {it : Item} {m m' : Machine σ} {ret : Ret}

theorem CallsFit.fitsAt (h : CallsFit prog enc order) (pc : Int) :
    FitsAt prog enc order pc :=
  fun _ s _ hat hop => h s hat.mem hop

theorem stmt_of_opcode (hat : ItemAt (order.flatMap AstBlock.items) k it)
    (hflag : it.opcode ≠ .BLOCK_FLAG) (hphi : it.opcode ≠ .PHI_START) : ∃ s, it = stmtItem s := by
  obtain ⟨b, -, hb⟩ := List.mem_flatMap.mp hat.mem
  rcases mem_items_cases hb with rfl | ⟨s, rfl, -⟩ | rfl
  · exact absurd rfl hflag
  · exact ⟨s, rfl⟩
  · exact absurd rfl hphi

variable {s : AstStatement}

theorem calleeAt_item (h : Transformed f order tf) (hreg : Registered enc f order tf)
    (hat : ItemAt (order.flatMap AstBlock.items) k (stmtItem s)) (hm : m.ctx.function = tf)
    (hpc : m.pc = k) (hop : s.operation = .CALLPRIVATE) (hprog : RunsProg prog m.engine) :
    calleeAt m = prog.functions[calleeOf enc s]? := by
  have hcount := h.known k _ hat (1, s.numAssignee) (by simp [stmtItem, stmtKnown, hop])
  have hcallee := hreg.fact k s hat (k + 2 + s.numAssignee, (calleeOf enc s : Int))
    (by simp [stmtFacts, hop])
  have hpos1 : m.pc + 1 = ((k + 1 : Nat) : Int) := by rw [hpc]; rfl
  have hpos2 : m.pc + 2 + (s.numAssignee : Int) = ((k + 2 + s.numAssignee : Nat) : Int) := by
    rw [hpc]
    push_cast
    ring
  unfold RunsProg at hprog
  unfold calleeAt
  cases hf : m.engine.frames.head? with
  | none =>
    rw [hf] at hprog
    cases hprog
  | some frame =>
    rw [hf] at hprog
    cases hprog
    rw [Option.bind_some, hm, hpos1, cellD_of_ok hcount, hpos2, cellD_of_ok hcallee,
      Int.toNat_natCast]

theorem constJump_placed (h : Transformed f order tf)
    (hat : ItemAt (order.flatMap AstBlock.items) k (stmtItem s)) (hm : m.ctx.function = tf)
    (hpc : m.pc = k) (hop : opcodeOf s = .JUMP ∨ opcodeOf s = .JUMPI) {q : Int}
    (hinst : m.inst 1 = .ok q) (hne : q ≠ -1) :
    ∃ name : GoString, tf.blockByName[name]? = some q := by
  obtain ⟨block, arg, rest, -, -, hcell⟩ := h.constJump k s hat hop
  have hdest : resolveJump tf block.successor arg.val = q := by
    rw [Machine.inst, hm, hpc, hcell] at hinst
    exact Except.ok.inj hinst
  exact h.resolveJump_placed hdest hne

theorem varJump_placed (h : Transformed f order tf)
    (hat : ItemAt (order.flatMap AstBlock.items) k (stmtItem s)) (hm : m.ctx.function = tf)
    (hpc : m.pc = k) (hop : opcodeOf s = .JUMP_VAR ∨ opcodeOf s = .JUMPI_VAR) {m1 : Machine σ}
    {v : Word} (hpc1 : m1.pc = m.pc) (hctx1 : m1.ctx = m.ctx)
    (hexec : jumpToValue v m1 = .ok (ret, m')) (hret : ret.2 = none) :
    ∃ name : GoString, tf.blockByName[name]? = some m'.pc := by
  obtain ⟨block, -, -, hnoted⟩ := h.varJump k s hat hop
  have hnoted1 : tf.uniqueJumpVarSucc[m1.pc]? = some (uniqueAddrs block.successor) := by
    rw [hpc1, hpc, hnoted]
  have hm1 : m1.ctx.function = tf := by rw [hctx1, hm]
  exact jumpToValue_placed h hm1 hnoted1 hexec hret

theorem behind_three (hpc : m.pc = k) (hop : opcodeOf s = .JUMPI ∨ opcodeOf s = .JUMPI_VAR) :
    m.pc + 3 = ((k + (stmtItem s).size : Nat) : Int) := by
  have hsize : (stmtItem s).size = 3 := by
    rcases hop with hop | hop <;>
      exact (stmtSize_eq (by rw [hop]; decide) (by rw [hop]; decide)).trans (by rw [hop]; rfl)
  rw [hpc, hsize]
  push_cast
  rfl

theorem callprivate_behind (h : Transformed f order tf) (hreg : Registered enc f order tf)
    (hfit : FitsAt prog enc order m.pc) (hat : ItemAt (order.flatMap AstBlock.items) k (stmtItem s))
    (hm : m.ctx.function = tf) (hpc : m.pc = k) (hop : s.operation = .CALLPRIVATE)
    (hprog : RunsProg prog m.engine) {run : Runner σ}
    (hexec : execCallprivate run m = .ok (ret, m')) :
    m'.pc = ((k + (stmtItem s).size : Nat) : Int) := by
  obtain ⟨target, htarget, hnext⟩ := execCallprivate_inv hexec
  rw [calleeAt_item h hreg hat hm hpc hop hprog] at htarget
  have harity := hfit k s hpc hat hop target htarget
  have hcount := h.known k _ hat (1, s.numAssignee) (by simp [stmtItem, stmtKnown, hop])
  have hpos : m.pc + 1 = ((k + 1 : Nat) : Int) := by rw [hpc]; rfl
  have hsize : (stmtItem s).size = 3 + s.numAssignee + passedArgs s := by
    simp [stmtItem, stmtSize, hop]
  rw [hnext, hm, hpos, cellD_of_ok hcount, hpc, hsize, ← harity]
  push_cast
  ring

variable {prog : TACProgram} {host : Host σ} {st st' : LoopState σ}

def closes : TACOp → Bool
  | .JUMP | .JUMP_VAR | .RETURNPRIVATE | .REVERT | .ILLPHI | .THROW | .STOP | .SELFDESTRUCT
  | .RETURN => true
  | _ => false

theorem not_next_of_advances {x : Exec σ Ret} (hx : ∀ k, Advances Always k x)
    (hexec : x m = .ok (ret, m'))
    (hret : ret.2 = none) : False := by
  have h0 := pc_of_advances (hx 0) hexec hret
  have h1 := pc_of_advances (hx 1) hexec hret
  omega

theorem step_lands (h : Transformed f order tf) (hreg : Registered enc f order tf)
    (hfit : FitsAt prog enc order st.machine.pc) (hm : st.machine.ctx.function = tf)
    (hprog : RunsProg prog st.machine.engine) (hpc : st.machine.pc = k)
    (hat : ItemAt (order.flatMap AstBlock.items) k it) (hstep : Step host st st') :
    (∃ name : GoString, tf.blockByName[name]? = some st'.machine.pc) ∨
      (st'.machine.pc = ((k + it.size : Nat) : Int) ∧ closes it.opcode = false ∧
        (isConditional it.opcode = true → NotTaken st.machine)) := by
  have hfetch := fetch_item h hat hm hpc
  obtain ⟨fuel, e, op, ret, m', hframes, hop, hexec, hnone, hhalts, hstop, hpc', -⟩ :=
    step_inv hstep
  cases hfetch.symm.trans hop
  rw [hpc']
  -- the four jumps read their destinations from the code or from the tables
  by_cases hjump : it.opcode = .JUMP
  · obtain ⟨s, rfl⟩ := stmt_of_opcode hat (by simp [hjump]) (by simp [hjump])
    rw [hjump] at hexec
    obtain ⟨hinst, hne⟩ := execJump_inv hexec hnone
    exact .inl (constJump_placed h hat hm hpc (.inl hjump) hinst hne)
  by_cases hjumpi : it.opcode = .JUMPI
  · obtain ⟨s, rfl⟩ := stmt_of_opcode hat (by simp [hjumpi]) (by simp [hjumpi])
    rw [hjumpi] at hexec
    rcases execJumpi_inv hexec hnone with ⟨hzero, hnext⟩ | ⟨-, hinst, hne⟩
    · rw [hnext, hjumpi]
      exact .inr ⟨behind_three hpc (.inl hjumpi), rfl, fun _ => hzero⟩
    · exact .inl (constJump_placed h hat hm hpc (.inr hjumpi) hinst hne)
  by_cases hvar : it.opcode = .JUMP_VAR
  · obtain ⟨s, rfl⟩ := stmt_of_opcode hat (by simp [hvar]) (by simp [hvar])
    rw [hvar] at hexec
    obtain ⟨m1, v, hpc1, hctx1, hgo⟩ := execJumpVar_inv hexec
    exact .inl (varJump_placed h hat hm hpc (.inl hvar) hpc1 hctx1 hgo hnone)
  by_cases hivar : it.opcode = .JUMPI_VAR
  · obtain ⟨s, rfl⟩ := stmt_of_opcode hat (by simp [hivar]) (by simp [hivar])
    rw [hivar] at hexec
    rcases execJumpiVar_inv hexec with ⟨hzero, hnext⟩ | ⟨-, m1, v, hpc1, hctx1, hgo⟩
    · rw [hnext, hivar]
      exact .inr ⟨behind_three hpc (.inr hivar), rfl, fun _ => hzero⟩
    · exact .inl (varJump_placed h hat hm hpc (.inr hivar) hpc1 hctx1 hgo hnone)
  by_cases hcall : it.opcode = .CALLPRIVATE
  · obtain ⟨s, rfl⟩ := stmt_of_opcode hat (by simp [hcall]) (by simp [hcall])
    have hcallop := opcodeOf_eq_callprivate hcall
    have hprog' : RunsProg prog e := by
      unfold RunsProg at hprog ⊢
      rw [← hprog, ← hframes]
    rw [hcall] at hexec ⊢
    exact .inr ⟨callprivate_behind h hreg hfit hat (m := { st.machine with engine := e }) hm hpc
      hcallop hprog' hexec, rfl, fun hc => absurd hc (by decide)⟩
  · right
    have hret : it.opcode ≠ .RETURNPRIVATE := by
      intro hret
      rw [hret] at hexec
      exact absurd ((execReturnprivate_stops hexec).symm.trans hstop) (by decide)
    have hrevert : it.opcode ≠ .REVERT := by
      intro hrevert
      rw [hrevert] at hexec
      exact not_next_of_advances (advances_execRevert always_frameInv) hexec hnone
    have hillphi : it.opcode ≠ .ILLPHI := by
      intro hillphi
      rw [hillphi] at hexec
      exact not_next_of_advances (Advances.fail _) hexec hnone
    have hcond : isConditional it.opcode = true → NotTaken st.machine := by
      intro hc
      simp [isConditional, hjumpi, hivar] at hc
    have hnext := step_pc hstep hfetch ⟨hjump, hvar⟩ hcond
    obtain ⟨b, -, hb⟩ := List.mem_flatMap.mp hat.mem
    rw [← hpc', hnext, nextPc_item h hat hb hm hpc hcall hret]
    refine ⟨rfl, ?_, hcond⟩
    clear hexec hop hfetch hcond hnext
    cases hopcode : it.opcode <;> simp_all [closes, operation]

theorem step_atBoundary (h : Transformed f order tf) (hreg : Registered enc f order tf)
    (hfit : FitsAt prog enc order st.machine.pc) (hm : st.machine.ctx.function = tf)
    (hprog : RunsProg prog st.machine.engine) (hat : AtBoundary order st.machine.pc)
    (hstep : Step host st st') : AtBoundary order st'.machine.pc := by
  obtain ⟨k, hpc, ⟨it, hitem⟩ | hend⟩ := hat
  · rcases step_lands h hreg hfit hm hprog hpc hitem hstep with hplaced | ⟨hnext, -⟩
    · exact atBoundary_of_placed h hplaced
    · rw [hnext]
      exact atBoundary_behind hitem
  · have hlt := hstep.1
    have hlen : (tf.insts.length : Int) = codeSize order := h.length
    rw [hm, hlen, hpc, hend] at hlt
    exact absurd hlt (lt_irrefl _)

structure OnCode (prog : TACProgram) (order : List AstBlock) (tf : TACFunction)
    (m : Machine σ) : Prop where
  function : m.ctx.function = tf
  prog : RunsProg prog m.engine
  boundary : AtBoundary order m.pc

theorem OnCode.step (h : Transformed f order tf) (hreg : Registered enc f order tf)
    (hfit : FitsAt prog enc order st.machine.pc) (hhost : CallReturns (RunsProg prog) host)
    (hon : OnCode prog order tf st.machine) (hstep : Step host st st') :
    OnCode prog order tf st'.machine where
  function := (step_frame hstep).1.trans hon.function
  prog := RunsProg.step hhost hstep hon.prog
  boundary := step_atBoundary h hreg hfit hon.function hon.prog hon.boundary hstep

theorem itemAt_zero (h : Transformed f order tf) :
    ∃ it, ItemAt (order.flatMap AstBlock.items) 0 it := by
  have hplaced : ∃ name : GoString, tf.blockByName[name]? = some 0 := by
    have hget := h.getD_placed []
    cases hp : tf.blockByName[([] : GoString)]? with
    | none =>
      rw [hp] at hget
      exact hget
    | some p =>
      exact absurd (h.hexNames _ _ hp) (by decide)
  obtain ⟨name, hname⟩ := hplaced
  obtain ⟨k, hk, hat⟩ := Transformed.itemAt_of_placed h hname
  obtain rfl : k = 0 := by omega
  exact ⟨_, hat⟩

theorem atBoundary_zero (h : Transformed f order tf) : AtBoundary order 0 :=
  ⟨0, rfl, .inl (itemAt_zero h)⟩

end

end EtherVal.Vm
