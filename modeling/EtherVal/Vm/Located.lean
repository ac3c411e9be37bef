import EtherVal.Vm.Constants

/-!
# Functions of a program at run time
-/

namespace EtherVal.Vm
open EtherVal.Lib EtherVal.TacParser
open Exec

variable {σ : Type}

structure CodeOf (prog : TACProgram) (f : AstFunction) (order : List AstBlock) (tf : TACFunction) :
    Prop where
  transform : transformFunction prog.functionEncoding f = .ok tf
  layout : visitOrder f = .ok order

section
variable {prog : TACProgram} {f : AstFunction} {order : List AstBlock} {tf : TACFunction}

theorem CodeOf.transformed (h : CodeOf prog f order tf) : Transformed f order tf := by
  obtain ⟨order', horder, ht⟩ := transformed_visitOrder h.transform
  cases h.layout.symm.trans horder
  exact ht

theorem CodeOf.registered (h : CodeOf prog f order tf) :
    Registered prog.functionEncoding f order tf := by
  obtain ⟨order', horder, hreg⟩ := registered_transformFunction h.transform
  cases h.layout.symm.trans horder
  exact hreg

theorem CodeOf.complete (h : CodeOf prog f order tf) :
    ∀ b ∈ order, ∀ s ∈ b.emitted, s.Complete :=
  complete_transformFunction h.transform h.layout

end

theorem mem_transformFunctions {enc : GoMap GoString Nat} {fs : List AstFunction}
    {done out : List TACFunction} (h : transformFunctions enc fs done = .ok out) {tf : TACFunction}
    (htf : tf ∈ out) : tf ∈ done ∨ ∃ f ∈ fs, transformFunction enc f = .ok tf := by
  induction fs generalizing done with
  | nil =>
    cases h
    exact .inl htf
  | cons f fs ih =>
    obtain ⟨tf', htf', h⟩ := bind_ok h
    obtain ⟨addr, -, h⟩ := bind_ok h
    obtain ⟨idx, -, h⟩ := bind_ok h
    rcases ih h with hdone | ⟨g, hg, hgtf⟩
    · rcases List.mem_or_eq_of_mem_set hdone with hold | rfl
      · exact .inl hold
      · exact .inr ⟨f, List.mem_cons_self, htf'⟩
    · exact .inr ⟨g, List.mem_cons_of_mem f hg, hgtf⟩

theorem functions_codeOf {ast ast' : AstProgram} {prog : TACProgram}
    (hpatch : patchProgram ast = .ok ast') (h : transformProgram ast = .ok prog) {tf : TACFunction}
    (htf : tf ∈ prog.functions) :
    tf.insts = [] ∨ ∃ f ∈ ast'.functions, ∃ order, CodeOf prog f order tf := by
  obtain ⟨a, ha, h⟩ := bind_ok h
  cases hpatch.symm.trans ha
  obtain ⟨enc, -, h⟩ := bind_ok h
  obtain ⟨out, hout, h⟩ := bind_ok h
  split at h
  · cases h
  · cases h
    rcases mem_transformFunctions hout htf with hrep | ⟨f, hf, htransform⟩
    · left
      rw [List.eq_of_mem_replicate hrep]
    · right
      obtain ⟨order, horder, -⟩ := transformed_visitOrder htransform
      exact ⟨f, hf, order, htransform, horder⟩

def ProgramFits (ast : AstProgram) (prog : TACProgram) : Prop :=
  ∀ f ∈ ast.functions, ∀ order, visitOrder f = .ok order →
    CallsFit prog prog.functionEncoding order

def checkFits (ast : AstProgram) (prog : TACProgram) : Bool :=
  ast.functions.all fun f => match visitOrder f with
    | .error _ => true
    | .ok order => (order.flatMap AstBlock.items).all fun it => match it.stmt with
      | none => true
      | some s => s.operation ≠ .CALLPRIVATE ||
          (prog.functions[calleeOf prog.functionEncoding s]?).all fun callee =>
            callee.args.length = passedArgs s

theorem programFits_of_check {ast : AstProgram} {prog : TACProgram}
    (h : checkFits ast prog = true) : ProgramFits ast prog := by
  intro f hf order horder s hs hop callee hcallee
  have hone := List.all_eq_true.mp h f hf
  rw [horder] at hone
  have hitem := List.all_eq_true.mp hone (stmtItem s) hs
  change (decide (s.operation ≠ .CALLPRIVATE) || _) = true at hitem
  rw [hcallee] at hitem
  simpa [hop] using hitem

variable {m m1 : Machine σ} {ctx : TACContext} {dests : List Int} {args : Option (List Word)}

theorem newContext_length {f : TACFunction} (h : newContext f args = .ok ctx) :
    ctx.registers.length = f.numVars := by
  obtain ⟨regs, hargs, hconst, -⟩ := newContext_inv h
  rw [initRegisters_length hconst]
  unfold argRegisters at hargs
  dsimp only at hargs
  split at hargs
  · rw [← Except.ok.inj hargs, List.length_replicate]
  · cases args with
    | none =>
      dsimp only at hargs
      split at hargs
      · rw [← Except.ok.inj hargs, List.length_replicate]
      · cases hargs
    | some a => rw [initRegisters_length hargs, List.length_replicate]

structure Within (program : TACProgram) (f : AstFunction) (order : List AstBlock)
    (tf : TACFunction) (m : Machine σ) : Prop extends OnCode program order tf m where
  code : CodeOf program f order tf
  registers : m.ctx.registers.length = tf.numVars

def Located (ast : AstProgram) (prog : TACProgram) (m : Machine σ) : Prop :=
  ∃ f ∈ ast.functions, ∃ order tf, Within prog f order tf m

section
variable {ast ast' : AstProgram} {prog : TACProgram} {f : AstFunction} {order : List AstBlock}
  {tf : TACFunction} {host : Host σ}

theorem within_startLoop (hcode : CodeOf prog f order tf) (hctx : newContext tf args = .ok ctx)
    (buffer : Option (List Word)) {e : TACInterpreter σ} (he : RunsProg prog e) :
    Within prog f order tf (startLoop { ctx with prevReturnData := buffer } e).machine where
  function := (newContext_inv hctx).choose_spec.2.2
  prog := he
  boundary := atBoundary_zero hcode.transformed
  code := hcode
  registers := by
    have hlen := newContext_length hctx
    exact hlen

theorem Within.step {st st' : LoopState σ}
    (hfit : FitsAt prog prog.functionEncoding order st.machine.pc)
    (hhost : CallReturns (RunsProg prog) host) (h : Within prog f order tf st.machine)
    (hstep : Step host st st') :
    Within prog f order tf st'.machine where
  toOnCode := h.toOnCode.step h.code.transformed h.code.registered hfit hhost hstep
  code := h.code
  registers := (step_frame hstep).2.1.trans h.registers

variable {op : TACOp} {s : LoopState σ}

theorem Begins.pc_eq (h : Begins host s op m) :
    m.pc = s.machine.pc := by
  obtain ⟨s', hhead, rfl⟩ := h.passes
  obtain ⟨⟨e, -, hm⟩, -⟩ := roundHead_inv hhead
  change s'.machine.pc = _
  rw [hm]

theorem Within.begins (h : Within prog f order tf s.machine) (hb : Begins host s op m) :
    Within prog f order tf m where
  function := by rw [hb.ctx_eq, h.function]
  prog := (ledgerInv_runsProg prog) _ _ hb.sameFrames.interpreter hb.sameFrames.frames h.prog
  boundary := by
    rw [hb.pc_eq]
    exact h.boundary
  code := h.code
  registers := by rw [hb.ctx_eq, h.registers]

theorem Within.item (h : Within prog f order tf m) (hlt : m.pc < m.ctx.function.insts.length)
    (hfetch : fetch m = .ok op) :
    ∃ k : Nat, m.pc = k ∧ ∃ it, ItemAt (order.flatMap AstBlock.items) k it ∧ it.opcode = op := by
  obtain ⟨k, hpc, ⟨it, hat⟩ | hend⟩ := h.boundary
  · have hop := (fetch_item h.code.transformed hat h.function hpc).symm.trans hfetch
    exact ⟨k, hpc, it, hat, Except.ok.inj hop⟩
  · have hlen : (tf.insts.length : Int) = codeSize order := h.code.transformed.length
    rw [h.function, hlen, hpc, hend] at hlt
    exact absurd hlt (lt_irrefl _)

structure CallAt (order : List AstBlock) (k : Nat) (s : AstStatement) : Prop where
  item : ItemAt (order.flatMap AstBlock.items) k (stmtItem s)
  operation : s.operation = .CALLPRIVATE
  complete : s.Complete

theorem Within.callAt (h : Within prog f order tf m) (hlt : m.pc < m.ctx.function.insts.length)
    (hfetch : fetch m = .ok .CALLPRIVATE) :
    ∃ k : Nat, m.pc = k ∧ ∃ s, CallAt order k s := by
  obtain ⟨k, hpc, it, hat, hop⟩ := h.item hlt hfetch
  obtain ⟨b, hb, hmem⟩ := List.mem_flatMap.mp hat.mem
  obtain ⟨s, rfl⟩ := stmt_of_opcode hat (by rw [hop]; decide) (by rw [hop]; decide)
  refine ⟨k, hpc, s, hat, opcodeOf_eq_callprivate hop, ?_⟩
  rcases mem_items_cases hmem with heq | ⟨t, heq, ht⟩ | heq
  · cases congrArg Item.stmt heq
  · cases congrArg Item.stmt heq
    apply h.code.complete b hb s
    simp only [AstBlock.emitted, List.mem_append]
    tauto
  · cases congrArg Item.stmt heq

theorem CallAt.count {k : Nat} {s : AstStatement} (h : CallAt order k s)
    (hcode : CodeOf prog f order tf) : cellD tf (k + 1) = (s.numAssignee : Int) := by
  have hknown := hcode.transformed.known k _ h.item (1, s.numAssignee)
    (by simp [stmtItem, stmtKnown, h.operation])
  exact cellD_of_ok hknown

theorem Enters.destsExist {target : TACFunction} {n : Nat}
    (henters : Enters m target n ctx dests m1) (h : Within prog f order tf m) {k : Nat}
    (hpc : m.pc = k) {s : AstStatement} (hs : CallAt order k s) (fuel : Nat) :
    Activation.DestsExist (⟨fuel, ctx, m1, dests⟩ : Activation σ) := by
  have hcount : (n : Int) = s.numAssignee := by
    rw [← henters.count, h.function, hpc, hs.count h.code]
  intro d hd
  change d ∈ dests at hd
  rw [henters.dests, h.function, hpc] at hd
  obtain ⟨i, hi, rfl⟩ := mem_cellsFrom hd
  obtain ⟨v, q, -, hq, hcell⟩ := dest_cell h.code.registered hs.item hs.operation hs.complete
    (i := i) (by omega)
  refine ⟨q, Machine.getVar_eq_ok.mpr ⟨hcell, ?_⟩⟩
  change q < m1.ctx.registers.length
  rw [henters.ctx, h.registers]
  exact h.code.registered.table.lt _ _ hq

theorem Enters.located (hpatch : patchProgram ast = .ok ast')
    (hprog : transformProgram ast = .ok prog) {target : TACFunction} {n : Nat}
    (henters : Enters m target n ctx dests m1) (hm : RunsProg prog m.engine)
    (hcode : target.insts ≠ []) :
    Located ast' prog (startLoop ctx m1.engine).machine := by
  have hmem : target ∈ prog.functions := by
    have hcallee := henters.callee
    unfold calleeAt at hcallee
    unfold RunsProg at hm
    obtain ⟨frame, hframe, hget⟩ := Option.bind_eq_some_iff.mp hcallee
    rw [hframe] at hm
    rw [← Option.some.inj hm]
    exact List.mem_of_getElem? hget
  obtain ⟨f, hf, order, hfcode⟩ := (functions_codeOf hpatch hprog hmem).resolve_left hcode
  obtain ⟨fresh, hfresh, rfl⟩ := henters.created
  refine ⟨f, hf, order, target, within_startLoop hfcode hfresh _ ?_⟩
  rw [henters.engine]
  exact hm

variable {path : List (Activation σ)}
variable {left fuel : Nat}

theorem Executes.pc_lt (h : Executes host op m left fuel s path) :
    s.machine.pc < s.machine.ctx.function.insts.length := by
  cases h with
  | now hpc _ => exact hpc
  | later hpc _ _ => exact hpc
  | inside hpc _ _ _ => exact hpc

theorem Executes.machine_pc_lt (h : Executes host op m left fuel s path) :
    m.pc < m.ctx.function.insts.length := by
  induction h with
  | now hpc hb =>
    rw [hb.pc_eq, hb.ctx_eq]
    exact hpc
  | later _ _ _ ih => exact ih
  | inside _ _ _ _ ih => exact ih

theorem Executes.fetches (h : Executes host op m left fuel s path) :
    fetch m = .ok op := by
  induction h with
  | now _ hb => exact hb.fetches
  | later _ _ _ ih => exact ih
  | inside _ _ _ _ ih => exact ih

/-- The executed private calls pass as many arguments as their callees declare. -/
def ArgsFit (ast : AstProgram) (prog : TACProgram) (host : Host σ) (fuel : Nat) (s : LoopState σ) :
    Prop :=
  ∀ op m left path, Executes host op m left fuel s path → ∀ f ∈ ast.functions, ∀ order,
    CodeOf prog f order m.ctx.function → FitsAt prog prog.functionEncoding order m.pc

theorem ProgramFits.argsFit (h : ProgramFits ast prog) (host : Host σ) (fuel : Nat)
    (s : LoopState σ) : ArgsFit ast prog host fuel s :=
  fun _ m _ _ _ f hf order hcode => (h f hf order hcode.layout).fitsAt m.pc

theorem round_next_begins {run : Runner σ} {s' : LoopState σ}
    (h : round host run s = .ok (.next s')) : ∃ op m, Begins host s op m := by
  rcases round_cases host run s with ⟨_, -, heq⟩ | ⟨_, _, -, heq⟩ | ⟨_, _, -, heq⟩ | hb
  · cases heq.symm.trans h
  · cases heq.symm.trans h
  · cases heq.symm.trans h
  · exact hb

theorem ArgsFit.here (h : ArgsFit ast prog host (fuel + 1) s)
    (hpc : s.machine.pc < s.machine.ctx.function.insts.length) (hb : Begins host s op m)
    (hf : f ∈ ast.functions) (hin : Within prog f order tf s.machine) :
    FitsAt prog prog.functionEncoding order s.machine.pc := by
  rw [← hb.pc_eq]
  refine h op m fuel [] (.now hpc hb) f hf order ?_
  rw [hb.ctx_eq, hin.function]
  exact hin.code

/-- Every instruction a run comes to belongs to a function of the program, and the destinations
of the private calls around it are registers. -/
theorem Executes.located (hpatch : patchProgram ast = .ok ast')
    (hprog : transformProgram ast = .ok prog) (hfits : ArgsFit ast' prog host fuel s)
    (hhost : CallReturns (RunsProg prog) host) (h : Executes host op m left fuel s path)
    (hs : Located ast' prog s.machine) :
    Located ast' prog m ∧ ∀ a ∈ path, a.DestsExist := by
  induction h with
  | now hpc hb =>
    obtain ⟨f, hf, order, tf, hin⟩ := hs
    exact ⟨⟨f, hf, order, tf, hin.begins hb⟩, by simp⟩
  | @later fuel s s' path hpc hr h ih =>
    obtain ⟨f, hf, order, tf, hin⟩ := hs
    obtain ⟨op', m', hb⟩ := round_next_begins hr
    exact ih (fun _ _ _ _ hx => hfits _ _ _ _ (.later hpc hr hx))
      ⟨f, hf, order, tf, hin.step (hfits.here hpc hb hf hin) hhost ⟨hpc, fuel, hr⟩⟩
  | @inside fuel s m0 m1 ctx dests path hpc hb he h ih =>
    obtain ⟨f, hf, order, tf, hin⟩ := hs
    have hin0 := hin.begins hb
    have hlt0 : m0.pc < m0.ctx.function.insts.length := by
      rw [hb.pc_eq, hb.ctx_eq]
      exact hpc
    obtain ⟨target, n, henters⟩ := enterPrivate_inv he
    obtain ⟨k, hk, stmt, hcall⟩ := hin0.callAt hlt0 hb.fetches
    have hcode : target.insts ≠ [] := by
      intro hnil
      obtain ⟨fresh, hfresh, rfl⟩ := henters.created
      have hlt := h.pc_lt
      have hfun : fresh.function = target := (newContext_inv hfresh).choose_spec.2.2
      change (0 : Int) < (fresh.function.insts.length : Int) at hlt
      rw [hfun, hnil] at hlt
      exact absurd hlt (lt_irrefl _)
    obtain ⟨hlast, hpath⟩ := ih (fun _ _ _ _ hx => hfits _ _ _ _ (.inside hpc hb he hx))
      (henters.located hpatch hprog hin0.prog hcode)
    refine ⟨hlast, fun a ha => ?_⟩
    rcases List.mem_cons.mp ha with rfl | ha
    · exact henters.destsExist hin0 hk hcall fuel
    · exact hpath a ha

end

end EtherVal.Vm
