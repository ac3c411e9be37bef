import EtherVal.Vm.Destinations

/-!
# Values of constants
-/

namespace EtherVal.Vm
open EtherVal.Lib EtherVal.TacParser List

variable {σ : Type}
variable {ctx : TACContext} {args : Option (List Word)} {regs : List TACRegister}

def TACContext.Holds (ctx : TACContext) (r : Nat) (w : Word) : Prop :=
  ctx.registers[r]?.map TACRegister.val = some w

theorem holds_iff {r : Nat} {w : Word} :
    ctx.Holds r w ↔ r < ctx.registers.length ∧ (ctx.registers.getD r {}).val = w := by
  unfold TACContext.Holds
  rw [getD_eq_getElem?_getD]
  by_cases hr : r < ctx.registers.length
  · simp [hr]
  · simp [hr]

section
variable {l : List (Nat × Word)} {regs regs' : List TACRegister} {r : Nat} {w : Word}

theorem initRegisters_ok (h : ∀ p ∈ l, p.1 < regs.length) :
    ∃ regs', initRegisters l regs = .ok regs' := by
  induction l generalizing regs with
  | nil => exact ⟨regs, rfl⟩
  | cons p l ih =>
    have hp := h p mem_cons_self
    simp only [initRegisters, getElem?_eq_getElem hp]
    apply ih
    intro q hq
    rw [length_set]
    exact h q (mem_cons_of_mem p hq)

theorem initRegisters_value (h : initRegisters l regs = .ok regs')
    (hall : ∀ p ∈ l, p.1 = r → p.2 = w)
    (hsome : (∃ p ∈ l, p.1 = r) ∨ regs[r]?.map TACRegister.val = some w) :
    regs'[r]?.map TACRegister.val = some w := by
  induction l generalizing regs with
  | nil =>
    cases h
    rcases hsome with ⟨p, hp, -⟩ | hsome
    · cases hp
    · exact hsome
  | cons p l ih =>
    simp only [initRegisters] at h
    cases hreg : regs[p.1]? with
    | none =>
      rw [hreg] at h
      cases h
    | some old =>
      rw [hreg] at h
      have hlt : p.1 < regs.length := (List.getElem?_eq_some_iff.mp hreg).1
      refine ih h (fun q hq => hall q (mem_cons_of_mem p hq)) ?_
      by_cases hp : p.1 = r
      · right
        subst hp
        rw [getElem?_set_self hlt, Option.map_some, hall p mem_cons_self rfl]
      · rcases hsome with ⟨q, hq, hqr⟩ | hsome
        · rcases mem_cons.mp hq with rfl | hq
          · exact absurd hqr hp
          · exact .inl ⟨q, hq, hqr⟩
        · right
          rwa [getElem?_set_ne hp]

end

section
variable {enc : GoMap GoString Nat} {f : AstFunction} {order : List AstBlock} {tf : TACFunction}
  {name : GoString} {r : Nat} {w : Word}

structure IntroducedWith (f : AstFunction) (order : List AstBlock) (name : GoString) (w : Word) :
    Prop where
  notParam : name ∉ f.args.map paramName
  first : ∃ v, introducer (occurrences f order) name = some v ∧
    (v.typ = .CONSTANT → v.constant = some w) ∧ (v.typ = .VARIABLE → w = 0)

theorem mem_args_iff (hreg : Registered enc f order tf) (hr : tf.variableEncoding[name]? = some r) :
    r ∈ tf.args ↔ name ∈ f.args.map paramName := by
  have hargs := hreg.args
  unfold RegistersOf at hargs
  constructor
  · intro hmem
    have hin : some r ∈ tf.args.map some := mem_map_of_mem hmem
    rw [hargs] at hin
    obtain ⟨n, hn, henc⟩ := mem_map.mp hin
    rwa [hreg.table.inj name n r hr henc]
  · intro hmem
    have hin : tf.variableEncoding[name]? ∈ (f.args.map paramName).map
        fun n => tf.variableEncoding[n]? := mem_map_of_mem hmem
    rw [← hargs, hr] at hin
    obtain ⟨i, hi, heq⟩ := mem_map.mp hin
    rwa [← Option.some.inj heq]

theorem constSym_value (hreg : Registered enc f order tf)
    (hr : tf.variableEncoding[name]? = some r) {v : AstVariable}
    (hv : introducer (occurrences f order) name = some v) {c : ConstSymPair}
    (hc : c ∈ tf.constSym) (hindex : c.index = r) : v.constant = some c.value := by
  obtain ⟨u, hu, -, hval, henc⟩ := hreg.table.value c hc
  have hname : u.name = name := hreg.table.inj _ _ r (hindex ▸ henc) hr
  rw [hname, hv] at hu
  rw [Option.some.inj hu, hval]

theorem introducer_param (order : List AstBlock) (hmem : name ∈ f.args.map paramName) :
    ∃ v, introducer (occurrences f order) name = some v ∧ v.typ = .VARIABLE := by
  have hin : ∃ v ∈ f.params, v.name = name := by
    obtain ⟨arg, harg, hname⟩ := mem_map.mp hmem
    exact ⟨_, mem_map_of_mem harg, hname⟩
  rw [occurrences, introducer_append_of_mem hin]
  obtain ⟨v, hv⟩ : ∃ v, introducer f.params name = some v := by
    obtain ⟨u, hu, hn⟩ := hin
    have hsome : (f.params.find? fun v => v.name = name).isSome := by
      rw [find?_isSome]
      exact ⟨u, hu, by simpa using hn⟩
    exact Option.isSome_iff_exists.mp hsome
  refine ⟨v, hv, ?_⟩
  obtain ⟨arg, -, rfl⟩ := mem_map.mp (introducer_eq_some hv).1
  rfl

theorem newContext_inv (h : newContext tf args = .ok ctx) :
    ∃ regs, argRegisters tf args = .ok regs ∧
      initRegisters (tf.constSym.map fun sym => (sym.index, sym.value)) regs = .ok ctx.registers ∧
      ctx.function = tf := by
  unfold newContext at h
  split at h
  · cases h
  · obtain ⟨regs, hargs, h⟩ := bind_ok h
    obtain ⟨regs', hconst, h⟩ := bind_ok h
    cases h
    exact ⟨regs, hargs, hconst, rfl⟩

theorem argRegisters_zero (h : argRegisters tf args = .ok regs) (hr : r < tf.numVars)
    (hnot : r ∉ tf.args) :
    regs[r]?.map TACRegister.val = some 0 := by
  have hzero : (List.replicate tf.numVars ({} : TACRegister))[r]?.map TACRegister.val = some 0 := by
    rw [getElem?_replicate, if_pos hr]
    rfl
  unfold argRegisters at h
  dsimp only at h
  split at h
  · rw [← Except.ok.inj h]
    exact hzero
  · cases args with
    | none =>
      dsimp only at h
      split at h
      · rw [← Except.ok.inj h]
        exact hzero
      · cases h
    | some a =>
      refine initRegisters_value h (fun p hp hpr => ?_) (.inr hzero)
      have hmem := (of_mem_zip (show (p.1, p.2) ∈ tf.args.zip a from hp)).1
      exact absurd (hpr ▸ hmem) hnot

theorem constants_value (hreg : Registered enc f order tf)
    (hr : tf.variableEncoding[name]? = some r) {v : AstVariable}
    (hv : introducer (occurrences f order) name = some v) {regs' : List TACRegister}
    (h : initRegisters (tf.constSym.map fun sym => (sym.index, sym.value)) regs = .ok regs')
    {u : Word} (hu : regs[r]?.map TACRegister.val = some u) :
    regs'[r]?.map TACRegister.val = if v.typ = .CONSTANT then v.constant else some u := by
  have hsym := hreg.table.const name r hr
  rw [introducedAs, hv, Option.map_some, Option.some.injEq] at hsym
  by_cases htyp : v.typ = .CONSTANT
  · obtain ⟨c, hc, hci⟩ := hsym.mpr htyp
    have hval := constSym_value hreg hr hv hc hci
    rw [if_pos htyp, hval]
    refine initRegisters_value h ?_ (.inl ⟨_, mem_map_of_mem hc, hci⟩)
    intro p hp hpr
    obtain ⟨d, hd, rfl⟩ := mem_map.mp hp
    have hother := constSym_value hreg hr hv hd hpr
    rw [hval] at hother
    exact (Option.some.inj hother).symm
  · rw [if_neg htyp]
    refine initRegisters_value h ?_ (.inr hu)
    intro p hp hpr
    obtain ⟨d, hd, rfl⟩ := mem_map.mp hp
    exact absurd (hsym.mp ⟨d, hd, hpr⟩) htyp

theorem introducedWith_created (hreg : Registered enc f order tf)
    (hr : tf.variableEncoding[name]? = some r) (hintro : IntroducedWith f order name w)
    (h : newContext tf args = .ok ctx) :
    ctx.Holds r w := by
  obtain ⟨regs, hargs, hconst, -⟩ := newContext_inv h
  obtain ⟨v, hv, hconstant, hvariable⟩ := hintro.first
  have hnot : r ∉ tf.args := fun hmem => hintro.notParam ((mem_args_iff hreg hr).mp hmem)
  have hzero := argRegisters_zero hargs (hreg.table.lt name r hr) hnot
  unfold TACContext.Holds
  rw [constants_value hreg hr hv hconst hzero]
  cases ht : v.typ with
  | CONSTANT => rw [if_pos rfl, hconstant ht]
  | VARIABLE => rw [if_neg (by decide), hvariable ht]

theorem initRegisters_length {l : List (Nat × Word)} {regs' : List TACRegister}
    (h : initRegisters l regs = .ok regs') : regs'.length = regs.length := by
  induction l generalizing regs with
  | nil =>
    cases h
    rfl
  | cons p l ih =>
    simp only [initRegisters] at h
    cases hreg : regs[p.1]? with
    | none =>
      rw [hreg] at h
      cases h
    | some old =>
      rw [hreg] at h
      rw [ih h, length_set]

theorem newContext_replicate (hreg : Registered enc f order tf) (x : Word) :
    ∃ regs ctx, initRegisters (tf.args.zip (List.replicate tf.args.length x))
        (List.replicate tf.numVars {}) = .ok regs ∧
      initRegisters (tf.constSym.map fun sym => (sym.index, sym.value)) regs = .ok ctx.registers ∧
      newContext tf (some (List.replicate tf.args.length x)) = .ok ctx := by
  have hlt : ∀ i ∈ tf.args, i < tf.numVars := by
    intro i hi
    have hin : some i ∈ tf.args.map some := mem_map_of_mem hi
    rw [show tf.args.map some = _ from hreg.args] at hin
    obtain ⟨n, -, hn⟩ := mem_map.mp hin
    exact hreg.table.lt n i hn
  have hargs : ∀ p ∈ tf.args.zip (List.replicate tf.args.length x),
      p.1 < (List.replicate tf.numVars ({} : TACRegister)).length := by
    intro p hp
    rw [length_replicate]
    exact hlt p.1 (of_mem_zip (show (p.1, p.2) ∈ _ from hp)).1
  obtain ⟨regs, hregs⟩ := initRegisters_ok hargs
  have hlen := initRegisters_length hregs
  rw [length_replicate] at hlen
  have hsyms : ∀ p ∈ tf.constSym.map fun sym => (sym.index, sym.value), p.1 < regs.length := by
    intro p hp
    obtain ⟨c, hc, rfl⟩ := mem_map.mp hp
    rw [hlen]
    exact hreg.table.symLt c hc
  obtain ⟨regs', hregs'⟩ := initRegisters_ok hsyms
  refine ⟨regs, { registers := regs', function := tf }, hregs, hregs', ?_⟩
  have hfit : (some (List.replicate tf.args.length x)).any (fun a => a.length ≠ tf.args.length) =
      false := by simp
  unfold newContext argRegisters
  rw [if_neg (by rw [hfit]; decide), hreg.isPublic]
  refine bind_ok_iff.mpr ⟨regs, hregs, bind_ok_iff.mpr ⟨regs', hregs', rfl⟩⟩

theorem created_introducedWith (hreg : Registered enc f order tf)
    (hr : tf.variableEncoding[name]? = some r)
    (h : ∀ args ctx, newContext tf args = .ok ctx → ctx.Holds r w) :
    IntroducedWith f order name w := by
  obtain ⟨u, hu, hname⟩ := (hreg.table.known name).mp ⟨r, hr⟩
  obtain ⟨v, hv⟩ : ∃ v, introducer (occurrences f order) name = some v := by
    have hsome : ((occurrences f order).find? fun v => v.name = name).isSome := by
      rw [find?_isSome]
      exact ⟨u, hu, by simpa using hname⟩
    exact Option.isSome_iff_exists.mp hsome
  -- a context whose parameters all differ from the value
  obtain ⟨regs, ctx, hregs, hconst, hctx⟩ := newContext_replicate hreg (w + 1)
  have hholds := h _ _ hctx
  unfold TACContext.Holds at hholds
  have hrlt := hreg.table.lt name r hr
  have hparam : name ∉ f.args.map paramName := by
    intro hmem
    obtain ⟨v', hv', htyp⟩ := introducer_param order hmem
    have hown : regs[r]?.map TACRegister.val = some (w + 1) := by
      refine initRegisters_value hregs ?_ (.inl ?_)
      · intro p hp _
        exact eq_of_mem_replicate (of_mem_zip (show (p.1, p.2) ∈ _ from hp)).2
      · obtain ⟨i, hi, hir⟩ := mem_iff_getElem.mp ((mem_args_iff hreg hr).mpr hmem)
        refine ⟨(r, w + 1), ?_, rfl⟩
        rw [mem_iff_getElem?]
        refine ⟨i, ?_⟩
        rw [getElem?_zip_eq_some, getElem?_eq_getElem hi, hir, getElem?_replicate,
          if_pos hi]
        exact ⟨rfl, rfl⟩
    have hval := constants_value hreg hr hv' hconst hown
    rw [hholds, htyp, if_neg (by decide)] at hval
    exact absurd (Option.some.inj hval) (by simp)
  refine ⟨hparam, v, hv, ?_⟩
  have hnot : r ∉ tf.args := fun hmem => hparam ((mem_args_iff hreg hr).mp hmem)
  have hzero : argRegisters tf (some (List.replicate tf.args.length (w + 1))) = .ok regs := by
    unfold argRegisters
    rw [hreg.isPublic]
    exact hregs
  have hval := constants_value hreg hr hv hconst (argRegisters_zero hzero hrlt hnot)
  rw [hholds] at hval
  constructor
  · intro htyp
    rw [if_pos htyp] at hval
    exact hval.symm
  · intro htyp
    rw [if_neg (by rw [htyp]; decide)] at hval
    exact Option.some.inj hval

def OnlyConst (f : AstFunction) (name : GoString) : Prop :=
  ∀ b ∈ f.blocks, ∀ s ∈ b.statements, s.operation ≠ .CONST → ∀ v ∈ dests s, v.name ≠ name

theorem OnlyConst.emitted {f0 : AstFunction} (h : OnlyConst f0 name) (hpatched : Patched f0 f)
    {b : AstBlock} (hb : b ∈ f.blocks) {s : AstStatement} (hs : s ∈ b.emitted)
    (hop : s.operation ≠ .CONST) : ∀ v ∈ dests s, v.name ≠ name := by
  intro v hv
  rcases hpatched.origin hb hs with ⟨b0, hb0, t, ht, hplain⟩ | hinserted
  · have htop : t.operation ≠ .CONST := by
      intro heq
      have hconst : t.plain.operation = .CONST := by
        simp [AstStatement.plain, convertIllphi, heq, isNumberedIllphi]
      rw [← hplain, plain_of_emitted hs] at hconst
      exact hop hconst
    exact h b0 hb0 t ht htop v (dests_congr hplain ▸ hv)
  · rw [dests_of_inserted hinserted] at hv
    cases hv

variable {prog : TACProgram} {host : Host σ} {st st' : LoopState σ}

theorem step_holds (h : Transformed f order tf) (hreg : Registered enc f order tf)
    (hcomplete : ∀ b ∈ order, ∀ s ∈ b.emitted, s.Complete)
    (honly : ∀ b ∈ order, ∀ s ∈ b.emitted, s.operation ≠ .CONST → ∀ v ∈ dests s, v.name ≠ name)
    (hr : tf.variableEncoding[name]? = some r) (hon : OnCode prog order tf st.machine)
    (hstep : Step host st st') (hholds : st.machine.ctx.Holds r w) :
    st'.machine.ctx.Holds r w := by
  have hval : st'.machine.val r = st.machine.val r := by
    obtain ⟨k, hpc, ⟨it, hat⟩ | hend⟩ := hon.boundary
    · have hfetch := fetch_item h hat hon.function hpc
      by_cases hconst : it.opcode = .CONST
      · rw [hconst] at hfetch
        exact step_const_val hstep hfetch r
      · apply step_unassigned hstep hfetch
        intro hmem
        rw [hon.function, hpc] at hmem
        obtain ⟨b, hb, s, hs, hop, v, hv, henc⟩ :=
          assigned_of_item h hreg hcomplete hat hconst hmem
        exact honly b hb s hs hop v hv (hreg.table.inj _ _ r henc hr)
    · have hlt := hstep.1
      have hlen : (tf.insts.length : Int) = codeSize order := h.length
      rw [hon.function, hlen, hpc, hend] at hlt
      exact absurd hlt (lt_irrefl _)
  rw [holds_iff] at hholds ⊢
  refine ⟨(step_frame hstep).2.1.symm ▸ hholds.1, ?_⟩
  exact hval.trans hholds.2

/-- The private calls a run executes on its way from `start` to `s` pass as many arguments as
their callees declare. -/
def CallsFitUpTo (prog : TACProgram) (enc : GoMap GoString Nat) (order : List AstBlock)
    (host : Host σ) (start s : LoopState σ) : Prop :=
  ∀ before s1 s2 after, Run host start before s1 → Step host s1 s2 → Run host s2 after s →
    FitsAt prog enc order s1.machine.pc

theorem run_holds (h : Transformed f order tf) (hreg : Registered enc f order tf)
    (hcomplete : ∀ b ∈ order, ∀ s ∈ b.emitted, s.Complete)
    (honly : ∀ b ∈ order, ∀ s ∈ b.emitted, s.operation ≠ .CONST → ∀ v ∈ dests s, v.name ≠ name)
    (hr : tf.variableEncoding[name]? = some r) (hhost : CallReturns (RunsProg prog) host)
    (hon : OnCode prog order tf st.machine) {hist : List Event} (hrun : Run host st hist st')
    (hfit : CallsFitUpTo prog enc order host st st') (hholds : st.machine.ctx.Holds r w) :
    OnCode prog order tf st'.machine ∧ st'.machine.ctx.Holds r w := by
  induction hrun with
  | start => exact ⟨hon, hholds⟩
  | step hprefix hop hstep ih =>
    obtain ⟨hhere, hheld⟩ := ih fun _ _ _ _ h1 h2 h3 => hfit _ _ _ _ h1 h2 (h3.step hop hstep)
    have hfits := hfit _ _ _ _ hprefix hstep .start
    exact ⟨hhere.step h hreg hfits hhost hstep,
      step_holds h hreg hcomplete honly hr hhere hstep hheld⟩

end

/-- Register `r` holds `w` in every new context and in every state a run in one comes to by calls
whose numbers of arguments agree.  The EVM's calls that return leave the frame of the caller on
top. -/
structure AlwaysHolds (prog : TACProgram) (order : List AstBlock) (tf : TACFunction) (r : Nat)
    (w : Word) : Prop where
  created : ∀ args ctx, newContext tf args = .ok ctx → ctx.Holds r w
  running : ∀ (σ : Type) (host : Host σ), CallReturns (RunsProg prog) host →
    ∀ args ctx, newContext tf args = .ok ctx → ∀ prevReturnData engine, RunsProg prog engine →
    ∀ hist s, Run host (startLoop { ctx with prevReturnData } engine) hist s →
    CallsFitUpTo prog prog.functionEncoding order host
      (startLoop { ctx with prevReturnData } engine) s → s.machine.ctx.Holds r w

theorem constant_held_iff {ast ast' : AstProgram} (hpatch : patchProgram ast = .ok ast') {j : Nat}
    {f0 f : AstFunction} (hf0 : ast.functions[j]? = some f0) (hf : ast'.functions[j]? = some f)
    {prog : TACProgram} {tf : TACFunction}
    (htf : transformFunction prog.functionEncoding f = .ok tf) {order : List AstBlock}
    (horder : visitOrder f = .ok order) {name : GoString} (honly : OnlyConst f0 name) {r : Nat}
    (hr : tf.variableEncoding[name]? = some r) (w : Word) :
    AlwaysHolds prog order tf r w ↔ IntroducedWith f order name w := by
  obtain ⟨order1, horder1, hreg⟩ := registered_transformFunction htf
  cases horder.symm.trans horder1
  obtain ⟨order1, horder1, ht⟩ := transformed_visitOrder htf
  cases horder.symm.trans horder1
  have hpatched := patched_at hpatch hf0 hf
  have hcomplete := complete_transformFunction htf horder
  have honly' : ∀ b ∈ order, ∀ s ∈ b.emitted, s.operation ≠ .CONST → ∀ v ∈ dests s, v.name ≠ name :=
    fun b hb s hs hop => honly.emitted hpatched (f.getBlock_mem (ht.walk.own b hb)) hs hop
  refine ⟨fun h => created_introducedWith hreg hr h.created, fun hintro => ⟨?_, ?_⟩⟩
  · intro args ctx hctx
    exact introducedWith_created hreg hr hintro hctx
  · intro σ host hhost args ctx hctx prevReturnData engine hprog hist s hrun hfit
    have hfun := (newContext_inv hctx).choose_spec.2.2
    have hon : OnCode prog order tf (startLoop { ctx with prevReturnData } engine).machine :=
      ⟨hfun, hprog, atBoundary_zero ht⟩
    have hcreated := introducedWith_created hreg hr hintro hctx
    have hstart : (startLoop { ctx with prevReturnData } engine).machine.ctx.Holds r w := hcreated
    exact (run_holds ht hreg hcomplete honly' hr hhost hon hrun hfit hstart).2

/-! ### A constant that two statements read

The first of them names it as `first`. -/

structure AnnotatedWith (f : AstFunction) (name : GoString) (w : Word) : Prop where
  annotated : ∃ b ∈ f.blocks, ∃ s ∈ b.statements, ∃ v ∈ s.args, v.name = name ∧ v.typ = .CONSTANT
  same : ∀ b ∈ f.blocks, ∀ s ∈ b.statements, ∀ v ∈ s.args, v.name = name → v.typ = .CONSTANT →
    v.constant = some w

def constText (first : String) : GoString :=
  ("function f()() public \x7b Begin block 0x0 prev = [], succ = [] 0x0: v2 = ADD " ++ first ++
    ", v1(0x5) 0x1: v3 = ADD v1(0x5), v1(0x5) 0x2: STOP \x7d").toList

def constFive : AstVariable := ⟨"v1".toList, "0x5".toList, .CONSTANT⟩

def constPlain : AstVariable := ⟨"v1".toList, [], .VARIABLE⟩

def constSum (address dest : String) (a : AstVariable) : AstStatement where
  name := address.toList
  address := address.toList
  operation := .ADD
  args := [⟨dest.toList, [], .VARIABLE⟩, a, constFive]
  numAssignee := 1
  blockName := "0x0".toList

def constBlock (first : AstVariable) : AstBlock :=
  ⟨"0x0".toList, "0x0".toList, [], [], [constSum "0x0" "v2" first, constSum "0x1" "v3" constFive,
    { name := "0x2".toList, address := "0x2".toList, operation := .STOP,
      blockName := "0x0".toList }]⟩

def constFunction (first : AstVariable) : AstFunction :=
  ⟨"f()".toList, [], [constBlock first], true⟩

theorem constFunction_onlyConst (first : AstVariable) :
    OnlyConst (constFunction first) "v1".toList := by
  intro b hb s hs _ v hv
  obtain rfl := mem_singleton.mp hb
  simp only [constBlock, mem_cons, not_mem_nil, or_false] at hs
  rcases hs with rfl | rfl | rfl
  · obtain rfl : v = ⟨"v2".toList, [], .VARIABLE⟩ := mem_singleton.mp hv
    decide
  · obtain rfl : v = ⟨"v3".toList, [], .VARIABLE⟩ := mem_singleton.mp hv
    decide
  · cases hv

theorem constFunction_annotatedWith :
    AnnotatedWith (constFunction constPlain) "v1".toList 5 := by
  constructor
  · decide
  · decide

def constCode (first : AstVariable) : Option (List (Option Nat × Option (List Word))) :=
  (transformProgram ⟨[constFunction first]⟩).toOption.map fun prog =>
    prog.functions.map fun tf => (tf.variableEncoding["v1".toList]?,
      (newContext tf none).toOption.map fun ctx => ctx.registers.map TACRegister.val)

theorem patchProgram_constFunction :
    patchProgram ⟨[constFunction constFive]⟩ = .ok ⟨[constFunction constFive]⟩ := by
  decide +kernel

theorem introducedWith_constFunction :
    IntroducedWith (constFunction constFive) [constBlock constFive] "v1".toList 5 where
  notParam := by decide
  first := ⟨constFive, by decide +kernel, by decide, by decide⟩

/-- Where the name carries its value first, its register holds the value for ever. -/
theorem constant_held_annotated :
    ∃ tf, transformFunction ∅ (constFunction constFive) = .ok tf ∧
      tf.variableEncoding["v1".toList]? = some 1 ∧
        AlwaysHolds ⟨[tf], ∅⟩ [constBlock constFive] tf 1 5 := by
  have hcode : (transformFunction ∅ (constFunction constFive)).toOption.map
      (fun tf => tf.variableEncoding["v1".toList]?) = some (some 1) := by decide +kernel
  obtain ⟨tf, htf, hr⟩ := toOption_map hcode
  have horder : visitOrder (constFunction constFive) = .ok [constBlock constFive] := by
    decide +kernel
  refine ⟨tf, htf, hr, ?_⟩
  exact (constant_held_iff patchProgram_constFunction (j := 0) rfl rfl htf
    horder (constFunction_onlyConst constFive) hr 5).mpr introducedWith_constFunction

/-- The first occurrence carries no value, and the register holds zero. -/
theorem constant_lost_plain :
    ∃ prog tf, parseProgram (constText "v1") = .ok ⟨[constFunction constPlain]⟩ ∧
      transformProgram ⟨[constFunction constPlain]⟩ = .ok prog ∧ prog.functions = [tf] ∧
      AnnotatedWith (constFunction constPlain) "v1".toList 5 ∧
      OnlyConst (constFunction constPlain) "v1".toList ∧
      tf.variableEncoding["v1".toList]? = some 1 ∧
      ¬ ∀ args ctx, newContext tf args = .ok ctx → ctx.Holds 1 5 := by
  have hparse : parseProgram (constText "v1") = .ok ⟨[constFunction constPlain]⟩ := by
    decide +kernel
  obtain ⟨prog, hprog, hcode⟩ := toOption_map
    (show constCode constPlain = some [(some 1, some [0, 0, 0])] by decide +kernel)
  obtain ⟨tf, htf, hpair⟩ := map_eq_singleton_iff.mp hcode
  obtain ⟨hr, hregs⟩ := Prod.mk.inj hpair
  obtain ⟨ctx, hctx, hregs⟩ := toOption_map hregs
  refine ⟨prog, tf, hparse, hprog, htf, constFunction_annotatedWith,
    constFunction_onlyConst constPlain, hr, fun hall => ?_⟩
  have hholds := hall none ctx hctx
  unfold TACContext.Holds at hholds
  rw [← getElem?_map, hregs] at hholds
  exact absurd hholds (by decide)

end EtherVal.Vm
