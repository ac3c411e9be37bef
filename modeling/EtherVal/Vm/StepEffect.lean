import EtherVal.TacParser.Layout
import EtherVal.Vm.Effect
import EtherVal.Vm.PhiStart

/-!
# The registers an instruction assigns
-/

namespace EtherVal.Vm
open EtherVal.Lib EtherVal.TacParser
open Exec (bind_eq_ok pure_eq_ok get_eq_ok read_eq_ok val_eq_ok modify_eq_ok advance_eq_ok
  assign_eq_ok operand_eq_ok inst_eq_ok done_eq_ok inst advance panicWith panicWith_ne_ok)

variable {σ α β : Type}
variable {ret : Ret} {run : Runner σ} {n : Nat} {op : TACOp} {I : TACInterpreter σ → Prop}

def cellD (f : TACFunction) (pc : Int) : Int :=
  match f.cell pc with
  | .ok c => c
  | .error _ => 0

def cellsFrom (f : TACFunction) (pc : Int) : Nat → List Int
  | 0 => []
  | n + 1 => cellD f pc :: cellsFrom f (pc + 1) n

theorem length_cellsFrom (f : TACFunction) (pc : Int) (n : Nat) :
    (cellsFrom f pc n).length = n := by
  induction n generalizing pc with
  | zero => rfl
  | succ n ih => simp [cellsFrom, ih]

def phiAt (f : TACFunction) (pc : Int) : Phi Nat where
  dest := (cellD f (pc + 2)).toNat
  first := (cellD f (pc + 3)).toNat
  rest := (cellsFrom f (pc + 4) (cellD f (pc + 1) - 1).toNat).map Int.toNat

def nextPhi (f : TACFunction) (pc : Int) : Int := pc + 3 + cellD f (pc + 1)

def phiDests (f : TACFunction) : Nat → Int → List Nat
  | 0, _ => []
  | n + 1, pc => (phiAt f pc).dest :: phiDests f n (nextPhi f pc)

def hasDest : TACOp → Bool
  | .THROW | .STOP | .BLOCK_FLAG | .PHI_END | .JUMP | .SELFDESTRUCT | .PHI_START | .JUMP_VAR
  | .MSTORE | .MSTORE8 | .SSTORE | .JUMPI | .REVERT | .RETURN | .LOG0 | .JUMPI_VAR
  | .CALLDATACOPY | .CODECOPY | .RETURNDATACOPY | .LOG1 | .EXTCODECOPY | .LOG2 | .LOG3 | .LOG4
  | .PHI | .CALLPRIVATE | .RETURNPRIVATE | .ILLPHI => false
  | _ => true

def assignedRegs (f : TACFunction) (pc : Int) (op : TACOp) : List Nat :=
  match op with
  | .PHI_START => phiDests f (cellD f (pc + 1)).toNat (pc + 2)
  | .CALLPRIVATE => (cellsFrom f (pc + 2) (cellD f (pc + 1)).toNat).map Int.toNat
  | op => if hasDest op then [(cellD f (pc + 1)).toNat] else []

theorem cellD_of_ok {f : TACFunction} {pc c : Int} (h : f.cell pc = .ok c) : cellD f pc = c := by
  rw [cellD, h]

variable {m : Machine σ}

theorem cellD_of_inst {off c : Int} (h : m.inst off = .ok c) :
    cellD m.ctx.function (m.pc + off) = c := cellD_of_ok h

theorem toNat_cellD_of_operand {off : Int} {r : Nat} (h : m.operand off = .ok r) :
    (cellD m.ctx.function (m.pc + off)).toNat = r := by
  rw [cellD_of_inst (Machine.operand_iff.mp h).1, Int.toNat_natCast]

structure SameFrame (m m' : Machine σ) : Prop where
  function : m'.ctx.function = m.ctx.function
  cycle : m'.ctx.cycle = m.ctx.cycle
  length : m'.ctx.registers.length = m.ctx.registers.length
  buffer : m'.ctx.prevReturnData.map List.length = m.ctx.prevReturnData.map List.length

structure Effect (m m' : Machine σ) (dests : List Nat) : Prop extends SameFrame m m' where
  other : ∀ r, r ∉ dests → m'.reg r = m.reg r
  stamped : ∀ r ∈ dests, (m'.reg r).cycle = m.ctx.cycle

variable {m' : Machine σ}

theorem reg_congr (h : m'.ctx = m.ctx) (r : Nat) : m'.reg r = m.reg r := by
  rw [Machine.reg, h, ← Machine.reg]

namespace Effect

theorem of_ctx (h : m'.ctx = m.ctx) : Effect m m' [] where
  function := by rw [h]
  cycle := by rw [h]
  length := by rw [h]
  buffer := by rw [h]
  other := fun r _ => reg_congr h r
  stamped := by simp

theorem of_assign {d : Nat} {w : Word} (hd : d < m.ctx.registers.length)
    (h : m'.ctx = (m.assign d w).ctx) : Effect m m' [d] where
  function := by rw [h]; rfl
  cycle := by rw [h]; rfl
  length := by
    rw [h]
    exact List.length_set
  buffer := by rw [h]; rfl
  other := by
    intro r hr
    rw [reg_congr h, Machine.reg_assign m w hd, if_neg (by simpa using hr)]
  stamped := by
    intro r hr
    rw [reg_congr h, Machine.reg_assign m w hd, if_pos (by simpa using hr)]

theorem trans {m1 : Machine σ} {ds es : List Nat} (h1 : Effect m m1 ds) (h2 : Effect m1 m' es) :
    Effect m m' (ds ++ es) where
  function := h2.function.trans h1.function
  cycle := h2.cycle.trans h1.cycle
  length := h2.length.trans h1.length
  buffer := h2.buffer.trans h1.buffer
  other := by
    intro r hr
    rw [List.mem_append, not_or] at hr
    rw [h2.other r hr.2, h1.other r hr.1]
  stamped := by
    intro r hr
    by_cases he : r ∈ es
    · rw [h2.stamped r he, h1.cycle]
    · have hd : r ∈ ds := (List.mem_append.mp hr).resolve_right he
      rw [h2.other r he, h1.stamped r hd]

theorem of_writes {x : Exec σ Ret} {k : Int} (hx : Writes I k x) (h : x m = .ok (ret, m'))
    (hret : ret.2 = none) :
    Effect m m' [(cellD m.ctx.function (m.pc + 1)).toNat] := by
  obtain ⟨d, w, hd, hc, -⟩ := hx.writes m ret m' h hret
  rw [toNat_cellD_of_operand hd]
  exact of_assign (Machine.operand_lt hd) hc

theorem of_advances {x : Exec σ Ret} {k : Int} (hx : Advances I k x) (h : x m = .ok (ret, m'))
    (hret : ret.2 = none) : Effect m m' [] :=
  of_ctx (hx.moves m ret m' h hret).1

end Effect

theorem insts_eq {first : Int} {cs : List Int} (h : insts first n m = .ok (cs, m')) :
    cs = cellsFrom m.ctx.function (m.pc + first) n ∧ m = m' := by
  induction n generalizing first cs m' with
  | zero =>
    obtain ⟨rfl, rfl⟩ := pure_eq_ok.mp h
    exact ⟨rfl, rfl⟩
  | succ n ih =>
    obtain ⟨c, hc, h2⟩ := Exec.inst_bind h
    obtain ⟨ds, m2, h3, h4⟩ := bind_eq_ok.mp h2
    obtain ⟨rfl, rfl⟩ := ih h3
    obtain ⟨rfl, rfl⟩ := pure_eq_ok.mp h4
    rw [cellsFrom, cellD_of_inst hc, add_assoc]
    exact ⟨rfl, rfl⟩

def calleeAt (m : Machine σ) : Option TACFunction :=
  m.engine.frames.head?.bind fun frame =>
    frame.prog.functions[(cellD m.ctx.function (m.pc + 2 + cellD m.ctx.function (m.pc + 1))).toNat]?

theorem targetFunction_inv {id : Int} {target : TACFunction}
    (h : targetFunction id m = .ok (target, m')) :
    m = m' ∧ m.engine.frames.head?.bind (fun frame => frame.prog.functions[id.toNat]?) =
      some target := by
  obtain ⟨frame, hread, h⟩ := Exec.read_bind h
  have hhead : m.engine.frames.head? = some frame := by
    split at hread
    · next f rest hf =>
      rw [hf, ← Except.ok.inj hread]
      rfl
    · cases hread
  rw [hhead, Option.bind_some]
  cases id with
  | negSucc n => exact absurd h Exec.panicWith_ne_ok
  | ofNat n =>
    cases hf : frame.prog.functions[n]? with
    | none =>
      simp only [hf] at h
      exact absurd h Exec.panicWith_ne_ok
    | some f =>
      simp only [hf] at h
      obtain ⟨rfl, rfl⟩ := pure_eq_ok.mp h
      exact ⟨rfl, hf⟩

def valuesFrom (m : Machine σ) (first : Int) (n : Nat) : List Word :=
  (cellsFrom m.ctx.function (m.pc + first) n).map fun c => m.val c.toNat

theorem operandValues_inv {first : Int} {vs : List Word}
    (h : operandValues first n m = .ok (vs, m')) : vs = valuesFrom m first n ∧ m = m' := by
  induction n generalizing first vs m' with
  | zero =>
    obtain ⟨rfl, rfl⟩ := pure_eq_ok.mp h
    exact ⟨rfl, rfl⟩
  | succ n ih =>
    obtain ⟨r, hr, h⟩ := Exec.operand_bind h
    have h := Exec.val_bind h
    obtain ⟨rest, _, hrest, h⟩ := bind_eq_ok.mp h
    obtain ⟨rfl, rfl⟩ := ih hrest
    obtain ⟨rfl, rfl⟩ := pure_eq_ok.mp h
    refine ⟨?_, rfl⟩
    simp only [valuesFrom, cellsFrom, List.map_cons, toNat_cellD_of_operand hr, add_assoc]

def enterPrivate : Exec σ (TACContext × List Int) := do
  let numDest ← inst 1
  advance 2
  let destIds ← insts 0 numDest.toNat
  advance numDest
  let target ← targetFunction (← inst 0)
  advance 1
  let args ← operandValues 0 target.args.length
  let newCtx ← Exec.read fun _ => newContext target (some args)
  advance target.args.length
  if numDest < 0 then panicWith .indexOutOfRange
  else
    return ({ newCtx with prevReturnData := some (List.replicate numDest.toNat (0 : Word)) },
      destIds)

def leavePrivate (run : Runner σ) (ctx : TACContext) (destIds : List Int) : Exec σ Ret := do
  let (ret, returned) ← runCallee run ctx
  modify fun m => { m with ctx := { m.ctx with privateReturnData := returned } }
  assignAll (destIds.zip returned)
  return ret

theorem execCallprivate_eq (run : Runner σ) :
    execCallprivate run = enterPrivate >>= fun q => leavePrivate run q.1 q.2 := by
  unfold execCallprivate enterPrivate
  simp only [bind_assoc]
  refine bind_congr fun numDest => bind_congr fun _ => bind_congr fun destIds =>
    bind_congr fun _ => bind_congr fun _ => bind_congr fun target => bind_congr fun _ =>
      bind_congr fun args => bind_congr fun newCtx => bind_congr fun _ => ?_
  split
  · rfl
  · rw [pure_bind]
    rfl

structure Enters (m : Machine σ) (target : TACFunction) (n : Nat) (ctx : TACContext)
    (dests : List Int) (m1 : Machine σ) : Prop where
  count : cellD m.ctx.function (m.pc + 1) = n
  callee : calleeAt m = some target
  created : ∃ fresh,
    newContext target (some (valuesFrom m (3 + n) target.args.length)) = .ok fresh ∧
      ctx = { fresh with prevReturnData := some (List.replicate n 0) }
  dests : dests = cellsFrom m.ctx.function (m.pc + 2) n
  pc : m1.pc = m.pc + 3 + n + target.args.length
  engine : m1.engine = m.engine
  ctx : m1.ctx = m.ctx

theorem enterPrivate_inv {ctx : TACContext} {m1 : Machine σ} {dests : List Int}
    (h : enterPrivate m = .ok ((ctx, dests), m1)) :
    ∃ target n, Enters m target n ctx dests m1 := by
  obtain ⟨n, hn, h⟩ := Exec.inst_bind h
  have h := Exec.advance_bind h
  obtain ⟨ids, _, hids, h⟩ := bind_eq_ok.mp h
  obtain ⟨hcells, rfl⟩ := insts_eq hids
  have h := Exec.advance_bind h
  obtain ⟨id, hid, h⟩ := Exec.inst_bind h
  obtain ⟨target, m4, hlookup, h⟩ := bind_eq_ok.mp h
  obtain ⟨rfl, htarget⟩ := targetFunction_inv hlookup
  have h := Exec.advance_bind h
  obtain ⟨args, m6, hargs, h⟩ := bind_eq_ok.mp h
  obtain ⟨hvalues, rfl⟩ := operandValues_inv hargs
  obtain ⟨fresh, hfresh, h⟩ := Exec.read_bind h
  have h := Exec.advance_bind h
  have hcell := cellD_of_inst hid
  rw [add_zero] at hcell
  have hcount := cellD_of_inst hn
  split at h
  · exact absurd h panicWith_ne_ok
  · next hneg =>
    obtain ⟨heq, rfl⟩ := pure_eq_ok.mp h
    cases heq
    have hnat : (n.toNat : Int) = n := Int.toNat_of_nonneg (not_lt.mp hneg)
    have hposition : m.pc + 2 + n + 1 + 0 = m.pc + (3 + n) := by ring
    refine ⟨target, n.toNat, ?_⟩
    constructor
    · rw [hcount, hnat]
    · rw [calleeAt, hcount, ← htarget, ← hcell]
      rfl
    · refine ⟨fresh, ?_, rfl⟩
      rw [hnat, valuesFrom, ← hposition]
      rw [hvalues] at hfresh
      exact hfresh
    · rw [hcells]
      show cellsFrom m.ctx.function (m.pc + 2 + 0) n.toNat = _
      rw [add_zero]
    · rw [hnat]
      show m.pc + 2 + n + 1 + _ = _
      ring
    · rfl
    · rfl

theorem runCallee_eq_ok {ctx : TACContext} {buffer : List Word}
    (h : runCallee run ctx m = .ok ((ret, buffer), m')) :
    ∃ mc, run ctx m.engine = .ok (ret, mc) ∧ buffer = mc.ctx.prevReturnData.getD [] ∧
      m' = { m with engine := mc.engine } := by
  unfold runCallee at h
  split at h
  · cases h
  · cases h
  · next ret1 mc hrun =>
    obtain ⟨hfst, rfl⟩ := Prod.mk.inj (Except.ok.inj h)
    cases hfst
    exact ⟨mc, hrun, rfl, rfl⟩

theorem execCallprivate_cases (h : execCallprivate run m = .ok (ret, m')) :
    ∃ ctx dests m1 mc, enterPrivate m = .ok ((ctx, dests), m1) ∧
      run ctx m1.engine = .ok (ret, mc) ∧
      assignAll (dests.zip (mc.ctx.prevReturnData.getD [])) { m1 with
        engine := mc.engine
        ctx := { m1.ctx with privateReturnData := mc.ctx.prevReturnData.getD [] } } =
          .ok ((), m') := by
  rw [execCallprivate_eq] at h
  obtain ⟨⟨ctx, dests⟩, m1, henter, h⟩ := bind_eq_ok.mp h
  obtain ⟨⟨ret1, buffer⟩, m2, hcallee, h⟩ := bind_eq_ok.mp h
  obtain ⟨mc, hrun, rfl, rfl⟩ := runCallee_eq_ok hcallee
  have h := Exec.modify_bind h
  obtain ⟨_, m4, hassign, h⟩ := bind_eq_ok.mp h
  obtain ⟨rfl, rfl⟩ := pure_eq_ok.mp h
  exact ⟨ctx, dests, m1, mc, henter, hrun, hassign⟩

theorem selectRecent_inv {j : Int} {best s : Nat} (h : selectRecent j n best m = .ok (s, m')) :
    s = latest m.stamped.stamp best ((cellsFrom m.ctx.function (m.pc + j) n).map Int.toNat) ∧
      (∀ c ∈ (cellsFrom m.ctx.function (m.pc + j) n).map Int.toNat, c < m.ctx.registers.length) ∧
      m = m' := by
  induction n generalizing j best with
  | zero =>
    obtain ⟨rfl, rfl⟩ := pure_eq_ok.mp h
    exact ⟨rfl, by simp [cellsFrom], rfl⟩
  | succ n ih =>
    obtain ⟨c, hc, h2⟩ := Exec.operand_bind h
    have h4 := Exec.get_bind h2
    obtain ⟨rfl, hr, rfl⟩ := ih h4
    rw [cellsFrom, List.map_cons, toNat_cellD_of_operand hc, latest, add_assoc]
    exact ⟨rfl, List.forall_mem_cons.mpr ⟨Machine.operand_lt hc, hr⟩, rfl⟩

theorem execPhi_inv (h : execPhi m = .ok ((), m')) :
    PhiInRange m (phiAt m.ctx.function m.pc) ∧
      m'.ctx = (m.assign (phiAt m.ctx.function m.pc).dest
        (m.val ((phiAt m.ctx.function m.pc).select m.stamped.stamp))).ctx ∧
      m'.pc = nextPhi m.ctx.function m.pc := by
  unfold execPhi at h
  have h := Exec.get_bind h
  obtain ⟨_, m1, hcount, h⟩ := bind_eq_ok.mp h
  obtain ⟨e1, he1⟩ := quiet_countPhi (σ := σ) m.ctx.function m.pc m
  cases he1.symm.trans hcount
  obtain ⟨n, hn, h⟩ := Exec.inst_bind h
  obtain ⟨d, hd, h⟩ := Exec.operand_bind h
  have h := Exec.advance_bind h
  obtain ⟨first, hf, h⟩ := Exec.operand_bind h
  obtain ⟨s, _, hsel, h⟩ := bind_eq_ok.mp h
  obtain ⟨hs, hr, rfl⟩ := selectRecent_inv hsel
  obtain ⟨_, m3, hcount2, h⟩ := bind_eq_ok.mp h
  obtain ⟨e2, he2⟩ := quiet_countPhiChoice (σ := σ) m.ctx.function m.pc s
    (Machine.advance { m with engine := e1 } 3)
  cases he2.symm.trans hcount2
  have h := Exec.val_bind h
  have h := Exec.assign_bind h
  obtain rfl := advance_eq_ok.mp h
  have hdest : (phiAt m.ctx.function m.pc).dest = d := toNat_cellD_of_operand hd
  have hcnt : cellD m.ctx.function (m.pc + 1) = n := cellD_of_inst hn
  have hfirst : (phiAt m.ctx.function m.pc).first = first := by
    have := toNat_cellD_of_operand hf
    rwa [add_zero] at this
  have hrest : (phiAt m.ctx.function m.pc).rest = (cellsFrom m.ctx.function (m.pc + 3 + 1)
      (n - 1).toNat).map Int.toNat := by
    simp only [phiAt, hcnt, add_assoc]
    rfl
  have hsel' : (phiAt m.ctx.function m.pc).select m.stamped.stamp = s := by
    rw [Phi.select, hfirst, hrest, hs]
    rfl
  have hrange : PhiInRange m (phiAt m.ctx.function m.pc) := by
    refine ⟨hdest ▸ Machine.operand_lt hd, ?_⟩
    rw [Phi.choices, hfirst, hrest]
    have hlt : first < m.ctx.registers.length := (Machine.operand_iff.mp hf).2
    exact List.forall_mem_cons.mpr ⟨hlt, hr⟩
  refine ⟨hrange, ?_⟩
  rw [hdest, hsel']
  refine ⟨rfl, ?_⟩
  rw [nextPhi, hcnt]
  rfl

theorem execPhis_effect (h : execPhis n m = .ok ((), m')) :
    Effect m m' (phiDests m.ctx.function n m.pc) := by
  induction n generalizing m with
  | zero =>
    obtain ⟨-, rfl⟩ := pure_eq_ok.mp h
    exact Effect.of_ctx rfl
  | succ n ih =>
    obtain ⟨_, m1, h1, h2⟩ := bind_eq_ok.mp h
    obtain ⟨hd, hc, hp⟩ := execPhi_inv h1
    have heff := Effect.of_assign hd.1 hc
    have hrest := ih h2
    rw [heff.function, hp] at hrest
    exact heff.trans hrest

theorem effect_execPhiStart (h : execPhiStart m = .ok (ret, m')) :
    Effect m m' (assignedRegs m.ctx.function m.pc .PHI_START) := by
  obtain ⟨n, hn, h⟩ := Exec.execPhiStart_inv h
  rw [assignedRegs, cellD_of_inst hn]
  rcases h with ⟨rfl, rfl⟩ | ⟨m1, hphis, rfl⟩
  · exact Effect.of_ctx rfl
  · have h1 : Effect m (m.advance 2) [] := Effect.of_ctx rfl
    have h2 : Effect (m.advance 2) m1 (phiDests m.ctx.function n.toNat (m.pc + 2)) :=
      execPhis_effect hphis
    have h3 : Effect m1 (m1.advance 1) [] := Effect.of_ctx rfl
    simpa using (h1.trans h2).trans h3

def KeepsBuffer (run : Runner σ) : Prop :=
  ∀ ctx engine ret m', run ctx engine = .ok (ret, m') → ret.2 = none →
    m'.ctx.prevReturnData.map List.length = ctx.prevReturnData.map List.length

theorem assignAll_inv {l : List (Int × Word)} (h : assignAll l m = .ok ((), m')) :
    Effect m m' (l.map fun p => p.1.toNat) ∧ m'.pc = m.pc ∧ m'.engine = m.engine ∧
      m'.ctx.functionStop = m.ctx.functionStop := by
  induction l generalizing m with
  | nil =>
    obtain ⟨-, rfl⟩ := pure_eq_ok.mp h
    exact ⟨Effect.of_ctx rfl, rfl, rfl, rfl⟩
  | cons p l ih =>
    obtain ⟨d, hd, h⟩ := Exec.read_bind h
    obtain ⟨hp, hlt⟩ := Machine.getVar_eq_ok.mp hd
    have h := Exec.assign_bind h
    obtain ⟨heff, hrest⟩ := ih h
    rw [List.map_cons, hp, Int.toNat_natCast]
    exact ⟨(Effect.of_assign hlt rfl).trans heff, hrest⟩

theorem effect_execCallprivate (hrun : KeepsBuffer run) (h : execCallprivate run m = .ok (ret, m'))
    (hret : ret.2 = none) :
    Effect m m' (assignedRegs m.ctx.function m.pc .CALLPRIVATE) := by
  obtain ⟨ctx, dests, m1, mc, henter, hcallee, hassign⟩ := execCallprivate_cases h
  obtain ⟨target, n, henters⟩ := enterPrivate_inv henter
  have hlen : (mc.ctx.prevReturnData.getD []).length = n := by
    obtain ⟨fresh, -, rfl⟩ := henters.created
    have hbuffer := hrun _ _ _ _ hcallee hret
    simp only [Option.map_some, List.length_replicate] at hbuffer
    obtain ⟨buffer, hb, hn⟩ := Option.map_eq_some_iff.mp hbuffer
    rw [hb]
    exact hn
  generalize mc.ctx.prevReturnData.getD [] = returned at hlen hassign
  have hbefore : Effect m { m1 with
      engine := mc.engine, ctx := { m1.ctx with privateReturnData := returned } } [] := by
    have hm1 := Effect.of_ctx henters.ctx
    exact ⟨⟨hm1.function, hm1.cycle, hm1.length, hm1.buffer⟩, hm1.other, hm1.stamped⟩
  have hdests : (dests.zip returned).map (fun p => p.1.toNat) = dests.map Int.toNat := by
    have hfst : (dests.zip returned).map Prod.fst = dests :=
      List.map_fst_zip (by rw [hlen, henters.dests, length_cellsFrom])
    rw [show (fun p : Int × Word => p.1.toNat) = Int.toNat ∘ Prod.fst from rfl, ← List.map_map,
      hfst]
  have heff := hbefore.trans (assignAll_inv hassign).1
  rw [List.nil_append, hdests, henters.dests] at heff
  rw [assignedRegs, henters.count, Int.toNat_natCast]
  exact heff

theorem returnValues_effect {vs : List Word} {i : Nat} (h : returnValues vs i m = .ok ((), m')) :
    Effect m m' [] := by
  induction vs generalizing m i with
  | nil =>
    obtain ⟨-, rfl⟩ := pure_eq_ok.mp h
    exact Effect.of_ctx rfl
  | cons v vs ih =>
    have h := Exec.get_bind h
    cases hb : m.ctx.prevReturnData with
    | none =>
      simp only [hb] at h
      exact absurd h Exec.panicWith_ne_ok
    | some buffer =>
      simp only [hb] at h
      split at h
      · have h := Exec.modify_bind h
        -- the buffer changes in one place and keeps its length
        have hset : Effect m { m with ctx :=
            { m.ctx with prevReturnData := some (buffer.set i v) } } [] :=
          ⟨⟨rfl, rfl, rfl, by simp [hb]⟩, fun _ _ => rfl, by simp⟩
        exact hset.trans (ih h)
      · exact absurd h Exec.panicWith_ne_ok

theorem effect_execReturnprivate (h : execReturnprivate m = .ok (ret, m')) :
    Effect m m' [] := by
  obtain ⟨n, -, h⟩ := Exec.inst_bind h
  have h := Exec.advance_bind h
  obtain ⟨values, m2, h2, h⟩ := bind_eq_ok.mp h
  have hc2 := ((EngineOnly.operandValues (I := Always) _ _).same _ _ _ h2).2
  obtain ⟨_, m3, h3, h⟩ := bind_eq_ok.mp h
  have h := Exec.advance_bind h
  have h := Exec.modify_bind h
  obtain ⟨-, rfl⟩ := done_eq_ok.mp h
  have heff : Effect m m3 [] := (Effect.of_ctx (m := m) hc2).trans (returnValues_effect h3)
  exact ⟨⟨heff.function, heff.cycle, heff.length, heff.buffer⟩, heff.other, by simp⟩

theorem effect_execBlockFlag (h : execBlockFlag m = .ok (ret, m')) :
    Effect m m' [] ∧ m'.pc = m.pc + 1 := by
  have h := Exec.modify_bind h
  have h := Exec.advance_bind h
  obtain ⟨-, rfl⟩ := done_eq_ok.mp h
  exact ⟨⟨⟨rfl, rfl, rfl, rfl⟩, fun _ _ => rfl, by simp⟩, rfl⟩

theorem sameFrame_execNot (h : execNot m = .ok (ret, m')) :
    SameFrame m m' := by
  obtain ⟨d, a, -, -, -, rfl⟩ := execNot_eq_ok.mp h
  exact ⟨rfl, rfl, List.length_set, rfl⟩

/-- The opcodes that neither jump, nor enter or leave a private function, nor head a block or a
group; `NOT` is apart because it writes its operand. -/
def isPlain : TACOp → Bool
  | .NOT | .PHI_START | .PHI | .PHI_END | .CALLPRIVATE | .RETURNPRIVATE | .BLOCK_FLAG | .JUMP
  | .JUMPI | .JUMP_VAR | .JUMPI_VAR => false
  | _ => true

def plainSize (op : TACOp) : Int := if (operation op).halts then 0 else (1 + op.operands : Nat)

def writesTraces : TACOp → Bool
  | .SSTORE | .LOG0 | .LOG1 | .LOG2 | .LOG3 | .LOG4 | .SHA3 | .GAS | .CALL | .CALLCODE
  | .DELEGATECALL | .STATICCALL | .CREATE | .CREATE2 | .CALLPRIVATE => true
  | _ => false

structure KeepsCalls (host : Host σ) (I : TACInterpreter σ → Prop) : Prop extends EventInv I where
  call : CallKeeps I host

structure KeepsEvents (host : Host σ) (I : TACInterpreter σ → Prop) : Prop
    extends KeepsCalls host I where
  credit : CreditInv I

def Plain (I : TACInterpreter σ → Prop) (op : TACOp) (x : Exec σ Ret) : Prop :=
  if hasDest op then Writes I (plainSize op) x else Advances I (plainSize op) x

theorem Plain.keeps {x : Exec σ Ret} (h : Plain I op x) : Keeps I x := by
  unfold Plain at h
  split at h
  · exact h.keeps
  · exact h.keeps

theorem execution_silent (hI : FrameInv I) (hop : isPlain op = true) (hw : writesTraces op = false)
    (host : Host σ) (run : Runner σ) : Plain I op (execution host run op) := by
  cases op
  case NOT | PHI_START | PHI | PHI_END | CALLPRIVATE | RETURNPRIVATE | BLOCK_FLAG | JUMP | JUMPI |
      JUMP_VAR | JUMPI_VAR => cases hop
  case SSTORE | LOG0 | LOG1 | LOG2 | LOG3 | LOG4 | SHA3 | GAS | CALL | CALLCODE | DELEGATECALL |
      STATICCALL | CREATE | CREATE2 => cases hw
  case THROW => exact advances_execThrow hI _
  case STOP => exact advances_execStop hI
  case SELFDESTRUCT => exact advances_execSelfdestruct hI host
  case RETURN => exact advances_execReturn hI
  case REVERT => exact advances_execRevert hI _
  case ILLPHI => exact Advances.fail _ _
  case MSTORE => exact advances_execMstore hI
  case MSTORE8 => exact advances_execMstore8 hI
  case CALLDATACOPY | CODECOPY =>
    exact advances_execCopy hI (EngineOnly.getFrame.bind fun _ => .pure _)
  case EXTCODECOPY =>
    exact advances_execCopy hI
      ((EngineOnly.operand _).bind fun _ => (EngineOnly.val _).bind fun _ => .onState hI _)
  case RETURNDATACOPY => exact advances_execReturndatacopy hI
  case ADDRESS | CALLER | CALLVALUE | CALLDATASIZE | CODESIZE | MSIZE =>
    exact writes_execRead (engineOnly_fromFrame _)
  case ORIGIN | GASPRICE | COINBASE | TIMESTAMP | NUMBER | DIFFICULTY | GASLIMIT | CHAINID =>
    exact writes_execRead (engineOnly_fromConfig _)
  case RETURNDATASIZE => exact writes_execRead (EngineOnly.get.bind fun _ => .pure _)
  case SELFBALANCE => exact writes_execRead (EngineOnly.getFrame.bind fun _ => .onState hI _)
  case ISZERO => exact writes_execUnary fun _ => .pure _
  case BALANCE => exact writes_execUnary fun _ => .onState hI _
  case EXTCODESIZE => exact writes_execUnary fun _ =>
    (EngineOnly.onState hI _).bind fun _ => .pure _
  case SLOAD => exact writes_execUnary fun _ => EngineOnly.getFrame.bind fun _ => .onState hI _
  case CALLDATALOAD => exact writes_execCalldataload
  case EXTCODEHASH => exact writes_execExtcodehash hI host
  case BLOCKHASH => exact writes_execBlockhash hI host
  case MLOAD => exact writes_execMload hI
  case CONST => exact writes_execConst hI
  case ADDMOD | MULMOD => exact writes_execTernary _
  all_goals exact writes_execBinary _

theorem execution_event {host : Host σ} (h : KeepsCalls host I) (hw : writesTraces op = true)
    (hprivate : op ≠ .CALLPRIVATE) (hcreate : op ≠ .CREATE ∧ op ≠ .CREATE2 ∨ CreditInv I)
    (run : Runner σ) : Plain I op (execution host run op) := by
  have hlog := advances_makeTACLog h.toEventInv host
  have hcall := writes_execCallKind h.toEventInv h.call
  unfold writesTraces at hw
  split at hw
  · exact advances_execSstore h.toEventInv host
  · exact hlog 0
  · exact hlog 1
  · exact hlog 2
  · exact hlog 3
  · exact hlog 4
  · exact writes_execSha3 h.toEventInv host
  · exact writes_execGas h.toEventInv
  · exact hcall .call
  · exact hcall .callcode
  · exact hcall .delegatecall
  · exact hcall .staticcall
  · have hcredit := hcreate.resolve_left fun hne => hne.1 rfl
    exact writes_execCreateKind h.frameInv hcredit h.call false
  · have hcredit := hcreate.resolve_left fun hne => hne.2 rfl
    exact writes_execCreateKind h.frameInv hcredit h.call true
  · exact absurd rfl hprivate
  · cases hw

theorem execution_plain (hop : isPlain op = true) (host : Host σ) (run : Runner σ) :
    Plain Always op (execution host run op) := by
  cases hw : writesTraces op with
  | false => exact execution_silent always_frameInv hop hw host run
  | true =>
    exact execution_event ⟨always_eventInv, always_callKeeps host⟩ hw (by rintro rfl; cases hop)
      (.inr always_creditInv) run

theorem assignedRegs_plain {f : TACFunction} {pc : Int} (hphi : op ≠ .PHI_START)
    (hcall : op ≠ .CALLPRIVATE) :
    assignedRegs f pc op = if hasDest op then [(cellD f (pc + 1)).toNat] else [] := by
  unfold assignedRegs
  split
  · exact absurd rfl hphi
  · exact absurd rfl hcall
  · rfl

theorem execution_effect {host : Host σ} (hrun : KeepsBuffer run) (hop : op ≠ .NOT)
    (h : execution host run op m = .ok (ret, m')) (hret : ret.2 = none) :
    Effect m m' (assignedRegs m.ctx.function m.pc op) := by
  have hI := always_frameInv (σ := σ)
  by_cases hplain : isPlain op = true
  · have hx := execution_plain hplain host run
    rw [assignedRegs_plain (by rintro rfl; cases hplain) (by rintro rfl; cases hplain)]
    unfold Plain at hx
    cases hdest : hasDest op with
    | true =>
      rw [if_pos hdest] at hx
      exact Effect.of_writes hx h hret
    | false =>
      rw [if_neg (by simp [hdest])] at hx
      exact Effect.of_advances hx h hret
  · cases op
    case NOT => exact absurd rfl hop
    case PHI_START => exact effect_execPhiStart h
    case CALLPRIVATE => exact effect_execCallprivate hrun h hret
    case RETURNPRIVATE => exact effect_execReturnprivate h
    case BLOCK_FLAG => exact (effect_execBlockFlag h).1
    case PHI | PHI_END => exact absurd h Exec.panicWith_ne_ok
    case JUMP => exact Effect.of_ctx ((keepsContext_execJump hI).same m ret m' h)
    case JUMPI => exact Effect.of_ctx ((keepsContext_execJumpi hI).same m ret m' h)
    case JUMP_VAR => exact Effect.of_ctx ((keepsContext_execJumpVar hI).same m ret m' h)
    case JUMPI_VAR => exact Effect.of_ctx ((keepsContext_execJumpiVar hI).same m ret m' h)
    all_goals exact absurd rfl hplain

theorem execution_sameFrame {host : Host σ} (hrun : KeepsBuffer run)
    (h : execution host run op m = .ok (ret, m')) (hret : ret.2 = none) :
    SameFrame m m' := by
  by_cases hop : op = .NOT
  · subst hop
    exact sameFrame_execNot h
  · exact (execution_effect hrun hop h hret).toSameFrame

end EtherVal.Vm
