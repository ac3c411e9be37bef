import EtherVal.TacParser.Fallthrough
import EtherVal.Vm.NextPc
import EtherVal.Vm.Stamps
import EtherVal.Vm.VarJump

/-!
# Falling through from a block
-/

namespace EtherVal.Vm
open EtherVal.Lib EtherVal.TacParser List

variable {σ : Type}
variable {m : Machine σ} {tf : TACFunction} {s : AstStatement} {p : Int}

theorem nextPhi_phiCounts {base off : Nat} {phis : List AstStatement}
    (h : ∀ q ∈ phiCounts off (s :: phis), tf.cell ((base + q.1 : Nat) : Int) = .ok q.2) :
    nextPhi tf ((base + off : Nat) : Int) = ((base + (off + phiSize s) : Nat) : Int) := by
  have hhead := h _ mem_cons_self
  have hpos : ((base + (off + 1) : Nat) : Int) = ((base + off : Nat) : Int) + 1 := by
    push_cast
    ring
  rw [hpos] at hhead
  rw [nextPhi, cellD_of_ok hhead, phiSize]
  push_cast
  ring

theorem phiEnd_phiCounts {base : Nat} {phis : List AstStatement} {off : Nat}
    (h : ∀ q ∈ phiCounts off phis, tf.cell ((base + q.1 : Nat) : Int) = .ok q.2) :
    phiEnd tf phis.length ((base + off : Nat) : Int) =
      ((base + off + (phis.map phiSize).sum : Nat) : Int) := by
  induction phis generalizing off with
  | nil => simp [phiEnd]
  | cons s phis ih =>
    rw [length_cons, phiEnd, nextPhi_phiCounts h,
      ih fun q hq => h q (mem_cons_of_mem _ hq), map_cons, sum_cons]
    congr 1
    omega

def calleeArity (m : Machine σ) : Nat := ((calleeAt m).map (·.args.length)).getD 0

theorem opcodeOf_eq_callprivate (h : opcodeOf s = .CALLPRIVATE) :
    s.operation = .CALLPRIVATE := by
  unfold opcodeOf at h
  cases hs : s.operation <;> simp_all
  all_goals split at h <;> simp_all

theorem opcodeOf_ne_phiStart (s : AstStatement) : opcodeOf s ≠ .PHI_START := by
  intro h
  unfold opcodeOf at h
  cases hs : s.operation <;> simp_all
  all_goals split at h <;> simp_all

theorem stmtSize_eq (hc : opcodeOf s ≠ .CALLPRIVATE) (hr : opcodeOf s ≠ .RETURNPRIVATE) :
    stmtSize s = 1 + (opcodeOf s).operands := by
  unfold stmtSize
  split
  · next hs => exact absurd (by simp [opcodeOf, hs]) hc
  · next hs => exact absurd (by simp [opcodeOf, hs]) hr
  · rfl

theorem nextPc_fixed (m : Machine σ) {op : TACOp} (hphi : op ≠ .PHI_START)
    (hcall : op ≠ .CALLPRIVATE) : nextPc m op = m.pc + (1 + op.operands : Nat) := by
  unfold nextPc
  split
  · exact absurd rfl hphi
  · exact absurd rfl hcall
  · rfl

section
variable {f : AstFunction} {order : List AstBlock} {tf : TACFunction} {b : AstBlock} {k : Nat}
  {it : Item} {m : Machine σ}

theorem fetch_item (h : Transformed f order tf) (hat : ItemAt (order.flatMap AstBlock.items) k it)
    (hm : m.ctx.function = tf) (hpc : m.pc = k) : fetch m = .ok it.opcode := by
  unfold fetch
  rw [Machine.inst, add_zero, hm, hpc, h.code _ _ hat]
  dsimp only [bind, Except.bind]
  rw [TACOp.ofCode_code]
  rfl

theorem nextPc_item (h : Transformed f order tf)
    (hat : ItemAt (order.flatMap AstBlock.items) k it) (hit : it ∈ b.items)
    (hm : m.ctx.function = tf) (hpc : m.pc = k) (hcall : it.opcode ≠ .CALLPRIVATE)
    (hret : it.opcode ≠ .RETURNPRIVATE) : nextPc m it.opcode = ((k + it.size : Nat) : Int) := by
  rcases mem_items_cases hit with rfl | ⟨s, rfl, -⟩ | rfl
  · rw [nextPc_fixed m (by decide) (by decide), hpc]
    rfl
  · have hop : (stmtItem s).opcode = opcodeOf s := rfl
    rw [hop, nextPc_fixed m (opcodeOf_ne_phiStart s) hcall, hpc]
    have hsize : (stmtItem s).size = 1 + (opcodeOf s).operands := stmtSize_eq hcall hret
    rw [hsize, Nat.cast_add k]
  · have hcells := h.known k _ hat
    have hcount := hcells _ mem_cons_self
    have hpos : ((k + 1 : Nat) : Int) = m.pc + 1 := by rw [hpc]; rfl
    rw [hpos, ← hm] at hcount
    have hend : phiEnd tf b.phiStatements.length ((k + 2 : Nat) : Int) = _ :=
      phiEnd_phiCounts fun q hq => hcells q (mem_cons_of_mem _ hq)
    have hpos2 : m.pc + 2 = ((k + 2 : Nat) : Int) := by rw [hpc]; rfl
    rw [nextPc, cellD_of_ok hcount, Int.toNat_natCast, hm, hpos2, hend]
    simp only [phiGroupSize]
    push_cast
    ring

theorem nextPc_callprivate (h : Transformed f order tf)
    (hat : ItemAt (order.flatMap AstBlock.items) k (stmtItem s)) (hm : m.ctx.function = tf)
    (hpc : m.pc = k) (hcall : opcodeOf s = .CALLPRIVATE) :
    nextPc m .CALLPRIVATE = ((k + 3 + s.numAssignee + calleeArity m : Nat) : Int) := by
  have hop := opcodeOf_eq_callprivate hcall
  have hcount := h.known k _ hat (1, s.numAssignee) (by simp [stmtItem, stmtKnown, hop])
  have hpos : ((k + 1 : Nat) : Int) = m.pc + 1 := by rw [hpc]; rfl
  rw [hpos, ← hm] at hcount
  rw [nextPc, cellD_of_ok hcount, hpc, calleeArity]
  push_cast
  ring

end

theorem execJump_inv {m' : Machine σ} {ret : Ret} (h : execJump m = .ok (ret, m'))
    (hret : ret.2 = none) : m.inst 1 = .ok m'.pc ∧ m'.pc ≠ -1 := by
  obtain ⟨e, he, -⟩ := countJump_eq m
  unfold execJump at h
  rw [Exec.bind_of_ok he] at h
  obtain ⟨target, htarget, h⟩ := Exec.inst_bind h
  split at h
  · obtain ⟨err, m2, -, hfail⟩ := Exec.bind_eq_ok.mp h
    obtain ⟨rfl, -⟩ := Exec.fail_eq_ok.mp hfail
    cases hret
  · next hne =>
    have hdone := Exec.modify_bind h
    obtain ⟨-, rfl⟩ := Exec.done_eq_ok.mp hdone
    exact ⟨htarget, hne⟩

theorem execJump_goes_iff {q : Int} (hq : q ≠ -1) :
    (∃ m', execJump m = .ok (([], none), m') ∧ m'.pc = q) ↔ m.inst 1 = .ok q := by
  constructor
  · rintro ⟨m', hexec, rfl⟩
    exact (execJump_inv hexec rfl).1
  · intro hinst
    obtain ⟨e, he, -⟩ := countJump_eq m
    have hinst1 : ({ m with engine := e } : Machine σ).inst 1 = .ok q := hinst
    refine ⟨{ m with engine := e, pc := q }, ?_, rfl⟩
    unfold execJump
    rw [Exec.bind_of_ok he, Exec.bind_of_ok (Exec.inst_eq_ok.mpr ⟨hinst1, rfl⟩), if_neg hq]
    rfl

structure AtLast (tf : TACFunction) (b : AstBlock) (p : Int) (it : Item) (m : Machine σ) :
    Prop where
  function : m.ctx.function = tf
  last : b.items.getLast? = some it
  pc : m.pc + it.size = p + totalSize b.items
  notTaken : isConditional it.opcode = true → NotTaken m

def Inserted (after : List AstBlock) (a : GoString) : Prop :=
  after.head?.map AstBlock.address ≠ some a

instance (after : List AstBlock) (a : GoString) : Decidable (Inserted after a) :=
  inferInstanceAs (Decidable (_ ≠ _))

def Lands (tf : TACFunction) (inserted : Prop) (stop : Int) (s : GoString) (m : Machine σ) :
    Prop :=
  tf.blockByName[s]? = some m.pc ∨
    (inserted ∧ m.pc = stop ∧
      ∃ m', execJump m = .ok (([], none), m') ∧ tf.blockByName[s]? = some m'.pc)

def Follows (f : AstFunction) (b : AstBlock) (after : List AstBlock) (s a : GoString) : Prop :=
  if Inserted after a then JumpFinds f b.successor a s else ComesNext f b.name s

structure FallBlock (f0 f : AstFunction) (order : List AstBlock) (tf : TACFunction) (b : AstBlock)
    (after : List AstBlock) (s a : GoString) (b' : AstBlock) (p : Nat) : Prop where
  transformed : Transformed f order tf
  patched : Patched f0 f
  wellNamed : b'.WellNamed
  own : f.getBlock b'.name = some b'
  reachable : f.Reachable b'.name
  name : b'.name = b.name
  successor : b'.successor = b.successor
  place : tf.blockByName[b'.name]? = some (p : Int)
  falls : FallsTo (shiftBlock b) s
  base : baseAddr s = .ok a
  block : b' = if Inserted after a
    then (shiftBlock b).append (fallthroughJump a (shiftBlock b)) else shiftBlock b

namespace FallBlock
variable {f0 f : AstFunction} {order : List AstBlock} {tf : TACFunction} {b b' : AstBlock}
  {after : List AstBlock} {s a : GoString} {p : Nat}

def stop (b : AstBlock) (p : Nat) : Int := ((p + totalSize (shiftBlock b).items : Nat) : Int)

theorem successor_reachable (h : FallBlock f0 f order tf b after s a b' p) :
    ∀ n ∈ b'.successor, f.Reachable n :=
  fun _ hn => h.reachable.successor h.own hn

theorem items_prefix (h : FallBlock f0 f order tf b after s a b' p) :
    ∃ rest, b'.items = (shiftBlock b).items ++ rest := by
  have hblock := h.block
  split at hblock
  · exact ⟨_, by rw [hblock, items_append]⟩
  · exact ⟨[], by rw [hblock, append_nil]⟩

theorem jump_at_stop (h : FallBlock f0 f order tf b after s a b' p) (hins : Inserted after a) :
    tf.cell (stop b p) = .ok TACOp.JUMP.code ∧
      tf.cell (stop b p + 1) = .ok (resolveJump tf b'.successor a) := by
  have hblock := h.block
  rw [if_pos hins] at hblock
  have hitems : b'.items = (shiftBlock b).items ++
      [stmtItem (fallthroughJump a (shiftBlock b))] := by
    rw [hblock, items_append]
  have hlast : ItemAt b'.items (totalSize (shiftBlock b).items)
      (stmtItem (fallthroughJump a (shiftBlock b))) := ⟨_, [], hitems, rfl⟩
  obtain ⟨p', hp', hat⟩ := h.transformed.itemAt_block h.own h.reachable hlast
  obtain rfl : p = p' := by
    have := Option.some.inj (h.place.symm.trans hp')
    omega
  obtain ⟨block, arg, rest, hb, hargs, hcell⟩ := h.transformed.constJump _ _ hat (.inl rfl)
  rw [blockName_of_mem_items h.wellNamed hlast.mem, h.own] at hb
  cases hb
  obtain ⟨rfl, -⟩ := List.cons.inj hargs
  exact ⟨h.transformed.code _ _ hat, hcell⟩

theorem not_placed_at_stop (h : FallBlock f0 f order tf b after s a b' p)
    (hins : Inserted after a) (n : GoString) : tf.blockByName[n]? ≠ some (stop b p) := by
  intro hn
  have hflag := Transformed.cell_of_placed h.transformed hn
  rw [(h.jump_at_stop hins).1] at hflag
  exact absurd (TACOp.code_injective (Except.ok.inj hflag)) (by decide)

theorem lands_iff_placed (hne : Inserted after a → m.pc ≠ stop b p) :
    Lands tf (Inserted after a) (stop b p) s m ↔ tf.blockByName[s]? = some m.pc := by
  constructor
  · rintro (hs | ⟨hins, hpc, -⟩)
    · exact hs
    · exact absurd hpc (hne hins)
  · exact .inl

theorem lands_iff_follows (h : FallBlock f0 f order tf b after s a b' p) (hm : m.ctx.function = tf)
    (hpc : m.pc = stop b p) :
    Lands tf (Inserted after a) (stop b p) s m ↔ Follows f0 b after s a := by
  have hsmem : s ∈ b'.successor := by
    rw [h.successor]
    exact h.falls.mem
  obtain ⟨q, hq⟩ := (h.transformed.placed_iff s).mpr (h.successor_reachable s hsmem)
  by_cases hins : Inserted after a
  · have hinst : m.inst 1 = .ok (resolveJump tf b'.successor a) := by
      rw [Machine.inst, hm, hpc]
      exact (h.jump_at_stop hins).2
    have hqne : q ≠ -1 := by
      have := h.transformed.place_nonneg hq
      omega
    have hgoes : (∃ m', execJump m = .ok (([], none), m') ∧ tf.blockByName[s]? = some m'.pc) ↔
        resolveJump tf b'.successor a = q := by
      rw [hq]
      constructor
      · rintro ⟨m', hexec, hpc'⟩
        have hgo := (execJump_goes_iff hqne).mp ⟨m', hexec, (Option.some.inj hpc').symm⟩
        exact Except.ok.inj (hinst.symm.trans hgo)
      · intro hres
        obtain ⟨m', hexec, hpc'⟩ := (execJump_goes_iff hqne).mpr (hres ▸ hinst)
        exact ⟨m', hexec, by rw [hpc']⟩
    have hfinds : resolveJump tf b'.successor a = q ↔ JumpFinds f0 b.successor a s := by
      rw [h.transformed.resolveJump_iff h.successor_reachable hq, h.successor]
      refine (h.falls.leadsTo_iff h.base).trans ?_
      unfold JumpFinds
      simp only [h.patched.reachable]
      rfl
    rw [Follows, if_pos hins, ← hfinds, ← hgoes]
    constructor
    · rintro (hs | ⟨-, -, hj⟩)
      · exact absurd (hpc ▸ hs) (h.not_placed_at_stop hins s)
      · exact hj
    · exact fun hj => .inr ⟨hins, hpc, hj⟩
  · have hblock := h.block
    rw [if_neg hins] at hblock
    have hnext := h.transformed.place_after_iff h.own h.place hsmem
    have hcomes : ComesNext f b'.name s ↔ ComesNext f0 b.name s := by
      unfold ComesNext
      rw [h.name, h.patched.preorder, h.patched.successors]
    rw [Follows, if_neg hins, lands_iff_placed fun hi => absurd hi hins, ← hcomes, ← hnext, hpc,
      hblock]
    rfl

end FallBlock

/-! ### Blocks whose last instruction jumps

`add_block` moves numbered `ILLPHI` statements to the front, so that a jump before them can
become the last instruction of a block that falls through. -/

def VarLeadsTo (f : AstFunction) (successor : List GoString) (t s : GoString) : Prop :=
  ((withBase successor t).length = 1 ∧
      (s = t ∨ (f.blockNames.head? = some s ∧ ¬ f.Reachable t))) ∨
    ((withBase successor t).length ≠ 1 ∧ baseAddr s = .ok t ∧
      ∀ n, f.Reachable n → baseAddr n = .ok t → n = s)

section
variable {f : AstFunction} {order : List AstBlock} {tf : TACFunction} {successor : List GoString}
  {m m' : Machine σ} {v : Word} {ret : Ret}

theorem jumpToValue_placed (h : Transformed f order tf) (hm : m.ctx.function = tf)
    (hnoted : tf.uniqueJumpVarSucc[m.pc]? = some (uniqueAddrs successor))
    (hexec : jumpToValue v m = .ok (ret, m')) (hret : ret.2 = none) :
    ∃ n : GoString, tf.blockByName[n]? = some m'.pc := by
  subst hm
  by_cases hone : (withBase successor (Uint256.hex v)).length = 1
  · rw [jumpToValue_noted hnoted hone] at hexec
    cases hexec
    exact h.getD_placed _
  · rw [jumpToValue_not_noted hnoted hone] at hexec
    cases hu : m.ctx.function.uniqueBlockAddr[Uint256.hex v]? with
    | none =>
      rw [hu] at hexec
      obtain ⟨err, m2, -, hfail⟩ := Exec.bind_eq_ok.mp hexec
      obtain ⟨rfl, -⟩ := Exec.fail_eq_ok.mp hfail
      cases hret
    | some addr =>
      rw [hu] at hexec
      cases hexec
      obtain ⟨name, hname, -⟩ := h.uniqueBlockAddr_based hu
      exact ⟨name, hname⟩

theorem jumpToValue_leads_iff (h : Transformed f order tf) (hm : m.ctx.function = tf)
    (hnoted : tf.uniqueJumpVarSucc[m.pc]? = some (uniqueAddrs successor))
    (hexec : jumpToValue v m = .ok (ret, m')) (hret : ret.2 = none) {s : GoString}
    (hp : tf.blockByName[s]? = some p) :
    m'.pc = p ↔ VarLeadsTo f successor (Uint256.hex v) s := by
  subst hm
  by_cases hone : (withBase successor (Uint256.hex v)).length = 1
  · rw [jumpToValue_noted hnoted hone] at hexec
    cases hexec
    have hiff := blockByName_getD_iff h hp (Uint256.hex v)
    rw [← head?_map] at hiff
    refine hiff.trans ⟨fun hs => .inl ⟨hone, hs⟩, ?_⟩
    rintro (⟨-, hs⟩ | ⟨hne, -⟩)
    · exact hs
    · exact absurd hone hne
  · rw [jumpToValue_not_noted hnoted hone] at hexec
    cases hu : m.ctx.function.uniqueBlockAddr[Uint256.hex v]? with
    | none =>
      rw [hu] at hexec
      obtain ⟨err, m2, -, hfail⟩ := Exec.bind_eq_ok.mp hexec
      obtain ⟨rfl, -⟩ := Exec.fail_eq_ok.mp hfail
      cases hret
    | some addr =>
      rw [hu] at hexec
      cases hexec
      obtain ⟨name, hname, hbase, honly⟩ := h.uniqueBlockAddr_based hu
      constructor
      · rintro rfl
        obtain rfl := h.place_inj hname hp
        exact .inr ⟨hone, hbase, honly⟩
      · rintro (⟨hlen, -⟩ | ⟨-, hs, -⟩)
        · exact absurd hlen hone
        · have hsr := (h.placed_iff s).mp ⟨p, hp⟩
          rw [honly s hsr hs, hname] at hp
          exact Option.some.inj hp

end

def FallCondition (f : AstFunction) (b : AstBlock) (after : List AstBlock) (s a : GoString)
    (tf : TACFunction) (m : Machine σ) (it : Item) : Prop :=
  match it.opcode with
  | .JUMP => ∃ t arg, it.stmt = some t ∧ t.args.head? = some arg ∧ LeadsTo f b.successor arg.val s
  | .JUMP_VAR => ∃ r, m.operand 1 = .ok r ∧ VarLeadsTo f b.successor (Uint256.hex (m.val r)) s
  | .CALLPRIVATE =>
    if it.stmt.map passedArgs = some (calleeArity m) then Follows f b after s a
    else tf.blockByName[s]? = some (nextPc m .CALLPRIVATE)
  | _ => Follows f b after s a

namespace FallBlock
variable {f0 f : AstFunction} {order : List AstBlock} {tf : TACFunction} {b b' : AstBlock}
  {after : List AstBlock} {s a : GoString} {p : Nat} {host : Host σ} {st st' : LoopState σ}
  {it : Item}

theorem itemAt_last (h : FallBlock f0 f order tf b after s a b' p)
    (hat : AtLast tf (shiftBlock b) p it m) :
    ∃ k : Nat, m.pc = k ∧ (k + it.size : Nat) = stop b p ∧
      ItemAt (order.flatMap AstBlock.items) k it ∧ fetch m = .ok it.opcode := by
  obtain ⟨init, hinit⟩ := getLast?_eq_some_iff.mp hat.last
  obtain ⟨rest, hrest⟩ := h.items_prefix
  have hlast : ItemAt b'.items (totalSize init) it :=
    ⟨init, rest, by rw [hrest, hinit, append_assoc, singleton_append], rfl⟩
  obtain ⟨p', hp', hitem⟩ := h.transformed.itemAt_block h.own h.reachable hlast
  obtain rfl : p = p' := by
    have := Option.some.inj (h.place.symm.trans hp')
    omega
  have htotal : totalSize (shiftBlock b).items = totalSize init + it.size := by
    rw [hinit, totalSize_append, totalSize_cons, totalSize_nil, Nat.add_zero]
  have hpc : m.pc = ((p + totalSize init : Nat) : Int) := by
    have := hat.pc
    rw [htotal] at this
    push_cast at this ⊢
    omega
  refine ⟨_, hpc, ?_, hitem, fetch_item h.transformed hitem hat.function hpc⟩
  rw [stop, htotal, Nat.add_assoc]

theorem lands_iff_of_placed (h : FallBlock f0 f order tf b after s a b' p)
    (hplaced : ∃ n : GoString, tf.blockByName[n]? = some m.pc) :
    ∃ q, tf.blockByName[s]? = some q ∧
      (Lands tf (Inserted after a) (stop b p) s m ↔ m.pc = q) := by
  have hsmem : s ∈ b'.successor := by
    rw [h.successor]
    exact h.falls.mem
  obtain ⟨q, hq⟩ := (h.transformed.placed_iff s).mpr (h.successor_reachable s hsmem)
  refine ⟨q, hq, ?_⟩
  obtain ⟨n, hn⟩ := hplaced
  rw [lands_iff_placed fun hins hpc => h.not_placed_at_stop hins n (hpc ▸ hn), hq,
    Option.some.injEq]
  exact eq_comm

theorem stmt_of_jump (h : FallBlock f0 f order tf b after s a b' p)
    (hat : AtLast tf (shiftBlock b) p it m) (hflag : it.opcode ≠ .BLOCK_FLAG)
    (hphi : it.opcode ≠ .PHI_START) :
    ∃ t, it = stmtItem t ∧ f.getBlock t.blockName = some b' := by
  have hmem : it ∈ b'.items := by
    obtain ⟨rest, hrest⟩ := h.items_prefix
    rw [hrest]
    exact mem_append_left _ (mem_of_getLast? hat.last)
  rcases mem_items_cases hmem with rfl | ⟨t, rfl, -⟩ | rfl
  · exact absurd rfl hflag
  · refine ⟨t, rfl, ?_⟩
    rw [blockName_of_mem_items h.wellNamed hmem]
    exact h.own
  · exact absurd rfl hphi

theorem lands_iff_jump (h : FallBlock f0 f order tf b after s a b' p)
    (hat : AtLast tf (shiftBlock b) p it st.machine) (hstep : Step host st st')
    (hop : it.opcode = .JUMP) :
    Lands tf (Inserted after a) (stop b p) s st'.machine ↔
      FallCondition f0 b after s a tf st.machine it := by
  obtain ⟨k, hpc, -, hitem, hfetch⟩ := h.itemAt_last hat
  obtain ⟨t, rfl, hown⟩ := h.stmt_of_jump hat (by simp [hop]) (by simp [hop])
  obtain ⟨block, arg, rest, hblock, hargs, hcell⟩ := h.transformed.constJump k t hitem (.inl hop)
  cases hown.symm.trans hblock
  obtain ⟨fuel, e, op, ret, m', -, hop', hexec, hnone, -, -, hpc', -⟩ := step_inv hstep
  obtain rfl : op = .JUMP := by
    rw [hfetch, hop] at hop'
    exact (Except.ok.inj hop').symm
  obtain ⟨hinst, hne⟩ := execJump_inv hexec hnone
  have hdest : resolveJump tf b'.successor arg.val = st'.machine.pc := by
    rw [hpc']
    refine Except.ok.inj (hcell.symm.trans ?_)
    rw [← hinst, ← hpc, ← hat.function]
    rfl
  obtain ⟨q, hq, hlands⟩ := h.lands_iff_of_placed
    (h.transformed.resolveJump_placed hdest (hpc' ▸ hne))
  have hleads : LeadsTo f b'.successor arg.val s ↔ LeadsTo f0 b.successor arg.val s := by
    rw [h.successor]
    exact h.patched.leadsTo _ _ _
  rw [hlands, ← hdest, h.transformed.resolveJump_iff h.successor_reachable hq, hleads,
    FallCondition, hop]
  constructor
  · exact fun hl => ⟨t, arg, rfl, by rw [hargs]; rfl, hl⟩
  · rintro ⟨t', arg', ht, harg, hl⟩
    cases ht
    rw [hargs] at harg
    cases harg
    exact hl

theorem lands_iff_jumpVar (h : FallBlock f0 f order tf b after s a b' p)
    (hat : AtLast tf (shiftBlock b) p it st.machine) (hstep : Step host st st')
    (hop : it.opcode = .JUMP_VAR) :
    Lands tf (Inserted after a) (stop b p) s st'.machine ↔
      FallCondition f0 b after s a tf st.machine it := by
  obtain ⟨k, hpc, -, hitem, hfetch⟩ := h.itemAt_last hat
  obtain ⟨t, rfl, hown⟩ := h.stmt_of_jump hat (by simp [hop]) (by simp [hop])
  obtain ⟨block, hblock, -, hnoted⟩ := h.transformed.varJump k t hitem (.inl hop)
  cases hown.symm.trans hblock
  obtain ⟨fuel, e, op, ret, m', -, hop', hexec, hnone, -, -, hpc', -⟩ := step_inv hstep
  obtain rfl : op = .JUMP_VAR := by
    rw [hfetch, hop] at hop'
    exact (Except.ok.inj hop').symm
  -- the register the jump reads
  obtain ⟨_, m1, hcount, hread⟩ := Exec.bind_eq_ok.mp hexec
  obtain ⟨r, hr, hjump⟩ := Exec.operand_bind hread
  have hjump := Exec.val_bind hjump
  obtain ⟨hp1, hc1⟩ := (EngineOnly.countJump always_frameInv).same _ _ _ hcount
  have hr0 : st.machine.operand 1 = .ok r := by
    rw [← hr]
    exact (operand_congr hp1 hc1 1).symm
  have hv : m1.val r = st.machine.val r := by
    rw [Machine.val, Machine.reg, hc1]
    rfl
  have hnoted1 : tf.uniqueJumpVarSucc[m1.pc]? = some (uniqueAddrs b'.successor) := by
    rw [hp1, ← hnoted, ← hpc]
  have hm1 : m1.ctx.function = tf := by
    rw [hc1]
    exact hat.function
  have hplaced := jumpToValue_placed h.transformed hm1 hnoted1 hjump hnone
  obtain ⟨q, hq, hlands⟩ := h.lands_iff_of_placed (m := st'.machine) (hpc'.symm ▸ hplaced)
  have hiff := jumpToValue_leads_iff h.transformed hm1 hnoted1 hjump hnone hq
  have hleads : VarLeadsTo f b'.successor (Uint256.hex (st.machine.val r)) s ↔
      VarLeadsTo f0 b.successor (Uint256.hex (st.machine.val r)) s := by
    unfold VarLeadsTo
    simp only [h.patched.reachable, h.patched.blockNames, h.successor]
  rw [hlands, hpc', hiff, hv, hleads, FallCondition, hop]
  constructor
  · exact fun hl => ⟨r, hr0, hl⟩
  · rintro ⟨r', hr', hl⟩
    cases hr0.symm.trans hr'
    exact hl

theorem lands_iff (h : FallBlock f0 f order tf b after s a b' p)
    (hat : AtLast tf (shiftBlock b) p it st.machine) (hstep : Step host st st') :
    Lands tf (Inserted after a) (stop b p) s st'.machine ↔
      FallCondition f0 b after s a tf st.machine it := by
  by_cases hjump : it.opcode = .JUMP
  · exact h.lands_iff_jump hat hstep hjump
  by_cases hvar : it.opcode = .JUMP_VAR
  · exact h.lands_iff_jumpVar hat hstep hvar
  obtain ⟨k, hpc, hend, hitem, hfetch⟩ := h.itemAt_last hat
  have hfun : st'.machine.ctx.function = tf := (step_frame hstep).1.trans hat.function
  have hnext := step_pc hstep hfetch ⟨hjump, hvar⟩ hat.notTaken
  by_cases hcall : it.opcode = .CALLPRIVATE
  · obtain ⟨t, rfl, -⟩ := h.stmt_of_jump hat (by simp [hcall]) (by simp [hcall])
    have hpcall := nextPc_callprivate h.transformed hitem hat.function hpc hcall
    have hsize : (stmtItem t).size = 3 + t.numAssignee + passedArgs t := by
      simp [stmtItem, stmtSize, opcodeOf_eq_callprivate hcall]
    have hstmt : (stmtItem t).stmt.map passedArgs = some (passedArgs t) := rfl
    rw [hcall] at hnext
    rw [FallCondition, hcall, hstmt]
    dsimp only
    split
    · next harity =>
      refine h.lands_iff_follows hfun ?_
      rw [hnext, hpcall, ← hend, hsize, Option.some.inj harity]
      congr 1
      omega
    · next harity =>
      rw [lands_iff_placed, hnext]
      intro _ hstop
      rw [hnext, hpcall, ← hend, hsize] at hstop
      exact harity (congrArg some (by omega))
  · have hret : it.opcode ≠ .RETURNPRIVATE := by
      intro hret
      obtain ⟨fuel, e, op, ret, m', -, hop', hexec, -, -, hstop, -⟩ := step_inv hstep
      obtain rfl : op = .RETURNPRIVATE := by
        rw [hfetch, hret] at hop'
        exact (Except.ok.inj hop').symm
      exact absurd ((execReturnprivate_stops hexec).symm.trans hstop) (by decide)
    have hmem : it ∈ (shiftBlock b).items := mem_of_getLast? hat.last
    have hcond : FallCondition f0 b after s a tf st.machine it ↔ Follows f0 b after s a := by
      unfold FallCondition
      split
      · next hop => exact absurd hop hjump
      · next hop => exact absurd hop hvar
      · next hop => exact absurd hop hcall
      · exact Iff.rfl
    rw [hcond]
    refine h.lands_iff_follows hfun ?_
    rw [hnext, nextPc_item h.transformed hitem hmem hat.function hpc hcall hret, hend]

end FallBlock

theorem settled_address (b : AstBlock) : b.settled.address = b.address := by
  rcases settled_cases b with h | ⟨h, -⟩ <;> rw [h] <;> rfl

theorem fallBlock_of_source {f0 f : AstFunction} {enc : GoMap GoString Nat} (hwell : f.WellNamed)
    (hpatched : Patched f0 f) (htf : transformFunction enc f = .ok tf)
    {before after : List AstBlock} {b : AstBlock} (hb : SourceBlock f0 before b after)
    (hr : f0.Reachable b.name) {s : GoString} (hfall : FallsTo (shiftBlock b) s)
    (hp : tf.blockByName[b.name]? = some p) :
    ∃ order a b', ∃ k : Nat, p = k ∧ FallBlock f0 f order tf b after s a b' k := by
  obtain ⟨order, ht⟩ := transformed_transformFunction htf
  obtain ⟨b', hpatch, hname, hown⟩ := hb.patched hpatched
  have hne : b.successor ≠ [] := ne_nil_of_mem hfall.mem
  rw [settled_of_successor hne] at hpatch
  obtain ⟨a, ha, hblock⟩ := hfall.addMissingJump hpatch
  have hreach : f.Reachable b'.name := by
    rw [hname]
    exact (hpatched.reachable _).mpr hr
  obtain ⟨k, rfl, -⟩ := (ht.names _ _).mp hp
  have hfollowing : (after.map AstBlock.settled).head?.map AstBlock.address =
      after.head?.map AstBlock.address := by
    rw [head?_map, Option.map_map]
    congr 1
    funext c
    exact settled_address c
  refine ⟨order, a, b', k, rfl, ht, hpatched, hwell b' (f.getBlock_mem hown), hown, hreach, hname,
    (addMissingJumpBlock_graph hpatch).2, hname ▸ hp, hfall, ha, ?_⟩
  rw [hblock, addJump_eq, hfollowing]
  by_cases hins : Inserted after a
  · rw [if_pos hins, if_neg hins]
  · rw [if_neg hins, if_pos (not_not.mp hins)]

/-- A block of a parsed function that falls through to `s`, executed to the end of its
parsed statements. -/
theorem fallthrough_lands_iff {input : GoString} {ast ast' : AstProgram}
    (hparse : parseProgram input = .ok ast) (hpatch : patchProgram ast = .ok ast') {j : Nat}
    {f0 f : AstFunction} (hf0 : ast.functions[j]? = some f0) (hf : ast'.functions[j]? = some f)
    {enc : GoMap GoString Nat} (htf : transformFunction enc f = .ok tf)
    {before after : List AstBlock} {b : AstBlock} (hb : SourceBlock f0 before b after)
    (hr : f0.Reachable b.name) {s : GoString} (hfall : FallsTo (shiftBlock b) s)
    (hp : tf.blockByName[b.name]? = some p) {host : Host σ} {st st' : LoopState σ} {it : Item}
    (hat : AtLast tf (shiftBlock b) p it st.machine) (hstep : Step host st st') :
    ∃ a, baseAddr s = .ok a ∧
      (Lands tf (Inserted after a) (p + totalSize (shiftBlock b).items) s st'.machine ↔
        FallCondition f0 b after s a tf st.machine it) := by
  have hpatched := patched_at hpatch hf0 hf
  have hwell := wellNamed_patchProgram hparse hpatch f (mem_of_getElem? hf)
  obtain ⟨order, a, b', k, rfl, h⟩ := fallBlock_of_source hwell hpatched htf hb hr hfall hp
  exact ⟨a, h.base, h.lands_iff hat hstep⟩

/-! ### Three blocks

`0x0` jumps to `0x1` or falls through to `0x2`; `0x1` is empty and falls through to `0x2`, the
next block of the source. -/

def fallText (succ : String) : GoString :=
  ("function f()() public \x7b Begin block 0x0 prev = [], succ = [" ++ succ ++
    "] 0x0: JUMPI v0(0x1), v1(0x1) Begin block 0x1 prev = [0x0], succ = [0x2]" ++
    " Begin block 0x2 prev = [0x1], succ = [] 0x2: STOP \x7d").toList

def fallJumpi : AstStatement where
  name := "0x0".toList
  address := "0x0".toList
  operation := .JUMPI
  args := [⟨"v0".toList, "0x1".toList, .CONSTANT⟩, ⟨"v1".toList, "0x1".toList, .CONSTANT⟩]
  blockName := "0x0".toList

def fallEntry (succ : List String) : AstBlock :=
  ⟨"0x0".toList, "0x0".toList, [], succ.map String.toList, [fallJumpi]⟩

def fallEmpty : AstBlock :=
  ⟨"0x1".toList, "0x1".toList, ["0x0".toList], ["0x2".toList], []⟩

def fallStop : AstBlock :=
  ⟨"0x2".toList, "0x2".toList, ["0x1".toList], [],
    [⟨"0x2".toList, "0x2".toList, .STOP, [], 0, "0x2".toList, false⟩]⟩

def fallSource (succ : List String) : AstFunction :=
  ⟨"f()".toList, [], [fallEntry succ, fallEmpty, fallStop], true⟩

def fallPatched (succ : List String) : AstFunction :=
  ⟨"f()".toList, [], [(fallEntry succ).append (fallthroughJump "0x2".toList (fallEntry succ)),
    fallEmpty, fallStop], true⟩

theorem sourceBlock_fallEmpty (succ : List String) :
    SourceBlock (fallSource succ) [fallEntry succ] fallEmpty [fallStop] :=
  ⟨rfl, by
    rintro c hc
    rw [mem_singleton.mp hc]
    exact (by decide : "0x0".toList ≠ "0x1".toList)⟩

theorem fallsTo_fallEmpty : FallsTo (shiftBlock fallEmpty) "0x2".toList :=
  .one rfl (by decide)

theorem reachable_fallEmpty (succ : List String) (h : "0x1" ∈ succ) :
    (fallSource succ).Reachable fallEmpty.name :=
  ⟨fallEntry succ, rfl, .single (mem_map_of_mem h)⟩

def fallRun (succ : List String) : Option (Option Int × Option Int × List Event × Int × Int) :=
  match transformFunction ∅ (fallPatched succ), startOf (fallPatched succ) with
  | .ok tf, some s0 =>
    (runFor default 2 s0).bind fun r => (stepOnce default r.2).map fun s =>
      (tf.blockByName["0x1".toList]?, tf.blockByName["0x2".toList]?, r.1, r.2.machine.pc,
        s.machine.pc)
  | _, _ => none

theorem fallRun_eq_some {succ : List String} {p q : Option Int} {hist : List Event} {k k' : Int}
    (h : fallRun succ = some (p, q, hist, k, k')) :
    ∃ tf ctx st st', transformFunction ∅ (fallPatched succ) = .ok tf ∧
      newContext tf none = .ok ctx ∧ tf.blockByName["0x1".toList]? = p ∧
      tf.blockByName["0x2".toList]? = q ∧ Run default (startLoop ctx idleEngine) hist st ∧
      st.machine.ctx.function = tf ∧ st.machine.pc = k ∧ Step default st st' ∧
      st'.machine.pc = k' := by
  unfold fallRun at h
  split at h
  · next tf s0 htf hs0 =>
    obtain ⟨⟨hist', st⟩, hrun, h⟩ := Option.bind_eq_some_iff.mp h
    obtain ⟨st', hstep, heq⟩ := Option.map_eq_some_iff.mp h
    simp only [Prod.mk.injEq] at heq
    obtain ⟨rfl, rfl, rfl, rfl, rfl⟩ := heq
    obtain ⟨tf', ctx, htf', hctx, rfl⟩ := startOf_eq_some hs0
    cases htf.symm.trans htf'
    have hrun := run_of_runFor hrun
    exact ⟨tf, ctx, st, st', htf, hctx, rfl, rfl, hrun,
      hrun.function.trans (newContext_fresh hctx).1, rfl, step_of_stepOnce hstep, rfl⟩
  · cases h

theorem atLast_fallEmpty (hfun : m.ctx.function = tf) :
    AtLast tf (shiftBlock fallEmpty) m.pc ⟨.BLOCK_FLAG, 1, none, []⟩ m :=
  ⟨hfun, rfl, rfl, fun h => absurd h (by decide)⟩

/-- Listed in the order of the source, the empty block runs into block `0x2`. -/
theorem fallthrough_lands_in_order :
    ∃ tf ctx st st', parseProgram (fallText "0x1, 0x2") = .ok ⟨[fallSource ["0x1", "0x2"]]⟩ ∧
      transformFunction ∅ (fallPatched ["0x1", "0x2"]) = .ok tf ∧ newContext tf none = .ok ctx ∧
      Run default (startLoop ctx idleEngine) [⟨.BLOCK_FLAG, 0, []⟩, ⟨.JUMPI, 1, []⟩] st ∧
      Step default st st' ∧ tf.blockByName["0x2".toList]? = some st'.machine.pc ∧
      ∃ a, baseAddr "0x2".toList = .ok a ∧
        (Lands tf (Inserted [fallStop] a) (6 + totalSize (shiftBlock fallEmpty).items)
            "0x2".toList st'.machine ↔
          FallCondition (fallSource ["0x1", "0x2"]) fallEmpty [fallStop] "0x2".toList a tf
            st.machine ⟨.BLOCK_FLAG, 1, none, []⟩) := by
  have hparse : parseProgram (fallText "0x1, 0x2") = .ok ⟨[fallSource ["0x1", "0x2"]]⟩ := by
    decide +kernel
  have hpatch : patchProgram ⟨[fallSource ["0x1", "0x2"]]⟩ =
      .ok ⟨[fallPatched ["0x1", "0x2"]]⟩ := by
    decide +kernel
  obtain ⟨tf, ctx, st, st', htf, hctx, h1, h2, hrun, hfun, hpc, hstep, hpc'⟩ := fallRun_eq_some
    (show fallRun ["0x1", "0x2"] =
      some (some 6, some 7, [⟨.BLOCK_FLAG, 0, []⟩, ⟨.JUMPI, 1, []⟩], 6, 7) by decide +kernel)
  have hat := atLast_fallEmpty hfun
  rw [hpc] at hat
  refine ⟨tf, ctx, st, st', hparse, htf, hctx, hrun, hstep, h2.trans (congrArg some hpc'.symm), ?_⟩
  exact fallthrough_lands_iff hparse hpatch (j := 0) rfl rfl htf
    (sourceBlock_fallEmpty ["0x1", "0x2"]) (reachable_fallEmpty _ (by decide)) fallsTo_fallEmpty
    h1 hat hstep

/-- Listed the other way round, block `0x2` is laid out before the empty block, which then runs
off the end of the code. -/
theorem fallthrough_runs_off :
    ∃ tf ctx st st', parseProgram (fallText "0x2, 0x1") = .ok ⟨[fallSource ["0x2", "0x1"]]⟩ ∧
      patchProgram ⟨[fallSource ["0x2", "0x1"]]⟩ = .ok ⟨[fallPatched ["0x2", "0x1"]]⟩ ∧
      transformFunction ∅ (fallPatched ["0x2", "0x1"]) = .ok tf ∧ newContext tf none = .ok ctx ∧
      Run default (startLoop ctx idleEngine) [⟨.BLOCK_FLAG, 0, []⟩, ⟨.JUMPI, 1, []⟩] st ∧
      tf.blockByName[fallEmpty.name]? = some 8 ∧
      AtLast tf (shiftBlock fallEmpty) 8 ⟨.BLOCK_FLAG, 1, none, []⟩ st.machine ∧
      FallsTo (shiftBlock fallEmpty) "0x2".toList ∧ tf.blockByName["0x2".toList]? = some 6 ∧
      Step default st st' ∧ st'.machine.pc = 9 ∧ ¬ Inserted [fallStop] "0x2".toList ∧
      ¬ Lands tf (Inserted [fallStop] "0x2".toList) (8 + totalSize (shiftBlock fallEmpty).items)
        "0x2".toList st'.machine := by
  have hparse : parseProgram (fallText "0x2, 0x1") = .ok ⟨[fallSource ["0x2", "0x1"]]⟩ := by
    decide +kernel
  have hpatch : patchProgram ⟨[fallSource ["0x2", "0x1"]]⟩ =
      .ok ⟨[fallPatched ["0x2", "0x1"]]⟩ := by
    decide +kernel
  obtain ⟨tf, ctx, st, st', htf, hctx, h1, h2, hrun, hfun, hpc, hstep, hpc'⟩ := fallRun_eq_some
    (show fallRun ["0x2", "0x1"] =
      some (some 8, some 6, [⟨.BLOCK_FLAG, 0, []⟩, ⟨.JUMPI, 1, []⟩], 8, 9) by decide +kernel)
  have hat := atLast_fallEmpty hfun
  rw [hpc] at hat
  have hins : ¬ Inserted [fallStop] "0x2".toList := by decide
  refine ⟨tf, ctx, st, st', hparse, hpatch, htf, hctx, hrun, h1, hat, fallsTo_fallEmpty, h2, hstep,
    hpc', hins, ?_⟩
  rintro (hlands | ⟨h, -⟩)
  · rw [h2, hpc'] at hlands
    exact absurd hlands (by decide)
  · exact hins h

end EtherVal.Vm
