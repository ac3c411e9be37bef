import EtherVal.TacParser.Layout
import EtherVal.TacParser.Walk

/-!
# The filling loop of `transform_function`
-/

namespace EtherVal.TacParser
open EtherVal.Lib List

theorem baseAddr_eq_ok {name a : GoString} :
    baseAddr name = .ok a ↔ "0x".toList <+: name ∧ a = baseAddrText name := by
  unfold baseAddr
  by_cases h : "0x".toList <+: name
  · rw [if_pos (by simpa using h), Except.ok.injEq]
    exact ⟨fun he => ⟨h, he.symm⟩, fun he => he.2.symm⟩
  · rw [if_neg (by simpa using h)]
    exact ⟨fun he => (by cases he), fun he => absurd he.1 h⟩

theorem mapM_baseAddr {names addrs : List GoString} (h : names.mapM baseAddr = .ok addrs) :
    addrs = names.map baseAddrText ∧ ∀ n ∈ names, "0x".toList <+: n := by
  induction names generalizing addrs with
  | nil =>
    cases h
    exact ⟨rfl, by simp⟩
  | cons n names ih =>
    rw [mapM_cons] at h
    obtain ⟨a, ha, h⟩ := bind_ok h
    obtain ⟨as, has, h⟩ := bind_ok h
    cases h
    obtain ⟨rfl, hpre⟩ := ih has
    obtain ⟨hn, rfl⟩ := baseAddr_eq_ok.mp ha
    exact ⟨rfl, forall_mem_cons.mpr ⟨hn, hpre⟩⟩

structure SamePlaces (g g' : TACFunction) : Prop where
  blockByName : g'.blockByName = g.blockByName
  blockByIndex : g'.blockByIndex = g.blockByIndex
  uniqueBlockAddr : g'.uniqueBlockAddr = g.uniqueBlockAddr
  length : g'.insts.length = g.insts.length

variable {g : TACFunction}

theorem SamePlaces.trans {f h : TACFunction} (hg : SamePlaces f g) (hh : SamePlaces g h) :
    SamePlaces f h :=
  ⟨hh.1.trans hg.1, hh.2.trans hg.2, hh.3.trans hg.3, hh.4.trans hg.4⟩

variable {g' : TACFunction}

theorem resolveJump_congr (h : SamePlaces g g') (successor : List GoString) (addr : GoString) :
    resolveJump g' successor addr = resolveJump g successor addr := by
  simp only [resolveJump, h.blockByName, h.uniqueBlockAddr]

def uniqueAddrs (names : List GoString) : List GoString :=
  (names.map baseAddrText).filter (fun a => (names.map baseAddrText).count a = 1)

inductive Filled (f : AstFunction) (g : TACFunction) (pc : Int) (stmt : AstStatement)
    (g' : TACFunction) : Prop where
  | toConstant (block : AstBlock) (arg : AstVariable) (rest : List AstVariable)
      (hop : g.cell pc = .ok TACOp.JUMP.code ∨ g.cell pc = .ok TACOp.JUMPI.code)
      (hblock : f.getBlock stmt.blockName = some block) (hargs : stmt.args = arg :: rest)
      (hlen : pc.toNat + 1 < g.insts.length)
      (hinsts : g'.insts = g.insts.set (pc.toNat + 1) (resolveJump g block.successor arg.val))
      (hvar : g'.uniqueJumpVarSucc = g.uniqueJumpVarSucc)
  | toVariable (block : AstBlock)
      (hop : g.cell pc = .ok TACOp.JUMP_VAR.code ∨ g.cell pc = .ok TACOp.JUMPI_VAR.code)
      (hblock : f.getBlock stmt.blockName = some block)
      (hnames : ∀ n ∈ block.successor, "0x".toList <+: n)
      (hinsts : g'.insts = g.insts)
      (hvar : g'.uniqueJumpVarSucc = g.uniqueJumpVarSucc.insert pc (uniqueAddrs block.successor))

variable {bases : List GoString}
variable {pc : Int}

theorem noteAmbiguous_inv {names : List GoString} (h : noteAmbiguous bases pc names g = .ok g') :
    SamePlaces g g' ∧ g'.insts = g.insts ∧ g'.uniqueJumpVarSucc = g.uniqueJumpVarSucc := by
  obtain ⟨addrs, -, h⟩ := bind_ok h
  split at h <;>
    (obtain rfl := Except.ok.inj h; exact ⟨⟨rfl, rfl, rfl, rfl⟩, rfl, rfl⟩)

variable {stmt : AstStatement}
variable {successor : List GoString}

theorem fillJump_inv {ignoreFirst : Bool} (hpc : 0 ≤ pc)
    (h : fillJump bases pc stmt successor ignoreFirst g = .ok g') :
    SamePlaces g g' ∧ ∃ arg rest, stmt.args = arg :: rest ∧ pc.toNat + 1 < g.insts.length ∧
      g'.insts = g.insts.set (pc.toNat + 1) (resolveJump g successor arg.val) ∧
      g'.uniqueJumpVarSucc = g.uniqueJumpVarSucc := by
  unfold fillJump at h
  cases hargs : stmt.args with
  | nil =>
    simp only [hargs] at h
    cases h
  | cons arg rest =>
    simp only [hargs] at h
    obtain ⟨g1, h1, h⟩ := bind_ok h
    obtain ⟨c, hc, h⟩ := bind_ok h
    cases h
    obtain ⟨hsame, hinsts, hvar⟩ := noteAmbiguous_inv h1
    generalize hg0 : (if 2 ≤ bases.count arg.val then
      { g with ambiguousJumpAddr := g.ambiguousJumpAddr.insert pc true } else g) = g0 at *
    have h0 : SamePlaces g g0 ∧ g0.insts = g.insts ∧
        g0.uniqueJumpVarSucc = g.uniqueJumpVarSucc := by
      rw [← hg0]
      split <;> exact ⟨⟨rfl, rfl, rfl, rfl⟩, rfl, rfl⟩
    have hall := h0.1.trans hsame
    have hcell := TACFunction.cell_eq_ok.mp hc
    have hnat : (pc + 1).toNat = pc.toNat + 1 := by omega
    rw [hnat] at hcell ⊢
    have hlt : pc.toNat + 1 < g1.insts.length := (List.getElem?_eq_some_iff.mp hcell.2).1
    refine ⟨⟨hall.1, hall.2, hall.3, ?_⟩, arg, rest, rfl, ?_, ?_, hvar.trans h0.2.2⟩
    · rw [length_set, hall.length]
    · rw [← hall.length]
      exact hlt
    · rw [hinsts, h0.2.1, resolveJump_congr hall]

theorem fillJumpVar_inv {ignoreFirst : Bool}
    (h : fillJumpVar bases pc successor ignoreFirst g = .ok g') :
    SamePlaces g g' ∧ (∀ n ∈ successor, "0x".toList <+: n) ∧ g'.insts = g.insts ∧
      g'.uniqueJumpVarSucc = g.uniqueJumpVarSucc.insert pc (uniqueAddrs successor) := by
  obtain ⟨g1, h1, h⟩ := bind_ok h
  obtain ⟨addrs, h2, h⟩ := bind_ok h
  cases h
  obtain ⟨hsame, hinsts, hvar⟩ := noteAmbiguous_inv h1
  obtain ⟨rfl, hpre⟩ := mapM_baseAddr h2
  exact ⟨⟨hsame.1, hsame.2, hsame.3, hsame.4⟩, hpre, hinsts, by rw [← hvar]; rfl⟩

variable {f : AstFunction}

theorem fillAddress_inv (h : fillAddress f bases g (pc, stmt) = .ok g') :
    SamePlaces g g' ∧ Filled f g pc stmt g' := by
  obtain ⟨c, hc, h⟩ := bind_ok h
  have hpc := (TACFunction.cell_eq_ok.mp hc).1
  cases hb : f.getBlock stmt.blockName with
  | none =>
    simp only [hb] at h
    cases h
  | some block =>
    simp only [hb] at h
    split at h
    · next hop =>
      obtain ⟨hs, arg, rest, ha, hl, hi, hv⟩ := fillJump_inv hpc h
      exact ⟨hs, .toConstant block arg rest (.inl (hop ▸ hc)) hb ha hl hi hv⟩
    split at h
    · next hop =>
      obtain ⟨hs, arg, rest, ha, hl, hi, hv⟩ := fillJump_inv hpc h
      exact ⟨hs, .toConstant block arg rest (.inr (hop ▸ hc)) hb ha hl hi hv⟩
    split at h
    · next hop =>
      obtain ⟨hs, hn, hi, hv⟩ := fillJumpVar_inv h
      exact ⟨hs, .toVariable block (.inl (hop ▸ hc)) hb hn hi hv⟩
    split at h
    · next hop =>
      obtain ⟨hs, hn, hi, hv⟩ := fillJumpVar_inv h
      exact ⟨hs, .toVariable block (.inr (hop ▸ hc)) hb hn hi hv⟩
    · cases h

theorem Filled.cell_eq {k : Int} (h : Filled f g pc stmt g') (hk : k ≠ pc + 1) :
    g'.cell k = g.cell k := by
  have hpc : ∀ c, g.cell pc = .ok c → 0 ≤ pc := fun c hc => (TACFunction.cell_eq_ok.mp hc).1
  cases h with
  | toVariable block hop hblock hnames hinsts hvar =>
    unfold TACFunction.cell
    rw [hinsts]
  | toConstant block arg rest hop hblock hargs hlen hinsts hvar =>
    have h0 : 0 ≤ pc := hop.elim (hpc _) (hpc _)
    cases k with
    | negSucc n => rfl
    | ofNat n =>
      have hne : pc.toNat + 1 ≠ n := by
        intro he
        apply hk
        rw [Int.ofNat_eq_natCast, ← he]
        omega
      simp only [TACFunction.cell, hinsts, getElem?_set_ne hne]

def Resolved (f : AstFunction) (g : TACFunction) (pc : Int) (stmt : AstStatement)
    (g' : TACFunction) : Prop :=
  ∃ block, f.getBlock stmt.blockName = some block ∧
    ((g.cell pc = .ok TACOp.JUMP.code ∨ g.cell pc = .ok TACOp.JUMPI.code) →
      ∃ arg rest, stmt.args = arg :: rest ∧
        g'.cell (pc + 1) = .ok (resolveJump g block.successor arg.val)) ∧
    ((g.cell pc = .ok TACOp.JUMP_VAR.code ∨ g.cell pc = .ok TACOp.JUMPI_VAR.code) →
      (∀ n ∈ block.successor, "0x".toList <+: n) ∧
        g'.uniqueJumpVarSucc[pc]? = some (uniqueAddrs block.successor))

theorem Filled.resolved {g1 : TACFunction} (h : Filled f g pc stmt g1)
    (hcell : g'.cell (pc + 1) = g1.cell (pc + 1))
    (hvars : g'.uniqueJumpVarSucc[pc]? = g1.uniqueJumpVarSucc[pc]?) :
    Resolved f g pc stmt g' := by
  have hpc : ∀ c, g.cell pc = .ok c → 0 ≤ pc := fun c hc => (TACFunction.cell_eq_ok.mp hc).1
  cases h with
  | toConstant block arg rest hop hblock hargs hlen hinsts hvar =>
    refine ⟨block, hblock, fun _ => ⟨arg, rest, hargs, ?_⟩, ?_⟩
    · have h0 : 0 ≤ pc := hop.elim (hpc _) (hpc _)
      have hnat : (pc + 1).toNat = pc.toNat + 1 := by omega
      rw [hcell, TACFunction.cell_eq_ok, hinsts, hnat]
      exact ⟨by omega, getElem?_set_self hlen⟩
    · rintro (hv | hv) <;> rcases hop with hop | hop <;>
        (rw [hop] at hv; exact absurd (Except.ok.inj hv) (by decide))
  | toVariable block hop hblock hnames hinsts hvar =>
    refine ⟨block, hblock, ?_, fun _ => ⟨hnames, ?_⟩⟩
    · rintro (hv | hv) <;> rcases hop with hop | hop <;>
        (rw [hop] at hv; exact absurd (Except.ok.inj hv) (by decide))
    · rw [hvars, hvar, GoMap.get_insert, if_pos rfl]

theorem Filled.vars_eq {k : Int} (h : Filled f g pc stmt g') (hk : k ≠ pc) :
    g'.uniqueJumpVarSucc[k]? = g.uniqueJumpVarSucc[k]? := by
  cases h with
  | toConstant block arg rest hop hblock hargs hlen hinsts hvar => rw [hvar]
  | toVariable block hop hblock hnames hinsts hvar =>
    rw [hvar, GoMap.get_insert, if_neg (Ne.symm hk)]

theorem foldlM_fillAddress {jumps : List (Int × AstStatement)} (hnd : (jumps.map Prod.fst).Nodup)
    (hgap : ∀ j ∈ jumps, ∀ j' ∈ jumps, j'.1 ≠ j.1 + 1)
    (h : jumps.foldlM (fillAddress f bases) g = .ok g') :
    SamePlaces g g' ∧ (∀ k, (∀ j ∈ jumps, k ≠ j.1 + 1) → g'.cell k = g.cell k) ∧
      (∀ k, k ∉ jumps.map Prod.fst → g'.uniqueJumpVarSucc[k]? = g.uniqueJumpVarSucc[k]?) ∧
      ∀ j ∈ jumps, Resolved f g j.1 j.2 g' := by
  induction jumps generalizing g with
  | nil =>
    cases h
    exact ⟨⟨rfl, rfl, rfl, rfl⟩, fun _ _ => rfl, fun _ _ => rfl, by simp⟩
  | cons j jumps ih =>
    rw [foldlM_cons] at h
    obtain ⟨g1, h1, h2⟩ := bind_ok h
    obtain ⟨hsame1, hfill⟩ := fillAddress_inv h1
    rw [map_cons, nodup_cons] at hnd
    obtain ⟨hsame, hcells, hvars, hres⟩ := ih hnd.2
      (fun a ha b hb => hgap a (mem_cons_of_mem _ ha) b (mem_cons_of_mem _ hb)) h2
    refine ⟨hsame1.trans hsame, ?_, ?_, ?_⟩
    · intro k hk
      rw [hcells k fun a ha => hk a (mem_cons_of_mem _ ha),
        hfill.cell_eq (hk j mem_cons_self)]
    · intro k hk
      rw [map_cons, mem_cons, not_or] at hk
      rw [hvars k hk.2, hfill.vars_eq hk.1]
    · intro a ha
      rcases mem_cons.mp ha with rfl | ha
      · refine hfill.resolved (hcells _ fun b hb he => ?_) (hvars _ hnd.1)
        have hkey : a.1 = b.1 := by omega
        exact hnd.1 (hkey ▸ mem_map_of_mem hb)
      · obtain ⟨block, hblock, hc, hv⟩ := hres a ha
        have hcell : g1.cell a.1 = g.cell a.1 :=
          hfill.cell_eq (hgap j mem_cons_self a (mem_cons_of_mem _ ha))
        rw [hcell] at hc hv
        simp only [resolveJump_congr hsame1] at hc
        exact ⟨block, hblock, hc, hv⟩

theorem get_addUniqueBlockAddrs {f : TACFunction} (hf : f.uniqueBlockAddr = ∅)
    (hb : blockBaseAddrs f = .ok bases) (a : GoString) (p : Int) :
    (addUniqueBlockAddrs bases f).uniqueBlockAddr[a]? = some p ↔
      ∃ name, f.blockByName[name]? = some p ∧ baseAddrText name = a ∧
        ∀ n q, f.blockByName[n]? = some q → baseAddrText n = a → n = name := by
  obtain ⟨rfl, -⟩ := mapM_baseAddr hb
  set l := f.blockByName.toList with hl
  have hkeys : (l.map Prod.fst).Nodup := f.blockByName.toList_keys_nodup
  have hzip : ((l.map Prod.fst).map baseAddrText).zip l =
      l.map (fun e => (baseAddrText e.1, e)) := by
    rw [map_map, ← map_id l, map_map, zip_map']
    simp
  have hone : ∀ n q, (n, q) ∈ l → (((l.map Prod.fst).map baseAddrText).count (baseAddrText n) = 1 ↔
      ∀ n' q', (n', q') ∈ l → baseAddrText n' = baseAddrText n → n' = n) := by
    intro n q hn
    have hmem : n ∈ l.map Prod.fst := mem_map.mpr ⟨_, hn, rfl⟩
    rw [count_map_eq_one_iff hkeys hmem]
    constructor
    · intro h n' q' hn' he
      exact h n' (mem_map.mpr ⟨_, hn', rfl⟩) he
    · intro h n' hn' he
      obtain ⟨⟨n1, q1⟩, hmem', rfl⟩ := mem_map.mp hn'
      exact h n1 q1 hmem' he
  unfold addUniqueBlockAddrs
  simp only [← hl, hzip, filter_map, hf]
  rw [foldl_map]
  set u := l.filter ((fun p => decide (((l.map Prod.fst).map baseAddrText).count p.1 = 1)) ∘
    fun e => (baseAddrText e.1, e)) with hu
  have humem : ∀ n q, (n, q) ∈ u ↔ (n, q) ∈ l ∧
      ((l.map Prod.fst).map baseAddrText).count (baseAddrText n) = 1 := by
    intro n q
    rw [hu, mem_filter]
    simp
  have hund : (u.map fun e => baseAddrText e.1).Nodup := by
    rw [nodup_map_iff_inj_on (List.Nodup.filter _ (List.Nodup.of_map _ hkeys))]
    rintro ⟨n, q⟩ hn ⟨n', q'⟩ hn' he
    obtain ⟨hn1, hn2⟩ := (humem n q).mp hn
    obtain ⟨hn1', -⟩ := (humem n' q').mp hn'
    obtain rfl := (hone n q hn1).mp hn2 n' q' hn1' he.symm
    have hq := (GoMap.mem_toList.mp hn1).symm.trans (GoMap.mem_toList.mp hn1')
    rw [Option.some.inj hq]
  rw [GoMap.get_foldl_insert hund]
  constructor
  · rintro (⟨⟨n, q⟩, hn, rfl, rfl⟩ | ⟨-, he⟩)
    · obtain ⟨hn1, hn2⟩ := (humem n q).mp hn
      refine ⟨n, GoMap.mem_toList.mp hn1, rfl, fun n' q' hn' he => ?_⟩
      exact (hone n q hn1).mp hn2 n' q' (GoMap.mem_toList.mpr hn') he
    · simp at he
  · rintro ⟨name, hname, rfl, huniq⟩
    have hn1 : (name, p) ∈ l := GoMap.mem_toList.mpr hname
    refine .inl ⟨(name, p), (humem name p).mpr ⟨hn1, (hone name p hn1).mpr ?_⟩, rfl, rfl⟩
    exact fun n' q' hn' he => huniq n' q' (GoMap.mem_toList.mp hn') he

/-! ### The result of `transform_function` -/

variable {s : AstStatement}

theorem jump_of_mem_items {block : AstBlock} {it : Item} (hit : it ∈ block.items)
    (hj : it.jump = some s) :
    it = stmtItem s ∧ (s.operation = .JUMP ∨ s.operation = .JUMPI) := by
  obtain ⟨hs, hop⟩ := Option.filter_eq_some_iff.mp hj
  refine ⟨?_, by simpa using hop⟩
  rcases mem_items_cases hit with rfl | ⟨t, rfl, -⟩ | rfl
  · cases hs
  · rw [Option.some.inj hs]
  · cases hs

theorem two_le_size_of_jump (h : s.operation = .JUMP ∨ s.operation = .JUMPI) :
    2 ≤ (stmtItem s).size := by
  rcases h with h | h <;> simp only [stmtItem, stmtSize, opcodeOf, h] <;> split <;> decide

structure Transformed (f : AstFunction) (order : List AstBlock) (tf : TACFunction) : Prop where
  walk : IsWalk f order
  length : tf.pos = codeSize order
  sized : ∀ it ∈ order.flatMap AstBlock.items, 0 < it.size
  code : ∀ k it, ItemAt (order.flatMap AstBlock.items) k it → tf.cell k = .ok it.opcode.code
  known : ∀ k it, ItemAt (order.flatMap AstBlock.items) k it → ∀ q ∈ it.known,
    tf.cell ((k + q.1 : Nat) : Int) = .ok q.2
  names : ∀ (name : GoString) (p : Int), tf.blockByName[name]? = some p ↔
    ∃ k : Nat, p = k ∧ BlockAt order name k
  indices : ∀ (p : Int) (name : GoString), tf.blockByIndex[p]? = some name ↔
    tf.blockByName[name]? = some p
  hexNames : ∀ (name : GoString) (p : Int), tf.blockByName[name]? = some p → "0x".toList <+: name
  unique : ∀ (a : GoString) (p : Int), tf.uniqueBlockAddr[a]? = some p ↔
    ∃ name, tf.blockByName[name]? = some p ∧ baseAddrText name = a ∧
      ∀ n q, tf.blockByName[n]? = some q → baseAddrText n = a → n = name
  constJump : ∀ k s, ItemAt (order.flatMap AstBlock.items) k (stmtItem s) →
    opcodeOf s = .JUMP ∨ opcodeOf s = .JUMPI → ∃ block arg rest,
      f.getBlock s.blockName = some block ∧ s.args = arg :: rest ∧
      tf.cell (k + 1) = .ok (resolveJump tf block.successor arg.val)
  varJump : ∀ k s, ItemAt (order.flatMap AstBlock.items) k (stmtItem s) →
    opcodeOf s = .JUMP_VAR ∨ opcodeOf s = .JUMPI_VAR → ∃ block,
      f.getBlock s.blockName = some block ∧ (∀ n ∈ block.successor, "0x".toList <+: n) ∧
      tf.uniqueJumpVarSucc[(k : Int)]? = some (uniqueAddrs block.successor)

theorem operation_of_opcode_jump
    (h : opcodeOf s = .JUMP ∨ opcodeOf s = .JUMPI ∨ opcodeOf s = .JUMP_VAR ∨
      opcodeOf s = .JUMPI_VAR) : s.operation = .JUMP ∨ s.operation = .JUMPI := by
  unfold opcodeOf at h
  cases hs : s.operation <;> simp_all

theorem laid_empty {f : TACFunction} (hinsts : f.insts = []) (hbook : f.bookkeeping = ∅)
    (hnames : f.blockByName = ∅ ∧ f.blockByIndex = ∅)
    (hu : f.uniqueBlockAddr = ∅ ∧ f.uniqueJumpVarSucc = ∅) :
    Laid f [] := by
  refine ⟨⟨?_, ?_, ?_, ?_, ?_⟩, ?_, ?_, hu⟩
  · simp [TACFunction.pos, hinsts]
  · simp
  · rintro k it ⟨before, after, hl, -⟩
    simp at hl
  · rintro k it ⟨before, after, hl, -⟩
    simp at hl
  · intro k s
    rw [hbook]
    constructor
    · intro h
      simp at h
    · rintro ⟨p, -, it, ⟨before, after, hl, -⟩, -⟩
      simp at hl
  · intro name p
    rw [hnames.1]
    constructor
    · intro h
      simp at h
    · rintro ⟨k, -, before, b, after, hl, -⟩
      simp at hl
  · intro p name
    simp [hnames.1, hnames.2]

theorem appends_addArgs (args : List GoString) (f : TACFunction) :
    Appends f (addArgs args f) 0 := by
  induction args generalizing f with
  | nil => exact .refl f
  | cons arg rest ih =>
    set name := if GoString.hasPrefix arg "v".toList then arg else renderVar arg with hname
    have hvar := appends_addVar f name
    have hargs : Appends (f.addVar name).2
        { (f.addVar name).2 with args := (f.addVar name).2.args ++ [(f.addVar name).1] } 0 :=
      ⟨⟨rfl, rfl, rfl, rfl⟩, ⟨[], by simp, rfl⟩, rfl⟩
    exact (hvar.trans hargs).trans (ih _)

variable {enc : GoMap GoString Nat}

theorem laid_layoutFunction (h : layoutFunction enc f = .ok g) :
    ∃ order, visitOrder f = .ok order ∧ Laid g order := by
  obtain ⟨order, hw, h⟩ := bind_ok h
  have hwalk := isWalk_visitOrder hw
  refine ⟨order, hw, ?_⟩
  have hargs := appends_addArgs f.args { name := f.name }
  obtain ⟨cells, hc, hl⟩ := hargs.cells
  have hcells : cells = [] := length_eq_zero_iff.mp hl
  subst hcells
  have hempty : Laid (addVariableBlocks order (addArgs f.args { name := f.name })) [] :=
    laid_empty hc hargs.bookkeeping ⟨hargs.blockByName, hargs.blockByIndex⟩
      ⟨hargs.uniqueBlockAddr, hargs.uniqueJumpVarSucc⟩
  exact hempty.addBlocks hwalk.nodup h

variable {order : List AstBlock}

theorem Laid.jump_mem (hlaid : Laid g order) {j : Int × AstStatement}
    (hj : j ∈ g.bookkeeping.toList) :
    ∃ p : Nat, j.1 = p ∧ ItemAt (order.flatMap AstBlock.items) p (stmtItem j.2) ∧
      (j.2.operation = .JUMP ∨ j.2.operation = .JUMPI) := by
  obtain ⟨k, s⟩ := j
  obtain ⟨p, hp, it, hat, hjump⟩ := (hlaid.book k s).mp (GoMap.mem_toList.mp hj)
  obtain ⟨block, -, hit⟩ := mem_flatMap.mp hat.mem
  obtain ⟨rfl, hop⟩ := jump_of_mem_items hit hjump
  exact ⟨p, hp, hat, hop⟩

theorem Laid.jump_gap (hlaid : Laid g order) {k : Nat} {it : Item}
    (hk : ItemAt (order.flatMap AstBlock.items) k it) {j : Int × AstStatement}
    (hj : j ∈ g.bookkeeping.toList) : (k : Int) ≠ j.1 + 1 := by
  intro heq
  obtain ⟨p, hp, hat, hop⟩ := hlaid.jump_mem hj
  have hsize := two_le_size_of_jump hop
  rcases hk.disjoint hat with ⟨rfl, -⟩ | hle | hle <;> omega

variable {tf : TACFunction}

theorem Laid.fill {g1 : TACFunction} (hlaid : Laid g order) (hbook : g1.bookkeeping = g.bookkeeping)
    (h : g1.bookkeeping.toList.foldlM (fillAddress f bases) g1 = .ok tf) :
    SamePlaces g1 tf ∧ (∀ k, (∀ j ∈ g.bookkeeping.toList, k ≠ j.1 + 1) → tf.cell k = g1.cell k) ∧
      ∀ j ∈ g.bookkeeping.toList, Resolved f g1 j.1 j.2 tf := by
  rw [hbook] at h
  obtain ⟨hsame, hcells, -, hres⟩ := foldlM_fillAddress (GoMap.toList_keys_nodup _) (by
    intro j hj j' hj' heq
    obtain ⟨p, hp, hat, -⟩ := hlaid.jump_mem hj'
    exact hlaid.jump_gap hat hj (by rw [← hp, heq])) h
  exact ⟨hsame, hcells, hres⟩

theorem transformed_visitOrder (h : transformFunction enc f = .ok tf) :
    ∃ order, visitOrder f = .ok order ∧ Transformed f order tf := by
  obtain ⟨g, hg, h⟩ := bind_ok h
  obtain ⟨bases, hb, h⟩ := bind_ok h
  obtain ⟨order, horder, hlaid⟩ := laid_layoutFunction hg
  have hwalk := isWalk_visitOrder horder
  refine ⟨order, horder, ?_⟩
  set g1 := addUniqueBlockAddrs bases g with hg1
  have hbook : g1.bookkeeping = g.bookkeeping := rfl
  obtain ⟨hsame, hcells, hres⟩ := hlaid.fill hbook h
  have hcode : ∀ k it, ItemAt (order.flatMap AstBlock.items) k it →
      tf.cell k = .ok it.opcode.code := by
    intro k it hk
    rw [hcells k fun j hj => hlaid.jump_gap hk hj]
    exact hlaid.code k it hk
  -- a jump has no known cells, and the others do not share cells with one
  have hknown : ∀ k it, ItemAt (order.flatMap AstBlock.items) k it → ∀ q ∈ it.known,
      tf.cell ((k + q.1 : Nat) : Int) = .ok q.2 := by
    intro k it hk q hq
    obtain ⟨hlt, hcell⟩ := hlaid.known k it hk q hq
    rw [hcells]
    · exact hcell
    intro j hj heq
    obtain ⟨p, hp, hat, hop⟩ := hlaid.jump_mem hj
    have hsize := two_le_size_of_jump hop
    rcases hk.disjoint hat with ⟨rfl, rfl⟩ | hle | hle
    · rw [stmtItem_known (by rcases hop with h | h <;> simp [h])] at hq
      cases hq
    · omega
    · omega
  have hnames : tf.blockByName = g.blockByName := hsame.blockByName
  have hjumps : ∀ k s, ItemAt (order.flatMap AstBlock.items) k (stmtItem s) →
      (s.operation = .JUMP ∨ s.operation = .JUMPI) → Resolved f g1 k s tf := by
    intro k s hk hop
    have hjump : (stmtItem s).jump = some s := by
      rcases hop with hop | hop <;> simp [Item.jump, stmtItem, hop]
    exact hres (k, s) (GoMap.mem_toList.mpr ((hlaid.book k s).mpr ⟨k, rfl, _, hk, hjump⟩))
  refine ⟨hwalk, ?_, hlaid.sized, hcode, hknown, ?_, ?_, ?_, ?_, ?_, ?_⟩
  · rw [TACFunction.pos, hsame.length]
    exact hlaid.length
  · rw [hnames]
    exact hlaid.names
  · rw [hnames, hsame.blockByIndex]
    exact hlaid.indices
  · intro name p hp
    rw [hnames] at hp
    have hpre := (mapM_baseAddr hb).2
    exact hpre name (mem_map.mpr ⟨(name, p), GoMap.mem_toList.mpr hp, rfl⟩)
  · rw [hsame.uniqueBlockAddr, hnames]
    exact get_addUniqueBlockAddrs hlaid.unresolved.1 hb
  · intro k s hk hop
    obtain ⟨block, hblock, hc, -⟩ := hjumps k s hk
      (operation_of_opcode_jump (by rcases hop with h | h <;> simp [h]))
    have hopk := hlaid.code k _ hk
    obtain ⟨arg, rest, hargs, hcell⟩ := hc (by
      rcases hop with hop | hop
      · exact .inl (hop ▸ hopk)
      · exact .inr (hop ▸ hopk))
    exact ⟨block, arg, rest, hblock, hargs, by rw [hcell, resolveJump_congr hsame]⟩
  · intro k s hk hop
    obtain ⟨block, hblock, -, hv⟩ := hjumps k s hk
      (operation_of_opcode_jump (by rcases hop with h | h <;> simp [h]))
    have hopk := hlaid.code k _ hk
    obtain ⟨hpre, hvar⟩ := hv (by
      rcases hop with hop | hop
      · exact .inl (hop ▸ hopk)
      · exact .inr (hop ▸ hopk))
    exact ⟨block, hblock, hpre, hvar⟩

theorem transformed_transformFunction (h : transformFunction enc f = .ok tf) :
    ∃ order, Transformed f order tf := by
  obtain ⟨order, -, ht⟩ := transformed_visitOrder h
  exact ⟨order, ht⟩

end EtherVal.TacParser
