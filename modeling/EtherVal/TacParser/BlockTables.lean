import EtherVal.TacParser.JumpResolution

/-!
# The blocks of a function and their index tables
-/

namespace EtherVal.TacParser
open EtherVal.Lib

/-- The code and the tables that `transform_function` makes of the blocks `order`. -/
structure BlockTables (first : AstBlock) (order : List AstBlock) (tf : TACFunction) : Prop where
  length : tf.pos = codeSize order
  code : ∀ k it, ItemAt (order.flatMap AstBlock.items) k it → tf.cell k = .ok it.opcode.code
  names : ∀ (name : GoString) (p : Int), tf.blockByName[name]? = some p ↔
    ∃ k : Nat, p = k ∧ BlockAt order name k
  first : tf.blockByName[first.name]? = some 0
  inverse : ∀ (p : Int) (name : GoString), tf.blockByIndex[p]? = some name ↔
    tf.blockByName[name]? = some p
  flags : ∀ (name : GoString) (p : Int), tf.blockByName[name]? = some p →
    tf.cell p = .ok TACOp.BLOCK_FLAG.code
  unique : ∀ (a : GoString) (p : Int), tf.uniqueBlockAddr[a]? = some p ↔
    ∃ b ∈ order, tf.blockByName[b.name]? = some p ∧ baseAddr b.name = .ok a ∧
      ∀ c ∈ order, baseAddr c.name = .ok a → c = b

section
variable {f : AstFunction} {first : AstBlock} {order : List AstBlock} {tf : TACFunction}

theorem IsWalk.head_eq (h : IsWalk f order) (hfirst : f.blocks.head? = some first) :
    ∃ rest, order = first :: rest := by
  obtain ⟨names, hnames⟩ := h.head
  obtain ⟨blocks, hb⟩ := List.head?_eq_some_iff.mp hfirst
  cases order with
  | nil => cases hnames
  | cons b rest =>
    have hname : b.name = first.name := by
      simpa [AstFunction.blockNames, hb] using (List.cons.inj hnames).1
    have hown := h.own b List.mem_cons_self
    rw [hname, getBlock_head hfirst] at hown
    exact ⟨rest, by rw [Option.some.inj hown]⟩

theorem Transformed.mem_order_iff (h : Transformed f order tf) (name : GoString) :
    (∃ p, tf.blockByName[name]? = some p) ↔ ∃ b ∈ order, b.name = name := by
  rw [h.placed_iff, ← h.walk.reachable, List.mem_map]

theorem Transformed.unique_iff (h : Transformed f order tf) (a : GoString) (p : Int) :
    tf.uniqueBlockAddr[a]? = some p ↔
      ∃ b ∈ order, tf.blockByName[b.name]? = some p ∧ baseAddr b.name = .ok a ∧
        ∀ c ∈ order, baseAddr c.name = .ok a → c = b := by
  have hbase : ∀ b ∈ order, (baseAddr b.name = .ok a ↔ baseAddrText b.name = a) := fun b hb =>
    h.baseAddr_placed ((h.walk.reachable _).mp (List.mem_map_of_mem hb))
  rw [h.unique]
  constructor
  · rintro ⟨name, hp, ha, honly⟩
    obtain ⟨b, hb, rfl⟩ := (h.mem_order_iff name).mp ⟨p, hp⟩
    refine ⟨b, hb, hp, (hbase b hb).mpr ha, fun c hc hca => ?_⟩
    obtain ⟨q, hq⟩ := (h.mem_order_iff c.name).mpr ⟨c, hc, rfl⟩
    have hname := honly c.name q hq ((hbase c hc).mp hca)
    exact List.inj_on_of_nodup_map h.walk.nodup hc hb hname
  · rintro ⟨b, hb, hp, ha, honly⟩
    refine ⟨b.name, hp, (hbase b hb).mp ha, fun name q hq hname => ?_⟩
    obtain ⟨c, hc, rfl⟩ := (h.mem_order_iff name).mp ⟨q, hq⟩
    rw [honly c hc ((hbase c hc).mpr hname)]

theorem Transformed.blockTables (h : Transformed f order tf)
    (hfirst : f.blocks.head? = some first) : BlockTables first order tf := by
  obtain ⟨rest, hrest⟩ := h.walk.head_eq hfirst
  refine ⟨h.length, h.code, h.names, ?_, h.indices, ?_, h.unique_iff⟩
  · exact (h.names _ _).mpr ⟨0, rfl, [], first, rest, hrest, rfl, rfl⟩
  · intro name p hp
    exact h.cell_of_placed hp

/- With distinct names, the blocks in the order are the reachable ones of the function. -/
theorem IsWalk.mem_iff (h : IsWalk f order) (hnames : f.blockNames.Nodup) (b : AstBlock) :
    b ∈ order ↔ b ∈ f.blocks ∧ f.Reachable b.name := by
  constructor
  · intro hb
    exact ⟨f.getBlock_mem (h.own b hb), (h.reachable _).mp (List.mem_map_of_mem hb)⟩
  · rintro ⟨hb, hr⟩
    obtain ⟨c, hc, hname⟩ := List.mem_map.mp ((h.reachable _).mpr hr)
    have hcf := f.getBlock_mem (h.own c hc)
    rwa [← List.inj_on_of_nodup_map hnames hcf hb hname]

end

theorem layout_covers_reachable (f : AstFunction) (first : AstBlock)
    (hfirst : f.blocks.head? = some first) (hnames : f.blockNames.Nodup) (hclosed : f.Closed) :
    ∃ order, (∀ fuel, f.blocks.length ≤ fuel → getVisitOrder f fuel first [] = .ok order) ∧
      order.Nodup ∧ (∀ b, b ∈ order ↔ b ∈ f.blocks ∧ f.Reachable b.name) ∧
      ∀ enc tf, transformFunction enc f = .ok tf → BlockTables first order tf := by
  obtain ⟨order, hrun⟩ := hclosed.visits hfirst
  have hvisit : visitOrder f = .ok order := by
    obtain ⟨rest, hb⟩ := List.head?_eq_some_iff.mp hfirst
    have hlen := hrun _ le_rfl
    simp only [visitOrder, hb] at hlen ⊢
    exact hlen
  have hwalk := isWalk_visitOrder hvisit
  refine ⟨order, hrun, List.Nodup.of_map _ hwalk.nodup, hwalk.mem_iff hnames, ?_⟩
  intro enc tf htf
  obtain ⟨order', hvisit', ht⟩ := transformed_visitOrder htf
  cases hvisit.symm.trans hvisit'
  exact ht.blockTables hfirst

/- Two blocks that lead to each other, and one that nothing leads to. -/
def cyclicEntry : AstBlock := ⟨"0x0".toList, "0x0".toList, [], ["0x1".toList], []⟩

def cyclicFunction : AstFunction :=
  ⟨"f".toList, [], [cyclicEntry,
    ⟨"0x1".toList, "0x1".toList, ["0x0".toList], ["0x0".toList, "0x1".toList], []⟩,
    ⟨"0x2".toList, "0x2".toList, [], ["0x1".toList], []⟩], false⟩

theorem cyclicFunction_covers : ∃ (order : List AstBlock) (tf : TACFunction), order.length = 2 ∧
    getVisitOrder cyclicFunction 3 cyclicEntry [] = .ok order ∧
    transformFunction ∅ cyclicFunction = .ok tf ∧ tf.insts.length = 2 ∧
    BlockTables cyclicEntry order tf := by
  obtain ⟨order, hrun, -, -, htables⟩ := layout_covers_reachable cyclicFunction cyclicEntry rfl
    (by decide) (by unfold AstFunction.Closed; decide)
  have hthree := hrun 3 le_rfl
  have hlen : (getVisitOrder cyclicFunction 3 cyclicEntry []).map List.length = .ok 2 := by
    decide +kernel
  rw [hthree] at hlen
  have hcode : (transformFunction ∅ cyclicFunction).toOption.map (·.insts.length) = some 2 := by
    decide +kernel
  obtain ⟨tf, htf, hinsts⟩ := toOption_map hcode
  exact ⟨order, tf, Except.ok.inj hlen, hthree, htf, hinsts, htables ∅ tf htf⟩

def addressBlock : AstBlock :=
  ⟨"0x0".toList, "0x0".toList, [], [],
    [{ name := "0x0".toList, address := "0x0".toList, operation := .ADDRESS,
       blockName := "0x0".toList }]⟩

def addressFunction : AstFunction := ⟨"f()".toList, [], [addressBlock], true⟩

/-- `0x0: ADDRESS` without an assignee is parsed, and has no operand to push. -/
theorem transform_panics_without_assignee :
    parseProgram ("function f()() public \x7b Begin block 0x0 prev = [], succ = [] " ++
      "0x0: ADDRESS \x7d").toList = .ok ⟨[addressFunction]⟩ ∧
    addressFunction.blocks.head? = some addressBlock ∧ addressFunction.blockNames.Nodup ∧
    addressFunction.Closed ∧
    ∀ enc, transformFunction enc addressFunction = .error .indexOutOfRange :=
  ⟨by decide +kernel, rfl, by decide, by unfold AstFunction.Closed; decide, fun _ => rfl⟩

end EtherVal.TacParser
