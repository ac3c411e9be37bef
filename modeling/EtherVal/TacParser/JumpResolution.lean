import EtherVal.TacParser.Parsed
import EtherVal.TacParser.Resolve

/-!
# Destinations of jumps to constants

The destination is looked up by a prefix test on the names of the successors, not by their
base addresses.  The two agree unless one address is a prefix of another, or two reachable
blocks share an address.
-/

namespace EtherVal.TacParser
open EtherVal.Lib Relation List

variable {t name s : GoString} {b : AstBlock} {p : Int} {off : Nat} {tf : TACFunction}

theorem BlockAt.unique {blocks : List AstBlock} {n n' : GoString} {p : Nat}
    (h : BlockAt blocks n p) (h' : BlockAt blocks n' p) : n = n' := by
  obtain ⟨before, b, after, rfl, rfl, rfl⟩ := h
  obtain ⟨before', b', after', hl, rfl, hp⟩ := h'
  rcases append_eq_append_iff.mp hl with ⟨u, rfl, hu⟩ | ⟨u, rfl, hu⟩
  · cases u with
    | nil => rw [(List.cons.inj hu).1]
    | cons x u =>
      have hlt := codeSize_lt before u x
      omega
  · cases u with
    | nil => rw [(List.cons.inj hu).1]
    | cons x u =>
      have hlt := codeSize_lt before' u x
      omega

namespace Transformed
variable {f : AstFunction} {order : List AstBlock} {tf : TACFunction}

theorem placed_iff (h : Transformed f order tf) (name : GoString) :
    (∃ p, tf.blockByName[name]? = some p) ↔ f.Reachable name := by
  rw [← h.walk.reachable]
  constructor
  · rintro ⟨p, hp⟩
    obtain ⟨k, -, hk⟩ := (h.names name p).mp hp
    exact hk.mem
  · intro hname
    obtain ⟨b, hb, rfl⟩ := mem_map.mp hname
    obtain ⟨before, after, rfl⟩ := append_of_mem hb
    exact ⟨_, (h.names b.name _).mpr ⟨_, rfl, before, b, after, rfl, rfl, rfl⟩⟩

theorem place_nonneg (h : Transformed f order tf) (hp : tf.blockByName[name]? = some p) :
    0 ≤ p := by
  obtain ⟨k, rfl, -⟩ := (h.names name p).mp hp
  exact Int.natCast_nonneg k

theorem place_inj (h : Transformed f order tf) {n n' : GoString} (hp : tf.blockByName[n]? = some p)
    (hp' : tf.blockByName[n']? = some p) : n = n' := by
  obtain ⟨k, rfl, hk⟩ := (h.names n p).mp hp
  obtain ⟨k', hkk, hk'⟩ := (h.names n' k).mp hp'
  obtain rfl : k = k' := by omega
  exact hk.unique hk'

theorem baseAddr_placed (h : Transformed f order tf) (hr : f.Reachable name) :
    baseAddr name = .ok t ↔ baseAddrText name = t := by
  obtain ⟨p, hp⟩ := (h.placed_iff name).mpr hr
  rw [baseAddr_eq_ok]
  exact ⟨fun hb => hb.2.symm, fun hb => ⟨h.hexNames name p hp, hb.symm⟩⟩

theorem placed_block (h : Transformed f order tf) (hb : f.getBlock b.name = some b)
    (hr : f.Reachable b.name) :
    ∃ before after, order = before ++ b :: after ∧
      tf.blockByName[b.name]? = some (codeSize before : Int) := by
  obtain ⟨b', hb', hname⟩ := mem_map.mp ((h.walk.reachable b.name).mpr hr)
  have hown := h.walk.own b' hb'
  rw [hname, hb] at hown
  cases hown
  obtain ⟨before, after, rfl⟩ := append_of_mem hb'
  exact ⟨before, after, rfl, (h.names _ _).mpr ⟨_, rfl, before, b, after, rfl, rfl, rfl⟩⟩

theorem itemAt_order {before after : List AstBlock} {it : Item} (hit : ItemAt b.items off it) :
    ItemAt ((before ++ b :: after).flatMap AstBlock.items) (codeSize before + off) it := by
  rw [flatMap_append, flatMap_cons]
  exact (hit.append_right _).append_left

theorem itemAt_block (h : Transformed f order tf) {it : Item} (hb : f.getBlock b.name = some b)
    (hr : f.Reachable b.name) (hit : ItemAt b.items off it) :
    ∃ p : Nat, tf.blockByName[b.name]? = some (p : Int) ∧
      ItemAt (order.flatMap AstBlock.items) (p + off) it := by
  obtain ⟨before, after, rfl, hp⟩ := h.placed_block hb hr
  exact ⟨codeSize before, hp, itemAt_order hit⟩

theorem itemAt_of_placed (h : Transformed f order tf) {q : Int}
    (hq : tf.blockByName[name]? = some q) :
    ∃ k : Nat, q = k ∧
      ItemAt (order.flatMap AstBlock.items) k ⟨.BLOCK_FLAG, 1, none, []⟩ := by
  obtain ⟨k, rfl, before, c, rest, rfl, -, rfl⟩ := (h.names _ _).mp hq
  have hflag : ItemAt c.items 0 ⟨.BLOCK_FLAG, 1, none, []⟩ := ⟨[], _, rfl, rfl⟩
  exact ⟨_, rfl, itemAt_order hflag⟩

theorem cell_of_placed (h : Transformed f order tf) {q : Int} (hq : tf.blockByName[name]? = some q)
    : tf.cell q = .ok TACOp.BLOCK_FLAG.code := by
  obtain ⟨k, rfl, hat⟩ := h.itemAt_of_placed hq
  exact h.code k _ hat

end Transformed

theorem AstFunction.Reachable.successor {f : AstFunction} (hr : f.Reachable b.name)
    (hb : f.getBlock b.name = some b) (hs : s ∈ b.successor) :
    f.Reachable s := by
  obtain ⟨first, hfirst, hpath⟩ := hr
  refine ⟨first, hfirst, hpath.tail ?_⟩
  rwa [AstFunction.successors_of_getBlock hb]

theorem blockName_of_mem_items {s : AstStatement} (hb : b.WellNamed) (hs : stmtItem s ∈ b.items) :
    s.blockName = b.name := by
  have hconv : ∀ t ∈ b.converted, t.blockName = b.name := by
    intro t ht
    obtain ⟨u, hu, rfl⟩ := mem_map.mp ht
    rw [← hb.blockName u hu, convertIllphi]
    split <;> rfl
  rcases mem_items_stmt hs with hs | hs
  · obtain ⟨j, hj, heq⟩ := mem_mapIdx.mp hs
    have hmem := fst_mem_of_mem_zipIdx (mem_filter.mp (getElem_mem hj)).1
    rw [← heq, ← hconv _ hmem]
    split <;> rfl
  · exact hconv s (mem_filter.mp hs).1

def OnlySuccessor (successor : List GoString) (t s : GoString) : Prop :=
  s ∈ successor ∧ baseAddr s = .ok t ∧ ∀ n ∈ successor, baseAddr n = .ok t → n = s

structure ExactDest (tf : TACFunction) (successor : List GoString) (t : GoString) (cell : Int) :
    Prop where
  only : ∀ s, OnlySuccessor successor t s → tf.blockByName[s]? = some cell
  based : cell = -1 ∨ ∃ name, tf.blockByName[name]? = some cell ∧ baseAddr name = .ok t

def startingWith (successor : List GoString) (t : GoString) : List GoString :=
  successor.filter (fun name => GoString.hasPrefix name t)

/-- No address that `t` is a proper prefix of misleads the lookup. -/
structure Resolvable (f : AstFunction) (successor : List GoString) (t : GoString) : Prop where
  single : ∀ s, startingWith successor t = [s] → baseAddr s = .ok t
  several : (startingWith successor t).length ≠ 1 → ∀ s, OnlySuccessor successor t s →
    ∀ n, f.Reachable n → baseAddr n = .ok t → n = s

variable {successor : List GoString}

theorem mem_startingWith (hs : s ∈ successor) (ht : baseAddr s = .ok t) :
    s ∈ startingWith successor t := by
  obtain ⟨hhex, rfl⟩ := baseAddr_eq_ok.mp ht
  exact mem_filter.mpr ⟨hs, (GoString.hasPrefix_iff _ _).mpr ( baseAddrText_prefix hhex)⟩

theorem resolveJump_single (h : startingWith successor t = [s]) :
    resolveJump tf successor t = tf.blockByName[s]?.getD 0 := by
  have hs : successor.filter (fun name => GoString.hasPrefix name t) = [s] := h
  simp only [resolveJump, hs, map_cons, map_nil]

theorem resolveJump_several (h : (startingWith successor t).length ≠ 1) :
    resolveJump tf successor t = tf.uniqueBlockAddr[t]?.getD (-1) := by
  have hlen : ((successor.filter (fun name => GoString.hasPrefix name t)).map
      (fun name => tf.blockByName[name]?.getD 0)).length ≠ 1 := by
    rw [length_map]
    exact h
  unfold resolveJump
  dsimp only
  split
  · next heq =>
    rw [heq] at hlen
    exact absurd rfl hlen
  · rfl

namespace Transformed
variable {f : AstFunction} {order : List AstBlock} {tf : TACFunction}

theorem uniqueBlockAddr_based (h : Transformed f order tf) (hp : tf.uniqueBlockAddr[t]? = some p) :
    ∃ name, tf.blockByName[name]? = some p ∧ baseAddr name = .ok t ∧
      ∀ n, f.Reachable n → baseAddr n = .ok t → n = name := by
  obtain ⟨name, hname, rfl, honly⟩ := (h.unique t p).mp hp
  refine ⟨name, hname, baseAddr_eq_ok.mpr ⟨h.hexNames name p hname, rfl⟩, ?_⟩
  intro n hn hb
  obtain ⟨q, hq⟩ := (h.placed_iff n).mpr hn
  exact honly n q hq ((h.baseAddr_placed hn).mp hb)

theorem uniqueBlockAddr_of_only (h : Transformed f order tf) (hp : tf.blockByName[s]? = some p)
    (hs : baseAddr s = .ok t) (honly : ∀ n, f.Reachable n → baseAddr n = .ok t → n = s) :
    tf.uniqueBlockAddr[t]? = some p := by
  refine (h.unique t p).mpr ⟨s, hp, (baseAddr_eq_ok.mp hs).2.symm, ?_⟩
  intro n q hq hb
  exact honly n ((h.placed_iff n).mp ⟨q, hq⟩)
    (baseAddr_eq_ok.mpr ⟨h.hexNames n q hq, hb.symm⟩)

theorem exactDest_resolveJump_iff (h : Transformed f order tf)
    (hsucc : ∀ n ∈ successor, f.Reachable n) (t : GoString) :
    ExactDest tf successor t (resolveJump tf successor t) ↔ Resolvable f successor t := by
  by_cases hlen : (startingWith successor t).length = 1
  · -- the prefix test selects one successor, and the cell holds its place
    obtain ⟨s, hs⟩ := length_eq_one_iff.mp hlen
    have hmem : s ∈ successor :=
      (mem_filter.mp (by rw [startingWith] at hs; rw [hs]; simp)).1
    obtain ⟨p, hp⟩ := (h.placed_iff s).mpr (hsucc s hmem)
    have hcell : resolveJump tf successor t = p := by
      rw [resolveJump_single hs, hp]
      rfl
    rw [hcell]
    constructor
    · intro hex
      refine ⟨fun s' hs' => ?_, fun hne => absurd hlen hne⟩
      obtain rfl : s = s' := (List.cons.inj (hs.symm.trans hs')).1
      rcases hex.based with rfl | ⟨name, hname, hbase⟩
      · exact absurd (h.place_nonneg hp) (by decide)
      · rwa [h.place_inj hp hname]
    · intro hres
      have hbase := hres.single s hs
      refine ⟨fun s' hs' => ?_, .inr ⟨s, hp, hbase⟩⟩
      have hmem' := mem_startingWith hs'.1 hs'.2.1
      rw [hs, mem_singleton] at hmem'
      rw [hmem']
      exact hp
  · -- otherwise the cell comes from the table of unique addresses
    rw [resolveJump_several hlen]
    constructor
    · intro hex
      refine ⟨fun s' hs' => absurd (by rw [hs']; rfl) hlen, fun _ s hs => ?_⟩
      have hcell := hex.only s hs
      cases hu : tf.uniqueBlockAddr[t]? with
      | none =>
        rw [hu] at hcell
        exact absurd (h.place_nonneg hcell) (by decide)
      | some p =>
        rw [hu] at hcell
        obtain ⟨name, hname, hbase, honly⟩ := h.uniqueBlockAddr_based hu
        obtain rfl : s = name := h.place_inj hcell hname
        exact honly
    · intro hres
      refine ⟨fun s hs => ?_, ?_⟩
      · obtain ⟨p, hp⟩ := (h.placed_iff s).mpr (hsucc s hs.1)
        rw [h.uniqueBlockAddr_of_only hp hs.2.1 (hres.several hlen s hs)]
        exact hp
      · cases hu : tf.uniqueBlockAddr[t]? with
        | none => exact .inl rfl
        | some p =>
          obtain ⟨name, hname, hbase, -⟩ := h.uniqueBlockAddr_based hu
          exact .inr ⟨name, hname, hbase⟩

end Transformed

theorem opcodeOf_constant {s : AstStatement} {arg : AstVariable}
    (hop : s.operation = .JUMP ∨ s.operation = .JUMPI) (harg : s.args.head? = some arg)
    (hconst : arg.typ = .CONSTANT) : opcodeOf s = .JUMP ∨ opcodeOf s = .JUMPI := by
  have hjump : jumpsToConstant s = true := by simp [jumpsToConstant, harg, hconst]
  rcases hop with hop | hop
  · exact .inl (by simp [opcodeOf, hop, hjump])
  · exact .inr (by simp [opcodeOf, hop, hjump])

/-- A jump to a constant in a reachable block of a function that `TransformProgram`
transforms: `off` is the place of the jump within its block. -/
theorem constJump_exact_iff {input : GoString} {ast ast' : AstProgram}
    (hparse : parseProgram input = .ok ast) (hpatch : patchProgram ast = .ok ast') {f : AstFunction}
    (hf : f ∈ ast'.functions) {enc : GoMap GoString Nat} (htf : transformFunction enc f = .ok tf)
    (hb : f.getBlock b.name = some b) (hr : f.Reachable b.name) {s : AstStatement}
    (hs : ItemAt b.items off (stmtItem s)) (hop : s.operation = .JUMP ∨ s.operation = .JUMPI)
    {arg : AstVariable} (harg : s.args.head? = some arg) (hconst : arg.typ = .CONSTANT) :
    ∃ p cell : Int, tf.blockByName[b.name]? = some p ∧ tf.cell (p + off + 1) = .ok cell ∧
      (ExactDest tf b.successor arg.val cell ↔ Resolvable f b.successor arg.val) := by
  obtain ⟨order, ht⟩ := transformed_transformFunction htf
  obtain ⟨p, hp, hat⟩ := ht.itemAt_block hb hr hs
  obtain ⟨block, arg', rest, hblock, hargs, hcell⟩ :=
    ht.constJump _ s hat (opcodeOf_constant hop harg hconst)
  have hname := blockName_of_mem_items
    (wellNamed_patchProgram hparse hpatch f hf b (f.getBlock_mem hb)) hs.mem
  rw [hname, hb] at hblock
  cases hblock
  obtain rfl : arg' = arg := by
    rw [hargs] at harg
    exact Option.some.inj harg
  refine ⟨p, _, hp, ?_, ht.exactDest_resolveJump_iff (fun n hn => hr.successor hb hn) _⟩
  rw [← hcell, Nat.cast_add]

/-! ### A jump from `0x0` in a function whose other block is `0x10` -/

def jumpText (target : String) : GoString :=
  ("function f()() public \x7b Begin block 0x0 prev = [], succ = [0x10] 0x0: JUMP v0(" ++ target ++
    ") Begin block 0x10 prev = [0x0], succ = [] 0x10: STOP \x7d").toList

def jumpStatement (target : String) : AstStatement where
  name := "0x0".toList
  address := "0x0".toList
  operation := .JUMP
  args := [⟨"v0".toList, target.toList, .CONSTANT⟩]
  blockName := "0x0".toList

def jumpBlock (target : String) : AstBlock :=
  ⟨"0x0".toList, "0x0".toList, [], ["0x10".toList], [jumpStatement target]⟩

def stopStatement : AstStatement where
  name := "0x10".toList
  address := "0x10".toList
  operation := .STOP
  blockName := "0x10".toList

def jumpFunction (target : String) : AstFunction where
  name := "f()".toList
  args := []
  blocks := [jumpBlock target,
    ⟨"0x10".toList, "0x10".toList, ["0x0".toList], [], [stopStatement]⟩]
  isPublic := true

theorem itemAt_jumpBlock (target : String) :
    ItemAt (jumpBlock target).items 1 (stmtItem (jumpStatement target)) :=
  ⟨[⟨.BLOCK_FLAG, 1, none, []⟩], [], rfl, rfl⟩

def jumpCells : List Int :=
  [TACOp.BLOCK_FLAG.code, TACOp.JUMP.code, 3, TACOp.BLOCK_FLAG.code, TACOp.STOP.code]

def jumpCode (target : String) : Option (List Int × Option Int × Option Int) :=
  (transformFunction ∅ (jumpFunction target)).toOption.map fun tf =>
    (tf.insts, tf.blockByName["0x0".toList]?, tf.blockByName["0x10".toList]?)

theorem constJump_exact_matching :
    ∃ tf, parseProgram (jumpText "0x10") = .ok ⟨[jumpFunction "0x10"]⟩ ∧
      transformFunction ∅ (jumpFunction "0x10") = .ok tf ∧
      ∃ p cell : Int, tf.blockByName["0x0".toList]? = some p ∧
        tf.cell (p + 1 + 1) = .ok cell ∧
        (ExactDest tf ["0x10".toList] "0x10".toList cell ↔
          Resolvable (jumpFunction "0x10") ["0x10".toList] "0x10".toList) := by
  have hparse : parseProgram (jumpText "0x10") = .ok ⟨[jumpFunction "0x10"]⟩ := by
    decide +kernel
  have hpatch : patchProgram ⟨[jumpFunction "0x10"]⟩ = .ok ⟨[jumpFunction "0x10"]⟩ := by
    decide +kernel
  obtain ⟨tf, htf, -⟩ := toOption_map
    (show jumpCode "0x10" = some (jumpCells, some 0, some 3) by decide +kernel)
  refine ⟨tf, hparse, htf, ?_⟩
  exact constJump_exact_iff hparse hpatch mem_cons_self htf
    (b := jumpBlock "0x10") rfl ⟨jumpBlock "0x10", rfl, .refl⟩ (itemAt_jumpBlock "0x10") (.inl rfl)
    rfl rfl

/-- The address `0x1` is a prefix of the successor's address `0x10`, and the jump goes there. -/
theorem constJump_to_longer_address :
    ∃ tf, parseProgram (jumpText "0x1") = .ok ⟨[jumpFunction "0x1"]⟩ ∧
      patchProgram ⟨[jumpFunction "0x1"]⟩ = .ok ⟨[jumpFunction "0x1"]⟩ ∧
      transformFunction ∅ (jumpFunction "0x1") = .ok tf ∧
      ItemAt (jumpBlock "0x1").items 1 (stmtItem (jumpStatement "0x1")) ∧
      tf.blockByName["0x0".toList]? = some 0 ∧ tf.cell (0 + 1 + 1) = .ok 3 ∧
      tf.blockByName["0x10".toList]? = some 3 ∧
      ¬ ExactDest tf (jumpBlock "0x1").successor "0x1".toList 3 := by
  have hparse : parseProgram (jumpText "0x1") = .ok ⟨[jumpFunction "0x1"]⟩ := by decide +kernel
  have hpatch : patchProgram ⟨[jumpFunction "0x1"]⟩ = .ok ⟨[jumpFunction "0x1"]⟩ := by
    decide +kernel
  obtain ⟨tf, htf, hcode⟩ := toOption_map
    (show jumpCode "0x1" = some (jumpCells, some 0, some 3) by decide +kernel)
  obtain ⟨hinsts, h0, h10⟩ : _ ∧ _ ∧ _ := by simpa only [Prod.mk.injEq] using hcode
  have hcell : tf.cell (0 + 1 + 1) = .ok 3 := by
    rw [TACFunction.cell_eq_ok, hinsts]
    decide
  refine ⟨tf, hparse, hpatch, htf, itemAt_jumpBlock "0x1", h0, hcell, h10, fun hex => ?_⟩
  obtain ⟨order, ht⟩ := transformed_transformFunction htf
  rcases hex.based with h | ⟨name, hname, hbase⟩
  · exact absurd h (by decide)
  · obtain rfl := ht.place_inj h10 hname
    exact absurd hbase (by decide)

end EtherVal.TacParser
