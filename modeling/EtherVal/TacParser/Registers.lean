import EtherVal.TacParser.Operands

/-!
# The registers of a transformed function
-/

namespace EtherVal.TacParser
open EtherVal.Lib List

variable {g : TACFunction}

def TACFunction.core (f : TACFunction) : TACFunction :=
  { f with insts := [], uniqueBlockAddr := ∅, uniqueJumpVarSucc := ∅, ambiguousJumpAddr := ∅ }

section
variable {f : AstFunction} {bases : List GoString} {pc : Int} {g g' : TACFunction}

theorem noteAmbiguous_core {names : List GoString} (h : noteAmbiguous bases pc names g = .ok g') :
    g'.core = g.core := by
  obtain ⟨addrs, -, h⟩ := bind_ok h
  split at h <;> (obtain rfl := Except.ok.inj h; rfl)

variable {successor : List GoString}

theorem fillJump_core {stmt : AstStatement} {ignoreFirst : Bool}
    (h : fillJump bases pc stmt successor ignoreFirst g = .ok g') : g'.core = g.core := by
  unfold fillJump at h
  cases hargs : stmt.args with
  | nil =>
    simp only [hargs] at h
    cases h
  | cons arg rest =>
    simp only [hargs] at h
    obtain ⟨g1, h1, h⟩ := bind_ok h
    obtain ⟨_, -, h⟩ := bind_ok h
    cases h
    have hnoted := noteAmbiguous_core h1
    split at hnoted <;> exact hnoted

theorem fillJumpVar_core {ignoreFirst : Bool}
    (h : fillJumpVar bases pc successor ignoreFirst g = .ok g') : g'.core = g.core := by
  obtain ⟨g1, h1, h⟩ := bind_ok h
  obtain ⟨addrs, -, h⟩ := bind_ok h
  rw [← noteAmbiguous_core h1, ← Except.ok.inj h]
  rfl

theorem fillAddress_core {entry : Int × AstStatement} (h : fillAddress f bases g entry = .ok g') :
    g'.core = g.core := by
  obtain ⟨c, -, h⟩ := bind_ok h
  cases hb : f.getBlock entry.2.blockName with
  | none =>
    simp only [hb] at h
    cases h
  | some block =>
    simp only [hb] at h
    split at h
    · exact fillJump_core h
    split at h
    · exact fillJump_core h
    split at h
    · exact fillJumpVar_core h
    split at h
    · exact fillJumpVar_core h
    · cases h

theorem foldlM_fillAddress_core {jumps : List (Int × AstStatement)}
    (h : jumps.foldlM (fillAddress f bases) g = .ok g') : g'.core = g.core := by
  induction jumps generalizing g with
  | nil =>
    cases h
    rfl
  | cons j jumps ih =>
    rw [foldlM_cons] at h
    obtain ⟨g1, h1, h2⟩ := bind_ok h
    exact (ih h2).trans (fillAddress_core h1)

end

theorem RegTable.of_core {g' : TACFunction} {occ : List AstVariable} (h : RegTable g occ)
    (hcore : g'.core = g.core) : RegTable g' occ := by
  have henc := congrArg TACFunction.variableEncoding hcore
  have hnum := congrArg TACFunction.numVars hcore
  have hsym := congrArg TACFunction.constSym hcore
  exact h.congr henc hnum hsym

def paramName (arg : GoString) : GoString :=
  if GoString.hasPrefix arg "v".toList then arg else renderVar arg

def AstFunction.params (f : AstFunction) : List AstVariable :=
  f.args.map fun arg => { name := paramName arg, typ := .VARIABLE }

theorem regTable_empty (name : GoString) : RegTable { name := name } [] := by
  constructor <;> simp

def RegistersOf (f : TACFunction) (ids : List Nat) (names : List GoString) : Prop :=
  ids.map some = names.map fun n => f.variableEncoding[n]?

theorem RegistersOf.extend {f f' : TACFunction} {ids : List Nat} {names : List GoString}
    (h : RegistersOf f ids names) (hext : Extends f f') : RegistersOf f' ids names := by
  unfold RegistersOf at h ⊢
  rw [h]
  refine map_congr_left fun n hn => ?_
  have hmem : f.variableEncoding[n]? ∈ ids.map some := h ▸ mem_map_of_mem hn
  obtain ⟨i, -, hi⟩ := mem_map.mp hmem
  rw [hext n i hi.symm, ← hi]

theorem addArgs_spec {args : List GoString} {f : TACFunction} {occ : List AstVariable}
    (h : RegTable f occ) {names : List GoString} (hids : RegistersOf f f.args names) :
    RegTable (addArgs args f) (occ ++ args.map fun arg => ⟨paramName arg, [], .VARIABLE⟩) ∧
      RegistersOf (addArgs args f) (addArgs args f).args (names ++ args.map paramName) := by
  induction args generalizing f occ names with
  | nil => simpa [addArgs] using ⟨h, hids⟩
  | cons arg rest ih =>
    have hreg := registers_addVar f (v := ⟨paramName arg, [], .VARIABLE⟩) (by simp)
    set f1 : TACFunction := { (f.addVar (paramName arg)).2 with
      args := (f.addVar (paramName arg)).2.args ++ [(f.addVar (paramName arg)).1] } with hf1
    have htable : RegTable f1 (occ ++ [⟨paramName arg, [], .VARIABLE⟩]) :=
      (hreg.table occ h).congr rfl rfl rfl
    have hids1 : RegistersOf f1 f1.args (names ++ [paramName arg]) := by
      have hold : RegistersOf f1 f.args names := hids.extend hreg.ext
      have hsame := congrArg Prod.fst hreg.signature
      change (f.addVar (paramName arg)).2.args = f.args at hsame
      have hargs : f1.args = f.args ++ [(f.addVar (paramName arg)).1] := by rw [hf1, hsame]
      unfold RegistersOf at hold ⊢
      rw [hargs, map_append, map_append, hold, map_singleton, map_singleton]
      exact congrArg (fun x => _ ++ [x]) hreg.register.symm
    have hrest := ih htable hids1
    rw [append_assoc, append_assoc] at hrest
    exact hrest

theorem addArgs_isPublic (args : List GoString) (f : TACFunction) :
    (addArgs args f).isPublic = f.isPublic := by
  induction args generalizing f with
  | nil => rfl
  | cons arg rest ih =>
    have hreg := registers_addVar f (v := ⟨paramName arg, [], .VARIABLE⟩) (by simp)
    exact (ih _).trans (congrArg Prod.snd hreg.signature)

theorem addArgs_notes (args : List GoString) (f : TACFunction) :
    (addArgs args f).notes = f.notes := by
  induction args generalizing f with
  | nil => rfl
  | cons arg rest ih =>
    have hreg := registers_addVar f (v := ⟨paramName arg, [], .VARIABLE⟩) (by simp)
    exact (ih _).trans hreg.notes

variable {b : Nat} {p : AstVariable × Nat}

theorem mem_zipIdx_pos {l : List AstVariable} (h : p ∈ l.zipIdx b) :
    b ≤ p.2 ∧ p.2 < b + l.length := by
  obtain ⟨v, i⟩ := p
  have hi := mem_zipIdx h
  exact ⟨hi.1, hi.2.1⟩

theorem stmtVars_pos {s : AstStatement} (h : p ∈ stmtVars b s) :
    b < p.2 ∧ p.2 < b + stmtSize s := by
  unfold stmtVars at h
  split at h
  · next hs =>
    have hsize : stmtSize s = 3 + s.numAssignee + passedArgs s := by simp only [stmtSize, hs]
    rcases mem_append.mp h with h | h
    · have hp := mem_zipIdx_pos h
      rw [length_take] at hp
      omega
    · have hp := mem_zipIdx_pos h
      rw [length_drop] at hp
      unfold passedArgs at hsize
      omega
  · next hs =>
    have hsize : stmtSize s = s.args.length + 1 := by simp only [stmtSize, hs]
    have hp := mem_zipIdx_pos h
    rw [length_tail] at hp
    omega
  · next hcall hret =>
    have hsize : stmtSize s = 1 + (opcodeOf s).operands := by
      unfold stmtSize
      split
      · next hs => exact absurd hs hcall
      · next hs => exact absurd hs hret
      · rfl
    have hp := mem_zipIdx_pos h
    rw [length_take] at hp
    omega

variable {enc : GoMap GoString Nat}

theorem stmtFacts_pos {s : AstStatement} {q : Nat × Int} (h : q ∈ stmtFacts enc b s) :
    b < q.1 ∧ (q.1 < b + stmtSize s ∨ q.1 = b + 1) ∧
      s.operation ≠ .JUMP ∧ s.operation ≠ .JUMPI := by
  unfold stmtFacts at h
  split at h
  · next hs =>
    have hsize : stmtSize s = 3 + s.numAssignee + passedArgs s := by simp only [stmtSize, hs]
    rw [mem_singleton.mp h, hs]
    exact ⟨by dsimp only; omega, .inl (by dsimp only; omega), by simp, by simp⟩
  · next hs =>
    rw [mem_singleton.mp h, hs]
    exact ⟨by dsimp only; omega, .inr rfl, by simp, by simp⟩
  · cases h

variable {phis : List AstStatement}

theorem phiVars_pos (h : p ∈ stmtsAt phiVar phiSize b phis) :
    b + 2 ≤ p.2 ∧ p.2 < b + (phis.map phiSize).sum := by
  obtain ⟨b', s, hlo, hhi, hp⟩ := exists_of_mem_stmtsAt h
  have hpos := mem_zipIdx_pos hp
  have hsize : phiSize s = 3 + (s.args.length - 1) := rfl
  omega

theorem phiFacts_pos {q : Nat × Int} (h : q ∈ stmtsAt phiFact phiSize b phis) :
    b ≤ q.1 ∧ q.1 < b + (phis.map phiSize).sum := by
  obtain ⟨b', s, hlo, hhi, hq⟩ := exists_of_mem_stmtsAt h
  have hsize : phiSize s = 3 + (s.args.length - 1) := rfl
  rw [mem_singleton.mp hq]
  dsimp only
  omega

theorem Laid.not_filled {order : List AstBlock} (hlaid : Laid g order) {k : Nat} {it : Item}
    (hk : ItemAt (order.flatMap AstBlock.items) k it) {p : Nat} (hp : k < p)
    (hlt : p < k + it.size ∨ p = k + 1) (hjump : it.jump = none ∨ p ≠ k + 1)
    {j : Int × AstStatement} (hj : j ∈ g.bookkeeping.toList) : (p : Int) ≠ j.1 + 1 := by
  intro heq
  obtain ⟨q, hq, hat, hop⟩ := hlaid.jump_mem hj
  have hsize := two_le_size_of_jump hop
  have hpos := hlaid.sized it hk.mem
  rcases hk.disjoint hat with ⟨rfl, rfl⟩ | hle | hle
  · have hsome : (stmtItem j.2).jump = some j.2 := by
      rcases hop with hop | hop <;> simp [Item.jump, stmtItem, hop]
    rcases hjump with hjump | hne
    · rw [hsome] at hjump
      cases hjump
    · omega
  · omega
  · omega

def groupStart (before : List AstBlock) (block : AstBlock) : Nat :=
  block.phiStart (codeSize before)

def HoldsRegister (tf : TACFunction) (v : AstVariable) (p : Nat) : Prop :=
  ∃ idx : Nat, tf.cell p = .ok (idx : Int) ∧ tf.variableEncoding[v.name]? = some idx

def occurrences (f : AstFunction) (order : List AstBlock) : List AstVariable :=
  f.params ++ (codeVars 0 order).map Prod.fst

structure Registered (enc : GoMap GoString Nat) (f : AstFunction) (order : List AstBlock)
    (tf : TACFunction) : Prop where
  table : RegTable tf (occurrences f order)
  args : RegistersOf tf tf.args (f.args.map paramName)
  isPublic : tf.isPublic = false
  operand : ∀ k s, ItemAt (order.flatMap AstBlock.items) k (stmtItem s) →
    ∀ p ∈ stmtVars k s, (stmtItem s).jump = none ∨ p.2 ≠ k + 1 → HoldsRegister tf p.1 p.2
  fact : ∀ k s, ItemAt (order.flatMap AstBlock.items) k (stmtItem s) →
    ∀ q ∈ stmtFacts enc k s, tf.cell q.1 = .ok q.2
  phi : ∀ before block after, order = before ++ block :: after →
    ∀ p ∈ stmtsAt phiVar phiSize (groupStart before block + 2) block.phiStatements,
      HoldsRegister tf p.1 p.2
  group : ∀ before block after, order = before ++ block :: after →
    ∀ q ∈ stmtsAt phiFact phiSize (groupStart before block + 2) block.phiStatements,
      tf.cell q.1 = .ok q.2

theorem itemAt_group {before after : List AstBlock} {block : AstBlock}
    (h : block.phiStatements ≠ []) :
    ItemAt ((before ++ block :: after).flatMap AstBlock.items) (groupStart before block)
      ⟨.PHI_START, phiGroupSize block.phiStatements, none,
        (1, block.phiStatements.length) :: phiCounts 2 block.phiStatements⟩ := by
  have hphi : block.phiItems = [⟨.PHI_START, phiGroupSize block.phiStatements, none,
      (1, block.phiStatements.length) :: phiCounts 2 block.phiStatements⟩] := if_neg h
  have hin : ItemAt block.items (1 + totalSize (block.constStatements.map stmtItem))
      ⟨.PHI_START, phiGroupSize block.phiStatements, none,
        (1, block.phiStatements.length) :: phiCounts 2 block.phiStatements⟩ := by
    refine ⟨⟨.BLOCK_FLAG, 1, none, []⟩ :: block.constStatements.map stmtItem,
      block.otherStatements.map stmtItem, ?_, by rw [totalSize_cons]⟩
    rw [AstBlock.items, hphi, append_assoc]
    rfl
  have hpos : groupStart before block = totalSize (before.flatMap AstBlock.items) +
      (1 + totalSize (block.constStatements.map stmtItem)) := by
    simp only [groupStart, AstBlock.phiStart, codeSize]
    omega
  rw [flatMap_append, flatMap_cons, hpos]
  exact (hin.append_right _).append_left

theorem encodes_layout {f : AstFunction} (h : layoutFunction enc f = .ok g) :
    ∃ order f0, visitOrder f = .ok order ∧ f0.insts = [] ∧
      RegTable f0 f.params ∧ RegistersOf f0 f0.args (f.args.map paramName) ∧
      f0.isPublic = false ∧ (∀ t, f0.notes t = ∅) ∧
      Encodes f0 g (codeVars 0 order) (codeAt (stmtFacts enc) phiFact 0 order)
        (codeAt stmtNotes phiNote 0 order) := by
  obtain ⟨order, hw, h⟩ := bind_ok h
  set f0 := addArgs f.args { name := f.name } with hf0
  have hinsts : f0.insts = [] := by
    obtain ⟨cells, hc, hl⟩ := (appends_addArgs f.args { name := f.name }).cells
    rw [hf0, hc, length_eq_zero_iff.mp hl, append_nil]
  have hspec := @addArgs_spec f.args _ _ (regTable_empty f.name) [] rfl
  refine ⟨order, addVariableBlocks order f0, hw, hinsts, ?_, ?_, ?_, fun t => ?_, ?_⟩
  · exact hspec.1.congr rfl rfl rfl
  · exact hspec.2
  · exact addArgs_isPublic f.args { name := f.name }
  · have hsame := congrFun (addArgs_notes f.args { name := f.name }) t
    cases t <;> exact hsame
  · have henc := encodes_addBlocks h
    have hlen : (addVariableBlocks order f0).insts.length = 0 := by
      simp [addVariableBlocks, hinsts]
    rwa [hlen] at henc

theorem registered_transformFunction {f : AstFunction} {tf : TACFunction}
    (h : transformFunction enc f = .ok tf) :
    ∃ order, visitOrder f = .ok order ∧ Registered enc f order tf := by
  obtain ⟨g, hg, h⟩ := bind_ok h
  obtain ⟨bases, -, h⟩ := bind_ok h
  obtain ⟨order, horder, hlaid⟩ := laid_layoutFunction hg
  obtain ⟨order', f0, horder', -, htable, hargs, hpublic, -, henc⟩ := encodes_layout hg
  cases horder.symm.trans horder'
  have hbook : (addUniqueBlockAddrs bases g).bookkeeping = g.bookkeeping := rfl
  have hfill : tf.core = (addUniqueBlockAddrs bases g).core := foldlM_fillAddress_core h
  have hcore : tf.core = g.core := hfill
  have hvars := congrArg TACFunction.variableEncoding hcore
  change tf.variableEncoding = g.variableEncoding at hvars
  obtain ⟨-, hcells, -⟩ := hlaid.fill hbook h
  -- cells the loop does not fill are the ones of the layout
  have hkeep : ∀ {k : Nat} {it : Item}, ItemAt (order.flatMap AstBlock.items) k it →
      ∀ {p : Nat} {c : Int}, k < p → (p < k + it.size ∨ p = k + 1) →
      (it.jump = none ∨ p ≠ k + 1) → g.insts[p]? = some c → tf.cell p = .ok c := by
    intro k it hk p c hp hlt hjump hc
    rw [hcells p fun j hj => hlaid.not_filled hk hp hlt hjump hj, TACFunction.cell_eq_ok]
    exact ⟨Int.natCast_nonneg _, hc⟩
  have hsig := congrArg TACFunction.signature hcore
  change tf.signature = g.signature at hsig
  refine ⟨order, horder, (henc.table _ htable).of_core hcore, ?_, ?_, ?_, ?_, ?_, ?_⟩
  · have hids := hargs.extend henc.ext
    have htf : tf.args = f0.args := congrArg Prod.fst (hsig.trans henc.signature)
    unfold RegistersOf at hids ⊢
    rw [htf, hvars, hids]
  · have htf : tf.isPublic = f0.isPublic := congrArg Prod.snd (hsig.trans henc.signature)
    rw [htf, hpublic]
  · intro k s hat p hp hjump
    have hmem : p ∈ codeVars 0 order := mem_codeAt_of_itemAt hat (by rwa [Nat.zero_add])
    obtain ⟨idx, hcell, hreg⟩ := henc.operand p hmem
    have hpos := stmtVars_pos hp
    refine ⟨idx, hkeep hat hpos.1 (.inl hpos.2) hjump hcell, ?_⟩
    rwa [hvars]
  · intro k s hat q hq
    have hmem : q ∈ codeAt (stmtFacts enc) phiFact 0 order :=
      mem_codeAt_of_itemAt hat (by rwa [Nat.zero_add])
    obtain ⟨hlt, hle, hj, hji⟩ := stmtFacts_pos hq
    refine hkeep hat hlt hle (.inl ?_) (henc.fact q hmem)
    simp [Item.jump, stmtItem, hj, hji]
  · rintro before block after rfl p hp
    have hpos := phiVars_pos hp
    have hne : block.phiStatements ≠ [] := by
      intro hnil
      rw [hnil] at hp
      cases hp
    have hmem : p ∈ codeVars 0 (before ++ block :: after) := mem_codeAt_of_block (by
      rw [Nat.zero_add]
      exact mem_append_left _ (mem_append_right _ hp))
    obtain ⟨idx, hcell, hreg⟩ := henc.operand p hmem
    refine ⟨idx, hkeep (itemAt_group hne) (by omega) (.inl ?_) (.inl rfl) hcell, ?_⟩
    · simp only [phiGroupSize]
      omega
    · rwa [hvars]
  · rintro before block after rfl q hq
    have hpos := phiFacts_pos hq
    have hne : block.phiStatements ≠ [] := by
      intro hnil
      rw [hnil] at hq
      cases hq
    have hmem : q ∈ codeAt (stmtFacts enc) phiFact 0 (before ++ block :: after) :=
      mem_codeAt_of_block (by
        rw [Nat.zero_add]
        exact mem_append_left _ (mem_append_right _ hq))
    refine hkeep (itemAt_group hne) (by omega) (.inl ?_) (.inl rfl) (henc.fact q hmem)
    simp only [phiGroupSize]
    omega

end EtherVal.TacParser
