import EtherVal.TacParser.JumpResolution
import EtherVal.TacParser.Notes
import EtherVal.TacParser.Reorder

/-!
# Moved declarations are noted
-/

namespace EtherVal.TacParser
open EtherVal.Lib List

variable {b : AstBlock} {i j : Nat} {tf : TACFunction}

def MarkedAs (l : List AstStatement) (i : Nat) (s : AstStatement) : Prop :=
  (s.kind = 0 ∧ ∃ t ∈ l.take i, 0 < t.kind) ∨
    (s.kind = 1 ∧ ((∃ t ∈ l.take i, 2 ≤ t.kind) ∨ ∃ t ∈ l.drop (i + 1), t.kind = 0)) ∨
    (s.kind = 2 ∧ ∃ t ∈ l.take i, t.kind = 3)

variable {s : AstStatement} {l : List AstStatement}

theorem split_at (h : l[i]? = some s) :
    l = l.take i ++ s :: l.drop (i + 1) := by
  obtain ⟨hi, rfl⟩ := List.getElem?_eq_some_iff.mp h
  rw [← drop_eq_getElem_cons hi, take_append_drop]

section
variable {b b' : AstBlock} {aux : List AstStatement}

theorem Settles.length_phis (h : Settles b b' aux)
    (hill : ∀ t ∈ b.statements, t.operation ≠ .ILLPHI) :
    b'.phiStatements.length = (b.statements.countP fun t => t.kind = 1) +
      b.statements.countP fun t => t.kind = 2 := by
  have hlen := congrArg List.length (h.phis hill)
  rwa [length_map, length_map, length_append, ← countP_eq_length_filter,
    ← countP_eq_length_filter] at hlen

theorem countP_kind_lt (l : List AstStatement) (n : Nat) :
    l.countP (fun t => t.kind < n + 1) =
      l.countP (fun t => t.kind < n) + l.countP (fun t => t.kind = n) := by
  induction l with
  | nil => rfl
  | cons t l ih =>
    simp only [countP_cons, decide_eq_true_eq, ih]
    split <;> split <;> split <;> omega

theorem Settles.partition (h : Settles b b' aux)
    (hill : ∀ t ∈ b.statements, t.operation ≠ .ILLPHI) :
    b'.emitted.map AstStatement.plain =
      (b.statements.filter (fun s => s.kind = 0) ++ b.statements.filter (fun s => s.kind = 1) ++
        b.statements.filter (fun s => s.kind = 2) ++ b.statements.filter (fun s => s.kind = 3) ++
        aux).map AstStatement.plain := by
  rw [AstBlock.emitted, map_append, map_append, h.consts hill, h.phis hill,
    h.others hill]
  simp only [map_append, append_assoc]

theorem Settles.emitted_at (h : Settles b b' aux) (hill : ∀ t ∈ b.statements, t.operation ≠ .ILLPHI)
    (hs : b.statements[i]? = some s) (hunmarked : s.patchReorder = false) (hk : s.kind ≤ 2) :
    ∃ s', b'.emitted[emittedAt b.statements i]? = some s' ∧ s'.plain = s.plain ∧
      s'.operation = (if s.kind = 0 then .CONST else .PHI) ∧
      (s'.patchReorder = true ↔ MarkedAs b.statements i s) := by
  have hl := split_at hs
  have hconsts := h.length_consts hill
  have hphis := h.length_phis hill
  have hzero : (b.statements.countP fun t => t.kind < 0) = 0 := by simp
  have hone : (b.statements.countP fun t => t.kind < 1) = _ := countP_kind_lt b.statements 0
  have htwo : (b.statements.countP fun t => t.kind < 2) = _ := countP_kind_lt b.statements 1
  rw [emittedAt_of_some hs]
  have hcases : s.kind = 0 ∨ s.kind = 1 ∨ s.kind = 2 := by omega
  rcases hcases with hk | hk | hk
  · obtain ⟨s', hget, hplain, hmark⟩ := h.const_at hl hill hk
    have hop := operation_constStatements (mem_of_getElem? hget)
    refine ⟨s', ?_, hplain, by rw [hop, if_pos hk], ?_⟩
    · have hlt := (List.getElem?_eq_some_iff.mp hget).1
      rw [hk, hzero, Nat.zero_add, AstBlock.emitted, append_assoc,
        getElem?_append_left hlt, hget]
    · rw [hmark, hunmarked, MarkedAs, hk]
      simp
  · obtain ⟨s', hget, hplain, hmark⟩ := h.phi_at hl hill hk
    have hop := operation_phiStatements (mem_of_getElem? hget)
    refine ⟨s', ?_, hplain, by rw [hop, if_neg (by omega)], ?_⟩
    · have hlt := (List.getElem?_eq_some_iff.mp hget).1
      have hidx : (b.statements.countP fun t => t.kind < 1) + ((b.statements.take i).countP
          fun t => t.kind = 1) = b'.constStatements.length +
            (b.statements.take i).countP fun t => t.kind = 1 := by omega
      rw [hk, hidx, AstBlock.emitted, append_assoc,
        getElem?_append_right (Nat.le_add_right _ _), Nat.add_sub_cancel_left,
        getElem?_append_left hlt, hget]
    · rw [hmark, hunmarked, MarkedAs, hk]
      simp
  · obtain ⟨s', hget, hplain, hmark⟩ := h.illphi_at hl hill hk
    have hop := operation_phiStatements (mem_of_getElem? hget)
    refine ⟨s', ?_, hplain, by rw [hop, if_neg (by omega)], ?_⟩
    · have hlt := (List.getElem?_eq_some_iff.mp hget).1
      have hidx : (b.statements.countP fun t => t.kind < 2) + ((b.statements.take i).countP
          fun t => t.kind = 2) = b'.constStatements.length +
            ((b.statements.countP fun t => t.kind = 1) +
              (b.statements.take i).countP fun t => t.kind = 2) := by omega
      rw [hk, hidx, AstBlock.emitted, append_assoc,
        getElem?_append_right (Nat.le_add_right _ _), Nat.add_sub_cancel_left,
        getElem?_append_left hlt, hget]
    · rw [hmark, hunmarked, MarkedAs, hk]
      simp

end

def NumberedInPlace (l : List AstStatement) : Prop :=
  ∀ i s, l[i]? = some s → s.kind = 2 → (∃ t ∈ l.drop (i + 1), t.kind < 2) →
    ∃ t ∈ l.take i, t.kind = 3

theorem markedAs_iff_moved (hs : l[i]? = some s) (hk : s.kind ≤ 2) :
    (MarkedAs l i s ↔ Moved l i) ↔
      (s.kind = 2 → (∃ t ∈ l.drop (i + 1), t.kind < 2) → ∃ t ∈ l.take i, t.kind = 3) := by
  rw [moved_iff hs]
  have hcases : s.kind = 0 ∨ s.kind = 1 ∨ s.kind = 2 := by omega
  have hthree : (∃ t ∈ l.take i, t.kind = 3) ↔ ∃ t ∈ l.take i, 2 < t.kind := by
    refine exists_congr fun t => and_congr_right fun _ => ?_
    have := kind_le t
    omega
  have hlow : (∃ t ∈ l.drop (i + 1), t.kind = 0) ↔ ∃ t ∈ l.drop (i + 1), t.kind < 1 := by
    refine exists_congr fun t => and_congr_right fun _ => ?_
    omega
  have hhigh : (∃ t ∈ l.take i, 2 ≤ t.kind) ↔ ∃ t ∈ l.take i, 1 < t.kind := Iff.rfl
  rcases hcases with hk | hk | hk
  · simp [MarkedAs, hk]
  · simp only [MarkedAs, hk, hlow, hhigh]
    simp
  · simp only [MarkedAs, hk, hthree]
    simp only [OfNat.ofNat_ne_zero, false_and, OfNat.ofNat_ne_one, true_and, false_or, forall_const]
    constructor
    · intro hiff hdrop
      exact hiff.mpr (.inr hdrop)
    · intro himp
      exact ⟨.inl, fun hor => hor.elim id himp⟩

def AstBlock.addr (b : AstBlock) (p e : Nat) : Nat :=
  let consts := b.constStatements.length
  let decls := consts + b.phiStatements.length
  if e < consts then p + 1 + totalSize ((b.constStatements.take e).map stmtItem)
  else if e < decls then b.phiStart p + 2 + ((b.phiStatements.take (e - consts)).map phiSize).sum
  else b.otherStart p + totalSize ((b.otherStatements.take (e - decls)).map stmtItem)

def emittedOp (s : AstStatement) : TACOp := if s.operation = .PHI then .PHI else opcodeOf s

variable {e : Nat}

theorem itemAt_map (h : l[e]? = some s) :
    ItemAt (l.map stmtItem) (totalSize ((l.take e).map stmtItem)) (stmtItem s) := by
  refine ⟨(l.take e).map stmtItem, (l.drop (e + 1)).map stmtItem, ?_, rfl⟩
  nth_rewrite 1 [split_at h]
  simp

/-- The code of the block `b` from cell `p` on: the flag, the instructions of the statements with
the start of the group before the first assignment, and the notes about the declarations. -/
structure BlockCode (tf : TACFunction) (b : AstBlock) (p : Nat) : Prop where
  flag : tf.cell p = .ok TACOp.BLOCK_FLAG.code
  group : b.phiStatements ≠ [] → tf.cell (b.phiStart p) = .ok TACOp.PHI_START.code ∧
    tf.cell (b.phiStart p + 1 : Nat) = .ok b.phiStatements.length
  stmts : ∀ e s, b.emitted[e]? = some s → tf.cell (b.addr p e) = .ok (emittedOp s).code
  const : ∀ e s, b.emitted[e]? = some s → s.operation = .CONST →
    tf.reorderConstAddr[(b.addr p e : Int)]? = some s.patchReorder
  phi : ∀ e s, b.emitted[e]? = some s → s.operation = .PHI →
    tf.reorderPhiAddr[(b.addr p e : Int)]? = some s.patchReorder

theorem AstBlock.emitted_cases {p : Nat} (h : b.emitted[e]? = some s) :
    (∃ j, b.constStatements[j]? = some s ∧
      b.addr p e = p + 1 + totalSize ((b.constStatements.take j).map stmtItem)) ∨
    (∃ j, b.phiStatements[j]? = some s ∧
      b.addr p e = b.phiStart p + 2 + ((b.phiStatements.take j).map phiSize).sum) ∨
    ∃ j, b.otherStatements[j]? = some s ∧
      b.addr p e = b.otherStart p + totalSize ((b.otherStatements.take j).map stmtItem) := by
  unfold AstBlock.emitted at h
  unfold AstBlock.addr
  dsimp only
  by_cases hc : e < b.constStatements.length
  · rw [append_assoc, getElem?_append_left hc] at h
    exact .inl ⟨e, h, if_pos hc⟩
  · rw [if_neg hc]
    by_cases hp : e < b.constStatements.length + b.phiStatements.length
    · rw [append_assoc, getElem?_append_right (by omega),
        getElem?_append_left (by omega)] at h
      exact .inr (.inl ⟨_, h, if_pos hp⟩)
    · have hlen : (b.constStatements ++ b.phiStatements).length ≤ e := by
        rw [length_append]
        omega
      rw [getElem?_append_right hlen, length_append] at h
      exact .inr (.inr ⟨_, h, if_neg hp⟩)

theorem AstBlock.itemAt_const (h : b.constStatements[j]? = some s) :
    ItemAt b.items (1 + totalSize ((b.constStatements.take j).map stmtItem)) (stmtItem s) := by
  have hin : ItemAt ([⟨.BLOCK_FLAG, 1, none, []⟩] ++ b.constStatements.map stmtItem) _
      (stmtItem s) :=
    (itemAt_map h).append_left
  exact (hin.append_right _).append_right _

theorem AstBlock.itemAt_other (h : b.otherStatements[j]? = some s) (p : Nat) :
    ∃ off, ItemAt b.items off (stmtItem s) ∧
      p + off = b.otherStart p + totalSize ((b.otherStatements.take j).map stmtItem) := by
  refine ⟨_, (itemAt_map h).append_left, ?_⟩
  simp only [AstBlock.otherStart, AstBlock.phiStart, totalSize_append, totalSize_cons]
  omega

theorem blockCode_of_reachable {enc : GoMap GoString Nat} {f : AstFunction}
    (htf : transformFunction enc f = .ok tf) (hb : f.getBlock b.name = some b)
    (hr : f.Reachable b.name) :
    ∃ p : Nat, tf.blockByName[b.name]? = some (p : Int) ∧ BlockCode tf b p := by
  obtain ⟨order, hw, ht⟩ := transformed_visitOrder htf
  obtain ⟨order', hw', hnotes⟩ := notes_transformFunction htf
  cases hw.symm.trans hw'
  obtain ⟨order', hw'', hreg⟩ := registered_transformFunction htf
  cases hw.symm.trans hw''
  obtain ⟨before, after, rfl, hp⟩ := ht.placed_block hb hr
  refine ⟨codeSize before, hp, ?_⟩
  have hnote : ∀ n ∈ b.entriesAt stmtNotes phiNote (codeSize before),
      (tf.notes n.table)[(n.pos : Int)]? = some n.value := by
    intro n hn
    have hmem := @mem_codeAt_of_block b _ stmtNotes phiNote n 0 before after (by rwa [Nat.zero_add])
    exact (hnotes _ _ _).mpr ⟨n, hmem, rfl, rfl, rfl⟩
  refine ⟨?_, ?_, ?_, ?_, ?_⟩
  · have hflag : ItemAt b.items 0 ⟨.BLOCK_FLAG, 1, none, []⟩ := ⟨[], _, rfl, rfl⟩
    exact ht.code _ _ (Transformed.itemAt_order hflag)
  · intro hne
    have hat := @itemAt_group before after b hne
    exact ⟨ht.code _ _ hat, ht.known _ _ hat _ mem_cons_self⟩
  · intro e s hs
    rcases b.emitted_cases (p := codeSize before) hs with ⟨j, hj, ha⟩ | ⟨j, hj, ha⟩ | ⟨j, hj, ha⟩
    · have hop := operation_constStatements (mem_of_getElem? hj)
      have hcell := ht.code _ _ (Transformed.itemAt_order (b.itemAt_const hj))
      rw [ha, Nat.add_assoc, emittedOp, if_neg (by simp [hop])]
      exact hcell
    · have hop := operation_phiStatements (mem_of_getElem? hj)
      rw [ha, emittedOp, if_pos hop]
      exact hreg.group before b after rfl _ (mem_stmtsAt hj (mem_singleton_self _))
    · have hop := operation_otherStatements (mem_of_getElem? hj)
      obtain ⟨off, hat, hoff⟩ := b.itemAt_other hj (codeSize before)
      rw [ha, ← hoff, emittedOp, if_neg hop.2]
      exact ht.code _ _ (Transformed.itemAt_order hat)
  · intro e s hs hop
    rcases b.emitted_cases (p := codeSize before) hs with ⟨j, hj, ha⟩ | ⟨j, hj, -⟩ | ⟨j, hj, -⟩
    · have hmem : (⟨.reorderConst, b.addr (codeSize before) e, s.patchReorder⟩ : Note) ∈
          stmtsAt stmtNotes stmtSize (codeSize before + 1) b.constStatements := by
        refine mem_stmtsAt hj ?_
        rw [ha, totalSize_stmtItems, stmtNotes, hop]
        exact mem_singleton_self _
      exact hnote _ (mem_append_left _ (mem_append_left _ hmem))
    · have hphi := operation_phiStatements (mem_of_getElem? hj)
      rw [hop] at hphi
      cases hphi
    · exact absurd hop (operation_otherStatements (mem_of_getElem? hj)).1
  · intro e s hs hop
    rcases b.emitted_cases (p := codeSize before) hs with ⟨j, hj, -⟩ | ⟨j, hj, ha⟩ | ⟨j, hj, -⟩
    · have hconst := operation_constStatements (mem_of_getElem? hj)
      rw [hop] at hconst
      cases hconst
    · have hmem : (⟨.reorderPhi, b.addr (codeSize before) e, s.patchReorder⟩ : Note) ∈
          stmtsAt phiNote phiSize (b.phiStart (codeSize before) + 2) b.phiStatements := by
        rw [ha]
        exact mem_stmtsAt hj (mem_singleton_self _)
      exact hnote _ (mem_append_left _ (mem_append_right _ hmem))
    · exact absurd hop (operation_otherStatements (mem_of_getElem? hj)).2

structure Partitions (b b' : AstBlock) (aux : List AstStatement) : Prop where
  atMostOne : aux.length ≤ 1
  inserted : ∀ s ∈ aux, isInserted s
  order : b'.emitted.map AstStatement.plain =
    (b.statements.filter (fun s => s.kind = 0) ++ b.statements.filter (fun s => s.kind = 1) ++
      b.statements.filter (fun s => s.kind = 2) ++ b.statements.filter (fun s => s.kind = 3) ++
      aux).map AstStatement.plain
  place : ∀ i s, b.statements[i]? = some s →
    ∃ s', b'.emitted[emittedAt b.statements i]? = some s' ∧ s'.plain = s.plain

def ExactNotes (tf : TACFunction) (b b' : AstBlock) (p : Nat) : Prop :=
  ∀ i s, b.statements[i]? = some s → s.kind ≤ 2 →
    ∃ flag, (if s.kind = 0 then tf.reorderConstAddr else tf.reorderPhiAddr)[
        (b'.addr p (emittedAt b.statements i) : Int)]? = some flag ∧
      (flag = true ↔ Moved b.statements i)

section
variable {b b' : AstBlock} {aux : List AstStatement}
  (hill : ∀ t ∈ b.statements, t.operation ≠ .ILLPHI)
  (hunmarked : ∀ t ∈ b.statements, t.patchReorder = false)

include hill hunmarked in
theorem Settles.partitions (h : Settles b b' aux) : Partitions b b' aux := by
  refine ⟨h.atMostOne, h.inserted, h.partition hill, fun i s hs => ?_⟩
  by_cases hk : s.kind ≤ 2
  · obtain ⟨s', hget, hplain, -⟩ :=
      h.emitted_at hill hs (hunmarked s (mem_of_getElem? hs)) hk
    exact ⟨s', hget, hplain⟩
  · have hle := kind_le s
    have hk3 : s.kind = 3 := by omega
    have hget := h.other_at (split_at hs) hill hk3
    refine ⟨s, ?_, rfl⟩
    have hzero : (b.statements.countP fun t => t.kind < 0) = 0 := by simp
    have hone : (b.statements.countP fun t => t.kind < 1) = _ := countP_kind_lt b.statements 0
    have htwo : (b.statements.countP fun t => t.kind < 2) = _ := countP_kind_lt b.statements 1
    have hthree : (b.statements.countP fun t => t.kind < 3) = _ := countP_kind_lt b.statements 2
    have hidx : (b.statements.countP fun t => t.kind < 3) + ((b.statements.take i).countP
        fun t => t.kind = 3) = (b'.constStatements ++ b'.phiStatements).length +
          (b.statements.take i).countP fun t => t.kind = 3 := by
      rw [length_append, h.length_consts hill, h.length_phis hill]
      omega
    rw [emittedAt_of_some hs, hk3, hidx, AstBlock.emitted,
      getElem?_append_right (Nat.le_add_right _ _), Nat.add_sub_cancel_left, hget]

include hill hunmarked in
theorem Settles.exactNotes_iff (h : Settles b b' aux) {p : Nat} (hcode : BlockCode tf b' p) :
    ExactNotes tf b b' p ↔ NumberedInPlace b.statements := by
  -- every declaration has a note, which is its mark
  have hnoted : ∀ i s, b.statements[i]? = some s → s.kind ≤ 2 →
      ∃ flag, (if s.kind = 0 then tf.reorderConstAddr else tf.reorderPhiAddr)[
          (b'.addr p (emittedAt b.statements i) : Int)]? = some flag ∧
        (flag = true ↔ MarkedAs b.statements i s) := by
    intro i s hs hk
    obtain ⟨s', hget, -, hop, hmark⟩ :=
      h.emitted_at hill hs (hunmarked s (mem_of_getElem? hs)) hk
    refine ⟨s'.patchReorder, ?_, hmark⟩
    by_cases hzero : s.kind = 0
    · rw [if_pos hzero] at hop ⊢
      exact hcode.const _ _ hget hop
    · rw [if_neg hzero] at hop ⊢
      exact hcode.phi _ _ hget hop
  constructor
  · intro hexact i s hs hk
    obtain ⟨flag, hflag, hmark⟩ := hnoted i s hs (by omega)
    obtain ⟨flag', hflag', hmoved⟩ := hexact i s hs (by omega)
    cases hflag.symm.trans hflag'
    exact (markedAs_iff_moved hs (by omega)).mp (hmark.symm.trans hmoved) hk
  · intro hplace i s hs hk
    obtain ⟨flag, hflag, hmark⟩ := hnoted i s hs hk
    exact ⟨flag, hflag, hmark.trans ((markedAs_iff_moved hs hk).mpr (hplace i s hs))⟩

end

/-- A reachable block of a parsed function, without `ILL_PHI`. -/
theorem reorder_exact_iff {input : GoString} {ast ast' : AstProgram}
    (hparse : parseProgram input = .ok ast) (hpatch : patchProgram ast = .ok ast')
    {f0 f : AstFunction} (hf0 : ast.functions[j]? = some f0) (hf : ast'.functions[j]? = some f)
    {enc : GoMap GoString Nat} (htf : transformFunction enc f = .ok tf)
    {before after : List AstBlock} (hb : SourceBlock f0 before b after) (hr : f0.Reachable b.name)
    (hill : ∀ t ∈ b.statements, t.operation ≠ .ILLPHI) :
    ∃ (p : Nat) (b' : AstBlock) (aux : List AstStatement),
      tf.blockByName[b.name]? = some (p : Int) ∧ f.getBlock b.name = some b' ∧
      BlockCode tf b' p ∧ Partitions b b' aux ∧
      (ExactNotes tf b b' p ↔ NumberedInPlace b.statements) := by
  have hpatched := patched_at hpatch hf0 hf
  obtain ⟨b', aux, hown, hset⟩ := settles_patched hb hpatched
  have hname : b'.name = b.name := f.getBlock_name hown
  have hunmarked : ∀ t ∈ b.statements, t.patchReorder = false := by
    intro t ht
    refine (unmarked_parseProgram hparse f0 (mem_of_getElem? hf0) b ?_ t ht).1
    rw [hb.blocks]
    simp
  obtain ⟨p, hp, hcode⟩ := blockCode_of_reachable htf (b := b') (by rw [hname, hown])
    (by rw [hname]; exact (hpatched.reachable _).mpr hr)
  rw [hname] at hp
  exact ⟨p, b', aux, hp, hown, hcode, hset.partitions hill hunmarked,
    hset.exactNotes_iff hill hunmarked hcode⟩

def orderText (op : String) : GoString :=
  ("function f()() public \x7b Begin block 0x0 prev = [], succ = [] 0x0: v1 = " ++ op ++
    " v2, v3 0x1: v4(0x5) = CONST 0x2: STOP \x7d").toList

def orderPhi (op : TokenType) : AstStatement where
  name := "0x0".toList
  address := "0x0".toList
  operation := op
  args := [⟨"v1".toList, [], .VARIABLE⟩, ⟨"v2".toList, [], .VARIABLE⟩, ⟨"v3".toList, [], .VARIABLE⟩]
  numAssignee := 1
  blockName := "0x0".toList

def orderConst : AstStatement where
  name := "0x1".toList
  address := "0x1".toList
  operation := .CONST
  args := [⟨"v4".toList, "0x5".toList, .CONSTANT⟩]
  numAssignee := 1
  blockName := "0x0".toList

def orderStop : AstStatement where
  name := "0x2".toList
  address := "0x2".toList
  operation := .STOP
  blockName := "0x0".toList

def orderBlock (op : TokenType) : AstBlock :=
  ⟨"0x0".toList, "0x0".toList, [], [], [orderPhi op, orderConst, orderStop]⟩

def orderFunction (block : AstBlock) : AstFunction := ⟨"f()".toList, [], [block], true⟩

def orderShifted (op : TokenType) : AstBlock := shiftBlock (orderBlock op)

theorem sourceBlock_orderBlock (op : TokenType) :
    SourceBlock (orderFunction (orderBlock op)) [] (orderBlock op) [] :=
  ⟨rfl, by simp⟩

theorem reachable_orderBlock (op : TokenType) :
    (orderFunction (orderBlock op)).Reachable (orderBlock op).name :=
  ⟨orderBlock op, rfl, .refl⟩

def orderNotes (op : TokenType) : Option (Option Int × Option Bool × Option Bool) :=
  (transformFunction ∅ (orderFunction (orderShifted op))).toOption.map fun tf =>
    (tf.blockByName["0x0".toList]?, tf.reorderConstAddr[(1 : Int)]?, tf.reorderPhiAddr[(5 : Int)]?)

theorem reorder_exact_phi :
    ∃ tf, parseProgram (orderText "PHI") = .ok ⟨[orderFunction (orderBlock .PHI)]⟩ ∧
      patchProgram ⟨[orderFunction (orderBlock .PHI)]⟩ = .ok ⟨[orderFunction (orderShifted .PHI)]⟩ ∧
      transformFunction ∅ (orderFunction (orderShifted .PHI)) = .ok tf ∧
      ∃ (p : Nat) (b' : AstBlock) (aux : List AstStatement),
        tf.blockByName["0x0".toList]? = some (p : Int) ∧
        (orderFunction (orderShifted .PHI)).getBlock "0x0".toList = some b' ∧
        BlockCode tf b' p ∧ Partitions (orderBlock .PHI) b' aux ∧
        (ExactNotes tf (orderBlock .PHI) b' p ↔ NumberedInPlace (orderBlock .PHI).statements) := by
  have hparse : parseProgram (orderText "PHI") = .ok ⟨[orderFunction (orderBlock .PHI)]⟩ := by
    decide +kernel
  have hpatch : patchProgram ⟨[orderFunction (orderBlock .PHI)]⟩ =
      .ok ⟨[orderFunction (orderShifted .PHI)]⟩ := by
    decide +kernel
  obtain ⟨tf, htf, -⟩ := toOption_map
    (show orderNotes .PHI = some (some 0, some true, some true) by decide +kernel)
  refine ⟨tf, hparse, hpatch, htf, ?_⟩
  exact reorder_exact_iff hparse hpatch (j := 0) rfl rfl htf (sourceBlock_orderBlock .PHI)
    (reachable_orderBlock .PHI) (by decide)

/-- A numbered `ILLPHI` before a constant moves behind it and is not noted as moved. -/
theorem reorder_illphi_unnoted :
    ∃ tf, parseProgram (orderText "ILLPHI1") = .ok ⟨[orderFunction (orderBlock .ILLPHI1)]⟩ ∧
      patchProgram ⟨[orderFunction (orderBlock .ILLPHI1)]⟩ =
        .ok ⟨[orderFunction (orderShifted .ILLPHI1)]⟩ ∧
      transformFunction ∅ (orderFunction (orderShifted .ILLPHI1)) = .ok tf ∧
      (∀ t ∈ (orderBlock .ILLPHI1).statements, t.operation ≠ .ILLPHI) ∧
      tf.blockByName["0x0".toList]? = some 0 ∧ tf.reorderPhiAddr[(5 : Int)]? = some false ∧
      Moved (orderBlock .ILLPHI1).statements 0 ∧
      ¬ ExactNotes tf (orderBlock .ILLPHI1) (orderShifted .ILLPHI1) 0 := by
  have hparse : parseProgram (orderText "ILLPHI1") =
      .ok ⟨[orderFunction (orderBlock .ILLPHI1)]⟩ := by
    decide +kernel
  have hpatch : patchProgram ⟨[orderFunction (orderBlock .ILLPHI1)]⟩ =
      .ok ⟨[orderFunction (orderShifted .ILLPHI1)]⟩ := by
    decide +kernel
  obtain ⟨tf, htf, hnotes⟩ := toOption_map
    (show orderNotes .ILLPHI1 = some (some 0, some true, some false) by decide +kernel)
  obtain ⟨hp, -, hq⟩ : _ ∧ _ ∧ _ := by simpa only [Prod.mk.injEq] using hnotes
  have hmoved : Moved (orderBlock .ILLPHI1).statements 0 := ⟨1, by decide, by decide, by decide⟩
  refine ⟨tf, hparse, hpatch, htf, by decide, hp, hq, hmoved, fun hexact => ?_⟩
  obtain ⟨flag, hflag, hiff⟩ := hexact 0 (orderPhi .ILLPHI1) rfl (by decide)
  have haddr : (orderShifted .ILLPHI1).addr 0
      (emittedAt (orderBlock .ILLPHI1).statements 0) = 5 := by
    decide
  rw [if_neg (by decide), haddr] at hflag
  cases hq.symm.trans hflag
  exact absurd (hiff.mpr hmoved) (by decide)

end EtherVal.TacParser
