import EtherVal.Lib.Displaced
import EtherVal.TacParser.Fallthrough

/-!
# The order of the statements in a block (`transformer.go:171-212`, `transformer.go:511-584`)
-/

namespace EtherVal.TacParser
open EtherVal.Lib List

variable {l : List AstStatement} {s : AstStatement} {b : AstBlock} {Q : AstStatement → Prop}

/-- The place of a statement's kind in the code of its block; assignments that come as a
numbered `ILLPHI` stand behind the others. -/
def AstStatement.kind (s : AstStatement) : Nat :=
  if s.operation = .CONST then 0 else if s.operation = .PHI then 1
  else if isNumberedIllphi s.operation then 2 else 3

def AstStatement.plain (s : AstStatement) : AstStatement :=
  { convertIllphi s with patchReorder := false }

def emittedAt (l : List AstStatement) (i : Nat) : Nat :=
  match l[i]? with
  | none => 0
  | some s =>
    l.countP (fun t => t.kind < s.kind) + (l.take i).countP (fun t => t.kind = s.kind)

def Moved (l : List AstStatement) (i : Nat) : Prop :=
  ∃ k < l.length, k ≠ i ∧ ¬ (i < k ↔ emittedAt l i < emittedAt l k)

variable {i k : Nat}

theorem countP_take_mono (p : AstStatement → Bool) (h : i ≤ k) :
    (l.take i).countP p ≤ (l.take k).countP p := by
  have hsub : (l.take i).Sublist (l.take k) := by
    have htake := take_sublist i (l.take k)
    rwa [take_take, Nat.min_eq_left h] at htake
  exact hsub.countP_le

variable {p : AstStatement → Bool}

theorem countP_take_lt (hs : l[i]? = some s) (hp : p s = true) (h : i < k) :
    (l.take i).countP p < (l.take k).countP p := by
  have hsucc : (l.take (i + 1)).countP p = (l.take i).countP p + 1 := by
    rw [take_add_one, hs, countP_append]
    simp [hp]
  have hmono := countP_take_mono (l := l) p (show i + 1 ≤ k from h)
  omega

theorem countP_kind_le (l : List AstStatement) {a b : Nat} (h : a < b) :
    l.countP (fun t => t.kind < a) + l.countP (fun t => t.kind = a) ≤
      l.countP (fun t => t.kind < b) := by
  induction l with
  | nil => simp
  | cons t l ih =>
    simp only [countP_cons, decide_eq_true_eq]
    split <;> split <;> split <;> omega

theorem emittedAt_of_some (hs : l[i]? = some s) :
    emittedAt l i =
      l.countP (fun t => t.kind < s.kind) + (l.take i).countP (fun t => t.kind = s.kind) := by
  simp only [emittedAt, hs]

variable {t : AstStatement}

theorem emittedAt_lt_of_kind (hs : l[i]? = some s) (ht : l[k]? = some t) (h : s.kind < t.kind) :
    emittedAt l i < emittedAt l k := by
  have hlt : i < l.length := (List.getElem?_eq_some_iff.mp hs).1
  have hown := countP_take_lt (p := fun t => t.kind = s.kind) hs (by simp) hlt
  rw [take_length] at hown
  have hle := countP_kind_le l h
  rw [emittedAt_of_some hs, emittedAt_of_some ht]
  omega

theorem emittedAt_lt_iff (hs : l[i]? = some s) (ht : l[k]? = some t) :
    emittedAt l i < emittedAt l k ↔ s.kind < t.kind ∨ (s.kind = t.kind ∧ i < k) := by
  rcases Nat.lt_trichotomy s.kind t.kind with h | h | h
  · simp [h, emittedAt_lt_of_kind hs ht h]
  · rw [emittedAt_of_some hs, emittedAt_of_some ht, h]
    by_cases hik : i < k
    · have hlt := countP_take_lt (p := fun x => x.kind = t.kind) hs (by simp [h]) hik
      simp [hik, hlt]
    · have hle := countP_take_mono (l := l) (fun x => x.kind = t.kind) (Nat.le_of_not_lt hik)
      simp only [lt_irrefl, hik, and_false, or_self, iff_false]
      omega
  · have hlt := emittedAt_lt_of_kind ht hs h
    constructor
    · intro hlt'
      omega
    · rintro (hk | ⟨hk, -⟩) <;> omega

theorem mem_take_iff :
    t ∈ l.take i ↔ ∃ k, k < i ∧ l[k]? = some t := by
  rw [mem_iff_getElem?]
  refine exists_congr fun k => ?_
  rw [getElem?_take]
  split
  · next h => simp [h]
  · next h => simp [h]

theorem mem_drop_iff :
    t ∈ l.drop (i + 1) ↔ ∃ k, i < k ∧ l[k]? = some t := by
  rw [mem_iff_getElem?]
  constructor
  · rintro ⟨k, hk⟩
    rw [getElem?_drop] at hk
    exact ⟨i + 1 + k, by omega, hk⟩
  · rintro ⟨k, hik, hk⟩
    refine ⟨k - (i + 1), ?_⟩
    have hidx : i + 1 + (k - (i + 1)) = k := by omega
    rw [getElem?_drop, hidx, hk]

theorem moved_iff (hs : l[i]? = some s) :
    Moved l i ↔ (∃ t ∈ l.take i, s.kind < t.kind) ∨ ∃ t ∈ l.drop (i + 1), t.kind < s.kind := by
  constructor
  · rintro ⟨k, hk, hne, hmoved⟩
    obtain ⟨t, ht⟩ : ∃ t, l[k]? = some t := ⟨_, getElem?_eq_getElem hk⟩
    rw [emittedAt_lt_iff hs ht] at hmoved
    rcases Nat.lt_or_gt_of_ne hne with hlt | hgt
    · exact .inl ⟨t, mem_take_iff.mpr ⟨k, hlt, ht⟩, by omega⟩
    · exact .inr ⟨t, mem_drop_iff.mpr ⟨k, hgt, ht⟩, by omega⟩
  · rintro (⟨t, ht, hkind⟩ | ⟨t, ht, hkind⟩)
    · obtain ⟨k, hlt, ht⟩ := mem_take_iff.mp ht
      refine ⟨k, (List.getElem?_eq_some_iff.mp ht).1, by omega, ?_⟩
      rw [emittedAt_lt_iff hs ht]
      omega
    · obtain ⟨k, hlt, ht⟩ := mem_drop_iff.mp ht
      refine ⟨k, (List.getElem?_eq_some_iff.mp ht).1, by omega, ?_⟩
      rw [emittedAt_lt_iff hs ht]
      omega

def AstStatement.mark (s : AstStatement) : AstStatement := { s with patchReorder := true }

def isDecl (s : AstStatement) : Bool := isVariableDecl s.operation

theorem plain_mark (s : AstStatement) : s.mark.plain = s.plain := by
  unfold AstStatement.plain convertIllphi AstStatement.mark
  split <;> rfl

theorem plain_convertIllphi (s : AstStatement) : (convertIllphi s).plain = s.plain := by
  have hphi : isNumberedIllphi .PHI = false := by decide
  unfold AstStatement.plain convertIllphi
  split
  · simp [hphi]
  · simp

theorem patchReorder_convertIllphi (s : AstStatement) :
    (convertIllphi s).patchReorder = s.patchReorder := by
  unfold convertIllphi
  split <;> rfl

theorem collectStatements_eq_displaced (op : TokenType) (first : Nat) (l : List AstStatement) :
    collectStatements op first l =
      displaced (fun s => s.operation = op) AstStatement.mark first 0 l :=
  mapIdx_zipIdx_eq_displaced (fun s : AstStatement => s.operation = op) AstStatement.mark first l

def shiftedDecls (l : List AstStatement) : List AstStatement :=
  displaced isDecl AstStatement.mark 0 0 l

theorem shiftBlock_statements (b : AstBlock) : (shiftBlock b).statements =
    shiftedDecls b.statements ++ b.statements.filter fun s => !isDecl s := by
  have hdecls := mapIdx_zipIdx_eq_displaced isDecl AstStatement.mark 0 b.statements
  simp only [Nat.zero_add] at hdecls
  rw [shiftedDecls, ← hdecls]
  rfl

theorem operation_convertIllphi (s : AstStatement) :
    ((convertIllphi s).operation = .CONST ↔ s.kind = 0) ∧
      ((convertIllphi s).operation = .PHI ↔ s.kind = 1 ∨ s.kind = 2) := by
  unfold convertIllphi AstStatement.kind
  by_cases hill : isNumberedIllphi s.operation = true
  · have hc : s.operation ≠ .CONST := by
      intro h
      rw [h] at hill
      exact absurd hill (by decide)
    have hp : s.operation ≠ .PHI := by
      intro h
      rw [h] at hill
      exact absurd hill (by decide)
    simp [hill, hc, hp]
  · rw [if_neg hill, if_neg hill]
    by_cases hc : s.operation = .CONST
    · simp [hc]
    · by_cases hp : s.operation = .PHI
      · simp [hp]
      · simp [hc, hp]

theorem isDecl_iff (h : s.operation ≠ .ILLPHI) :
    isDecl s = true ↔ s.kind < 2 := by
  unfold isDecl isVariableDecl AstStatement.kind
  by_cases hc : s.operation = .CONST
  · simp [hc]
  · by_cases hp : s.operation = .PHI
    · simp [hp]
    · simp only [hc, hp, h, decide_false, Bool.or_self, Bool.false_eq_true, if_false, false_iff]
      split <;> omega

def AstBlock.emitted (b : AstBlock) : List AstStatement :=
  b.constStatements ++ b.phiStatements ++ b.otherStatements

theorem operation_otherStatements (h : s ∈ b.otherStatements) :
    s.operation ≠ .CONST ∧ s.operation ≠ .PHI := by
  have hop := (mem_filter.mp h).2
  rwa [Bool.and_eq_true, bne_iff_ne, bne_iff_ne] at hop

def isInserted (s : AstStatement) : Prop :=
  s.operation = .STOP ∨ s.operation = .JUMP ∨ s.operation = .THROW

structure Settles (b b' : AstBlock) (aux : List AstStatement) : Prop where
  statements : b'.statements = (shiftBlock b).statements ++ aux
  atMostOne : aux.length ≤ 1
  inserted : ∀ s ∈ aux, isInserted s

theorem settles_settled (b : AstBlock) :
    ∃ aux, Settles b b.settled aux ∧ (b.successor ≠ [] → aux = []) := by
  rcases settled_cases b with h | ⟨h, hsucc⟩ <;> rw [h]
  · exact ⟨[], ⟨by simp, by simp, by simp⟩, fun _ => rfl⟩
  · refine ⟨[auxiliary .STOP [] (shiftBlock b)], ⟨rfl, by simp, ?_⟩, fun hne => absurd hsucc hne⟩
    intro s hs
    rw [mem_singleton.mp hs]
    exact .inl rfl

theorem settles_of_addMissingJumpBlock {following : Option AstBlock} {b' : AstBlock}
    (hpatch : addMissingJumpBlock following b.settled = .ok b') : ∃ aux, Settles b b' aux := by
  obtain ⟨aux, haux, hnil⟩ := settles_settled b
  obtain rfl | ⟨op, args, rfl, hop, hsucc⟩ := addMissingJumpBlock_inv hpatch
  · exact ⟨aux, haux⟩
  · rw [(settled_graph b).2] at hsucc
    obtain rfl := hnil hsucc
    refine ⟨[auxiliary op args b.settled], ?_, by simp, ?_⟩
    · have hstmts := haux.statements
      rw [append_nil] at hstmts
      rw [← hstmts]
      rfl
    · intro s hs
      rw [mem_singleton.mp hs]
      exact .inr hop

theorem settles_patched {f f' : AstFunction} {before after : List AstBlock}
    (hb : SourceBlock f before b after) (h : Patched f f') :
    ∃ b' aux, f'.getBlock b.name = some b' ∧ Settles b b' aux := by
  obtain ⟨b', hpatch, hname, hown⟩ := hb.patched h
  obtain ⟨aux, haux⟩ := settles_of_addMissingJumpBlock hpatch
  exact ⟨b', aux, hname ▸ hown, haux⟩

theorem Patched.settles {f f' : AstFunction} (h : Patched f f') {b' : AstBlock}
    (hb : b' ∈ f'.blocks) : ∃ b ∈ f.blocks, ∃ aux, Settles b b' aux := by
  obtain ⟨c, hc, following, hpatch⟩ := exists_of_forall₂_mem (addMissingJumpBlocks_inv h) hb
  obtain ⟨b, hmem, rfl⟩ := mem_map.mp hc
  exact ⟨b, hmem, settles_of_addMissingJumpBlock hpatch⟩

theorem kind_of_inserted (h : isInserted s) : s.kind = 3 := by
  rcases h with h | h | h <;> simp [AstStatement.kind, h, isNumberedIllphi]

section
variable {b b' : AstBlock} {aux : List AstStatement}

def settledStatements (l aux : List AstStatement) : List AstStatement :=
  shiftedDecls l ++ l.filter (fun s => !isDecl s) ++ aux

theorem Settles.converted (h : Settles b b' aux) :
    b'.converted = (settledStatements b.statements aux).map convertIllphi := by
  rw [AstBlock.converted, h.statements, shiftBlock_statements, settledStatements]

def hasOp (op : TokenType) (s : AstStatement) : Bool := s.operation = op

theorem hasOp_const (s : AstStatement) : hasOp .CONST (convertIllphi s) = decide (s.kind = 0) := by
  simp only [hasOp, (operation_convertIllphi s).1]

theorem hasOp_phi (s : AstStatement) :
    hasOp .PHI (convertIllphi s) = decide (s.kind = 1 ∨ s.kind = 2) := by
  simp only [hasOp, (operation_convertIllphi s).2]

variable {op : TokenType}

theorem filter_map_convertIllphi {Q : AstStatement → Bool}
    (hQ : ∀ s, hasOp op (convertIllphi s) = Q s) (l : List AstStatement) :
    (l.map convertIllphi).filter (hasOp op) = (l.filter Q).map convertIllphi := by
  rw [filter_map]
  refine congrArg _ (filter_congr fun s _ => ?_)
  exact hQ s

theorem plain_comp_convertIllphi (l : List AstStatement) :
    (l.map convertIllphi).map AstStatement.plain = l.map AstStatement.plain := by
  rw [map_map]
  exact map_congr_left fun s _ => plain_convertIllphi s

theorem filter_settled {Q : AstStatement → Bool} (hQ : ∀ s : AstStatement, Q s.mark = Q s)
    (l aux : List AstStatement) :
    ((settledStatements l aux).filter Q).map AstStatement.plain =
      ((l.filter fun s => isDecl s && Q s) ++ (l.filter fun s => !isDecl s && Q s) ++
        aux.filter Q).map AstStatement.plain := by
  unfold settledStatements shiftedDecls
  rw [filter_append, filter_append, map_append, map_append, map_append,
    map_append, map_filter_displaced hQ plain_mark, filter_filter]
  simp only [Bool.and_comm]

theorem filter_aux [DecidablePred Q] (h : ∀ s ∈ aux, isInserted s)
    (hQ : ∀ s : AstStatement, s.kind = 3 → ¬ Q s) : aux.filter (fun s => Q s) = [] := by
  rw [filter_eq_nil_iff]
  intro s hs hk
  exact hQ s (kind_of_inserted (h s hs)) (by simpa using hk)

section
variable {l : List AstStatement} (hill : ∀ s ∈ l, s.operation ≠ .ILLPHI)
  {Q R : AstStatement → Prop} [DecidablePred Q] [DecidablePred R]

include hill in
theorem filter_decl (hQ : ∀ s : AstStatement, s.kind < 2 ∧ Q s ↔ R s) :
    (l.filter fun s => isDecl s && Q s) = l.filter fun s => R s := by
  refine filter_congr fun s hs => ?_
  have hdecl := isDecl_iff (hill s hs)
  rw [Bool.eq_iff_iff, Bool.and_eq_true, hdecl, decide_eq_true_eq, decide_eq_true_eq]
  exact hQ s

include hill in
theorem filter_not_decl (hQ : ∀ s : AstStatement, 2 ≤ s.kind ∧ Q s ↔ R s) :
    (l.filter fun s => !isDecl s && Q s) = l.filter fun s => R s := by
  refine filter_congr fun s hs => ?_
  have hdecl := isDecl_iff (hill s hs)
  rw [Bool.eq_iff_iff, Bool.and_eq_true, Bool.not_eq_true', ← Bool.not_eq_true, hdecl, Nat.not_lt,
    decide_eq_true_eq, decide_eq_true_eq]
  exact hQ s

end

theorem Settles.consts (h : Settles b b' aux)
    (hill : ∀ s ∈ b.statements, s.operation ≠ .ILLPHI) :
    b'.constStatements.map AstStatement.plain =
      (b.statements.filter fun s => s.kind = 0).map AstStatement.plain := by
  rw [AstBlock.constStatements, collectStatements_eq_displaced, map_displaced plain_mark,
    h.converted]
  change (((settledStatements b.statements aux).map convertIllphi).filter (hasOp .CONST)).map _ = _
  rw [filter_map_convertIllphi hasOp_const, plain_comp_convertIllphi,
    filter_settled (fun _ => rfl), filter_aux h.inserted (by intros; omega), append_nil]
  rw [filter_decl hill (R := fun s => s.kind = 0) (by intros; omega),
    filter_not_decl hill (R := fun s => s.kind < 0) (by intros; omega)]
  simp

theorem Settles.phis (h : Settles b b' aux)
    (hill : ∀ s ∈ b.statements, s.operation ≠ .ILLPHI) :
    b'.phiStatements.map AstStatement.plain =
      (b.statements.filter (fun s => s.kind = 1) ++
        b.statements.filter fun s => s.kind = 2).map AstStatement.plain := by
  rw [AstBlock.phiStatements, collectStatements_eq_displaced, map_displaced plain_mark,
    h.converted]
  change (((settledStatements b.statements aux).map convertIllphi).filter (hasOp .PHI)).map _ = _
  rw [filter_map_convertIllphi hasOp_phi, plain_comp_convertIllphi,
    filter_settled (fun _ => rfl), filter_aux h.inserted (by intros; omega), append_nil,
    filter_decl hill (R := fun s => s.kind = 1) (by intros; omega),
    filter_not_decl hill (R := fun s => s.kind = 2) (by intros; omega)]

theorem kind_le (s : AstStatement) : s.kind ≤ 3 := by
  unfold AstStatement.kind
  split
  · omega
  split
  · omega
  split <;> omega

theorem convertIllphi_of_kind (h : s.kind ≠ 2) : convertIllphi s = s := by
  unfold convertIllphi
  rw [if_neg]
  intro hill
  have hc : s.operation ≠ .CONST := by
    intro hc
    rw [hc] at hill
    exact absurd hill (by decide)
  have hp : s.operation ≠ .PHI := by
    intro hp
    rw [hp] at hill
    exact absurd hill (by decide)
  exact h (by rw [AstStatement.kind, if_neg hc, if_neg hp, if_pos hill])

theorem isOther_convertIllphi (s : AstStatement) :
    ((convertIllphi s).operation != .CONST && (convertIllphi s).operation != .PHI) =
      decide (s.kind = 3) := by
  have hop := operation_convertIllphi s
  have hle := kind_le s
  rw [Bool.eq_iff_iff, Bool.and_eq_true, bne_iff_ne, bne_iff_ne, ne_eq, ne_eq, hop.1, hop.2,
    decide_eq_true_eq]
  omega

theorem filter_shiftedDecls_other (hill : ∀ s ∈ l, s.operation ≠ .ILLPHI) :
    (shiftedDecls l).filter (fun s => s.kind = 3) = [] := by
  have hnil : ((shiftedDecls l).filter fun s => s.kind = 3).map AstStatement.plain = [] := by
    have hmark : ∀ s : AstStatement, decide (s.mark.kind = 3) = decide (s.kind = 3) := fun _ => rfl
    rw [shiftedDecls, map_filter_displaced hmark plain_mark,
      filter_decl hill (R := fun s => s.kind < 0) (by intros; omega)]
    simp
  exact map_eq_nil_iff.mp hnil

theorem Settles.others (h : Settles b b' aux)
    (hill : ∀ s ∈ b.statements, s.operation ≠ .ILLPHI) :
    b'.otherStatements = b.statements.filter (fun s => s.kind = 3) ++ aux := by
  have hsame : ∀ l : List AstStatement, (l.map convertIllphi).filter
      (fun s => s.operation != .CONST && s.operation != .PHI) = l.filter fun s => s.kind = 3 := by
    intro l
    have hother : (l.filter ((fun s => s.operation != .CONST && s.operation != .PHI) ∘
        convertIllphi)) = l.filter fun s => s.kind = 3 :=
      filter_congr fun s _ => isOther_convertIllphi s
    rw [filter_map, hother]
    refine (map_congr_left fun s hs => ?_).trans (map_id _)
    have hk : s.kind = 3 := by simpa using (mem_filter.mp hs).2
    exact convertIllphi_of_kind (by omega)
  have haux : aux.filter (fun s => s.kind = 3) = aux := by
    rw [filter_eq_self]
    intro s hs
    simpa using kind_of_inserted (h.inserted s hs)
  rw [AstBlock.otherStatements, h.converted, hsame, settledStatements, filter_append,
    filter_append, filter_shiftedDecls_other hill, haux, filter_filter, nil_append]
  simp only [Bool.and_comm (decide _)]
  rw [filter_not_decl hill (R := fun s => s.kind = 3) (by intros; omega)]

theorem shiftedDecls_split {pre post : List AstStatement} {s : AstStatement}
    (hs : isDecl s = true) : ∃ rest, shiftedDecls (pre ++ s :: post) =
      shiftedDecls pre ++ (if (pre.countP fun t => !isDecl t) ≠ 0 then s.mark else s) :: rest := by
  unfold shiftedDecls
  rw [displaced_append, displaced, if_pos hs, Nat.zero_add]
  exact ⟨_, rfl⟩

theorem collectStatements_at {first : Nat} {l l' : List AstStatement} {s : AstStatement}
    (hs : hasOp op (convertIllphi s) = true) :
    (collectStatements op first ((l ++ s :: l').map convertIllphi))[
        l.countP fun t => hasOp op (convertIllphi t)]? =
      some (if (l.countP fun t => !hasOp op (convertIllphi t)) ≠ first
        then (convertIllphi s).mark else convertIllphi s) := by
  rw [collectStatements_eq_displaced, map_append, map_cons]
  have hat := @getElem?_displaced _ (hasOp op) AstStatement.mark first (l.map convertIllphi)
    (l'.map convertIllphi) _ hs
  rw [countP_map, countP_map] at hat
  exact hat

theorem marked_twice (s : AstStatement) (c c' : Prop) [Decidable c] [Decidable c'] :
    let s1 := if c then s.mark else s
    let s2 := if c' then (convertIllphi s1).mark else convertIllphi s1
    s2.plain = s.plain ∧ (s2.patchReorder = true ↔ s.patchReorder = true ∨ c ∨ c') := by
  intro s1 s2
  have h1 : s1.plain = s.plain ∧ (s1.patchReorder = true ↔ s.patchReorder = true ∨ c) := by
    by_cases hc : c
    · simp only [s1, if_pos hc, plain_mark, hc, or_true, iff_true, true_and]
      rfl
    · simp only [s1, if_neg hc, hc, or_false, true_and]
  have hconv : (convertIllphi s1).patchReorder = s1.patchReorder := patchReorder_convertIllphi s1
  by_cases hc' : c'
  · simp only [s2, if_pos hc', plain_mark, plain_convertIllphi, h1.1, hc', or_true, iff_true,
      true_and]
    rfl
  · simp only [s2, if_neg hc', plain_convertIllphi, hconv, h1.1, h1.2, hc', or_false, true_and]

theorem countP_ne_zero :
    l.countP p ≠ 0 ↔ ∃ t ∈ l, p t = true := by
  rw [← Nat.pos_iff_ne_zero, countP_pos_iff]

theorem countP_shiftedDecls (hp : ∀ s : AstStatement, p s.mark = p s) :
    (shiftedDecls l).countP p = l.countP fun s => p s && isDecl s := by
  rw [shiftedDecls, countP_displaced hp, countP_filter]

theorem countP_decls (hill : ∀ s ∈ l, s.operation ≠ .ILLPHI) {R : AstStatement → Prop}
    [DecidablePred Q] [DecidablePred R] (hp : ∀ s : AstStatement, p s = decide (Q s))
    (hmark : ∀ s : AstStatement, Q s.mark ↔ Q s) (hQ : ∀ s : AstStatement, Q s ∧ s.kind < 2 ↔ R s) :
    (shiftedDecls l).countP p = l.countP fun s => R s := by
  rw [countP_shiftedDecls fun s => by simp only [hp, hmark]]
  refine countP_congr fun s hs => ?_
  have hdecl := isDecl_iff (hill s hs)
  simp only [hp, Bool.and_eq_true, decide_eq_true_eq, hdecl, hQ]

theorem not_hasOp_phi (s : AstStatement) :
    (!hasOp .PHI (convertIllphi s)) = decide (¬ (s.kind = 1 ∨ s.kind = 2)) := by
  rw [hasOp_phi, ← decide_not]

theorem exists_not_isDecl (hill : ∀ s ∈ l, s.operation ≠ .ILLPHI) :
    (l.countP fun t => !isDecl t) ≠ 0 ↔ ∃ t ∈ l, 2 ≤ t.kind := by
  rw [countP_ne_zero]
  refine exists_congr fun t => and_congr_right fun ht => ?_
  rw [Bool.not_eq_true', ← Bool.not_eq_true, isDecl_iff (hill t ht), Nat.not_lt]

section
variable {pre post : List AstStatement} {s : AstStatement}

-- A declaration that is collected: `k` is its kind and `k'` the other kind of declarations.
theorem Settles.decl_at (h : Settles b b' aux) (hl : b.statements = pre ++ s :: post)
    (hill : ∀ t ∈ b.statements, t.operation ≠ .ILLPHI) (first k k' : Nat) {P : AstStatement → Prop}
    [DecidablePred P] (hmark : ∀ t : AstStatement, P t.mark ↔ P t)
    (hP : ∀ t, hasOp op (convertIllphi t) = decide (P t)) (hs : P s) (hdecl : s.kind < 2)
    (hk : ∀ t : AstStatement, P t ∧ t.kind < 2 ↔ t.kind = k)
    (hk' : ∀ t : AstStatement, ¬ P t ∧ t.kind < 2 ↔ t.kind = k') :
    ∃ s', (collectStatements op first b'.converted)[pre.countP fun t => t.kind = k]? = some s' ∧
      s'.plain = s.plain ∧ (s'.patchReorder = true ↔ s.patchReorder = true ∨
        (∃ t ∈ pre, 2 ≤ t.kind) ∨ (pre.countP fun t => t.kind = k') ≠ first) := by
  rw [hl] at hill
  have hpre : ∀ t ∈ pre, t.operation ≠ .ILLPHI := fun t ht => hill t (by simp [ht])
  obtain ⟨rest, hrest⟩ := @shiftedDecls_split pre post s
    ((isDecl_iff (hill s (by simp))).mpr hdecl)
  have hstmts : b'.converted = (shiftedDecls pre ++
      (if (pre.countP fun t => !isDecl t) ≠ 0 then s.mark else s) ::
        (rest ++ (pre ++ s :: post).filter (fun t => !isDecl t) ++ aux)).map convertIllphi := by
    rw [h.converted, settledStatements, hl, hrest]
    simp
  have hop : hasOp op (convertIllphi
      (if (pre.countP fun t => !isDecl t) ≠ 0 then s.mark else s)) = true := by
    rw [hP]
    split <;> simp [hmark, hs]
  have hat := @collectStatements_at op first (shiftedDecls pre)
    (rest ++ (pre ++ s :: post).filter (fun t => !isDecl t) ++ aux) _ hop
  rw [← hstmts, countP_decls hpre hP hmark hk,
    countP_decls hpre (Q := fun t => ¬ P t) (fun t => by rw [hP, ← decide_not])
      (fun t => not_congr (hmark t)) hk'] at hat
  have hmarks := marked_twice s ((pre.countP fun t => !isDecl t) ≠ 0)
    ((pre.countP fun t => t.kind = k') ≠ first)
  exact ⟨_, hat, hmarks.1,
    hmarks.2.trans (or_congr_right (or_congr_left (exists_not_isDecl hpre)))⟩

theorem Settles.const_at (h : Settles b b' aux) (hl : b.statements = pre ++ s :: post)
    (hill : ∀ t ∈ b.statements, t.operation ≠ .ILLPHI) (hk : s.kind = 0) :
    ∃ s', b'.constStatements[pre.countP fun t => t.kind = 0]? = some s' ∧ s'.plain = s.plain ∧
      (s'.patchReorder = true ↔ s.patchReorder = true ∨ ∃ t ∈ pre, 0 < t.kind) := by
  obtain ⟨s', hat, hplain, hmarked⟩ := h.decl_at hl hill 0 0 1 (fun _ => Iff.rfl) hasOp_const
    hk (by omega) (by intros; omega) (by intros; omega)
  refine ⟨s', hat, hplain, hmarked.trans (or_congr_right ?_)⟩
  rw [countP_ne_zero]
  constructor
  · rintro (⟨t, ht, hkt⟩ | ⟨t, ht, hkt⟩)
    · exact ⟨t, ht, by omega⟩
    · exact ⟨t, ht, by simp only [decide_eq_true_eq] at hkt; omega⟩
  · rintro ⟨t, ht, hkt⟩
    by_cases h1 : t.kind = 1
    · exact .inr ⟨t, ht, by simpa using h1⟩
    · exact .inl ⟨t, ht, by omega⟩

theorem Settles.length_consts (h : Settles b b' aux)
    (hill : ∀ t ∈ b.statements, t.operation ≠ .ILLPHI) :
    b'.constStatements.length = b.statements.countP fun t => t.kind = 0 := by
  have hlen := congrArg List.length (h.consts hill)
  rwa [length_map, length_map, ← countP_eq_length_filter] at hlen

theorem Settles.phi_at (h : Settles b b' aux) (hl : b.statements = pre ++ s :: post)
    (hill : ∀ t ∈ b.statements, t.operation ≠ .ILLPHI) (hk : s.kind = 1) :
    ∃ s', b'.phiStatements[pre.countP fun t => t.kind = 1]? = some s' ∧ s'.plain = s.plain ∧
      (s'.patchReorder = true ↔ s.patchReorder = true ∨ (∃ t ∈ pre, 2 ≤ t.kind) ∨
        ∃ t ∈ post, t.kind = 0) := by
  have hfirst := h.length_consts hill
  obtain ⟨s', hat, hplain, hmarked⟩ := h.decl_at hl hill b'.constStatements.length 1 0
    (fun _ => Iff.rfl) hasOp_phi (.inl hk) (by omega) (by intros; omega) (by intros; omega)
  refine ⟨s', hat, hplain, hmarked.trans (or_congr_right (or_congr_right ?_))⟩
  have hpost : (pre.countP fun t => t.kind = 0) ≠ b'.constStatements.length ↔
      (post.countP fun t => t.kind = 0) ≠ 0 := by
    rw [hfirst, hl, countP_append, countP_cons_of_neg (by simp [hk])]
    omega
  rw [hpost, countP_ne_zero]
  simp only [decide_eq_true_eq]

theorem countP_not_decls (hill : ∀ s ∈ l, s.operation ≠ .ILLPHI) {R : AstStatement → Prop}
    [DecidablePred Q] [DecidablePred R] (hp : ∀ s : AstStatement, p s = decide (Q s))
    (hQ : ∀ s : AstStatement, Q s ∧ 2 ≤ s.kind ↔ R s) :
    (l.filter fun s => !isDecl s).countP p = l.countP fun s => R s := by
  rw [countP_filter]
  refine countP_congr fun s hs => ?_
  rw [Bool.and_eq_true, Bool.not_eq_true', ← Bool.not_eq_true, isDecl_iff (hill s hs), Nat.not_lt,
    hp, decide_eq_true_eq, decide_eq_true_eq]
  exact hQ s

/-- A numbered `ILLPHI` is marked when a statement stands before it that is neither a constant
nor an assignment; what stands behind it does not matter. -/
theorem Settles.illphi_at (h : Settles b b' aux) (hl : b.statements = pre ++ s :: post)
    (hill : ∀ t ∈ b.statements, t.operation ≠ .ILLPHI) (hk : s.kind = 2) :
    ∃ s', b'.phiStatements[(b.statements.countP fun t => t.kind = 1) +
        pre.countP fun t => t.kind = 2]? = some s' ∧ s'.plain = s.plain ∧
      (s'.patchReorder = true ↔ s.patchReorder = true ∨ ∃ t ∈ pre, t.kind = 3) := by
  have hfirst := h.length_consts hill
  have hpre : ∀ t ∈ pre, t.operation ≠ .ILLPHI := fun t ht => hill t (by simp [hl, ht])
  have hdecl : isDecl s = false := by
    have hiff := isDecl_iff (hill s (by simp [hl]))
    rw [← Bool.not_eq_true, hiff]
    omega
  have hstmts : b'.converted = ((shiftedDecls b.statements ++ pre.filter fun t => !isDecl t) ++
      s :: (post.filter (fun t => !isDecl t) ++ aux)).map convertIllphi := by
    rw [h.converted, settledStatements]
    nth_rewrite 2 [hl]
    rw [filter_append, filter_cons_of_pos (by simp [hdecl])]
    simp
  have hop : hasOp .PHI (convertIllphi s) = true := by
    rw [hasOp_phi]
    simp [hk]
  have hat := @collectStatements_at .PHI b'.constStatements.length
    (shiftedDecls b.statements ++ pre.filter fun t => !isDecl t)
    (post.filter (fun t => !isDecl t) ++ aux) _ hop
  rw [← hstmts, countP_append, countP_append,
    countP_decls hill (R := fun t => t.kind = 1) hasOp_phi (fun _ => Iff.rfl) (by intros; omega),
    countP_decls hill (R := fun t => t.kind = 0) not_hasOp_phi (fun _ => Iff.rfl)
      (by intros; omega),
    countP_not_decls hpre (R := fun t => t.kind = 2) hasOp_phi (by intros; omega),
    countP_not_decls hpre (R := fun t => t.kind = 3) not_hasOp_phi
      (fun t => by have := kind_le t; omega)] at hat
  have hmarks := marked_twice s False (((b.statements.countP fun t => t.kind = 0) +
    pre.countP fun t => t.kind = 3) ≠ b'.constStatements.length)
  refine ⟨_, hat, hmarks.1, hmarks.2.trans (or_congr_right ?_)⟩
  have hne : (b.statements.countP fun t => t.kind = 0) + (pre.countP fun t => t.kind = 3) ≠
      b'.constStatements.length ↔ (pre.countP fun t => t.kind = 3) ≠ 0 := by
    rw [hfirst]
    omega
  rw [hne, false_or, countP_ne_zero]
  simp only [decide_eq_true_eq]

theorem Settles.other_at (h : Settles b b' aux) (hl : b.statements = pre ++ s :: post)
    (hill : ∀ t ∈ b.statements, t.operation ≠ .ILLPHI) (hk : s.kind = 3) :
    b'.otherStatements[pre.countP fun t => t.kind = 3]? = some s := by
  rw [h.others hill, hl, filter_append, filter_cons_of_pos (by simp [hk]),
    append_assoc, getElem?_append_right (by rw [countP_eq_length_filter]),
    countP_eq_length_filter, Nat.sub_self]
  rfl

end

end

end EtherVal.TacParser
