import EtherVal.TacParser.Registers

/-!
# Tables about instructions

Moved declarations and inserted statements are noted under the position of their instruction.
-/

namespace EtherVal.TacParser
open EtherVal.Lib List

theorem get_foldl_addNote {t : NoteTable} {l : List Note} {m : GoMap Int Bool}
    (hl : l.Pairwise (fun n n' => n.pos ≠ n'.pos)) (k : Int) (v : Bool) :
    (l.foldl (addNote t) m)[k]? = some v ↔
      (∃ n ∈ l, n.table = t ∧ (n.pos : Int) = k ∧ n.value = v) ∨
        ((∀ n ∈ l, n.table = t → (n.pos : Int) ≠ k) ∧ m[k]? = some v) := by
  induction l generalizing m with
  | nil => simp
  | cons n l ih =>
    obtain ⟨hne, hrest⟩ := pairwise_cons.mp hl
    rw [foldl_cons, ih hrest, addNote]
    by_cases ht : n.table = t
    · rw [if_pos ht, GoMap.get_insert]
      by_cases hk : (n.pos : Int) = k
      · have hother : ∀ n' ∈ l, (n'.pos : Int) ≠ k := by
          intro n' hn' hk'
          exact hne n' hn' (by omega)
        simp only [hk, if_true, Option.some.injEq, mem_cons, exists_eq_or_imp, forall_eq_or_imp,
          ht, ne_eq, not_true_eq_false, true_and, false_and, imp_false]
        constructor
        · rintro (⟨n', hn', -, hk', -⟩ | ⟨-, hv⟩)
          · exact absurd hk' (hother n' hn')
          · exact .inl (.inl hv)
        · rintro ((hv | ⟨n', hn', -, hk', -⟩) | hfalse)
          · exact .inr ⟨fun n' hn' _ => hother n' hn', hv⟩
          · exact absurd hk' (hother n' hn')
          · exact absurd hfalse (by simp)
      · simp [hk, ht]
    · simp [ht]

structure Within (lo hi : Nat) (l : List Note) : Prop where
  sorted : l.Pairwise (fun n n' => n.pos < n'.pos)
  bounds : ∀ n ∈ l, lo ≤ n.pos ∧ n.pos < hi

namespace Within
variable {a b c : Nat} {l l' : List Note}

theorem nil (a b : Nat) : Within a b [] := ⟨.nil, by simp⟩

theorem append (h : Within a b l) (h' : Within b c l') (hab : a ≤ b) (hbc : b ≤ c) :
    Within a c (l ++ l') := by
  refine ⟨pairwise_append.mpr ⟨h.sorted, h'.sorted, ?_⟩, ?_⟩
  · intro n hn n' hn'
    have h1 := h.bounds n hn
    have h2 := h'.bounds n' hn'
    omega
  · intro n hn
    rcases mem_append.mp hn with hn | hn
    · have := h.bounds n hn
      omega
    · have := h'.bounds n hn
      omega

theorem mono (h : Within a b l) {a' b' : Nat} (ha : a' ≤ a) (hb : b ≤ b') : Within a' b' l := by
  refine ⟨h.sorted, fun n hn => ?_⟩
  have := h.bounds n hn
  omega

end Within

theorem stmtSize_pos (s : AstStatement) : 0 < stmtSize s := by
  unfold stmtSize
  split <;> omega

theorem within_stmtNotes (b : Nat) (s : AstStatement) :
    Within b (b + stmtSize s) (stmtNotes b s) := by
  have hpos := stmtSize_pos s
  have hone : ∀ t v, Within b (b + stmtSize s) [⟨t, b, v⟩] := by
    intro t v
    refine ⟨pairwise_singleton _ _, fun n hn => ?_⟩
    rw [mem_singleton.mp hn]
    exact ⟨Nat.le_refl b, by dsimp only; omega⟩
  unfold stmtNotes
  split
  · exact hone _ _
  · split
    · exact hone _ _
    · exact .nil _ _
  · split
    · exact hone _ _
    · exact .nil _ _
  · split
    · exact hone _ _
    · exact .nil _ _
  · exact .nil _ _

theorem within_stmtsAt {entries : Nat → AstStatement → List Note} {size : AstStatement → Nat}
    (hentries : ∀ b s, Within b (b + size s) (entries b s)) (b : Nat) (l : List AstStatement) :
    Within b (b + (l.map size).sum) (stmtsAt entries size b l) := by
  induction l generalizing b with
  | nil => exact .nil _ _
  | cons s l ih =>
    have hrest := ih (b + size s)
    rw [map_cons, sum_cons, ← Nat.add_assoc]
    exact (hentries b s).append hrest (by omega) (by omega)

theorem within_phiNote (b : Nat) (s : AstStatement) : Within b (b + phiSize s) (phiNote b s) := by
  refine ⟨pairwise_singleton _ _, fun n hn => ?_⟩
  rw [mem_singleton.mp hn]
  unfold phiSize
  dsimp only
  omega

theorem totalSize_stmtItems (l : List AstStatement) :
    totalSize (l.map stmtItem) = (l.map stmtSize).sum := by
  rw [totalSize, map_map]
  rfl

theorem within_notes (b : Nat) (block : AstBlock) :
    Within b (b + totalSize block.items) (block.entriesAt stmtNotes phiNote b) := by
  have hconst := within_stmtsAt within_stmtNotes (b + 1) block.constStatements
  have hphi := within_stmtsAt within_phiNote (block.phiStart b + 2) block.phiStatements
  have hother := within_stmtsAt within_stmtNotes (block.otherStart b) block.otherStatements
  rw [← totalSize_stmtItems] at hconst hother
  have hsize : b + totalSize block.items =
      block.otherStart b + totalSize (block.otherStatements.map stmtItem) := by
    simp only [AstBlock.items, AstBlock.otherStart, AstBlock.phiStart, totalSize_append,
      totalSize_cons]
    omega
  have hgroup : Within (block.phiStart b) (block.otherStart b)
      (stmtsAt phiNote phiSize (block.phiStart b + 2) block.phiStatements) := by
    unfold AstBlock.otherStart AstBlock.phiItems
    split
    · next hnil =>
      rw [hnil]
      exact .nil _ _
    · refine hphi.mono (by omega) ?_
      simp only [totalSize_cons, totalSize_nil, phiGroupSize]
      omega
  have hstart : b + 1 + totalSize (block.constStatements.map stmtItem) = block.phiStart b := rfl
  have hle : block.phiStart b ≤ block.otherStart b := Nat.le_add_right _ _
  rw [hstart] at hconst
  rw [hsize]
  have hfirst := (hconst.append hgroup (by omega) hle).append hother (by omega) (by omega)
  exact hfirst.mono (by omega) (Nat.le_refl _)

theorem within_codeNotes (b : Nat) (blocks : List AstBlock) :
    Within b (b + codeSize blocks) (codeAt stmtNotes phiNote b blocks) := by
  induction blocks generalizing b with
  | nil => exact .nil _ _
  | cons block rest ih =>
    have hrest := ih (b + totalSize block.items)
    have hsize : b + codeSize (block :: rest) = b + totalSize block.items + codeSize rest := by
      simp only [codeSize, flatMap_cons, totalSize_append]
      omega
    rw [hsize]
    exact (within_notes b block).append hrest (by omega) (by omega)

theorem notes_transformFunction {enc : GoMap GoString Nat} {f : AstFunction} {tf : TACFunction}
    (h : transformFunction enc f = .ok tf) : ∃ order, visitOrder f = .ok order ∧
      ∀ t (k : Int) v, (tf.notes t)[k]? = some v ↔
        ∃ n ∈ codeAt stmtNotes phiNote 0 order, n.table = t ∧ (n.pos : Int) = k ∧ n.value = v := by
  obtain ⟨g, hg, h⟩ := bind_ok h
  obtain ⟨bases, -, h⟩ := bind_ok h
  obtain ⟨order, f0, hw, -, -, -, -, hempty, henc⟩ := encodes_layout hg
  have hfill : tf.core = (addUniqueBlockAddrs bases g).core := foldlM_fillAddress_core h
  have hcore : ∀ t, tf.notes t = g.notes t := fun t => congrArg (fun f => f.notes t) hfill
  refine ⟨order, hw, fun t k v => ?_⟩
  have hsorted := (within_codeNotes 0 order).sorted.imp fun {a b} hab => Nat.ne_of_lt hab
  rw [hcore, henc.note t, hempty, get_foldl_addNote hsorted]
  simp

end EtherVal.TacParser
