import EtherVal.TacParser.Registers
import EtherVal.TacParser.Reorder

/-!
# Statements and their arguments
-/

namespace EtherVal.TacParser
open EtherVal.Lib List

variable {s : AstStatement} {b : AstBlock}

def AstStatement.Complete (s : AstStatement) : Prop :=
  match s.operation with
  | .CALLPRIVATE => s.numAssignee < s.args.length
  | .RETURNPRIVATE => 0 < s.args.length
  | .PHI => 2 ≤ s.args.length
  | _ => (opcodeOf s).operands ≤ s.args.length

theorem le_length_of_pushVariables {n : Nat} {vs : List AstVariable} {f f' : TACFunction}
    (h : f.pushVariables n vs = .ok f') : n ≤ vs.length := by
  induction n generalizing vs f with
  | zero => exact Nat.zero_le _
  | succ n ih =>
    cases vs with
    | nil => cases h
    | cons v vs =>
      obtain ⟨⟨idx, f1⟩, -, hrest⟩ := bind_ok h
      exact Nat.succ_le_succ (ih hrest)

section
variable {enc : GoMap GoString Nat} {s : AstStatement} {f f' : TACFunction}

theorem complete_of_operands (hcall : s.operation ≠ .CALLPRIVATE)
    (hret : s.operation ≠ .RETURNPRIVATE) (hphi : s.operation ≠ .PHI)
    (h : (opcodeOf s).operands ≤ s.args.length) : s.Complete := by
  unfold AstStatement.Complete
  split
  · next hs => exact absurd hs hcall
  · next hs => exact absurd hs hret
  · next hs => exact absurd hs hphi
  · exact h

theorem complete_dispatcher (h : transformerDispatcher enc s f = .ok f') : s.Complete := by
  cases dispatched h with
  | fixed hcall hret hphi h =>
    exact complete_of_operands hcall hret hphi (le_length_of_pushVariables h)
  | callprivate hs hdrop _ _ _ =>
    have hlen := congrArg List.length hdrop
    simp only [length_drop, length_cons] at hlen
    simp only [AstStatement.Complete, hs]
    omega
  | returnprivate hs hargs _ => simp [AstStatement.Complete, hs, hargs]

theorem complete_transPhi (hs : s.operation = .PHI) (h : transPhi s f = .ok f') : s.Complete := by
  unfold transPhi at h
  split at h
  · next hargs => simp [AstStatement.Complete, hs, hargs]
  · cases h

end

section
variable {enc : GoMap GoString Nat} {stmts : List AstStatement} {f f' : TACFunction}

theorem complete_transPhis (hs : ∀ s ∈ stmts, s.operation = .PHI)
    (h : transPhis stmts f = .ok f') : ∀ s ∈ stmts, s.Complete := by
  induction stmts generalizing f with
  | nil => simp
  | cons t stmts ih =>
    obtain ⟨f1, h1, h2⟩ := bind_ok h
    intro s hmem
    rcases mem_cons.mp hmem with rfl | hmem
    · exact complete_transPhi (hs s mem_cons_self) h1
    · exact ih (fun u hu => hs u (mem_cons_of_mem _ hu)) h2 s hmem

theorem complete_transOthers (h : transOthers enc stmts f = .ok f') : ∀ s ∈ stmts, s.Complete := by
  induction stmts generalizing f with
  | nil => simp
  | cons t stmts ih =>
    obtain ⟨f1, h1, h2⟩ := bind_ok h
    intro s hmem
    rcases mem_cons.mp hmem with rfl | hmem
    · exact complete_dispatcher h1
    · exact ih h2 s hmem

theorem complete_addBlock {block : AstBlock} (h : f.addBlock enc block = .ok f') :
    ∀ s ∈ block.emitted, s.Complete := by
  obtain ⟨f1, h1, h⟩ := bind_ok h
  obtain ⟨f2, h2, h3⟩ := bind_ok h
  intro s hs
  rcases mem_append.mp hs with hs | hs
  · rcases mem_append.mp hs with hs | hs
    · rw [transConsts_eq enc fun t => operation_constStatements] at h1
      exact complete_transOthers h1 s hs
    · unfold transPhiStatements at h2
      split at h2
      · next hnil =>
        rw [length_eq_zero_iff.mp hnil] at hs
        cases hs
      · obtain ⟨f3, hphis, -⟩ := bind_ok h2
        exact complete_transPhis (fun t => operation_phiStatements) hphis s hs
  · exact complete_transOthers h3 s hs

theorem complete_addBlocks {blocks : List AstBlock} (h : addBlocks enc blocks f = .ok f') :
    ∀ b ∈ blocks, ∀ s ∈ b.emitted, s.Complete := by
  induction blocks generalizing f with
  | nil => simp
  | cons c blocks ih =>
    obtain ⟨f1, h1, h2⟩ := bind_ok h
    intro b hb
    rcases mem_cons.mp hb with rfl | hb
    · exact complete_addBlock h1
    · exact ih h2 b hb

end

theorem complete_transformFunction {enc : GoMap GoString Nat} {f : AstFunction} {tf : TACFunction}
    (h : transformFunction enc f = .ok tf) {order : List AstBlock}
    (horder : visitOrder f = .ok order) : ∀ b ∈ order, ∀ s ∈ b.emitted, s.Complete := by
  obtain ⟨g, hg, -⟩ := bind_ok h
  obtain ⟨order', horder', hblocks⟩ := bind_ok hg
  cases horder.symm.trans horder'
  exact complete_addBlocks hblocks

theorem plain_of_mem_converted (h : s ∈ b.converted) :
    ∃ t ∈ b.statements, s.plain = t.plain := by
  obtain ⟨t, ht, rfl⟩ := mem_map.mp h
  exact ⟨t, ht, plain_convertIllphi t⟩

theorem plain_of_mem_collectStatements {op : TokenType} {first : Nat} {l : List AstStatement}
    (h : s ∈ collectStatements op first l) : ∃ t ∈ l, s.plain = t.plain := by
  obtain ⟨j, hj, rfl⟩ := mem_mapIdx.mp h
  refine ⟨_, fst_mem_of_mem_zipIdx (mem_filter.mp (getElem_mem hj)).1, ?_⟩
  split
  · exact plain_mark _
  · rfl

theorem plain_of_mem_emitted (h : s ∈ b.emitted) :
    ∃ t ∈ b.statements, s.plain = t.plain := by
  have hconv : ∃ t ∈ b.converted, s.plain = t.plain := by
    rcases mem_append.mp h with h | h
    · rcases mem_append.mp h with h | h
      · exact plain_of_mem_collectStatements h
      · exact plain_of_mem_collectStatements h
    · exact ⟨s, (mem_filter.mp h).1, rfl⟩
  obtain ⟨t, ht, hst⟩ := hconv
  obtain ⟨u, hu, htu⟩ := plain_of_mem_converted ht
  exact ⟨u, hu, hst.trans htu⟩

theorem plain_of_mem_shiftBlock (h : s ∈ (shiftBlock b).statements) :
    ∃ t ∈ b.statements, s.plain = t.plain := by
  rcases mem_append.mp h with h | h
  · obtain ⟨j, hj, rfl⟩ := mem_mapIdx.mp h
    refine ⟨_, fst_mem_of_mem_zipIdx (mem_filter.mp (getElem_mem hj)).1, ?_⟩
    split
    · exact plain_mark _
    · rfl
  · exact ⟨s, (mem_filter.mp h).1, rfl⟩

theorem operation_plain_of_inserted (h : isInserted s) :
    s.plain.operation = s.operation := by
  unfold AstStatement.plain convertIllphi
  rcases h with h | h | h <;> simp [h, isNumberedIllphi]

theorem Patched.origin {f f' : AstFunction} (h : Patched f f') {b' : AstBlock} (hb : b' ∈ f'.blocks)
    (hs : s ∈ b'.emitted) :
    (∃ b ∈ f.blocks, ∃ t ∈ b.statements, s.plain = t.plain) ∨ isInserted s.plain := by
  obtain ⟨b, hmem, aux, hsettles⟩ := h.settles hb
  obtain ⟨t, ht, hst⟩ := plain_of_mem_emitted hs
  rw [hsettles.statements] at ht
  rcases mem_append.mp ht with ht | ht
  · obtain ⟨u, hu, htu⟩ := plain_of_mem_shiftBlock ht
    exact .inl ⟨b, hmem, u, hu, hst.trans htu⟩
  · have hins := hsettles.inserted t ht
    right
    rw [hst]
    unfold isInserted at hins ⊢
    rwa [operation_plain_of_inserted hins]

end EtherVal.TacParser
