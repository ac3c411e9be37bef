import Mathlib.Tactic

/-!
# Groups of φ-assignments

Registers hold a value and the time of the last assignment.  A φ-assignment copies the value
of its most recently assigned choice.  A group is meant to run in parallel; here it runs one
assignment after the other, and the lemmas say when the two agree.
-/

namespace EtherVal.Lib
open List

variable {ι α : Type}

structure Phi (ι : Type) where
  dest : ι
  first : ι
  rest : List ι
  deriving DecidableEq, Repr

namespace Phi

def choices (p : Phi ι) : List ι := p.first :: p.rest

end Phi

def latest (stamp : ι → Nat) : ι → List ι → ι
  | best, [] => best
  | best, c :: cs => latest stamp (if stamp best < stamp c then c else best) cs

def Phi.select (stamp : ι → Nat) (p : Phi ι) : ι := latest stamp p.first p.rest

/-- What is selected, without reference to the scan: a choice with a greater stamp than all
before it and no smaller one than all after it. -/
def Selected (stamp : ι → Nat) (choices : List ι) (s : ι) : Prop :=
  ∃ before after, choices = before ++ s :: after ∧ (∀ c ∈ before, stamp c < stamp s) ∧
    ∀ c ∈ after, stamp c ≤ stamp s

theorem selected_latest (stamp : ι → Nat) (best : ι) (cs : List ι) :
    Selected stamp (best :: cs) (latest stamp best cs) := by
  induction cs generalizing best with
  | nil => exact ⟨[], [], rfl, by simp, by simp⟩
  | cons c cs ih =>
    simp only [latest]
    by_cases hc : stamp best < stamp c
    · rw [if_pos hc]
      obtain ⟨before, after, hl, hb, ha⟩ := ih c
      refine ⟨best :: before, after, by rw [hl]; rfl, ?_, ha⟩
      have hle : stamp c ≤ stamp (latest stamp c cs) := by
        have hmem : c ∈ before ++ latest stamp c cs :: after := hl ▸ mem_cons_self
        rcases mem_append.mp hmem with h | h
        · exact (hb c h).le
        · rcases mem_cons.mp h with h | h
          · exact h ▸ le_rfl
          · exact ha c h
      intro x hx
      rcases mem_cons.mp hx with rfl | hx
      · omega
      · exact hb x hx
    · rw [if_neg hc]
      obtain ⟨before, after, hl, hb, ha⟩ := ih best
      generalize latest stamp best cs = s at hl hb ha ⊢
      cases before with
      | nil =>
        obtain ⟨rfl, rfl⟩ := List.cons.inj hl
        refine ⟨[], c :: cs, rfl, by simp, ?_⟩
        intro x hx
        rcases mem_cons.mp hx with rfl | hx
        · omega
        · exact ha x hx
      | cons b before =>
        obtain ⟨rfl, rfl⟩ := List.cons.inj hl
        have hlt := hb best mem_cons_self
        refine ⟨best :: c :: before, after, rfl, ?_, ha⟩
        intro x hx
        rcases mem_cons.mp hx with rfl | hx
        · exact hlt
        · rcases mem_cons.mp hx with rfl | hx
          · omega
          · exact hb x (mem_cons_of_mem _ hx)

theorem Selected.stamp_le {stamp : ι → Nat} {choices : List ι} {s c : ι}
    (h : Selected stamp choices s) (hc : c ∈ choices) : stamp c ≤ stamp s := by
  obtain ⟨before, after, rfl, hb, ha⟩ := h
  rcases mem_append.mp hc with hc | hc
  · exact (hb c hc).le
  · rcases mem_cons.mp hc with rfl | hc
    · exact le_rfl
    · exact ha c hc

theorem Selected.mem {stamp : ι → Nat} {choices : List ι} {s : ι}
    (h : Selected stamp choices s) : s ∈ choices := by
  obtain ⟨before, after, rfl, -, -⟩ := h
  simp

theorem Selected.unique {stamp : ι → Nat} {choices : List ι} {s t : ι}
    (hs : Selected stamp choices s) (ht : Selected stamp choices t) : s = t := by
  have heq : stamp s = stamp t := le_antisymm (ht.stamp_le hs.mem) (hs.stamp_le ht.mem)
  obtain ⟨b1, a1, rfl, hb1, -⟩ := hs
  obtain ⟨b2, a2, hl, hb2, -⟩ := ht
  -- the shorter of the two initial parts would end in a register of the longer one
  rcases append_eq_append_iff.mp hl with ⟨u, rfl, hu⟩ | ⟨u, rfl, hu⟩
  · cases u with
    | nil => exact (List.cons.inj hu).1
    | cons x u =>
      obtain ⟨rfl, -⟩ := List.cons.inj hu
      have hlt := hb2 s (by simp)
      omega
  · cases u with
    | nil => exact (List.cons.inj hu).1.symm
    | cons x u =>
      obtain ⟨rfl, -⟩ := List.cons.inj hu
      have hlt := hb1 t (by simp)
      omega

theorem Phi.selected_select (stamp : ι → Nat) (p : Phi ι) :
    Selected stamp p.choices (p.select stamp) := selected_latest stamp p.first p.rest

variable [DecidableEq ι]

abbrev Stamped (ι α : Type) := ι → α × Nat

def Stamped.stamp (ρ : Stamped ι α) (r : ι) : Nat := (ρ r).2

def runPhi (now : Nat) (ρ : Stamped ι α) (p : Phi ι) : Stamped ι α :=
  Function.update ρ p.dest ((ρ (p.select ρ.stamp)).1, now)

def runPhis (now : Nat) (ρ : Stamped ι α) (ps : List (Phi ι)) : Stamped ι α :=
  ps.foldl (runPhi now) ρ

def stampAfter (now : Nat) (stamp : ι → Nat) (ps : List (Phi ι)) (r : ι) : Nat :=
  if r ∈ ps.map Phi.dest then now else stamp r

theorem runPhis_snoc (now : Nat) (ρ : Stamped ι α) (ps : List (Phi ι)) (p : Phi ι) :
    runPhis now ρ (ps ++ [p]) = runPhi now (runPhis now ρ ps) p := by
  simp [runPhis]

theorem stamp_runPhis (now : Nat) (ρ : Stamped ι α) (ps : List (Phi ι)) :
    (runPhis now ρ ps).stamp = stampAfter now ρ.stamp ps := by
  induction ps using List.reverseRecOn with
  | nil => rfl
  | append_singleton ps p ih =>
    funext r
    have hr := congrFun ih r
    unfold Stamped.stamp stampAfter at hr ⊢
    rw [runPhis_snoc, runPhi]
    by_cases h : r = p.dest
    · simp [h]
    · rw [Function.update_of_ne h, hr]
      simp [h]

theorem runPhis_of_not_mem (now : Nat) (ρ : Stamped ι α) (ps : List (Phi ι)) {r : ι}
    (h : r ∉ ps.map Phi.dest) : runPhis now ρ ps r = ρ r := by
  induction ps generalizing ρ with
  | nil => rfl
  | cons p ps ih =>
    simp only [map_cons, mem_cons, not_or] at h
    simp only [runPhis, foldl_cons] at ih ⊢
    rw [ih (runPhi now ρ p) h.2, runPhi, Function.update_of_ne h.1]

def Parallel (ρ ρ' : Stamped ι α) (ps : List (Phi ι)) : Prop :=
  ∀ p ∈ ps, (ρ' p.dest).1 = (ρ (p.select ρ.stamp)).1

def carrier (stamp : ι → Nat) (ps : List (Phi ι)) (r : ι) : ι :=
  match ps.find? (fun q => q.dest = r) with
  | some q => q.select stamp
  | none => r

def Undisturbed (now : Nat) (ρ : Stamped ι α) (ps : List (Phi ι)) (p : Phi ι) : Prop :=
  (ρ (carrier ρ.stamp ps (p.select (stampAfter now ρ.stamp ps)))).1 =
    (ρ (p.select ρ.stamp)).1

def AllUndisturbed (now : Nat) (ρ : Stamped ι α) : List (Phi ι) → List (Phi ι) → Prop
  | _, [] => True
  | done, p :: ps => Undisturbed now ρ done p ∧ AllUndisturbed now ρ (done ++ [p]) ps

instance [DecidableEq α] (now : Nat) (ρ : Stamped ι α) (ps : List (Phi ι)) (p : Phi ι) :
    Decidable (Undisturbed now ρ ps p) :=
  inferInstanceAs (Decidable (_ = _))

instance decidableAllUndisturbed [DecidableEq α] (now : Nat) (ρ : Stamped ι α) :
    (done ps : List (Phi ι)) → Decidable (AllUndisturbed now ρ done ps)
  | _, [] => inferInstanceAs (Decidable True)
  | done, p :: ps =>
    have := decidableAllUndisturbed now ρ (done ++ [p]) ps
    inferInstanceAs (Decidable (Undisturbed now ρ done p ∧ _))

variable {ρ : Stamped ι α} {ps : List (Phi ι)}

theorem runPhis_eq_carrier {now : Nat} (h : Parallel ρ (runPhis now ρ ps) ps) (r : ι) :
    (runPhis now ρ ps r).1 = (ρ (carrier ρ.stamp ps r)).1 := by
  unfold carrier
  cases hq : ps.find? (fun q => q.dest = r) with
  | none =>
    have hr : r ∉ ps.map Phi.dest := by
      intro hm
      obtain ⟨q, hqm, hqr⟩ := mem_map.mp hm
      have := find?_eq_none.mp hq q hqm
      simp [hqr] at this
    rw [runPhis_of_not_mem now ρ ps hr]
  | some q =>
    have hqr : q.dest = r := by simpa using find?_some hq
    rw [← hqr]
    exact h q (mem_of_find?_eq_some hq)

theorem parallel_snoc_iff {now : Nat} {p : Phi ι} (hp : p.dest ∉ ps.map Phi.dest) :
    Parallel ρ (runPhis now ρ (ps ++ [p])) (ps ++ [p]) ↔
      Parallel ρ (runPhis now ρ ps) ps ∧ Undisturbed now ρ ps p := by
  have hold : ∀ q ∈ ps, runPhis now ρ (ps ++ [p]) q.dest = runPhis now ρ ps q.dest := by
    intro q hq
    have hne : q.dest ≠ p.dest := fun h => hp (h ▸ mem_map_of_mem hq)
    rw [runPhis_snoc, runPhi, Function.update_of_ne hne]
  have hnew : (runPhis now ρ (ps ++ [p]) p.dest).1 =
      (runPhis now ρ ps (p.select (stampAfter now ρ.stamp ps))).1 := by
    rw [runPhis_snoc, runPhi, Function.update_self, stamp_runPhis]
  constructor
  · intro h
    have hps : Parallel ρ (runPhis now ρ ps) ps := by
      intro q hq
      rw [← hold q hq]
      exact h q (mem_append_left _ hq)
    refine ⟨hps, ?_⟩
    have hlast := h p (by simp)
    rw [hnew, runPhis_eq_carrier hps] at hlast
    exact hlast
  · rintro ⟨hps, hu⟩ q hq
    rcases mem_append.mp hq with hq | hq
    · rw [hold q hq]
      exact hps q hq
    · obtain rfl := mem_singleton.mp hq
      rw [hnew, runPhis_eq_carrier hps]
      exact hu

theorem parallel_append_iff {now : Nat} {done : List (Phi ι)}
    (hnd : ((done ++ ps).map Phi.dest).Nodup) :
    Parallel ρ (runPhis now ρ (done ++ ps)) (done ++ ps) ↔
      Parallel ρ (runPhis now ρ done) done ∧ AllUndisturbed now ρ done ps := by
  induction ps generalizing done with
  | nil => simp [AllUndisturbed]
  | cons p ps ih =>
    have hsplit : done ++ p :: ps = (done ++ [p]) ++ ps := by simp
    have hp : p.dest ∉ done.map Phi.dest := by
      rw [map_append, nodup_append] at hnd
      intro hm
      exact hnd.2.2 _ hm p.dest (by simp) rfl
    rw [hsplit] at hnd ⊢
    rw [ih hnd, parallel_snoc_iff hp, AllUndisturbed, and_assoc]

theorem parallel_iff {now : Nat} (hnd : (ps.map Phi.dest).Nodup) :
    Parallel ρ (runPhis now ρ ps) ps ↔ AllUndisturbed now ρ [] ps := by
  have h : Parallel ρ (runPhis now ρ ([] ++ ps)) ([] ++ ps) ↔
      Parallel ρ (runPhis now ρ []) [] ∧ AllUndisturbed now ρ [] ps :=
    parallel_append_iff (by simpa using hnd)
  simpa [Parallel] using h

end EtherVal.Lib
