import EtherVal.State.View

/-!
# Databases filled from allocations

A database that starts empty and is only filled by `LoadSubstate` has no trie behind it and no
deleted account.  Writes change the account they name; `Finalise` and `SetTxContext` change none.
-/

namespace EtherVal.State
open EtherVal.Lib EtherVal.Research Std

structure PlainOn (s : StateDB) (work : Address → Prop) : Prop where
  trie : ∀ a, s.trie a = none
  destruct : s.stateObjectsDestruct = ∅
  alive : ∀ {a : Address} {o}, s.stateObjects[a]? = some o → o.deleted = false
  standing : ∀ {a : Address} {o}, s.stateObjects[a]? = some o → o.selfDestructed = false
  recorded : ∀ {a : Address} {sa}, s.researchPreAlloc[a]? = some (some sa) → a ∈ s.stateObjects
  tracked : ∀ a ∈ s.stateObjects, work a ∨ a ∈ s.stateObjectsPending
  pending : ∀ a ∈ s.stateObjectsPending, a ∈ s.stateObjects
  dirty : ∀ a ∈ s.stateObjectsDirty, a ∈ s.stateObjects
  clean : ∀ {a : Address} {o}, s.stateObjects[a]? = some o → ¬ work a → o.dirtyStorage = ∅

structure Plain (s : StateDB) : Prop extends PlainOn s (· ∈ s.journal.dirties) where
  journaled : s.journal.entries = [] → s.journal.dirties = ∅

structure Rested (s : StateDB) : Prop extends Plain s where
  rest : s.journal.dirties = ∅

theorem plain_new : Plain {} where
  trie _ := rfl
  destruct := rfl
  alive h := by simp at h
  standing h := by simp at h
  recorded h := by simp at h
  tracked _ h := by simp at h
  pending _ h := by simp at h
  dirty _ h := by simp at h
  clean h := by simp at h
  journaled _ := rfl

section
variable {s : StateDB} {work : Address → Prop}

theorem PlainOn.destructed (h : PlainOn s work) (a : Address) : s.destructed a = false := by
  rw [StateDB.destructed, h.destruct]
  exact ExtTreeMap.contains_empty

theorem PlainOn.view_eq (h : PlainOn s work) (a : Address) :
    s.view a = (s.stateObjects[a]?).map fun o => o.view false := by
  unfold StateDB.view StateDB.lookup
  rw [h.trie, Option.map_none, Option.or_none, h.destructed]
  cases ho : s.stateObjects[a]? with
  | none => rfl
  | some o => simp [Option.filter, h.alive ho]

theorem PlainOn.getDeleted (h : PlainOn s work) (a : Address) :
    s.getDeletedStateObject a = (s.stateObjects[a]?, s) := by
  unfold StateDB.getDeletedStateObject
  cases s.stateObjects[a]? with
  | some o => rfl
  | none =>
    rw [h.trie]

theorem PlainOn.getStateObject (h : PlainOn s work) (a : Address) :
    s.getStateObject a =
      (s.stateObjects[a]?, s.recordPre a ((s.stateObjects[a]?).map StateObject.record)) := by
  unfold StateDB.getStateObject
  rw [h.getDeleted]
  cases ho : s.stateObjects[a]? with
  | none => rfl
  | some o => simp [h.alive ho]

variable {a : Address}
variable {found : Option Account}

theorem PlainOn.recordPre (h : PlainOn s work) (hfound : found ≠ none → a ∈ s.stateObjects) :
    PlainOn (s.recordPre a found) work := by
  unfold StateDB.recordPre
  split
  · exact h
  · refine { h with recorded := fun {b sa} hb => ?_ }
    dsimp only at hb
    rw [GoMap.get_insert] at hb
    split at hb
    · next hab =>
      rw [← hab]
      exact hfound (by rw [Option.some.inj hb]; exact Option.some_ne_none _)
    · exact h.recorded hb

@[simp] theorem stateObjects_recordPre (a : Address) (found : Option Account) :
    (s.recordPre a found).stateObjects = s.stateObjects := by
  unfold StateDB.recordPre
  split <;> rfl

@[simp] theorem journal_recordPre (a : Address) (found : Option Account) :
    (s.recordPre a found).journal = s.journal := by
  unfold StateDB.recordPre
  split <;> rfl

theorem Plain.recordPre (h : Plain s) (hfound : found ≠ none → a ∈ s.stateObjects) :
    Plain (s.recordPre a found) where
  toPlainOn := by
    rw [journal_recordPre]
    exact h.toPlainOn.recordPre hfound
  journaled := by
    rw [journal_recordPre]
    exact h.journaled

theorem mem_dirties_append {j : Journal} {e : JournalEntry} :
    a ∈ (j.append e).dirties ↔ a = e.dirtied ∨ a ∈ j.dirties := by
  exact GoMap.mem_insert

variable {o : StateObject}

theorem Plain.update (h : Plain s) (e : JournalEntry) (halive : o.deleted = false)
    (hstanding : o.selfDestructed = false) :
    Plain ((s.appendJournal e).setStateObject e.dirtied o) := by
  have hget : ∀ (b : Address), ((s.appendJournal e).setStateObject e.dirtied o).stateObjects[b]? =
      if e.dirtied = b then some o else s.stateObjects[b]? := fun b => GoMap.get_insert _ _ _ _
  have hmem : ∀ b ∈ s.stateObjects, b ∈ s.stateObjects.insert e.dirtied o :=
    fun b hb => GoMap.mem_insert.mpr (.inr hb)
  have hwork : ∀ b : Address, b ∈ ((s.appendJournal e).setStateObject e.dirtied o).journal.dirties ↔
      b = e.dirtied ∨ b ∈ s.journal.dirties := fun b => mem_dirties_append
  refine ⟨⟨h.trie, h.destruct, ?_, ?_, ?_, ?_, ?_, ?_, ?_⟩, ?_⟩
  · intro b o' hb
    rw [hget] at hb
    split at hb
    · rw [← Option.some.inj hb, halive]
    · exact h.alive hb
  · intro b o' hb
    rw [hget] at hb
    split at hb
    · rw [← Option.some.inj hb, hstanding]
    · exact h.standing hb
  · intro b sa hb
    exact hmem b (h.recorded hb)
  · intro b hb
    rw [hwork]
    rcases GoMap.mem_insert.mp hb with rfl | hb
    · exact .inl (.inl rfl)
    · rcases h.tracked b hb with hd | hp
      · exact .inl (.inr hd)
      · exact .inr hp
  · intro b hb
    exact hmem b (h.pending b hb)
  · intro b hb
    exact hmem b (h.dirty b hb)
  · intro b o' hb hnot
    rw [hwork] at hnot
    rw [hget, if_neg fun hab => hnot (.inl hab.symm)] at hb
    exact h.clean hb fun hd => hnot (.inr hd)
  · intro hempty
    cases hempty

structure Writes (s : StateDB) (a : Address) (f : StateAccount → StateAccount) (s' : StateDB) :
    Prop where
  plain : Plain s'
  view : ∀ b, s'.view b = if a = b then some (f ((s.view a).getD blank)) else s.view b

theorem Plain.update_view (h : Plain s) (e : JournalEntry) (halive : o.deleted = false)
    (hstanding : o.selfDestructed = false) :
    Writes s e.dirtied (fun _ => o.view false)
    ((s.appendJournal e).setStateObject e.dirtied o) := by
  have hplain := h.update e halive hstanding
  refine ⟨hplain, fun b => ?_⟩
  have hget : ((s.appendJournal e).setStateObject e.dirtied o).stateObjects[b]? =
      if e.dirtied = b then some o else s.stateObjects[b]? := GoMap.get_insert _ _ _ _
  rw [hplain.view_eq, hget, h.view_eq b]
  split <;> rfl

theorem Plain.recordPre_view (h : Plain s) (hfound : found ≠ none → a ∈ s.stateObjects)
    (b : Address) :
    (s.recordPre a found).view b = s.view b := by
  rw [(h.recordPre hfound).view_eq, stateObjects_recordPre, h.view_eq]

theorem Plain.view_some (h : Plain s) (ho : s.stateObjects[a]? = some o) :
    s.view a = some (o.view false) := by
  rw [h.view_eq, ho, Option.map_some]

theorem Plain.getOrNew (h : Plain s) (a : Address) :
    Writes s a id (s.getOrNewStateObject a).2 ∧
      (s.getOrNewStateObject a).2.stateObjects[a]? = some (s.getOrNewStateObject a).1 := by
  unfold StateDB.getOrNewStateObject
  rw [h.getStateObject]
  cases ho : s.stateObjects[a]? with
  | some o =>
    have hfound : some o.record ≠ none → a ∈ s.stateObjects := fun _ => GoMap.mem_iff.mpr ⟨o, ho⟩
    refine ⟨⟨h.recordPre hfound, fun b => ?_⟩, by simp [ho]⟩
    refine (h.recordPre_view hfound b).trans ?_
    split
    · next hab => rw [← hab, h.view_some ho, Option.getD_some, id]
    · rfl
  | none =>
    have hfound : (none : Option Account) ≠ none → a ∈ s.stateObjects := fun hne => absurd rfl hne
    have hrec := h.recordPre hfound
    have hcreate : (s.recordPre a none).createObject a = (newObject none, none,
        ((s.recordPre a none).appendJournal (.createObject a)).setStateObject a
        (newObject none)) := by
      unfold StateDB.createObject
      rw [hrec.getDeleted, stateObjects_recordPre, ho]
    have hwrites := hrec.update_view (.createObject a) (o := newObject none) rfl rfl
    dsimp only [Option.map_none]
    rw [hcreate]
    refine ⟨⟨hwrites.plain, fun b => (hwrites.view b).trans ?_⟩, ?_⟩
    · rw [h.recordPre_view hfound, StateObject.view_newObject, h.view_eq a, ho]
      rfl
    · exact (GoMap.get_insert _ _ _ _).trans (if_pos rfl)

variable {f : StateAccount → StateAccount}

theorem Plain.write (h : Plain s) (a : Address) {e : JournalEntry} (he : e.dirtied = a)
    (halive : o.deleted = (s.getOrNewStateObject a).1.deleted)
    (hstanding : o.selfDestructed = (s.getOrNewStateObject a).1.selfDestructed)
    (hview : o.view false = f ((s.getOrNewStateObject a).1.view false)) :
    Writes s a f (((s.getOrNewStateObject a).2.appendJournal e).setStateObject a o) := by
  obtain ⟨hfound, hobject⟩ := h.getOrNew a
  subst he
  have hwrites := hfound.plain.update_view e (halive.trans (hfound.plain.alive hobject))
    (hstanding.trans (hfound.plain.standing hobject))
  have hat : (s.view e.dirtied).getD blank = (s.getOrNewStateObject e.dirtied).1.view false := by
    have := (hfound.view e.dirtied).symm.trans (hfound.plain.view_some hobject)
    rw [if_pos rfl] at this
    exact Option.some.inj this
  refine ⟨hwrites.plain, fun b => (hwrites.view b).trans ?_⟩
  rw [hview, hat, hfound.view b]
  split <;> rfl

theorem Plain.setBalance (h : Plain s) (a : Address) (amount : Word) :
    Writes s a ({ · with balance := amount }) (s.setBalance a amount) := by
  refine h.write a (e := .balance a _) rfl rfl rfl ?_
  exact StateAccount.ext rfl rfl rfl (StateObject.storage_view_congr rfl rfl rfl rfl)

theorem Plain.setNonce (h : Plain s) (a : Address) (nonce : Nat) :
    Writes s a ({ · with nonce }) (s.setNonce a nonce) := by
  refine h.write a (e := .nonce a _) rfl rfl rfl ?_
  exact StateAccount.ext rfl rfl rfl (StateObject.storage_view_congr rfl rfl rfl rfl)

theorem Plain.setCode (h : Plain s) (a : Address) (code : Bytes) :
    Writes s a ({ · with code }) (s.setCode a code) := by
  refine h.write a (e := .code a _) rfl rfl rfl ?_
  exact StateAccount.ext rfl rfl rfl (StateObject.storage_view_congr rfl rfl rfl rfl)

variable {o' : StateObject}

theorem PlainOn.replace (h : PlainOn s work) (ho : s.stateObjects[a]? = some o)
    (halive : o'.deleted = o.deleted) (hstanding : o'.selfDestructed = o.selfDestructed)
    (hclean : ¬ work a → o'.dirtyStorage = ∅) : PlainOn (s.setStateObject a o') work := by
  have hget : ∀ (b : Address), (s.setStateObject a o').stateObjects[b]? =
      if a = b then some o' else s.stateObjects[b]? := fun b => GoMap.get_insert _ _ _ _
  have hmem : ∀ b, b ∈ s.stateObjects.insert a o' ↔ b ∈ s.stateObjects := by
    intro b
    rw [GoMap.mem_insert]
    exact or_iff_right_of_imp fun hb => hb ▸ GoMap.mem_iff.mpr ⟨o, ho⟩
  refine ⟨h.trie, h.destruct, ?_, ?_, ?_, ?_, ?_, ?_, ?_⟩
  · intro b o₁ hb
    rw [hget] at hb
    split at hb
    · rw [← Option.some.inj hb, halive, h.alive ho]
    · exact h.alive hb
  · intro b o₁ hb
    rw [hget] at hb
    split at hb
    · rw [← Option.some.inj hb, hstanding, h.standing ho]
    · exact h.standing hb
  · intro b sa hb
    exact (hmem b).mpr (h.recorded hb)
  · intro b hb
    exact h.tracked b ((hmem b).mp hb)
  · intro b hb
    exact (hmem b).mpr (h.pending b hb)
  · intro b hb
    exact (hmem b).mpr (h.dirty b hb)
  · intro b o₁ hb hnot
    rw [hget] at hb
    split at hb
    · next hab => exact Option.some.inj hb ▸ hclean (hab ▸ hnot)
    · exact h.clean hb hnot

theorem PlainOn.replace_view (h : PlainOn s work) (ho : s.stateObjects[a]? = some o)
    (hplain : PlainOn (s.setStateObject a o') work) (hview : o'.view false = o.view false)
    (b : Address) :
    (s.setStateObject a o').view b = s.view b := by
  have hget : (s.setStateObject a o').stateObjects[b]? =
      if a = b then some o' else s.stateObjects[b]? := GoMap.get_insert _ _ _ _
  rw [hplain.view_eq, hget, h.view_eq]
  split
  · next hab => rw [← hab, ho, Option.map_some, Option.map_some, hview]
  · rfl

theorem PlainOn.cached (h : PlainOn s work) (ho : s.stateObjects[a]? = some o)
    (hsame : o.SameBut o' false) :
    PlainOn (s.setStateObject a o') work ∧ ∀ b, (s.setStateObject a o').view b = s.view b := by
  have hplain : PlainOn (s.setStateObject a o') work :=
    h.replace ho hsame.deleted hsame.selfDestructed fun hnot =>
      hsame.dirtyStorage.trans (h.clean ho hnot)
  exact ⟨hplain, h.replace_view ho hplain hsame.view⟩

theorem Plain.setState (h : Plain s) (a : Address) (key value : Word) :
    Writes s a (fun acct => { acct with storage := Function.update acct.storage key value })
      (s.setState a key value) := by
  obtain ⟨hfound, hobject⟩ := h.getOrNew a
  have hsame : (s.getOrNewStateObject a).1.SameBut _ false :=
    StateObject.sameBut_getState (o := (s.getOrNewStateObject a).1) key
  unfold StateDB.setState
  dsimp only
  rw [hfound.plain.destructed]
  split
  · next heq =>
    obtain ⟨hplain, hview⟩ := hfound.plain.cached hobject hsame
    refine ⟨⟨hplain, hfound.plain.journaled⟩, fun b => (hview b).trans ((hfound.view b).trans ?_)⟩
    have hat : ((s.view a).getD blank).storage key = value := by
      have := (hfound.view a).symm.trans (hfound.plain.view_some hobject)
      rw [if_pos rfl] at this
      rw [← heq, show (s.view a).getD blank = _ from Option.some.inj this]
      rfl
    rw [← hat, Function.update_eq_self]
    rfl
  · refine h.write a (e := .storage a key _) rfl hsame.deleted hsame.selfDestructed ?_
    refine StateAccount.ext hsame.nonce hsame.balance hsame.code ?_
    refine (StateObject.storage_insert_dirty key value).trans ?_
    dsimp only
    rw [hsame.view]

structure Settled (s : StateDB) (work : Address → Prop) (s' : StateDB) : Prop where
  plain : PlainOn s' work
  view : ∀ b, s'.view b = s.view b
  mem : ∀ b, b ∈ s'.stateObjects ↔ b ∈ s.stateObjects
  journal : s'.journal = s.journal

variable {s' : StateDB}

theorem PlainOn.view_congr {work' : Address → Prop} (h : PlainOn s work) (h' : PlainOn s' work')
    (heq : s'.stateObjects = s.stateObjects) (b : Address) :
    s'.view b = s.view b := by
  rw [h'.view_eq, h.view_eq, heq]

theorem PlainOn.finalisePre (h : PlainOn s work) {sa : Option Account}
    (hfound : sa ≠ none → a ∈ s.stateObjects) :
    ∃ s', s.finalisePre a sa = .ok s' ∧ Settled s work s' := by
  cases sa with
  | none =>
    have hplain : PlainOn { s with researchPreAlloc := s.researchPreAlloc.erase a } work := by
      refine { h with recorded := fun {b sa} hb => ?_ }
      rw [GoMap.get_erase] at hb
      split at hb
      · cases hb
      · exact h.recorded hb
    exact ⟨_, rfl, hplain, h.view_congr hplain rfl, fun _ => Iff.rfl, rfl⟩
  | some sa =>
    obtain ⟨o, ho⟩ := GoMap.mem_iff.mp (hfound (Option.some_ne_none _))
    have hsame : o.SameBut
        (o.readSlots (·.getCommittedState (s.destructed a)) o.touchedKeys).2 false := by
      rw [h.destructed]
      exact StateObject.sameBut_readSlots (fun o key => StateObject.sameBut_getCommittedState key) _
    obtain ⟨hplain, hview⟩ := h.cached ho hsame
    unfold StateDB.finalisePre
    simp only [ho]
    refine ⟨_, rfl, ?_, ?_, ?_, rfl⟩
    · refine { hplain with recorded := fun {b sa'} hb => ?_ }
      dsimp only at hb
      rw [GoMap.get_insert] at hb
      split at hb
      · next hab => exact GoMap.mem_insert.mpr (.inl hab.symm)
      · exact hplain.recorded hb
    · exact hview
    · intro b
      exact GoMap.mem_insert.trans (or_iff_right_of_imp fun hb => hb ▸ GoMap.mem_iff.mpr ⟨o, ho⟩)

theorem finaliseDirty_standing (ho : s.stateObjects[a]? = some o)
    (hstanding : o.selfDestructed = false) :
    let r := o.readSlots (·.getState (s.destructed a)) o.touchedKeys
    s.finaliseDirty false a =
      { s.setStateObject a { r.2.finalise with created := false } with
        researchPostAlloc := s.researchPostAlloc.insert a { r.2.record with storage := r.1 }
        stateObjectsPending := s.stateObjectsPending.insert a ()
        stateObjectsDirty := s.stateObjectsDirty.insert a () } := by
  unfold StateDB.finaliseDirty
  simp only [ho, hstanding, Bool.false_and, Bool.or_false, Bool.false_eq_true, if_false]
  rfl

theorem PlainOn.finaliseDirty (h : PlainOn s fun b => b = a ∨ work b) :
    Settled s work (s.finaliseDirty false a) := by
  cases ho : s.stateObjects[a]? with
  | none =>
    have hne : ∀ {b : Address}, b ∈ s.stateObjects → b ≠ a := by
      rintro b hb rfl
      obtain ⟨o, hb⟩ := GoMap.mem_iff.mp hb
      rw [hb] at ho
      cases ho
    have heq : s.finaliseDirty false a = s := by
      unfold StateDB.finaliseDirty
      rw [ho]
    rw [heq]
    refine ⟨{ h with tracked := ?_, clean := ?_ }, fun _ => rfl, fun _ => Iff.rfl, rfl⟩
    · intro b hb
      exact (h.tracked b hb).imp_left fun hw => hw.resolve_left (hne hb)
    · intro b o hb hnot
      exact h.clean hb (not_or.mpr ⟨hne (GoMap.mem_iff.mpr ⟨o, hb⟩), hnot⟩)
  | some o =>
    rw [finaliseDirty_standing ho (h.standing ho), h.destructed]
    have hsame : o.SameBut (o.readSlots (·.getState false) o.touchedKeys).2 false :=
      StateObject.sameBut_readSlots (fun o key => StateObject.sameBut_getState key) _
    generalize o.readSlots (·.getState false) o.touchedKeys = r at hsame
    have hview : ({ r.2.finalise with created := false } : StateObject).view false =
        o.view false := by
      refine Eq.trans ?_ (StateObject.view_finalise.trans hsame.view)
      exact StateAccount.ext rfl rfl rfl (StateObject.storage_view_congr rfl rfl rfl rfl)
    have hplain : PlainOn (s.setStateObject a { r.2.finalise with created := false }) _ :=
      h.replace ho hsame.deleted hsame.selfDestructed fun _ => rfl
    have hmem : ∀ b, b ∈ s.stateObjects.insert a { r.2.finalise with created := false } ↔
        b ∈ s.stateObjects := by
      intro b
      exact GoMap.mem_insert.trans (or_iff_right_of_imp fun hb => hb ▸ GoMap.mem_iff.mpr ⟨o, ho⟩)
    refine ⟨⟨hplain.trie, hplain.destruct, hplain.alive, hplain.standing,
      hplain.recorded, ?_, ?_, ?_, ?_⟩,
      h.replace_view ho hplain hview, ?_, rfl⟩
    · intro b hb
      rcases hplain.tracked b hb with (rfl | hw) | hp
      · exact .inr (GoMap.mem_insert.mpr (.inl rfl))
      · exact .inl hw
      · exact .inr (GoMap.mem_insert.mpr (.inr hp))
    · intro b hb
      rcases GoMap.mem_insert.mp hb with rfl | hb
      · exact GoMap.mem_insert.mpr (.inl rfl)
      · exact hplain.pending b hb
    · intro b hb
      rcases GoMap.mem_insert.mp hb with rfl | hb
      · exact GoMap.mem_insert.mpr (.inl rfl)
      · exact hplain.dirty b hb
    · intro b o' hb hnot
      by_cases hba : b = a
      · subst hba
        have hat := (GoMap.get_insert _ _ _ _).symm.trans hb
        rw [if_pos rfl] at hat
        rw [← Option.some.inj hat]
        rfl
      · exact hplain.clean hb (not_or.mpr ⟨hba, hnot⟩)
    · exact hmem

theorem Settled.trans {s'' : StateDB} {work' : Address → Prop} (h : Settled s work s')
    (h' : Settled s' work' s'') : Settled s work' s'' where
  plain := h'.plain
  view b := (h'.view b).trans (h.view b)
  mem b := (h'.mem b).trans (h.mem b)
  journal := h'.journal.trans h.journal

theorem PlainOn.settled (h : PlainOn s work) : Settled s work s :=
  ⟨h, fun _ => rfl, fun _ => Iff.rfl, rfl⟩

theorem PlainOn.finalisePres (h : PlainOn s work) {l : List (Address × Option Account)}
    (hl : ∀ e ∈ l, e.2 ≠ none → e.1 ∈ s.stateObjects) :
    ∃ s', l.foldlM (fun s e => s.finalisePre e.1 e.2) s = .ok s' ∧ Settled s work s' := by
  induction l generalizing s with
  | nil => exact ⟨s, rfl, h.settled⟩
  | cons e l ih =>
    obtain ⟨s₁, hs₁, hstep⟩ := h.finalisePre (hl e List.mem_cons_self)
    obtain ⟨s₂, hs₂, hrest⟩ := ih hstep.plain fun e' he' hne =>
      (hstep.mem _).mpr (hl e' (List.mem_cons_of_mem _ he') hne)
    refine ⟨s₂, ?_, hstep.trans hrest⟩
    rw [List.foldlM_cons, hs₁]
    exact hs₂

theorem PlainOn.finaliseDirties {l : List Address} (h : PlainOn s (· ∈ l)) :
    Settled s (fun _ => False) (l.foldl (StateDB.finaliseDirty false) s) := by
  induction l generalizing s with
  | nil =>
    simp only [List.not_mem_nil] at h
    exact h.settled
  | cons a l ih =>
    simp only [List.mem_cons] at h
    have hstep := h.finaliseDirty
    exact hstep.trans (ih hstep.plain)

theorem Plain.finalise (h : Plain s) :
    ∃ s', s.finalise false = .ok s' ∧ Rested s' ∧ ∀ b, s'.view b = s.view b := by
  have hpre : ∀ e ∈ s.researchPreAlloc.toList, e.2 ≠ none → e.1 ∈ s.stateObjects := by
    rintro ⟨a, sa⟩ he hne
    obtain ⟨sa', rfl⟩ := Option.ne_none_iff_exists'.mp hne
    exact h.recorded (GoMap.mem_toList.mp he)
  obtain ⟨s₁, hs₁, hfirst⟩ := h.toPlainOn.finalisePres hpre
  have hwork : PlainOn s₁ (· ∈ s₁.journal.dirties.toList.map Prod.fst) := by
    simp only [ExtTreeMap.map_fst_toList_eq_keys, ExtTreeMap.mem_keys, hfirst.journal]
    exact hfirst.plain
  have hall := hfirst.trans hwork.finaliseDirties
  refine ⟨_, bind_ok_iff.mpr ⟨s₁, hs₁, rfl⟩, ?_, hall.view⟩
  generalize (s₁.journal.dirties.toList.map Prod.fst).foldl
    (StateDB.finaliseDirty false) s₁ = s₂ at hall
  have hcleared : s₂.clearJournal.journal.dirties = ∅ := by
    unfold StateDB.clearJournal
    dsimp only
    split
    · next hempty =>
      rw [hall.journal] at hempty ⊢
      exact h.journaled hempty
    · rfl
  refine ⟨⟨?_, fun _ => hcleared⟩, hcleared⟩
  have hwork' : (fun a => a ∈ s₂.clearJournal.journal.dirties) = fun _ => False := by
    funext a
    simp [hcleared]
  rw [hwork']
  exact { hall.plain with }

structure Redrawn (f : StateObject → StateObject) : Prop where
  deleted : ∀ o, (f o).deleted = o.deleted
  selfDestructed : ∀ o, (f o).selfDestructed = o.selfDestructed
  dirtyStorage : ∀ o, (f o).dirtyStorage = o.dirtyStorage
  view : ∀ o, (f o).view false = o.view false

theorem Rested.redraw (h : Rested s) {f : StateObject → StateObject} (hf : Redrawn f)
    (hget : ∀ b : Address, s'.stateObjects[b]? = (s.stateObjects[b]?).map f)
    (htrie : s'.trie = s.trie) (hdestruct : s'.stateObjectsDestruct = s.stateObjectsDestruct)
    (hjournal : s'.journal.dirties = ∅)
    (hpre : ∀ {b : Address} {sa}, s'.researchPreAlloc[b]? = some (some sa) → b ∈ s.stateObjects)
    (htracked : ∀ b ∈ s.stateObjects, b ∈ s'.stateObjectsPending)
    (hpending : ∀ b ∈ s'.stateObjectsPending, b ∈ s.stateObjects)
    (hdirty : ∀ b ∈ s'.stateObjectsDirty, b ∈ s.stateObjects) :
    Rested s' ∧ ∀ b, s'.view b = s.view b := by
  have hmem : ∀ b, b ∈ s'.stateObjects ↔ b ∈ s.stateObjects := by
    intro b
    simp only [GoMap.mem_iff, hget, Option.map_eq_some_iff]
    exact ⟨fun ⟨_, o, ho, _⟩ => ⟨o, ho⟩, fun ⟨o, ho⟩ => ⟨f o, o, ho, rfl⟩⟩
  have hobject : ∀ {b : Address} {o'}, s'.stateObjects[b]? = some o' →
      ∃ o, s.stateObjects[b]? = some o ∧ f o = o' := by
    intro b o' hb
    rw [hget] at hb
    exact Option.map_eq_some_iff.mp hb
  have hidle : ∀ b, b ∉ s.journal.dirties := by
    intro b hb
    rw [h.rest] at hb
    simp at hb
  have hplain : PlainOn s' (· ∈ s'.journal.dirties) := by
    refine ⟨fun a => (congrFun htrie a).trans (h.trie a),
      hdestruct.trans h.destruct, ?_, ?_, ?_, ?_, ?_, ?_, ?_⟩
    · intro b o' hb
      obtain ⟨o, ho, rfl⟩ := hobject hb
      exact (hf.deleted o).trans (h.alive ho)
    · intro b o' hb
      obtain ⟨o, ho, rfl⟩ := hobject hb
      exact (hf.selfDestructed o).trans (h.standing ho)
    · intro b sa hb
      exact (hmem b).mpr (hpre hb)
    · intro b hb
      exact .inr (htracked b ((hmem b).mp hb))
    · intro b hb
      exact (hmem b).mpr (hpending b hb)
    · intro b hb
      exact (hmem b).mpr (hdirty b hb)
    · intro b o' hb _
      obtain ⟨o, ho, rfl⟩ := hobject hb
      exact (hf.dirtyStorage o).trans (h.clean ho (hidle b))
  refine ⟨⟨⟨hplain, fun _ => hjournal⟩, hjournal⟩, fun b => ?_⟩
  rw [hplain.view_eq, h.view_eq, hget, Option.map_map]
  exact congrArg (Option.map · _) (funext hf.view)

theorem Rested.mem_pending (h : Rested s) (b : Address) :
    b ∈ s.stateObjects ↔ b ∈ s.stateObjectsPending := by
  refine ⟨fun hb => (h.tracked b hb).resolve_left fun hd => ?_, h.pending b⟩
  rw [h.rest] at hd
  simp at hd

theorem Rested.setTxContext (h : Rested s) : Rested s.setTxContext := by
  have hf : Redrawn fun o => { o with researchTouched := ∅ } := by
    refine ⟨fun _ => rfl, fun _ => rfl, fun _ => rfl, fun o => ?_⟩
    exact StateAccount.ext rfl rfl rfl (StateObject.storage_view_congr rfl rfl rfl rfl)
  have hget : ∀ b : Address, s.setTxContext.stateObjects[b]? =
      (s.stateObjects[b]?).map fun o => { o with researchTouched := ∅ } :=
    fun b => ExtTreeMap.getElem?_map
  refine (h.redraw hf hget rfl rfl h.rest ?_ ?_ h.pending h.dirty).1
  · intro b sa hb
    simp [StateDB.setTxContext] at hb
  · intro b hb
    exact (h.mem_pending b).mp hb

theorem redrawn_created : Redrawn fun o => { o with created := false } := by
  refine ⟨fun _ => rfl, fun _ => rfl, fun _ => rfl, fun o => ?_⟩
  exact StateAccount.ext rfl rfl rfl (StateObject.storage_view_congr rfl rfl rfl rfl)

theorem copyObjects_spec {addrs : List Address} {m : GoMap Address StateObject}
    (haddrs : ∀ a ∈ addrs, a ∈ s.stateObjects)
    (hm : ∀ a ∈ m, m[a]? = (s.stateObjects[a]?).map fun o => { o with created := false }) :
    ∃ m', s.copyObjects addrs m = .ok m' ∧
      (∀ a ∈ m', m'[a]? = (s.stateObjects[a]?).map fun o => { o with created := false }) ∧
      ∀ a, a ∈ m' ↔ a ∈ addrs ∨ a ∈ m := by
  induction addrs generalizing m with
  | nil => exact ⟨m, rfl, hm, fun a => by simp⟩
  | cons a addrs ih =>
    have hrest := fun b hb => haddrs b (List.mem_cons_of_mem a hb)
    unfold StateDB.copyObjects
    rw [List.foldlM_cons]
    by_cases ha : a ∈ m
    · rw [if_pos (ExtTreeMap.contains_iff_mem.mpr ha)]
      obtain ⟨m', hm', hget, hmem⟩ := ih hrest hm
      refine ⟨m', hm', hget, fun b => ?_⟩
      rw [hmem, List.mem_cons]
      constructor
      · rintro (hb | hb)
        · exact .inl (.inr hb)
        · exact .inr hb
      · rintro ((rfl | hb) | hb)
        · exact .inr ha
        · exact .inl hb
        · exact .inr hb
    · obtain ⟨o, ho⟩ := GoMap.mem_iff.mp (haddrs a List.mem_cons_self)
      rw [if_neg fun hc => ha (ExtTreeMap.contains_iff_mem.mp hc), ho]
      have hins : ∀ b ∈ m.insert a { o with created := false },
          (m.insert a { o with created := false })[b]? =
            (s.stateObjects[b]?).map fun o => { o with created := false } := by
        intro b hb
        rw [GoMap.get_insert]
        split
        · next hab => rw [← hab, ho, Option.map_some]
        · next hab => exact hm b ((GoMap.mem_insert.mp hb).resolve_left fun hba => hab hba.symm)
      obtain ⟨m', hm', hget, hmem⟩ := ih hrest hins
      refine ⟨m', hm', hget, fun b => ?_⟩
      rw [hmem, GoMap.mem_insert, List.mem_cons]
      exact or_left_comm.trans or_assoc.symm

theorem mem_foldl_insert {addrs : List Address} {m : GoMap Address Unit} {b : Address} :
    b ∈ addrs.foldl (fun m a => m.insert a ()) m ↔ b ∈ addrs ∨ b ∈ m := by
  induction addrs generalizing m with
  | nil => simp
  | cons a addrs ih =>
    rw [List.foldl_cons, ih, GoMap.mem_insert, List.mem_cons]
    exact or_left_comm.trans or_assoc.symm

theorem Rested.copy (h : Rested s) :
    ∃ s', s.copy = .ok s' ∧ Rested s' ∧ ∀ b, s'.view b = s.view b := by
  have hkeys : ∀ {m : GoMap Address Unit} {b}, b ∈ m.toList.map Prod.fst ↔ b ∈ m := by
    intro m b
    rw [ExtTreeMap.map_fst_toList_eq_keys, ExtTreeMap.mem_keys]
  have hidle : (s.journal.dirties.toList.map Prod.fst).filter s.stateObjects.contains = [] := by
    rw [h.rest]
    rfl
  have haddrs : ∀ b, b ∈ s.stateObjectsPending.toList.map Prod.fst ++
      s.stateObjectsDirty.toList.map Prod.fst ↔ b ∈ s.stateObjects := by
    intro b
    rw [List.mem_append, hkeys, hkeys, ← h.mem_pending]
    exact or_iff_left_of_imp (h.dirty b)
  obtain ⟨m', hm', hget, hmem⟩ := copyObjects_spec (m := ∅) (fun b hb => (haddrs b).mp hb)
    (fun a ha => by simp at ha)
  have hall : ∀ b : Address, m'[b]? = (s.stateObjects[b]?).map fun o =>
      { o with created := false } := by
    intro b
    by_cases hb : b ∈ m'
    · exact hget b hb
    · have hout : b ∉ s.stateObjects := fun hb' => hb ((hmem b).mpr (.inl ((haddrs b).mpr hb')))
      rw [ExtTreeMap.getElem?_eq_none hb, ExtTreeMap.getElem?_eq_none hout, Option.map_none]
  unfold StateDB.copy
  rw [hidle]
  refine ⟨_, bind_ok_iff.mpr ⟨m', hm', rfl⟩, ?_⟩
  refine h.redraw redrawn_created hall rfl rfl rfl h.recorded ?_ ?_ ?_
  · intro b hb
    exact mem_foldl_insert.mpr (.inl (hkeys.mpr ((h.mem_pending b).mp hb)))
  · intro b hb
    rcases mem_foldl_insert.mp hb with hb | hb
    · exact h.pending b (hkeys.mp hb)
    · simp at hb
  · intro b hb
    rcases mem_foldl_insert.mp hb with hb | hb
    · exact h.dirty b (hkeys.mp hb)
    · simp at hb

theorem Writes.trans {s'' : StateDB} {g : StateAccount → StateAccount} (h : Writes s a f s')
    (h' : Writes s' a g s'') : Writes s a (g ∘ f) s'' := by
  refine ⟨h'.plain, fun b => (h'.view b).trans ?_⟩
  split
  · rw [h.view a, if_pos rfl]
    rfl
  · next hab => rw [h.view b, if_neg hab]

def loaded (acct : Account) (old : StateAccount) : StateAccount where
  nonce := acct.nonce
  balance := BitVec.ofNat 256 (beVal acct.balance)
  code := acct.getCode.getD []
  storage := acct.storage.foldl
    (fun m p => Function.update m (Uint256.setBytes p.key) (Uint256.setBytes p.value)) old.storage

theorem Writes.setStates (h : Writes s a f s') (l : List StorageEntry) :
    Writes s a (fun acct => { f acct with
        storage := l.foldl (fun m p => Function.update m (Uint256.setBytes p.key)
          (Uint256.setBytes p.value)) (f acct).storage })
      (l.foldl (fun s p => s.setState a (Uint256.setBytes p.key)
      (Uint256.setBytes p.value)) s') := by
  induction l generalizing s' f with
  | nil => exact h
  | cons p l ih => exact ih (h.trans (h.plain.setState a _ _))

theorem Plain.loadEntry (h : Plain s) {e : AllocEntry} (hfits : beVal e.account.balance < 2 ^ 256) :
    ∃ s', s.loadEntry e = .ok s' ∧ Writes s (Address.ofBytes e.address) (loaded e.account) s' := by
  have hbal : bytesToUint256 e.account.balance = .ok (BitVec.ofNat 256 (beVal e.account.balance)) :=
    if_pos hfits
  refine ⟨_, bind_ok_iff.mpr ⟨_, hbal, rfl⟩, ?_⟩
  have hcode := h.setCode (Address.ofBytes e.address) (e.account.getCode.getD [])
  have hnonce := hcode.trans (hcode.plain.setNonce _ e.account.nonce)
  have hbalance := hnonce.trans
      (hnonce.plain.setBalance _ (BitVec.ofNat 256 (beVal e.account.balance)))
  exact hbalance.setStates e.account.storage

end
end EtherVal.State
