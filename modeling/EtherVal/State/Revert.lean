import EtherVal.State.View

/-!
# Snapshots

A revert does not bring the database of the snapshot back, since reads fill caches.  It brings
back what every address shows.
-/

namespace EtherVal.State
open EtherVal.Lib EtherVal.Research

/-- What can be seen of an object: the account and the two marks. -/
def StateObject.shape (d : Bool) (o : StateObject) : StateAccount × Bool × Bool :=
  (o.view d, o.selfDestructed, o.deleted)

namespace StateDB
open StateObject

def cell (s : StateDB) (b : Address) : Bool × Option (StateAccount × Bool × Bool) :=
  (s.destructed b, (s.lookup b).map (shape (s.destructed b)))

def tables (s : StateDB) := (s.trie, s.journal.entries, s.validRevisions, s.nextRevisionId)

variable {s s' s'' t t' : StateDB} {a b : Address} {o o' : StateObject} {e : JournalEntry}
  {v : Bool × Option (StateAccount × Bool × Bool)} {f : StateObject → StateObject}

theorem view_of_cell (h : t.cell = s.cell) (b : Address) : t.view b = s.view b := by
  have hview : ∀ s : StateDB, s.view b = ((s.cell b).2.filter fun x => !x.2.2).map Prod.fst := by
    intro s
    unfold StateDB.view cell
    cases s.lookup b with
    | none => rfl
    | some o => cases hd : o.deleted <;> simp [Option.filter, shape, hd]
  rw [hview, hview, h]

theorem cell_eq_update (hlookup : ∀ b, a ≠ b → t.lookup b = s.lookup b)
    (hdestruct : ∀ b, a ≠ b → t.destructed b = s.destructed b) (ha : t.cell a = v) :
    t.cell = Function.update s.cell a v := by
  funext b
  by_cases hab : a = b
  · subst hab
    rw [Function.update_self, ha]
  · rw [Function.update_of_ne (Ne.symm hab), cell, hlookup b hab, hdestruct b hab, cell]

theorem lookup_set_other (hab : a ≠ b) : (s.setStateObject a o).lookup b = s.lookup b :=
  (lookup_setStateObject o).trans (if_neg hab)

theorem cell_of_lookup (ho : s.lookup a = some o) :
    s.cell a = (s.destructed a, some (shape (s.destructed a) o)) := by
  rw [cell, ho, Option.map_some]

theorem lookup_set_self : (s.setStateObject a o).lookup a = some o :=
  (lookup_setStateObject o).trans (if_pos rfl)

theorem cell_set : (s.setStateObject a o).cell =
    Function.update s.cell a (s.destructed a, some (shape (s.destructed a) o)) :=
  cell_eq_update (fun _ => lookup_set_other) (fun _ _ => rfl) (cell_of_lookup lookup_set_self)

theorem cell_of_sameObjects (h : SameObjects s s') : s'.cell = s.cell := by
  funext b
  rw [cell, h.lookup, h.destructed, cell]

theorem getDeleted_tables : (s.getDeletedStateObject a).2.tables = s.tables := by
  unfold getDeletedStateObject
  cases s.stateObjects[a]? with
  | some o => rfl
  | none => cases s.trie a <;> rfl

theorem getStateObject_tables : (s.getStateObject a).2.tables = s.tables := by
  have htables := getDeleted_tables (s := s) (a := a)
  unfold getStateObject recordPre
  generalize s.getDeletedStateObject a = r at htables
  obtain ⟨p, s₁⟩ := r
  cases p with
  | none => dsimp only; split <;> exact htables
  | some o => dsimp only; split <;> split <;> exact htables

/-! ### Undoing the journal -/

/-- The journal of `s'` continues that of `s`, and undoing the new entries leads back to `s`. -/
def Undoable (s s' : StateDB) : Prop :=
  s'.trie = s.trie ∧ ∃ es, s'.journal.entries = es ++ s.journal.entries ∧
    ∀ t' : StateDB, t'.cell = s'.cell → t'.trie = s.trie →
      ∃ t, t'.revertEntries es = .ok t ∧ t.cell = s.cell ∧ t.tables = t'.tables

structure Logs (s s' : StateDB) : Prop where
  undoable : Undoable s s'
  revisions : s'.tables.2.2 = s.tables.2.2

theorem revertEntries_append {es es' : List JournalEntry} :
    s.revertEntries (es ++ es') = s.revertEntries es >>= fun t => t.revertEntries es' := by
  induction es generalizing s with
  | nil => rfl
  | cons e es ih =>
    simp only [List.cons_append, revertEntries, bind_assoc]
    exact bind_congr fun t => ih

theorem Undoable.trans (h : Undoable s s') (h' : Undoable s' s'') : Undoable s s'' := by
  obtain ⟨htrie, es, hes, hundo⟩ := h
  obtain ⟨htrie', es', hes', hundo'⟩ := h'
  refine ⟨htrie'.trans htrie, es' ++ es, by rw [hes', hes, List.append_assoc],
    fun t' hcell ht' => ?_⟩
  obtain ⟨u, hu, hucell, hut⟩ := hundo' t' hcell (ht'.trans htrie.symm)
  obtain ⟨t, ht, htcell, htt⟩ := hundo u hucell ((congrArg Prod.fst hut).trans ht')
  exact ⟨t, by rw [revertEntries_append, hu]; exact ht, htcell, htt.trans hut⟩

theorem Logs.trans (h : Logs s s') (h' : Logs s' s'') : Logs s s'' :=
  ⟨h.undoable.trans h'.undoable, h'.revisions.trans h.revisions⟩

theorem undoable_refl (hcell : s'.cell = s.cell) (htrie : s'.trie = s.trie)
    (hj : s'.journal.entries = s.journal.entries) : Undoable s s' :=
  ⟨htrie, [], hj, fun t' ht' _ => ⟨t', rfl, ht'.trans hcell, rfl⟩⟩

theorem logs_of_cell (hcell : s'.cell = s.cell) (htables : s'.tables = s.tables) : Logs s s' :=
  ⟨undoable_refl hcell (congrArg Prod.fst htables) (congrArg (·.2.1) htables),
    congrArg (·.2.2) htables⟩

/-- A change at `a` alone, with an entry that puts the old cell back. -/
theorem logs_entry (hcell : s'.cell = Function.update s.cell a v)
    (htables : s'.tables = (s.trie, e :: s.journal.entries, s.validRevisions, s.nextRevisionId))
    (hrev : ∀ t' : StateDB, t'.cell a = v → t'.trie = s.trie → ∃ t, t'.revertEntry e = .ok t ∧
      t.cell = Function.update t'.cell a (s.cell a) ∧ t.tables = t'.tables) : Logs s s' := by
  refine ⟨⟨congrArg Prod.fst htables, [e], congrArg (·.2.1) htables, fun t' ht' httrie => ?_⟩,
    congrArg (·.2.2) htables⟩
  obtain ⟨t, ht, htcell, htt⟩ := hrev t' (by rw [ht', hcell, Function.update_self]) httrie
  refine ⟨{ t with journal := t.journal.undirty e.dirtied }, ?_, ?_, htt⟩
  · simp only [revertEntries, ht]
    rfl
  · refine (htcell : t.cell = _).trans ?_
    rw [ht', hcell, Function.update_idem, Function.update_eq_self]

theorem getStateObject_logs : (s.getStateObject a).1 = s.live a ∧
    (s.getStateObject a).2.live a = s.live a ∧ Logs s (s.getStateObject a).2 := by
  obtain ⟨hfst, hsame⟩ := getStateObject_spec (s := s) (a := a)
  exact ⟨hfst, by rw [live, hsame.lookup]; rfl,
    logs_of_cell (cell_of_sameObjects hsame) getStateObject_tables⟩

theorem restore_spec (ho : s.live a = some o) : ∃ t, s.restore a f = .ok t ∧
    t.cell = Function.update s.cell a (s.destructed a, some (shape (s.destructed a) (f o))) ∧
    t.tables = s.tables := by
  have htables := getStateObject_tables (s := s) (a := a)
  obtain ⟨hfst, hsame⟩ := getStateObject_spec (s := s) (a := a)
  unfold restore
  generalize s.getStateObject a = r at htables hsame hfst
  obtain ⟨x, s₁⟩ := r
  obtain rfl : x = some o := hfst.trans ho
  exact ⟨_, rfl, by rw [cell_set, cell_of_sameObjects hsame, hsame.destructed], htables⟩

/-- A change of a live object whose entry restores a field. -/
theorem logs_write (ho : s.live a = some o) (hdel : o'.deleted = o.deleted)
    (hrev : ∀ (t : StateDB) x, t.live a = some x → t.revertEntry e = t.restore a f)
    (hback : ∀ x, shape (s.destructed a) x = shape (s.destructed a) o' →
      shape (s.destructed a) (f x) = shape (s.destructed a) o) :
    Logs s ((s.appendJournal e).setStateObject a o') := by
  refine logs_entry (e := e) cell_set rfl fun t' ht' _ => ?_
  obtain ⟨hd, hx⟩ := Prod.mk.inj ht'
  obtain ⟨x, hlook, hx⟩ := Option.map_eq_some_iff.mp hx
  have hlive : t'.live a = some x := by
    have halive : x.deleted = o'.deleted := congrArg (·.2.2) hx
    rw [live, hlook]
    simp [Option.filter, halive, hdel, deleted_of_live ho]
  obtain ⟨t, ht, hcell, htables⟩ := restore_spec (f := f) hlive
  rw [hd] at hx hcell
  refine ⟨t, (hrev t' x hlive).trans ht, ?_, htables⟩
  rw [hcell, cell_of_lookup (Option.filter_eq_some_iff.mp ho).1, ← hback x hx]
  rfl

theorem logs_create (hnone : s.lookup a = none) :
    Logs s ((s.appendJournal (.createObject a)).setStateObject a o) := by
  have htrie : s.trie a = none := by
    rw [lookup, Option.or_eq_none_iff] at hnone
    simpa using hnone.2
  refine logs_entry (e := .createObject a) cell_set rfl fun t' ht' httrie => ⟨_, rfl, ?_, rfl⟩
  refine cell_eq_update (fun b hab => ?_) (fun _ _ => rfl) (Prod.ext (congrArg Prod.fst ht' :) ?_)
  · simp [lookup, GoMap.get_erase, hab]
  · rw [cell, cell, hnone]
    simp [lookup, httrie, htrie]

theorem logs_reset (ho : s.lookup a = some o) :
    Logs s (({ s with stateObjectsDestruct := s.stateObjectsDestruct.insert a () }.appendJournal
      (.resetObject a o (s.destructed a))).setStateObject a o') := by
  refine logs_entry (a := a) (e := .resetObject a o (s.destructed a))
    (v := (true, some (shape true o')))
    (cell_eq_update (fun _ => lookup_set_other) (fun b hab => ?_) ?_) rfl
    fun t' ht' _ => ⟨_, rfl, ?_, ?_⟩
  · simp [destructed, setStateObject, appendJournal, hab]
  · rw [cell_of_lookup lookup_set_self]
    simp [destructed, setStateObject, appendJournal]
  · rw [cell_of_lookup ho]
    cases hprev : s.destructed a with
    | true =>
      have hd : t'.destructed a = true := congrArg Prod.fst ht'
      exact cell_set.trans (by rw [hd])
    | false =>
      refine cell_eq_update (fun _ => lookup_set_other) (fun b hab => ?_) ?_
      · simp [destructed, setStateObject, hab]
      · have hlook : StateDB.lookup { t'.setStateObject a o with
            stateObjectsDestruct := t'.stateObjectsDestruct.erase a } a = some o := lookup_set_self
        exact (cell_of_lookup hlook).trans (by simp [destructed])
  · split <;> rfl

theorem set_set : (s.setStateObject a o).setStateObject a o' = s.setStateObject a o' := by
  have hinsert : (s.stateObjects.insert a o).insert a o' = s.stateObjects.insert a o' := by
    refine GoMap.ext fun b => ?_
    simp only [GoMap.get_insert]
    split <;> rfl
  simp only [setStateObject, hinsert]

theorem createObject_spec : ∃ u : StateDB,
    (s.createObject a).2.2 = u.setStateObject a (newObject none) ∧
    (s.createObject a).1 = newObject none ∧ ∀ o, Logs s (u.setStateObject a o) := by
  obtain ⟨hfst, hsame⟩ := getDeletedStateObject_spec (s := s) (a := a)
  have hlogs := logs_of_cell (cell_of_sameObjects hsame) getDeleted_tables
  unfold createObject
  generalize s.getDeletedStateObject a = r at hfst hsame hlogs
  obtain ⟨p, s₁⟩ := r
  have hlook : s₁.lookup a = p := (hsame.lookup a).trans hfst.symm
  cases p with
  | none => exact ⟨_, rfl, rfl, fun o => hlogs.trans (logs_create hlook)⟩
  | some p => exact ⟨_, rfl, rfl, fun o => hlogs.trans (logs_reset hlook)⟩

theorem getOrNew_spec : Logs s (s.getOrNewStateObject a).2 ∧
    (s.getOrNewStateObject a).2.live a = some (s.getOrNewStateObject a).1 := by
  obtain ⟨hfst, hlive, hlogs⟩ := getStateObject_logs (s := s) (a := a)
  unfold getOrNewStateObject
  generalize s.getStateObject a = r at hfst hlive hlogs
  obtain ⟨x, s₁⟩ := r
  cases x with
  | some o => exact ⟨hlogs, hlive.trans hfst.symm⟩
  | none =>
    obtain ⟨u, hu, hnew, hlogs'⟩ := createObject_spec (s := s₁) (a := a)
    dsimp only
    rw [hu, hnew, live, lookup_set_self]
    exact ⟨hlogs.trans (hlogs' _), rfl⟩

theorem logs_createAccount : Logs s (s.createAccount a) := by
  obtain ⟨u, hu, -, hlogs⟩ := createObject_spec (s := s) (a := a)
  unfold createAccount
  generalize s.createObject a = r at hu
  obtain ⟨o, prev, s₁⟩ := r
  obtain rfl : s₁ = _ := hu
  cases prev with
  | none => exact hlogs _
  | some p =>
    dsimp only
    rw [set_set]
    exact hlogs _

/-! ### Changes of one object -/

section Shape
variable (d : Bool) (o : StateObject) (key w : Word)

theorem shape_fields (n : Nat) (c : Bytes) (gone : Bool) :
    shape d { o with nonce := n, balance := w, code := c, selfDestructed := gone } =
      (⟨n, w, c, (shape d o).1.storage⟩, gone, (shape d o).2.2) :=
  Prod.ext (StateAccount.ext rfl rfl rfl (storage_view_congr rfl rfl rfl rfl)) rfl

theorem shape_dirty : shape d { o with dirtyStorage := o.dirtyStorage.insert key w } =
    ({ (shape d o).1 with storage := Function.update (shape d o).1.storage key w },
      (shape d o).2) :=
  Prod.ext (StateAccount.ext rfl rfl rfl (storage_insert_dirty key w)) rfl

theorem shape_getState : shape d (o.getState d key).2 = shape d o :=
  have hsame := sameBut_getState (o := o) (d := d) key
  Prod.ext hsame.view (Prod.ext hsame.selfDestructed hsame.deleted)

end Shape

/-- A change of fields, with the entry that puts them back. -/
theorem logs_fields {n : Nat} {w : Word} {c : Bytes} {gone : Bool} (ho : s.live a = some o)
    (hrev : ∀ (t : StateDB) x, t.live a = some x → t.revertEntry e = t.restore a f)
    (hf : ∀ x, x.nonce = n → x.balance = w → x.code = c → x.selfDestructed = gone → f x =
      { x with
        nonce := o.nonce, balance := o.balance, code := o.code
        selfDestructed := o.selfDestructed }) :
    Logs s ((s.appendJournal e).setStateObject a
      { o with nonce := n, balance := w, code := c, selfDestructed := gone }) := by
  refine logs_write ho rfl hrev fun x hx => ?_
  replace hx := hx.trans (shape_fields ..)
  rw [hf x (congrArg (·.1.nonce) hx) (congrArg (·.1.balance) hx) (congrArg (·.1.code) hx)
    (congrArg (·.2.1) hx), shape_fields, hx]
  rfl

theorem logs_balance (ho : s.live a = some o) (w : Word) : Logs s (s.objectSetBalance a o w) :=
  logs_fields ho (fun _ _ _ => rfl) fun x hn _ hc hd => by rw [← hn, ← hc, ← hd]

theorem revertEntry_selfDestruct {prev : Bool} {w : Word} (ho : s.live a = some o) :
    s.revertEntry (.selfDestruct a prev w) =
      s.restore a fun x => { x with selfDestructed := prev, balance := w } := by
  have hfst := (getStateObject_logs (s := s) (a := a)).1.trans ho
  simp only [revertEntry, restore]
  generalize s.getStateObject a = r at hfst
  obtain ⟨x, s₁⟩ := r
  obtain rfl : x = some o := hfst
  rfl

theorem logs_cached (ho : s.live a = some o) (key : Word) :
    Logs s (s.setStateObject a (o.getState (s.destructed a) key).2) := by
  refine logs_of_cell ?_ rfl
  rw [cell_set, shape_getState, ← cell_of_lookup (Option.filter_eq_some_iff.mp ho).1,
    Function.update_eq_self]

theorem logs_storage (ho : s.live a = some o) (key value : Word) :
    Logs s ((s.appendJournal (.storage a key (o.getState (s.destructed a) key).1)).setStateObject a
      { (o.getState (s.destructed a) key).2 with
        dirtyStorage := (o.getState (s.destructed a) key).2.dirtyStorage.insert key value }) := by
  refine logs_write ho (sameBut_getState key).deleted (fun _ _ _ => rfl) fun x hx => ?_
  rw [shape_dirty, hx, shape_dirty, shape_getState]
  -- the entry holds the value the slot showed before
  exact Prod.ext (StateAccount.ext rfl rfl rfl ((Function.update_idem ..).trans
    (Function.update_eq_self key _))) rfl

theorem logs_touch : Logs s (s.touch a) := by
  unfold touch
  dsimp only
  split
  all_goals exact ⟨⟨rfl, [.touch a], rfl, fun t' ht' _ => ⟨_, rfl, ht', rfl⟩⟩, rfl⟩

/-! ### Runs -/

inductive Step (s : StateDB) : StateDB → Prop
  /-- `Exist`, `Empty`, `GetBalance`, `GetNonce`, `GetCode`, `HasSelfDestructed` -/
  | read (a : Address) : Step s (s.getStateObject a).2
  | getState (a : Address) (key : Word) : Step s (s.getState a key).2
  | setBalance (a : Address) (amount : Word) : Step s (s.setBalance a amount)
  | addBalance (a : Address) (amount : Word) : Step s (s.addBalance a amount)
  | subBalance (a : Address) (amount : Word) : Step s (s.subBalance a amount)
  | setNonce (a : Address) (nonce : Nat) : Step s (s.setNonce a nonce)
  | setCode (a : Address) (code : Bytes) : Step s (s.setCode a code)
  | setState (a : Address) (key value : Word) : Step s (s.setState a key value)
  | selfDestruct (a : Address) : Step s (s.selfDestruct a)
  | createAccount (a : Address) : Step s (s.createAccount a)

theorem Step.logs (h : Step s s') : Logs s s' := by
  have hnew : ∀ {a}, Logs s (s.getOrNewStateObject a).2 := getOrNew_spec.1
  have hfound : ∀ a, _ := fun a => getStateObject_logs (s := s) (a := a)
  cases h with
  | read a => exact (hfound a).2.2
  | getState a key =>
    obtain ⟨hfst, hlive, hlogs⟩ := hfound a
    unfold StateDB.getState
    generalize s.getStateObject a = r at hfst hlive hlogs
    obtain ⟨x, s₁⟩ := r
    cases x with
    | none => exact hlogs
    | some o => exact hlogs.trans (logs_cached (hlive.trans hfst.symm) key)
  | setBalance a w => exact hnew.trans (logs_balance getOrNew_spec.2 w)
  | setNonce a n =>
    exact hnew.trans (logs_fields getOrNew_spec.2 (fun _ _ _ => rfl)
      fun x _ hb hc hd => by rw [← hb, ← hc, ← hd])
  | setCode a c =>
    exact hnew.trans (logs_fields getOrNew_spec.2 (fun _ _ _ => rfl)
      fun x hn hb _ hd => by rw [← hn, ← hb, ← hd])
  | selfDestruct a =>
    obtain ⟨hfst, hlive, hlogs⟩ := hfound a
    unfold StateDB.selfDestruct
    generalize s.getStateObject a = r at hfst hlive hlogs
    obtain ⟨x, s₁⟩ := r
    cases x with
    | none => exact hlogs
    | some o =>
      exact hlogs.trans (logs_fields (hlive.trans hfst.symm)
        (fun _ _ hx => revertEntry_selfDestruct hx)
        fun x hn _ hc _ => by rw [← hn, ← hc])
  | createAccount a => exact logs_createAccount
  | addBalance a w =>
    unfold StateDB.addBalance
    dsimp only
    split_ifs
    · exact hnew.trans logs_touch
    · exact hnew
    · exact hnew.trans (logs_balance getOrNew_spec.2 _)
  | subBalance a w =>
    unfold StateDB.subBalance
    dsimp only
    split_ifs
    · exact hnew
    · exact hnew.trans (logs_balance getOrNew_spec.2 _)
  | setState a key value =>
    unfold StateDB.setState
    dsimp only
    split_ifs
    · exact hnew.trans (logs_cached getOrNew_spec.2 key)
    · exact hnew.trans (logs_storage getOrNew_spec.2 key value)

/-- Snapshots nest as calls do: one that fails is undone, one that succeeds leaves its revision. -/
inductive Run : StateDB → StateDB → Prop
  | refl {s : StateDB} : Run s s
  | step {s s' s'' : StateDB} : Run s s' → Step s' s'' → Run s s''
  | snapshot {s s' : StateDB} : Run s s' → Run s s'.snapshot.2
  | undone {s s' s'' t : StateDB} : Run s s' → Run s'.snapshot.2 s'' →
      s''.revertToSnapshot s'.snapshot.1 = .ok t → Run s t

structure Extends (s s' : StateDB) : Prop where
  undoable : Undoable s s'
  next : s.nextRevisionId ≤ s'.nextRevisionId
  revisions : ∃ newer, s'.validRevisions = s.validRevisions ++ newer ∧
    ∀ r ∈ newer, s.nextRevisionId ≤ r.1 ∧ r.1 < s'.nextRevisionId

def Fresh (s : StateDB) : Prop := ∀ r ∈ s.validRevisions, r.1 < s.nextRevisionId

theorem Extends.fresh (h : Extends s s') (hs : s.Fresh) : s'.Fresh := by
  obtain ⟨newer, hv, hnewer⟩ := h.revisions
  intro r hr
  rw [hv] at hr
  rcases List.mem_append.mp hr with hr | hr
  · exact (hs r hr).trans_le h.next
  · exact (hnewer r hr).2

theorem Extends.revert (hs : s.Fresh) (h : Extends s.snapshot.2 s') :
    ∃ t, s'.revertToSnapshot s.snapshot.1 = .ok t ∧ t.cell = s.cell ∧
      t.trie = s.trie ∧ t.journal.entries = s.journal.entries ∧
      t.validRevisions = s.validRevisions ∧ t.nextRevisionId = s'.nextRevisionId := by
  obtain ⟨newer, hv, -⟩ := h.revisions
  obtain ⟨htrie, es, hes, hundo⟩ := h.undoable
  obtain ⟨u, hu, hcell, htables⟩ := hundo s' rfl htrie
  have hv : s'.validRevisions =
      s.validRevisions ++ (s.nextRevisionId, s.journal.entries.length) :: newer := by
    simpa [snapshot] using hv
  have hfind : s'.validRevisions.findIdx (fun r => s.nextRevisionId ≤ r.1) =
      s.validRevisions.length := by
    have hold : s.validRevisions.findIdx (fun r => s.nextRevisionId ≤ r.1) =
        s.validRevisions.length :=
      List.findIdx_eq_length_of_false fun r hr => by simpa using hs r hr
    rw [hv, List.findIdx_append, hold, if_neg (Nat.lt_irrefl _)]
    simp [List.findIdx_cons]
  have hn : s'.journal.entries.length - s.journal.entries.length = es.length := by
    rw [hes]
    simp [snapshot]
  have hes : s'.journal.entries = es ++ s.journal.entries := hes
  simp only [tables, Prod.mk.injEq] at htables
  obtain ⟨hutrie, hujournal, huvalid, hunext⟩ := htables
  have hrevert : s'.revertJournal s.journal.entries.length =
      .ok { u with journal := { u.journal with entries := s.journal.entries } } := by
    rw [revertJournal, hn, hes, List.take_left, hu]
    simp [hujournal, hes, bind, Except.bind, pure, Except.pure]
  refine ⟨{ u with
    journal := { u.journal with entries := s.journal.entries }
    validRevisions := s.validRevisions }, ?_, hcell, ?_⟩
  · have hget : s'.validRevisions[s.validRevisions.length]? =
        some (s.nextRevisionId, s.journal.entries.length) := by simp [hv]
    change s'.revertToSnapshot s.nextRevisionId = _
    unfold revertToSnapshot
    rw [hfind]
    dsimp only
    rw [hget]
    simp [hrevert, huvalid, hv, bind, Except.bind, pure, Except.pure]
  · exact ⟨hutrie.trans htrie, rfl, rfl, hunext⟩

theorem Extends.trans (h : Extends s s') (h' : Extends s' s'') : Extends s s'' := by
  obtain ⟨newer, hv, hnewer⟩ := h.revisions
  obtain ⟨newer', hv', hnewer'⟩ := h'.revisions
  refine ⟨h.undoable.trans h'.undoable, h.next.trans h'.next,
    newer ++ newer', by rw [hv', hv, List.append_assoc], fun r hr => ?_⟩
  rcases List.mem_append.mp hr with hr | hr
  · exact ⟨(hnewer r hr).1, (hnewer r hr).2.trans_le h'.next⟩
  · exact ⟨h.next.trans (hnewer' r hr).1, (hnewer' r hr).2⟩

theorem Logs.extends (h : Logs s s') : Extends s s' := by
  obtain ⟨hv, hn⟩ := Prod.mk.inj h.revisions
  exact ⟨h.undoable, hn.ge, [], by rw [hv]; simp, by simp⟩

theorem extends_snapshot : Extends s s.snapshot.2 :=
  ⟨undoable_refl rfl rfl rfl, Nat.le_succ _, [(s.nextRevisionId, s.journal.entries.length)], rfl, by
    simp [snapshot]⟩

theorem Run.extends (h : Run s s') (hs : s.Fresh) : Extends s s' := by
  induction h with
  | refl => exact (logs_of_cell rfl rfl).extends
  | step _ hstep ih => exact (ih hs).trans hstep.logs.extends
  | snapshot _ ih => exact (ih hs).trans extends_snapshot
  | @undone s s' s'' t _ _ hrev ih ih' =>
    have hext := ih hs
    have hinner := ih' (extends_snapshot.fresh (hext.fresh hs))
    obtain ⟨u, hu, hcell, ht, hj, hv', hn⟩ := Extends.revert (hext.fresh hs) hinner
    cases hrev.symm.trans hu
    have hle : s'.nextRevisionId ≤ t.nextRevisionId := hn ▸ (Nat.le_succ _).trans hinner.next
    exact hext.trans ⟨undoable_refl hcell ht hj, hle, [], by simp [hv'], by simp⟩

/-- `RevertToSnapshot` brings back what every account showed when the snapshot was taken, whatever
ran in between, with the journal and the revisions of that time. -/
theorem revertToSnapshot_restores (hs : s.Fresh) (h : Run s.snapshot.2 s') :
    ∃ t, s'.revertToSnapshot s.snapshot.1 = .ok t ∧ (∀ b, t.view b = s.view b) ∧
      t.journal.entries = s.journal.entries ∧ t.validRevisions = s.validRevisions := by
  obtain ⟨t, ht, hcell, -, hj, hv, -⟩ := Extends.revert hs (h.extends (extends_snapshot.fresh hs))
  exact ⟨t, ht, view_of_cell hcell, hj, hv⟩

theorem revertToSnapshot_undoes_write :
    ∃ t, ((({} : StateDB).snapshot.2.setState 1 2 4).snapshot.2.selfDestruct 1).revertToSnapshot 0 =
        .ok t ∧ (∀ b, t.view b = ({} : StateDB).view b) ∧
      t.journal.entries = [] ∧ t.validRevisions = [] :=
  revertToSnapshot_restores (s := {}) (by simp [Fresh])
    (.step (.snapshot (.step .refl (.setState 1 2 4))) (.selfDestruct 1))

end StateDB
end EtherVal.State
