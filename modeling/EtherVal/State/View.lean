import EtherVal.State.Recording

/-!
# What a database shows
-/

namespace EtherVal.State
open EtherVal.Lib EtherVal.Research Std

variable {o : StateObject}

def blank : StateAccount := ⟨0, 0, [], fun _ => 0⟩

namespace StateObject
variable (o : StateObject) (d : Bool)

def committed (key : Word) : Word := (o.getCommittedState d key).1

def view : StateAccount where
  nonce := o.nonce
  balance := o.balance
  code := o.code
  storage key := (o.getState d key).1

theorem storage_view (key : Word) :
    (o.view d).storage key = (o.dirtyStorage[key]?).getD (o.committed d key) := by
  unfold view getState committed getCommittedState
  dsimp only
  cases o.dirtyStorage[key]? with
  | some v => rfl
  | none =>
    dsimp only [Option.getD_none]
    cases o.pendingStorage[key]? with
    | some v => rfl
    | none =>
      dsimp only
      cases o.originStorage[key]? with
      | some v => rfl
      | none =>
        dsimp only
        split <;> rfl

structure SameBut (o o' : StateObject) (d : Bool) : Prop where
  nonce : o'.nonce = o.nonce
  balance : o'.balance = o.balance
  code : o'.code = o.code
  dirtyStorage : o'.dirtyStorage = o.dirtyStorage
  pendingStorage : o'.pendingStorage = o.pendingStorage
  selfDestructed : o'.selfDestructed = o.selfDestructed
  deleted : o'.deleted = o.deleted
  committed : ∀ key, o'.committed d key = o.committed d key

variable {o d} {o' o'' : StateObject}

theorem SameBut.refl : SameBut o o d := ⟨rfl, rfl, rfl, rfl, rfl, rfl, rfl, fun _ => rfl⟩

theorem SameBut.trans (h : SameBut o o' d) (h' : SameBut o' o'' d) : SameBut o o'' d where
  nonce := h'.nonce.trans h.nonce
  balance := h'.balance.trans h.balance
  code := h'.code.trans h.code
  dirtyStorage := h'.dirtyStorage.trans h.dirtyStorage
  pendingStorage := h'.pendingStorage.trans h.pendingStorage
  selfDestructed := h'.selfDestructed.trans h.selfDestructed
  deleted := h'.deleted.trans h.deleted
  committed key := (h'.committed key).trans (h.committed key)

theorem SameBut.view (h : SameBut o o' d) : o'.view d = o.view d := by
  have hstorage : (o'.view d).storage = (o.view d).storage := by
    funext key
    rw [storage_view, storage_view, h.dirtyStorage, h.committed]
  exact StateAccount.ext h.nonce h.balance h.code hstorage

theorem committed_eq (key : Word) : o.committed d key =
    (o.pendingStorage[key]?).getD ((o.originStorage[key]?).getD (if d then 0 else o.trie key)) := by
  unfold committed getCommittedState
  cases o.pendingStorage[key]? with
  | some v => rfl
  | none =>
    cases o.originStorage[key]? with
    | some v => rfl
    | none => cases d <;> rfl

theorem sameBut_getCommittedState (key : Word) : SameBut o (o.getCommittedState d key).2 d := by
  unfold getCommittedState
  cases hp : o.pendingStorage[key]? with
  | some v => exact .refl
  | none =>
    cases ho : o.originStorage[key]? with
    | some v => exact .refl
    | none =>
      cases d with
      | true => exact .refl
      | false =>
        refine ⟨rfl, rfl, rfl, rfl, rfl, rfl, rfl, fun key' => ?_⟩
        rw [committed_eq, committed_eq]
        simp only [Bool.false_eq_true, if_false]
        rw [GoMap.get_insert]
        split
        · next h => rw [← h, ho]; rfl
        · rfl

theorem sameBut_getState (key : Word) : SameBut o (o.getState d key).2 d := by
  have htouched : SameBut o { o with researchTouched := o.researchTouched.insert key () } d :=
    ⟨rfl, rfl, rfl, rfl, rfl, rfl, rfl, fun k => by rw [committed_eq, committed_eq]⟩
  unfold getState
  dsimp only
  cases o.dirtyStorage[key]? with
  | some v => exact htouched
  | none => exact htouched.trans (sameBut_getCommittedState key)

theorem sameBut_readSlots {read : StateObject → Word → Word × StateObject}
    (hread : ∀ o key, SameBut o (read o key).2 d) (keys : List Word) :
    SameBut o (o.readSlots read keys).2 d := by
  induction keys generalizing o with
  | nil => exact .refl
  | cons key keys ih => exact (hread o key).trans ih

theorem storage_view_congr (hdirty : o'.dirtyStorage = o.dirtyStorage)
    (hpending : o'.pendingStorage = o.pendingStorage) (horigin : o'.originStorage = o.originStorage)
    (htrie : o'.trie = o.trie) : (o'.view d).storage = (o.view d).storage := by
  funext key
  rw [storage_view, storage_view, committed_eq, committed_eq, hdirty, hpending, horigin, htrie]

theorem storage_insert_dirty (key value : Word) :
    (({ o with dirtyStorage := o.dirtyStorage.insert key value } : StateObject).view d).storage =
      Function.update (o.view d).storage key value := by
  funext k
  rw [storage_view, committed_eq]
  dsimp only
  rw [GoMap.get_insert]
  by_cases hk : key = k
  · subst hk
    rw [if_pos rfl, Function.update_self, Option.getD_some]
  · rw [if_neg hk, Function.update_of_ne (Ne.symm hk), storage_view, committed_eq]

theorem getElem_finalise (key : Word) :
    o.finalise.pendingStorage[key]? = (o.dirtyStorage[key]?).or (o.pendingStorage[key]?) := by
  unfold finalise
  dsimp only
  have hnd := GoMap.toList_keys_nodup o.dirtyStorage
  cases hd : o.dirtyStorage[key]? with
  | some v =>
    rw [Option.some_or]
    refine (GoMap.get_foldl_insert hnd key v).mpr
      (.inl ⟨(key, v), GoMap.mem_toList.mpr hd, rfl, rfl⟩)
  | none =>
    have hout : key ∉ o.dirtyStorage.toList.map Prod.fst := by
      intro hmem
      obtain ⟨e, he, rfl⟩ := List.mem_map.mp hmem
      rw [GoMap.mem_toList.mp he] at hd
      cases hd
    rw [Option.none_or]
    ext v
    rw [GoMap.get_foldl_insert hnd key v]
    constructor
    · rintro (⟨e, he, rfl, -⟩ | ⟨-, h⟩)
      · exact absurd (List.mem_map_of_mem he) hout
      · exact h
    · intro h
      exact .inr ⟨hout, h⟩

theorem view_finalise : o.finalise.view d = o.view d := by
  have hstorage : (o.finalise.view d).storage = (o.view d).storage := by
    funext key
    have hclean : o.finalise.dirtyStorage[key]? = none := ExtTreeMap.getElem?_empty
    rw [storage_view, storage_view, hclean, Option.getD_none, committed_eq, committed_eq,
      getElem_finalise]
    cases o.dirtyStorage[key]? with
    | some v => rfl
    | none => rfl
  exact StateAccount.ext rfl rfl rfl hstorage

theorem view_newObject : (newObject none).view d = blank := by
  have hstorage : ((newObject none).view d).storage = fun _ => 0 := by
    funext key
    rw [storage_view, committed_eq]
    simp [newObject]
  exact StateAccount.ext rfl rfl rfl hstorage

end StateObject

namespace StateDB
variable (s : StateDB) (a : Address)

def lookup : Option StateObject :=
  (s.stateObjects[a]?).or ((s.trie a).map fun acct => newObject (some acct))

def view : Option StateAccount :=
  ((s.lookup a).filter fun o => !o.deleted).map fun o => o.view (s.destructed a)

def live : Option StateObject := (s.lookup a).filter fun o => !o.deleted

variable {s a} {b : Address}

theorem view_eq_live : s.view a = (s.live a).map fun o => o.view (s.destructed a) := rfl

theorem lookup_setStateObject (o : StateObject) :
    (s.setStateObject a o).lookup b = if a = b then some o else s.lookup b := by
  unfold lookup setStateObject
  dsimp only
  rw [GoMap.get_insert]
  split <;> rfl

theorem view_setStateObject (halive : o.deleted = false) :
    (s.setStateObject a o).view b =
      if a = b then some (o.view (s.destructed a)) else s.view b := by
  unfold view
  rw [lookup_setStateObject]
  split
  · next hab =>
    subst hab
    simp only [Option.filter, halive, Bool.not_false, if_true, Option.map_some]
    rfl
  · rfl

structure SameObjects (s s' : StateDB) : Prop where
  lookup : ∀ b, s'.lookup b = s.lookup b
  destruct : s'.stateObjectsDestruct = s.stateObjectsDestruct

theorem SameObjects.destructed {s' : StateDB} (h : SameObjects s s') (b : Address) :
    s'.destructed b = s.destructed b := by
  rw [StateDB.destructed, h.destruct, StateDB.destructed]

theorem SameObjects.view {s' : StateDB} (h : SameObjects s s') (b : Address) :
    s'.view b = s.view b := by
  unfold StateDB.view StateDB.destructed
  rw [h.lookup, h.destruct]

theorem sameObjects_recordPre (found : Option Account) : SameObjects s (s.recordPre a found) := by
  unfold recordPre
  split <;> exact ⟨fun _ => rfl, rfl⟩

theorem getDeletedStateObject_spec :
    (s.getDeletedStateObject a).1 = s.lookup a ∧ SameObjects s (s.getDeletedStateObject a).2 := by
  unfold getDeletedStateObject lookup
  cases ho : s.stateObjects[a]? with
  | some o => exact ⟨rfl, fun _ => rfl, rfl⟩
  | none =>
    cases ht : s.trie a with
    | none => exact ⟨rfl, fun _ => rfl, rfl⟩
    | some acct =>
      refine ⟨rfl, fun b => ?_, rfl⟩
      rw [lookup_setStateObject]
      split
      · next hab =>
        subst hab
        rw [StateDB.lookup, ho, ht]
        rfl
      · rfl

theorem getStateObject_spec :
    (s.getStateObject a).1 = s.live a ∧ SameObjects s (s.getStateObject a).2 := by
  obtain ⟨hfst, hsame⟩ := getDeletedStateObject_spec (s := s) (a := a)
  have hrec : ∀ found, SameObjects s ((s.getDeletedStateObject a).2.recordPre a found) := by
    intro found
    have h := sameObjects_recordPre (s := (s.getDeletedStateObject a).2) (a := a) found
    exact ⟨fun b => (h.lookup b).trans (hsame.lookup b), h.destruct.trans hsame.destruct⟩
  unfold getStateObject live
  rw [← hfst]
  generalize s.getDeletedStateObject a = r at hrec
  obtain ⟨o, s₁⟩ := r
  cases o with
  | none => exact ⟨rfl, hrec _⟩
  | some o =>
    dsimp only
    by_cases hd : o.deleted = true
    · rw [if_pos hd]
      exact ⟨by simp [Option.filter, hd], hrec _⟩
    · rw [if_neg hd]
      exact ⟨by simp [Option.filter, hd], hrec _⟩

theorem readObject_spec {α : Type} (dflt : α) {field : StateObject → α} {shown : StateAccount → α}
    (hfield : ∀ o, shown (o.view (s.destructed a)) = field o) :
    (s.readObject a dflt field).1 = ((s.view a).map shown).getD dflt ∧
      SameObjects s (s.readObject a dflt field).2 := by
  obtain ⟨hfst, hsame⟩ := getStateObject_spec (s := s) (a := a)
  unfold readObject
  rw [view_eq_live, ← hfst]
  generalize s.getStateObject a = r at hsame
  obtain ⟨o, s₁⟩ := r
  cases o with
  | none => exact ⟨rfl, hsame⟩
  | some o => exact ⟨(hfield o).symm, hsame⟩

theorem deleted_of_live (ho : s.live a = some o) : o.deleted = false := by
  simpa using (Option.filter_eq_some_iff.mp ho).2

theorem view_of_live (ho : s.live a = some o) :
    s.view a = some (o.view (s.destructed a)) := by
  rw [view_eq_live, ho, Option.map_some]

theorem getState_spec (key : Word) :
    (s.getState a key).1 = ((s.view a).map (·.storage key)).getD 0 ∧
      ∀ b, (s.getState a key).2.view b = s.view b := by
  obtain ⟨hfst, hsame⟩ := getStateObject_spec (s := s) (a := a)
  unfold getState
  generalize s.getStateObject a = r at hfst hsame
  obtain ⟨o, s₁⟩ := r
  cases o with
  | none => exact ⟨by rw [view_eq_live, ← hfst]; rfl, hsame.view⟩
  | some o =>
    have ho := hfst.symm
    have hcache : o.SameBut (o.getState (s.destructed a) key).2 (s.destructed a) :=
      StateObject.sameBut_getState key
    dsimp only
    rw [hsame.destructed]
    refine ⟨by rw [view_of_live ho]; rfl, fun b => ?_⟩
    rw [view_setStateObject (hcache.deleted.trans (deleted_of_live ho)), hsame.destructed,
      hcache.view, hsame.view]
    split
    · next hab => rw [← hab, view_of_live ho]
    · rfl

theorem view_setTxContext : s.setTxContext.view b = s.view b := by
  have hobjects : s.setTxContext.stateObjects[b]? =
      (s.stateObjects[b]?).map fun o => { o with researchTouched := ∅ } := ExtTreeMap.getElem?_map
  have hlookup : s.setTxContext.lookup b = (s.lookup b).map fun o =>
      { o with researchTouched := ∅ } := by
    unfold lookup
    rw [hobjects]
    cases s.stateObjects[b]? with
    | some o => rfl
    | none =>
      change (s.trie b).map _ = ((s.trie b).map _).map _
      rw [Option.map_map]
      rfl
  unfold view
  rw [hlookup]
  cases s.lookup b with
  | none => rfl
  | some o =>
    have hview : ({ o with researchTouched := ∅ } : StateObject).view (s.destructed b) =
        o.view (s.destructed b) :=
      StateAccount.ext rfl rfl rfl (StateObject.storage_view_congr rfl rfl rfl rfl)
    change (if (!o.deleted) = true then some _ else none).map _ =
      (if (!o.deleted) = true then some o else none).map _
    split
    · exact congrArg some hview
    · rfl

theorem view_selfDestruct : (s.selfDestruct a).view b =
    if a = b then (s.view a).map fun acct => { acct with balance := 0 } else s.view b := by
  obtain ⟨hfst, hsame⟩ := getStateObject_spec (s := s) (a := a)
  unfold selfDestruct
  generalize s.getStateObject a = r at hfst hsame
  obtain ⟨o, s₁⟩ := r
  cases o with
  | none =>
    refine (hsame.view b).trans ?_
    split
    · next hab => rw [← hab, view_eq_live, ← hfst]; rfl
    · rfl
  | some o =>
    have ho : s.live a = some o := hfst.symm
    have hd := deleted_of_live ho
    have halive : ({ o with selfDestructed := true, balance := 0 } : StateObject).deleted = false :=
      hd
    dsimp only
    rw [view_setStateObject halive]
    split
    · rw [view_of_live ho, Option.map_some]
      refine congrArg some (StateAccount.ext rfl rfl rfl ?_)
      have hd : (s₁.appendJournal (.selfDestruct a o.selfDestructed o.balance)).destructed a =
          s.destructed a := hsame.destructed a
      rw [hd]
      exact StateObject.storage_view_congr rfl rfl rfl rfl
    · exact hsame.view b

end StateDB
end EtherVal.State
