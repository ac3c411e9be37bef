import EtherVal.Validate.SideEffects

/-!
# The verdict of `EquivalentAlloc`
-/

namespace EtherVal.Validate
open EtherVal.Lib EtherVal.Research EtherVal.State Std List

variable {x y z : Substate}
variable {b : Bool} {found : StateAccount}

def InputsAgree (x y : Substate) : Prop :=
  Layer.Agrees (accountsOf x.inputAlloc) (accountsOf y.inputAlloc)

theorem InputsAgree.pre_comm (h : InputsAgree x y) : pre x y = pre y x := h.onto_comm.symm

theorem SidesMatch.symm (h : SidesMatch x y) (hagree : InputsAgree x y) : SidesMatch y x where
  size := h.size.symm
  left := hagree.pre_comm ▸ h.right
  right := hagree.pre_comm ▸ h.left

theorem InputsAgree.symm (h : InputsAgree x y) : InputsAgree y x := by
  intro a r r' hr hr'
  obtain ⟨hhead, hslots⟩ := h a r' r hr' hr
  exact ⟨hhead.symm, fun k v v' hv hv' => (hslots k v' v hv' hv).symm⟩

theorem inputsAgree_of_entries (hx : NoRepeat x.inputAlloc) (hy : NoRepeat y.inputAlloc)
    (h : ∀ e ∈ x.inputAlloc, ∀ e' ∈ y.inputAlloc,
      Address.ofBytes e.address = Address.ofBytes e'.address →
        headOf e.account = headOf e'.account ∧
        ∀ p ∈ slotPairs e.account, ∀ p' ∈ slotPairs e'.account, p.1 = p'.1 → p.2 = p'.2) :
    InputsAgree x y := by
  intro a r r' hr hr'
  obtain ⟨e, he, ha, rfl⟩ := hx.exists_entry hr
  obtain ⟨e', he', ha', rfl⟩ := hy.exists_entry hr'
  obtain ⟨hhead, hslots⟩ := h e he e' he' (ha.trans ha'.symm)
  exact ⟨hhead, fun k v v' hv hv' => hslots (k, v) (mem_of_fill hv) (k, v') (mem_of_fill hv') rfl⟩

def plainEntry (addr : UInt8) (nonce : Nat) : AllocEntry := ⟨[addr], ⟨nonce, [], [], none⟩⟩

theorem inputsAgree_plain (hx : NoRepeat x.inputAlloc) (hy : NoRepeat y.inputAlloc)
    (h : ∀ e ∈ x.inputAlloc, slotPairs e.account = [] ∧ ∀ e' ∈ y.inputAlloc,
      e = e' ∨ Address.ofBytes e.address ≠ Address.ofBytes e'.address) :
    InputsAgree x y := by
  apply inputsAgree_of_entries hx hy
  intro e he e' he' haddr
  obtain ⟨hslots, hsame⟩ := h e he
  obtain rfl := (hsame e' he').resolve_right fun hne => hne haddr
  refine ⟨rfl, ?_⟩
  intro p hp
  rw [hslots] at hp
  cases hp

def wideBalance : Bytes := 1 :: List.replicate 32 0

def substateOf (inputAlloc outputAlloc : List AllocEntry) : Substate :=
  { (default : Substate) with inputAlloc, outputAlloc }

def SameKeys (xentry yentry : AllocEntry) : Prop :=
  xentry.address = yentry.address ∧
    xentry.account.storage.map StorageEntry.key = yentry.account.storage.map StorageEntry.key

theorem answers_equalStorageKeys :
    Answers (equalStorageKeys x y) (List.Forall₂ SameKeys x.outputAlloc y.outputAlloc) := by
  have hkeys : ∀ xs ys : List StorageEntry, Answers (.ok (decide (xs.length = ys.length)) <&&>
      rangeAll (fun xpair ypair => .ok (decide (xpair.key = ypair.key))) xs ys)
      (xs.map StorageEntry.key = ys.map StorageEntry.key) := by
    intro xs ys
    refine ((Answers.of_decide _).and fun hlen =>
      Answers.rangeAll (fun a b => Answers.of_decide (a.key = b.key)) hlen).congr ?_
    have hmap : List.Forall₂ (· = ·) (xs.map StorageEntry.key) (ys.map StorageEntry.key) ↔
        xs.map StorageEntry.key = ys.map StorageEntry.key := by
      rw [forall₂_eq_eq_eq]
    rw [← hmap, forall₂_map_left_iff, forall₂_map_right_iff]
    exact and_iff_right_of_imp List.Forall₂.length_eq
  refine ((Answers.of_decide _).and fun hlen => Answers.rangeAll (fun a b =>
    (Answers.of_decide (a.address = b.address)).and fun _ => hkeys _ _) hlen).congr ?_
  exact and_iff_right_of_imp List.Forall₂.length_eq

theorem equalStorageKeys_comm : equalStorageKeys x y = equalStorageKeys y x := by
  obtain ⟨b, hb, hxy⟩ := @answers_equalStorageKeys x y
  obtain ⟨c, hc, hyx⟩ := @answers_equalStorageKeys y x
  have hiff : List.Forall₂ SameKeys x.outputAlloc y.outputAlloc ↔
      List.Forall₂ SameKeys y.outputAlloc x.outputAlloc := by
    have hflip : ∀ {l l' : List AllocEntry}, List.Forall₂ SameKeys l l' →
        List.Forall₂ SameKeys l' l :=
      fun h => (h.imp fun _ _ hs => ⟨hs.1.symm, hs.2.symm⟩).flip
    exact ⟨hflip, hflip⟩
  rw [hb, hc, Bool.eq_iff_iff.mpr (hxy.trans (hiff.trans hyx.symm))]

theorem equalStorageKeys_self : equalStorageKeys x x = .ok true := by
  obtain ⟨b, hb, hself⟩ := @answers_equalStorageKeys x x
  have hrefl : List.Forall₂ SameKeys x.outputAlloc x.outputAlloc :=
    forall₂_same.mpr fun _ _ => ⟨rfl, rfl⟩
  rw [hb, hself.mpr hrefl]

def ProtoEqual (x y : Substate) : Prop :=
  x.inputAlloc.map protoEntry = y.inputAlloc.map protoEntry ∧
    x.outputAlloc.map protoEntry = y.outputAlloc.map protoEntry

theorem equivalentAlloc_of_protoEqual (h : ProtoEqual x y) :
    equivalentAlloc x y = (equalStorageKeys x y).map fun m => (true, m) := by
  unfold equivalentAlloc protoEqual
  simp only [h.1, h.2, decide_true, Bool.and_self, if_true]
  rfl

theorem equivalentAlloc_of_not_protoEqual (h : ¬ ProtoEqual x y) :
    equivalentAlloc x y = equivalentSideEffects x y >>= fun eqAlloc =>
      (equalStorageKeys x y).map fun m => (eqAlloc, m) := by
  have hnot : (protoEqual x.inputAlloc y.inputAlloc &&
      protoEqual x.outputAlloc y.outputAlloc) = false := by
    rw [← Bool.not_eq_true, Bool.and_eq_true, protoEqual, protoEqual, decide_eq_true_iff,
      decide_eq_true_iff]
    exact h
  unfold equivalentAlloc
  rw [hnot]
  rfl

theorem entryOf_protoEntry (e : AllocEntry) : entryOf (protoEntry e) = entryOf e := by
  have hcode : (protoEntry e).account.getCode.getD [] = e.account.getCode.getD [] := by
    unfold Account.getCode protoEntry
    rcases e.account.contract with _ | ⟨c⟩ | ⟨c⟩ <;> rfl
  unfold entryOf filledOf headOf
  rw [hcode]
  rfl

theorem accountsOf_congr {l l' : List AllocEntry} (h : l.map protoEntry = l'.map protoEntry) :
    accountsOf l = accountsOf l' := by
  have hentries : ∀ l : List AllocEntry, l.map entryOf = (l.map protoEntry).map entryOf := by
    intro l
    rw [map_map]
    exact map_congr_left fun e _ => (entryOf_protoEntry e).symm
  rw [accountsOf, accountsOf, hentries l, hentries l', h]

theorem fits_of_equivalentOutput {idb : StateDB} {deleted : GoMap Address Unit} {other : Substate}
    (h : equivalentOutput idb deleted z other = .ok b) : FitsAlloc z.outputAlloc := by
  obtain ⟨zdb, -, h⟩ := bind_ok h
  obtain ⟨zdb', hload, -⟩ := bind_ok h
  exact fits_of_loadSubstate hload

theorem fits_of_equivalentSideEffects (hsize : (deletedAccounts x).size = (deletedAccounts y).size)
    (h : equivalentSideEffects x y = .ok b) :
    FitsSubstate x ∧ FitsAlloc y.inputAlloc ∧ (b = true → FitsAlloc y.outputAlloc) := by
  rw [equivalentSideEffects_eq hsize] at h
  obtain ⟨s₁, hs₁, h⟩ := bind_ok h
  obtain ⟨s₂, hs₂, h⟩ := bind_ok h
  obtain ⟨c, hc, h⟩ := bind_ok h
  refine ⟨⟨fits_of_loadSubstate hs₁, fits_of_equivalentOutput hc⟩,
    fits_of_loadSubstate hs₂, fun hb => ?_⟩
  cases c with
  | false =>
    cases h
    cases hb
  | true => exact fits_of_equivalentOutput h

theorem equivalentSideEffects_comm (hagree : InputsAgree x y) (hx : FitsSubstate x)
    (hy : FitsSubstate y) :
    ∃ b, equivalentSideEffects x y = .ok b ∧ equivalentSideEffects y x = .ok b := by
  obtain ⟨b, hb, hxy⟩ := answers_equivalentSideEffects hx hy
  obtain ⟨c, hc, hyx⟩ := answers_equivalentSideEffects hy hx
  have hiff : SidesMatch x y ↔ SidesMatch y x := ⟨(·.symm hagree), (·.symm hagree.symm)⟩
  obtain rfl : b = c := Bool.eq_iff_iff.mpr (hxy.trans (hiff.trans hyx.symm))
  exact ⟨b, hb, hc⟩

theorem equivalentSideEffects_of_size (h : (deletedAccounts x).size ≠ (deletedAccounts y).size) :
    equivalentSideEffects x y = .ok false := by
  unfold equivalentSideEffects
  exact if_pos h

theorem equivalentSideEffects_unique {c : Bool} (hagree : InputsAgree x y)
    (hb : equivalentSideEffects x y = .ok b) (hc : equivalentSideEffects y x = .ok c) : b = c := by
  by_cases hsize : (deletedAccounts x).size = (deletedAccounts y).size
  · have hx := (fits_of_equivalentSideEffects hsize hb).1
    have hy := (fits_of_equivalentSideEffects hsize.symm hc).1
    obtain ⟨d, hd, hd'⟩ := equivalentSideEffects_comm hagree hx hy
    rw [Except.ok.inj (hb.symm.trans hd), Except.ok.inj (hc.symm.trans hd')]
  · rw [equivalentSideEffects_of_size hsize] at hb
    rw [equivalentSideEffects_of_size (Ne.symm hsize)] at hc
    rw [← Except.ok.inj hb, ← Except.ok.inj hc]

theorem ProtoEqual.symm (h : ProtoEqual x y) : ProtoEqual y x := ⟨h.1.symm, h.2.symm⟩

/-- The order of the arguments does not matter, and a substate is equivalent to itself. -/
theorem equivalentAlloc_symmetric (hagree : InputsAgree x y) :
    (∀ r r', equivalentAlloc x y = .ok r → equivalentAlloc y x = .ok r' → r = r') ∧
      (FitsSubstate x → FitsSubstate y →
        ∃ r, equivalentAlloc x y = .ok r ∧ equivalentAlloc y x = .ok r) ∧
      equivalentAlloc x x = .ok (true, true) := by
  obtain ⟨m, hm, -⟩ := @answers_equalStorageKeys x y
  have hm' : equalStorageKeys y x = .ok m := equalStorageKeys_comm.trans hm
  have hself : equivalentAlloc x x = .ok (true, true) := by
    rw [equivalentAlloc_of_protoEqual ⟨rfl, rfl⟩, equalStorageKeys_self]
    rfl
  by_cases hproto : ProtoEqual x y
  · have hxy : equivalentAlloc x y = .ok (true, m) := by
      rw [equivalentAlloc_of_protoEqual hproto, hm]
      rfl
    have hyx : equivalentAlloc y x = .ok (true, m) := by
      rw [equivalentAlloc_of_protoEqual hproto.symm, hm']
      rfl
    refine ⟨fun r r' hr hr' => ?_, fun _ _ => ⟨_, hxy, hyx⟩, hself⟩
    rw [← Except.ok.inj (hxy.symm.trans hr), ← Except.ok.inj (hyx.symm.trans hr')]
  · have hxy := equivalentAlloc_of_not_protoEqual hproto
    have hyx := equivalentAlloc_of_not_protoEqual fun h => hproto (ProtoEqual.symm h)
    rw [hm] at hxy
    rw [hm'] at hyx
    refine ⟨fun r r' hr hr' => ?_, fun hx hy => ?_, hself⟩
    · obtain ⟨b, hb, hr⟩ := bind_ok (hxy.symm.trans hr)
      obtain ⟨c, hc, hr'⟩ := bind_ok (hyx.symm.trans hr')
      rw [← Except.ok.inj hr, ← Except.ok.inj hr', equivalentSideEffects_unique hagree hb hc]
    · obtain ⟨b, hb, hc⟩ := equivalentSideEffects_comm hagree hx hy
      refine ⟨(b, m), ?_, ?_⟩
      · rw [hxy, hb]
        rfl
      · rw [hyx, hc]
        rfl

/-- The right side has read an account more. -/
theorem equivalentAlloc_symmetric_extra_read :
    let x := substateOf [plainEntry 1 1] [plainEntry 1 2]
    let y := substateOf [plainEntry 1 1, plainEntry 2 7] [plainEntry 1 2, plainEntry 2 7]
    InputsAgree x y ∧ equivalentAlloc x y = .ok (true, false) ∧
      equivalentAlloc y x = .ok (true, false) := by
  have hagree : InputsAgree (substateOf [plainEntry 1 1] [plainEntry 1 2])
      (substateOf [plainEntry 1 1, plainEntry 2 7] [plainEntry 1 2, plainEntry 2 7]) := by
    apply inputsAgree_plain ⟨by decide, by decide⟩ ⟨by decide, by decide⟩
    intro e he
    obtain rfl := mem_singleton.mp he
    refine ⟨rfl, ?_⟩
    intro e' he'
    rcases mem_cons.mp he' with rfl | he'
    · exact .inl rfl
    · obtain rfl := mem_singleton.mp he'
      exact .inr (by decide)
  have hxy : equivalentAlloc (substateOf [plainEntry 1 1] [plainEntry 1 2])
      (substateOf [plainEntry 1 1, plainEntry 2 7] [plainEntry 1 2, plainEntry 2 7]) =
        .ok (true, false) := by rfl
  obtain ⟨-, hreturns, -⟩ := equivalentAlloc_symmetric hagree
  obtain ⟨r, hr, hr'⟩ := hreturns ⟨by decide, by decide⟩ ⟨by decide, by decide⟩
  exact ⟨hagree, hxy, hr'.trans (hr.symm.trans hxy)⟩

/-- A nonce that differs is found before a balance of 33 bytes is read, but not before one is
loaded. -/
theorem wide_balance_one_order :
    let x := substateOf [] [plainEntry 1 1]
    let y := substateOf [] [⟨[1], ⟨2, wideBalance, [], none⟩⟩]
    InputsAgree x y ∧ equivalentAlloc x y = .ok (false, true) ∧
      equivalentAlloc y x = .error (.text "overflow".toList) := by
  refine ⟨?_, by rfl, by rfl⟩
  intro a r r' hr
  cases hr

def post (p : Accounts) (z : Substate) : Accounts := fun a =>
  if a ∈ deletedAccounts z then none else written p z a

def emptyAccount (acct : StateAccount) : Bool :=
  acct.nonce = 0 && acct.balance = 0 && acct.code = []

def nonEmptyAt (m : Accounts) (a : Address) : Option StateAccount :=
  ((m a).map total).filter fun acct => !emptyAccount acct

structure NoRepeats (z : Substate) : Prop where
  input : NoRepeat z.inputAlloc
  output : NoRepeat z.outputAlloc

def DeletionsAgree (x y : Substate) : Prop := ∀ a,
  (a ∈ deletedAccounts x → a ∉ deletedAccounts y → nonEmptyAt (post (pre x y) y) a = none) ∧
    (a ∈ deletedAccounts y → a ∉ deletedAccounts x → nonEmptyAt (post (pre x y) x) a = none)

def before (p : Accounts) (a : Address) : StateAccount := ((p a).map total).getD blank

variable {p : Accounts} {a : Address} {acct : Account}

theorem written_of_entry (h : accountsOf z.outputAlloc a = some (filledOf acct)) :
    (written p z a).map total = some (loaded acct (before p a)) := by
  rw [before, loaded_eq, written, Layer.onto, h]

theorem Tells.storage_fill (h : Tells acct found) {key value : Word}
    (hfill : fill (slotPairs acct) key = some value) : found.storage key = value :=
  h.storage (key, value) (mem_of_fill hfill)

theorem Tells.loaded_eq_self (h : Tells acct found) :
    loaded acct found = found := by
  refine StateAccount.ext h.nonce.symm h.balance.symm h.code.symm ?_
  funext key
  rw [storage_loaded]
  cases hfill : fill (slotPairs acct) key with
  | none => rfl
  | some value => exact (h.storage_fill hfill).symm

theorem Tells.loaded_eq_loaded {acct' : Account} (h : Tells acct' (loaded acct found))
    (h' : Tells acct (loaded acct' found)) :
    loaded acct found = loaded acct' found := by
  refine StateAccount.ext h.nonce h.balance h.code ?_
  funext key
  cases hfill : fill (slotPairs acct) key with
  | some value =>
    rw [h'.storage_fill hfill, storage_loaded, hfill, Option.getD_some]
  | none =>
    cases hfill' : fill (slotPairs acct') key with
    | some value => rw [h.storage_fill hfill', storage_loaded, hfill', Option.getD_some]
    | none => rw [storage_loaded, storage_loaded, hfill, hfill']

theorem tells_loaded (hnd : ((slotPairs acct).map Prod.fst).Nodup) (found : StateAccount) :
    Tells acct (loaded acct found) where
  nonce := rfl
  balance := rfl
  code := rfl
  storage p hp := by rw [storage_loaded, fill_of_mem hnd hp, Option.getD_some]

theorem overlaid_of_not_mem (h : a ∉ deletedAccounts z) :
    overlaid p z a = (written p z a).map total := by
  unfold overlaid
  simp only [h, if_false]
  cases written p z a <;> rfl

theorem post_of_not_mem (h : a ∉ deletedAccounts z) :
    post p z a = written p z a := if_neg h

theorem nonEmptyAt_of_mem (h : a ∈ deletedAccounts z) :
    nonEmptyAt (post p z) a = none := by
  rw [nonEmptyAt, post, if_pos h]
  rfl

theorem nonEmptyAt_of_tells (hx : accountsOf x.outputAlloc a = some (filledOf acct))
    (hy : accountsOf y.outputAlloc a = none)
    (htells : Tells acct (((written p y a).map total).getD blank)) :
    nonEmptyAt (written p x) a = nonEmptyAt (written p y) a := by
  have hwritten : written p y a = p a := Layer.onto_of_none hy
  rw [hwritten] at htells
  rw [nonEmptyAt, nonEmptyAt, written_of_entry hx, hwritten, before, htells.loaded_eq_self]
  cases p a with
  | none => rfl
  | some r => rfl

theorem SidesMatch.nonEmptyAt_eq (h : SidesMatch x y) (hx : NoRepeats x) (hy : NoRepeats y)
    (hax : a ∉ deletedAccounts x) (hay : a ∉ deletedAccounts y) :
    nonEmptyAt (written (pre x y) x) a = nonEmptyAt (written (pre x y) y) a := by
  have hleft : ∀ {r}, accountsOf y.outputAlloc a = some r → ∃ acct, filledOf acct = r ∧
      Tells acct (((written (pre x y) x a).map total).getD blank) := by
    intro r hr
    obtain ⟨e, he, rfl, hfilled⟩ := hy.output.exists_entry hr
    exact ⟨e.account, hfilled, overlaid_of_not_mem hax ▸ h.left e he⟩
  have hright : ∀ {r}, accountsOf x.outputAlloc a = some r → ∃ acct, filledOf acct = r ∧
      Tells acct (((written (pre x y) y a).map total).getD blank) := by
    intro r hr
    obtain ⟨e, he, rfl, hfilled⟩ := hx.output.exists_entry hr
    exact ⟨e.account, hfilled, overlaid_of_not_mem hay ▸ h.right e he⟩
  cases hxo : accountsOf x.outputAlloc a with
  | none =>
    cases hyo : accountsOf y.outputAlloc a with
    | none =>
      rw [nonEmptyAt, nonEmptyAt, written, written, Layer.onto_of_none hxo, Layer.onto_of_none hyo]
    | some r =>
      obtain ⟨acct, rfl, htells⟩ := hleft hyo
      exact (nonEmptyAt_of_tells hyo hxo htells).symm
  | some r =>
    obtain ⟨acct, rfl, htells⟩ := hright hxo
    cases hyo : accountsOf y.outputAlloc a with
    | none => exact nonEmptyAt_of_tells hxo hyo htells
    | some r' =>
      obtain ⟨acct', rfl, htells'⟩ := hleft hyo
      rw [written_of_entry hyo] at htells
      rw [written_of_entry hxo] at htells'
      rw [nonEmptyAt, nonEmptyAt, written_of_entry hxo, written_of_entry hyo,
        Tells.loaded_eq_loaded htells' htells]

theorem deleted_iff (hin : accountsOf x.inputAlloc = accountsOf y.inputAlloc)
    (hout : accountsOf x.outputAlloc = accountsOf y.outputAlloc) (a : Address) :
    a ∈ deletedAccounts x ↔ a ∈ deletedAccounts y := by
  rw [mem_deletedAccounts, mem_deletedAccounts, hin, hout]

theorem ProtoEqual.post_eq (h : ProtoEqual x y) (p : Accounts) : post p x = post p y := by
  have hin := accountsOf_congr h.1
  have hout := accountsOf_congr h.2
  funext a
  simp only [post, written, hout, deleted_iff hin hout]

theorem protoEqual_or_sidesMatch {m : Bool} (h : equivalentAlloc x y = .ok (true, m)) :
    ProtoEqual x y ∨ SidesMatch x y := by
  by_cases hproto : ProtoEqual x y
  · exact .inl hproto
  · rw [equivalentAlloc_of_not_protoEqual hproto] at h
    obtain ⟨b, hb, h⟩ := bind_ok h
    obtain ⟨m', hm', -⟩ := @answers_equalStorageKeys x y
    rw [hm'] at h
    obtain rfl : b = true := congrArg Prod.fst (Except.ok.inj h)
    refine .inr ?_
    by_cases hsize : (deletedAccounts x).size = (deletedAccounts y).size
    · obtain ⟨hx, hyin, hyout⟩ := fits_of_equivalentSideEffects hsize hb
      obtain ⟨b, hb', hiff⟩ := answers_equivalentSideEffects hx ⟨hyin, hyout rfl⟩
      exact hiff.mp (Except.ok.inj (hb'.symm.trans hb))
    · rw [equivalentSideEffects_of_size hsize] at hb
      cases hb

/-- After a positive verdict the post-states have the same non-empty accounts exactly when the
sides delete the same accounts, up to empty ones. -/
theorem nonEmptyAt_post_eq_iff (hx : NoRepeats x) (hy : NoRepeats y) {m : Bool}
    (hverdict : equivalentAlloc x y = .ok (true, m)) :
    (∀ a, nonEmptyAt (post (pre x y) x) a = nonEmptyAt (post (pre x y) y) a) ↔
      DeletionsAgree x y := by
  constructor
  · intro hsame a
    refine ⟨fun hax _ => ?_, fun hay _ => ?_⟩
    · rw [← hsame, nonEmptyAt_of_mem hax]
    · rw [hsame, nonEmptyAt_of_mem hay]
  · intro hdel a
    rcases protoEqual_or_sidesMatch hverdict with hproto | hmatch
    · rw [hproto.post_eq]
    · by_cases hax : a ∈ deletedAccounts x
      · by_cases hay : a ∈ deletedAccounts y
        · rw [nonEmptyAt_of_mem hax, nonEmptyAt_of_mem hay]
        · rw [nonEmptyAt_of_mem hax, (hdel a).1 hax hay]
      · by_cases hay : a ∈ deletedAccounts y
        · rw [nonEmptyAt_of_mem hay, (hdel a).2 hay hax]
        · rw [nonEmptyAt, nonEmptyAt, post_of_not_mem hax, post_of_not_mem hay]
          exact hmatch.nonEmptyAt_eq hx hy hax hay

theorem mem_deletedAccounts_pair {e e' o : AllocEntry}
    (h : a ∈ deletedAccounts (substateOf [e, e'] [o]))
    (ho : Address.ofBytes e.address = Address.ofBytes o.address) :
    a = Address.ofBytes e'.address := by
  rw [mem_deletedAccounts, ne_eq, accountsOf_eq_none_iff, accountsOf_eq_none_iff] at h
  obtain ⟨hinput, houtput⟩ := h
  by_contra hne
  refine hinput fun d hd => ?_
  rcases mem_cons.mp hd with rfl | hd
  · rw [ho]
    exact houtput o mem_cons_self
  · rw [mem_singleton.mp hd]
    exact Ne.symm hne

/-- Each side deletes an empty account that the other has not read. -/
theorem nonEmptyAt_post_eq_extra_read :
    let x := substateOf [plainEntry 1 1, plainEntry 3 0] [plainEntry 1 2]
    let y := substateOf [plainEntry 1 1, plainEntry 4 0] [plainEntry 1 2]
    deletedAccounts x ≠ ∅ ∧ deletedAccounts y ≠ ∅ ∧
      ∀ a, nonEmptyAt (post (pre x y) x) a = nonEmptyAt (post (pre x y) y) a := by
  intro x y
  have hverdict : equivalentAlloc x y = .ok (true, true) := by rfl
  have hdel : DeletionsAgree x y := by
    intro a
    refine ⟨fun ha _ => ?_, fun ha _ => ?_⟩
    · obtain rfl := mem_deletedAccounts_pair ha rfl
      rfl
    · obtain rfl := mem_deletedAccounts_pair ha rfl
      rfl
  refine ⟨?_, ?_, (nonEmptyAt_post_eq_iff ⟨⟨by decide, by decide⟩, ⟨by decide, by decide⟩⟩
    ⟨⟨by decide, by decide⟩, ⟨by decide, by decide⟩⟩ hverdict).mpr hdel⟩
  · exact fun h => absurd (ExtTreeMap.isEmpty_iff.mpr h) (by decide)
  · exact fun h => absurd (ExtTreeMap.isEmpty_iff.mpr h) (by decide)

/-- Each side deletes another account without balance: the verdict is positive, yet the account
with address 1 is left on one side only. -/
theorem different_deletions_not_seen :
    let x := substateOf [plainEntry 1 1, plainEntry 2 1] [plainEntry 2 1]
    let y := substateOf [plainEntry 1 1, plainEntry 2 1] [plainEntry 1 1]
    InputsAgree x y ∧ NoRepeats x ∧ NoRepeats y ∧ equivalentAlloc x y = .ok (true, false) ∧
      nonEmptyAt (post (pre x y) x) 1 = none ∧ nonEmptyAt (post (pre x y) y) 1 ≠ none := by
  intro x y
  refine ⟨?_, ⟨⟨by decide, by decide⟩, ⟨by decide, by decide⟩⟩,
    ⟨⟨by decide, by decide⟩, ⟨by decide, by decide⟩⟩, by rfl, by rfl, ?_⟩
  · apply inputsAgree_plain ⟨by decide, by decide⟩ ⟨by decide, by decide⟩
    intro e he
    rcases mem_cons.mp he with rfl | he
    · refine ⟨rfl, ?_⟩
      intro e' he'
      rcases mem_cons.mp he' with rfl | he'
      · exact .inl rfl
      · obtain rfl := mem_singleton.mp he'
        exact .inr (by decide)
    · obtain rfl := mem_singleton.mp he
      refine ⟨rfl, ?_⟩
      intro e' he'
      rcases mem_cons.mp he' with rfl | he'
      · exact .inr (by decide)
      · exact .inl (mem_singleton.mp he').symm
  · exact Option.isSome_iff_ne_none.mp (by rfl)

theorem deleted_of_post_eq (hp : ∀ a, accountsOf x.inputAlloc a ≠ none → p a ≠ none)
    (hpost : ∀ a, (post p x a).map total = (post p y a).map total) (ha : a ∈ deletedAccounts x) :
    a ∈ deletedAccounts y := by
  by_contra hay
  have hnone : (post p y a).map total = none := by
    rw [← hpost, post, if_pos ha]
    rfl
  rw [post_of_not_mem hay, Option.map_eq_none_iff, written, Layer.onto_eq_none_iff] at hnone
  exact hp a (mem_deletedAccounts.mp ha).1 hnone.2

theorem confirms_of_post_eq (hy : NoRepeats y)
    (hdel : ∀ a, a ∈ deletedAccounts x → a ∈ deletedAccounts y)
    (hpost : ∀ a, (post p x a).map total = (post p y a).map total) : Confirms p x y := by
  intro e he
  have hentry := hy.output.accountsOf he
  have hay : Address.ofBytes e.address ∉ deletedAccounts y := by
    intro hmem
    rw [(mem_deletedAccounts.mp hmem).2] at hentry
    cases hentry
  have hax := fun hmem => hay (hdel _ hmem)
  have hwritten := hpost (Address.ofBytes e.address)
  rw [post_of_not_mem hax, post_of_not_mem hay, written_of_entry hentry] at hwritten
  rw [overlaid_of_not_mem hax, hwritten, Option.getD_some]
  exact tells_loaded (hy.output.keys e he) _

/-- Equal post-states are found equivalent. -/
theorem equivalentAlloc_of_post_eq (hx : NoRepeats x) (hy : NoRepeats y) (hfx : FitsSubstate x)
    (hfy : FitsSubstate y)
    (hpost : ∀ a, (post (pre x y) x a).map total = (post (pre x y) y a).map total) :
    ∃ matchedSA, equivalentAlloc x y = .ok (true, matchedSA) := by
  obtain ⟨m, hm, -⟩ := @answers_equalStorageKeys x y
  refine ⟨m, ?_⟩
  by_cases hproto : ProtoEqual x y
  · rw [equivalentAlloc_of_protoEqual hproto, hm]
    rfl
  · have hxy : ∀ a ∈ deletedAccounts x, a ∈ deletedAccounts y := fun a =>
      deleted_of_post_eq (fun a ha hnone => ha (Layer.onto_eq_none_iff.mp hnone).2) hpost
    have hyx : ∀ a ∈ deletedAccounts y, a ∈ deletedAccounts x := fun a =>
      deleted_of_post_eq (fun a ha hnone => ha (Layer.onto_eq_none_iff.mp hnone).1) fun a =>
        (hpost a).symm
    have hmatch : SidesMatch x y := {
      size := Nat.le_antisymm (GoMap.size_le_of_subset hxy) (GoMap.size_le_of_subset hyx)
      left := confirms_of_post_eq hy hxy hpost
      right := confirms_of_post_eq hx hyx fun a => (hpost a).symm }
    obtain ⟨b, hb, hiff⟩ := answers_equivalentSideEffects hfx hfy
    rw [equivalentAlloc_of_not_protoEqual hproto, hb, hiff.mpr hmatch, hm]
    rfl

/-- Account 1 and the slots of it that a run has read, all left as they were. -/
def readOnly (balance : Bytes) (slots : List StorageEntry) : Substate :=
  substateOf [⟨[1], ⟨1, balance, slots, none⟩⟩] [⟨[1], ⟨1, balance, slots, none⟩⟩]

theorem not_mem_deletedAccounts_readOnly {balance : Bytes} {slots : List StorageEntry} :
    a ∉ deletedAccounts (readOnly balance slots) := by
  rw [mem_deletedAccounts]
  rintro ⟨hinput, houtput⟩
  exact hinput houtput

theorem post_readOnly (balance : Bytes) (slots : List StorageEntry) (a : Address) :
    (post (pre (readOnly balance []) (readOnly balance slots)) (readOnly balance []) a).map total =
      (post (pre (readOnly balance []) (readOnly balance slots)) (readOnly balance slots) a).map
        total := by
  rw [post_of_not_mem not_mem_deletedAccounts_readOnly,
    post_of_not_mem not_mem_deletedAccounts_readOnly]
  by_cases ha : a = 1
  · subst ha
    let acct : Account := ⟨1, balance, slots, none⟩
    refine congrArg some (StateAccount.ext rfl rfl rfl (funext fun key => ?_))
    change (Option.or none ((fill (slotPairs acct) key).or none)).getD 0 =
      ((fill (slotPairs acct) key).or ((fill (slotPairs acct) key).or none)).getD 0
    cases fill (slotPairs acct) key <;> rfl
  · have hnone : ∀ slots, accountsOf (readOnly balance slots).outputAlloc a = none := by
      intro slots
      rw [accountsOf_eq_none_iff, readOnly, substateOf, forall_mem_singleton]
      exact Ne.symm ha
    rw [written, written, Layer.onto_of_none (hnone _), Layer.onto_of_none (hnone _)]

theorem equivalentAlloc_of_post_eq_extra_slot :
    ∃ matchedSA, equivalentAlloc (readOnly [3] []) (readOnly [3] [⟨[5], [9]⟩]) =
      .ok (true, matchedSA) :=
  equivalentAlloc_of_post_eq ⟨⟨by decide, by decide⟩, ⟨by decide, by decide⟩⟩
    ⟨⟨by decide, by decide⟩, ⟨by decide, by decide⟩⟩ ⟨by decide, by decide⟩ ⟨by decide, by decide⟩
    (post_readOnly _ _)

/-- One of two runs with the same post-state has read a slot more.  The balance has 33 bytes, and
loading it panics. -/
theorem wide_balance_panics :
    let x := readOnly wideBalance []
    let y := readOnly wideBalance [⟨[5], [9]⟩]
    InputsAgree x y ∧ NoRepeats x ∧ NoRepeats y ∧
      (∀ a, (post (pre x y) x a).map total = (post (pre x y) y a).map total) ∧
      equivalentAlloc x y = .error (.text "overflow".toList) := by
  intro x y
  refine ⟨?_, ⟨⟨by decide, by decide⟩, ⟨by decide, by decide⟩⟩,
    ⟨⟨by decide, by decide⟩, ⟨by decide, by decide⟩⟩, post_readOnly _ _, by rfl⟩
  apply inputsAgree_of_entries ⟨by decide, by decide⟩ ⟨by decide, by decide⟩
  intro e he e' he' _
  obtain rfl := mem_singleton.mp he
  obtain rfl := mem_singleton.mp he'
  exact ⟨rfl, fun p hp => nomatch hp⟩

end EtherVal.Validate
