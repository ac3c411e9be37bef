import EtherVal.State.Alloc
import EtherVal.Validate.Validation

/-!
# What the comparison decides
-/

namespace EtherVal.Validate
open EtherVal.Lib EtherVal.Research EtherVal.State Std

variable {x y : Substate}

def pre (x y : Substate) : Accounts :=
  Layer.onto (accountsOf y.inputAlloc) (accountsOf x.inputAlloc)

def written (p : Accounts) (z : Substate) : Accounts := Layer.onto (accountsOf z.outputAlloc) p

def overlaid (p : Accounts) (z : Substate) (a : Address) : Option StateAccount :=
  ((written p z a).map total).map fun acct =>
    if a ∈ deletedAccounts z then { acct with balance := 0 } else acct

structure Tells (acct : Account) (found : StateAccount) : Prop where
  nonce : found.nonce = acct.nonce
  balance : found.balance = (headOf acct).balance
  code : found.code = acct.getCode.getD []
  storage : ∀ p ∈ slotPairs acct, found.storage p.1 = p.2

def Confirms (p : Accounts) (z other : Substate) : Prop :=
  ∀ e ∈ other.outputAlloc, Tells e.account ((overlaid p z (Address.ofBytes e.address)).getD blank)

structure FitsSubstate (z : Substate) : Prop where
  input : FitsAlloc z.inputAlloc
  output : FitsAlloc z.outputAlloc

theorem mem_foldl_erase {l : List AllocEntry} {m : GoMap Address Unit} {a : Address} :
    a ∈ l.foldl (fun m e => m.erase (Address.ofBytes e.address)) m ↔
      (∀ e ∈ l, Address.ofBytes e.address ≠ a) ∧ a ∈ m := by
  induction l generalizing m with
  | nil => simp
  | cons e l ih =>
    rw [List.foldl_cons, ih, GoMap.mem_erase, List.forall_mem_cons, ne_comm]
    exact and_left_comm.trans and_assoc.symm

theorem mem_deletedAccounts {z : Substate} {a : Address} :
    a ∈ deletedAccounts z ↔
      accountsOf z.inputAlloc a ≠ none ∧ accountsOf z.outputAlloc a = none := by
  have hinput : a ∈ z.inputAlloc.foldl (fun m e => m.insert (Address.ofBytes e.address) ())
      (∅ : GoMap Address Unit) ↔ accountsOf z.inputAlloc a ≠ none := by
    rw [← List.foldl_map (f := fun e : AllocEntry => Address.ofBytes e.address)
      (g := fun (m : GoMap Address Unit) b => m.insert b ()), mem_foldl_insert, ne_eq,
      accountsOf_eq_none_iff]
    simp
  unfold deletedAccounts
  rw [mem_foldl_erase, hinput, ← accountsOf_eq_none_iff, and_comm]

theorem equivalentStorage_spec {sdb : StateDB} {addr : Address} {l : List StorageEntry} :
    ((equivalentStorage sdb addr l).1 = true ↔ ∀ pair ∈ l,
      ((sdb.view addr).getD blank).storage (Uint256.setBytes pair.key) =
        Uint256.setBytes pair.value) ∧
    ∀ b, (equivalentStorage sdb addr l).2.view b = sdb.view b := by
  induction l generalizing sdb with
  | nil => simp [equivalentStorage]
  | cons pair l ih =>
    obtain ⟨hvalue, hview⟩ :=
      StateDB.getState_spec (s := sdb) (a := addr) (Uint256.setBytes pair.key)
    have hread : (sdb.getState addr (Uint256.setBytes pair.key)).1 =
        ((sdb.view addr).getD blank).storage (Uint256.setBytes pair.key) := by
      rw [hvalue]
      cases sdb.view addr <;> rfl
    unfold equivalentStorage
    dsimp only
    rw [List.forall_mem_cons, hread]
    split
    · next hne => exact ⟨by simp [hne], hview⟩
    · next heq =>
      obtain ⟨hrest, hrestView⟩ := @ih (sdb.getState addr (Uint256.setBytes pair.key)).2
      rw [hview] at hrest
      refine ⟨?_, fun b => (hrestView b).trans (hview b)⟩
      rw [hrest, and_iff_right (not_not.mp heq)]

theorem tells_iff {acct : Account} {found : StateAccount} :
    Tells acct found ↔ found.nonce = acct.nonce ∧ found.balance = (headOf acct).balance ∧
      found.code = acct.getCode.getD [] ∧ ∀ pair ∈ acct.storage,
        found.storage (Uint256.setBytes pair.key) = Uint256.setBytes pair.value := by
  have hpairs : (∀ p ∈ slotPairs acct, found.storage p.1 = p.2) ↔ ∀ pair ∈ acct.storage,
      found.storage (Uint256.setBytes pair.key) = Uint256.setBytes pair.value := by
    rw [slotPairs, List.forall_mem_map]
  rw [← hpairs]
  exact ⟨fun h => ⟨h.nonce, h.balance, h.code, h.storage⟩, fun h => ⟨h.1, h.2.1, h.2.2.1, h.2.2.2⟩⟩

theorem readObject_blank {α : Type} (sdb : StateDB) (a : Address) {field : StateObject → α}
    {shown : StateAccount → α} (hfield : ∀ o, shown (o.view (sdb.destructed a)) = field o) :
    (sdb.readObject a (shown blank) field).1 = shown ((sdb.view a).getD blank) ∧
      ∀ b, (sdb.readObject a (shown blank) field).2.view b = sdb.view b := by
  obtain ⟨hvalue, hsame⟩ := StateDB.readObject_spec (shown blank) hfield
  refine ⟨hvalue.trans ?_, hsame.view⟩
  cases sdb.view a <;> rfl

theorem getNonce_spec (sdb : StateDB) (a : Address) :
    (sdb.getNonce a).1 = ((sdb.view a).getD blank).nonce ∧
      ∀ b, (sdb.getNonce a).2.view b = sdb.view b :=
  @readObject_blank _ sdb a _ StateAccount.nonce fun _ => rfl

theorem getBalance_spec (sdb : StateDB) (a : Address) :
    (sdb.getBalance a).1 = ((sdb.view a).getD blank).balance ∧
      ∀ b, (sdb.getBalance a).2.view b = sdb.view b :=
  @readObject_blank _ sdb a _ StateAccount.balance fun _ => rfl

theorem getCode_spec (sdb : StateDB) (a : Address) :
    (sdb.getCode a).1 = ((sdb.view a).getD blank).code ∧
      ∀ b, (sdb.getCode a).2.view b = sdb.view b :=
  @readObject_blank _ sdb a _ StateAccount.code fun _ => rfl

theorem answers_equivalentStateDBAlloc {sdb : StateDB} {alloc : List AllocEntry}
    (hfits : FitsAlloc alloc) :
    Answers (equivalentStateDBAlloc sdb alloc)
      (∀ e ∈ alloc, Tells e.account ((sdb.view (Address.ofBytes e.address)).getD blank)) := by
  induction alloc generalizing sdb with
  | nil => exact Answers.ok_iff (by simp)
  | cons e alloc ih =>
    obtain ⟨hfit, hrest⟩ := List.forall_mem_cons.mp hfits
    unfold equivalentStateDBAlloc
    rw [List.forall_mem_cons, tells_iff]
    generalize Address.ofBytes e.address = addr
    dsimp only
    obtain ⟨hnonce, hview₁⟩ := getNonce_spec sdb addr
    obtain ⟨hbalance, hview₂⟩ := getBalance_spec (sdb.getNonce addr).2 addr
    obtain ⟨hcode, hview₃⟩ := getCode_spec ((sdb.getNonce addr).2.getBalance addr).2 addr
    obtain ⟨hstorage, hview₄⟩ := @equivalentStorage_spec
      (((sdb.getNonce addr).2.getBalance addr).2.getCode addr).2 addr e.account.storage
    generalize (equivalentStorage (((sdb.getNonce addr).2.getBalance addr).2.getCode addr).2 addr
      e.account.storage) = r at hstorage hview₄
    rw [hview₃, hview₂, hview₁] at hstorage
    rw [hview₂, hview₁] at hcode
    rw [hview₁] at hbalance
    have htail : Answers (equivalentStateDBAlloc r.2 alloc)
        (∀ e ∈ alloc, Tells e.account ((sdb.view (Address.ofBytes e.address)).getD blank)) := by
      have hshown : r.2.view = sdb.view := by
        funext b
        rw [hview₄, hview₃, hview₂, hview₁]
      rw [← hshown]
      exact ih hrest
    rw [hnonce, hbalance, hcode, FitsAccount.bytesToUint256 hfit]
    have hall :=
      (Answers.of_decide (((sdb.view addr).getD blank).nonce = e.account.nonce)).and fun _ =>
      (Answers.of_decide
        (((sdb.view addr).getD blank).balance = (headOf e.account).balance)).and fun _ =>
      (Answers.of_decide
        (((sdb.view addr).getD blank).code = e.account.getCode.getD [])).and fun _ =>
      (Answers.ok_iff hstorage).and fun _ => htail
    refine hall.congr ?_
    simp only [and_assoc]

theorem view_foldl_selfDestruct (keys : List Address) (s : StateDB) (b : Address) :
    (keys.foldl StateDB.selfDestruct s).view b =
      (s.view b).map fun acct => if b ∈ keys then { acct with balance := 0 } else acct := by
  induction keys generalizing s with
  | nil => simp
  | cons a keys ih =>
    rw [List.foldl_cons, ih, StateDB.view_selfDestruct]
    by_cases hab : a = b
    · subst hab
      rw [if_pos rfl, Option.map_map]
      congr 1
      funext acct
      simp only [Function.comp_apply, List.mem_cons_self, if_true]
      split <;> rfl
    · simp [hab, Ne.symm hab]

theorem answers_equivalentOutput {idb : StateDB} {p : Accounts} {z other : Substate}
    (hidb : Rested idb) (hshows : Shows idb p) (hz : FitsAlloc z.outputAlloc)
    (hother : FitsAlloc other.outputAlloc) :
    Answers (equivalentOutput idb (deletedAccounts z) z other) (Confirms p z other) := by
  obtain ⟨zdb, hcopy, hrested, hview⟩ := hidb.copy
  have hcopied : Shows zdb p := fun a => (hview a).trans (hshows a)
  obtain ⟨zdb', hload, -, hloaded⟩ := hcopied.loadSubstate hrested.toPlain hz
  have hsteps : equivalentOutput idb (deletedAccounts z) z other =
      equivalentStateDBAlloc (((deletedAccounts z).toList.map Prod.fst).foldl StateDB.selfDestruct
        zdb').setTxContext other.outputAlloc := by
    unfold equivalentOutput
    rw [hcopy]
    change (zdb.loadSubstate z.outputAlloc >>= _) = _
    rw [hload]
    rfl
  have hoverlaid : ∀ a, (((deletedAccounts z).toList.map Prod.fst).foldl StateDB.selfDestruct
      zdb').setTxContext.view a = overlaid p z a := by
    intro a
    rw [StateDB.view_setTxContext, view_foldl_selfDestruct, hloaded, overlaid, written]
    simp only [ExtTreeMap.map_fst_toList_eq_keys, ExtTreeMap.mem_keys]
  rw [hsteps]
  refine (answers_equivalentStateDBAlloc hother).congr ?_
  simp only [hoverlaid]
  rfl

theorem idb_spec (hx : FitsAlloc x.inputAlloc) (hy : FitsAlloc y.inputAlloc) :
    ∃ s₁ s₂, ({} : StateDB).loadSubstate x.inputAlloc = .ok s₁ ∧
      s₁.loadSubstate y.inputAlloc = .ok s₂ ∧ Rested s₂.setTxContext ∧
      Shows s₂.setTxContext (pre x y) := by
  obtain ⟨s₁, hs₁, hrested₁, hshows₁⟩ := shows_new.loadSubstate plain_new hx
  obtain ⟨s₂, hs₂, hrested₂, hshows₂⟩ := hshows₁.loadSubstate hrested₁.toPlain hy
  rw [Layer.onto_empty] at hshows₂
  exact ⟨s₁, s₂, hs₁, hs₂, hrested₂.setTxContext,
    fun a => StateDB.view_setTxContext.trans (hshows₂ a)⟩

structure SidesMatch (x y : Substate) : Prop where
  size : (deletedAccounts x).size = (deletedAccounts y).size
  left : Confirms (pre x y) x y
  right : Confirms (pre x y) y x

theorem equivalentSideEffects_eq (hsize : (deletedAccounts x).size = (deletedAccounts y).size) :
    equivalentSideEffects x y =
      (({} : StateDB).loadSubstate x.inputAlloc >>= fun s₁ =>
        s₁.loadSubstate y.inputAlloc >>= fun s₂ =>
          equivalentOutput s₂.setTxContext (deletedAccounts x) x y <&&>
            equivalentOutput s₂.setTxContext (deletedAccounts y) y x) := by
  unfold equivalentSideEffects
  simp [hsize]

theorem answers_equivalentSideEffects (hx : FitsSubstate x) (hy : FitsSubstate y) :
    Answers (equivalentSideEffects x y) (SidesMatch x y) := by
  by_cases hsize : (deletedAccounts x).size = (deletedAccounts y).size
  · obtain ⟨s₁, s₂, hs₁, hs₂, hrested, hshows⟩ := idb_spec hx.input hy.input
    rw [equivalentSideEffects_eq hsize, hs₁]
    change Answers (s₁.loadSubstate y.inputAlloc >>= _) _
    rw [hs₂]
    refine ((answers_equivalentOutput hrested hshows hx.output hy.output).and fun _ =>
      answers_equivalentOutput hrested hshows hy.output hx.output).congr ?_
    exact ⟨fun h => ⟨hsize, h.1, h.2⟩, fun h => ⟨h.left, h.right⟩⟩
  · have hfalse : equivalentSideEffects x y = .ok false := by
      unfold equivalentSideEffects
      exact if_pos hsize
    rw [hfalse]
    exact Answers.ok_iff ⟨fun h => absurd h Bool.false_ne_true, fun h => absurd h.size hsize⟩

end EtherVal.Validate
