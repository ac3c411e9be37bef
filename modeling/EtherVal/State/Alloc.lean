import EtherVal.Lib.Layer
import EtherVal.State.Loading

/-!
# Allocations as layers
-/

namespace EtherVal.State
open EtherVal.Lib EtherVal.Research Std

structure Head where
  nonce : Nat
  balance : Word
  code : Bytes
  deriving DecidableEq

abbrev Accounts := Layer Address Head Word Word

def slotPairs (acct : Account) : List (Word × Word) :=
  acct.storage.map fun p => (Uint256.setBytes p.key, Uint256.setBytes p.value)

def headOf (acct : Account) : Head :=
  ⟨acct.nonce, BitVec.ofNat 256 (beVal acct.balance), acct.getCode.getD []⟩

def filledOf (acct : Account) : Filled Head Word Word := ⟨headOf acct, fill (slotPairs acct)⟩

def entryOf (e : AllocEntry) : Address × Filled Head Word Word :=
  (Address.ofBytes e.address, filledOf e.account)

def accountsOf (alloc : List AllocEntry) : Accounts := Layer.stack (alloc.map entryOf)

def total (r : Filled Head Word Word) : StateAccount :=
  ⟨r.head.nonce, r.head.balance, r.head.code, fun key => (r.slots key).getD 0⟩

def FitsAccount (acct : Account) : Prop := beVal acct.balance < 2 ^ 256

instance (acct : Account) : Decidable (FitsAccount acct) := inferInstanceAs (Decidable (_ < _))

def FitsAlloc (alloc : List AllocEntry) : Prop := ∀ e ∈ alloc, FitsAccount e.account

instance (alloc : List AllocEntry) : Decidable (FitsAlloc alloc) :=
  inferInstanceAs (Decidable (∀ e ∈ alloc, FitsAccount e.account))

theorem fits_of_bytesToUint256 {acct : Account} {w : Word}
    (h : bytesToUint256 acct.balance = .ok w) : FitsAccount acct := by
  by_contra hnot
  unfold bytesToUint256 at h
  rw [if_neg (show ¬ beVal acct.balance < 2 ^ 256 from hnot)] at h
  cases h

theorem FitsAccount.bytesToUint256 {acct : Account} (h : FitsAccount acct) :
    bytesToUint256 acct.balance = .ok (headOf acct).balance := if_pos h

theorem addresses_entryOf (alloc : List AllocEntry) :
    (alloc.map entryOf).map Prod.fst = alloc.map fun e => Address.ofBytes e.address := by
  rw [List.map_map]
  rfl

variable {alloc : List AllocEntry}

theorem accountsOf_eq_none_iff {a : Address} :
    accountsOf alloc a = none ↔ ∀ e ∈ alloc, Address.ofBytes e.address ≠ a := by
  rw [accountsOf, Layer.stack_eq_none_iff, addresses_entryOf]
  simp

structure NoRepeat (alloc : List AllocEntry) : Prop where
  addresses : (alloc.map fun e => Address.ofBytes e.address).Nodup
  keys : ∀ e ∈ alloc, ((slotPairs e.account).map Prod.fst).Nodup

theorem NoRepeat.accountsOf (h : NoRepeat alloc) {e : AllocEntry} (he : e ∈ alloc) :
    accountsOf alloc (Address.ofBytes e.address) = some (filledOf e.account) := by
  have hnd : ((alloc.map entryOf).map Prod.fst).Nodup := by
    rw [addresses_entryOf]
    exact h.addresses
  exact Layer.stack_of_mem hnd (List.mem_map_of_mem he)

theorem NoRepeat.exists_entry (h : NoRepeat alloc) {a : Address} {r : Filled Head Word Word}
    (hr : State.accountsOf alloc a = some r) :
    ∃ e ∈ alloc, Address.ofBytes e.address = a ∧ filledOf e.account = r := by
  have hsome : ¬ ∀ e ∈ alloc, Address.ofBytes e.address ≠ a := by
    rw [← accountsOf_eq_none_iff, hr]
    exact Option.some_ne_none r
  simp only [ne_eq, not_forall, not_not, exists_prop] at hsome
  obtain ⟨e, he, rfl⟩ := hsome
  exact ⟨e, he, rfl, Option.some.inj ((h.accountsOf he).symm.trans hr)⟩

def Shows (s : StateDB) (m : Accounts) : Prop := ∀ a, s.view a = (m a).map total

variable {s : StateDB} {m : Accounts}

theorem storage_loaded (acct : Account) (old : StateAccount) (key : Word) :
    (loaded acct old).storage key = (fill (slotPairs acct) key).getD (old.storage key) := by
  have h := congrFun (foldl_update (slotPairs acct) old.storage) key
  rw [slotPairs, List.foldl_map] at h
  exact h

theorem loaded_eq (acct : Account) (old : Option (Filled Head Word Word)) :
    some (loaded acct ((old.map total).getD blank)) =
      ((some (filledOf acct)).merge Filled.onto old).map total := by
  have hstorage := funext (storage_loaded acct ((old.map total).getD blank))
  cases old with
  | none => exact congrArg some (StateAccount.ext rfl rfl rfl hstorage)
  | some r =>
    refine congrArg some (StateAccount.ext rfl rfl rfl (hstorage.trans ?_))
    funext key
    change _ = ((fill (slotPairs acct) key).or (r.slots key)).getD 0
    cases fill (slotPairs acct) key <;> rfl

theorem Shows.loadEntry (hshows : Shows s m) (h : Plain s) {e : AllocEntry}
    (hfits : FitsAccount e.account) :
    ∃ s', s.loadEntry e = .ok s' ∧ Plain s' ∧
      Shows s' (Layer.onto (Layer.single (entryOf e).1 (entryOf e).2) m) := by
  obtain ⟨s', hs', hwrites⟩ := h.loadEntry hfits
  refine ⟨s', hs', hwrites.plain, fun b => (hwrites.view b).trans ?_⟩
  unfold Layer.onto Layer.single entryOf
  dsimp only
  split
  · next hab =>
    rw [hshows, ← hab]
    exact loaded_eq _ _
  · rw [hshows]
    cases m b <;> rfl

theorem Shows.loadEntries (hshows : Shows s m) (h : Plain s) (hfits : FitsAlloc alloc) :
    ∃ s', alloc.foldlM StateDB.loadEntry s = .ok s' ∧ Plain s' ∧
      Shows s' (Layer.onto (accountsOf alloc) m) := by
  rw [accountsOf, ← Layer.foldl_onto]
  induction alloc generalizing s m with
  | nil => exact ⟨s, rfl, h, hshows⟩
  | cons e alloc ih =>
    obtain ⟨s₁, hs₁, hplain, hshows₁⟩ := hshows.loadEntry h (hfits e List.mem_cons_self)
    obtain ⟨s₂, hs₂, hrest⟩ := ih hshows₁ hplain fun e' he' => hfits e' (List.mem_cons_of_mem _ he')
    refine ⟨s₂, ?_, hrest⟩
    rw [List.foldlM_cons, hs₁]
    exact hs₂

theorem Shows.loadSubstate (hshows : Shows s m) (h : Plain s) (hfits : FitsAlloc alloc) :
    ∃ s', s.loadSubstate alloc = .ok s' ∧ Rested s' ∧
      Shows s' (Layer.onto (accountsOf alloc) m) := by
  obtain ⟨s₁, hs₁, hplain, hshows₁⟩ := hshows.loadEntries h hfits
  obtain ⟨s₂, hs₂, hrested, hview⟩ := hplain.finalise
  exact ⟨s₂, bind_ok_iff.mpr ⟨s₁, hs₁, hs₂⟩, hrested, fun a => (hview a).trans (hshows₁ a)⟩

theorem fits_of_loadSubstate {s' : StateDB} (h : s.loadSubstate alloc = .ok s') :
    FitsAlloc alloc := by
  obtain ⟨s₁, hload, -⟩ := bind_ok h
  clear h
  induction alloc generalizing s with
  | nil => exact fun _ he => nomatch he
  | cons e alloc ih =>
    rw [List.foldlM_cons] at hload
    obtain ⟨s₂, he, hload⟩ := bind_ok hload
    obtain ⟨balance, hbal, -⟩ := bind_ok he
    exact List.forall_mem_cons.mpr ⟨fits_of_bytesToUint256 hbal, ih hload⟩

theorem shows_new : Shows {} fun _ => none := by
  intro a
  rw [plain_new.view_eq]
  rfl

end EtherVal.State
