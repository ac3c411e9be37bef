import EtherVal.Rr03.Substate
import Mathlib.Data.List.Sort

/-!
# The RLP form of a substate (`rr03/research/substate_rlp.go`)

A map is walked in an order that Go chooses anew at each `range`; `Orders` has one choice for each
walk of an encoding.  Addresses and storage keys are sorted afterwards, the numbers of the block
hashes are not.
-/

namespace EtherVal.Rr03
open EtherVal.Lib EtherVal.Research

structure SubstateAccountRLP where
  nonce : Nat
  balance : Int
  codeHash : Word
  storage : List (Word × Word)

structure SubstateAllocRLP where
  addresses : List Address
  accounts : List SubstateAccountRLP

structure SubstateEnvRLP where
  coinbase : Address
  difficulty : Int
  gasLimit : Nat
  number : Nat
  timestamp : Nat
  blockHashes : List (Word × Word)
  baseFee : Option Word

structure SubstateMessageRLP where
  nonce : Nat
  checkNonce : Bool
  gasPrice : Int
  gas : Nat
  sender : Address
  toAddr : Option Address
  value : Int
  data : Bytes
  initCodeHash : Option Word
  accessList : AccessList
  gasFeeCap : Int
  gasTipCap : Int

structure SubstateRLP where
  inputAlloc : SubstateAllocRLP
  outputAlloc : SubstateAllocRLP
  env : SubstateEnvRLP
  message : SubstateMessageRLP
  result : SubstateResult

inductive AllocSide where
  | input
  | output

structure Orders where
  storage : AllocSide → Address → GoMap Word Word → List Word
  alloc : AllocSide → SubstateAlloc → List Address
  blockHashes : GoMap (BitVec 64) Word → List (BitVec 64)
  storage_perm : ∀ side addr m, (storage side addr m).Perm m.keys
  alloc_perm : ∀ side m, (alloc side m).Perm m.keys
  blockHashes_perm : ∀ m, (blockHashes m).Perm m.keys

def sortByBig {w : Nat} (keys : List (BitVec w)) : List (BitVec w) :=
  keys.mergeSort fun a b => decide (a.toNat ≤ b.toNat)

def bigToHash (n : Int) : Word := BitVec.ofNat 256 n.natAbs

section new
variable (keccak : Bytes → Word) (orders : Orders)

def newSubstateAccountRLP (side : AllocSide) (addr : Address) (sa : SubstateAccount) :
    SubstateAccountRLP where
  nonce := sa.nonce
  balance := sa.balance
  codeHash := keccak sa.code
  storage := (sortByBig (orders.storage side addr sa.storage)).map fun key =>
    (key, sa.storage[key]?.getD 0)

def newSubstateAllocRLP (side : AllocSide) (alloc : SubstateAlloc) : SubstateAllocRLP :=
  let addresses := sortByBig (orders.alloc side alloc)
  ⟨addresses, addresses.filterMap fun addr =>
    (alloc[addr]?).map (newSubstateAccountRLP keccak orders side addr)⟩

def newSubstateEnvRLP (env : SubstateEnv) : SubstateEnvRLP where
  coinbase := env.coinbase
  difficulty := env.difficulty
  gasLimit := env.gasLimit
  number := env.number
  timestamp := env.timestamp
  -- the slice is called `sortedNum64`, but nothing sorts it
  blockHashes := (orders.blockHashes env.blockHashes).map fun num64 =>
    (num64.setWidth 256, env.blockHashes[num64]?.getD 0)
  baseFee := env.baseFee.map bigToHash

def SubstateMessage.getDataHash (msg : SubstateMessage) : Word :=
  msg.dataHash.getD (keccak msg.data)

def newSubstateMessageRLP (msg : SubstateMessage) : SubstateMessageRLP where
  nonce := msg.nonce
  checkNonce := msg.checkNonce
  gasPrice := msg.gasPrice
  gas := msg.gas
  sender := msg.sender
  toAddr := msg.toAddr
  value := msg.value
  data := if msg.toAddr.isNone then [] else msg.data
  initCodeHash := if msg.toAddr.isNone then some (msg.getDataHash keccak) else none
  accessList := msg.accessList
  gasFeeCap := msg.gasFeeCap
  gasTipCap := msg.gasTipCap

def newSubstateRLP (substate : Substate) : SubstateRLP where
  inputAlloc := newSubstateAllocRLP keccak orders .input substate.inputAlloc
  outputAlloc := newSubstateAllocRLP keccak orders .output substate.outputAlloc
  env := newSubstateEnvRLP orders substate.env
  message := newSubstateMessageRLP keccak substate.message
  result := substate.result

end new

theorem sortByBig_congr {w : Nat} {l l' : List (BitVec w)} (h : l.Perm l') :
    sortByBig l = sortByBig l' := by
  have htrans : ∀ a b c : BitVec w, decide (a.toNat ≤ b.toNat) = true →
      decide (b.toNat ≤ c.toNat) = true → decide (a.toNat ≤ c.toNat) = true := by
    intro a b c
    simp only [decide_eq_true_eq]
    omega
  have htotal : ∀ a b : BitVec w,
      (decide (a.toNat ≤ b.toNat) || decide (b.toNat ≤ a.toNat)) = true := by
    intro a b
    simp only [Bool.or_eq_true, decide_eq_true_eq]
    omega
  have hperm : (sortByBig l).Perm (sortByBig l') :=
    (List.mergeSort_perm l _).trans (h.trans (List.mergeSort_perm l' _).symm)
  refine hperm.eq_of_pairwise ?_ (List.pairwise_mergeSort htrans htotal l)
    (List.pairwise_mergeSort htrans htotal l')
  intro a b _ _ hab hba
  simp only [decide_eq_true_eq] at hab hba
  exact BitVec.eq_of_toNat_eq (by omega)

section order
variable {keccak : Bytes → Word} (o o' : Orders)

theorem newSubstateAccountRLP_congr (side : AllocSide) (addr : Address) (sa : SubstateAccount) :
    newSubstateAccountRLP keccak o side addr sa = newSubstateAccountRLP keccak o' side addr sa := by
  have hkeys := (o.storage_perm side addr sa.storage).trans
    (o'.storage_perm side addr sa.storage).symm
  rw [newSubstateAccountRLP, newSubstateAccountRLP, sortByBig_congr hkeys]

theorem newSubstateAllocRLP_congr (side : AllocSide) (alloc : SubstateAlloc) :
    newSubstateAllocRLP keccak o side alloc = newSubstateAllocRLP keccak o' side alloc := by
  have hkeys := (o.alloc_perm side alloc).trans (o'.alloc_perm side alloc).symm
  have haccount : newSubstateAccountRLP keccak o side = newSubstateAccountRLP keccak o' side := by
    funext addr sa
    exact newSubstateAccountRLP_congr o o' side addr sa
  rw [newSubstateAllocRLP, newSubstateAllocRLP, sortByBig_congr hkeys, haccount]

def SubstateMessage.HashAlike (keccak : Bytes → Word) (x y : SubstateMessage) : Prop :=
  x.toAddr = none → x.getDataHash keccak = y.getDataHash keccak

theorem newSubstateMessageRLP_eq_iff {x y : SubstateMessage} (h : x.Same y) :
    newSubstateMessageRLP keccak x = newSubstateMessageRLP keccak y ↔ x.HashAlike keccak y := by
  constructor
  · intro heq hcreate
    have hhash := congrArg SubstateMessageRLP.initCodeHash heq
    have hcreate' := h.toAddr ▸ hcreate
    simpa [newSubstateMessageRLP, hcreate, hcreate'] using hhash
  · intro halike
    have hhash : (if x.toAddr.isNone then some (x.getDataHash keccak) else none) =
        if x.toAddr.isNone then some (y.getDataHash keccak) else none := by
      cases hto : x.toAddr with
      | none => simp [halike hto]
      | some addr => rfl
    rw [newSubstateMessageRLP, newSubstateMessageRLP, hhash, h.nonce, h.checkNonce, h.gasPrice,
      h.gas, h.sender, h.toAddr, h.value, h.data, h.accessList, h.gasFeeCap, h.gasTipCap]

theorem newSubstateRLP_eq_iff {x y : Substate} (h : x.Same y) :
    newSubstateRLP keccak o x = newSubstateRLP keccak o' y ↔
      o.blockHashes x.env.blockHashes = o'.blockHashes x.env.blockHashes ∧
        x.message.HashAlike keccak y.message := by
  have hnumbers : ∀ {l l' : List (BitVec 64)}, l.map (fun num64 =>
      (num64.setWidth 256, x.env.blockHashes[num64]?.getD 0)) = l'.map (fun num64 =>
      (num64.setWidth 256, x.env.blockHashes[num64]?.getD 0)) ↔ l = l' := by
    intro l l'
    refine List.map_injective_iff.mpr ?_ |>.eq_iff
    intro a b hab
    have hwidth := congrArg BitVec.toNat (Prod.mk.inj hab).1
    rw [BitVec.toNat_setWidth, BitVec.toNat_setWidth] at hwidth
    have ha := a.isLt
    have hb := b.isLt
    exact BitVec.eq_of_toNat_eq (by omega)
  constructor
  · intro heq
    have hpairs := congrArg (fun r => r.env.blockHashes) heq
    simp only [newSubstateRLP, newSubstateEnvRLP, ← h.env] at hpairs
    exact ⟨hnumbers.mp hpairs,
      (newSubstateMessageRLP_eq_iff h.message).mp (congrArg SubstateRLP.message heq)⟩
  · rintro ⟨hlist, halike⟩
    rw [newSubstateRLP, newSubstateRLP, ← h.inputAlloc, ← h.outputAlloc, ← h.env, ← h.result,
      newSubstateAllocRLP_congr o o', newSubstateAllocRLP_congr o o',
      (newSubstateMessageRLP_eq_iff h.message).mpr halike, newSubstateEnvRLP,
      newSubstateEnvRLP, hlist]

end order

def SameEncoding (keccak : Bytes → Word) (x y : Substate) : Prop :=
  ∀ o o' : Orders, newSubstateRLP keccak o x = newSubstateRLP keccak o' y

def Orders.ascending : Orders where
  storage _ _ m := m.keys
  alloc _ m := m.keys
  blockHashes m := m.keys
  storage_perm _ _ _ := .rfl
  alloc_perm _ _ := .rfl
  blockHashes_perm _ := .rfl

def Orders.descending : Orders where
  storage _ _ m := m.keys
  alloc _ m := m.keys
  blockHashes m := m.keys.reverse
  storage_perm _ _ _ := .rfl
  alloc_perm _ _ := .rfl
  blockHashes_perm m := m.keys.reverse_perm

theorem reverse_ne_self {α : Type} {l : List α} (hnodup : l.Nodup) (hlen : 1 < l.length) :
    l.reverse ≠ l := by
  intro heq
  have hfirst : l.reverse[0]? = l[0]? := by rw [heq]
  rw [List.getElem?_reverse (by omega), List.getElem?_eq_getElem (by omega),
    List.getElem?_eq_getElem (by omega), Option.some.injEq, hnodup.getElem_inj_iff] at hfirst
  omega

/-- Equal substates have one encoding exactly if there is at most one block hash and, for a
creation, the memos agree. -/
theorem sameEncoding_iff {keccak : Bytes → Word} {x y : Substate} (h : x.equal y = .ok true) :
    SameEncoding keccak x y ↔
      x.env.blockHashes.size ≤ 1 ∧ x.message.HashAlike keccak y.message := by
  have hsame := Substate.same_of_equal h
  have hkeys : x.env.blockHashes.keys.length = x.env.blockHashes.size := Std.ExtTreeMap.length_keys
  constructor
  · intro henc
    obtain ⟨hlist, halike⟩ :=
      (newSubstateRLP_eq_iff .descending .ascending hsame).mp (henc .descending .ascending)
    refine ⟨?_, halike⟩
    by_contra hsize
    exact reverse_ne_self Std.ExtTreeMap.nodup_keys (by omega) hlist
  · rintro ⟨hsize, halike⟩ o o'
    rw [newSubstateRLP_eq_iff o o' hsame]
    refine ⟨?_, halike⟩
    have hperm := (o.blockHashes_perm x.env.blockHashes).trans
      (o'.blockHashes_perm x.env.blockHashes).symm
    have hlen := (o.blockHashes_perm x.env.blockHashes).length_eq
    generalize o.blockHashes x.env.blockHashes = l at hperm hlen
    cases l with
    | nil => exact hperm.symm.eq_nil.symm
    | cons a l =>
      have hl : l = [] := List.length_eq_zero_iff.mp (by rw [List.length_cons] at hlen; omega)
      rw [hl] at hperm ⊢
      exact (List.perm_singleton.mp hperm.symm).symm

def transferWith (blockHashes : GoMap (BitVec 64) Word) : Substate where
  inputAlloc := (∅ : SubstateAlloc).insert 1
    ⟨0, 5, ((∅ : GoMap Word Word).insert 1 2).insert 3 4, [0x60]⟩
  outputAlloc := (∅ : SubstateAlloc).insert 1 ⟨0, 6, (∅ : GoMap Word Word).insert 3 4, [0x60]⟩
  env := ⟨0, 0, 0, 0, 0, blockHashes, none⟩
  message := ⟨0, true, 1, 21000, 0, some 1, 0, [], none, [], 1, 1⟩
  result := ⟨1, [], [], 0, 21000⟩

/-- A creation in a block that read one block hash. -/
def creationWith (dataHash : Option Word) : Substate :=
  let s := transferWith ((∅ : GoMap (BitVec 64) Word).insert 7 70)
  { s with message := { s.message with toAddr := none, data := [0x60, 0x61], dataHash } }

theorem sameEncoding_creation : SameEncoding (fun b => BitVec.ofNat 256 (beVal b))
    (creationWith none) (creationWith (some 0x6061)) :=
  (sameEncoding_iff (by decide +kernel)).mpr ⟨by decide +kernel, fun _ => by decide +kernel⟩

/-- Hashes of two blocks are walked in either order, and stored so. -/
theorem two_hashes_encoded_apart :
    (transferWith (((∅ : GoMap (BitVec 64) Word).insert 7 70).insert 8 80)).equal
        (transferWith (((∅ : GoMap (BitVec 64) Word).insert 7 70).insert 8 80)) = .ok true ∧
      ¬ SameEncoding (fun _ => 0)
        (transferWith (((∅ : GoMap (BitVec 64) Word).insert 7 70).insert 8 80))
        (transferWith (((∅ : GoMap (BitVec 64) Word).insert 7 70).insert 8 80)) := by
  refine ⟨by decide +kernel, ?_⟩
  intro h
  have hlists := congrArg (fun r => r.env.blockHashes) (h .ascending .descending)
  revert hlists
  decide +kernel

end EtherVal.Rr03
