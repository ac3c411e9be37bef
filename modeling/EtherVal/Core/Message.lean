import EtherVal.Research.SubstateUtils

/-!
# Transaction messages (`core/state_transition.go:130-182`, `core/state_transition.go:510-668`)

A message is recorded as `Substate_TxMessage` and loaded from it again.  Which of the optional
fields are written depends on the transaction type, and loading recomputes the others.
-/

namespace EtherVal.Core
open EtherVal.Lib EtherVal.Research

/-! ### Transactions (`core/types/tx_*.go`)

Signatures, chain ids and blob sidecars are left out.  The numbers of a decoded transaction are
not negative. -/

structure LegacyTx where
  nonce : Nat
  gasPrice : Nat
  gas : Nat
  toAddr : Option Address
  value : Nat
  data : Slice
  deriving DecidableEq, Repr

structure AccessListTx extends LegacyTx where
  accessList : List AccessTuple
  deriving DecidableEq, Repr

structure DynamicFeeTx where
  nonce : Nat
  gasTipCap : Nat
  gasFeeCap : Nat
  gas : Nat
  toAddr : Option Address
  value : Nat
  data : Slice
  accessList : List AccessTuple
  deriving DecidableEq, Repr

structure BlobTx where
  nonce : Nat
  gasTipCap : Word
  gasFeeCap : Word
  gas : Nat
  toAddr : Address
  value : Word
  data : Slice
  accessList : List AccessTuple
  blobFeeCap : Word
  blobHashes : List Word
  deriving DecidableEq, Repr

inductive Transaction where
  | legacy (tx : LegacyTx)
  | accessList (tx : AccessListTx)
  | dynamicFee (tx : DynamicFeeTx)
  | blob (tx : BlobTx)
  deriving DecidableEq, Repr

def legacyTxType : UInt8 := 0x00
def accessListTxType : UInt8 := 0x01
def dynamicFeeTxType : UInt8 := 0x02
def blobTxType : UInt8 := 0x03

namespace Transaction

def type : Transaction → UInt8
  | legacy _ => legacyTxType
  | accessList _ => accessListTxType
  | dynamicFee _ => dynamicFeeTxType
  | blob _ => blobTxType

/-- `AccessList()` -/
def accessTuples : Transaction → List AccessTuple
  | legacy _ => []
  | accessList tx => tx.accessList
  | dynamicFee tx => tx.accessList
  | blob tx => tx.accessList

def data : Transaction → Slice
  | legacy tx => tx.data
  | accessList tx => tx.data
  | dynamicFee tx => tx.data
  | blob tx => tx.data

def gas : Transaction → Nat
  | legacy tx => tx.gas
  | accessList tx => tx.gas
  | dynamicFee tx => tx.gas
  | blob tx => tx.gas

def gasPrice : Transaction → Nat
  | legacy tx => tx.gasPrice
  | accessList tx => tx.gasPrice
  | dynamicFee tx => tx.gasFeeCap
  | blob tx => tx.gasFeeCap.toNat

def gasTipCap : Transaction → Nat
  | legacy tx => tx.gasPrice
  | accessList tx => tx.gasPrice
  | dynamicFee tx => tx.gasTipCap
  | blob tx => tx.gasTipCap.toNat

def gasFeeCap : Transaction → Nat
  | legacy tx => tx.gasPrice
  | accessList tx => tx.gasPrice
  | dynamicFee tx => tx.gasFeeCap
  | blob tx => tx.gasFeeCap.toNat

def value : Transaction → Nat
  | legacy tx => tx.value
  | accessList tx => tx.value
  | dynamicFee tx => tx.value
  | blob tx => tx.value.toNat

def nonce : Transaction → Nat
  | legacy tx => tx.nonce
  | accessList tx => tx.nonce
  | dynamicFee tx => tx.nonce
  | blob tx => tx.nonce

def toAddr : Transaction → Option Address
  | legacy tx => tx.toAddr
  | accessList tx => tx.toAddr
  | dynamicFee tx => tx.toAddr
  | blob tx => some tx.toAddr

def blobGasFeeCap : Transaction → Option Int
  | blob tx => some tx.blobFeeCap.toNat
  | _ => none

def blobHashes : Transaction → List Word
  | blob tx => tx.blobHashes
  | _ => []

end Transaction

/-- `Message`; a `big.Int` that may be `nil` is an option. -/
structure Message where
  toAddr : Option Address := none
  sender : Address := 0
  nonce : Nat := 0
  value : Option Int := none
  gasLimit : Nat := 0
  gasPrice : Option Int := none
  gasFeeCap : Option Int := none
  gasTipCap : Option Int := none
  data : Slice := none
  accessList : List AccessTuple := []
  blobGasFeeCap : Option Int := none
  blobHashes : List Word := []
  skipAccountChecks : Bool := false
  researchTxType : UInt8 := 0
  deriving DecidableEq, Repr

def transactionToMessage (tx : Transaction) (sender : Address)
    (baseFee : Option Nat) : Message where
  nonce := tx.nonce
  gasLimit := tx.gas
  -- with a base fee, the effective price
  gasPrice := match baseFee with
    | none => some tx.gasPrice
    | some fee => some (min (tx.gasTipCap + fee) tx.gasFeeCap)
  gasFeeCap := some tx.gasFeeCap
  gasTipCap := some tx.gasTipCap
  toAddr := tx.toAddr
  value := some tx.value
  data := tx.data
  accessList := tx.accessTuples
  blobHashes := tx.blobHashes
  blobGasFeeCap := tx.blobGasFeeCap
  researchTxType := tx.type
  sender := sender

def unsupportedTxType (x : UInt8) : GoPanic :=
  .text ("tx type ".toList ++ (toString x.toNat).toList ++ " is not supported".toList)

def txTypeOf (x : UInt8) : Except GoPanic TxType :=
  if x = legacyTxType then .ok .legacy
  else if x = accessListTxType then .ok .accessList
  else if x = dynamicFeeTxType then .ok .dynamicFee
  else if x = blobTxType then .ok .blob
  else .error (unsupportedTxType x)

def researchTxTypeOf : TxType → UInt8
  | .legacy => legacyTxType
  | .accessList => accessListTxType
  | .dynamicFee => dynamicFeeTxType
  | .blob => blobTxType

def saveTuple (tuple : AccessTuple) : AccessListEntry where
  address := addressToBytes (some tuple.address)
  storageKeys := tuple.storageKeys.map fun key => hashToBytes (some key)

def loadTuple (entry : AccessListEntry) : Except GoPanic AccessTuple := do
  let address ← deref (bytesToAddress entry.address)
  let storageKeys ← entry.storageKeys.mapM fun key => deref (bytesToHash key)
  return { address := address, storageKeys := storageKeys }

/-- `SaveSubstate`: the record it stores in the substate. -/
def Message.saveSubstate (m : Message) : Except GoPanic TxMessage := do
  let txType ← txTypeOf m.researchTxType
  return {
    nonce := some m.nonce
    gasPrice := bigIntToBytes m.gasPrice
    gas := some m.gasLimit
    sender := addressToBytes (some m.sender)
    toAddr := addressToBytes m.toAddr
    value := bigIntToBytes m.value
    input := some (.data m.data)
    txType := some txType
    accessList := match txType with
      | .legacy => []
      | .accessList | .dynamicFee | .blob => m.accessList.map saveTuple
    gasFeeCap := match txType with
      | .legacy | .accessList => none
      | .dynamicFee | .blob => bigIntToBytes m.gasFeeCap
    gasTipCap := match txType with
      | .legacy | .accessList => none
      | .dynamicFee | .blob => bigIntToBytes m.gasTipCap
    blobGasFeeCap := match txType with
      | .legacy | .accessList | .dynamicFee => none
      | .blob => bigIntToBytes m.blobGasFeeCap
    blobHashes := match txType with
      | .legacy | .accessList | .dynamicFee => []
      | .blob => m.blobHashes.map fun bh => hashToBytes (some bh) }

/-- `LoadSubstate`, with the record of the substate. -/
def Message.loadSubstate (m : Message) (t : TxMessage) : Except GoPanic Message := do
  let nonce ← deref t.nonce
  let gasPrice := bytesToBigInt t.gasPrice
  let gasLimit ← deref t.gas
  let sender ← deref (bytesToAddress t.sender)
  let txType ← deref t.txType
  let accessList ← match txType with
    | .legacy => pure []
    | .accessList | .dynamicFee | .blob => t.accessList.mapM loadTuple
  let blobHashes ← match txType with
    | .legacy | .accessList | .dynamicFee => pure []
    | .blob => do
      let hashes ← t.blobHashes.mapM fun bh => deref (bytesToHash bh)
      pure (m.blobHashes ++ hashes)
  return { m with
    nonce := nonce
    gasPrice := gasPrice
    gasLimit := gasLimit
    sender := sender
    toAddr := bytesToAddress t.toAddr
    value := bytesToBigInt t.value
    data := t.getData
    researchTxType := researchTxTypeOf txType
    accessList := accessList
    gasFeeCap := match txType with
      | .legacy | .accessList => gasPrice
      | .dynamicFee | .blob => bytesToBigInt t.gasFeeCap
    gasTipCap := match txType with
      | .legacy | .accessList => gasPrice
      | .dynamicFee | .blob => bytesToBigInt t.gasTipCap
    blobGasFeeCap := match txType with
      | .legacy | .accessList | .dynamicFee => none
      | .blob => bytesToBigInt t.blobGasFeeCap
    blobHashes := blobHashes }

theorem txTypeOf_researchTxTypeOf (x : TxType) : txTypeOf (researchTxTypeOf x) = .ok x := by
  cases x <;> rfl

theorem mapM_map_ok {α β : Type} {save : α → β} {load : β → Except GoPanic α}
    (h : ∀ x, load (save x) = .ok x) (l : List α) : (l.map save).mapM load = .ok l := by
  induction l with
  | nil => rfl
  | cons x l ih =>
    rw [List.map_cons, List.mapM_cons, h, ih]
    rfl

theorem mapM_hashes (l : List Word) :
    (l.map fun h => hashToBytes (some h)).mapM (fun b => deref (bytesToHash b)) = .ok l := by
  apply mapM_map_ok
  intro h
  rw [bytesToHash_hashToBytes, deref_some]

theorem loadTuple_saveTuple (tuple : AccessTuple) : loadTuple (saveTuple tuple) = .ok tuple := by
  unfold loadTuple saveTuple
  dsimp only
  rw [bytesToAddress_addressToBytes, deref_some, mapM_hashes]
  rfl

/-- What the record of a message keeps, by the type of the transaction `x`. -/
structure Recordable (x : TxType) (m : Message) : Prop where
  type : m.researchTxType = researchTxTypeOf x
  value : bytesToBigInt (bigIntToBytes m.value) = m.value
  price : bytesToBigInt (bigIntToBytes m.gasPrice) = m.gasPrice
  accessList : x = .legacy → m.accessList = []
  fees : x = .legacy ∨ x = .accessList → m.gasFeeCap = m.gasPrice ∧ m.gasTipCap = m.gasPrice
  caps : bytesToBigInt (bigIntToBytes m.gasFeeCap) = m.gasFeeCap ∧
    bytesToBigInt (bigIntToBytes m.gasTipCap) = m.gasTipCap
  noBlob : x ≠ .blob → m.blobGasFeeCap = none ∧ m.blobHashes = []
  blobFee : bytesToBigInt (bigIntToBytes m.blobGasFeeCap) = m.blobGasFeeCap
  checks : m.skipAccountChecks = false

theorem Recordable.loadSubstate {x : TxType} {m : Message} (h : Recordable x m) :
    ∃ t, m.saveSubstate = .ok t ∧ ({} : Message).loadSubstate t = .ok m := by
  obtain ⟨toAddr, sender, nonce, value, gasLimit, gasPrice, gasFeeCap, gasTipCap, data, accessList,
    blobGasFeeCap, blobHashes, skipAccountChecks, researchTxType⟩ := m
  obtain ⟨rfl, hvalue, hprice, haccess, hfees, hcaps, hblob, hblobFee, rfl⟩ := h
  dsimp only at *
  unfold Message.saveSubstate
  dsimp only
  rw [txTypeOf_researchTxTypeOf]
  refine ⟨_, rfl, ?_⟩
  have hload := mapM_map_ok loadTuple_saveTuple accessList
  have hhashes := mapM_hashes blobHashes
  unfold Message.loadSubstate
  cases x with
  | legacy =>
    obtain rfl := haccess rfl
    obtain ⟨rfl, rfl⟩ := hfees (.inl rfl)
    obtain ⟨rfl, rfl⟩ := hblob (by decide)
    simp [hvalue, hprice, TxMessage.getData, bind, Except.bind, pure, Except.pure]
  | accessList =>
    obtain ⟨rfl, rfl⟩ := hfees (.inr rfl)
    obtain ⟨rfl, rfl⟩ := hblob (by decide)
    simp [hvalue, hprice, hload, TxMessage.getData, bind, Except.bind, pure, Except.pure]
  | dynamicFee =>
    obtain ⟨rfl, rfl⟩ := hblob (by decide)
    simp [hvalue, hprice, hload, hcaps, TxMessage.getData, bind, Except.bind, pure, Except.pure]
  | blob =>
    simp [hvalue, hprice, hload, hcaps, hblobFee, hhashes, TxMessage.getData, bind, Except.bind,
      pure, Except.pure]

def Transaction.kind : Transaction → TxType
  | legacy _ => .legacy
  | accessList _ => .accessList
  | dynamicFee _ => .dynamicFee
  | blob _ => .blob

theorem effectivePrice_of_caps (price : Nat) (baseFee : Option Nat) :
    (match baseFee with
      | none => some (price : Int)
      | some fee => some (min ((price : Int) + fee) price)) = some (price : Int) := by
  cases baseFee with
  | none => rfl
  | some fee =>
    have hmin : min ((price : Int) + fee) price = price := by omega
    exact congrArg some hmin

theorem bigInt_effectivePrice (tip cap price : Nat) (baseFee : Option Nat) :
    let x := match baseFee with
      | none => some (price : Int)
      | some fee => some (min ((tip : Int) + fee) cap)
    bytesToBigInt (bigIntToBytes x) = x := by
  cases baseFee with
  | none => exact bytesToBigInt_natCast price
  | some fee =>
    have hcast : min ((tip : Int) + fee) cap = ((min (tip + fee) cap : Nat) : Int) := by omega
    dsimp only
    rw [hcast]
    exact bytesToBigInt_natCast _

theorem recordable_transactionToMessage (tx : Transaction) (sender : Address)
    (baseFee : Option Nat) : Recordable tx.kind (transactionToMessage tx sender baseFee) := by
  refine ⟨?_, bytesToBigInt_natCast _, bigInt_effectivePrice _ _ _ baseFee, ?_, ?_,
    ⟨bytesToBigInt_natCast _, bytesToBigInt_natCast _⟩, ?_, ?_, rfl⟩
  · cases tx <;> rfl
  · intro hkind
    cases tx with
    | legacy tx => rfl
    | accessList tx => cases hkind
    | dynamicFee tx => cases hkind
    | blob tx => cases hkind
  · intro hkind
    cases tx with
    | legacy tx =>
      have hprice := effectivePrice_of_caps tx.gasPrice baseFee
      exact ⟨hprice.symm, hprice.symm⟩
    | accessList tx =>
      have hprice := effectivePrice_of_caps tx.gasPrice baseFee
      exact ⟨hprice.symm, hprice.symm⟩
    | dynamicFee tx => rcases hkind with hkind | hkind <;> cases hkind
    | blob tx => rcases hkind with hkind | hkind <;> cases hkind
  · intro hkind
    cases tx with
    | blob tx => exact absurd rfl hkind
    | legacy tx => exact ⟨rfl, rfl⟩
    | accessList tx => exact ⟨rfl, rfl⟩
    | dynamicFee tx => exact ⟨rfl, rfl⟩
  · cases tx with
    | blob tx => exact bytesToBigInt_natCast _
    | legacy tx => rfl
    | accessList tx => rfl
    | dynamicFee tx => rfl

/-- The message of a transaction is recorded without a panic, and loading the record into an
empty message gives all of it back. -/
theorem message_survives_replay (tx : Transaction) (sender : Address) (baseFee : Option Nat) :
    ∃ t, (transactionToMessage tx sender baseFee).saveSubstate = .ok t ∧
      ({} : Message).loadSubstate t = .ok (transactionToMessage tx sender baseFee) :=
  (recordable_transactionToMessage tx sender baseFee).loadSubstate

end EtherVal.Core
