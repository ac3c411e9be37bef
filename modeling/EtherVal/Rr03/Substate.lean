import EtherVal.Research.SubstateTrace
import EtherVal.Research.SubstateUtils

/-!
# Substates of the old database (`rr03/research/substate.go`)

Amounts (`*big.Int`) other than the base fee are never `nil`.  Of a log only what its RLP holds is
kept.
-/

namespace EtherVal.Rr03
open EtherVal.Lib EtherVal.Research

structure SubstateAccount where
  nonce : Nat
  balance : Int
  storage : GoMap Word Word
  code : Bytes

abbrev SubstateAlloc := GoMap Address SubstateAccount

structure SubstateEnv where
  coinbase : Address
  difficulty : Int
  gasLimit : Nat
  number : Nat
  timestamp : Nat
  blockHashes : GoMap (BitVec 64) Word
  baseFee : Option Int

abbrev AccessList := List AccessTuple

structure SubstateMessage where
  nonce : Nat
  checkNonce : Bool
  gasPrice : Int
  gas : Nat
  sender : Address
  toAddr : Option Address
  value : Int
  data : Bytes
  /- for memoization -/
  dataHash : Option Word
  accessList : AccessList
  gasFeeCap : Int
  gasTipCap : Int

structure SubstateResult where
  status : Nat
  bloom : Bytes
  logs : List ConsensusLog
  contractAddress : Address
  gasUsed : Nat

structure Substate where
  inputAlloc : SubstateAlloc
  outputAlloc : SubstateAlloc
  env : SubstateEnv
  message : SubstateMessage
  result : SubstateResult

/-! ### `Equal` -/

def SubstateAccount.equal (x y : SubstateAccount) : Bool :=
  x.nonce = y.nonce && x.balance = y.balance && x.code = y.code &&
    x.storage.size = y.storage.size &&
    mapAll x.storage y.storage

def allocEqual (x y : SubstateAlloc) : Bool :=
  x.size = y.size && x.toList.all fun e =>
    match y[e.1]? with
    | some yv => e.2.equal yv
    | none => false

/-- `x.Cmp(y) == 0` of two pointers: one pointer equals itself, `nil` and an amount panic. -/
def sameAmount : Option Int → Option Int → Except GoPanic Bool
  | none, none => .ok true
  | some x, some y => .ok (decide (x = y))
  | _, _ => .error .nilDereference

def SubstateEnv.equal (x y : SubstateEnv) : Except GoPanic Bool :=
  pure (x.coinbase = y.coinbase && x.difficulty = y.difficulty && x.gasLimit = y.gasLimit &&
      x.number = y.number && x.timestamp = y.timestamp &&
      x.blockHashes.size = y.blockHashes.size) <&&>
    sameAmount x.baseFee y.baseFee <&&>
    pure (mapAll x.blockHashes y.blockHashes)

def SubstateMessage.equal (x y : SubstateMessage) : Except GoPanic Bool :=
  pure (x.nonce = y.nonce && x.checkNonce = y.checkNonce && x.gasPrice = y.gasPrice &&
      x.gas = y.gas && x.sender = y.sender && x.toAddr = y.toAddr && x.value = y.value &&
      x.data = y.data && x.accessList.length = y.accessList.length &&
      x.gasFeeCap = y.gasFeeCap && x.gasTipCap = y.gasTipCap) <&&>
    rangeAll (fun xa ya =>
      pure (xa.address = ya.address && xa.storageKeys.length = ya.storageKeys.length) <&&>
        rangeAll (fun xk yk => .ok (decide (xk = yk))) xa.storageKeys ya.storageKeys)
      x.accessList y.accessList

def SubstateResult.equal (x y : SubstateResult) : Except GoPanic Bool :=
  pure (x.status = y.status && x.bloom = y.bloom && x.logs.length = y.logs.length &&
      x.contractAddress = y.contractAddress && x.gasUsed = y.gasUsed) <&&>
    rangeAll equalLog x.logs y.logs

def Substate.equal (x y : Substate) : Except GoPanic Bool :=
  pure (allocEqual x.inputAlloc y.inputAlloc && allocEqual x.outputAlloc y.outputAlloc) <&&>
    x.env.equal y.env <&&> x.message.equal y.message <&&> x.result.equal y.result

theorem andM_eq_ok_true {r s : Except GoPanic Bool} (h : (r <&&> s) = .ok true) :
    r = .ok true ∧ s = .ok true := by
  cases r with
  | error e => cases h
  | ok b =>
    cases b with
    | false => cases h
    | true => exact ⟨rfl, h⟩

theorem SubstateAccount.equal_iff {x y : SubstateAccount} : x.equal y = true ↔ x = y := by
  simp only [SubstateAccount.equal, Bool.and_eq_true, decide_eq_true_eq]
  constructor
  · rintro ⟨⟨⟨⟨hnonce, hbalance⟩, hcode⟩, hsize⟩, hstorage⟩
    have hmap := (mapAll_iff hsize).mp hstorage
    cases x
    cases y
    simp_all
  · rintro rfl
    exact ⟨⟨⟨⟨rfl, rfl⟩, rfl⟩, rfl⟩, (mapAll_iff rfl).mpr rfl⟩

theorem allocEqual_iff {x y : SubstateAlloc} : allocEqual x y = true ↔ x = y := by
  simp only [allocEqual, Bool.and_eq_true, decide_eq_true_eq, List.all_eq_true]
  constructor
  · rintro ⟨hsize, hall⟩
    refine GoMap.eq_of_subset_of_size (fun k v hv => ?_) hsize
    have hentry := hall (k, v) (GoMap.mem_toList.mpr hv)
    cases hy : y[k]? with
    | none => simp [hy] at hentry
    | some yv =>
      simp only [hy] at hentry
      rw [SubstateAccount.equal_iff.mp hentry]
  · rintro rfl
    refine ⟨rfl, fun e he => ?_⟩
    rw [GoMap.mem_toList.mp he]
    exact SubstateAccount.equal_iff.mpr rfl

theorem sameAmount_eq {x y : Option Int} (h : sameAmount x y = .ok true) : x = y := by
  cases x with
  | none =>
    cases y with
    | none => rfl
    | some y => cases h
  | some x =>
    cases y with
    | none => cases h
    | some y => rw [of_decide_eq_true (Except.ok.inj h)]

theorem SubstateEnv.eq_of_equal {x y : SubstateEnv} (h : x.equal y = .ok true) : x = y := by
  obtain ⟨hfields, h⟩ := andM_eq_ok_true h
  obtain ⟨hfee, hhashes⟩ := andM_eq_ok_true h
  have hfields := Except.ok.inj hfields
  simp only [Bool.and_eq_true, decide_eq_true_eq] at hfields
  obtain ⟨⟨⟨⟨⟨h1, h2⟩, h3⟩, h4⟩, h5⟩, hsize⟩ := hfields
  have hmap := (mapAll_iff hsize).mp (Except.ok.inj hhashes)
  have hfee := sameAmount_eq hfee
  cases x
  cases y
  simp_all

structure SubstateMessage.Same (x y : SubstateMessage) : Prop where
  nonce : x.nonce = y.nonce
  checkNonce : x.checkNonce = y.checkNonce
  gasPrice : x.gasPrice = y.gasPrice
  gas : x.gas = y.gas
  sender : x.sender = y.sender
  toAddr : x.toAddr = y.toAddr
  value : x.value = y.value
  data : x.data = y.data
  accessList : x.accessList = y.accessList
  gasFeeCap : x.gasFeeCap = y.gasFeeCap
  gasTipCap : x.gasTipCap = y.gasTipCap

theorem SubstateMessage.same_of_equal {x y : SubstateMessage} (h : x.equal y = .ok true) :
    x.Same y := by
  obtain ⟨hfields, hlist⟩ := andM_eq_ok_true h
  have hfields := Except.ok.inj hfields
  simp only [Bool.and_eq_true, decide_eq_true_eq] at hfields
  obtain ⟨⟨⟨⟨⟨⟨⟨⟨⟨⟨h1, h2⟩, h3⟩, h4⟩, h5⟩, h6⟩, h7⟩, h8⟩, hlength⟩, h9⟩, h10⟩ := hfields
  have hentry : ∀ xa ya : AccessTuple, Answers
      (pure (xa.address = ya.address && xa.storageKeys.length = ya.storageKeys.length) <&&>
        rangeAll (fun xk yk => .ok (decide (xk = yk))) xa.storageKeys ya.storageKeys)
      (xa = ya) := by
    intro xa ya
    have hhead : (xa.address = ya.address && xa.storageKeys.length = ya.storageKeys.length) = true ↔
        xa.address = ya.address ∧ xa.storageKeys.length = ya.storageKeys.length := by simp
    refine ((Answers.ok_iff hhead).and fun h => Answers.rangeAll_eq h.2).congr ?_
    constructor
    · rintro ⟨⟨haddress, -⟩, hkeys⟩
      exact AccessTuple.ext haddress hkeys
    · rintro rfl
      exact ⟨⟨rfl, rfl⟩, rfl⟩
  obtain ⟨b, hb, hiff⟩ := Answers.rangeAll hentry hlength
  cases hb.symm.trans hlist
  have hlists := hiff.mp rfl
  rw [List.forall₂_eq_eq_eq] at hlists
  exact ⟨h1, h2, h3, h4, h5, h6, h7, h8, hlists, h9, h10⟩

theorem SubstateResult.eq_of_equal {x y : SubstateResult} (h : x.equal y = .ok true) : x = y := by
  obtain ⟨hfields, hlogs⟩ := andM_eq_ok_true h
  have hfields := Except.ok.inj hfields
  simp only [Bool.and_eq_true, decide_eq_true_eq] at hfields
  obtain ⟨⟨⟨⟨h1, h2⟩, hlength⟩, h3⟩, h4⟩ := hfields
  obtain ⟨b, hb, hiff⟩ := Answers.rangeAll answers_equalLog hlength
  cases hb.symm.trans hlogs
  have hlogs := hiff.mp rfl
  rw [List.forall₂_eq_eq_eq] at hlogs
  cases x
  cases y
  simp_all

structure Substate.Same (x y : Substate) : Prop where
  inputAlloc : x.inputAlloc = y.inputAlloc
  outputAlloc : x.outputAlloc = y.outputAlloc
  env : x.env = y.env
  message : x.message.Same y.message
  result : x.result = y.result

theorem Substate.same_of_equal {x y : Substate} (h : x.equal y = .ok true) : x.Same y := by
  obtain ⟨hallocs, h⟩ := andM_eq_ok_true h
  obtain ⟨henv, h⟩ := andM_eq_ok_true h
  obtain ⟨hmessage, hresult⟩ := andM_eq_ok_true h
  have hallocs := Except.ok.inj hallocs
  rw [Bool.and_eq_true] at hallocs
  exact ⟨allocEqual_iff.mp hallocs.1, allocEqual_iff.mp hallocs.2, SubstateEnv.eq_of_equal henv,
    SubstateMessage.same_of_equal hmessage, SubstateResult.eq_of_equal hresult⟩

end EtherVal.Rr03
