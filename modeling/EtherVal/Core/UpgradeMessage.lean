import EtherVal.Core.Message
import EtherVal.Rr03.Substate

/-!
# Messages of the old record format (`cmd/substate-cli/db/db_rr03_to_rr04.go:245-300`)

The old format has no transaction type.  The upgrade guesses it, and a message that is taken for
a legacy one loses its caps.  The coinbase is paid the same all the same.
-/

namespace EtherVal.Core
open EtherVal.Lib EtherVal.Research
open EtherVal.Rr03 (SubstateMessage)

variable {m : SubstateMessage} {baseFee : Option Nat}

def guessTxType (msg : SubstateMessage) : TxType :=
  let txType := if 0 < msg.accessList.length then .accessList else .legacy
  if msg.gasFeeCap ≠ msg.gasPrice ∧ msg.gasTipCap ≠ msg.gasPrice then .dynamicFee else txType

def upgradeMessage (m : SubstateMessage) (txType : Option TxType) : TxMessage :=
  let txType := txType.getD (guessTxType m)
  { nonce := some m.nonce
    gasPrice := bigIntToBytes (some m.gasPrice)
    gas := some m.gas
    sender := addressToBytes (some m.sender)
    toAddr := addressToBytes m.toAddr
    value := bigIntToBytes (some m.value)
    input := some (.data (some m.data))
    txType := some txType
    accessList := match txType with
      | .accessList | .dynamicFee => m.accessList.map saveTuple
      | .legacy | .blob => []
    gasFeeCap := match txType with
      | .dynamicFee => bigIntToBytes (some m.gasFeeCap)
      | .legacy | .accessList | .blob => none
    gasTipCap := match txType with
      | .dynamicFee => bigIntToBytes (some m.gasTipCap)
      | .legacy | .accessList | .blob => none }

/-- The tip per gas that `TransitionDb` pays to the coinbase
(`core/state_transition.go:455-459`). -/
def effectiveTip (isLondon : Bool) (baseFee : Option Nat)
    (gasPrice gasFeeCap gasTipCap : Option Int) :
    Except GoPanic Int :=
  if isLondon then do
    let cap ← deref gasFeeCap
    let fee ← deref baseFee
    let tip ← deref gasTipCap
    return min tip (cap - fee)
  else deref gasPrice

/-- The amounts come from RLP and are not negative. -/
structure PricedAt (m : SubstateMessage) (baseFee : Option Nat) : Prop where
  nonneg : 0 ≤ m.gasTipCap
  tip : m.gasTipCap ≤ m.gasFeeCap
  fee : ∀ fee : Nat, baseFee = some fee → fee ≤ m.gasFeeCap ∧
    m.gasPrice = min (m.gasTipCap + fee) m.gasFeeCap
  noFee : baseFee = none → m.gasPrice = m.gasFeeCap ∧ m.gasPrice = m.gasTipCap

theorem PricedAt.gasPrice_nonneg (h : PricedAt m baseFee) : 0 ≤ m.gasPrice := by
  have htip := h.nonneg
  have hcap := h.tip
  cases baseFee with
  | none =>
    obtain ⟨-, hprice⟩ := h.noFee rfl
    omega
  | some fee =>
    obtain ⟨-, hprice⟩ := h.fee fee rfl
    omega

theorem loadSubstate_upgradeMessage (hprice : 0 ≤ m.gasPrice) (hcap : 0 ≤ m.gasFeeCap)
    (htip : 0 ≤ m.gasTipCap) :
    ∃ msg, ({} : Message).loadSubstate (upgradeMessage m none) = .ok msg ∧
      msg.gasPrice = some m.gasPrice ∧ msg.accessList = m.accessList ∧
      ((msg.gasFeeCap = some m.gasFeeCap ∧ msg.gasTipCap = some m.gasTipCap) ∨
        msg.gasFeeCap = some m.gasPrice ∧ msg.gasTipCap = some m.gasPrice) := by
  have hload := mapM_map_ok loadTuple_saveTuple m.accessList
  have hprice' := bytesToBigInt_bigIntToBytes_of_nonneg hprice
  have hcap' := bytesToBigInt_bigIntToBytes_of_nonneg hcap
  have htip' := bytesToBigInt_bigIntToBytes_of_nonneg htip
  unfold Message.loadSubstate upgradeMessage
  dsimp only [Option.getD_none]
  cases htype : guessTxType m with
  | legacy =>
    have hnil : m.accessList = [] := by
      unfold guessTxType at htype
      dsimp only at htype
      split at htype
      · cases htype
      split at htype
      · cases htype
      · next hlen => exact List.length_eq_zero_iff.mp (by omega)
    simp [hnil, hprice', TxMessage.getData, bind, Except.bind, pure, Except.pure]
  | accessList => simp [hload, hprice', TxMessage.getData, bind, Except.bind, pure, Except.pure]
  | dynamicFee =>
    simp [hload, hprice', hcap', htip', TxMessage.getData, bind, Except.bind, pure, Except.pure]
  | blob =>
    unfold guessTxType at htype
    dsimp only at htype
    split at htype
    · cases htype
    split at htype <;> cases htype

theorem PricedAt.effectiveTip_price (h : PricedAt m baseFee) (isLondon : Bool) :
    effectiveTip isLondon baseFee (some m.gasPrice) (some m.gasPrice) (some m.gasPrice) =
      effectiveTip isLondon baseFee (some m.gasPrice) (some m.gasFeeCap) (some m.gasTipCap) := by
  cases isLondon with
  | false => rfl
  | true =>
    cases baseFee with
    | none => rfl
    | some fee =>
      obtain ⟨hle, hprice⟩ := h.fee fee rfl
      have htip : min m.gasPrice (m.gasPrice - fee) = min m.gasTipCap (m.gasFeeCap - fee) := by
        omega
      exact congrArg Except.ok htip

/-- The price, the access list and the tip of an upgraded message are the old ones. -/
theorem upgradeMessage_keeps_fees (h : PricedAt m baseFee) :
    ∃ msg, ({} : Message).loadSubstate (upgradeMessage m none) = .ok msg ∧
      msg.gasPrice = some m.gasPrice ∧ msg.accessList = m.accessList ∧
      ∀ isLondon, effectiveTip isLondon baseFee msg.gasPrice msg.gasFeeCap msg.gasTipCap =
        effectiveTip isLondon baseFee (some m.gasPrice) (some m.gasFeeCap) (some m.gasTipCap) := by
  obtain ⟨msg, hmsg, hprice, hlist, hcaps⟩ :=
    loadSubstate_upgradeMessage h.gasPrice_nonneg (h.nonneg.trans h.tip) h.nonneg
  refine ⟨msg, hmsg, hprice, hlist, fun isLondon => ?_⟩
  rcases hcaps with ⟨hcap, htip⟩ | ⟨hcap, htip⟩
  · rw [hprice, hcap, htip]
  · rw [hprice, hcap, htip]
    exact h.effectiveTip_price isLondon

def cappedMessage : SubstateMessage where
  nonce := 0
  checkNonce := true
  gasPrice := 30
  gas := 21000
  sender := 1
  toAddr := some 2
  value := 0
  data := []
  dataHash := none
  accessList := []
  gasFeeCap := 30
  gasTipCap := 20

theorem upgradeMessage_keeps_fees_capped :
    guessTxType cappedMessage = .legacy ∧ PricedAt cappedMessage (some 15) ∧
      ∃ msg, ({} : Message).loadSubstate (upgradeMessage cappedMessage none) = .ok msg ∧
        msg.gasPrice = some 30 ∧ msg.accessList = [] ∧
        effectiveTip true (some 15) msg.gasPrice msg.gasFeeCap msg.gasTipCap = .ok 15 := by
  have hpriced : PricedAt cappedMessage (some 15) := by
    refine ⟨by decide, by decide, ?_, by simp⟩
    intro fee hfee
    cases hfee
    decide
  obtain ⟨msg, hmsg, hprice, hlist, htip⟩ := upgradeMessage_keeps_fees hpriced
  exact ⟨by decide, hpriced, msg, hmsg, hprice, hlist, (htip true).trans (by decide)⟩

end EtherVal.Core
