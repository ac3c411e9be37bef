import EtherVal.Lib.Answers
import EtherVal.Lib.Uint256

/-!
# Recorded traces (`research/substate_trace.go`)

`EVMTrace.Equal` decides whether two recorded traces agree.  The errors of a call are values of
a type `ε`; `text` is their method `Error()`.
-/

namespace EtherVal.Research
open EtherVal.Lib

/-- The fields of `types.Log` that a receipt holds. -/
@[ext]
structure ConsensusLog where
  address : Address
  topics : List Word
  data : Bytes
  deriving DecidableEq, Inhabited

/-- The fields of `types.Log` that a node fills in. -/
structure DerivedLog where
  blockNumber : Nat := 0
  txHash : Word := 0
  txIndex : Nat := 0
  blockHash : Word := 0
  index : Nat := 0
  removed : Bool := false
  deriving DecidableEq, Inhabited

structure TraceLog extends ConsensusLog, DerivedLog
  deriving DecidableEq, Inhabited

structure EVMCallTrace (ε : Type) where
  callee : Address
  codeAddr : Address
  codeHash : Word
  callId : Int
  callFn : GoString
  depth : Int
  ret : Bytes
  callGas : Nat
  refundGas : Nat
  leftOverGas : Nat
  err : Option ε
  reverted : Bool
  gasInstRet : List Nat
  logInstRet : List TraceLog
  sha3HashToIndex : GoMap Word Int
  sha3IndexToHash : GoMap Int Word
  sha3IndexList : List Int
  jumpInstPos : List Nat
  jumpInstTarget : List Word

structure EVMEventTrace where
  topics : List Word
  data : Bytes
  deriving DecidableEq, Inhabited

/-- The call traces are pointers, `nil` among them. -/
structure EVMTrace (ε : Type) where
  sstoreCount : Int
  sstoreTrace : List GoString
  eventTraces : List EVMEventTrace
  callTraces : List (Option (EVMCallTrace ε))

variable {ε : Type} (text : ε → GoString)

section
variable [DecidableEq ε]

/-- `x.Err == y.Err || (x.Err != nil && y.Err != nil && x.Err.Error() == y.Err.Error())` -/
def equalErr : Option ε → Option ε → Bool
  | some e, some e' => e = e' || text e = text e'
  | none, none => true
  | _, _ => false

def equalLog (x y : ConsensusLog) : Except GoPanic Bool :=
  pure (x.address = y.address && x.topics.length = y.topics.length && x.data = y.data) <&&>
    rangeAll (fun xt yt => pure (decide (xt = yt))) x.topics y.topics

namespace EVMCallTrace

def equalFields (x y : EVMCallTrace ε) : Bool :=
  x.callee = y.callee &&
  x.codeAddr = y.codeAddr &&
  x.codeHash = y.codeHash &&
  x.callId = y.callId &&
  x.callFn = y.callFn &&
  x.depth = y.depth &&
  x.ret = y.ret &&
  x.callGas = y.callGas &&
  x.leftOverGas = y.leftOverGas &&
  equalErr text x.err y.err &&
  x.reverted = y.reverted &&
  x.gasInstRet.length = y.gasInstRet.length &&
  x.logInstRet.length = y.logInstRet.length &&
  x.sha3HashToIndex.size = y.sha3HashToIndex.size &&
  x.sha3IndexToHash.size = y.sha3IndexToHash.size &&
  x.sha3IndexList.length = y.sha3IndexList.length &&
  x.jumpInstPos.length = y.jumpInstPos.length &&
  x.jumpInstTarget.length = y.jumpInstTarget.length

/-- `EVMCallTrace.Equal` of two call traces; the loop over the SHA3 indexes reads both sides
from `x`. -/
def equal (x y : EVMCallTrace ε) : Except GoPanic Bool :=
  pure (x.equalFields text y) <&&>
  rangeAll (fun xg yg => pure (decide (xg = yg))) x.gasInstRet y.gasInstRet <&&>
  rangeAll (fun xl yl => equalLog xl.toConsensusLog yl.toConsensusLog) x.logInstRet
    y.logInstRet <&&>
  pure (mapAll x.sha3HashToIndex y.sha3HashToIndex) <&&>
  pure (mapAll x.sha3IndexToHash y.sha3IndexToHash) <&&>
  rangeAll (fun xi yi => pure (decide (xi = yi))) x.sha3IndexList x.sha3IndexList <&&>
  rangeAll (fun xp yp => pure (decide (xp = yp))) x.jumpInstPos y.jumpInstPos <&&>
  rangeAll (fun xt yt => pure (decide (xt = yt))) x.jumpInstTarget y.jumpInstTarget

/-- `EVMCallTrace.Equal` on pointers.  Two `nil` are one pointer; that a pointer equals itself
is `equalPtr_self`. -/
def equalPtr : Option (EVMCallTrace ε) → Option (EVMCallTrace ε) → Except GoPanic Bool
  | some x, some y => x.equal text y
  | none, none => pure true
  | _, _ => pure false

end EVMCallTrace

def EVMTrace.equal (x y : EVMTrace ε) : Except GoPanic Bool :=
  pure (x.sstoreCount = y.sstoreCount &&
    x.sstoreTrace.length = y.sstoreTrace.length &&
    x.eventTraces.length = y.eventTraces.length &&
    x.callTraces.length = y.callTraces.length) <&&>
  rangeAll (fun xt yt => pure (decide (xt = yt))) x.sstoreTrace y.sstoreTrace <&&>
  rangeAll (EVMCallTrace.equalPtr text) x.callTraces y.callTraces

end

namespace EVMCallTrace

structure SameFields (x y : EVMCallTrace ε) : Prop where
  callee : x.callee = y.callee
  codeAddr : x.codeAddr = y.codeAddr
  codeHash : x.codeHash = y.codeHash
  callId : x.callId = y.callId
  callFn : x.callFn = y.callFn
  depth : x.depth = y.depth
  ret : x.ret = y.ret
  callGas : x.callGas = y.callGas
  leftOverGas : x.leftOverGas = y.leftOverGas
  err : x.err.map text = y.err.map text
  reverted : x.reverted = y.reverted

structure SameLengths (x y : EVMCallTrace ε) : Prop where
  gasInstRet : x.gasInstRet.length = y.gasInstRet.length
  logInstRet : x.logInstRet.length = y.logInstRet.length
  sha3HashToIndex : x.sha3HashToIndex.size = y.sha3HashToIndex.size
  sha3IndexToHash : x.sha3IndexToHash.size = y.sha3IndexToHash.size
  sha3IndexList : x.sha3IndexList.length = y.sha3IndexList.length
  jumpInstPos : x.jumpInstPos.length = y.jumpInstPos.length
  jumpInstTarget : x.jumpInstTarget.length = y.jumpInstTarget.length

structure SameLists (x y : EVMCallTrace ε) : Prop where
  gasInstRet : x.gasInstRet = y.gasInstRet
  logInstRet : x.logInstRet.map TraceLog.toConsensusLog = y.logInstRet.map TraceLog.toConsensusLog
  sha3HashToIndex : x.sha3HashToIndex = y.sha3HashToIndex
  sha3IndexToHash : x.sha3IndexToHash = y.sha3IndexToHash
  jumpInstPos : x.jumpInstPos = y.jumpInstPos
  jumpInstTarget : x.jumpInstTarget = y.jumpInstTarget

structure Agree (x y : EVMCallTrace ε) : Prop extends SameFields text x y, SameLists x y where
  refundGas : x.refundGas = y.refundGas
  sha3IndexList : x.sha3IndexList = y.sha3IndexList

structure AgreeUnseen (x y : EVMCallTrace ε) : Prop where
  refundGas : x.refundGas = y.refundGas
  sha3IndexList : x.sha3IndexList = y.sha3IndexList

structure AgreeSeen (x y : EVMCallTrace ε) : Prop extends SameFields text x y, SameLists x y where
  indexes : x.sha3IndexList.length = y.sha3IndexList.length

variable {text} {x y : EVMCallTrace ε}

theorem agree_iff : x.Agree text y ↔ x.AgreeSeen text y ∧ x.AgreeUnseen y := by
  constructor
  · intro h
    exact ⟨⟨h.toSameFields, h.toSameLists, congrArg _ h.sha3IndexList⟩, h.refundGas,
      h.sha3IndexList⟩
  · rintro ⟨hseen, hunseen⟩
    exact ⟨hseen.toSameFields, hseen.toSameLists, hunseen.refundGas, hunseen.sha3IndexList⟩

theorem agreeSeen_self : x.AgreeSeen text x :=
  ⟨⟨rfl, rfl, rfl, rfl, rfl, rfl, rfl, rfl, rfl, rfl, rfl⟩, ⟨rfl, rfl, rfl, rfl, rfl, rfl⟩, rfl⟩

theorem AgreeSeen.lengths (h : x.AgreeSeen text y) : x.SameLengths y where
  gasInstRet := congrArg _ h.gasInstRet
  logInstRet := by simpa using congrArg List.length h.logInstRet
  sha3HashToIndex := congrArg _ h.sha3HashToIndex
  sha3IndexToHash := congrArg _ h.sha3IndexToHash
  sha3IndexList := h.indexes
  jumpInstPos := congrArg _ h.jumpInstPos
  jumpInstTarget := congrArg _ h.jumpInstTarget

end EVMCallTrace

namespace EVMTrace

structure Agree (x y : EVMTrace ε) : Prop where
  sstoreCount : x.sstoreCount = y.sstoreCount
  sstoreTrace : x.sstoreTrace = y.sstoreTrace
  eventTraces : x.eventTraces = y.eventTraces
  callTraces : List.Forall₂ (Option.Rel (EVMCallTrace.Agree text)) x.callTraces y.callTraces

structure AgreeSeen (x y : EVMTrace ε) : Prop where
  sstoreCount : x.sstoreCount = y.sstoreCount
  sstoreTrace : x.sstoreTrace = y.sstoreTrace
  events : x.eventTraces.length = y.eventTraces.length
  callTraces : List.Forall₂ (Option.Rel (EVMCallTrace.AgreeSeen text)) x.callTraces y.callTraces

structure AgreeUnseen (x y : EVMTrace ε) : Prop where
  eventTraces : x.eventTraces = y.eventTraces
  callTraces : List.Forall₂ (Option.Rel EVMCallTrace.AgreeUnseen) x.callTraces y.callTraces

variable {text} {x y : EVMTrace ε}

theorem agree_iff : x.Agree text y ↔ x.AgreeSeen text y ∧ x.AgreeUnseen y := by
  have hcall : ∀ c d : Option (EVMCallTrace ε), Option.Rel (EVMCallTrace.Agree text) c d ↔
      Option.Rel (EVMCallTrace.AgreeSeen text) c d ∧ Option.Rel EVMCallTrace.AgreeUnseen c d := by
    intro c d
    cases c <;> cases d <;> simp [EVMCallTrace.agree_iff]
  have hcalls : List.Forall₂ (Option.Rel (EVMCallTrace.Agree text)) x.callTraces y.callTraces ↔
      List.Forall₂ (Option.Rel (EVMCallTrace.AgreeSeen text)) x.callTraces y.callTraces ∧
      List.Forall₂ (Option.Rel EVMCallTrace.AgreeUnseen) x.callTraces y.callTraces := by
    rw [← list_forall₂_and]
    exact ⟨fun h => h.imp fun c d => (hcall c d).mp, fun h => h.imp fun c d => (hcall c d).mpr⟩
  constructor
  · intro h
    obtain ⟨hseen, hunseen⟩ := hcalls.mp h.callTraces
    exact ⟨⟨h.sstoreCount, h.sstoreTrace, congrArg _ h.eventTraces, hseen⟩, h.eventTraces, hunseen⟩
  · rintro ⟨hseen, hunseen⟩
    exact ⟨hseen.sstoreCount, hseen.sstoreTrace, hunseen.eventTraces,
      hcalls.mpr ⟨hseen.callTraces, hunseen.callTraces⟩⟩

end EVMTrace

section
variable [DecidableEq ε] {text}

theorem equalErr_iff {e e' : Option ε} :
    equalErr text e e' = true ↔ e.map text = e'.map text := by
  cases e with
  | none => cases e' <;> simp [equalErr]
  | some e =>
    cases e' with
    | none => simp [equalErr]
    | some e' =>
      have hsame : e = e' → text e = text e' := fun h => congrArg text h
      simpa [equalErr] using hsame

theorem answers_equalLog (x y : ConsensusLog) : Answers (equalLog x y) (x = y) := by
  have hhead : (x.address = y.address && x.topics.length = y.topics.length && x.data = y.data) =
      true ↔ (x.address = y.address ∧ x.topics.length = y.topics.length) ∧ x.data = y.data := by
    simp
  refine ((Answers.ok_iff hhead).and fun h => Answers.rangeAll_eq h.1.2).congr ?_
  constructor
  · rintro ⟨⟨⟨haddress, -⟩, hdata⟩, htopics⟩
    cases x
    cases y
    simp_all
  · rintro rfl
    simp

namespace EVMCallTrace
variable {x y : EVMCallTrace ε}

theorem equalFields_iff :
    x.equalFields text y = true ↔ x.SameFields text y ∧ x.SameLengths y := by
  simp only [equalFields, Bool.and_eq_true, decide_eq_true_eq, equalErr_iff]
  constructor
  · rintro ⟨⟨⟨⟨⟨⟨⟨⟨⟨⟨⟨⟨⟨⟨⟨⟨⟨h1, h2⟩, h3⟩, h4⟩, h5⟩, h6⟩, h7⟩, h8⟩, h9⟩, h10⟩, h11⟩, l1⟩, l2⟩, l3⟩,
      l4⟩, l5⟩, l6⟩, l7⟩
    exact ⟨⟨h1, h2, h3, h4, h5, h6, h7, h8, h9, h10, h11⟩, ⟨l1, l2, l3, l4, l5, l6, l7⟩⟩
  · rintro ⟨h, l⟩
    simp [h.callee, h.codeAddr, h.codeHash, h.callId, h.callFn, h.depth, h.ret, h.callGas,
      h.leftOverGas, h.err, h.reverted, l.gasInstRet, l.logInstRet, l.sha3HashToIndex,
      l.sha3IndexToHash, l.sha3IndexList, l.jumpInstPos, l.jumpInstTarget]

theorem answers_equal : Answers (x.equal text y) (x.AgreeSeen text y) := by
  have hlogs : x.logInstRet.length = y.logInstRet.length →
      Answers (rangeAll (fun xl yl => equalLog xl.toConsensusLog yl.toConsensusLog)
        x.logInstRet y.logInstRet)
        (x.logInstRet.map TraceLog.toConsensusLog = y.logInstRet.map TraceLog.toConsensusLog) := by
    intro h
    refine (Answers.rangeAll (fun xl yl => answers_equalLog xl.toConsensusLog yl.toConsensusLog)
      h).congr ?_
    rw [← List.forall₂_map_left_iff (R := fun c (yl : TraceLog) => c = yl.toConsensusLog),
      ← List.forall₂_map_right_iff, List.forall₂_eq_eq_eq]
  have hindexes := Answers.rangeAll_eq (Eq.refl x.sha3IndexList.length)
  have hall := (Answers.ok_iff equalFields_iff).and fun h : x.SameFields text y ∧ _ =>
    (Answers.rangeAll_eq h.2.gasInstRet).and fun _ => (hlogs h.2.logInstRet).and fun _ =>
    (Answers.ok_iff (mapAll_iff h.2.sha3HashToIndex)).and fun _ =>
    (Answers.ok_iff (mapAll_iff h.2.sha3IndexToHash)).and fun _ =>
    hindexes.and fun _ => (Answers.rangeAll_eq h.2.jumpInstPos).and fun _ =>
    Answers.rangeAll_eq h.2.jumpInstTarget
  refine hall.congr ?_
  constructor
  · rintro ⟨⟨hfields, hlengths⟩, hgas, hlog, hhash, hindex, -, hpos, htarget⟩
    exact ⟨hfields, ⟨hgas, hlog, hhash, hindex, hpos, htarget⟩, hlengths.sha3IndexList⟩
  · intro h
    exact ⟨⟨h.toSameFields, h.lengths⟩, h.gasInstRet, h.logInstRet, h.sha3HashToIndex,
      h.sha3IndexToHash, rfl, h.jumpInstPos, h.jumpInstTarget⟩

theorem answers_equalPtr (x y : Option (EVMCallTrace ε)) :
    Answers (equalPtr text x y) (Option.Rel (AgreeSeen text) x y) := by
  cases x with
  | none =>
    cases y with
    | none => exact ⟨true, rfl, by simp⟩
    | some y => exact ⟨false, rfl, iff_of_false (by simp) (by rintro ⟨⟩)⟩
  | some x =>
    cases y with
    | none => exact ⟨false, rfl, iff_of_false (by simp) (by rintro ⟨⟩)⟩
    | some y => exact answers_equal.congr ⟨.some, by rintro ⟨h⟩; exact h⟩

theorem equalPtr_self (x : Option (EVMCallTrace ε)) : equalPtr text x x = .ok true := by
  obtain ⟨b, hb, hiff⟩ : Answers (equalPtr text x x) _ := answers_equalPtr x x
  have hself : Option.Rel (AgreeSeen text) x x := by
    cases x with
    | none => exact .none
    | some x => exact .some agreeSeen_self
  rw [hb, hiff.mpr hself]

end EVMCallTrace

namespace EVMTrace
variable (x y : EVMTrace ε)

theorem answers_equal : Answers (x.equal text y) (x.AgreeSeen text y) := by
  have hhead : (x.sstoreCount = y.sstoreCount && x.sstoreTrace.length = y.sstoreTrace.length &&
      x.eventTraces.length = y.eventTraces.length && x.callTraces.length = y.callTraces.length) =
      true ↔ ((x.sstoreCount = y.sstoreCount ∧ x.sstoreTrace.length = y.sstoreTrace.length) ∧
        x.eventTraces.length = y.eventTraces.length) ∧
        x.callTraces.length = y.callTraces.length := by
    simp
  have hptr : ∀ c d, Answers (EVMCallTrace.equalPtr text c d) _ := EVMCallTrace.answers_equalPtr
  have hall := (Answers.ok_iff hhead).and fun h => (Answers.rangeAll_eq h.1.1.2).and fun _ =>
    Answers.rangeAll hptr h.2
  refine hall.congr ?_
  constructor
  · rintro ⟨⟨⟨⟨hcount, -⟩, hevents⟩, -⟩, hstores, hcalls⟩
    exact ⟨hcount, hstores, hevents, hcalls⟩
  · intro h
    exact ⟨⟨⟨⟨h.sstoreCount, congrArg _ h.sstoreTrace⟩, h.events⟩, h.callTraces.length_eq⟩,
      h.sstoreTrace, h.callTraces⟩

def EqualExact (text : ε → GoString) (x y : EVMTrace ε) : Prop :=
  Answers (x.equal text y) (x.Agree text y)

/-- `Equal` is exact unless the traces agree in all it looks at and differ in the contents of
the events, a refund or a list of SHA3 indexes. -/
theorem equalExact_iff (text : ε → GoString) (x y : EVMTrace ε) :
    x.EqualExact text y ↔ (x.AgreeSeen text y → x.AgreeUnseen y) := by
  obtain ⟨b, hb, hseen⟩ : Answers (x.equal text y) _ := answers_equal x y
  rw [EqualExact, agree_iff, ← hseen, hb]
  constructor
  · rintro ⟨b', hb', hiff⟩ htrue
    cases hb'
    exact (hiff.mp htrue).2
  · intro himp
    exact ⟨b, rfl, ⟨fun htrue => ⟨htrue, himp htrue⟩, And.left⟩⟩

end EVMTrace
end

def sampleTrace (data : Bytes) (refundGas : Nat) (indexes : List Int) : EVMTrace GoString where
  sstoreCount := 0
  sstoreTrace := []
  eventTraces := [⟨[], data⟩]
  callTraces := [some ⟨0, 0, 0, 0, "Call".toList, 1, [], 0, refundGas, 0, none, false, [], [], ∅, ∅,
    indexes, [], []⟩]

theorem sampleTrace_agree_inv {data data' : Bytes} {gas gas' : Nat} {list list' : List Int}
    (h : (sampleTrace data gas list).Agree id (sampleTrace data' gas' list')) :
    data = data' ∧ gas = gas' ∧ list = list' := by
  have hevents := h.eventTraces
  have hcalls := h.callTraces
  simp only [sampleTrace, List.forall₂_cons, List.cons.injEq,
    EVMEventTrace.mk.injEq] at hevents hcalls
  obtain ⟨⟨hagree⟩, -⟩ := hcalls
  exact ⟨hevents.1.2, hagree.refundGas, hagree.sha3IndexList⟩

/-- Traces that differ in the data of an event, in a refund or in the order of two SHA3 hashes. -/
theorem sampleTrace_equal_not_agree :
    ((sampleTrace [0] 0 [0, 1]).equal id (sampleTrace [1] 0 [0, 1]) = .ok true ∧
        ¬ (sampleTrace [0] 0 [0, 1]).Agree id (sampleTrace [1] 0 [0, 1])) ∧
      ((sampleTrace [0] 0 [0, 1]).equal id (sampleTrace [0] 5 [0, 1]) = .ok true ∧
        ¬ (sampleTrace [0] 0 [0, 1]).Agree id (sampleTrace [0] 5 [0, 1])) ∧
      (sampleTrace [0] 0 [0, 1]).equal id (sampleTrace [0] 0 [1, 0]) = .ok true ∧
        ¬ (sampleTrace [0] 0 [0, 1]).Agree id (sampleTrace [0] 0 [1, 0]) := by
  refine ⟨⟨rfl, fun h => ?_⟩, ⟨rfl, fun h => ?_⟩, rfl, fun h => ?_⟩
  · exact absurd (sampleTrace_agree_inv h).1 (by decide)
  · exact absurd (sampleTrace_agree_inv h).2.1 (by decide)
  · exact absurd (sampleTrace_agree_inv h).2.2 (by decide)

end EtherVal.Research
