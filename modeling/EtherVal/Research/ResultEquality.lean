import EtherVal.Lib.Answers
import EtherVal.Research.Substate

/-!
# Comparing results (`substate_utils.go:375-409`, `substate_db_stage2.go:89-115`)

`EqualResult` takes pointers and compares them first, so a result is given here by its place in a
memory of results; the pointers `Status` and `GasUsed` of a result are set.
-/

namespace EtherVal.Research
open EtherVal.Lib

abbrev ResultPtr := Option Nat

def equalTopics (xl yl : ResultLog) : Except GoPanic Bool :=
  rangeAll (fun xt yt => .ok (decide (xt = yt))) xl.topics yl.topics

def equalSomeLog (xl yl : ResultLog) : Except GoPanic Bool :=
  pure (xl.address = yl.address || xl.topics.length = yl.topics.length || xl.data = yl.data) <&&>
    equalTopics xl yl

def equalResult (results : Nat → Result) (x y : ResultPtr) : Except GoPanic Bool :=
  if x = y then pure true
  else if (x = none ∨ y ≠ none) ∨ (x ≠ none ∧ y = none) then pure false
  else
    match x, y with
    | some x, some y =>
      let x := results x
      let y := results y
      pure (x.status = y.status || x.bloom = y.bloom || x.logs.length = y.logs.length ||
          x.gasUsed = y.gasUsed) <&&>
        rangeAll equalSomeLog x.logs y.logs
    | _, _ => throw .nilDereference

theorem equalResult_eq (results : Nat → Result) (x y : ResultPtr) :
    equalResult results x y = .ok (decide (x = y)) := by
  unfold equalResult
  by_cases hsame : x = y
  · rw [if_pos hsame, decide_eq_true hsame]
    rfl
  · have htest : (x = none ∨ y ≠ none) ∨ (x ≠ none ∧ y = none) := by
      by_cases hy : y = none
      · exact .inr ⟨fun hx => hsame (hx.trans hy.symm), hy⟩
      · exact .inl (.inr hy)
    rw [if_neg hsame, if_pos htest, decide_eq_false hsame]
    rfl

/-- `EqualResult` decides whether two results are equal exactly for one pointer given twice and
for results that differ. -/
theorem equalResult_decides_iff (results : Nat → Result) (x y : Nat) :
    Answers (equalResult results (some x) (some y)) (results x = results y) ↔
      x = y ∨ results x ≠ results y := by
  rw [equalResult_eq]
  constructor
  · rintro ⟨b, hb, hiff⟩
    cases hb
    by_cases heq : results x = results y
    · have hptr : some x = some y := of_decide_eq_true (hiff.mpr heq)
      exact .inl (Option.some.inj hptr)
    · exact .inr heq
  · intro h
    refine Answers.ok_iff ?_
    rw [decide_eq_true_iff, Option.some.injEq]
    constructor
    · intro hptr
      rw [hptr]
    · intro heq
      exact h.resolve_right (fun hne => hne heq)

/-- Two copies of one result at different addresses are not equal. -/
theorem equalResult_copies :
    ¬ Answers (equalResult (fun _ => ⟨1, [], [], 21000⟩) (some 0) (some 1))
      ((⟨1, [], [], 21000⟩ : Result) = ⟨1, [], [], 21000⟩) := by
  rintro ⟨b, hb, hiff⟩
  rw [equalResult_eq] at hb
  cases hb
  exact absurd (hiff.mpr rfl) (by decide)

namespace Result

def equalLog (x y : Result) : Except GoPanic Bool :=
  pure (decide (x.logs.length = y.logs.length)) <&&>
    rangeAll (fun xl yl =>
      pure (xl.address = yl.address && xl.topics.length = yl.topics.length &&
        xl.data = yl.data) <&&>
        equalTopics xl yl) x.logs y.logs

theorem answers_equalLog (x y : Result) : Answers (x.equalLog y) (x.logs = y.logs) := by
  have hlog : ∀ xl yl : ResultLog, Answers
      (pure (xl.address = yl.address && xl.topics.length = yl.topics.length &&
        xl.data = yl.data) <&&>
        equalTopics xl yl) (xl = yl) := by
    intro xl yl
    have hhead : (xl.address = yl.address && xl.topics.length = yl.topics.length &&
        xl.data = yl.data) = true ↔
        (xl.address = yl.address ∧ xl.topics.length = yl.topics.length) ∧ xl.data = yl.data := by
      simp
    refine ((Answers.ok_iff hhead).and fun h => Answers.rangeAll_eq h.1.2).congr ?_
    constructor
    · rintro ⟨⟨⟨haddress, -⟩, hdata⟩, htopics⟩
      cases xl
      cases yl
      simp_all
    · rintro rfl
      simp
  have hlength := Answers.of_decide (x.logs.length = y.logs.length)
  refine (hlength.and fun h => Answers.rangeAll hlog h).congr ?_
  rw [List.forall₂_eq_eq_eq]
  exact ⟨fun h => h.2, fun h => ⟨congrArg List.length h, h⟩⟩

end Result
end EtherVal.Research
