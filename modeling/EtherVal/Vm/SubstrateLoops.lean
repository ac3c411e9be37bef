import EtherVal.Vm.SubstrateCallData

/-!
# Statements of the Substrate interpreter (`substrate_act.go:380`)

A statement completes with a value; blocks and branches pass on the first one that is not empty.
`ActWhile` and `ActDoWhile` alternate between the condition and the body; the first starts with the
condition, the second with the body.  They differ in the values of the body that they pass on: every
other one ends in a panic.
-/

namespace EtherVal.Vm
open EtherVal.Lib

/-- The kinds of values with which a statement completes. -/
inductive StmtKind where
  | EMPTY | ValueContinue | ValueBreak | ValueReturn | ValueNum | ValueExprList | ValueStructId
  | ValueRevert | ValueInvalid | ValueTerminate
  deriving DecidableEq

def StmtKind.text : StmtKind → String
  | EMPTY => "EMPTY" | ValueContinue => "ValueContinue" | ValueBreak => "ValueBreak"
  | ValueReturn => "ValueReturn" | ValueNum => "ValueNum" | ValueExprList => "ValueExprList"
  | ValueStructId => "ValueStructId" | ValueRevert => "ValueRevert"
  | ValueInvalid => "ValueInvalid" | ValueTerminate => "ValueTerminate"

def StmtKind.abrupt : StmtKind → Bool
  | EMPTY | ValueContinue | ValueBreak => false
  | _ => true

structure StmtValue (ν : Type) where
  kind : StmtKind
  value : Option ν

/-- An `Act…` function at a node, from the `actDepth` of its caller.  `none`: a loop in it has not
ended. -/
abbrev Act (σ α : Type) := Nat → σ → Option (Except GoPanic (α × σ))

abbrev StmtAct (σ ν : Type) := Act σ (StmtValue ν)

structure SubstrateFrame (σ : Type) where
  /-- `framePtr.terminate` is set -/
  terminate : σ → Bool
  depth : σ → Nat

structure SubstrateLoop (σ ν : Type) extends SubstrateFrame σ where
  cond : Act σ Word
  stmt : StmtAct σ ν
  actDepth : Nat

section
variable {σ ν : Type} (l : SubstrateLoop σ ν) (pass : StmtKind → Bool)

/-- The loop at its condition (`true`) or at its body, with the values that it passes on. -/
def runLoop : Nat → Bool → σ → Option (Except GoPanic (StmtValue ν × σ))
  | 0, _, _ => none
  | fuel + 1, true, s =>
    match l.cond l.actDepth s with
    | none => none
    | some (.error e) => some (.error e)
    | some (.ok (c, s)) =>
      if c = 0 then some (.ok (⟨.EMPTY, none⟩, s)) else runLoop fuel false s
  | fuel + 1, false, s =>
    if l.terminate s then some (.error (.text []))
    else
      match l.stmt l.actDepth s with
      | none => none
      | some (.error e) => some (.error e)
      | some (.ok (v, s)) =>
        match v.kind with
        | .EMPTY | .ValueContinue => runLoop fuel true s
        | .ValueBreak => some (.ok (⟨.EMPTY, none⟩, s))
        | k =>
          if pass k then some (.ok (v, s))
          else some (.error
            (substratePanic (l.depth s) ("Unknown statement value: " ++ k.text).toList))

def passWhile : StmtKind → Bool
  | .ValueReturn | .ValueRevert | .ValueNum => true
  | _ => false

def passDoWhile : StmtKind → Bool
  | .ValueReturn => true
  | _ => false

def actWhile (fuel : Nat) (s : σ) := runLoop l passWhile fuel true s

def actDoWhile (fuel : Nat) (s : σ) := runLoop l passDoWhile fuel false s

def unrolled (fuel : Nat) (test : Bool) (s : σ) := runLoop l (fun _ => true) fuel test s

end

structure IfNode (σ ν : Type) where
  expr : Act σ Word
  sb : List (StmtAct σ ν)

/-- `StmtNode.Internal`; the statements without statements in them are given by what they do. -/
inductive StmtInternal (σ ν : Type) where
  | ifStmt (ifN : IfNode σ ν) (elif : List (IfNode σ ν)) (els : Option (List (StmtAct σ ν)))
  | while (expr : Act σ Word) (stmt : StmtAct σ ν)
  | doWhile (stmt : StmtAct σ ν) (expr : Act σ Word)
  | stmtBlock (list : List (StmtAct σ ν))
  | simple (act : StmtAct σ ν)

namespace SubstrateFrame
variable {σ ν α : Type} (fr : SubstrateFrame σ)

def stackMaxDepth : Nat := 2 ^ 18

/-- `preAct`: the new `actDepth`, which the caller gets back as it was. -/
def preAct (d : Nat) (s : σ) : Except GoPanic Nat :=
  if fr.terminate s then .error (.text [])
  else if stackMaxDepth < d + 1 then
    .error (substratePanic (fr.depth s) "stack overflow by recursion".toList)
  else .ok (d + 1)

def acted (x : Act σ α) : Act σ α := fun d s =>
  match fr.preAct d s with
  | .error e => some (.error e)
  | .ok d => x d s

def stmts : List (StmtAct σ ν) → StmtAct σ ν
  | [], _, s => some (.ok (⟨.EMPTY, none⟩, s))
  | x :: xs, d, s =>
    match x d s with
    | some (.ok (v, s)) => if v.kind = .EMPTY then stmts xs d s else some (.ok (v, s))
    | r => r

def actStmtList (list : List (StmtAct σ ν)) : StmtAct σ ν := fr.acted (stmts list)

def actStmtBlock (list : List (StmtAct σ ν)) : StmtAct σ ν :=
  fr.acted (fr.actStmtList list)

/-- `ActIf` and `ActElseIf`: `none` if the condition is zero, and else what the block completes with
(`ValueTrue` for `EMPTY`). -/
def actIf (n : IfNode σ ν) : Act σ (Option (StmtValue ν)) := fr.acted fun d s =>
  match n.expr d s with
  | none => none
  | some (.error e) => some (.error e)
  | some (.ok (c, s)) =>
    if c = 0 then some (.ok (none, s))
    else (fr.actStmtBlock n.sb d s).map fun r => r.map fun (v, s) => (some v, s)

def actElse (sb : List (StmtAct σ ν)) : StmtAct σ ν := fr.acted (fr.actStmtBlock sb)

def branches : List (IfNode σ ν) → Option (List (StmtAct σ ν)) → StmtAct σ ν
  | [], none, _, s => some (.ok (⟨.EMPTY, none⟩, s))
  | [], some sb, d, s => fr.actElse sb d s
  | n :: ns, els, d, s =>
    match fr.actIf n d s with
    | none => none
    | some (.error e) => some (.error e)
    | some (.ok (some v, s)) => some (.ok (v, s))
    | some (.ok (none, s)) => branches ns els d s

def actIfStmt (ifN : IfNode σ ν) (elif : List (IfNode σ ν))
    (els : Option (List (StmtAct σ ν))) : StmtAct σ ν :=
  fr.acted (fr.branches (ifN :: elif) els)

def actStmt (fuel : Nat) (internal : StmtInternal σ ν) : StmtAct σ ν :=
  fr.acted fun d s =>
    match internal with
    | .ifStmt ifN elif els => fr.actIfStmt ifN elif els d s
    | .while expr stmt => fr.acted (fun d s => actWhile ⟨fr, expr, stmt, d⟩ fuel s) d s
    | .doWhile stmt expr => fr.acted (fun d s => actDoWhile ⟨fr, expr, stmt, d⟩ fuel s) d s
    | .stmtBlock list => fr.actStmtBlock list d s
    | .simple act => act d s

/-- The statement `y` comes to the statement `x`, which stands in it in blocks and branches. -/
inductive ComesTo : StmtAct σ ν → Nat → σ → StmtAct σ ν → Nat → σ → Prop where
  | here {x : StmtAct σ ν} {d : Nat} {s : σ} : ComesTo x d s x d s
  | acted {x y : StmtAct σ ν} {d d' e : Nat} {s t : σ} : fr.preAct d s = .ok d' →
      ComesTo y d' s x e t → ComesTo (fr.acted y) d s x e t
  | first {x y : StmtAct σ ν} {ys : List (StmtAct σ ν)} {d e : Nat} {s t : σ} :
      ComesTo y d s x e t → ComesTo (stmts (y :: ys)) d s x e t
  | later {x y : StmtAct σ ν} {ys : List (StmtAct σ ν)} {v : StmtValue ν}
      {d e : Nat} {s s' t : σ} : y d s = some (.ok (v, s')) → v.kind = .EMPTY →
      ComesTo (stmts ys) d s' x e t → ComesTo (stmts (y :: ys)) d s x e t
  | taken {x : StmtAct σ ν} {n : IfNode σ ν} {ns : List (IfNode σ ν)}
      {els : Option (List (StmtAct σ ν))} {c : Word} {d d' e : Nat} {s s' t : σ} :
      fr.preAct d s = .ok d' → n.expr d' s = some (.ok (c, s')) → c ≠ 0 →
      ComesTo (fr.actStmtBlock n.sb) d' s' x e t → ComesTo (fr.branches (n :: ns) els) d s x e t
  | notTaken {x : StmtAct σ ν} {n : IfNode σ ν} {ns : List (IfNode σ ν)}
      {els : Option (List (StmtAct σ ν))} {d e : Nat} {s s' t : σ} :
      fr.actIf n d s = some (.ok (none, s')) → ComesTo (fr.branches ns els) d s' x e t →
      ComesTo (fr.branches (n :: ns) els) d s x e t
  | els {x : StmtAct σ ν} {sb : List (StmtAct σ ν)} {d e : Nat} {s t : σ} :
      ComesTo (fr.actElse sb) d s x e t → ComesTo (fr.branches [] (some sb)) d s x e t

variable {fr}

/-- Every value but the empty one passes through the blocks and branches around its statement. -/
theorem ComesTo.completes {x y : StmtAct σ ν} {d e : Nat} {s t t' : σ} {v : StmtValue ν}
    (h : fr.ComesTo y d s x e t) (hx : x e t = some (.ok (v, t'))) (hv : v.kind ≠ .EMPTY) :
    y d s = some (.ok (v, t')) := by
  induction h with
  | here => exact hx
  | acted hpre _ ih => simp only [SubstrateFrame.acted, hpre, ih hx]
  | first _ ih => simp only [stmts, ih hx, hv, if_false]
  | later hy hempty _ ih => simp only [stmts, hy, hempty, if_true, ih hx]
  | taken hpre hexpr hc _ ih =>
    simp only [branches, actIf, SubstrateFrame.acted, hpre, hexpr, hc, if_false, ih hx,
      Option.map_some, Except.map]
  | notTaken hif _ ih => simp only [branches, hif, ih hx]
  | els _ ih => exact ih hx

end SubstrateFrame

inductive Reaches {σ ν : Type} (l : SubstrateLoop σ ν) : Bool → σ → σ → Prop where
  | here {s : σ} : l.terminate s = false → Reaches l false s s
  | test {s s' t : σ} {c : Word} : l.cond l.actDepth s = some (.ok (c, s')) → c ≠ 0 →
      Reaches l false s' t → Reaches l true s t
  | again {s s' t : σ} {v : StmtValue ν} : l.terminate s = false →
      l.stmt l.actDepth s = some (.ok (v, s')) → v.kind = .EMPTY ∨ v.kind = .ValueContinue →
      Reaches l true s' t → Reaches l false s t

/-- The loop `run` completes with what a statement of its body completes with, as its unrolled
iterations do. -/
structure Propagates {σ ν : Type} (l : SubstrateLoop σ ν)
    (run : Nat → σ → Option (Except GoPanic (StmtValue ν × σ))) (test : Bool) (s : σ) : Prop where
  completes : ∀ t x e u v t', Reaches l test s t → l.ComesTo l.stmt l.actDepth t x e u →
    x e u = some (.ok (v, t')) → v.kind.abrupt = true →
    ∃ n, ∀ fuel, n ≤ fuel → run fuel s = some (.ok (v, t'))
  iterations : ∀ fuel, run fuel s = unrolled l fuel test s

section
variable {σ ν : Type} {l : SubstrateLoop σ ν} {pass : StmtKind → Bool}

theorem runLoop_abrupt {s s' : σ} {v : StmtValue ν} (hterm : l.terminate s = false)
    (hstmt : l.stmt l.actDepth s = some (.ok (v, s'))) (habrupt : v.kind.abrupt = true)
    (fuel : Nat) :
    runLoop l pass (fuel + 1) false s =
      if pass v.kind then some (.ok (v, s'))
      else some (.error
        (substratePanic (l.depth s') ("Unknown statement value: " ++ v.kind.text).toList)) := by
  obtain ⟨k, value⟩ := v
  simp only [runLoop, hterm, hstmt, Bool.false_eq_true, if_false]
  cases k with
  | EMPTY | ValueContinue | ValueBreak => cases habrupt
  | _ => rfl

theorem Reaches.run (pass : StmtKind → Bool) {test : Bool} {s t : σ} (h : Reaches l test s t)
    {v : StmtValue ν} {t' : σ} (hstmt : l.stmt l.actDepth t = some (.ok (v, t')))
    (habrupt : v.kind.abrupt = true) :
    ∃ n, ∀ fuel, n ≤ fuel → runLoop l pass fuel test s =
      if pass v.kind then some (.ok (v, t'))
      else some (.error
        (substratePanic (l.depth t') ("Unknown statement value: " ++ v.kind.text).toList)) := by
  induction h with
  | here hterm =>
    refine ⟨1, ?_⟩
    intro fuel hfuel
    obtain ⟨fuel, rfl⟩ := Nat.exists_eq_add_of_le' hfuel
    exact runLoop_abrupt hterm hstmt habrupt fuel
  | test hcond hc _ ih =>
    obtain ⟨n, hn⟩ := ih hstmt
    refine ⟨n + 1, ?_⟩
    intro fuel hfuel
    obtain ⟨fuel, rfl⟩ := Nat.exists_eq_add_of_le' (Nat.le_of_add_left_le hfuel)
    rw [← hn fuel (by omega)]
    simp only [runLoop, hcond, hc, if_false]
  | again hterm hgo hkind _ ih =>
    obtain ⟨n, hn⟩ := ih hstmt
    refine ⟨n + 1, ?_⟩
    intro fuel hfuel
    obtain ⟨fuel, rfl⟩ := Nat.exists_eq_add_of_le' (Nat.le_of_add_left_le hfuel)
    rw [← hn fuel (by omega)]
    rcases hkind with hkind | hkind
    · simp only [runLoop, hterm, hgo, hkind, Bool.false_eq_true, if_false]
    · simp only [runLoop, hterm, hgo, hkind, Bool.false_eq_true, if_false]

theorem runLoop_eq_unrolled {test : Bool} {s : σ}
    (h : ∀ t v t', Reaches l test s t → l.stmt l.actDepth t = some (.ok (v, t')) →
      v.kind.abrupt = true → pass v.kind = true) (fuel : Nat) :
    runLoop l pass fuel test s = unrolled l fuel test s := by
  unfold unrolled
  induction fuel generalizing test s with
  | zero => simp only [runLoop]
  | succ fuel ih =>
    cases test with
    | true =>
      simp only [runLoop]
      split
      · rfl
      · rfl
      · next c s' hcond =>
        split
        · rfl
        · next hc => exact ih fun t v t' ht => h t v t' (.test hcond hc ht)
    | false =>
      cases hterm : l.terminate s with
      | true => simp only [runLoop, hterm, if_true]
      | false =>
        match hstmt : l.stmt l.actDepth s with
        | none | some (.error e) => simp only [runLoop, hterm, hstmt, Bool.false_eq_true, if_false]
        | some (.ok (⟨k, value⟩, s')) =>
          by_cases habrupt : k.abrupt = true
          · rw [runLoop_abrupt hterm hstmt habrupt, runLoop_abrupt hterm hstmt habrupt,
              h s _ s' (.here hterm) hstmt habrupt]
          · have hnext : k = .EMPTY ∨ k = .ValueContinue →
                runLoop l pass fuel true s' = runLoop l (fun _ => true) fuel true s' := by
              intro hk
              exact ih fun t w t' ht => h t w t' (.again hterm hstmt hk ht)
            simp only [runLoop, hterm, hstmt, Bool.false_eq_true, if_false]
            cases k with
            | EMPTY => exact hnext (.inl rfl)
            | ValueContinue => exact hnext (.inr rfl)
            | ValueBreak => rfl
            | _ => exact absurd rfl habrupt

theorem propagates_iff (l : SubstrateLoop σ ν) (pass : StmtKind → Bool) (test : Bool) (s : σ) :
    Propagates l (runLoop l pass · test ·) test s ↔
      ∀ t v t', Reaches l test s t → l.stmt l.actDepth t = some (.ok (v, t')) →
        v.kind.abrupt = true → pass v.kind = true := by
  constructor
  · intro h t v t' ht hstmt habrupt
    obtain ⟨n, hn⟩ := h.completes t _ _ t v t' ht .here hstmt habrupt
    obtain ⟨n', hn'⟩ := Reaches.run pass ht hstmt habrupt
    have hrun := hn' (max n n') (le_max_right ..)
    rw [hn _ (le_max_left ..)] at hrun
    by_contra hpass
    rw [if_neg hpass] at hrun
    cases hrun
  · intro h
    refine ⟨?_, runLoop_eq_unrolled h⟩
    intro t x e u v t' ht hx hstmt habrupt
    have hne : v.kind ≠ .EMPTY := by
      intro hempty
      rw [hempty] at habrupt
      cases habrupt
    replace hstmt := hx.completes hstmt hne
    obtain ⟨n, hn⟩ := Reaches.run pass ht hstmt habrupt
    rw [h t v t' ht hstmt habrupt, if_pos rfl] at hn
    exact ⟨n, hn⟩

def unknownInWhile (k : StmtKind) : Prop :=
  k = .ValueExprList ∨ k = .ValueStructId ∨ k = .ValueInvalid ∨ k = .ValueTerminate

/-- Each loop propagates what its body completes with unless it meets a value unknown to it; to
`ActDoWhile` reverts and the single results of private functions are unknown too. -/
theorem loops_propagate_iff (l : SubstrateLoop σ ν) (s : σ) :
    (Propagates l (actWhile l) true s ↔
      ∀ t v t', Reaches l true s t → l.stmt l.actDepth t = some (.ok (v, t')) →
        ¬ unknownInWhile v.kind) ∧
    (Propagates l (actDoWhile l) false s ↔
      ∀ t v t', Reaches l false s t → l.stmt l.actDepth t = some (.ok (v, t')) →
        ¬ (unknownInWhile v.kind ∨ v.kind = .ValueRevert ∨ v.kind = .ValueNum)) := by
  have hwhile : ∀ k : StmtKind,
      (k.abrupt = true → passWhile k = true) ↔ ¬ unknownInWhile k := by
    intro k
    cases k <;> simp [StmtKind.abrupt, passWhile, unknownInWhile]
  have hdo : ∀ k : StmtKind, (k.abrupt = true → passDoWhile k = true) ↔
      ¬ (unknownInWhile k ∨ k = .ValueRevert ∨ k = .ValueNum) := by
    intro k
    cases k <;> simp [StmtKind.abrupt, passDoWhile, unknownInWhile]
  have hw := propagates_iff l passWhile true s
  have hd := propagates_iff l passDoWhile false s
  simp only [hwhile] at hw
  simp only [hdo] at hd
  exact ⟨hw, hd⟩

end

def calmFrame : SubstrateFrame Unit where
  terminate _ := false
  depth _ := 1

/-- `do { revert(); } while (1)` -/
def revertingLoop : SubstrateLoop Unit Bytes where
  toSubstrateFrame := calmFrame
  cond _ s := some (.ok (1, s))
  stmt := calmFrame.actStmt 0
    (.stmtBlock [calmFrame.actStmt 0 (.simple fun _ s => some (.ok (⟨.ValueRevert, none⟩, s)))])
  actDepth := 2

theorem revert_lost_in_doWhile :
    actDoWhile revertingLoop 1 () =
        some (.error (substratePanic 1 "Unknown statement value: ValueRevert".toList)) ∧
      ¬ Propagates revertingLoop (actDoWhile revertingLoop) false () := by
  have hstmt : revertingLoop.stmt 2 () = some (.ok (⟨.ValueRevert, none⟩, ())) := rfl
  refine ⟨rfl, ?_⟩
  intro h
  have hpass := (propagates_iff revertingLoop passDoWhile false ()).mp h () _ ()
      (.here rfl) hstmt rfl
  cases hpass

end EtherVal.Vm
