import EtherVal.Vm.EvmArithmetic
import EtherVal.Vm.SubstrateCallData

/-!
# Operators of Substrate programs (`substrate_interpreter.go:1257-1352`, `substrate_act.go:792-805`)

The interpreter hands words around as pointers.  A local variable is a pointer to its cell, and
an operator writes its result to a cell of its own.  Memory and storage are behind `Places`.
-/

namespace EtherVal.Vm
open EtherVal.Lib
open Uint256 (isZero uint64 ltUint64)

inductive BinaryOp where
  | add | sub | mul | div | mod | exp | lsh | rsh | and | xor | or
  | lt | gt | le | ge | eq | ne | land | lor
  deriving DecidableEq, Repr

inductive UnaryOp where
  | plus | minus | not | compl
  deriving DecidableEq, Repr

def BinaryOp.text : BinaryOp → String
  | .add => "+" | .sub => "-" | .mul => "*" | .div => "/" | .mod => "%" | .exp => "**"
  | .lsh => "<<" | .rsh => ">>" | .and => "&" | .xor => "^" | .or => "|"
  | .lt => "<" | .gt => ">" | .le => "<=" | .ge => ">=" | .eq => "==" | .ne => "!="
  | .land => "&&" | .lor => "||"

def BinaryOp.ofText : String → Option BinaryOp
  | "+" => some .add | "-" => some .sub | "*" => some .mul | "/" => some .div | "%" => some .mod
  | "**" => some .exp | "<<" => some .lsh | ">>" => some .rsh | "&" => some .and
  | "^" => some .xor | "|" => some .or | "<" => some .lt | ">" => some .gt | "<=" => some .le
  | ">=" => some .ge | "==" => some .eq | "!=" => some .ne | "&&" => some .land
  | "||" => some .lor | _ => none

theorem BinaryOp.ofText_text (op : BinaryOp) : ofText op.text = some op := by
  cases op <;> rfl

/-- What the switch of `doBinaryOp` makes of the operands; shift amounts are `uint(r.Uint64())`. -/
def BinaryOp.apply : BinaryOp → Word → Word → Word
  | .add, l, r => l + r
  | .sub, l, r => l - r
  | .mul, l, r => l * r
  | .div, l, r => Uint256.div l r
  | .mod, l, r => Uint256.mod l r
  | .exp, l, r => Uint256.exp l r
  | .lsh, l, r => Uint256.lsh l (uint64 r)
  | .rsh, l, r => Uint256.rsh l (uint64 r)
  | .and, l, r => l &&& r
  | .xor, l, r => l ^^^ r
  | .or, l, r => l ||| r
  | .lt, l, r => boolWord (Uint256.lt l r)
  | .gt, l, r => boolWord (Uint256.gt l r)
  | .le, l, r => boolWord (Uint256.lt l r || Uint256.eq l r)
  | .ge, l, r => boolWord (Uint256.gt l r || Uint256.eq l r)
  | .eq, l, r => boolWord (Uint256.eq l r)
  | .ne, l, r => boolWord (!Uint256.eq l r)
  | .land, l, r => boolWord (!isZero l && !isZero r)
  | .lor, l, r => boolWord (!isZero l || !isZero r)

def UnaryOp.apply : UnaryOp → Word → Word
  | .plus, x => 0 + x
  | .minus, x => 0 - x
  | .not, x => boolWord (isZero x)
  | .compl, x => ~~~x

/-- The opcodes an operator stands for. -/
def BinaryOp.evm : BinaryOp → Word → Word → Option Stack
  | .add, l, r => opAdd [l, r]
  | .sub, l, r => opSub [l, r]
  | .mul, l, r => opMul [l, r]
  | .div, l, r => opDiv [l, r]
  | .mod, l, r => opMod [l, r]
  | .exp, l, r => opExp [l, r]
  | .lsh, l, r => opSHL [r, l]
  | .rsh, l, r => opSHR [r, l]
  | .and, l, r => opAnd [l, r]
  | .xor, l, r => opXor [l, r]
  | .or, l, r => opOr [l, r]
  | .lt, l, r => opLt [l, r]
  | .gt, l, r => opGt [l, r]
  | .le, l, r => opGt [l, r] >>= opIszero
  | .ge, l, r => opLt [l, r] >>= opIszero
  | .eq, l, r => opEq [l, r]
  | .ne, l, r => opEq [l, r] >>= opIszero
  | .land, l, r => opIszero [l, r] >>= fun st => opIszero st.reverse >>= opOr >>= opIszero
  | .lor, l, r => opOr [l, r] >>= opIszero >>= opIszero

def UnaryOp.evm : UnaryOp → Word → Option Stack
  | .plus, x => opAdd [0, x]
  | .minus, x => opSub [0, x]
  | .not, x => opIszero [x]
  | .compl, x => opNot [x]

def BinaryOp.ShiftFits : BinaryOp → Word → Word → Prop
  | .lsh, l, r => r.toNat < 2 ^ 64 ∨ ∀ k, l.getLsbD k = true → 256 ≤ k + r.toNat % 2 ^ 64
  | .rsh, l, r => r.toNat < 2 ^ 64 ∨ ∀ k, l.getLsbD k = true → k < r.toNat % 2 ^ 64
  | _, _, _ => True

theorem lsh_eq_zero_iff (l : Word) (n : Nat) :
    Uint256.lsh l n = 0 ↔ ∀ k, l.getLsbD k = true → 256 ≤ k + n := by
  constructor
  · intro h k hk
    by_contra hlt
    have hbit := congrArg (·.getLsbD (k + n)) h
    simp [Uint256.lsh, BitVec.getLsbD_shiftLeft, hk] at hbit
    omega
  · intro h
    apply BitVec.eq_of_getLsbD_eq
    intro i hi
    simp only [Uint256.lsh, BitVec.getLsbD_shiftLeft]
    by_cases hin : i < n
    · simp [hin]
    · cases hb : l.getLsbD (i - n) with
      | false => simp
      | true => have := h _ hb; omega

theorem rsh_eq_zero_iff (l : Word) (n : Nat) :
    Uint256.rsh l n = 0 ↔ ∀ k, l.getLsbD k = true → k < n := by
  constructor
  · intro h k hk
    by_contra hlt
    have hbit := congrArg (·.getLsbD (k - n)) h
    rw [Uint256.rsh, BitVec.getLsbD_ushiftRight, Nat.add_sub_cancel' (by omega), hk] at hbit
    simp at hbit
  · intro h
    apply BitVec.eq_of_getLsbD_eq
    intro i _
    rw [Uint256.rsh, BitVec.getLsbD_ushiftRight]
    cases hb : l.getLsbD (n + i) with
    | false => simp
    | true => have := h _ hb; omega

theorem shift_agrees_iff {shifted : Nat → Word} {Out : Nat → Prop} (r : Word)
    (hzero : ∀ n, shifted n = 0 ↔ Out n) (hout : ∀ n, 256 ≤ n → Out n) :
    (if ltUint64 r 256 then shifted (uint64 r) else Uint256.clear) =
        shifted (uint64 r) ↔ r.toNat < 2 ^ 64 ∨ Out (r.toNat % 2 ^ 64) := by
  have hmod : uint64 r = r.toNat % 2 ^ 64 := rfl
  by_cases hr : r.toNat < 256
  · simp only [ltUint64, hr, decide_true, if_true, true_iff]
    exact .inl (by omega)
  · have hword : r.toNat < 2 ^ 64 → Out (r.toNat % 2 ^ 64) := by
      intro hlt
      rw [Nat.mod_eq_of_lt hlt]
      exact hout _ (by omega)
    simp only [ltUint64, hr, decide_false, Bool.false_eq_true, if_false, Uint256.clear,
      eq_comm (a := (0 : Word)), hzero, hmod]
    exact ⟨.inr, fun h => h.elim hword id⟩

@[simp] theorem isZero_boolWord (b : Bool) : isZero (boolWord b) = !b := by
  cases b <;> rfl

theorem not_ult_eq (l r : Word) : (!r.ult l) = (l.ult r || decide (l = r)) := by
  simp only [BitVec.ult, ← BitVec.toNat_inj]
  grind

theorem BinaryOp.evm_eq_apply_iff (op : BinaryOp) (l r : Word) :
    op.evm l r = some [op.apply l r] ↔ op.ShiftFits l r := by
  cases op with
  | lsh =>
    have hout : ∀ n, 256 ≤ n → ∀ k, l.getLsbD k = true → 256 ≤ k + n := by
      intro n hn k _; omega
    simpa [evm, apply, ShiftFits, opSHL, evmBinary] using shift_agrees_iff r
      (lsh_eq_zero_iff l) hout
  | rsh =>
    have hout : ∀ n, 256 ≤ n → ∀ k, l.getLsbD k = true → k < n := by
      intro n hn k hk
      have := BitVec.lt_of_getLsbD hk
      omega
    simpa [evm, apply, ShiftFits, opSHR, evmBinary] using shift_agrees_iff r
      (rsh_eq_zero_iff l) hout
  | le => exact iff_of_true (by simp [evm, apply, opGt, opIszero, evmBinary, evmUnary,
      Uint256.gt, Uint256.lt, Uint256.eq, not_ult_eq]) trivial
  | ge => exact iff_of_true (by simp [evm, apply, opLt, opIszero, evmBinary, evmUnary,
      Uint256.gt, Uint256.lt, Uint256.eq, not_ult_eq, eq_comm]) trivial
  | ne => exact iff_of_true (by simp [evm, apply, opEq, opIszero, evmBinary, evmUnary]) trivial
  | land =>
    have hword : ∀ b c : Bool, boolWord b ||| boolWord c = boolWord (b || c) := by decide
    exact iff_of_true (by simp [evm, apply, opOr, opIszero, evmBinary, evmUnary, hword,
      Bool.or_comm]) trivial
  | lor =>
    have hor : isZero (l ||| r) = (isZero l && isZero r) := by
      simp [isZero]
    exact iff_of_true (by simp [evm, apply, opOr, opIszero, evmBinary, evmUnary, hor]) trivial
  | _ => exact iff_of_true rfl trivial

/-- The frame of a Substrate function as far as operators see it: the cells of its words, the
local variables, and memory and storage. -/
structure SubstrateVars (ρ : Type) where
  cells : List Word
  localVar : String → Option Nat
  rest : ρ

/-- The kinds of `NodeValue` by what `getUint256` and `setUint256` do with them. -/
inductive Operand (κ : Type) where
  | num (cell : Nat)
  | id (name : String)
  | access (cell : Nat)
  | place (k : κ)
  | other (kind : GoString)

structure Places (κ ρ : Type) where
  load : κ → ρ → Except GoPanic (Word × ρ)
  store : κ → Word → ρ → Except GoPanic ρ

namespace SubstrateVars
variable {ρ : Type}

def word (s : SubstrateVars ρ) (p : Nat) : Word := s.cells.getD p 0

def read (s : SubstrateVars ρ) (name : String) : Word := (s.localVar name).elim 0 s.word

def Sound (s : SubstrateVars ρ) : Prop := ∀ name p, s.localVar name = some p → p < s.cells.length

structure SameVars (s t : SubstrateVars ρ) : Prop where
  cell : ∀ name p, s.localVar name = some p → t.localVar name = some p
  read : ∀ name, t.read name = s.read name

def push (s : SubstrateVars ρ) (w : Word) : SubstrateVars ρ := { s with cells := s.cells ++ [w] }

end SubstrateVars

section
variable {κ ρ : Type} (places : Places κ ρ) (depth : Nat)

abbrev Eval (ρ : Type) := StateT (SubstrateVars ρ) (Except GoPanic)

def newInt (w : Word) : Eval ρ Nat := fun s => .ok (s.cells.length, s.push w)

def wordAt (p : Nat) : Eval ρ Word := fun s => .ok (s.word p, s)

def getUint256 : Operand κ → Eval ρ Nat
  | .num p => pure p
  | .id name => fun s =>
    match s.localVar name with
    | some p => .ok (p, s)
    | none => .ok (s.cells.length,
        { s.push 0 with localVar := Function.update s.localVar name (some s.cells.length) })
  | .access p => do newInt (← wordAt p)
  | .place k => fun s => do
    let (w, rest) ← places.load k s.rest
    newInt w { s with rest }
  | .other kind => fun _ => .error (substratePanic depth
      ("unknown type in getUint256() (".toList ++ kind ++ ")".toList))

def setUint256 : Operand κ → Nat → Eval ρ Unit
  | .id name, p => modify fun s => { s with localVar := Function.update s.localVar name (some p) }
  | .access q, p => modify fun s => { s with cells := s.cells.set q (s.word p) }
  | .place k, p => fun s => do return ((), { s with rest := ← places.store k (s.word p) s.rest })
  | .num _, _ => fun _ => .error (substratePanic depth "unknown id type ValueNum".toList)
  | .other kind, _ => fun _ => .error (substratePanic depth ("unknown id type ".toList ++ kind))

/-- An operator that the switch does not list leaves the result 0. -/
def doBinaryOp (left right : Operand κ) (op : String) : Eval ρ (Operand κ) := do
  let l ← getUint256 places depth left
  let r ← getUint256 places depth right
  let (l, r) := (← wordAt l, ← wordAt r)
  return .num (← newInt ((BinaryOp.ofText op).elim 0 (·.apply l r)))

def doUnaryOp (operand : Operand κ) (op : UnaryOp) : Eval ρ (Operand κ) := do
  let x ← wordAt (← getUint256 places depth operand)
  return .num (← newInt (op.apply x))

/-- `ActCalcAssignStmt`; on a list of targets `doBinaryOp` panics. -/
def actCalcAssignStmt (lval expr : Eval ρ (Operand κ)) (op : String) : Eval ρ Unit := do
  let lvalue ← lval
  let rvalue ← expr
  let result ← doBinaryOp places depth lvalue rvalue (String.ofList (op.toList.take 1))
  setUint256 places depth lvalue (← getUint256 places depth result)

/-- `ActSubexpr` for `x = y op e`: an operator has a number as its value. -/
def actAssign (lval left right : Eval ρ (Operand κ)) (op : String) : Eval ρ Unit := do
  let target ← lval
  let rvalue ← do doBinaryOp places depth (← left) (← right) op
  setUint256 places depth target (← getUint256 places depth rvalue)

def readOperands (left right : Operand κ) : Eval ρ (Nat × Nat) := do
  let l ← getUint256 places depth left
  return (l, ← getUint256 places depth right)

def Settled (lval : Eval ρ (Operand κ)) : Prop := ∀ s v t, lval s = .ok (v, t) → lval t = .ok (v, t)

variable {places depth} {s t : SubstrateVars ρ}

theorem SubstrateVars.SameVars.trans {u : SubstrateVars ρ} (h : s.SameVars t) (h' : t.SameVars u) :
    s.SameVars u :=
  ⟨fun name p hp => h'.cell name p (h.cell name p hp), fun name =>
    (h'.read name).trans (h.read name)⟩

theorem SubstrateVars.Sound.read_push (hs : s.Sound) (w : Word) (name : String) :
    (s.push w).read name = s.read name := by
  cases hp : s.localVar name with
  | none => simp [read, push, hp]
  | some p => simp [read, push, word, hp, List.getElem?_append_left (hs name p hp)]

theorem SubstrateVars.Sound.push (hs : s.Sound) (w : Word) (rest : ρ) :
    ({ s.push w with rest } : SubstrateVars ρ).Sound ∧ s.SameVars { s.push w with rest } := by
  refine ⟨fun name p hp => ?_, fun _ _ hp => hp, hs.read_push w⟩
  have := hs name p hp
  simp only [SubstrateVars.push, List.length_append]
  omega

theorem getUint256_sameVars {v : Operand κ} {p : Nat} (hs : s.Sound)
    (h : getUint256 places depth v s = .ok (p, t)) : t.Sound ∧ s.SameVars t := by
  cases v with
  | num q => cases h; exact ⟨hs, fun _ _ hp => hp, fun _ => rfl⟩
  | access q => cases h; exact hs.push _ s.rest
  | place k =>
    cases hload : places.load k s.rest with
    | error e => simp [getUint256, hload, bind, Except.bind] at h
    | ok r =>
      simp only [getUint256, hload, bind, Except.bind] at h
      cases h
      exact hs.push r.1 r.2
  | other kind => cases h
  | id name =>
    simp only [getUint256] at h
    cases hvar : s.localVar name with
    | some q => rw [hvar] at h; cases h; exact ⟨hs, fun _ _ hp => hp, fun _ => rfl⟩
    | none =>
      -- the variable gets a cell of its own, with the value it read before
      rw [hvar] at h
      cases h
      have hne : ∀ {other q}, s.localVar other = some q → other ≠ name := by
        rintro other q hq rfl
        exact nomatch hvar.symm.trans hq
      refine ⟨fun other q hq => ?_, fun other q hq => ?_, fun other => ?_⟩
      · by_cases heq : other = name
        · subst heq
          simp [SubstrateVars.push] at hq ⊢
          omega
        · change Function.update s.localVar name _ other = some q at hq
          rw [Function.update_of_ne heq] at hq
          exact (hs.push 0 s.rest).1 other q hq
      · simpa [Function.update, hne hq] using hq
      · by_cases heq : other = name
        · subst heq
          simp [SubstrateVars.read, SubstrateVars.push, SubstrateVars.word, hvar]
        · change (Function.update s.localVar name _ other).elim 0 (s.push 0).word = _
          rw [Function.update_of_ne heq]
          exact hs.read_push 0 other

theorem doBinaryOp_spec {left right : Operand κ} {l r : Nat} (op : BinaryOp)
    (h : readOperands places depth left right s = .ok ((l, r), t)) :
    doBinaryOp places depth left right op.text s =
      .ok (.num t.cells.length, t.push (op.apply (t.word l) (t.word r))) := by
  simp only [readOperands, doBinaryOp, bind, StateT.bind, Except.bind] at h ⊢
  cases hl : getUint256 places depth left s with
  | error e => simp [hl] at h
  | ok a =>
    cases hr : getUint256 places depth right a.2 with
    | error e => simp [hl, hr] at h
    | ok b =>
      simp only [hl, hr] at h ⊢
      cases h
      simp only [wordAt, newInt, BinaryOp.ofText_text]
      rfl

theorem doUnaryOp_spec {v : Operand κ} {p : Nat} (op : UnaryOp)
    (h : getUint256 places depth v s = .ok (p, t)) :
    doUnaryOp places depth v op s = .ok (.num t.cells.length, t.push (op.apply (t.word p))) := by
  simp only [doUnaryOp, bind, StateT.bind, Except.bind, h, wordAt, newInt]
  rfl

theorem readOperands_sameVars {left right : Operand κ} {l r : Nat} (hs : s.Sound)
    (h : readOperands places depth left right s = .ok ((l, r), t)) : t.Sound ∧ s.SameVars t := by
  simp only [readOperands, bind, StateT.bind, Except.bind] at h
  cases hl : getUint256 places depth left s with
  | error e => simp [hl] at h
  | ok a =>
    cases hr : getUint256 places depth right a.2 with
    | error e => simp [hl, hr] at h
    | ok b =>
      simp only [hl, hr] at h
      cases h
      obtain ⟨hsound, hsame⟩ := getUint256_sameVars hs hl
      obtain ⟨hsound', hsame'⟩ := getUint256_sameVars hsound hr
      exact ⟨hsound', hsame.trans hsame'⟩

theorem SubstrateVars.word_push (s : SubstrateVars ρ) (w : Word) :
    (s.push w).word s.cells.length = w := by
  simp [word, push]

theorem actCalcAssignStmt_eq_actAssign {lval : Eval ρ (Operand κ)} (hx : Settled lval)
    (expr : Eval ρ (Operand κ)) {op op' : String} (hop : String.ofList (op.toList.take 1) = op') :
    actCalcAssignStmt places depth lval expr op = actAssign places depth lval lval expr op' := by
  funext s
  simp only [actCalcAssignStmt, actAssign, bind, StateT.bind, Except.bind, hop]
  cases hv : lval s with
  | error e => rfl
  | ok a =>
    simp only [hx s a.1 a.2 hv]

theorem settled_id (name : String) : Settled (fun s => .ok (.id name, s) : Eval ρ (Operand κ)) := by
  rintro s v t ⟨⟩
  rfl

variable (places depth)

/-- Every operator computes what its opcodes compute, shifts as long as the amount fits. -/
theorem operators_agree_iff :
    (∀ (s : SubstrateVars ρ) left right (op : BinaryOp) l r t, s.Sound →
      readOperands places depth left right s = .ok ((l, r), t) →
        ∃ c u, doBinaryOp places depth left right op.text s = .ok (.num c, u) ∧ s.SameVars u ∧
          (op.evm (t.word l) (t.word r) = some [u.word c] ↔ op.ShiftFits (t.word l) (t.word r))) ∧
      (∀ (s : SubstrateVars ρ) v (op : UnaryOp) p t, s.Sound →
        getUint256 places depth v s = .ok (p, t) →
          ∃ c u, doUnaryOp places depth v op s = .ok (.num c, u) ∧ s.SameVars u ∧
            op.evm (t.word p) = some [u.word c]) ∧
      (∀ name, Settled (fun s => .ok (.id name, s) : Eval ρ (Operand κ))) ∧
      ∀ lval : Eval ρ (Operand κ), Settled lval → ∀ expr, ∀ op ∈ [BinaryOp.add, .sub, .mul, .div],
        actCalcAssignStmt places depth lval expr (op.text ++ "=") =
          actAssign places depth lval lval expr op.text := by
  refine ⟨fun s left right op l r t hs h => ?_, fun s v op p t hs h => ?_, settled_id,
    fun lval hlval expr op hop => ?_⟩
  · obtain ⟨hsound, hsame⟩ := readOperands_sameVars hs h
    refine ⟨_, _, doBinaryOp_spec op h, hsame.trans (hsound.push _ t.rest).2, ?_⟩
    rw [t.word_push, op.evm_eq_apply_iff]
  · obtain ⟨hsound, hsame⟩ := getUint256_sameVars hs h
    refine ⟨_, _, doUnaryOp_spec op h, hsame.trans (hsound.push _ t.rest).2, ?_⟩
    rw [t.word_push]
    cases op <;> rfl
  · apply actCalcAssignStmt_eq_actAssign hlval
    simp only [List.mem_cons, List.not_mem_nil, or_false] at hop
    rcases hop with rfl | rfl | rfl | rfl <;> rfl

end

def noPlaces : Places Empty Unit := ⟨nofun, nofun⟩

/-- A frame with `x = 5`, and 3 in a cell of its own. -/
def fiveFrame : SubstrateVars Unit := ⟨[5, 3], fun name => if name = "x" then some 0 else none, ()⟩

theorem operators_agree_on_five :
    (∃ c u, doBinaryOp noPlaces 0 (.id "x") (.num 1) "<<" fiveFrame = .ok (.num c, u) ∧
      fiveFrame.SameVars u ∧ opSHL [3, 5] = some [u.word c]) ∧
    (∃ c u, doUnaryOp noPlaces 0 (.id "x") .not fiveFrame = .ok (.num c, u) ∧
      fiveFrame.SameVars u ∧ opIszero [5] = some [u.word c]) ∧
    actCalcAssignStmt noPlaces 0 (fun s => .ok (.id "x", s)) (fun s => .ok (.num 1, s)) "-=" =
      actAssign noPlaces 0 (fun s => .ok (.id "x", s)) (fun s => .ok (.id "x", s))
        (fun s => .ok (.num 1, s)) "-" := by
  have hs : fiveFrame.Sound := fun name p hp => by
    simp only [fiveFrame, Option.ite_none_right_eq_some, Option.some.injEq] at hp
    exact hp.2 ▸ Nat.two_pos
  obtain ⟨hbinary, hunary, hid, hassign⟩ := operators_agree_iff noPlaces 0
  obtain ⟨c, u, hop, hsame, hiff⟩ := hbinary _ (.id "x") (.num 1) .lsh 0 1 _ hs rfl
  obtain ⟨c', u', hop', hsame', hevm⟩ := hunary _ (.id "x") .not 0 _ hs rfl
  exact ⟨⟨c, u, hop, hsame, hiff.mpr (.inl (by decide))⟩, ⟨c', u', hop', hsame', hevm⟩,
    hassign _ (hid "x") _ .sub (by decide)⟩

def shiftFrame : SubstrateVars Unit := ⟨[1, 0x10000000000000000], fun _ => none, ()⟩

/-- `1 << 2^64` is 1, where `SHL` gives 0. -/
theorem shift_narrowed :
    doBinaryOp noPlaces 0 (.num 0) (.num 1) "<<" shiftFrame = .ok (.num 2, shiftFrame.push 1) ∧
      opSHL [0x10000000000000000, 1] = some [0] := by
  have hread : readOperands noPlaces 0 (.num 0) (.num 1) shiftFrame =
      .ok ((0, 1), shiftFrame) := rfl
  have hvalue : BinaryOp.lsh.apply (shiftFrame.word 0) (shiftFrame.word 1) = 1 := by decide
  constructor
  · exact (doBinaryOp_spec .lsh hread).trans (by rw [hvalue]; rfl)
  · decide

end EtherVal.Vm
