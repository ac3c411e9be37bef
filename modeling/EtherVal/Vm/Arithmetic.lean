import EtherVal.Vm.ExecRules
import EtherVal.Vm.EvmArithmetic

/-!
# TAC arithmetic against EVM arithmetic
-/

namespace EtherVal.Vm
open EtherVal.Lib EtherVal.TacParser

variable {σ : Type}

inductive ArithOp where
  | ADD | MUL | SUB | DIV | SDIV | MOD | SMOD | ADDMOD | MULMOD | EXP | SIGNEXTEND
  | LT | GT | SLT | SGT | EQ | ISZERO | AND | OR | XOR | NOT | BYTE | SHL | SHR | SAR
  deriving DecidableEq, Repr

namespace ArithOp

def tacOp : ArithOp → TACOp
  | ADD => .ADD | MUL => .MUL | SUB => .SUB | DIV => .DIV | SDIV => .SDIV | MOD => .MOD
  | SMOD => .SMOD | ADDMOD => .ADDMOD | MULMOD => .MULMOD | EXP => .EXP
  | SIGNEXTEND => .SIGNEXTEND | LT => .LT | GT => .GT | SLT => .SLT | SGT => .SGT | EQ => .EQ
  | ISZERO => .ISZERO | AND => .AND | OR => .OR | XOR => .XOR | NOT => .NOT | BYTE => .BYTE
  | SHL => .SHL | SHR => .SHR | SAR => .SAR

def evm : ArithOp → Stack → Option Stack
  | ADD => opAdd | MUL => opMul | SUB => opSub | DIV => opDiv | SDIV => opSdiv | MOD => opMod
  | SMOD => opSmod | ADDMOD => opAddmod | MULMOD => opMulmod | EXP => opExp
  | SIGNEXTEND => opSignExtend | LT => opLt | GT => opGt | SLT => opSlt | SGT => opSgt
  | EQ => opEq | ISZERO => opIszero | AND => opAnd | OR => opOr | XOR => opXor | NOT => opNot
  | BYTE => opByte | SHL => opSHL | SHR => opSHR | SAR => opSAR

def arity : ArithOp → Nat
  | ISZERO | NOT => 1
  | ADDMOD | MULMOD => 3
  | _ => 2

end ArithOp

structure Operands (m : Machine σ) (d : Nat) (rs : List Nat) : Prop where
  dest : m.operand 1 = .ok d
  args : ∀ i (h : i < rs.length), m.operand (2 + i) = .ok rs[i]

def MatchesEvm (x : Exec σ Ret) (evm : Stack → Option Stack) (m : Machine σ) (d : Nat)
    (rs : List Nat) (rest : Stack) : Prop :=
  ∃ m', x m = .ok (([], none), m') ∧ evm (rs.map m.val ++ rest) = some (m'.val d :: rest) ∧
    ∀ r, r ≠ d → m'.val r = m.val r

variable {m : Machine σ} {d : Nat} {rs : List Nat} {rest : Stack}

theorem matchesEvm_of_setReg {x : Exec σ Ret} {evm : Stack → Option Stack} {y : TACRegister}
    {n : Int} {w : Word} (hd : d < m.ctx.registers.length)
    (hx : x m = .ok (([], none), (m.setReg d y).advance n))
    (hevm : evm (rs.map m.val ++ rest) = some (w :: rest)) :
    MatchesEvm x evm m d rs rest ↔ y.val = w := by
  have hval : ∀ r, ((m.setReg d y).advance n).val r = if r = d then y.val else m.val r := by
    intro r
    rw [Machine.val_advance, Machine.val, Machine.reg_setReg m y hd]
    split <;> rfl
  constructor
  · rintro ⟨m', hm', hw, -⟩
    rw [hx, Except.ok.injEq, Prod.mk.injEq] at hm'
    obtain ⟨-, rfl⟩ := hm'
    rw [hevm, hval, if_pos rfl] at hw
    simpa using hw.symm
  · intro hy
    refine ⟨_, hx, ?_, ?_⟩
    · rw [hevm, hval, if_pos rfl, hy]
    · intro r hr
      rw [hval, if_neg hr]

theorem matchesEvm_binary {g g' : Word → Word → Word} (h : Operands m d rs) (hlen : rs.length = 2) :
    MatchesEvm (execBinary g) (evmBinary g') m d rs rest ↔
      g (m.val (rs.getD 0 0)) (m.val (rs.getD 1 0)) =
        g' (m.val (rs.getD 0 0)) (m.val (rs.getD 1 0)) := by
  obtain ⟨a, b, rfl⟩ := List.length_eq_two.mp hlen
  have hx := (execBinary_eq_ok (g := g)).mpr
    ⟨d, a, b, h.dest, h.args 0 (by simp), h.args 1 (by simp), rfl, rfl⟩
  exact matchesEvm_of_setReg (Machine.operand_lt h.dest) hx rfl

theorem matchesEvm_ternary {g g' : Word → Word → Word → Word} (h : Operands m d rs)
    (hlen : rs.length = 3) (hg : ∀ x y z, g x y z = g' x y z) :
    MatchesEvm (execTernary g) (evmTernary g') m d rs rest := by
  obtain ⟨a, b, c, rfl⟩ := List.length_eq_three.mp hlen
  have hx := (execTernary_eq_ok (g := g)).mpr ⟨d, a, b, c, h.dest, h.args 0 (by simp),
    h.args 1 (by simp), h.args 2 (by simp), rfl, rfl⟩
  exact (matchesEvm_of_setReg (Machine.operand_lt h.dest) hx rfl).mpr (hg _ _ _)

theorem matchesEvm_iszero (h : Operands m d rs) (hlen : rs.length = 1) :
    MatchesEvm execIszero opIszero m d rs rest := by
  obtain ⟨a, rfl⟩ := List.length_eq_one_iff.mp hlen
  have hx : execIszero m =
      .ok (([], none), (m.assign d (boolWord (Uint256.isZero (m.val a)))).advance 3) :=
    execUnary_eq_ok.mpr ⟨d, a, _, m, h.dest, h.args 0 (by simp), rfl, rfl, rfl⟩
  exact (matchesEvm_of_setReg (Machine.operand_lt h.dest) hx rfl).mpr rfl

theorem matchesEvm_not (h : Operands m d rs) (hlen : rs.length = 1) :
    MatchesEvm execNot opNot m d rs rest := by
  obtain ⟨a, rfl⟩ := List.length_eq_one_iff.mp hlen
  have hx := execNot_eq_ok.mpr ⟨d, a, h.dest, h.args 0 (by simp), rfl, rfl⟩
  exact (matchesEvm_of_setReg (Machine.operand_lt h.dest) hx rfl).mpr rfl

theorem mulmod_eq (x y z : Word) :
    (if Uint256.isZero z then Uint256.clear else Uint256.mulMod x y z) = Uint256.mulMod x y z := by
  by_cases hz : z = 0
  · subst hz
    rfl
  · simp only [Uint256.isZero, hz, decide_false, Bool.false_eq_true, if_false]

theorem sar_eq_iff (shift value : Word) :
    ((if Uint256.gtUint64 shift 256 then
        if 0 < Uint256.sign value then Uint256.clear else Uint256.setAllOne
      else Uint256.srsh value (Uint256.uint64 shift)) =
      (if Uint256.gtUint64 shift 256 then
        if 0 ≤ Uint256.sign value then Uint256.clear else Uint256.setAllOne
      else Uint256.srsh value (Uint256.uint64 shift))) ↔
      ¬ (256 < shift.toNat ∧ value = 0) := by
  by_cases hs : 256 < shift.toNat
  · simp only [Uint256.gtUint64, hs, decide_true, if_true, true_and]
    by_cases hv : value = 0
    · subst hv
      simp [Uint256.sign, Uint256.clear, Uint256.setAllOne]
    · simp only [Uint256.sign, hv, not_false_eq_true, iff_true]
      cases value.msb <;> simp
  · simp [Uint256.gtUint64, hs]

/-- Every arithmetic instruction leaves what the EVM opcode pushes, except `SAR` of zero by
more than 256 bits. -/
theorem arith_matchesEvm_iff (host : Host σ) (run : Runner σ) (op : ArithOp) (m : Machine σ)
    (d : Nat) (rs : List Nat) (rest : Stack) (h : Operands m d rs) (hlen : rs.length = op.arity) :
    MatchesEvm (execution host run op.tacOp) op.evm m d rs rest ↔
      ¬ (op = .SAR ∧ 256 < (m.val (rs.getD 0 0)).toNat ∧ m.val (rs.getD 1 0) = 0) := by
  cases op
  case SAR =>
    refine (matchesEvm_binary h hlen).trans ((sar_eq_iff _ _).trans ?_)
    simp only [true_and]
  case ISZERO => exact iff_of_true (matchesEvm_iszero h hlen) (by simp)
  case NOT => exact iff_of_true (matchesEvm_not h hlen) (by simp)
  case ADDMOD => exact iff_of_true (matchesEvm_ternary h hlen fun _ _ _ => rfl) (by simp)
  case MULMOD => exact iff_of_true (matchesEvm_ternary h hlen mulmod_eq) (by simp)
  all_goals exact iff_of_true ((matchesEvm_binary h hlen).mpr rfl) (by simp)

def binaryMachine (op : ArithOp) (x y : Word) : Machine Unit where
  pc := 0
  engine := default
  ctx := { registers := [{}, { val := x }, { val := y }],
           function := { insts := [op.tacOp.code, 0, 1, 2] } }

theorem operands_binaryMachine (op : ArithOp) (x y : Word) :
    Operands (binaryMachine op x y) 0 [1, 2] where
  dest := rfl
  args := by
    intro i h
    match i, h with
    | 0, _ => rfl
    | 1, _ => rfl

theorem arith_matchesEvm_sub :
    MatchesEvm (execution default (executeFunc default 0) ArithOp.SUB.tacOp) ArithOp.SUB.evm
      (binaryMachine .SUB 2 3) 0 [1, 2] [] :=
  (arith_matchesEvm_iff default _ .SUB _ 0 [1, 2] [] (operands_binaryMachine .SUB 2 3) rfl).mpr
    (by decide)

/-- Zero shifted right by 257: the EVM gives 0, `exec_sar` all ones. -/
theorem sar_zero_not_matchesEvm :
    Operands (binaryMachine .SAR 257 0) 0 [1, 2] ∧
    ¬ MatchesEvm (execution default (executeFunc default 0) ArithOp.SAR.tacOp) ArithOp.SAR.evm
      (binaryMachine .SAR 257 0) 0 [1, 2] [] := by
  have h := operands_binaryMachine .SAR 257 0
  refine ⟨h, fun hm => ?_⟩
  have heq := (matchesEvm_binary h rfl).mp hm
  exact absurd heq (by decide)

end EtherVal.Vm
