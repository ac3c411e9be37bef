import EtherVal.Lib.GoMap
import EtherVal.Lib.Uint256
import EtherVal.TacParser.Ast

/-!
# Linear TAC programs (`tac_parser/transformer.go`)

The form the interpreter runs: for each function one list of cells that holds opcodes,
register numbers, counts and code positions.
-/

namespace EtherVal.TacParser
open EtherVal.Lib

/-- The opcodes; a cell holds the position of the opcode in this list. -/
inductive TACOp where
  | THROW | STOP | ADDRESS | ORIGIN | CALLER | CALLVALUE | CALLDATASIZE | CODESIZE | GASPRICE
  | RETURNDATASIZE | COINBASE | TIMESTAMP | NUMBER | DIFFICULTY | GASLIMIT | MSIZE | GAS
  | CHAINID | SELFBALANCE | BLOCK_FLAG | PHI_END
  | ISZERO | BALANCE | CALLDATALOAD | EXTCODESIZE | EXTCODEHASH | BLOCKHASH | MLOAD | SLOAD
  | JUMP | SELFDESTRUCT | NOT | PHI_START | CONST | JUMP_VAR
  | ADD | MUL | SUB | DIV | SDIV | MOD | SMOD | ADDMOD | MULMOD | EXP | SIGNEXTEND | LT | GT
  | SLT | SGT | EQ | AND | OR | XOR | BYTE | SHL | SHR | SAR | SHA3 | MSTORE | MSTORE8 | SSTORE
  | JUMPI | REVERT | RETURN | LOG0 | JUMPI_VAR
  | CALLDATACOPY | CODECOPY | RETURNDATACOPY | LOG1
  | CREATE | EXTCODECOPY | LOG2
  | LOG3 | CREATE2
  | LOG4
  | DELEGATECALL | STATICCALL
  | CALL | CALLCODE
  | PHI | CALLPRIVATE | RETURNPRIVATE | ILLPHI
  deriving DecidableEq, Repr

namespace TACOp

def code (op : TACOp) : Int := op.ctorIdx

def all : List TACOp := [
  THROW, STOP, ADDRESS, ORIGIN, CALLER, CALLVALUE, CALLDATASIZE, CODESIZE, GASPRICE,
  RETURNDATASIZE, COINBASE, TIMESTAMP, NUMBER, DIFFICULTY, GASLIMIT, MSIZE, GAS,
  CHAINID, SELFBALANCE, BLOCK_FLAG, PHI_END,
  ISZERO, BALANCE, CALLDATALOAD, EXTCODESIZE, EXTCODEHASH, BLOCKHASH, MLOAD, SLOAD,
  JUMP, SELFDESTRUCT, NOT, PHI_START, CONST, JUMP_VAR,
  ADD, MUL, SUB, DIV, SDIV, MOD, SMOD, ADDMOD, MULMOD, EXP, SIGNEXTEND, LT, GT,
  SLT, SGT, EQ, AND, OR, XOR, BYTE, SHL, SHR, SAR, SHA3, MSTORE, MSTORE8, SSTORE,
  JUMPI, REVERT, RETURN, LOG0, JUMPI_VAR,
  CALLDATACOPY, CODECOPY, RETURNDATACOPY, LOG1,
  CREATE, EXTCODECOPY, LOG2,
  LOG3, CREATE2,
  LOG4,
  DELEGATECALL, STATICCALL,
  CALL, CALLCODE,
  PHI, CALLPRIVATE, RETURNPRIVATE, ILLPHI]

def ofCode : Int → Option TACOp
  | .ofNat n => all[n]?
  | .negSucc _ => none

theorem ofCode_code (op : TACOp) : ofCode op.code = some op := by
  cases op <;> rfl

theorem code_injective {a b : TACOp} (h : a.code = b.code) : a = b := by
  have hs : some a = some b := by rw [← ofCode_code a, ← ofCode_code b, h]
  exact Option.some.inj hs

end TACOp

structure ConstSymPair where
  index : Nat
  value : Word
  deriving DecidableEq, Repr

structure TACFunction where
  insts : List Int := []
  constSym : List ConstSymPair := []
  args : List Nat := []
  isPublic : Bool := false
  numVars : Nat := 0
  name : GoString := []
  /- block name to position in `insts`, and back -/
  blockByName : GoMap GoString Int := ∅
  blockByIndex : GoMap Int GoString := ∅
  /- base address to position, when only one block has it -/
  uniqueBlockAddr : GoMap GoString Int := ∅
  uniqueJumpVarSucc : GoMap Int (List GoString) := ∅
  variableEncoding : GoMap GoString Nat := ∅
  ambiguousJumpAddr : GoMap Int Bool := ∅
  variableBlock : GoMap GoString GoString := ∅
  ambiguousPhiAddr : GoMap Int Bool := ∅
  reorderConstAddr : GoMap Int Bool := ∅
  reorderPhiAddr : GoMap Int Bool := ∅
  fallthroughStopAddr : GoMap Int Bool := ∅
  fallthroughJumpAddr : GoMap Int Bool := ∅
  fallthroughThrowAddr : GoMap Int Bool := ∅
  ambiguousPhiChoice : GoMap Int (GoMap Int Bool) := ∅
  /- the statements of jumps whose destination cell is filled in later -/
  bookkeeping : GoMap Int AstStatement := ∅

/-- `function.Insts[pc]` as a read that may be out of range. -/
def TACFunction.cell (f : TACFunction) (pc : Int) : Except GoPanic Int :=
  match pc with
  | .ofNat n => match f.insts[n]? with
    | some c => .ok c
    | none => .error .indexOutOfRange
  | .negSucc _ => .error .indexOutOfRange

theorem TACFunction.cell_eq_ok {f : TACFunction} {pc c : Int} :
    f.cell pc = .ok c ↔ 0 ≤ pc ∧ f.insts[pc.toNat]? = some c := by
  cases pc with
  | negSucc n => simp [cell]
  | ofNat n =>
    simp only [cell, Int.ofNat_eq_natCast, Int.natCast_nonneg, Int.toNat_natCast, true_and]
    cases f.insts[n]? with
    | none => simp
    | some d => simp

def TACFunction.HasCells (f : TACFunction) (pc : Int) (cells : List Int) : Prop :=
  ∀ (i : Nat) (c : Int), cells[i]? = some c → f.cell (pc + i) = .ok c

namespace TACFunction.HasCells
variable {f : TACFunction} {pc c : Int} {cells cells' : List Int}

theorem cons_iff :
    f.HasCells pc (c :: cells) ↔ f.cell pc = .ok c ∧ f.HasCells (pc + 1) cells := by
  constructor
  · intro h
    refine ⟨by simpa using h 0 c rfl, fun i d hd => ?_⟩
    have hi := h (i + 1) d (by simpa using hd)
    rwa [Nat.cast_succ, add_comm (i : Int), ← add_assoc] at hi
  · rintro ⟨h0, h⟩ i d hd
    cases i with
    | zero =>
      obtain rfl : c = d := by simpa using hd
      simpa using h0
    | succ i =>
      rw [Nat.cast_succ, add_comm (i : Int), ← add_assoc]
      exact h i d (by simpa using hd)

theorem append_iff :
    f.HasCells pc (cells ++ cells') ↔
      f.HasCells pc cells ∧ f.HasCells (pc + cells.length) cells' := by
  induction cells generalizing pc with
  | nil => simp [HasCells]
  | cons d cells ih =>
    rw [List.cons_append, cons_iff, cons_iff, ih, and_assoc, List.length_cons, Nat.cast_succ,
      add_assoc pc 1, add_comm (1 : Int)]

theorem head (h : f.HasCells pc (c :: cells)) : f.cell pc = .ok c := (cons_iff.mp h).1

theorem tail (h : f.HasCells pc (c :: cells)) : f.HasCells (pc + 1) cells := (cons_iff.mp h).2

end TACFunction.HasCells

structure TACProgram where
  functions : List TACFunction
  functionEncoding : GoMap GoString Nat
  deriving Inhabited

/-- `prog.Entry`, the function at index 0. -/
def TACProgram.entry (prog : TACProgram) : Option TACFunction := prog.functions.head?

end EtherVal.TacParser
