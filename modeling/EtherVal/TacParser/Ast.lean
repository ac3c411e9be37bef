import EtherVal.Lib.Go

/-!
# The CFG-like form of TAC text (`tac_parser/parser.go`, `tac_parser/lexer.go`)

Token kinds, the syntax tree the parser builds and the base address of a block name.
-/

namespace EtherVal.TacParser
open EtherVal.Lib

variable {name : GoString}

/-- The token kinds in the order of `lexer.go`; the parser compares them by that order. -/
inductive TokenType where
  | EOF | HEX_NUM | IDENT
  | COMMA | SEMI_COLON | RIGHT_ARROW | LEFT_BRAC | RIGHT_BRAC | LEFT_PAREN | RIGHT_PAREN
  | LEFT_SQUARE_BRAC | RIGHT_SQUARE_BRAC | ASSIGN
  | FUNCTION | PRIVATE | PUBLIC | PREV | SUCC | BEGIN | BLOCK
  | CONST | THROW | STOP | ADDRESS | ORIGIN | CALLER | CALLVALUE | CALLDATASIZE | CODESIZE
  | GASPRICE | RETURNDATASIZE | COINBASE | TIMESTAMP | NUMBER | DIFFICULTY | GASLIMIT
  | MSIZE | GAS | CHAINID | SELFBALANCE
  | ISZERO | BALANCE | CALLDATALOAD | EXTCODESIZE | EXTCODEHASH | BLOCKHASH | MLOAD | SLOAD
  | JUMP | SELFDESTRUCT | NOT
  | ADD | MUL | SUB | DIV | SDIV | MOD | SMOD | ADDMOD | MULMOD | EXP | SIGNEXTEND
  | LT | GT | SLT | SGT | EQ | AND | OR | XOR | BYTE | SHL | SHR | SAR | SHA3
  | MSTORE | MSTORE8 | SSTORE | JUMPI | REVERT | RETURN | LOG0
  | CALLDATACOPY | CODECOPY | RETURNDATACOPY | LOG1 | CREATE
  | PHI | EXTCODECOPY | LOG2 | LOG3 | LOG4 | CALL | CALLCODE | DELEGATECALL | CREATE2
  | STATICCALL | CALLPRIVATE | RETURNPRIVATE
  | ILLPHI | ILLPHI1 | ILLPHI2 | ILLPHI3 | ILLPHI4 | ILLPHI5
  deriving DecidableEq, Repr

inductive VarType where
  | CONSTANT | VARIABLE
  deriving DecidableEq, Repr

structure AstVariable where
  name : GoString
  val : GoString := []
  typ : VarType
  deriving DecidableEq, Repr

structure AstStatement where
  name : GoString := []
  address : GoString
  operation : TokenType
  args : List AstVariable := []
  numAssignee : Nat := 0
  blockName : GoString
  patchReorder : Bool := false
  deriving DecidableEq, Repr

structure AstBlock where
  name : GoString
  address : GoString
  predecessor : List GoString
  successor : List GoString
  statements : List AstStatement
  deriving DecidableEq, Repr

structure AstFunction where
  name : GoString
  args : List GoString
  blocks : List AstBlock
  isPublic : Bool
  deriving DecidableEq, Repr

/-- The first block of that name; the source returns `nil` when there is none. -/
def AstFunction.getBlock (f : AstFunction) (name : GoString) : Option AstBlock :=
  f.blocks.find? (fun b => b.name = name)

structure AstProgram where
  functions : List AstFunction
  deriving DecidableEq, Repr

theorem AstFunction.getBlock_name {f : AstFunction} {b : AstBlock} (h : f.getBlock name = some b) :
    b.name = name := by
  simpa using List.find?_some h

theorem AstFunction.getBlock_mem {f : AstFunction} {b : AstBlock} (h : f.getBlock name = some b) :
    b ∈ f.blocks :=
  List.mem_of_find?_eq_some h

/-- The address part of a block name without the check that it starts with `0x`. -/
def baseAddrText (name : GoString) : GoString :=
  "0x".toList ++ GoString.beforeFirst "_".toList (GoString.beforeFirst "0x".toList
    (GoString.beforeFirst "B".toList (name.drop 2)))

/-- `BaseAddr` (`parser.go:318`): block names are `{address}` followed by a suffix that
starts with `B`, `0x` or `_`. -/
def baseAddr (name : GoString) : Except GoPanic GoString :=
  if "0x".toList.isPrefixOf name then .ok (baseAddrText name)
  else .error (.text "BaseAddr assumes address name string starts with 0x".toList)

def equalBaseAddr (n1 n2 : GoString) : Except GoPanic Bool := do
  let a1 ← baseAddr n1
  let a2 ← baseAddr n2
  return a1 = a2

theorem baseAddr_ok {a : GoString} (h : baseAddr name = .ok a) : a = baseAddrText name := by
  unfold baseAddr at h
  split at h
  · exact (Except.ok.inj h).symm
  · cases h

theorem baseAddrText_prefix (h : "0x".toList <+: name) :
    baseAddrText name <+: name := by
  obtain ⟨rest, rfl⟩ := h
  have hd : ("0x".toList ++ rest).drop 2 = rest := rfl
  simp only [baseAddrText, hd]
  refine (List.prefix_append_right_inj _).mpr ?_
  exact ((GoString.beforeFirst_prefix _ _).trans (GoString.beforeFirst_prefix _ _)).trans
    (GoString.beforeFirst_prefix _ _)

theorem baseAddrText_eq_self {digits : GoString} (hB : 'B' ∉ digits) (hx : 'x' ∉ digits)
    (hu : '_' ∉ digits) : baseAddrText ("0x".toList ++ digits) = "0x".toList ++ digits := by
  have hd : ("0x".toList ++ digits).drop 2 = digits := rfl
  have h1 : GoString.beforeFirst "B".toList digits = digits :=
    GoString.beforeFirst_eq_self fun h => hB (h.subset (by simp))
  have h2 : GoString.beforeFirst "0x".toList digits = digits :=
    GoString.beforeFirst_eq_self fun h => hx (h.subset (by simp))
  have h3 : GoString.beforeFirst "_".toList digits = digits :=
    GoString.beforeFirst_eq_self fun h => hu (h.subset (by simp))
  rw [baseAddrText, hd, h1, h2, h3]

theorem baseAddrText_idem (name : GoString) :
    baseAddrText (baseAddrText name) = baseAddrText name := by
  set w1 := GoString.beforeFirst "B".toList (name.drop 2) with hw1
  set w2 := GoString.beforeFirst "0x".toList w1 with hw2
  set w3 := GoString.beforeFirst "_".toList w2 with hw3
  have hp2 : w2 <+: w1 := GoString.beforeFirst_prefix _ _
  have hp3 : w3 <+: w2 := GoString.beforeFirst_prefix _ _
  have h1 : GoString.beforeFirst "B".toList w3 = w3 :=
    GoString.beforeFirst_eq_self fun h => GoString.not_infix_beforeFirst (by decide) _
      (h.trans (hp3.trans hp2).isInfix)
  have h2 : GoString.beforeFirst "0x".toList w3 = w3 :=
    GoString.beforeFirst_eq_self fun h => GoString.not_infix_beforeFirst (by decide) _
      (h.trans hp3.isInfix)
  have h3 : GoString.beforeFirst "_".toList w3 = w3 :=
    GoString.beforeFirst_eq_self (GoString.not_infix_beforeFirst (by decide) _)
  have hname : baseAddrText name = "0x".toList ++ w3 := rfl
  have hd : ("0x".toList ++ w3).drop 2 = w3 := rfl
  rw [hname, baseAddrText, hd, h1, h2, h3]

theorem hex_prefix_baseAddrText (name : GoString) : "0x".toList <+: baseAddrText name :=
  List.prefix_append _ _

end EtherVal.TacParser
