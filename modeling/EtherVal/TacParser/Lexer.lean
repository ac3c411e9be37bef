import EtherVal.TacParser.Ast

/-!
# The lexer (`tac_parser/lexer.go`)

The lexer reads one byte at a time.  A byte above 127 is never a delimiter, so it only
ever lengthens the current word.  `peek` reads a byte and gives it back.
-/

namespace EtherVal.TacParser
open EtherVal.Lib

structure Token where
  typ : TokenType
  val : GoString
  pos : Nat
  line : Nat
  deriving DecidableEq, Repr

def Token.string (tok : Token) : GoString :=
  (match tok.typ with
    | .IDENT => "IDENT: ".toList
    | .HEX_NUM => "HEX: ".toList
    | _ => []) ++
  tok.val ++ " at ".toList ++ GoString.itoa tok.line ++ ":".toList ++ GoString.itoa tok.pos

def keywords : List (String × TokenType) := [
  ("FUNCTION", .FUNCTION), ("PRIVATE", .PRIVATE), ("PUBLIC", .PUBLIC), ("PREV", .PREV),
  ("SUCC", .SUCC), ("BEGIN", .BEGIN), ("BLOCK", .BLOCK), ("STOP", .STOP), ("ADD", .ADD),
  ("MUL", .MUL), ("SUB", .SUB), ("DIV", .DIV), ("SDIV", .SDIV), ("MOD", .MOD),
  ("SMOD", .SMOD), ("ADDMOD", .ADDMOD), ("MULMOD", .MULMOD), ("EXP", .EXP),
  ("SIGNEXTEND", .SIGNEXTEND), ("LT", .LT), ("GT", .GT), ("SLT", .SLT), ("SGT", .SGT),
  ("EQ", .EQ), ("ISZERO", .ISZERO), ("AND", .AND), ("OR", .OR), ("XOR", .XOR),
  ("NOT", .NOT), ("BYTE", .BYTE), ("SHL", .SHL), ("SHR", .SHR), ("SAR", .SAR),
  ("SHA3", .SHA3), ("ADDRESS", .ADDRESS), ("BALANCE", .BALANCE), ("ORIGIN", .ORIGIN),
  ("CALLER", .CALLER), ("CALLVALUE", .CALLVALUE), ("CALLDATALOAD", .CALLDATALOAD),
  ("CALLDATASIZE", .CALLDATASIZE), ("CALLDATACOPY", .CALLDATACOPY),
  ("CODESIZE", .CODESIZE), ("CODECOPY", .CODECOPY), ("GASPRICE", .GASPRICE),
  ("EXTCODESIZE", .EXTCODESIZE), ("EXTCODECOPY", .EXTCODECOPY),
  ("RETURNDATASIZE", .RETURNDATASIZE), ("RETURNDATACOPY", .RETURNDATACOPY),
  ("EXTCODEHASH", .EXTCODEHASH), ("BLOCKHASH", .BLOCKHASH), ("COINBASE", .COINBASE),
  ("TIMESTAMP", .TIMESTAMP), ("NUMBER", .NUMBER), ("DIFFICULTY", .DIFFICULTY),
  ("GASLIMIT", .GASLIMIT), ("MLOAD", .MLOAD), ("MSTORE", .MSTORE), ("MSTORE8", .MSTORE8),
  ("SLOAD", .SLOAD), ("SSTORE", .SSTORE), ("JUMP", .JUMP), ("JUMPI", .JUMPI),
  ("MSIZE", .MSIZE), ("GAS", .GAS), ("CHAINID", .CHAINID), ("SELFBALANCE", .SELFBALANCE),
  ("LOG0", .LOG0), ("LOG1", .LOG1), ("LOG2", .LOG2), ("LOG3", .LOG3), ("LOG4", .LOG4),
  ("CREATE", .CREATE), ("CALL", .CALL), ("CALLCODE", .CALLCODE), ("RETURN", .RETURN),
  ("DELEGATECALL", .DELEGATECALL), ("CREATE2", .CREATE2), ("STATICCALL", .STATICCALL),
  ("REVERT", .REVERT), ("SELFDESTRUCT", .SELFDESTRUCT), ("CONST", .CONST),
  ("THROW", .THROW), ("PHI", .PHI), ("RETURNPRIVATE", .RETURNPRIVATE),
  ("CALLPRIVATE", .CALLPRIVATE), ("ILL_PHI", .ILLPHI), ("ILLPHI1", .ILLPHI1),
  ("ILLPHI2", .ILLPHI2), ("ILLPHI3", .ILLPHI3), ("ILLPHI4", .ILLPHI4),
  ("ILLPHI5", .ILLPHI5)]

def keyword (str : GoString) : Option TokenType :=
  (keywords.find? (fun kw => kw.1.toList = str)).map Prod.snd

def delimiters (r : Char) : Option TokenType :=
  match r.toNat with
  | 0x7b => some .LEFT_BRAC
  | 0x7d => some .RIGHT_BRAC
  | 0x5b => some .LEFT_SQUARE_BRAC
  | 0x5d => some .RIGHT_SQUARE_BRAC
  | 0x2c => some .COMMA
  | 0x3a => some .SEMI_COLON
  | 0x28 => some .LEFT_PAREN
  | 0x29 => some .RIGHT_PAREN
  | 0x3d => some .ASSIGN
  | _ => none

def isSpace (r : Char) : Bool := r = ' ' || r = '\t' || r = '\r' || r = '\n'

def isDelimiter (r : Char) : Bool := (delimiters r).isSome || r = '-' || isSpace r

def isHex (str : GoString) : Bool :=
  GoString.hasPrefix str "0X".toList &&
    (str.drop 2).all (fun c => "1234567890ABCDEF".toList.contains c)

/-- The lexer state: `rest` is the unread input, `content` what lies between `start` and
`cur`. -/
structure Lexer where
  rest : GoString
  content : GoString := []
  width : Nat := 0
  line : Nat := 1
  deriving DecidableEq, Repr

namespace Lexer

/-- `next`; `none` stands for `EOF`, which leaves the lexer where it is. -/
def next (l : Lexer) : Option Char × Lexer :=
  match l.rest with
  | [] => (none, l)
  | r :: rest =>
    (some r, { rest, content := l.content ++ [r],
               width := if r = '\n' then 0 else l.width + 1,
               line := if r = '\n' then l.line + 1 else l.line })

def peek (l : Lexer) : Option Char := l.rest.head?

def emit (l : Lexer) (t : TokenType) : Token × Lexer :=
  (⟨t, l.content, l.width, l.line⟩, { l with content := [] })

def emitIgnore (l : Lexer) : Lexer := { l with content := [] }

/-- Calls of `next` while the condition holds of the next byte; no newline meets the two
conditions in use. -/
def nextWhile (p : Char → Bool) (l : Lexer) : Lexer :=
  let word := l.rest.takeWhile p
  { l with rest := l.rest.dropWhile p, content := l.content ++ word,
           width := l.width + word.length }

def emitWord (l : Lexer) : List Token × Lexer :=
  let str := GoString.toUpper l.content
  match keyword str with
  | some tok => let (t, l) := l.emit tok; ([t], l)
  | none =>
    if isHex str then let (t, l) := l.emit .HEX_NUM; ([t], l)
    else if 0 < str.length then let (t, l) := l.emit .IDENT; ([t], l)
    else ([], l)

/-- The delimiter `r` has just been read.  A run of two or more `=` is a horizontal line
and is dropped, a lone `-` ends the scan. -/
def emitDelimiter (r : Option Char) (l : Lexer) : List Token × Lexer × Bool :=
  if r = some '=' ∧ l.peek = some '=' then
    ([], (l.nextWhile (fun c => c = '=')).emitIgnore, true)
  else if r = some '-' ∧ l.peek = some '>' then
    let (t, l) := l.next.2.emit .RIGHT_ARROW
    ([t], l, true)
  else
    match r.bind delimiters, r with
    | some tok, _ => let (t, l) := l.emit tok; ([t], l, true)
    | none, none => ([], l, false)
    | none, some c => if isSpace c then ([], l.emitIgnore, true) else ([], l, false)

/-- `scanUntilDelimeter` (`lexer.go:277`): the tokens emitted and whether to go on. -/
def scanUntilDelimeter (l : Lexer) : List Token × Lexer × Bool :=
  let (word, l) := (l.nextWhile (fun c => !isDelimiter c)).emitWord
  let (r, l) := l.next
  let (delim, l, continues) := l.emitDelimiter r
  (word ++ delim, l, continues)

/-- `run`: every round that goes on has read a byte, so the input length bounds them. -/
def run : Nat → Lexer → List Token
  | 0, _ => []
  | fuel + 1, l =>
    let (toks, l, continues) := l.scanUntilDelimeter
    toks ++ if continues then run fuel l else []

/-! ### The rounds of `run` end -/

theorem emitWord_rest (l : Lexer) : l.emitWord.2.rest = l.rest := by
  unfold emitWord
  dsimp only
  split
  · rfl
  · split
    · rfl
    · split <;> rfl

theorem nextWhile_rest_le (p : Char → Bool) (l : Lexer) :
    (l.nextWhile p).rest.length ≤ l.rest.length :=
  (List.dropWhile_suffix p).length_le

theorem next_rest_le (l : Lexer) : l.next.2.rest.length ≤ l.rest.length := by
  unfold next
  split
  · exact le_rfl
  · next h => simp [h]

theorem next_rest_lt {l : Lexer} {r : Char} (h : l.next.1 = some r) :
    l.next.2.rest.length < l.rest.length := by
  unfold next at h ⊢
  split at h
  · cases h
  · next hr => simp [hr]

theorem emitDelimiter_rest_le (r : Option Char) (l : Lexer) :
    (l.emitDelimiter r).2.1.rest.length ≤ l.rest.length := by
  unfold emitDelimiter
  split
  · exact nextWhile_rest_le _ l
  · split
    · exact next_rest_le l
    · cases r with
      | none => exact le_rfl
      | some c =>
        cases hd : delimiters c with
        | some tok => simp [hd, emit]
        | none =>
          by_cases hs : isSpace c = true
          · simp [hd, hs, emitIgnore]
          · simp [hd, hs]

theorem emitDelimiter_none (l : Lexer) : (l.emitDelimiter none).2.2 = false := by
  simp [emitDelimiter]

theorem scanUntilDelimeter_rest_lt (l : Lexer) (h : l.scanUntilDelimeter.2.2 = true) :
    l.scanUntilDelimeter.2.1.rest.length < l.rest.length := by
  have hword : (l.nextWhile (fun c => !isDelimiter c)).emitWord.2.rest.length ≤ l.rest.length := by
    rw [emitWord_rest]
    exact nextWhile_rest_le _ l
  simp only [scanUntilDelimeter] at h ⊢
  set w := (l.nextWhile (fun c => !isDelimiter c)).emitWord.2 with hw
  cases hr : w.next.1 with
  | none =>
    rw [hr, emitDelimiter_none] at h
    cases h
  | some r =>
    have h1 := next_rest_lt hr
    have h2 := emitDelimiter_rest_le (some r) w.next.2
    exact h2.trans_lt (h1.trans_le hword)

theorem run_fuel (fuel : Nat) (l : Lexer) (h : l.rest.length < fuel) :
    run fuel l = run (l.rest.length + 1) l := by
  induction fuel using Nat.strong_induction_on generalizing l with
  | _ fuel ih =>
    obtain ⟨fuel, rfl⟩ : ∃ k, fuel = k + 1 := ⟨fuel - 1, by omega⟩
    simp only [run]
    cases hc : l.scanUntilDelimeter.2.2 with
    | false => simp
    | true =>
      have hlt := scanUntilDelimeter_rest_lt l hc
      have h1 := ih fuel (by omega) l.scanUntilDelimeter.2.1 (by omega)
      rcases Nat.lt_or_ge l.rest.length fuel with hf | hf
      · have h2 := ih l.rest.length (by omega) l.scanUntilDelimeter.2.1 (by omega)
        simp only [if_true, h1, h2]
      · have he : fuel = l.rest.length := by omega
        rw [he]

end Lexer

def lex (input : GoString) : List Token := Lexer.run (input.length + 1) { rest := input }

end EtherVal.TacParser
