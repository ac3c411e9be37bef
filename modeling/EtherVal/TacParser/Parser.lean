import EtherVal.TacParser.Lexer

/-!
# The parser (`tac_parser/parser.go`)

The parser state is the list of tokens not yet read.  A loop of the source that goes round
more often than there are tokens never ends; only the signature loop of `parse_function`
can do that.
-/

namespace EtherVal.TacParser
open EtherVal.Lib

inductive ParseFailure where
  | panic (p : GoPanic)
  | diverges
  deriving DecidableEq, Repr

abbrev Parse (α : Type) := StateT (List Token) (Except ParseFailure) α

namespace Parse

def panicWith {α : Type} (msg : GoString) : Parse α := throw (.panic (.text msg))

def eofToken : Token := ⟨.EOF, [], 0, 0⟩

/-- `next`; at the end of the tokens it returns the `EOF` token and `false`. -/
def next : Parse (Token × Bool) := fun toks =>
  match toks with
  | [] => .ok ((eofToken, false), [])
  | tok :: rest => .ok ((tok, true), rest)

def peek : Parse (Token × Bool) := fun toks =>
  .ok ((toks.headD eofToken, !toks.isEmpty), toks)

def expect (expected : List TokenType) : Parse Token := do
  let (tok, ok) ← next
  if !ok then panicWith "No more token".toList
  else if expected.contains tok.typ then return tok
  else panicWith ("Unexpected ".toList ++ tok.string)

/-- `for next, ok := p.peek(0); cond; next, ok = p.peek(0) { body }` -/
def loopFrom {β : Type} (cond : Token → Bool → Bool) (body : β → Parse β) : Nat → β → Parse β
  | 0, _ => throw .diverges
  | fuel + 1, acc => do
    let (tok, ok) ← peek
    if cond tok ok then
      let acc ← body acc
      loopFrom cond body fuel acc
    else return acc

def loopWhile {β : Type} (cond : Token → Bool → Bool) (body : β → Parse β) (acc : β) :
    Parse β := do
  loopFrom cond body ((← get).length + 1) acc

def liftGo {α : Type} (x : Except GoPanic α) : Parse α :=
  match x with
  | .ok a => pure a
  | .error p => throw (.panic p)

end Parse

open Parse

/-- `parse_list`: elements between `start` and `stop`, separated by commas. -/
def parseList (start stop : TokenType) (argTypes : List TokenType) : Parse (List GoString) := do
  let _ ← expect [start]
  let argumentList ← loopWhile (fun tok ok => ok && tok.typ != stop) (fun acc => do
    let tok ← expect argTypes
    let (following, ok) ← peek
    if ok && following.typ != stop then
      let _ ← expect [.COMMA]
    return acc ++ [tok.val]) []
  let _ ← expect [stop]
  return argumentList

def parseVariable : Parse AstVariable := do
  let name ← expect [.IDENT]
  let (tok, _) ← peek
  if tok.typ = .LEFT_PAREN then
    let _ ← expect [.LEFT_PAREN]
    let val ← expect [.HEX_NUM]
    let _ ← expect [.RIGHT_PAREN]
    return { name := name.val, val := val.val, typ := .CONSTANT }
  return { name := name.val, typ := .VARIABLE }

/-- `parse_operation`; the flag says that the operation takes no further arguments. -/
def parseOperation : Parse (TokenType × Bool) := do
  let (tok, _) ← next
  if tok.typ.ctorIdx < TokenType.CONST.ctorIdx then
    panicWith ("Unknown operation ".toList ++ tok.string)
  else
    return (tok.typ, decide (tok.typ.ctorIdx ≤ TokenType.SELFBALANCE.ctorIdx))

def parseArguments (args : List AstVariable) : Parse (List AstVariable) := do
  let arg ← parseVariable
  loopWhile (fun tok ok => ok && tok.typ = .COMMA) (fun args => do
    let _ ← expect [.COMMA]
    let arg ← parseVariable
    return args ++ [arg]) (args ++ [arg])

/-- The variables on the left of `=`; there can be several for `CALLPRIVATE`. -/
def parseAssignees : Parse (List AstVariable) :=
  loopWhile (fun tok ok => ok && tok.typ != .ASSIGN) (fun args => do
    if 0 < args.length then
      let _ ← expect [.COMMA]
    let arg ← parseVariable
    return args ++ [arg]) []

/-- The operation of a statement and its arguments after those already read.  The
arguments of `PHI` may stand in braces. -/
def parseRightHandSide (assigned : Bool) (args : List AstVariable) :
    Parse (TokenType × List AstVariable) := do
  let (operation, nullary) ← parseOperation
  if assigned && operation = .PHI then
    let (tok, ok) ← peek
    if ok && tok.typ = .LEFT_BRAC then
      let _ ← expect [.LEFT_BRAC]
      let args ← parseArguments args
      let _ ← expect [.RIGHT_BRAC]
      return (operation, args)
    else
      return (operation, ← parseArguments args)
  else if nullary then
    return (operation, args)
  else
    return (operation, ← parseArguments args)

/-- `parse_statement`; `parse_block` fills in the block name. -/
def parseStatement (blockName : GoString) : Parse AstStatement := do
  let name ← expect [.IDENT, .HEX_NUM]
  let address ← liftGo (baseAddr name.val)
  let _ ← expect [.SEMI_COLON]
  let (tok, _) ← peek
  if tok.typ = .IDENT then
    let assignees ← parseAssignees
    let _ ← expect [.ASSIGN]
    let (operation, args) ← parseRightHandSide true assignees
    return { name := name.val, address, operation, args, numAssignee := assignees.length,
             blockName }
  else
    let (operation, args) ← parseRightHandSide false []
    return { name := name.val, address, operation, args, blockName }

def parseBlock : Parse AstBlock := do
  let _ ← expect [.BEGIN]
  let _ ← expect [.BLOCK]
  let name := (← expect [.HEX_NUM, .IDENT]).val
  let address ← liftGo (baseAddr name)
  let _ ← expect [.PREV]
  let _ ← expect [.ASSIGN]
  let predecessor ← parseList .LEFT_SQUARE_BRAC .RIGHT_SQUARE_BRAC [.HEX_NUM, .IDENT]
  let _ ← expect [.COMMA]
  let _ ← expect [.SUCC]
  let _ ← expect [.ASSIGN]
  let successor ← parseList .LEFT_SQUARE_BRAC .RIGHT_SQUARE_BRAC [.HEX_NUM, .IDENT]
  let statements ← loopWhile (fun tok _ => tok.typ != .BEGIN && tok.typ != .RIGHT_BRAC)
    (fun acc => do
      let statement ← parseStatement name
      return acc ++ [statement]) []
  return { name, address, predecessor, successor, statements }

/-- The signature loop of `parse_function`: the name grows until the parentheses balance.
At the end of the tokens `next` returns `EOF` for ever. -/
def signatureLoop : Nat → GoString → Parse GoString
  | level, name => fun toks => go level name toks
where
  go : Nat → GoString → List Token → Except ParseFailure (GoString × List Token)
    | 0, name, toks => .ok (name, toks)
    | _ + 1, _, [] => .error .diverges
    | level + 1, name, tok :: rest =>
      let level := match tok.typ with
        | .LEFT_PAREN => level + 2
        | .RIGHT_PAREN => level
        | _ => level + 1
      go level (name ++ tok.val) rest

/-- A name from the signature database carries its signature in parentheses. -/
def parseFunctionName (token : Token) : Parse GoString := do
  if !GoString.hasPrefix token.val "0x".toList && token.val ≠ "__function_selector__".toList then
    let _ ← expect [.LEFT_PAREN]
    signatureLoop 1 (token.val ++ "(".toList)
  else return token.val

def parseFunction : Parse AstFunction := do
  let _ ← expect [.FUNCTION]
  let token ← expect ([.IDENT, .HEX_NUM] ++ keywords.map Prod.snd)
  let name ← parseFunctionName token
  let args ← parseList .LEFT_PAREN .RIGHT_PAREN [.IDENT]
  let visibility ← expect [.PUBLIC, .PRIVATE]
  let _ ← expect [.LEFT_BRAC]
  let blocks ← loopWhile (fun tok _ => tok.typ != .RIGHT_BRAC) (fun acc => do
    let block ← parseBlock
    return acc ++ [block]) []
  let _ ← expect [.RIGHT_BRAC]
  return { name, args, blocks, isPublic := visibility.typ = .PUBLIC }

def parseProgramTokens : Parse AstProgram := do
  let functions ← loopWhile (fun tok ok => ok && tok.typ = .FUNCTION) (fun acc => do
    let function ← parseFunction
    return acc ++ [function]) []
  let (tok, ok) ← peek
  if ok then panicWith ("Program is not exhausted! Got ".toList ++ tok.string)
  else return { functions }

def parseProgram (input : GoString) : Except ParseFailure AstProgram :=
  (parseProgramTokens (lex input)).map Prod.fst

end EtherVal.TacParser
