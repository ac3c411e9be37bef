import EtherVal.TacParser.Program

/-!
# From the syntax tree to linear code (`tac_parser/transformer.go`)

The `EnablePatch_*` constants of the source are all `true`; the branches they switch off
are not modelled.  A transformation that panics returns the panic.
-/

namespace EtherVal.TacParser
open EtherVal.Lib

def isVariableDecl (op : TokenType) : Bool := op = .CONST || op = .PHI || op = .ILLPHI

/-- One block of `shiftVarDecls`: declarations that move are marked. -/
def shiftBlock (block : AstBlock) : AstBlock :=
  let decls := (block.statements.zipIdx.filter (fun p => isVariableDecl p.1.operation)).mapIdx
    (fun j p => if p.2 ≠ j then { p.1 with patchReorder := true } else p.1)
  let others := block.statements.filter (fun s => !isVariableDecl s.operation)
  { block with statements := decls ++ others }

def shiftVarDecls (ast : AstProgram) : AstProgram :=
  { ast with functions := ast.functions.map fun f => { f with blocks := f.blocks.map shiftBlock } }

def notHalt (op : TokenType) : Bool :=
  op != .STOP && op != .RETURN && op != .REVERT && op != .SELFDESTRUCT && op != .THROW &&
    op != .RETURNPRIVATE

def auxiliary (op : TokenType) (args : List AstVariable) (block : AstBlock) : AstStatement :=
  { address := "auxiliary".toList, operation := op, args, blockName := block.name }

def AstBlock.append (block : AstBlock) (s : AstStatement) : AstBlock :=
  { block with statements := block.statements ++ [s] }

def addMissingStopBlock (block : AstBlock) : AstBlock :=
  if block.successor.length ≠ 0 then block
  else match block.statements.getLast? with
    | none => block.append (auxiliary .STOP [] block)
    | some last => if notHalt last.operation then block.append (auxiliary .STOP [] block) else block

def addMissingStop (ast : AstProgram) : AstProgram :=
  { ast with functions :=
      ast.functions.map fun f => { f with blocks := f.blocks.map addMissingStopBlock } }

def addJump (following : Option AstBlock) (shouldFallTo : GoString) (block : AstBlock) : AstBlock :=
  if following.map AstBlock.address = some shouldFallTo then block
  else block.append
    (auxiliary .JUMP [{ name := shouldFallTo, val := shouldFallTo, typ := .CONSTANT }] block)

def addMissingJumpTwo (following : Option AstBlock) (succ0 succ1 : GoString) (block : AstBlock) :
    Except GoPanic AstBlock :=
  match block.statements.getLast? with
  | none => .error .indexOutOfRange
  | some lastStmt =>
    if lastStmt.operation ≠ .JUMP ∧ lastStmt.operation ≠ .JUMPI then
      .ok (block.append (auxiliary .THROW [] block))
    else match lastStmt.args with
      | [] => .error .indexOutOfRange
      | arg :: _ =>
        if arg.typ = .VARIABLE then .ok block
        else do
          let eq ← equalBaseAddr arg.val succ0
          let shouldFallTo ← baseAddr (if eq then succ1 else succ0)
          return addJump following shouldFallTo block

def addMissingJumpBlock (following : Option AstBlock) (block : AstBlock) :
    Except GoPanic AstBlock :=
  match block.successor with
  | [s] =>
    match block.statements.getLast? with
    | some last =>
      if last.operation = .JUMP then .ok block
      else do return addJump following (← baseAddr s) block
    | none => do return addJump following (← baseAddr s) block
  | [s0, s1] => addMissingJumpTwo following s0 s1 block
  | _ => .ok block

def addMissingJumpBlocks : List AstBlock → Except GoPanic (List AstBlock)
  | [] => .ok []
  | block :: rest => do
    let block' ← addMissingJumpBlock rest.head? block
    let rest' ← addMissingJumpBlocks rest
    return block' :: rest'

def addMissingJump (ast : AstProgram) : Except GoPanic AstProgram := do
  let functions ← ast.functions.mapM fun f => do
    return { f with blocks := ← addMissingJumpBlocks f.blocks }
  return { ast with functions }

namespace TACFunction

def pos (f : TACFunction) : Int := f.insts.length

def push (f : TACFunction) (cell : Int) : TACFunction := { f with insts := f.insts ++ [cell] }

def addVar (f : TACFunction) (name : GoString) : Nat × TACFunction :=
  match f.variableEncoding[name]? with
  | some id => (id, f)
  | none =>
    (f.numVars, { f with variableEncoding := f.variableEncoding.insert name f.numVars,
                         numVars := f.numVars + 1 })

end TACFunction

def hexDigit (c : Char) : Option Nat :=
  if '0' ≤ c ∧ c ≤ '9' then some (c.toNat - '0'.toNat)
  else if 'a' ≤ c ∧ c ≤ 'f' then some (c.toNat - 'a'.toNat + 10)
  else if 'A' ≤ c ∧ c ≤ 'F' then some (c.toNat - 'A'.toNat + 10)
  else none

/-- `uint256.FromHex` on what follows `0x`: no leading zero, at most 64 digits. -/
def fromHex (digits : GoString) : Option Word := do
  if digits.isEmpty || (1 < digits.length && digits.head? = some '0') || 64 < digits.length then
    none
  let ds ← digits.mapM hexDigit
  return BitVec.ofNat 256 (ds.foldl (fun acc d => acc * 16 + d) 0)

def trimZeros : GoString → GoString
  | '0' :: c :: rest => trimZeros (c :: rest)
  | hex => hex

namespace TACFunction

/-- `encode_var`: a constant met for the first time also enters the constant table. -/
def encodeVar (f : TACFunction) (v : AstVariable) : Except GoPanic (Nat × TACFunction) :=
  match v.typ with
  | .VARIABLE => .ok (f.addVar v.name)
  | .CONSTANT =>
    match f.variableEncoding[v.name]? with
    | some idx => .ok (idx, f)
    | none =>
      let (idx, f) := f.addVar v.name
      if v.val.length < 2 then .error .indexOutOfRange
      else
        let hex := trimZeros (v.val.drop 2)
        match fromHex hex with
        | none => .error (.text ("cannot transfer to hex from 0x".toList ++ hex))
        | some value => .ok (idx, { f with constSym := f.constSym ++ [⟨idx, value⟩] })

def pushVariables : Nat → List AstVariable → TACFunction → Except GoPanic TACFunction
  | 0, _, f => .ok f
  | _ + 1, [], _ => .error .indexOutOfRange
  | n + 1, v :: vs, f => do
    let (idx, f) ← f.encodeVar v
    pushVariables n vs (f.push idx)

end TACFunction
/-- Statements encoded as their opcode and a fixed number of registers. -/
def transFixed (op : TACOp) (numArgs : Nat) (s : AstStatement) (f : TACFunction) :
    Except GoPanic TACFunction :=
  (f.push op.code).pushVariables numArgs s.args

def transAddress := transFixed .ADDRESS 1
def transOrigin := transFixed .ORIGIN 1
def transCaller := transFixed .CALLER 1
def transCallvalue := transFixed .CALLVALUE 1
def transCalldatasize := transFixed .CALLDATASIZE 1
def transCodesize := transFixed .CODESIZE 1
def transGasprice := transFixed .GASPRICE 1
def transReturndatasize := transFixed .RETURNDATASIZE 1
def transCoinbase := transFixed .COINBASE 1
def transTimestamp := transFixed .TIMESTAMP 1
def transNumber := transFixed .NUMBER 1
def transDifficulty := transFixed .DIFFICULTY 1
def transGaslimit := transFixed .GASLIMIT 1
def transMsize := transFixed .MSIZE 1
def transGas := transFixed .GAS 1
def transChainid := transFixed .CHAINID 1
def transSelfbalance := transFixed .SELFBALANCE 1
def transIszero := transFixed .ISZERO 2
def transBalance := transFixed .BALANCE 2
def transCalldataload := transFixed .CALLDATALOAD 2
def transExtcodesize := transFixed .EXTCODESIZE 2
def transExtcodehash := transFixed .EXTCODEHASH 2
def transBlockhash := transFixed .BLOCKHASH 2
def transMload := transFixed .MLOAD 2
def transSload := transFixed .SLOAD 2
def transSelfdestruct := transFixed .SELFDESTRUCT 1
def transNot := transFixed .NOT 2
def transAdd := transFixed .ADD 3
def transMul := transFixed .MUL 3
def transSub := transFixed .SUB 3
def transDiv := transFixed .DIV 3
def transSdiv := transFixed .SDIV 3
def transMod := transFixed .MOD 3
def transSmod := transFixed .SMOD 3
def transAddmod := transFixed .ADDMOD 4
def transMulmod := transFixed .MULMOD 4
def transExp := transFixed .EXP 3
def transSignextend := transFixed .SIGNEXTEND 3
def transLt := transFixed .LT 3
def transGt := transFixed .GT 3
def transSlt := transFixed .SLT 3
def transSgt := transFixed .SGT 3
def transEq := transFixed .EQ 3
def transAnd := transFixed .AND 3
def transOr := transFixed .OR 3
def transXor := transFixed .XOR 3
def transByte := transFixed .BYTE 3
def transShl := transFixed .SHL 3
def transShr := transFixed .SHR 3
def transSar := transFixed .SAR 3
def transSha3 := transFixed .SHA3 3
def transMstore := transFixed .MSTORE 2
def transMstore8 := transFixed .MSTORE8 2
def transSstore := transFixed .SSTORE 2
def transRevert := transFixed .REVERT 2
def transReturn := transFixed .RETURN 2
def transLog0 := transFixed .LOG0 2
def transCalldatacopy := transFixed .CALLDATACOPY 3
def transCodecopy := transFixed .CODECOPY 3
def transReturndatacopy := transFixed .RETURNDATACOPY 3
def transLog1 := transFixed .LOG1 3
def transCreate := transFixed .CREATE 4
def transExtcodecopy := transFixed .EXTCODECOPY 4
def transLog2 := transFixed .LOG2 4
def transLog3 := transFixed .LOG3 5
def transLog4 := transFixed .LOG4 6
def transCall := transFixed .CALL 8
def transCallcode := transFixed .CALLCODE 8
def transDelegatecall := transFixed .DELEGATECALL 7
def transCreate2 := transFixed .CREATE2 5
def transStaticcall := transFixed .STATICCALL 7

/-- `trans_const`: executing `CONST` only stamps the register. -/
def transConst (s : AstStatement) (f : TACFunction) : Except GoPanic TACFunction :=
  transFixed .CONST 1 s
    { f with reorderConstAddr := f.reorderConstAddr.insert f.pos s.patchReorder }

def isAuxiliary (s : AstStatement) : Bool := s.address = "auxiliary".toList

def transThrow (s : AstStatement) (f : TACFunction) : Except GoPanic TACFunction :=
  let f := if isAuxiliary s then
      { f with fallthroughThrowAddr := f.fallthroughThrowAddr.insert f.pos true } else f
  .ok (f.push TACOp.THROW.code)

def transStop (s : AstStatement) (f : TACFunction) : Except GoPanic TACFunction :=
  let f := if isAuxiliary s then
      { f with fallthroughStopAddr := f.fallthroughStopAddr.insert f.pos true } else f
  .ok (f.push TACOp.STOP.code)

/-- `trans_jump`: the destination cell is filled in when all blocks have their place. -/
def transJump (s : AstStatement) (f : TACFunction) : Except GoPanic TACFunction :=
  let f := { f with bookkeeping := f.bookkeeping.insert f.pos s }
  match s.args with
  | [] => .error .indexOutOfRange
  | arg :: _ => transFixed (if arg.typ = .CONSTANT then .JUMP else .JUMP_VAR) 1 s f

/-- `trans_jumpi`; unlike `trans_jump` it records jumps the patches inserted. -/
def transJumpi (s : AstStatement) (f : TACFunction) : Except GoPanic TACFunction :=
  let f := if isAuxiliary s then
      { f with fallthroughJumpAddr := f.fallthroughJumpAddr.insert f.pos true } else f
  let f := { f with bookkeeping := f.bookkeeping.insert f.pos s }
  match s.args with
  | [] => .error .indexOutOfRange
  | arg :: _ => transFixed (if arg.typ = .CONSTANT then .JUMPI else .JUMPI_VAR) 2 s f

def decodeFunction (functionEncoding : GoMap GoString Nat) (name : GoString) :
    Except GoPanic Nat :=
  match functionEncoding[name]? with
  | some idx => .ok idx
  | none => .error (.text ("error in decode_function, cannot find function ".toList ++ name))

/-- `trans_callprivate`: `CALLPRIVATE n d1 .. dn F a1 .. am` -/
def transCallprivate (functionEncoding : GoMap GoString Nat) (s : AstStatement)
    (f : TACFunction) : Except GoPanic TACFunction := do
  let f := (f.push TACOp.CALLPRIVATE.code).push s.numAssignee
  let f ← f.pushVariables s.numAssignee s.args
  match s.args.drop s.numAssignee with
  | [] => .error .indexOutOfRange
  | target :: args =>
    let f := f.push (← decodeFunction functionEncoding target.val)
    f.pushVariables args.length args

/-- `trans_returnprivate`: the first argument, the return address, is left out. -/
def transReturnprivate (s : AstStatement) (f : TACFunction) : Except GoPanic TACFunction :=
  match s.args with
  | [] => .error .indexOutOfRange
  | _ :: vars =>
    ((f.push TACOp.RETURNPRIVATE.code).push vars.length).pushVariables vars.length vars

def transformerDispatcher (functionEncoding : GoMap GoString Nat) (s : AstStatement) :
    TACFunction → Except GoPanic TACFunction :=
  match s.operation with
  | .PHI => fun _ =>
    .error (.text "transformation of PHI should be done before transformer_dispatcher".toList)
  | .ILLPHI => fun _ => .error (.text "TAC ILLPHI statement should not exist in TAC".toList)
  | .CONST => transConst s
  | .THROW => transThrow s
  | .STOP => transStop s
  | .JUMP => transJump s
  | .JUMPI => transJumpi s
  | .CALLPRIVATE => transCallprivate functionEncoding s
  | .RETURNPRIVATE => transReturnprivate s
  | .ADDRESS => transAddress s
  | .ORIGIN => transOrigin s
  | .CALLER => transCaller s
  | .CALLVALUE => transCallvalue s
  | .CALLDATASIZE => transCalldatasize s
  | .CODESIZE => transCodesize s
  | .GASPRICE => transGasprice s
  | .RETURNDATASIZE => transReturndatasize s
  | .COINBASE => transCoinbase s
  | .TIMESTAMP => transTimestamp s
  | .NUMBER => transNumber s
  | .DIFFICULTY => transDifficulty s
  | .GASLIMIT => transGaslimit s
  | .MSIZE => transMsize s
  | .GAS => transGas s
  | .CHAINID => transChainid s
  | .SELFBALANCE => transSelfbalance s
  | .ISZERO => transIszero s
  | .BALANCE => transBalance s
  | .CALLDATALOAD => transCalldataload s
  | .EXTCODESIZE => transExtcodesize s
  | .EXTCODEHASH => transExtcodehash s
  | .BLOCKHASH => transBlockhash s
  | .MLOAD => transMload s
  | .SLOAD => transSload s
  | .SELFDESTRUCT => transSelfdestruct s
  | .NOT => transNot s
  | .ADD => transAdd s
  | .MUL => transMul s
  | .SUB => transSub s
  | .DIV => transDiv s
  | .SDIV => transSdiv s
  | .MOD => transMod s
  | .SMOD => transSmod s
  | .ADDMOD => transAddmod s
  | .MULMOD => transMulmod s
  | .EXP => transExp s
  | .SIGNEXTEND => transSignextend s
  | .LT => transLt s
  | .GT => transGt s
  | .SLT => transSlt s
  | .SGT => transSgt s
  | .EQ => transEq s
  | .AND => transAnd s
  | .OR => transOr s
  | .XOR => transXor s
  | .BYTE => transByte s
  | .SHL => transShl s
  | .SHR => transShr s
  | .SAR => transSar s
  | .SHA3 => transSha3 s
  | .MSTORE => transMstore s
  | .MSTORE8 => transMstore8 s
  | .SSTORE => transSstore s
  | .REVERT => transRevert s
  | .RETURN => transReturn s
  | .LOG0 => transLog0 s
  | .CALLDATACOPY => transCalldatacopy s
  | .CODECOPY => transCodecopy s
  | .RETURNDATACOPY => transReturndatacopy s
  | .LOG1 => transLog1 s
  | .CREATE => transCreate s
  | .EXTCODECOPY => transExtcodecopy s
  | .LOG2 => transLog2 s
  | .LOG3 => transLog3 s
  | .LOG4 => transLog4 s
  | .CALL => transCall s
  | .CALLCODE => transCallcode s
  | .DELEGATECALL => transDelegatecall s
  | .CREATE2 => transCreate2 s
  | .STATICCALL => transStaticcall s
  | op => fun _ => .error (.text ("unknown operation ".toList ++ GoString.itoa op.ctorIdx))

/-- `f.AmbiguousPhiChoice[phiAddr][idx] = true` -/
def TACFunction.noteChoice (f : TACFunction) (phiAddr idx : Int) : TACFunction :=
  let choices := (f.ambiguousPhiChoice[phiAddr]?.getD ∅).insert idx true
  { f with ambiguousPhiChoice := f.ambiguousPhiChoice.insert phiAddr choices }

/-- The choices of one `PHI`; those that share their block with another one are noted. -/
def pushChoices (ambiguous : AstVariable → Bool) (phiAddr : Int) :
    List AstVariable → TACFunction → Except GoPanic TACFunction
  | [], f => .ok f
  | arg :: rest, f => do
    let (idx, f) ← f.encodeVar arg
    let f := f.push idx
    let f := if ambiguous arg then f.noteChoice phiAddr idx else f
    pushChoices ambiguous phiAddr rest f

def TACFunction.ambiguousChoice (f : TACFunction) (choices : List AstVariable)
    (arg : AstVariable) : Bool :=
  let blockOf := fun (v : AstVariable) => (f.variableBlock[v.name]?).getD []
  2 ≤ (choices.map blockOf).count (blockOf arg)

def TACFunction.notePhi (f : TACFunction) (reorder ambiguous : Bool) : TACFunction :=
  { f with ambiguousPhiAddr :=
             if ambiguous then f.ambiguousPhiAddr.insert f.pos true else f.ambiguousPhiAddr,
           reorderPhiAddr := f.reorderPhiAddr.insert f.pos reorder,
           ambiguousPhiChoice := f.ambiguousPhiChoice.insert f.pos ∅ }

def transPhi (s : AstStatement) (f : TACFunction) : Except GoPanic TACFunction :=
  match s.args with
  | dest :: choice :: rest => do
    let choices := choice :: rest
    let ambiguous := f.ambiguousChoice choices
    let g := f.notePhi s.patchReorder (choices.any ambiguous)
    let (idx, g) ← ((g.push TACOp.PHI.code).push choices.length).encodeVar dest
    pushChoices ambiguous f.pos choices (g.push idx)
  | _ => .error .indexOutOfRange

def transPhis : List AstStatement → TACFunction → Except GoPanic TACFunction
  | [], f => .ok f
  | s :: rest, f => do transPhis rest (← transPhi s f)

/-- `trans_phi_statements`: the group stands between `PHI_START n` and `PHI_END`. -/
def transPhiStatements (phis : List AstStatement) (f : TACFunction) :
    Except GoPanic TACFunction :=
  if phis.length = 0 then .ok f
  else do
    let f ← transPhis phis ((f.push TACOp.PHI_START.code).push phis.length)
    return f.push TACOp.PHI_END.code

def transConsts : List AstStatement → TACFunction → Except GoPanic TACFunction
  | [], f => .ok f
  | s :: rest, f => do transConsts rest (← transConst s f)

def transOthers (functionEncoding : GoMap GoString Nat) :
    List AstStatement → TACFunction → Except GoPanic TACFunction
  | [], f => .ok f
  | s :: rest, f => do
    transOthers functionEncoding rest (← transformerDispatcher functionEncoding s f)

def isNumberedIllphi (op : TokenType) : Bool :=
  op = .ILLPHI1 || op = .ILLPHI2 || op = .ILLPHI3 || op = .ILLPHI4 || op = .ILLPHI5

/-- Numbered `ILLPHI` statements are executed as `PHI`. -/
def convertIllphi (s : AstStatement) : AstStatement :=
  if isNumberedIllphi s.operation then { s with operation := .PHI } else s

/-- The statements of one kind in order; those that move are marked.  The kind takes the
places from `first` on. -/
def collectStatements (op : TokenType) (first : Nat) (stmts : List AstStatement) :
    List AstStatement :=
  (stmts.zipIdx.filter (fun p => p.1.operation = op)).mapIdx
    (fun j p => if p.2 ≠ first + j then { p.1 with patchReorder := true } else p.1)

namespace AstBlock

def converted (block : AstBlock) : List AstStatement := block.statements.map convertIllphi

def constStatements (block : AstBlock) : List AstStatement :=
  collectStatements .CONST 0 block.converted

def phiStatements (block : AstBlock) : List AstStatement :=
  collectStatements .PHI block.constStatements.length block.converted

def otherStatements (block : AstBlock) : List AstStatement :=
  block.converted.filter (fun s => s.operation != .CONST && s.operation != .PHI)

end AstBlock

def TACFunction.nameBlock (f : TACFunction) (name : GoString) : TACFunction :=
  { f with blockByName := f.blockByName.insert name f.pos,
           blockByIndex := f.blockByIndex.insert f.pos name }

def TACFunction.addBlock (functionEncoding : GoMap GoString Nat) (block : AstBlock)
    (f : TACFunction) : Except GoPanic TACFunction := do
  let f := (f.nameBlock block.name).push TACOp.BLOCK_FLAG.code
  let f ← transConsts block.constStatements f
  let f ← transPhiStatements block.phiStatements f
  transOthers functionEncoding block.otherStatements f

end EtherVal.TacParser
