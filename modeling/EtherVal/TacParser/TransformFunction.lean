import EtherVal.TacParser.Transformer

/-!
# Layout of a function and resolution of its jumps (`transformer.go:330-509`)
-/

namespace EtherVal.TacParser
open EtherVal.Lib

def renderVar (name : GoString) : GoString := "v".toList ++ GoString.removeHexMarks name

/-- Parameters; a name that does not look like a variable is rendered as one. -/
def addArgs : List GoString → TACFunction → TACFunction
  | [], f => f
  | arg :: rest, f =>
    let name := if GoString.hasPrefix arg "v".toList then arg else renderVar arg
    let (id, f) := f.addVar name
    addArgs rest { f with args := f.args ++ [id] }

/-- `get_visit_order`.  `get_block` returns the first block of a name, so a block is marked
as visited by its name; visiting a missing block dereferences `nil`.  The depth of the
recursion is at most the number of blocks. -/
def getVisitOrder (astFunc : AstFunction) : Nat → AstBlock → List AstBlock →
    Except GoPanic (List AstBlock)
  | 0, cur, order => .ok (order ++ [cur])
  | fuel + 1, cur, order =>
    cur.successor.foldlM (fun order name =>
      if name ∈ order.map AstBlock.name then .ok order
      else match astFunc.getBlock name with
        | none => .error .nilDereference
        | some block => getVisitOrder astFunc fuel block order)
      (order ++ [cur])

def visitOrder (astFunc : AstFunction) : Except GoPanic (List AstBlock) :=
  match astFunc.blocks with
  | [] => .error .indexOutOfRange
  | first :: _ => getVisitOrder astFunc astFunc.blocks.length first []

def addVariableBlocks (order : List AstBlock) (f : TACFunction) : TACFunction :=
  let names := order.flatMap fun block =>
    block.statements.flatMap fun s => (s.args.take s.numAssignee).map fun arg =>
      (arg.name, block.name)
  { f with variableBlock := names.foldl (fun m p => m.insert p.1 p.2) f.variableBlock }

def addBlocks (functionEncoding : GoMap GoString Nat) :
    List AstBlock → TACFunction → Except GoPanic TACFunction
  | [], f => .ok f
  | block :: rest, f => do addBlocks functionEncoding rest (← f.addBlock functionEncoding block)

def blockBaseAddrs (f : TACFunction) : Except GoPanic (List GoString) :=
  (f.blockByName.toList.map Prod.fst).mapM baseAddr

/-- `UniqueBlockAddr`: the position of each base address only one block has. -/
def addUniqueBlockAddrs (bases : List GoString) (f : TACFunction) : TACFunction :=
  let unique := (bases.zip f.blockByName.toList).filter (fun p => bases.count p.1 = 1)
  { f with uniqueBlockAddr := unique.foldl (fun m p => m.insert p.1 p.2.2) f.uniqueBlockAddr }

/-- The destination of a jump to the constant `baseAddr` in a block with these successors:
the only successor whose name starts with the text, else the only block with that base
address, else -1. -/
def resolveJump (f : TACFunction) (successor : List GoString) (baseAddr : GoString) : Int :=
  let dests := (successor.filter (fun name => GoString.hasPrefix name baseAddr)).map
    (fun name => f.blockByName[name]?.getD 0)
  match dests with
  | [idx] => idx
  | _ => f.uniqueBlockAddr[baseAddr]?.getD (-1)

def TACFunction.setCell (f : TACFunction) (pc c : Int) : Except GoPanic TACFunction := do
  let _ ← f.cell pc
  return { f with insts := f.insts.set pc.toNat c }

def noteAmbiguous (bases : List GoString) (pc : Int) (names : List GoString) (f : TACFunction) :
    Except GoPanic TACFunction := do
  let addrs ← names.mapM baseAddr
  if addrs.any (fun a => decide (2 ≤ bases.count a)) then
    return { f with ambiguousJumpAddr := f.ambiguousJumpAddr.insert pc true }
  else return f

/-- The `TAC_JUMP`, `TAC_JUMPI` case of the filling loop; the first edge of a `JUMPI` is the
fallthrough one and is not looked at for ambiguity. -/
def fillJump (bases : List GoString) (pc : Int) (stmt : AstStatement) (successor : List GoString)
    (ignoreFirst : Bool) (f : TACFunction) : Except GoPanic TACFunction :=
  match stmt.args with
  | [] => .error .indexOutOfRange
  | arg :: _ => do
    let f := if 2 ≤ bases.count arg.val then
        { f with ambiguousJumpAddr := f.ambiguousJumpAddr.insert pc true } else f
    let f ← noteAmbiguous bases pc (if ignoreFirst then successor.drop 1 else successor) f
    f.setCell (pc + 1) (resolveJump f successor arg.val)

/-- The `TAC_JUMP_VAR`, `TAC_JUMPI_VAR` case: the base addresses that exactly one successor
has. -/
def fillJumpVar (bases : List GoString) (pc : Int) (successor : List GoString)
    (ignoreFirst : Bool) (f : TACFunction) : Except GoPanic TACFunction := do
  let f ← noteAmbiguous bases pc (if ignoreFirst then successor.drop 1 else successor) f
  let addrs ← successor.mapM baseAddr
  let unique := addrs.filter (fun a => addrs.count a = 1)
  return { f with uniqueJumpVarSucc := f.uniqueJumpVarSucc.insert pc unique }

def fillAddress (astFunc : AstFunction) (bases : List GoString) (f : TACFunction)
    (entry : Int × AstStatement) : Except GoPanic TACFunction := do
  let (pc, stmt) := entry
  let opcode ← f.cell pc
  match astFunc.getBlock stmt.blockName with
  | none => .error .nilDereference
  | some block =>
    if opcode = TACOp.JUMP.code then fillJump bases pc stmt block.successor false f
    else if opcode = TACOp.JUMPI.code then fillJump bases pc stmt block.successor true f
    else if opcode = TACOp.JUMP_VAR.code then fillJumpVar bases pc block.successor false f
    else if opcode = TACOp.JUMPI_VAR.code then fillJumpVar bases pc block.successor true f
    else .error (.text "Fatal in bookkeeping, unmatched operation".toList)

def layoutFunction (functionEncoding : GoMap GoString Nat) (astFunc : AstFunction) :
    Except GoPanic TACFunction := do
  let f := addArgs astFunc.args { name := astFunc.name }
  let order ← visitOrder astFunc
  addBlocks functionEncoding order (addVariableBlocks order f)

/-- `transform_function` (`transformer.go:374`) -/
def transformFunction (functionEncoding : GoMap GoString Nat) (astFunc : AstFunction) :
    Except GoPanic TACFunction := do
  let f ← layoutFunction functionEncoding astFunc
  let bases ← blockBaseAddrs f
  let f := addUniqueBlockAddrs bases f
  f.bookkeeping.toList.foldlM (fillAddress astFunc bases) f

def encodeFunction (functionEncoding : GoMap GoString Nat) (name : GoString) : GoMap GoString Nat :=
  match functionEncoding[name]? with
  | some _ => functionEncoding
  | none => functionEncoding.insert name functionEncoding.size

def AstFunction.address (f : AstFunction) : Except GoPanic GoString :=
  match f.blocks with
  | [] => .error .indexOutOfRange
  | first :: _ => .ok first.address

def encodeFunctions (functions : List AstFunction) : Except GoPanic (GoMap GoString Nat) := do
  let selectors := functions.filter (fun f => f.name = "__function_selector__".toList)
  let addrs ← (selectors ++ functions).mapM AstFunction.address
  return addrs.foldl encodeFunction ∅

def transformFunctions (functionEncoding : GoMap GoString Nat) :
    List AstFunction → List TACFunction → Except GoPanic (List TACFunction)
  | [], done => .ok done
  | f :: rest, done => do
    let ret ← transformFunction functionEncoding f
    let idx ← decodeFunction functionEncoding (← f.address)
    transformFunctions functionEncoding rest (done.set idx ret)

def patchProgram (ast : AstProgram) : Except GoPanic AstProgram :=
  addMissingJump (addMissingStop (shiftVarDecls ast))

/-- `TransformProgram` (`transformer.go:330`) -/
def transformProgram (ast : AstProgram) : Except GoPanic TACProgram := do
  let ast ← patchProgram ast
  let functionEncoding ← encodeFunctions ast.functions
  let functions ← transformFunctions functionEncoding ast.functions
    (List.replicate ast.functions.length {})
  if functions.isEmpty then .error .indexOutOfRange
  else return { functions, functionEncoding }

end EtherVal.TacParser
