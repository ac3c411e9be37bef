import EtherVal.Vm.Instructions

/-!
# Arithmetic opcodes of the EVM interpreter (`core/vm/instructions.go:31-258`)

An opcode pops its operands from the stack, whose top comes first here, and leaves the
result on top.  A stack with too few items is rejected before the opcode runs.
-/

namespace EtherVal.Vm
open EtherVal.Lib

abbrev Stack := List Word

def evmUnary (g : Word → Word) : Stack → Option Stack
  | x :: rest => some (g x :: rest)
  | _ => none

def evmBinary (g : Word → Word → Word) : Stack → Option Stack
  | x :: y :: rest => some (g x y :: rest)
  | _ => none

def evmTernary (g : Word → Word → Word → Word) : Stack → Option Stack
  | x :: y :: z :: rest => some (g x y z :: rest)
  | _ => none

def opAdd := evmBinary (· + ·)
def opSub := evmBinary (· - ·)
def opMul := evmBinary (· * ·)
def opDiv := evmBinary Uint256.div
def opSdiv := evmBinary Uint256.sdiv
def opMod := evmBinary Uint256.mod
def opSmod := evmBinary Uint256.smod
def opExp := evmBinary Uint256.exp
def opSignExtend := evmBinary fun back num => Uint256.extendSign num back
def opNot := evmUnary (~~~ ·)
def opLt := evmBinary fun x y => boolWord (Uint256.lt x y)
def opGt := evmBinary fun x y => boolWord (Uint256.gt x y)
def opSlt := evmBinary fun x y => boolWord (Uint256.slt x y)
def opSgt := evmBinary fun x y => boolWord (Uint256.sgt x y)
def opEq := evmBinary fun x y => boolWord (Uint256.eq x y)
def opIszero := evmUnary fun x => boolWord (Uint256.isZero x)
def opAnd := evmBinary (· &&& ·)
def opOr := evmBinary (· ||| ·)
def opXor := evmBinary (· ^^^ ·)
def opByte := evmBinary fun th x => Uint256.byte x th
def opAddmod := evmTernary fun x y z =>
  if Uint256.isZero z then Uint256.clear else Uint256.addMod x y z
def opMulmod := evmTernary Uint256.mulMod
def opSHL := evmBinary fun shift value =>
  if Uint256.ltUint64 shift 256 then Uint256.lsh value (Uint256.uint64 shift) else Uint256.clear
def opSHR := evmBinary fun shift value =>
  if Uint256.ltUint64 shift 256 then Uint256.rsh value (Uint256.uint64 shift) else Uint256.clear

/-- `opSAR`: past 256 bits a value with `Sign() >= 0` gives 0. -/
def opSAR := evmBinary fun shift value =>
  if Uint256.gtUint64 shift 256 then
    if 0 ≤ Uint256.sign value then Uint256.clear else Uint256.setAllOne
  else Uint256.srsh value (Uint256.uint64 shift)

end EtherVal.Vm
