import EtherVal.Vm.SubstrateMemory
import EtherVal.Vm.SubstrateStorage

/-!
# The input of an external call (`substrate_act.go:1155-1300`)

A slice of the memory that is the first argument, or follows one in that place, is appended to the
input as it is; then all other arguments are dropped.  Elsewhere a slice is packed as a word.
-/

namespace EtherVal.Vm
open EtherVal.Lib
open Uint256 (uint64 bytes32 setBytes)

variable {s : MemSlice}

/-- An element of `getVariableList`: a value of a static type with the word it is packed to, held
as `*uint256.Int` or not; one of a dynamic type, with what `getUint256` makes of it; a slice. -/
inductive CallArg where
  | num (typ : GoString) (w : Word)
  | var (typ : GoString) (w : Word)
  | bytes (typ : GoString) (b : Bytes) (value : Except GoPanic Word)
  | mem (s : MemSlice)

def CallArg.typeString : CallArg → GoString
  | .num typ _ | .var typ _ | .bytes typ _ _ => typ
  | .mem _ => "uint256".toList

/-- Reading a slice may grow the memory. -/
def CallArg.value (m : Memory) (maxGas : Nat) : CallArg → Except GoPanic (Word × Memory)
  | .num _ w | .var _ w => .ok (w, m)
  | .bytes _ _ value => value.map (·, m)
  | .mem s =>
    match getMem m s maxGas with
    | .ok (.ok w, m') => .ok (w, m')
    | .ok (.error e, _) => .error (.text e.text)
    | .error p => .error p

def CallArg.isMem : CallArg → Bool
  | .mem _ => true
  | _ => false

/-- The start of the input, the memory, the arguments left and their types. -/
structure CallHead where
  input : Bytes
  memory : Memory
  args : List CallArg := []
  typList : List GoString := args.map CallArg.typeString

/-- `Memory.GetPtr`, where a window may reach into the `spare` capacity of the store. -/
def getPtrCap (m : Memory) (spare : Nat) (offset size : Int) : Except GoPanic Bytes :=
  if size = 0 then .ok []
  else if offset < m.len then
    slice (m.store ++ List.replicate spare 0) offset (addInt64 offset size)
  else .ok []

/-- For `MEM[a:b]` the upper bound is taken for the length. -/
def MemSlice.callWindow : MemSlice → Int × Int
  | .word o => (toInt64 (uint64 o), 32)
  | .len a n => (toInt64 (uint64 a), toInt64 (uint64 n))
  | .to a b => (toInt64 (uint64 a), toInt64 (uint64 b))

def callBytes (m : Memory) (spare : Nat) (s : MemSlice) : Except GoPanic Bytes :=
  getPtrCap m spare s.callWindow.1 s.callWindow.2

inductive AbiValue where
  | word (w : Word)
  | bytes (b : Bytes)

def AbiValue.tail : AbiValue → Bytes
  | .word _ => []
  | .bytes b => bytes32 (BitVec.ofNat 256 b.length) ++ b ++
      List.replicate ((b.length + 31) / 32 * 32 - b.length) 0

def packHeads : Nat → List AbiValue → Bytes
  | _, [] => []
  | offset, .word w :: args => bytes32 w ++ packHeads offset args
  | offset, .bytes b :: args =>
    bytes32 (BitVec.ofNat 256 offset) ++ packHeads (offset + (AbiValue.bytes b).tail.length) args

/-- `abi.Arguments.PackValues` -/
def packValues (typList : List GoString) (args : List AbiValue) : Except GoPanic Bytes :=
  if args.length ≠ typList.length then
    .error (.text (s!"pack error: argument count mismatch: got {args.length} for " ++
      s!"{typList.length}, ").toList)
  else .ok (packHeads (32 * args.length) args ++ args.flatMap AbiValue.tail)

structure CallInput where
  input : Bytes
  useMEM : Bool := false
  inputArg : List AbiValue := []

section builder
variable (m : Memory) (spare maxGas : Nat)

def addArg (first : Bool) (st : CallInput) : CallArg → Except GoPanic CallInput
  | .num _ w | .var _ w => .ok { st with inputArg := st.inputArg ++ [.word w] }
  | .bytes _ b _ => .ok { st with inputArg := st.inputArg ++ [.bytes b] }
  | .mem s => do
    let mem ← callBytes m spare s
    if first || st.useMEM then return { st with useMEM := true, input := st.input ++ mem }
    else return { st with inputArg := st.inputArg ++ [.word (setBytes mem)] }

def addAll (st : CallInput) : List CallArg → Except GoPanic CallInput
  | [] => .ok st
  | arg :: args => do args.foldlM (addArg m spare false) (← addArg m spare true st arg)

def CallHead.data (h : CallHead) : Except GoPanic Bytes := do
  let st ← addAll h.memory spare { input := h.input } h.args
  if st.useMEM then return st.input
  else return st.input ++ (← packValues h.typList st.inputArg)

end builder

/-- What becomes of a slice: four bytes of its value, a panic, its bytes or a word. -/
inductive Place where
  | selector | refused | bytes | word

def Place.behind (args : List CallArg) (other : Place) : Place :=
  if args.head?.any CallArg.isMem then .bytes else other

section parts
variable {m : Memory} {spare maxGas : Nat} {st st' : CallInput} {args : List CallArg}

end parts

/-! ### When a slice means the same in a call -/

section agrees
variable {m : Memory} {spare maxGas : Nat}

section within
variable {a b : Word} (hm : m.Sized) (hab : a.toNat ≤ b.toNat) (hb : b.toNat ≤ m.len)
include hm hab hb

end within

theorem FrameMemory.value {arg : CallArg} {r : Word × Memory} (hm : FrameMemory maxGas m)
    (h : arg.value m maxGas = .ok r) : FrameMemory maxGas r.2 := by
  cases arg with
  | num _ _ | var _ _ => exact Except.ok.inj h ▸ hm
  | bytes _ _ value =>
    cases value with
    | error p => cases h
    | ok w => exact Except.ok.inj h ▸ hm
  | mem s =>
    unfold CallArg.value at h
    dsimp only at h
    split at h
    · next w m' hget =>
      cases h
      refine hm.step (.getPtr s.window.1 s.window.2) ?_
      unfold getMem at hget
      rw [MemoryOp.run]
      cases hptr : m.extGetPtr s.window.1 s.window.2 maxGas with
      | error p => rw [hptr] at hget; cases hget
      | ok x =>
        rw [hptr] at hget
        exact congrArg Except.ok (Prod.mk.inj (Except.ok.inj hget)).2
    · cases h
    · cases h

end agrees

end EtherVal.Vm
