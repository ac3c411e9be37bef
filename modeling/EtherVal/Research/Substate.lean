import EtherVal.Lib.Uint256

/-!
# Substates (`research/substate.proto`)

The messages as the Go bindings hold them.  Only where the source tests a byte slice for `nil`
is `nil` kept apart from the empty slice.
-/

namespace EtherVal.Research
open EtherVal.Lib

abbrev Slice := Option Bytes

inductive Contract where
  | code (code : Slice)
  | codeHash (hash : Slice)
  deriving DecidableEq, Repr

structure StorageEntry where
  key : Bytes
  value : Bytes
  deriving DecidableEq, Repr

structure Account where
  nonce : Nat
  balance : Bytes
  storage : List StorageEntry
  contract : Option Contract
  deriving DecidableEq, Repr

structure AllocEntry where
  address : Bytes
  account : Account
  deriving DecidableEq, Repr

structure BlockEnv where
  coinbase : Bytes
  difficulty : Bytes
  gasLimit : Nat
  number : Nat
  timestamp : Nat
  blockHashes : List (Nat × Bytes)
  baseFee : Option Bytes
  random : Option Bytes
  blobBaseFee : Option Bytes
  deriving DecidableEq, Repr, Inhabited

inductive TxType where
  | legacy | accessList | dynamicFee | blob
  deriving DecidableEq, Repr, Inhabited

inductive TxInput where
  | data (data : Slice)
  | initCodeHash (hash : Slice)
  deriving DecidableEq, Repr

structure AccessListEntry where
  address : Slice
  storageKeys : List Slice
  deriving DecidableEq, Repr

structure TxMessage where
  nonce : Option Nat := none
  gasPrice : Slice := none
  gas : Option Nat := none
  sender : Slice := none
  toAddr : Slice := none
  value : Slice := none
  input : Option TxInput := none
  txType : Option TxType := none
  accessList : List AccessListEntry := []
  gasFeeCap : Slice := none
  gasTipCap : Slice := none
  blobGasFeeCap : Slice := none
  blobHashes : List Slice := []
  deriving DecidableEq, Repr, Inhabited

structure ResultLog where
  address : Bytes
  topics : List Bytes
  data : Bytes
  deriving DecidableEq, Repr

structure Result where
  status : Nat
  bloom : Bytes
  logs : List ResultLog
  gasUsed : Nat
  deriving DecidableEq, Repr, Inhabited

structure Substate where
  inputAlloc : List AllocEntry
  outputAlloc : List AllocEntry
  blockEnv : BlockEnv
  txMessage : TxMessage
  result : Result
  deriving DecidableEq, Repr, Inhabited

namespace Account

def getCode (a : Account) : Slice :=
  match a.contract with
  | some (.code c) => c
  | _ => none

def getCodeHash (a : Account) : Slice :=
  match a.contract with
  | some (.codeHash h) => h
  | _ => none

end Account

def TxMessage.getData (t : TxMessage) : Slice :=
  match t.input with
  | some (.data d) => d
  | _ => none

def Slice.len (s : Slice) : Nat := (s.getD []).length

end EtherVal.Research
