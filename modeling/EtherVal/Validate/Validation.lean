import EtherVal.Lib.Answers
import EtherVal.State.Recording

/-!
# Comparing side effects (`cmd/substate-cli/validate/validation.go`)
-/

namespace EtherVal.Validate
open EtherVal.Lib EtherVal.Research EtherVal.State

def deletedAccounts (substate : Substate) : GoMap Address Unit :=
  let deleted := substate.inputAlloc.foldl (fun m e => m.insert (Address.ofBytes e.address) ()) ∅
  substate.outputAlloc.foldl (fun m e => m.erase (Address.ofBytes e.address)) deleted

def equivalentStorage (sdb : StateDB) (addr : Address) : List StorageEntry → Bool × StateDB
  | [] => (true, sdb)
  | pair :: rest =>
    let (value, sdb) := sdb.getState addr (Uint256.setBytes pair.key)
    if value ≠ Uint256.setBytes pair.value then (false, sdb) else equivalentStorage sdb addr rest

def equivalentStateDBAlloc (sdb : StateDB) : List AllocEntry → Except GoPanic Bool
  | [] => pure true
  | entry :: rest =>
    let addr := Address.ofBytes entry.address
    let a := entry.account
    let (nonce, sdb) := sdb.getNonce addr
    let (balance, sdb) := sdb.getBalance addr
    let (code, sdb) := sdb.getCode addr
    let (storage, sdb) := equivalentStorage sdb addr a.storage
    .ok (decide (nonce = a.nonce)) <&&>
    (bytesToUint256 a.balance).map (fun b => decide (balance = b)) <&&>
      .ok (decide (code = a.getCode.getD [])) <&&> .ok storage <&&> equivalentStateDBAlloc sdb rest

def equivalentOutput (idb : StateDB) (deleted : GoMap Address Unit) (z other : Substate) :
    Except GoPanic Bool := do
  let zdb ← idb.copy
  let zdb ← zdb.loadSubstate z.outputAlloc
  let zdb := (deleted.toList.map Prod.fst).foldl StateDB.selfDestruct zdb
  equivalentStateDBAlloc zdb.setTxContext other.outputAlloc

/-- `EquivalentSideEffects`.  The values of the sets of deleted accounts are all alike, so that
the loop which compares them never returns. -/
def equivalentSideEffects (x y : Substate) : Except GoPanic Bool := do
  let xd := deletedAccounts x
  let yd := deletedAccounts y
  if xd.size ≠ yd.size then return false
  if !(yd.toList.all fun e => xd[e.1]?.getD () = yd[e.1]?.getD ()) then return false
  let idb ← ({} : StateDB).loadSubstate x.inputAlloc
  let idb ← idb.loadSubstate y.inputAlloc
  let idb := idb.setTxContext
  equivalentOutput idb xd x y <&&> equivalentOutput idb yd y x

def equalStorageKeys (x y : Substate) : Except GoPanic Bool :=
  .ok (decide (x.outputAlloc.length = y.outputAlloc.length)) <&&>
    rangeAll (fun xentry yentry =>
      .ok (decide (xentry.address = yentry.address)) <&&>
      .ok (decide (xentry.account.storage.length = yentry.account.storage.length)) <&&>
      rangeAll (fun xpair ypair => .ok (decide (xpair.key = ypair.key)))
        xentry.account.storage yentry.account.storage) x.outputAlloc y.outputAlloc

/-- For `proto.Equal` a `nil` slice is an empty one. -/
def protoContract : Contract → Contract
  | .code code => .code (some (code.getD []))
  | .codeHash hash => .codeHash (some (hash.getD []))

def protoEntry (e : AllocEntry) : AllocEntry :=
  { e with account := { e.account with contract := e.account.contract.map protoContract } }

def protoEqual (x y : List AllocEntry) : Bool := x.map protoEntry = y.map protoEntry

/-- `EquivalentAlloc`: `eqAlloc` and `matchedSA` -/
def equivalentAlloc (x y : Substate) : Except GoPanic (Bool × Bool) := do
  let eqAlloc := protoEqual x.inputAlloc y.inputAlloc && protoEqual x.outputAlloc y.outputAlloc
  let eqAlloc ← if eqAlloc then pure true else equivalentSideEffects x y
  return (eqAlloc, ← equalStorageKeys x y)

end EtherVal.Validate
