import EtherVal.State.StateDB

/-!
# Recording and loading
-/

namespace EtherVal.State
open EtherVal.Lib EtherVal.Research

/-- `BytesToUint256`, which panics on numbers of more than 256 bits. -/
def bytesToUint256 (b : Bytes) : Except GoPanic Word :=
  if beVal b < 2 ^ 256 then .ok (BitVec.ofNat 256 (beVal b)) else .error (.text "overflow".toList)

def storageEntry (key value : Word) : StorageEntry := ⟨Uint256.bytes32 key, Uint256.bytes32 value⟩

namespace StateObject

def readSlots (read : StateObject → Word → Word × StateObject) (o : StateObject) :
    List Word → List StorageEntry × StateObject
  | [] => ([], o)
  | key :: keys =>
    let (value, o) := read o key
    let (entries, o) := readSlots read o keys
    (storageEntry key value :: entries, o)

def touchedKeys (o : StateObject) : List Word := o.researchTouched.toList.map Prod.fst

end StateObject

namespace StateDB

def finalisePre (s : StateDB) (a : Address) (sa : Option Account) : Except GoPanic StateDB :=
  match sa with
  | none => .ok { s with researchPreAlloc := s.researchPreAlloc.erase a }
  | some sa =>
    match s.stateObjects[a]? with
    | none => .error .nilDereference
    | some o =>
      let (entries, o) := o.readSlots (·.getCommittedState (s.destructed a)) o.touchedKeys
      let sa := { sa with storage := sa.storage ++ entries }
      .ok { s.setStateObject a o with
        researchPreAlloc := s.researchPreAlloc.insert a (some sa)
        researchPostAlloc := s.researchPostAlloc.insert a sa }

def finaliseDirty (deleteEmptyObjects : Bool) (s : StateDB) (a : Address) : StateDB :=
  match s.stateObjects[a]? with
  | none => s
  | some o =>
    let s :=
      if o.selfDestructed || (deleteEmptyObjects && o.empty) then
        { s.setStateObject a { o with deleted := true, created := false } with
          stateObjectsDestruct := s.stateObjectsDestruct.insert a ()
          researchPostAlloc := s.researchPostAlloc.erase a }
      else
        let (entries, o) := o.readSlots (·.getState (s.destructed a)) o.touchedKeys
        { s.setStateObject a { o.finalise with created := false } with
          researchPostAlloc := s.researchPostAlloc.insert a { o.record with storage := entries } }
    { s with
      stateObjectsPending := s.stateObjectsPending.insert a ()
      stateObjectsDirty := s.stateObjectsDirty.insert a () }

def clearJournal (s : StateDB) : StateDB :=
  { s with
    journal := if s.journal.entries = [] then s.journal else {}
    validRevisions := [] }

def finalise (s : StateDB) (deleteEmptyObjects : Bool) : Except GoPanic StateDB := do
  let s ← s.researchPreAlloc.toList.foldlM (fun s e => s.finalisePre e.1 e.2) s
  return ((s.journal.dirties.toList.map Prod.fst).foldl (finaliseDirty deleteEmptyObjects)
    s).clearJournal

def setTxContext (s : StateDB) : StateDB :=
  { s with
    stateObjects := s.stateObjects.map fun _ o => { o with researchTouched := ∅ }
    researchPreAlloc := ∅
    researchPostAlloc := ∅ }

def copyObjects (s : StateDB) (addrs : List Address) (m : GoMap Address StateObject) :
    Except GoPanic (GoMap Address StateObject) :=
  addrs.foldlM (fun m a =>
    if m.contains a then .ok m
    else match s.stateObjects[a]? with
      | some o => .ok (m.insert a { o with created := false })
      | none => .error .nilDereference) m

def copy (s : StateDB) : Except GoPanic StateDB := do
  let journaled := (s.journal.dirties.toList.map Prod.fst).filter s.stateObjects.contains
  let pending := s.stateObjectsPending.toList.map Prod.fst
  let dirty := s.stateObjectsDirty.toList.map Prod.fst
  let objects ← s.copyObjects (journaled ++ pending ++ dirty) ∅
  return {
    trie := s.trie
    stateObjects := objects
    stateObjectsPending := (journaled ++ pending).foldl (fun m a => m.insert a ()) ∅
    stateObjectsDirty := (journaled ++ dirty).foldl (fun m a => m.insert a ()) ∅
    stateObjectsDestruct := s.stateObjectsDestruct
    researchPreAlloc := s.researchPreAlloc
    researchPostAlloc := s.researchPostAlloc }

def loadEntry (s : StateDB) (e : AllocEntry) : Except GoPanic StateDB := do
  let a := Address.ofBytes e.address
  let s := s.setCode a (e.account.getCode.getD [])
  let s := s.setNonce a e.account.nonce
  let s := s.setBalance a (← bytesToUint256 e.account.balance)
  return e.account.storage.foldl
    (fun s p => s.setState a (Uint256.setBytes p.key) (Uint256.setBytes p.value)) s

def loadSubstate (s : StateDB) (inputAlloc : List AllocEntry) : Except GoPanic StateDB := do
  let s ← inputAlloc.foldlM loadEntry s
  s.finalise false

end StateDB
end EtherVal.State
