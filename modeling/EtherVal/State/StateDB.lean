import EtherVal.Lib.Go
import EtherVal.Lib.GoMap
import EtherVal.Lib.BigEndian
import EtherVal.Research.Substate

/-!
# The state database (`core/state/statedb.go`, `state_object.go`, `journal.go`)

Live objects over the accounts of the trie, a journal of their changes, and the record of what a
transaction touches.  The tries, the snapshots and the code store are one function that returns
what was stored; code hashes are replaced by the codes.
-/

namespace EtherVal.State
open EtherVal.Lib EtherVal.Research

@[ext] structure StateAccount where
  nonce : Nat
  balance : Word
  code : Bytes
  storage : Word → Word

structure StateObject where
  nonce : Nat := 0
  balance : Word := 0
  code : Bytes := []
  /-- the storage trie -/
  trie : Word → Word := fun _ => 0
  originStorage : GoMap Word Word := ∅
  pendingStorage : GoMap Word Word := ∅
  dirtyStorage : GoMap Word Word := ∅
  selfDestructed : Bool := false
  deleted : Bool := false
  created : Bool := false
  researchTouched : GoMap Word Unit := ∅

inductive JournalEntry where
  | createObject (account : Address)
  | resetObject (account : Address) (prev : StateObject) (prevdestruct : Bool)
  | selfDestruct (account : Address) (prev : Bool) (prevbalance : Word)
  | balance (account : Address) (prev : Word)
  | nonce (account : Address) (prev : Nat)
  | storage (account : Address) (key prevalue : Word)
  | code (account : Address) (prevcode : Bytes)
  | touch (account : Address)

def JournalEntry.dirtied : JournalEntry → Address
  | createObject a | resetObject a _ _ | selfDestruct a _ _ | balance a _ | nonce a _
  | storage a _ _ | code a _ | touch a => a

structure Journal where
  entries : List JournalEntry := []
  dirties : GoMap Address Nat := ∅

structure StateDB where
  trie : Address → Option StateAccount := fun _ => none
  stateObjects : GoMap Address StateObject := ∅
  stateObjectsPending : GoMap Address Unit := ∅
  stateObjectsDirty : GoMap Address Unit := ∅
  stateObjectsDestruct : GoMap Address Unit := ∅
  journal : Journal := {}
  validRevisions : List (Nat × Nat) := []
  nextRevisionId : Nat := 0
  researchPreAlloc : GoMap Address (Option Account) := ∅
  researchPostAlloc : GoMap Address Account := ∅

def newObject : Option StateAccount → StateObject
  | none => { created := true }
  | some acct =>
    { nonce := acct.nonce, balance := acct.balance, code := acct.code, trie := acct.storage }

namespace StateObject

def empty (o : StateObject) : Bool := o.nonce = 0 && o.balance = 0 && o.code = []

/-- `GetCommittedState`; `destructed` is whether the address is in `stateObjectsDestruct`. -/
def getCommittedState (o : StateObject) (destructed : Bool) (key : Word) : Word × StateObject :=
  match o.pendingStorage[key]? with
  | some value => (value, o)
  | none =>
    match o.originStorage[key]? with
    | some value => (value, o)
    | none =>
      if destructed then (0, o)
      else (o.trie key, { o with originStorage := o.originStorage.insert key (o.trie key) })

def getState (o : StateObject) (destructed : Bool) (key : Word) : Word × StateObject :=
  let o := { o with researchTouched := o.researchTouched.insert key () }
  match o.dirtyStorage[key]? with
  | some value => (value, o)
  | none => o.getCommittedState destructed key

def finalise (o : StateObject) : StateObject :=
  { o with
    pendingStorage := o.dirtyStorage.toList.foldl (fun m e => m.insert e.1 e.2) o.pendingStorage
    dirtyStorage := ∅
    researchTouched := ∅ }

def record (o : StateObject) : Account where
  nonce := o.nonce
  balance := natBytes o.balance.toNat
  storage := []
  contract := some (.code (some o.code))

end StateObject

def Journal.append (j : Journal) (e : JournalEntry) : Journal where
  entries := e :: j.entries
  dirties := j.dirties.insert e.dirtied (j.dirties[e.dirtied]?.getD 0 + 1)

def Journal.dirty (j : Journal) (a : Address) : Journal :=
  { j with dirties := j.dirties.insert a (j.dirties[a]?.getD 0 + 1) }

def Journal.undirty (j : Journal) (a : Address) : Journal :=
  let n := j.dirties[a]?.getD 0 - 1
  { j with dirties := if n = 0 then j.dirties.erase a else j.dirties.insert a n }

namespace StateDB

def setStateObject (s : StateDB) (a : Address) (o : StateObject) : StateDB :=
  { s with stateObjects := s.stateObjects.insert a o }

def appendJournal (s : StateDB) (e : JournalEntry) : StateDB :=
  { s with journal := s.journal.append e }

def destructed (s : StateDB) (a : Address) : Bool := s.stateObjectsDestruct.contains a

def getDeletedStateObject (s : StateDB) (a : Address) : Option StateObject × StateDB :=
  match s.stateObjects[a]? with
  | some o => (some o, s)
  | none =>
    match s.trie a with
    | none => (none, s)
    | some acct => (some (newObject (some acct)), s.setStateObject a (newObject (some acct)))

def recordPre (s : StateDB) (a : Address) (found : Option Account) : StateDB :=
  if s.researchPreAlloc.contains a then s
  else { s with researchPreAlloc := s.researchPreAlloc.insert a found }

def getStateObject (s : StateDB) (a : Address) : Option StateObject × StateDB :=
  match s.getDeletedStateObject a with
  | (some o, s) =>
    if o.deleted then (none, s.recordPre a none) else (some o, s.recordPre a (some o.record))
  | (none, s) => (none, s.recordPre a none)

def createObject (s : StateDB) (a : Address) : StateObject × Option StateObject × StateDB :=
  let (prev, s) := s.getDeletedStateObject a
  let o := newObject none
  match prev with
  | none => (o, none, (s.appendJournal (.createObject a)).setStateObject a o)
  | some p =>
    let s' := { s with stateObjectsDestruct := s.stateObjectsDestruct.insert a () }
    let s' := (s'.appendJournal (.resetObject a p (s.destructed a))).setStateObject a o
    (o, if p.deleted then none else some p, s')

def getOrNewStateObject (s : StateDB) (a : Address) : StateObject × StateDB :=
  match s.getStateObject a with
  | (some o, s) => (o, s)
  | (none, s) =>
    let (o, _, s) := s.createObject a
    (o, s)

def readObject {α : Type} (s : StateDB) (a : Address) (default : α) (field : StateObject → α) :
    α × StateDB :=
  match s.getStateObject a with
  | (some o, s) => (field o, s)
  | (none, s) => (default, s)

def getBalance (s : StateDB) (a : Address) : Word × StateDB := s.readObject a 0 StateObject.balance
def getNonce (s : StateDB) (a : Address) : Nat × StateDB := s.readObject a 0 StateObject.nonce
def getCode (s : StateDB) (a : Address) : Bytes × StateDB := s.readObject a [] StateObject.code

def getState (s : StateDB) (a : Address) (key : Word) : Word × StateDB :=
  match s.getStateObject a with
  | (some o, s) =>
    let (value, o) := o.getState (s.destructed a) key
    (value, s.setStateObject a o)
  | (none, s) => (0, s)

def ripemd : Address := 3

def touch (s : StateDB) (a : Address) : StateDB :=
  let s := s.appendJournal (.touch a)
  if a = ripemd then { s with journal := s.journal.dirty a } else s

def objectSetBalance (s : StateDB) (a : Address) (o : StateObject) (amount : Word) : StateDB :=
  (s.appendJournal (.balance a o.balance)).setStateObject a { o with balance := amount }

def setBalance (s : StateDB) (a : Address) (amount : Word) : StateDB :=
  let (o, s) := s.getOrNewStateObject a
  s.objectSetBalance a o amount

def addBalance (s : StateDB) (a : Address) (amount : Word) : StateDB :=
  let (o, s) := s.getOrNewStateObject a
  if amount = 0 then if o.empty then s.touch a else s
  else s.objectSetBalance a o (o.balance + amount)

def subBalance (s : StateDB) (a : Address) (amount : Word) : StateDB :=
  let (o, s) := s.getOrNewStateObject a
  if amount = 0 then s else s.objectSetBalance a o (o.balance - amount)

def setNonce (s : StateDB) (a : Address) (nonce : Nat) : StateDB :=
  let (o, s) := s.getOrNewStateObject a
  (s.appendJournal (.nonce a o.nonce)).setStateObject a { o with nonce }

def setCode (s : StateDB) (a : Address) (code : Bytes) : StateDB :=
  let (o, s) := s.getOrNewStateObject a
  (s.appendJournal (.code a o.code)).setStateObject a { o with code }

def setState (s : StateDB) (a : Address) (key value : Word) : StateDB :=
  let (o, s) := s.getOrNewStateObject a
  let (prev, o) := o.getState (s.destructed a) key
  if prev = value then s.setStateObject a o
  else
    (s.appendJournal (.storage a key prev)).setStateObject a
      { o with dirtyStorage := o.dirtyStorage.insert key value }

def selfDestruct (s : StateDB) (a : Address) : StateDB :=
  match s.getStateObject a with
  | (none, s) => s
  | (some o, s) =>
    (s.appendJournal (.selfDestruct a o.selfDestructed o.balance)).setStateObject a
      { o with selfDestructed := true, balance := 0 }

/-- `CreateAccount`: the balance is carried over. -/
def createAccount (s : StateDB) (a : Address) : StateDB :=
  match s.createObject a with
  | (_, none, s) => s
  | (o, some prev, s) => s.setStateObject a { o with balance := prev.balance }

def snapshot (s : StateDB) : Nat × StateDB :=
  (s.nextRevisionId, { s with
    nextRevisionId := s.nextRevisionId + 1
    validRevisions := s.validRevisions ++ [(s.nextRevisionId, s.journal.entries.length)] })

def restore (s : StateDB) (a : Address) (f : StateObject → StateObject) : Except GoPanic StateDB :=
  match s.getStateObject a with
  | (some o, s) => .ok (s.setStateObject a (f o))
  | (none, _) => .error .nilDereference

def revertEntry (s : StateDB) : JournalEntry → Except GoPanic StateDB
  | .createObject a => .ok { s with
      stateObjects := s.stateObjects.erase a
      stateObjectsDirty := s.stateObjectsDirty.erase a }
  | .resetObject a prev prevdestruct =>
    let s := s.setStateObject a prev
    .ok (if prevdestruct then s
      else { s with stateObjectsDestruct := s.stateObjectsDestruct.erase a })
  | .selfDestruct a prev prevbalance =>
    match s.getStateObject a with
    | (some o, s) =>
      .ok (s.setStateObject a { o with selfDestructed := prev, balance := prevbalance })
    | (none, s) => .ok s
  | .balance a prev => s.restore a fun o => { o with balance := prev }
  | .nonce a prev => s.restore a fun o => { o with nonce := prev }
  | .code a prev => s.restore a fun o => { o with code := prev }
  | .storage a key prev =>
    s.restore a fun o => { o with dirtyStorage := o.dirtyStorage.insert key prev }
  | .touch _ => .ok s

def revertEntries (s : StateDB) : List JournalEntry → Except GoPanic StateDB
  | [] => .ok s
  | e :: rest => do
    let s ← s.revertEntry e
    revertEntries { s with journal := s.journal.undirty e.dirtied } rest

def revertJournal (s : StateDB) (snapshot : Nat) : Except GoPanic StateDB := do
  let n := s.journal.entries.length - snapshot
  let s ← s.revertEntries (s.journal.entries.take n)
  return { s with journal := { s.journal with entries := s.journal.entries.drop n } }

def revertToSnapshot (s : StateDB) (revid : Nat) : Except GoPanic StateDB := do
  let idx := s.validRevisions.findIdx fun r => revid ≤ r.1
  match s.validRevisions[idx]? with
  | some (id, journalIndex) =>
    if id = revid then
      let s ← s.revertJournal journalIndex
      return { s with validRevisions := s.validRevisions.take idx }
    else throw (.text ("revision id ".toList ++ Nat.toDigits 10 revid ++
      " cannot be reverted".toList))
  | none => throw (.text
      ("revision id ".toList ++ Nat.toDigits 10 revid ++ " cannot be reverted".toList))

end StateDB
end EtherVal.State
