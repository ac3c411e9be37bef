import EtherVal.Lib.BigEndian
import EtherVal.Research.TraceHeap

/-!
# Stored traces (`substate_trace.go:203-221`, `327-393`)

The JSON of a trace leaves out the error of a call and the map from SHA3 indexes to hashes;
`GetEVMTrace` makes them again from `ErrMsg` and from the map of hashes to indexes.
-/

namespace EtherVal.Research
open EtherVal.Lib List

variable {ε : Type}

namespace CallValue

def memory : CallMemory (CallValue ε) where
  gasInstRet ct gas := { ct with gasInstRet := ct.gasInstRet ++ [gas] }
  logInstRet ct log := { ct with logInstRet := ct.logInstRet ++ [log] }
  sha3IndexList ct i := { ct with sha3IndexList := ct.sha3IndexList ++ [i] }
  jumpInstPos ct pos := { ct with jumpInstPos := ct.jumpInstPos ++ [pos] }
  jumpInstTarget ct target := { ct with jumpInstTarget := ct.jumpInstTarget ++ [target] }
  makeMaps ct := ct
  toIndex ct := ct.sha3HashToIndex
  setIndex ct hash i := { ct with sha3HashToIndex := ct.sha3HashToIndex.insert hash i }
  setHash ct i hash := { ct with sha3IndexToHash := ct.sha3IndexToHash.insert i hash }

def getSHA3InstRetAt (ct : CallValue ε) (i : Nat) : Except GoPanic Word :=
  match ct.sha3IndexList[i]? with
  | none => .error .indexOutOfRange
  | some index => .ok (ct.sha3IndexToHash[index]?.getD 0)

end CallValue

structure CallFields (ε : Type) where
  callee : Address
  codeAddr : Address
  codeHash : Word
  callFn : GoString
  depth : Int
  ret : Bytes
  callGas : Nat
  refundGas : Nat
  leftOverGas : Nat
  err : Option ε
  errMsg : GoString
  reverted : Bool

def CallValue.assign (ct : CallValue ε) (f : CallFields ε) : CallValue ε :=
  { ct with
    callee := f.callee, codeAddr := f.codeAddr, codeHash := f.codeHash, callFn := f.callFn
    depth := f.depth, ret := f.ret, callGas := f.callGas, refundGas := f.refundGas
    leftOverGas := f.leftOverGas, err := f.err, errMsg := f.errMsg, reverted := f.reverted }

inductive RecordOp (ε : Type) where
  | op (op : TraceOp)
  | assign (i : Nat) (fields : CallFields ε)

namespace TraceValue

def new : TraceValue ε := ⟨0, [], [], []⟩

def onCall (t : TraceValue ε) (i : Nat) (f : CallValue ε → CallValue ε) : TraceValue ε :=
  { t with callTraces := t.callTraces.modify i (Option.map f) }

def newCall (id : Int) : CallValue ε where
  callee := 0
  codeAddr := 0
  codeHash := 0
  callId := id
  callFn := []
  depth := 0
  ret := []
  callGas := 0
  refundGas := 0
  leftOverGas := 0
  err := none
  errMsg := []
  reverted := false
  gasInstRet := []
  logInstRet := []
  sha3HashToIndex := ∅
  sha3IndexToHash := ∅
  sha3IndexList := []
  jumpInstPos := []
  jumpInstTarget := []

def memory : TraceMemory (TraceValue ε) where
  sstoreTrace t text := { t with sstoreTrace := t.sstoreTrace ++ [text] }
  eventTraces t event := { t with eventTraces := t.eventTraces ++ [event] }
  sstoreCount t f := { t with sstoreCount := f t.sstoreCount }
  calls t := t.callTraces.length
  callTraces t id := { t with callTraces := t.callTraces ++ [some (newCall id)] }
  onCall t i op := t.onCall i fun ct => CallValue.memory.apply ct op

def record (t : TraceValue ε) : RecordOp ε → TraceValue ε
  | .op op => memory.apply t op
  | .assign i fields => t.onCall i (·.assign fields)

end TraceValue

def recorded (ops : List (RecordOp ε)) : TraceValue ε := ops.foldl TraceValue.record .new

def recordHash (hashes : List (List Word)) : RecordOp ε → List (List Word)
  | .op (.addSHA3InstRet i hash) => hashes.modify i (· ++ [hash])
  | .op .nextCallTrace => hashes ++ [[]]
  | _ => hashes

def recordedHashes (ops : List (RecordOp ε)) : List (List Word) := ops.foldl recordHash []

/-- The two maps are inverse to each other, the indexes in use are the first ones, and the list
reads as the hashes passed so far. -/
structure Indexed (ct : CallValue ε) (hashes : List Word) : Prop where
  inverse : ∀ (hash : Word) (i : Int),
    ct.sha3HashToIndex[hash]? = some i ↔ ct.sha3IndexToHash[i]? = some hash
  bounded : ∀ (hash : Word) (i : Int), ct.sha3HashToIndex[hash]? = some i →
    0 ≤ i ∧ i < ct.sha3HashToIndex.size
  list : ct.sha3IndexList.map (fun i => ct.sha3IndexToHash[i]?) = hashes.map some

theorem indexed_newCall (id : Int) : Indexed (TraceValue.newCall id : CallValue ε) [] := by
  constructor
  · intro hash i
    simp [TraceValue.newCall]
  · intro hash i h
    simp [TraceValue.newCall] at h
  · rfl

variable {ct : CallValue ε} {hashes : List Word}

theorem Indexed.fresh (h : Indexed ct hashes) :
    ct.sha3IndexToHash[(ct.sha3HashToIndex.size : Int)]? = none := by
  rw [Option.eq_none_iff_forall_ne_some]
  intro hash hsome
  have := (h.bounded hash _ ((h.inverse hash _).mpr hsome)).2
  omega

theorem Indexed.addSHA3InstRet (h : Indexed ct hashes) (hash : Word) :
    Indexed (CallValue.memory.addSHA3InstRet ct hash) (hashes ++ [hash]) := by
  cases hget : ct.sha3HashToIndex[hash]? with
  | some i =>
    -- a known hash: only the list grows
    have hstep : CallValue.memory.addSHA3InstRet ct hash =
        { ct with sha3IndexList := ct.sha3IndexList ++ [i] } := by
      simp [CallMemory.addSHA3InstRet, CallValue.memory, hget]
    rw [hstep]
    refine ⟨h.inverse, h.bounded, ?_⟩
    simp [h.list, (h.inverse hash i).mp hget]
  | none =>
    have hstep : CallValue.memory.addSHA3InstRet ct hash =
        { ct with
          sha3HashToIndex := ct.sha3HashToIndex.insert hash (ct.sha3HashToIndex.size : Int)
          sha3IndexToHash := ct.sha3IndexToHash.insert (ct.sha3HashToIndex.size : Int) hash
          sha3IndexList := ct.sha3IndexList ++ [(ct.sha3HashToIndex.size : Int)] } := by
      simp [CallMemory.addSHA3InstRet, CallValue.memory, hget]
    rw [hstep]
    have hfresh := h.fresh
    have hnotMem : hash ∉ ct.sha3HashToIndex := by
      rw [GoMap.mem_iff]
      simp [hget]
    have hold : ∀ i ∈ ct.sha3IndexList, (ct.sha3HashToIndex.size : Int) ≠ i := by
      intro i hi heq
      have hmem := mem_map_of_mem (f := fun i => ct.sha3IndexToHash[i]?) hi
      rw [h.list, ← heq, hfresh] at hmem
      simp at hmem
    have hsize : (ct.sha3HashToIndex.insert hash (ct.sha3HashToIndex.size : Int)).size =
        ct.sha3HashToIndex.size + 1 := by
      rw [Std.ExtTreeMap.size_insert, if_neg (by simpa using hnotMem)]
    refine ⟨fun hash' i => ?_, fun hash' i => ?_, ?_⟩
    · rw [GoMap.get_insert, GoMap.get_insert]
      by_cases hhash : hash = hash'
      · subst hhash
        by_cases hi : (ct.sha3HashToIndex.size : Int) = i
        · simp [hi]
        · simp only [if_true, Option.some.injEq, hi, if_false, false_iff]
          intro hsome
          rw [(h.inverse hash i).mpr hsome] at hget
          cases hget
      · by_cases hi : (ct.sha3HashToIndex.size : Int) = i
        · subst hi
          simp only [hhash, if_false, if_true, Option.some.injEq, iff_false]
          intro hsome
          have := (h.bounded hash' _ hsome).2
          omega
        · simp only [hhash, hi, if_false]
          exact h.inverse hash' i
    · intro hsome
      rw [hsize]
      rw [GoMap.get_insert] at hsome
      by_cases hhash : hash = hash'
      · rw [if_pos hhash] at hsome
        cases hsome
        omega
      · rw [if_neg hhash] at hsome
        have := h.bounded hash' i hsome
        omega
    · rw [map_append, map_append, ← h.list]
      congr 1
      · refine map_congr_left fun i hi => ?_
        rw [GoMap.get_insert, if_neg (hold i hi)]
      · simp [GoMap.get_insert]

def AllIndexed (t : TraceValue ε) (hashes : List (List Word)) : Prop :=
  List.Forall₂ (fun call hs => ∃ ct, call = some ct ∧ Indexed ct hs) t.callTraces hashes

theorem forall₂_modify {α β : Type} {R : α → β → Prop} {f : α → α} {g : β → β}
    (hR : ∀ a b, R a b → R (f a) (g b)) {l : List α} {l' : List β}
    (h : List.Forall₂ R l l') (i : Nat) :
    List.Forall₂ R (l.modify i f) (l'.modify i g) := by
  induction h generalizing i with
  | nil =>
    rw [modify_nil, modify_nil]
    exact .nil
  | cons hab htail ih =>
    cases i with
    | zero => exact .cons (hR _ _ hab) htail
    | succ i => exact .cons hab (ih i)

theorem AllIndexed.onCall {t : TraceValue ε} {hashes : List (List Word)} (h : AllIndexed t hashes)
    {f : CallValue ε → CallValue ε} {g : List Word → List Word}
    (hf : ∀ ct hs, Indexed ct hs → Indexed (f ct) (g hs)) (i : Nat) :
    AllIndexed (t.onCall i f) (hashes.modify i g) := by
  refine forall₂_modify ?_ h i
  rintro call hs ⟨ct, rfl, hct⟩
  exact ⟨f ct, rfl, hf ct hs hct⟩

theorem AllIndexed.record {t : TraceValue ε} {hashes : List (List Word)} (h : AllIndexed t hashes)
    (op : RecordOp ε) : AllIndexed (t.record op) (recordHash hashes op) := by
  have hkeep : ∀ (i : Nat) {f : CallValue ε → CallValue ε},
      (∀ ct hs, Indexed ct hs → Indexed (f ct) hs) →
      AllIndexed (t.onCall i f) hashes := by
    intro i f hf
    have hid := h.onCall (g := id) hf i
    rwa [modify_id] at hid
  cases op with
  | assign i fields => exact hkeep i fun ct hs hct => ⟨hct.inverse, hct.bounded, hct.list⟩
  | op op =>
    cases op with
    | addGasInstRet i gas => exact hkeep i fun ct hs hct => ⟨hct.inverse, hct.bounded, hct.list⟩
    | addLogInstRet i log => exact hkeep i fun ct hs hct => ⟨hct.inverse, hct.bounded, hct.list⟩
    | addSHA3InstRet i hash => exact h.onCall (fun ct hs hct => hct.addSHA3InstRet hash) i
    | addJumpInstPosTarget i pos target =>
      exact hkeep i fun ct hs hct => ⟨hct.inverse, hct.bounded, hct.list⟩
    | incSstoreCount => exact h
    | addSstoreTrace text => exact h
    | addEventTrace topics data => exact h
    | nextCallTrace => exact rel_append h (.cons ⟨_, rfl, indexed_newCall _⟩ .nil)

theorem allIndexed_recorded (ops : List (RecordOp ε)) :
    AllIndexed (recorded ops) (recordedHashes ops) := by
  have hrun : ∀ (t : TraceValue ε) hashes, AllIndexed t hashes →
      AllIndexed (ops.foldl TraceValue.record t) (ops.foldl recordHash hashes) := by
    induction ops with
    | nil => exact fun t hashes h => h
    | cons op ops ih => exact fun t hashes h => ih _ _ (h.record op)
  exact hrun .new [] .nil

structure StoredCall where
  callee : Address
  codeAddr : Address
  codeHash : Word
  callId : Int
  callFn : GoString
  depth : Int
  ret : Bytes
  callGas : Nat
  refundGas : Nat
  leftOverGas : Nat
  errMsg : GoString
  reverted : Bool
  gasInstRet : List Nat
  logInstRet : List TraceLog
  sha3HashToIndex : Option (GoMap Word Int)
  sha3IndexList : List Int
  jumpInstPos : List Nat
  jumpInstTarget : List Word

structure StoredTrace where
  sstoreCount : Int
  sstoreTrace : List GoString
  eventTraces : List EVMEventTrace
  callTraces : List (Option StoredCall)

def CallValue.stored (ct : CallValue ε) : StoredCall where
  callee := ct.callee
  codeAddr := ct.codeAddr
  codeHash := ct.codeHash
  callId := ct.callId
  callFn := ct.callFn
  depth := ct.depth
  ret := ct.ret
  callGas := ct.callGas
  refundGas := ct.refundGas
  leftOverGas := ct.leftOverGas
  errMsg := ct.errMsg
  reverted := ct.reverted
  gasInstRet := ct.gasInstRet
  logInstRet := ct.logInstRet
  sha3HashToIndex := if ct.sha3HashToIndex.size = 0 then none else some ct.sha3HashToIndex
  sha3IndexList := ct.sha3IndexList
  jumpInstPos := ct.jumpInstPos
  jumpInstTarget := ct.jumpInstTarget

def TraceValue.stored (t : TraceValue ε) : StoredTrace :=
  ⟨t.sstoreCount, t.sstoreTrace, t.eventTraces, t.callTraces.map (Option.map CallValue.stored)⟩

/-- `encoding/json` on traces: texts are of type `β`, and decoding undoes encoding. -/
structure TraceJson (β : Type) where
  marshal : StoredTrace → β
  unmarshal : β → Option StoredTrace
  unmarshal_marshal : ∀ t, unmarshal (marshal t) = some t

structure GoErrors (ε : Type) where
  new : GoString → ε
  text : ε → GoString
  text_new : ∀ msg, text (new msg) = msg

def stage2EVMTraceKey (block tx : Nat) : Bytes := [50, 101] ++ beBytes 8 block ++ beBytes 8 tx

section store
variable {β : Type} (json : TraceJson β) (errors : GoErrors ε)

/-- `if ct.Err != nil { ct.ErrMsg = ct.Err.Error() }` -/
def CallValue.setErrMsg (ct : CallValue ε) : CallValue ε :=
  match ct.err with
  | some err => { ct with errMsg := errors.text err }
  | none => ct

def TraceValue.setErrMsgs (t : TraceValue ε) : TraceValue ε :=
  { t with callTraces := t.callTraces.map (Option.map (CallValue.setErrMsg errors)) }

def forCalls {δ : Type} (f : δ → CallValue ε) (calls : List (Option δ)) :
    Except GoPanic (List (Option (CallValue ε))) :=
  calls.mapM fun
    | some ct => .ok (some (f ct))
    | none => .error .nilDereference

def putEVMTrace (db : Bytes → Option β) (block tx : Nat) (et : TraceValue ε) :
    Except GoPanic ((Bytes → Option β) × TraceValue ε) := do
  let calls ← forCalls (CallValue.setErrMsg errors) et.callTraces
  let et := { et with callTraces := calls }
  .ok (Function.update db (stage2EVMTraceKey block tx) (some (json.marshal et.stored)), et)

/-- What `GetEVMTrace` makes of a decoded call trace; the map is walked in any order. -/
def StoredCall.load (order : GoMap Word Int → List (Word × Int)) (ct : StoredCall) :
    CallValue ε where
  callee := ct.callee
  codeAddr := ct.codeAddr
  codeHash := ct.codeHash
  callId := ct.callId
  callFn := ct.callFn
  depth := ct.depth
  ret := ct.ret
  callGas := ct.callGas
  refundGas := ct.refundGas
  leftOverGas := ct.leftOverGas
  err := if ct.errMsg ≠ [] then some (errors.new ct.errMsg) else none
  errMsg := ct.errMsg
  reverted := ct.reverted
  gasInstRet := ct.gasInstRet
  logInstRet := ct.logInstRet
  sha3HashToIndex := ct.sha3HashToIndex.getD ∅
  sha3IndexToHash :=
    match ct.sha3HashToIndex with
    | some m => (order m).foldl (fun n e => n.insert e.2 e.1) ∅
    | none => ∅
  sha3IndexList := ct.sha3IndexList
  jumpInstPos := ct.jumpInstPos
  jumpInstTarget := ct.jumpInstTarget

def getEVMTrace (order : GoMap Word Int → List (Word × Int)) (db : Bytes → Option β)
    (block tx : Nat) :
    Except GoPanic (TraceValue ε) := do
  match db (stage2EVMTraceKey block tx) with
  | none => .error (.text ("substrate-interpreter: error getting trace of substate ".toList ++
      GoString.itoa block ++ ['_'] ++ GoString.itoa tx ++ " from substate DB: not found,".toList))
  | some value =>
    match json.unmarshal value with
    | none => .error (.text ("substrate-interpreter: error decoding trace of substate ".toList ++
        GoString.itoa block ++ ['_'] ++ GoString.itoa tx))
    | some et =>
      let calls ← forCalls (StoredCall.load errors order) et.callTraces
      .ok ⟨et.sstoreCount, et.sstoreTrace, et.eventTraces, calls⟩

/-- The logs agree in their derived fields too. -/
def CallValue.Agree (x y : CallValue ε) : Prop :=
  x.toEVMCallTrace.Agree errors.text y.toEVMCallTrace ∧ x.errMsg = y.errMsg ∧
    x.logInstRet = y.logInstRet

structure TraceValue.Agree (x y : TraceValue ε) : Prop where
  sstoreCount : x.sstoreCount = y.sstoreCount
  sstoreTrace : x.sstoreTrace = y.sstoreTrace
  eventTraces : x.eventTraces = y.eventTraces
  callTraces : List.Forall₂ (Option.Rel (CallValue.Agree errors)) x.callTraces y.callTraces

def CallValue.ErrorFits (ct : CallValue ε) : Prop :=
  (∀ err, ct.err = some err → errors.text err ≠ []) ∧
    (ct.errMsg = [] ∨ ∃ err, ct.err = some err ∧ ct.errMsg = errors.text err)

variable {errors}
variable {order : GoMap Word Int → List (Word × Int)}

theorem rebuilt (horder : ∀ m, (order m).Perm m.toList) (h : Indexed ct hashes) :
    (order ct.sha3HashToIndex).foldl (fun n e => n.insert e.2 e.1) (∅ : GoMap Int Word) =
      ct.sha3IndexToHash := by
  have hmem : ∀ e : Word × Int, e ∈ order ct.sha3HashToIndex ↔
      ct.sha3IndexToHash[e.2]? = some e.1 := by
    intro e
    rw [(horder _).mem_iff, ← h.inverse e.1 e.2]
    exact GoMap.mem_toList
  have hnodup : ((order ct.sha3HashToIndex).map Prod.snd).Nodup := by
    have hkeys : ((order ct.sha3HashToIndex).map Prod.fst).Nodup :=
      ((horder _).map Prod.fst).nodup_iff.mpr (GoMap.toList_keys_nodup _)
    refine List.Nodup.map_on ?_ (List.Nodup.of_map _ hkeys)
    intro e he e' he' heq
    have hsame : some e.1 = some e'.1 := by
      rw [← (hmem e).mp he, heq]
      exact (hmem e').mp he'
    exact Prod.ext (Option.some.inj hsame) heq
  refine GoMap.ext fun i => ?_
  refine Option.ext fun hash => ?_
  rw [GoMap.get_foldl_insert hnodup]
  constructor
  · rintro (⟨e, he, rfl, rfl⟩ | ⟨-, hnone⟩)
    · exact (hmem e).mp he
    · simp at hnone
  · intro hsome
    exact .inl ⟨(hash, i), (hmem (hash, i)).mpr hsome, rfl, rfl⟩

theorem Indexed.eq_empty (h : Indexed ct hashes) (hsize : ct.sha3HashToIndex.size = 0) :
    ct.sha3HashToIndex = ∅ ∧ ct.sha3IndexToHash = ∅ := by
  have hempty : ct.sha3HashToIndex = ∅ := by
    refine GoMap.ext fun hash => ?_
    have hnot : hash ∉ ct.sha3HashToIndex := by
      intro hmem
      have hnone := GoMap.mem_of_subset_of_size (m := (∅ : GoMap Word Int))
          (by simp) (by simp [hsize])
        hash hmem
      simp at hnone
    rw [Std.ExtTreeMap.getElem?_eq_none hnot]
    simp
  refine ⟨hempty, GoMap.ext fun i => ?_⟩
  refine Option.ext fun hash => ?_
  rw [← h.inverse hash i, hempty]
  simp

theorem setErrMsg_indexed (h : Indexed ct hashes) :
    Indexed (ct.setErrMsg errors) hashes := by
  unfold CallValue.setErrMsg
  split
  · exact ⟨h.inverse, h.bounded, h.list⟩
  · exact h

theorem setErrMsg_err (h : ct.ErrorFits errors) :
    (ct.setErrMsg errors).err.map errors.text =
      if (ct.setErrMsg errors).errMsg ≠ [] then some (ct.setErrMsg errors).errMsg else none := by
  unfold CallValue.setErrMsg
  split
  · next err herr =>
    have hne := h.1 err herr
    simp [herr, hne]
  · next hnone =>
    have hmsg : ct.errMsg = [] := by
      rcases h.2 with hmsg | ⟨err, herr, -⟩
      · exact hmsg
      · rw [hnone] at herr
        cases herr
    simp [hnone, hmsg]

theorem load_stored (horder : ∀ m, (order m).Perm m.toList) (h : Indexed ct hashes)
    (herr : ct.err.map errors.text = if ct.errMsg ≠ [] then some ct.errMsg else none) :
    ct.Agree errors (ct.stored.load errors order) := by
  have hmaps : ct.sha3HashToIndex = (ct.stored.load errors order).sha3HashToIndex ∧
      ct.sha3IndexToHash = (ct.stored.load errors order).sha3IndexToHash := by
    unfold CallValue.stored StoredCall.load
    by_cases hsize : ct.sha3HashToIndex.size = 0
    · simp only [if_pos hsize, Option.getD_none]
      exact h.eq_empty hsize
    · simp only [if_neg hsize, Option.getD_some, true_and]
      exact (rebuilt horder h).symm
  refine ⟨⟨⟨rfl, rfl, rfl, rfl, rfl, rfl, rfl, rfl, rfl, ?_, rfl⟩,
    ⟨rfl, rfl, hmaps.1, hmaps.2, rfl, rfl⟩, rfl, rfl⟩, rfl, rfl⟩
  rw [herr]
  change _ = Option.map errors.text (if ct.errMsg ≠ [] then some (errors.new ct.errMsg) else none)
  split
  · rw [Option.map_some, errors.text_new]
  · rfl

theorem CallValue.Agree.getSHA3InstRetAt {x y : CallValue ε} (h : x.Agree errors y)
    (hx : Indexed x hashes) (i : Nat) : y.getSHA3InstRetAt i =
      match hashes[i]? with
      | some hash => .ok hash
      | none => .error .indexOutOfRange := by
  have hget : x.getSHA3InstRetAt i = y.getSHA3InstRetAt i := by
    unfold CallValue.getSHA3InstRetAt
    rw [h.1.sha3IndexList, h.1.sha3IndexToHash]
  have hlist := congrArg (·[i]?) hx.list
  simp only [getElem?_map] at hlist
  rw [← hget, CallValue.getSHA3InstRetAt]
  cases hindex : x.sha3IndexList[i]? with
  | none =>
    rw [hindex, Option.map_none] at hlist
    rw [Option.map_eq_none_iff.mp hlist.symm]
  | some index =>
    rw [hindex, Option.map_some] at hlist
    obtain ⟨hash, hhash, heq⟩ := Option.map_eq_some_iff.mp hlist.symm
    rw [hhash]
    dsimp only
    rw [← heq, Option.getD_some]

theorem forCalls_map_some {δ : Type} (f : δ → CallValue ε) (calls : List δ) :
    forCalls f (calls.map some) = .ok (calls.map (some ∘ f)) := by
  induction calls with
  | nil => rfl
  | cons ct calls ih =>
    rw [forCalls] at ih ⊢
    rw [map_cons, mapM_cons, ih]
    rfl

theorem AllIndexed.calls {t : TraceValue ε} {hashes : List (List Word)} (h : AllIndexed t hashes) :
    ∃ cts, t.callTraces = cts.map some ∧ List.Forall₂ Indexed cts hashes := by
  obtain ⟨count, stores, events, calls⟩ := t
  change List.Forall₂ _ calls hashes at h
  induction h with
  | nil => exact ⟨[], rfl, .nil⟩
  | cons hct _ ih =>
    obtain ⟨ct, rfl, hct⟩ := hct
    obtain ⟨cts, heq, hcts⟩ := ih
    exact ⟨ct :: cts, by rw [map_cons, ← show _ = cts.map some from heq], .cons hct hcts⟩

/-- What a database returns for a trace just stored: it agrees with the trace in every field, and
the `i`-th hash of a call is the `i`-th one passed to `AddSHA3InstRet`. -/
structure ReadBack (errors : GoErrors ε) (hashes : List (List Word)) (et loaded : TraceValue ε) :
    Prop where
  agree : et.Agree errors loaded
  hashes : List.Forall₂ (fun call hs => ∃ ct, call = some ct ∧ ∀ i, ct.getSHA3InstRetAt i =
    match hs[i]? with
    | some hash => .ok hash
    | none => .error .indexOutOfRange) loaded.callTraces hashes

theorem readBack_calls (horder : ∀ m, (order m).Perm m.toList) {cts : List (CallValue ε)}
    {hashes : List (List Word)} (hindexed : List.Forall₂ Indexed cts hashes)
    (hfits : ∀ ct ∈ cts, ct.ErrorFits errors) :
    List.Forall₂ (fun ct hs => Indexed (ct.setErrMsg errors) hs ∧
      (ct.setErrMsg errors).Agree errors ((ct.setErrMsg errors).stored.load errors order))
      cts hashes := by
  induction hindexed with
  | nil => exact .nil
  | cons hct _ ih =>
    have hset : Indexed (CallValue.setErrMsg errors _) _ := setErrMsg_indexed hct
    have hagree := load_stored horder hset (setErrMsg_err (hfits _ mem_cons_self))
    exact .cons ⟨hset, hagree⟩ (ih fun ct hmem => hfits ct (mem_cons_of_mem _ hmem))

/-- A recorded trace comes back from the database: `PutEVMTrace` changes nothing but the texts of
the errors, and `GetEVMTrace` returns a trace that agrees with the one that was put. -/
theorem getEVMTrace_putEVMTrace {order : GoMap Word Int → List (Word × Int)}
    (horder : ∀ m, (order m).Perm m.toList) (ops : List (RecordOp ε))
    (herrors : ∀ ct, some ct ∈ (recorded ops).callTraces → ct.ErrorFits errors)
    (db : Bytes → Option β) (block tx : Nat) :
    ∃ db' loaded, putEVMTrace json errors db block tx (recorded ops) =
        .ok (db', (recorded ops).setErrMsgs errors) ∧
      getEVMTrace json errors order db' block tx = .ok loaded ∧
      ReadBack errors (recordedHashes ops) ((recorded ops).setErrMsgs errors) loaded := by
  obtain ⟨cts, hcalls, hindexed⟩ := (allIndexed_recorded ops).calls
  have hfits : ∀ ct ∈ cts, ct.ErrorFits errors := fun ct hct =>
    herrors ct (hcalls ▸ mem_map_of_mem hct)
  have hback := readBack_calls horder hindexed hfits
  generalize recorded ops = t at hcalls ⊢
  have hset : t.setErrMsgs errors = { t with
      callTraces := cts.map (some ∘ CallValue.setErrMsg errors) } := by
    rw [TraceValue.setErrMsgs, hcalls, map_map]
    rfl
  have hput : forCalls (CallValue.setErrMsg errors) t.callTraces =
      .ok (cts.map (some ∘ CallValue.setErrMsg errors)) := by
    rw [hcalls, forCalls_map_some]
  have hstored : (t.setErrMsgs errors).stored.callTraces =
      (cts.map fun ct => (ct.setErrMsg errors).stored).map some := by
    rw [hset, TraceValue.stored, map_map, map_map]
    rfl
  refine ⟨Function.update db (stage2EVMTraceKey block tx)
      (some (json.marshal (t.setErrMsgs errors).stored)),
    ⟨t.sstoreCount, t.sstoreTrace, t.eventTraces,
      cts.map fun ct => some ((ct.setErrMsg errors).stored.load errors order)⟩, ?_, ?_, ?_, ?_⟩
  · rw [putEVMTrace, hput, hset]
    rfl
  · have hload := forCalls_map_some (StoredCall.load errors order)
      (cts.map fun ct => (ct.setErrMsg errors).stored)
    simp only [getEVMTrace, Function.update_self, json.unmarshal_marshal, hstored, hload]
    rw [map_map]
    rfl
  · refine ⟨rfl, rfl, rfl, ?_⟩
    rw [hset, forall₂_map_left_iff, forall₂_map_right_iff, forall₂_same]
    intro ct hct
    obtain ⟨i, hi, rfl⟩ := getElem_of_mem hct
    exact .some ((forall₂_iff_get.mp hback).2 i hi (hback.length_eq ▸ hi)).2
  · rw [forall₂_map_left_iff]
    exact hback.imp fun ct hs h => ⟨_, rfl, fun i => h.2.getSHA3InstRetAt h.1 i⟩

end store

def plainJson : TraceJson StoredTrace := ⟨id, some, fun _ => rfl⟩

def plainErrors : GoErrors GoString := ⟨id, id, fun _ => rfl⟩

/-- A call that stores, logs and hashes, and is reverted. -/
def twoHashes : List (RecordOp GoString) :=
  [.op .nextCallTrace, .op .incSstoreCount, .op (.addSHA3InstRet 0 5), .op (.addSHA3InstRet 0 7),
    .op (.addSHA3InstRet 0 5), .op (.addLogInstRet 0 ⟨⟨1, [2], [3]⟩, { blockNumber := 46147 }⟩),
    .assign 0 ⟨1, 1, 0, "Call".toList, 1, [], 9, 4800, 3,
    some "execution reverted".toList, [], true⟩]

theorem getEVMTrace_putEVMTrace_two_hashes :
    ∃ db' loaded, putEVMTrace plainJson plainErrors (fun _ => none) 46147 0 (recorded twoHashes) =
        .ok (db', (recorded twoHashes).setErrMsgs plainErrors) ∧
      getEVMTrace plainJson plainErrors Std.ExtTreeMap.toList db' 46147 0 = .ok loaded ∧
      ReadBack plainErrors [[5, 7, 5]] ((recorded twoHashes).setErrMsgs plainErrors) loaded := by
  refine getEVMTrace_putEVMTrace plainJson (fun _ => .rfl) twoHashes (fun ct hct => ?_) _ 46147 0
  cases mem_singleton.mp hct
  refine ⟨fun err herr => ?_, .inl rfl⟩
  cases herr
  decide

end EtherVal.Research
