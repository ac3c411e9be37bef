import EtherVal.Lib.GoMap
import EtherVal.TacParser.Parser
import EtherVal.TacParser.TransformFunction
import EtherVal.Vm.Memory

/-!
# The caches of TAC programs (`contract.go:253-372`, `evm.go:616-785`)

The programs and the texts are cached under the `CodeHash` of a contract, while the file is looked
up by its address and its code as well.
-/

namespace EtherVal.Vm
open EtherVal.Lib EtherVal.TacParser

structure CodeRef where
  codeAddr : Address
  codeHash : Word
  code : Bytes
  deriving DecidableEq, Repr

/-- The directory of TAC files, and the hash functions. -/
structure TACDir where
  files : GoString → Option GoString
  /-- `Address.Hex()`, with its checksum -/
  checksumHex : Address → GoString
  md5 : Bytes → Bytes
  keccak256 : Bytes → Word

def encodeToString (b : Bytes) : GoString :=
  b.flatMap fun x => [Nat.digitChar (x.toNat / 16), Nat.digitChar (x.toNat % 16)]

def hashHex (hash : Word) : GoString := "0x".toList ++ encodeToString (Uint256.bytes32 hash)

def tacSuffix : GoString := ".tac".toList

/-- The two memo tables.  The second one holds errors, too. -/
structure Caches where
  tacLRU : GoMap Word GoString := ∅
  tacProgCache : GoMap Word (Except VmError TACProgram) := ∅

namespace TACDir
variable (d : TACDir)

def findFile (contract : CodeRef) : Option GoString :=
  let read (name : GoString) := d.files (name ++ tacSuffix)
  let hexCode := (encodeToString contract.code).map fun ch => UInt8.ofNat ch.toNat
  (read (d.checksumHex contract.codeAddr)).or <| (read (hashHex contract.codeHash)).or <|
    (read (encodeToString (d.md5 contract.code))).or <| read (encodeToString (d.md5 hexCode))

def readTAC (contract : CodeRef) (s : Caches) : Option GoString × Caches :=
  match s.tacLRU[contract.codeHash]? with
  | some tac => (some tac, s)
  | none =>
    match d.findFile contract with
    | none => (none, s)
    | some tac => (some tac, { s with tacLRU := s.tacLRU.insert contract.codeHash tac })

/-- `TransformProgram(ParseProgram(tac))` under `recover`; there is no answer when the parser does
not return. -/
def loadProg (tac : GoString) : Option (Except VmError TACProgram) :=
  match parseProgram tac with
  | .error .diverges => none
  | .error (.panic _) => some (.error .tacParseError)
  | .ok ast =>
    match transformProgram ast with
    | .error _ => some (.error .tacParseError)
    | .ok prog => some (.ok prog)

/-- `safeTACProg`, which is all of `getTACProg`.  A call that does not return leaves its text in the
cache for the calls of the other workers. -/
def getTACProg (contract : CodeRef) (s : Caches) : Option (Except VmError TACProgram) × Caches :=
  match s.tacProgCache[contract.codeHash]? with
  | some value => (some value, s)
  | none =>
    let (tac, s) := d.readTAC contract s
    let value := match tac with
      | none => some (.error .tacNoTac)
      | some tac => loadProg tac
    match value with
    | none => (none, s)
    | some value =>
      (some value, { s with tacProgCache := s.tacProgCache.insert contract.codeHash value })

def uncached (contract : CodeRef) : Option (Except VmError TACProgram) :=
  match d.findFile contract with
  | none => some (.error .tacNoTac)
  | some tac => loadProg tac

end TACDir

inductive FrameCode where
  /-- `EVM.Create` -/
  | create (contractAddr : Address) (code : Bytes)
  /-- `EVM.Create2` -/
  | create2 (contractAddr : Address) (code : Bytes)
  /-- `Call`, `CallCode`, `DelegateCall` and `StaticCall`: the code of an account, if it exists -/
  | call (addr : Address) (account : Option Bytes)
  deriving DecidableEq, Repr

/-- `codeAndHash`, whose hash is zero until `Hash()` is asked. -/
structure CodeAndHash where
  code : Bytes
  hash : Word := 0

def CodeAndHash.fill (d : TACDir) (c : CodeAndHash) : CodeAndHash :=
  if c.hash = 0 then { c with hash := d.keccak256 c.code } else c

def setCodeOptionalHash (addr : Address) (c : CodeAndHash) : CodeRef := ⟨addr, c.hash, c.code⟩

def setCallCode (addr : Address) (hash : Word) (code : Bytes) : CodeRef := ⟨addr, hash, code⟩

/-- `Create` never asks for the hash of its code, `Create2` does for the address. -/
def FrameCode.contract (d : TACDir) : FrameCode → CodeRef
  | create contractAddr code => setCodeOptionalHash contractAddr { code }
  | create2 contractAddr code => setCodeOptionalHash contractAddr (CodeAndHash.fill d { code })
  | call addr account => setCallCode addr ((account.map d.keccak256).getD 0) (account.getD [])

inductive CacheStep where
  | get (frame : FrameCode)
  | evictText (key : Word)
  | evictProg (key : Word)

def CacheStep.frame : CacheStep → Option FrameCode
  | get frame => some frame
  | _ => none

def cacheRun (d : TACDir) :
    Caches → List CacheStep → List (CodeRef × Option (Except VmError TACProgram))
  | _, [] => []
  | s, .get frame :: rest =>
    let (value, s) := d.getTACProg (frame.contract d) s
    (frame.contract d, value) :: cacheRun d s rest
  | s, .evictText key :: rest => cacheRun d { s with tacLRU := s.tacLRU.erase key } rest
  | s, .evictProg key :: rest => cacheRun d { s with tacProgCache := s.tacProgCache.erase key } rest

section
variable {d : TACDir} {s : Caches}

structure CachesSound (d : TACDir) (contracts : CodeRef → Prop) (s : Caches) : Prop where
  text : ∀ {c tac}, contracts c → s.tacLRU[c.codeHash]? = some tac →
    d.uncached c = TACDir.loadProg tac
  prog : ∀ {c value}, contracts c → s.tacProgCache[c.codeHash]? = some value →
    d.uncached c = some value

def HashDecides (d : TACDir) (contracts : CodeRef → Prop) : Prop :=
  ∀ c c', contracts c → contracts c' → c.codeHash = c'.codeHash → d.uncached c = d.uncached c'

variable {contracts : CodeRef → Prop}

theorem cachesSound_empty : CachesSound d contracts {} where
  text _ h := by simp at h
  prog _ h := by simp at h

theorem CachesSound.insertText (h : CachesSound d contracts s) (hdecides : HashDecides d contracts)
    {c : CodeRef} (hc : contracts c) {tac : GoString} (htac : d.uncached c = TACDir.loadProg tac) :
    CachesSound d contracts { s with tacLRU := s.tacLRU.insert c.codeHash tac } where
  text {c' tac'} hc' h' := by
    dsimp only at h'
    rw [GoMap.get_insert] at h'
    split at h'
    · next heq => rw [← Option.some.inj h', ← htac, hdecides c' c hc' hc heq.symm]
    · exact h.text hc' h'
  prog := h.prog

theorem CachesSound.insertProg (h : CachesSound d contracts s) (hdecides : HashDecides d contracts)
    {c : CodeRef} (hc : contracts c) {value : Except VmError TACProgram}
    (hvalue : d.uncached c = some value) :
    CachesSound d contracts { s with tacProgCache := s.tacProgCache.insert c.codeHash value } where
  text := h.text
  prog {c' value'} hc' h' := by
    dsimp only at h'
    rw [GoMap.get_insert] at h'
    split at h'
    · next heq => rw [← h', ← hvalue, hdecides c' c hc' hc heq.symm]
    · exact h.prog hc' h'

theorem CachesSound.evict (h : CachesSound d contracts s) (key : Word) :
    CachesSound d contracts { s with tacLRU := s.tacLRU.erase key } ∧
      CachesSound d contracts { s with tacProgCache := s.tacProgCache.erase key } := by
  refine ⟨⟨fun hc h' => ?_, h.prog⟩, ⟨h.text, fun hc h' => ?_⟩⟩
  · dsimp only at h'
    rw [GoMap.get_erase] at h'
    split at h'
    · cases h'
    · exact h.text hc h'
  · dsimp only at h'
    rw [GoMap.get_erase] at h'
    split at h'
    · cases h'
    · exact h.prog hc h'

theorem CachesSound.readTAC (h : CachesSound d contracts s) (hdecides : HashDecides d contracts)
    {c : CodeRef} (hc : contracts c) :
    CachesSound d contracts (d.readTAC c s).2 ∧
      d.uncached c = (match (d.readTAC c s).1 with
        | none => some (.error .tacNoTac)
        | some tac => TACDir.loadProg tac) := by
  unfold TACDir.readTAC
  cases htac : s.tacLRU[c.codeHash]? with
  | some tac => exact ⟨h, h.text hc htac⟩
  | none =>
    cases hfile : d.findFile c with
    | none => exact ⟨h, by rw [TACDir.uncached, hfile]⟩
    | some tac =>
      have huncached : d.uncached c = TACDir.loadProg tac := by rw [TACDir.uncached, hfile]
      exact ⟨h.insertText hdecides hc huncached, huncached⟩

theorem CachesSound.getTACProg (h : CachesSound d contracts s) (hdecides : HashDecides d contracts)
    {c : CodeRef} (hc : contracts c) :
    (d.getTACProg c s).1 = d.uncached c ∧ CachesSound d contracts (d.getTACProg c s).2 := by
  unfold TACDir.getTACProg
  cases hprog : s.tacProgCache[c.codeHash]? with
  | some value => exact ⟨(h.prog hc hprog).symm, h⟩
  | none =>
    obtain ⟨hsound, hvalue⟩ := h.readTAC hdecides hc
    dsimp only
    rw [← hvalue]
    cases huncached : d.uncached c with
    | none => exact ⟨rfl, hsound⟩
    | some value => exact ⟨rfl, hsound.insertProg hdecides hc huncached⟩

theorem CachesSound.cacheRun {steps : List CacheStep} (h : CachesSound d contracts s)
    (hdecides : HashDecides d contracts)
    (hsteps : ∀ frame, .get frame ∈ steps → contracts (frame.contract d)) :
    ∀ p ∈ cacheRun d s steps, p.2 = d.uncached p.1 := by
  induction steps generalizing s with
  | nil => exact fun p hp => nomatch hp
  | cons step steps ih =>
    have hrest := fun frame hframe => hsteps frame (List.mem_cons_of_mem step hframe)
    cases step with
    | get frame =>
      obtain ⟨hvalue, hsound⟩ := h.getTACProg hdecides (hsteps frame List.mem_cons_self)
      exact List.forall_mem_cons.mpr ⟨hvalue, ih hsound hrest⟩
    | evictText key => exact ih (h.evict key).1 hrest
    | evictProg key => exact ih (h.evict key).2 hrest

def Holds (s : Caches) (key : Word) : Option (Except VmError TACProgram) → Prop
  | some value => s.tacProgCache[key]? = some value
  | none => s.tacProgCache[key]? = none ∧ ∃ tac, s.tacLRU[key]? = some tac ∧
      TACDir.loadProg tac = none

theorem Holds.getTACProg {c : CodeRef} {value : Option (Except VmError TACProgram)}
    (h : Holds s c.codeHash value) : d.getTACProg c s = (value, s) := by
  cases value with
  | some value =>
    unfold TACDir.getTACProg
    rw [show s.tacProgCache[c.codeHash]? = some value from h]
  | none =>
    obtain ⟨hprog, tac, htac, hload⟩ := h
    unfold TACDir.getTACProg TACDir.readTAC
    rw [hprog, htac]
    dsimp only
    rw [hload]

theorem holds_getTACProg (d : TACDir) (c : CodeRef) (s : Caches) :
    Holds (d.getTACProg c s).2 c.codeHash (d.getTACProg c s).1 := by
  unfold TACDir.getTACProg
  cases hprog : s.tacProgCache[c.codeHash]? with
  | some value => exact hprog
  | none =>
    have hinsert : ∀ (s : Caches) value, Holds { s with
        tacProgCache := s.tacProgCache.insert c.codeHash value } c.codeHash (some value) :=
      fun s value => (GoMap.get_insert _ _ _ _).trans (if_pos rfl)
    unfold TACDir.readTAC
    cases htac : s.tacLRU[c.codeHash]? with
    | some tac =>
      dsimp only
      cases hload : TACDir.loadProg tac with
      | some value => exact hinsert _ _
      | none => exact ⟨hprog, tac, htac, hload⟩
    | none =>
      cases d.findFile c with
      | none => exact hinsert _ _
      | some tac =>
        dsimp only
        cases hload : TACDir.loadProg tac with
        | some value => exact hinsert _ _
        | none => exact ⟨hprog, tac, (GoMap.get_insert _ _ _ _).trans (if_pos rfl), hload⟩

theorem getTACProg_other {c : CodeRef} {key : Word} (hkey : c.codeHash ≠ key) :
    (d.getTACProg c s).2.tacLRU[key]? = s.tacLRU[key]? ∧
      (d.getTACProg c s).2.tacProgCache[key]? = s.tacProgCache[key]? := by
  have hread : (d.readTAC c s).2.tacLRU[key]? = s.tacLRU[key]? ∧
      (d.readTAC c s).2.tacProgCache = s.tacProgCache := by
    unfold TACDir.readTAC
    cases s.tacLRU[c.codeHash]? with
    | some tac => exact ⟨rfl, rfl⟩
    | none =>
      cases d.findFile c with
      | none => exact ⟨rfl, rfl⟩
      | some tac => exact ⟨(GoMap.get_insert _ _ _ _).trans (if_neg hkey), rfl⟩
  unfold TACDir.getTACProg
  cases s.tacProgCache[c.codeHash]? with
  | some value => exact ⟨rfl, rfl⟩
  | none =>
    dsimp only
    split
    · exact ⟨hread.1, by rw [hread.2]⟩
    · refine ⟨hread.1, (GoMap.get_insert _ _ _ _).trans ((if_neg hkey).trans ?_)⟩
      rw [hread.2]

theorem Holds.kept {c : CodeRef} {key : Word} {value : Option (Except VmError TACProgram)}
    (h : Holds s key value) : Holds (d.getTACProg c s).2 key value := by
  by_cases hkey : c.codeHash = key
  · subst hkey
    rw [h.getTACProg]
    exact h
  · obtain ⟨htext, hprog⟩ := getTACProg_other (d := d) (s := s) hkey
    unfold Holds at h ⊢
    rw [htext, hprog]
    exact h

theorem Holds.cacheRun {frames : List FrameCode} {key : Word}
    {value : Option (Except VmError TACProgram)} (h : Holds s key value) :
    ∀ p ∈ cacheRun d s (frames.map .get), p.1.codeHash = key → p.2 = value := by
  induction frames generalizing s with
  | nil => exact fun p hp => nomatch hp
  | cons frame frames ih =>
    refine List.forall_mem_cons.mpr ⟨fun hkey => ?_, ih h.kept⟩
    subst hkey
    exact congrArg Prod.fst h.getTACProg

theorem cacheRun_same_hash {frames : List FrameCode} :
    ∀ p ∈ cacheRun d s (frames.map .get), ∀ q ∈ cacheRun d s (frames.map .get),
      p.1.codeHash = q.1.codeHash → p.2 = q.2 := by
  induction frames generalizing s with
  | nil => exact fun p hp => nomatch hp
  | cons frame frames ih =>
    have hfirst := @Holds.cacheRun d _ frames _ _ (holds_getTACProg d (frame.contract d) s)
    intro p hp q hq heq
    rcases List.mem_cons.mp hp with rfl | hp
    · rcases List.mem_cons.mp hq with rfl | hq
      · rfl
      · exact (hfirst q hq heq.symm).symm
    · rcases List.mem_cons.mp hq with rfl | hq
      · exact hfirst p hp heq
      · exact ih p hp q hq heq

theorem exists_mem_cacheRun {frames : List FrameCode} {frame : FrameCode} (h : frame ∈ frames) :
    ∃ p ∈ cacheRun d s (frames.map .get), p.1 = frame.contract d := by
  induction frames generalizing s with
  | nil => cases h
  | cons f frames ih =>
    rcases List.mem_cons.mp h with rfl | h
    · exact ⟨_, List.mem_cons_self, rfl⟩
    · obtain ⟨p, hp, hframe⟩ := @ih (d.getTACProg (f.contract d) s).2 h
      exact ⟨p, List.mem_cons_of_mem _ hp, hframe⟩

/-- The caches are transparent for a sequence of calls, whatever falls out of them in between,
exactly when contracts with one `CodeHash` have one program. -/
theorem cacheRun_transparent_iff (d : TACDir) (frames : List FrameCode) :
    (∀ steps : List CacheStep, steps.filterMap CacheStep.frame = frames →
      ∀ p ∈ cacheRun d {} steps, p.2 = d.uncached p.1) ↔
    HashDecides d fun c => ∃ frame ∈ frames, frame.contract d = c := by
  constructor
  · rintro h _ _ ⟨frame, hframe, rfl⟩ ⟨frame', hframe', rfl⟩ heq
    have hcalls : (frames.map CacheStep.get).filterMap CacheStep.frame = frames := by
      rw [List.filterMap_map]
      exact List.filterMap_some
    have hresults := h _ hcalls
    obtain ⟨p, hp, hpc⟩ := exists_mem_cacheRun (d := d) (s := {}) hframe
    obtain ⟨q, hq, hqc⟩ := exists_mem_cacheRun (d := d) (s := {}) hframe'
    have hsame : p.2 = q.2 := cacheRun_same_hash p hp q hq (by rw [hpc, hqc, heq])
    rw [← hpc, ← hqc, ← hresults p hp, ← hresults q hq, hsame]
  · rintro hdecides steps rfl
    refine cachesSound_empty.cacheRun hdecides fun frame hframe => ?_
    exact ⟨frame, List.mem_filterMap.mpr ⟨_, hframe, rfl⟩, rfl⟩

end

theorem cacheRun_two {d : TACDir} {f g : FrameCode}
    (h : (f.contract d).codeHash = (g.contract d).codeHash) :
    cacheRun d {} [.get f, .get g] =
      [(f.contract d, d.uncached (f.contract d)), (g.contract d, d.uncached (f.contract d))] := by
  have hempty : CachesSound d (· = f.contract d) {} := cachesSound_empty
  have hone : HashDecides d (· = f.contract d) := by
    rintro _ _ rfl rfl -
    rfl
  have hfirst := (hempty.getTACProg hone rfl).1
  have hholds := holds_getTACProg d (f.contract d) {}
  rw [h] at hholds
  unfold cacheRun cacheRun cacheRun
  dsimp only
  rw [hholds.getTACProg, hfirst]

def stopText : GoString :=
  "function f()() public \x7b Begin block 0x0 prev = [], succ = [] 0x0: STOP \x7d".toList

def createDir : TACDir where
  files name := if name = "A.tac".toList then some stopText else none
  checksumHex a := if a = 1 then "A".toList else "B".toList
  md5 b := b
  keccak256 _ := 1

def givesProg : Option (Except VmError TACProgram) → Bool
  | some (.ok _) => true
  | _ => false

theorem exists_prog {r : Option (Except VmError TACProgram)} (h : givesProg r = true) :
    ∃ prog, r = some (.ok prog) := by
  rcases r with _ | _ | prog
  · cases h
  · cases h
  · exact ⟨prog, rfl⟩

/-- The second contract has no file, and `Create` gives it the hash of the first. -/
theorem created_contracts_share_program :
    ∃ prog, cacheRun createDir {} [.get (.create 1 [1]), .get (.create 2 [2])] =
        [(⟨1, 0, [1]⟩, some (.ok prog)), (⟨2, 0, [2]⟩, some (.ok prog))] ∧
      createDir.uncached ⟨2, 0, [2]⟩ = some (.error .tacNoTac) := by
  obtain ⟨prog, hprog⟩ : ∃ prog, TACDir.loadProg stopText = some (.ok prog) :=
    exists_prog (by decide +kernel)
  have hfile : createDir.findFile ⟨1, 0, [1]⟩ = some stopText := by decide +kernel
  have hnone : createDir.findFile ⟨2, 0, [2]⟩ = none := by decide +kernel
  have huncached : createDir.uncached ⟨1, 0, [1]⟩ = some (.ok prog) := by
    unfold TACDir.uncached
    rw [hfile]
    exact hprog
  have hrun := @cacheRun_two createDir (.create 1 [1]) (.create 2 [2]) rfl
  have hfirst : FrameCode.contract createDir (.create 1 [1]) = ⟨1, 0, [1]⟩ := rfl
  have hsecond : FrameCode.contract createDir (.create 2 [2]) = ⟨2, 0, [2]⟩ := rfl
  rw [hfirst, hsecond, huncached] at hrun
  refine ⟨prog, hrun, ?_⟩
  unfold TACDir.uncached
  rw [hnone]

end EtherVal.Vm
