import EtherVal.Vm.Machine

/-!
# The recorder of EVM traces (`research/substate_trace.go`, `core/vm/evm.go`)

The EVM notes stores, logs, hashes and calls while it executes a transaction.  The functions
`Call`, `CallCode`, `DelegateCall`, `StaticCall`, `Create` and `Create2` open an entry of
`CallTraces` when they start and fill it in when they return.
-/

namespace EtherVal.Vm
open EtherVal.Lib List

variable {a b : Nat}

inductive TraceEvent where
  | sstore (entry : SstoreEntry)
  | log (event : EVMEventTrace)
  | sha3 (hash : Word)
  | gas (gas : Nat)
  | enter
  | leave (callee : Address) (leftOverGas refundGas : Nat) (err : Option VmError)

/-- The trace, and the positions in `CallTraces` of the calls in progress, the current one
first; it is the one `ResearchEVMCallTrace` points to. -/
structure Recorder where
  trace : EVMTrace
  open' : List Nat

def newCallTrace : EVMCallTrace where
  callee := 0
  depth := 0
  leftOverGas := 0
  refundGas := 0
  err := none
  gasInstRet := []
  sha3HashToIndex := ∅
  sha3IndexToHash := ∅
  sha3IndexList := []

namespace Recorder

def empty : Recorder := ⟨⟨0, [], [], []⟩, []⟩

def onCurrent (r : Recorder) (g : EVMCallTrace → EVMCallTrace) : Recorder :=
  match r.open' with
  | [] => r
  | i :: _ => { r with trace := { r.trace with callTraces := r.trace.callTraces.modify i g } }

def step (r : Recorder) : TraceEvent → Recorder
  | .sstore entry => { r with trace := { r.trace with
      sstoreTrace := r.trace.sstoreTrace ++ [entry], sstoreCount := r.trace.sstoreCount + 1 } }
  | .log event => { r with trace := { r.trace with
      eventTraces := r.trace.eventTraces ++ [event] } }
  | .sha3 hash => r.onCurrent (·.addSHA3InstRet hash)
  | .gas gas => r.onCurrent (·.addGasInstRet gas)
  | .enter =>
    { trace := { r.trace with callTraces := r.trace.callTraces ++ [newCallTrace] },
      open' := r.trace.callTraces.length :: r.open' }
  | .leave callee leftOverGas refundGas err =>
    let r' := r.onCurrent fun ct =>
      { ct with callee, depth := (r.open'.length : Int), leftOverGas, refundGas, err }
    { r' with open' := r.open'.tail }

def beginRun (r : Recorder) : Recorder :=
  r.onCurrent fun ct => { ct with depth := (r.open'.length : Int) }

def run (r : Recorder) (es : List TraceEvent) : Recorder := es.foldl step r

@[simp] theorem run_nil (r : Recorder) : r.run [] = r := rfl

@[simp] theorem run_cons (r : Recorder) (e : TraceEvent) (es : List TraceEvent) :
    r.run (e :: es) = (r.step e).run es := rfl

theorem run_append (r : Recorder) (es es' : List TraceEvent) :
    r.run (es ++ es') = (r.run es).run es' := foldl_append

end Recorder

def level : List TraceEvent → Nat → Option Nat
  | [], d => some d
  | .enter :: es, d => level es (d + 1)
  | .leave .. :: _, 0 => none
  | .leave .. :: es, d + 1 => level es d
  | _ :: es, d => level es d

theorem level_nil_zero : level [] 0 = some 0 := rfl

def depths : List TraceEvent → Nat → List Nat
  | [], _ => []
  | .enter :: es, d => (d + 1) :: depths es (d + 1)
  | .leave .. :: es, d => depths es (d - 1)
  | _ :: es, d => depths es d

def sstores (es : List TraceEvent) : List SstoreEntry :=
  es.filterMap fun
    | .sstore entry => some entry
    | _ => none

def logs (es : List TraceEvent) : List EVMEventTrace :=
  es.filterMap fun
    | .log event => some event
    | _ => none

def ownHashes : List TraceEvent → Nat → List Word
  | [], _ => []
  | .enter :: es, d => ownHashes es (d + 1)
  | .leave .. :: es, d => ownHashes es (d - 1)
  | .sha3 hash :: es, 0 => hash :: ownHashes es 0
  | _ :: es, d => ownHashes es d

def nested (es : List TraceEvent) : Nat :=
  es.countP fun
    | .enter => true
    | _ => false

theorem sstores_append (es es' : List TraceEvent) :
    sstores (es ++ es') = sstores es ++ sstores es' := filterMap_append

theorem logs_append (es es' : List TraceEvent) : logs (es ++ es') = logs es ++ logs es' :=
  filterMap_append

theorem nested_append (es es' : List TraceEvent) : nested (es ++ es') = nested es + nested es' :=
  countP_append

theorem sstores_cons (e : TraceEvent) (es : List TraceEvent) :
    sstores (e :: es) = sstores [e] ++ sstores es := sstores_append [e] es

theorem logs_cons (e : TraceEvent) (es : List TraceEvent) :
    logs (e :: es) = logs [e] ++ logs es := logs_append [e] es

theorem nested_cons (e : TraceEvent) (es : List TraceEvent) :
    nested (e :: es) = nested [e] + nested es := nested_append [e] es

theorem depths_length (es : List TraceEvent) (d : Nat) : (depths es d).length = nested es := by
  induction es generalizing d with
  | nil => rfl
  | cons e es ih =>
    rw [nested_cons]
    cases e <;> simp [depths, nested, ih, Nat.add_comm]

variable {es : List TraceEvent}

theorem level_append {es' : List TraceEvent} (h : level es a = some b) :
    level (es ++ es') a = level es' b := by
  induction es generalizing a with
  | nil =>
    cases h
    rfl
  | cons e es ih =>
    cases e with
    | leave =>
      cases a with
      | zero => cases h
      | succ a => exact ih h
    | _ => exact ih h

theorem depths_append {es' : List TraceEvent} (h : level es a = some b) :
    depths (es ++ es') a = depths es a ++ depths es' b := by
  induction es generalizing a with
  | nil =>
    cases h
    rfl
  | cons e es ih =>
    cases e with
    | leave =>
      cases a with
      | zero => cases h
      | succ a => exact ih h
    | enter => exact congrArg _ (ih h)
    | _ => exact ih h

theorem ownHashes_append {es' : List TraceEvent} (h : level es a = some b) :
    ownHashes (es ++ es') a = ownHashes es a ++ ownHashes es' b := by
  induction es generalizing a with
  | nil =>
    cases h
    rfl
  | cons e es ih =>
    cases e with
    | leave =>
      cases a with
      | zero => cases h
      | succ a => exact ih h
    | sha3 hash =>
      cases a with
      | zero => exact congrArg _ (ih h)
      | succ a => exact ih h
    | _ => exact ih h

theorem level_shift (h : level es a = some b) (c : Nat) :
    level es (a + c) = some (b + c) := by
  induction es generalizing a with
  | nil =>
    cases h
    rfl
  | cons e es ih =>
    cases e with
    | leave =>
      cases a with
      | zero => cases h
      | succ a =>
        rw [show a + 1 + c = (a + c) + 1 by omega]
        exact ih h
    | enter =>
      change level es (a + c + 1) = _
      rw [show a + c + 1 = (a + 1) + c by omega]
      exact ih h
    | _ => exact ih h

theorem lt_of_mem_depths {c x : Nat} (h : level es a = some b) (hx : x ∈ depths es (a + c)) :
    c < x := by
  induction es generalizing a with
  | nil => cases hx
  | cons e es ih =>
    cases e with
    | leave =>
      cases a with
      | zero => cases h
      | succ a =>
        refine ih h ?_
        rwa [depths, show a + 1 + c - 1 = a + c by omega] at hx
    | enter =>
      rcases mem_cons.mp hx with rfl | hx
      · omega
      · refine ih h ?_
        rwa [show a + 1 + c = a + c + 1 by omega]
    | _ => exact ih h hx

theorem head_depths_le {d x : Nat} (h : (depths es d).head? = some x) :
    x ≤ d + 1 := by
  induction es generalizing d with
  | nil => cases h
  | cons e es ih =>
    cases e with
    | leave =>
      have := ih h
      omega
    | enter =>
      cases h
      exact le_rfl
    | _ => exact ih h

namespace Recorder

section OnCurrent
variable (r : Recorder) (g : EVMCallTrace → EVMCallTrace)

@[simp] theorem onCurrent_open : (r.onCurrent g).open' = r.open' := by
  unfold onCurrent
  split <;> rfl

@[simp] theorem onCurrent_sstoreTrace :
    (r.onCurrent g).trace.sstoreTrace = r.trace.sstoreTrace := by
  unfold onCurrent
  split <;> rfl

@[simp] theorem onCurrent_sstoreCount :
    (r.onCurrent g).trace.sstoreCount = r.trace.sstoreCount := by
  unfold onCurrent
  split <;> rfl

@[simp] theorem onCurrent_eventTraces :
    (r.onCurrent g).trace.eventTraces = r.trace.eventTraces := by
  unfold onCurrent
  split <;> rfl

@[simp] theorem onCurrent_length :
    (r.onCurrent g).trace.callTraces.length = r.trace.callTraces.length := by
  unfold onCurrent
  split
  · rfl
  · simp

theorem onCurrent_getElem (j : Nat) :
    (r.onCurrent g).trace.callTraces[j]? =
      if r.open'.head? = some j then r.trace.callTraces[j]?.map g else r.trace.callTraces[j]? := by
  unfold onCurrent
  split
  · next h => simp [h]
  · next i rest h => by_cases hij : i = j <;> simp [h, hij]

end OnCurrent

theorem run_sstoreTrace (r : Recorder) (es : List TraceEvent) :
    (r.run es).trace.sstoreTrace = r.trace.sstoreTrace ++ sstores es := by
  induction es generalizing r with
  | nil => simp [sstores]
  | cons e es ih =>
    have hstep : (r.step e).trace.sstoreTrace = r.trace.sstoreTrace ++ sstores [e] := by
      cases e <;> simp [step, sstores]
    rw [run_cons, ih, sstores_cons, hstep, append_assoc]

theorem run_sstoreCount (r : Recorder) (es : List TraceEvent) :
    (r.run es).trace.sstoreCount = r.trace.sstoreCount + (sstores es).length := by
  induction es generalizing r with
  | nil => rfl
  | cons e es ih =>
    have hstep : (r.step e).trace.sstoreCount = r.trace.sstoreCount + (sstores [e]).length := by
      cases e <;> simp [step, sstores]
    rw [run_cons, ih, sstores_cons, hstep, length_append, Nat.add_assoc]

theorem run_eventTraces (r : Recorder) (es : List TraceEvent) :
    (r.run es).trace.eventTraces = r.trace.eventTraces ++ logs es := by
  induction es generalizing r with
  | nil => simp [logs]
  | cons e es ih =>
    have hstep : (r.step e).trace.eventTraces = r.trace.eventTraces ++ logs [e] := by
      cases e <;> simp [step, logs]
    rw [run_cons, ih, logs_cons, hstep, append_assoc]

theorem run_length (r : Recorder) (es : List TraceEvent) :
    (r.run es).trace.callTraces.length = r.trace.callTraces.length + nested es := by
  induction es generalizing r with
  | nil => rfl
  | cons e es ih =>
    have hstep : (r.step e).trace.callTraces.length =
        r.trace.callTraces.length + nested [e] := by
      cases e <;> simp [step, nested]
    rw [run_cons, ih, nested_cons, hstep, Nat.add_assoc]

def Levels (ds : List Nat) : List Nat → Prop
  | [] => True
  | j :: rest => ds[j]? = some (rest.length + 1) ∧ Levels ds rest

variable {ds : List Nat}

theorem Levels.append {l : List Nat} (h : Levels ds l) (ds' : List Nat) :
    Levels (ds ++ ds') l := by
  induction l with
  | nil => trivial
  | cons j rest ih =>
    refine ⟨?_, ih h.2⟩
    have hj : j < ds.length := (List.getElem?_eq_some_iff.mp h.1).1
    rw [getElem?_append_left hj, h.1]

structure HasDepths (r : Recorder) (ds : List Nat) : Prop where
  length : r.trace.callTraces.length = ds.length
  levels : Levels ds r.open'
  returned : ∀ j ct, r.trace.callTraces[j]? = some ct → j ∉ r.open' →
    ∃ x : Nat, ds[j]? = some x ∧ ct.depth = (x : Int)

theorem hasDepths_empty : empty.HasDepths [] where
  length := rfl
  levels := trivial
  returned := by
    intro j ct h
    simp [empty] at h

theorem HasDepths.onCurrent {r : Recorder} (h : r.HasDepths ds) {g : EVMCallTrace → EVMCallTrace}
    (hg : ∀ ct, (g ct).depth = ct.depth) :
    (r.onCurrent g).HasDepths ds where
  length := by rw [onCurrent_length, h.length]
  levels := by
    rw [onCurrent_open]
    exact h.levels
  returned := by
    intro j ct hct hj
    rw [onCurrent_open] at hj
    rw [onCurrent_getElem] at hct
    split at hct
    · obtain ⟨ct', hct', rfl⟩ := Option.map_eq_some_iff.mp hct
      rw [hg]
      exact h.returned j ct' hct' hj
    · exact h.returned j ct hct hj

theorem HasDepths.enter {r : Recorder} (h : r.HasDepths ds) :
    (r.step .enter).HasDepths (ds ++ [r.open'.length + 1]) where
  length := by simp [step, h.length]
  levels := by
    refine ⟨?_, h.levels.append _⟩
    rw [h.length]
    simp
  returned := by
    intro j ct hct hj
    have hj' : j ≠ r.trace.callTraces.length ∧ j ∉ r.open' := by simpa [step] using hj
    have hlt : j < r.trace.callTraces.length := by
      have hlen := (List.getElem?_eq_some_iff.mp hct).1
      simp only [step, length_append, length_singleton] at hlen
      omega
    simp only [step] at hct
    rw [getElem?_append_left hlt] at hct
    obtain ⟨x, hx, hd⟩ := h.returned j ct hct hj'.2
    refine ⟨x, ?_, hd⟩
    rw [getElem?_append_left (h.length ▸ hlt), hx]

theorem HasDepths.leave {r : Recorder} (h : r.HasDepths ds) (callee : Address) (left refund : Nat)
    (err : Option VmError) :
    (r.step (.leave callee left refund err)).HasDepths ds where
  length := by simp [step, h.length]
  levels := by
    have hl := h.levels
    simp only [step]
    cases ho : r.open' with
    | nil => trivial
    | cons j rest =>
      rw [ho] at hl
      exact hl.2
  returned := by
    intro j ct hct hj
    simp only [step] at hct hj
    rw [onCurrent_getElem] at hct
    split at hct
    · -- the call that returns
      next hhead =>
      obtain ⟨ct', -, rfl⟩ := Option.map_eq_some_iff.mp hct
      cases ho : r.open' with
      | nil =>
        rw [ho] at hhead
        cases hhead
      | cons i rest =>
        rw [ho] at hhead
        cases hhead
        have hl := h.levels
        rw [ho] at hl
        exact ⟨rest.length + 1, hl.1, by simp⟩
    · next hhead =>
      refine h.returned j ct hct ?_
      intro hmem
      cases ho : r.open' with
      | nil =>
        rw [ho] at hmem
        cases hmem
      | cons i rest =>
        rw [ho] at hmem hj hhead
        rcases mem_cons.mp hmem with rfl | hmem
        · exact hhead rfl
        · exact hj hmem

theorem HasDepths.run {r : Recorder} (h : r.HasDepths ds) {k : Nat}
    (hlevel : level es r.open'.length = some k) :
    (r.run es).HasDepths (ds ++ depths es r.open'.length) ∧ (r.run es).open'.length = k := by
  induction es generalizing r ds with
  | nil =>
    cases hlevel
    simpa [depths] using h
  | cons e es ih =>
    rw [run_cons]
    cases e with
    | sstore entry => exact ih ⟨h.length, h.levels, h.returned⟩ hlevel
    | log event => exact ih ⟨h.length, h.levels, h.returned⟩ hlevel
    | sha3 hash =>
      have h' := h.onCurrent (g := (·.addSHA3InstRet hash)) (by
        intro ct
        unfold EVMCallTrace.addSHA3InstRet
        split <;> rfl)
      have hrec := ih h' (by rw [onCurrent_open]; exact hlevel)
      rw [onCurrent_open] at hrec
      exact hrec
    | gas gas =>
      have h' := h.onCurrent (g := (·.addGasInstRet gas)) (fun ct => rfl)
      have hrec := ih h' (by rw [onCurrent_open]; exact hlevel)
      rw [onCurrent_open] at hrec
      exact hrec
    | enter =>
      have hrec := ih h.enter hlevel
      rw [append_assoc] at hrec
      exact hrec
    | leave callee left refund err =>
      cases ho : r.open' with
      | nil =>
        rw [ho] at hlevel
        cases hlevel
      | cons j rest =>
        have hlen : (r.step (.leave callee left refund err)).open'.length = rest.length := by
          simp [step, ho]
        rw [ho] at hlevel
        have hrec := ih (h.leave callee left refund err) (by rw [hlen]; exact hlevel)
        rw [hlen] at hrec
        exact hrec

theorem run_getElem_of_returned {r : Recorder} {j : Nat} (hlt : j < r.trace.callTraces.length)
    (hopen : j ∉ r.open') (es : List TraceEvent) :
    (r.run es).trace.callTraces[j]? = r.trace.callTraces[j]? := by
  induction es generalizing r with
  | nil => rfl
  | cons e es ih =>
    have hhead : r.open'.head? ≠ some j := fun h => hopen (mem_of_head? h)
    rw [run_cons]
    cases e with
    | sstore entry => exact ih hlt hopen
    | log event => exact ih hlt hopen
    | sha3 hash =>
      rw [ih (by simpa [step] using hlt) (by simpa [step] using hopen)]
      simp only [step]
      rw [onCurrent_getElem, if_neg hhead]
    | gas gas =>
      rw [ih (by simpa [step] using hlt) (by simpa [step] using hopen)]
      simp only [step]
      rw [onCurrent_getElem, if_neg hhead]
    | enter =>
      have hne : j ≠ r.trace.callTraces.length := by omega
      rw [ih (by simp [step]; omega) (by simp [step, hne, hopen])]
      exact getElem?_append_left hlt
    | leave callee left refund err =>
      rw [ih (by simpa [step] using hlt) (by
        simp only [step]
        exact fun h => hopen (mem_of_mem_tail h))]
      simp only [step]
      rw [onCurrent_getElem, if_neg hhead]

structure SameCall (hashes : List Word) (ct ct' : EVMCallTrace) : Prop where
  callee : ct'.callee = ct.callee
  depth : ct'.depth = ct.depth
  err : ct'.err = ct.err
  hash : ∀ h, h ∈ ct'.sha3HashToIndex ↔ h ∈ ct.sha3HashToIndex ∨ h ∈ hashes

theorem SameCall.refl (ct : EVMCallTrace) : SameCall [] ct ct := ⟨rfl, rfl, rfl, by simp⟩

theorem SameCall.trans {hs hs' : List Word} {ct ct' ct'' : EVMCallTrace}
    (h : SameCall hs ct ct') (h' : SameCall hs' ct' ct'') : SameCall (hs ++ hs') ct ct'' where
  callee := h'.callee.trans h.callee
  depth := h'.depth.trans h.depth
  err := h'.err.trans h.err
  hash := by
    intro w
    rw [h'.hash, h.hash, mem_append, or_assoc]

theorem sameCall_addSHA3 (ct : EVMCallTrace) (hash : Word) :
    SameCall [hash] ct (ct.addSHA3InstRet hash) := by
  unfold EVMCallTrace.addSHA3InstRet
  cases hi : ct.sha3HashToIndex[hash]? with
  | some i =>
    refine ⟨rfl, rfl, rfl, ?_⟩
    intro w
    have hmem : hash ∈ ct.sha3HashToIndex := by
      rw [← Std.ExtTreeMap.isSome_getElem?_iff_mem, hi]
      rfl
    simp only [mem_singleton]
    constructor
    · exact .inl
    · rintro (hw | rfl)
      · exact hw
      · exact hmem
  | none =>
    refine ⟨rfl, rfl, rfl, ?_⟩
    intro w
    simp only [Std.ExtTreeMap.mem_insert, mem_singleton]
    constructor
    · rintro (hw | hw)
      · exact .inr (Std.LawfulEqOrd.eq_of_compare hw).symm
      · exact .inl hw
    · rintro (hw | rfl)
      · exact .inr hw
      · exact .inl (by simp)

/-- Call `i` is in progress, with the calls `outer` around it and `a` calls below it. -/
structure Within (r : Recorder) (i : Nat) (outer : List Nat) (a : Nat) : Prop where
  shape : ∃ inner, r.open' = inner ++ i :: outer ∧ inner.length = a ∧ i ∉ inner
  lt : i < r.trace.callTraces.length

section Within
variable {r : Recorder} {i a : Nat} {outer : List Nat}

theorem Within.onCurrent (h : r.Within i outer a)
    (g : EVMCallTrace → EVMCallTrace) : (r.onCurrent g).Within i outer a where
  shape := by
    rw [onCurrent_open]
    exact h.shape
  lt := by
    rw [onCurrent_length]
    exact h.lt

theorem Within.head (h : r.Within i outer a) :
    r.open'.head? = some i ↔ a = 0 := by
  obtain ⟨inner, ho, rfl, hni⟩ := h.shape
  cases inner with
  | nil => simp [ho]
  | cons j inner =>
    have hne : j ≠ i := fun hji => hni (hji ▸ mem_cons_self)
    simp [ho, hne]

theorem Within.onCurrent_entry (h : r.Within i outer a)
    {g : EVMCallTrace → EVMCallTrace} (hs : List Word) (hg : ∀ ct, SameCall hs ct (g ct)) :
    ∃ ct ct', r.trace.callTraces[i]? = some ct ∧
      (r.onCurrent g).trace.callTraces[i]? = some ct' ∧
      SameCall (if a = 0 then hs else []) ct ct' := by
  obtain ⟨ct, hct⟩ : ∃ ct, r.trace.callTraces[i]? = some ct :=
    ⟨_, getElem?_eq_getElem h.lt⟩
  refine ⟨ct, if a = 0 then g ct else ct, hct, ?_, ?_⟩
  · rw [onCurrent_getElem, hct]
    by_cases ha : a = 0
    · rw [if_pos (h.head.mpr ha), if_pos ha]
      rfl
    · rw [if_neg (fun hh => ha (h.head.mp hh)), if_neg ha]
  · split
    · exact hg _
    · exact .refl _

theorem Within.enter (h : r.Within i outer a) :
    (r.step .enter).Within i outer (a + 1) where
  shape := by
    obtain ⟨inner, ho, rfl, hni⟩ := h.shape
    have hne : i ≠ r.trace.callTraces.length := Nat.ne_of_lt h.lt
    exact ⟨r.trace.callTraces.length :: inner, by simp [step, ho], rfl, by simp [hne, hni]⟩
  lt := by
    have := h.lt
    simp only [step, length_append, length_singleton]
    omega

theorem Within.leave (h : r.Within i outer (a + 1)) (callee : Address)
    (left refund : Nat) (err : Option VmError) :
    (r.step (.leave callee left refund err)).Within i outer a where
  shape := by
    obtain ⟨inner, ho, hlen, hni⟩ := h.shape
    cases inner with
    | nil => cases hlen
    | cons j inner =>
      exact ⟨inner, by simp [step, ho], by simpa using hlen,
        fun hmem => hni (mem_cons_of_mem j hmem)⟩
  lt := by
    simp only [step, onCurrent_length]
    exact h.lt

theorem Within.leave_entry (h : r.Within i outer (a + 1)) (callee : Address)
    (left refund : Nat) (err : Option VmError) :
    (r.step (.leave callee left refund err)).trace.callTraces[i]? = r.trace.callTraces[i]? := by
  simp only [step]
  rw [onCurrent_getElem, if_neg]
  intro hh
  exact Nat.succ_ne_zero a (h.head.mp hh)

theorem Within.run {k : Nat} (h : r.Within i outer a) (hlevel : level es a = some k) :
    (r.run es).Within i outer k ∧ ∃ ct ct', r.trace.callTraces[i]? = some ct ∧
      (r.run es).trace.callTraces[i]? = some ct' ∧ SameCall (ownHashes es a) ct ct' := by
  induction es generalizing r a with
  | nil =>
    cases hlevel
    have hct := getElem?_eq_getElem h.lt
    exact ⟨h, _, _, hct, hct, .refl _⟩
  | cons e es ih =>
    rw [run_cons]
    cases e with
    | sstore entry => exact ih ⟨h.shape, h.lt⟩ hlevel
    | log event => exact ih ⟨h.shape, h.lt⟩ hlevel
    | sha3 hash =>
      obtain ⟨hw, ct', ct'', hct', hct'', hsame⟩ := ih (h.onCurrent (·.addSHA3InstRet hash)) hlevel
      obtain ⟨ct, ct1, hct, hct1, hsame1⟩ := h.onCurrent_entry [hash] (sameCall_addSHA3 · hash)
      cases hct1.symm.trans hct'
      refine ⟨hw, ct, ct'', hct, hct'', ?_⟩
      have := hsame1.trans hsame
      cases a <;> exact this
    | gas gas =>
      obtain ⟨hw, ct', ct'', hct', hct'', hsame⟩ := ih (h.onCurrent (·.addGasInstRet gas)) hlevel
      obtain ⟨ct, ct1, hct, hct1, hsame1⟩ :=
        h.onCurrent_entry (g := (·.addGasInstRet gas)) []
          (fun ct => ⟨rfl, rfl, rfl, by simp [EVMCallTrace.addGasInstRet]⟩)
      cases hct1.symm.trans hct'
      refine ⟨hw, ct, ct'', hct, hct'', ?_⟩
      have := hsame1.trans hsame
      cases a <;> exact this
    | enter =>
      obtain ⟨hw, ct', ct'', hct', hct'', hsame⟩ := ih h.enter hlevel
      refine ⟨hw, ct', ct'', ?_, hct'', hsame⟩
      rw [← hct']
      exact (getElem?_append_left h.lt).symm
    | leave callee left refund err =>
      cases a with
      | zero => cases hlevel
      | succ a =>
        obtain ⟨hw, ct', ct'', hct', hct'', hsame⟩ :=
          ih (h.leave callee left refund err) hlevel
        rw [h.leave_entry] at hct'
        exact ⟨hw, ct', ct'', hct', hct'', hsame⟩

end Within

theorem Levels.lt {l : List Nat} (h : Levels ds l) {j : Nat} (hj : j ∈ l) : j < ds.length := by
  induction l with
  | nil => cases hj
  | cons i rest ih =>
    rcases mem_cons.mp hj with rfl | hj
    · exact (List.getElem?_eq_some_iff.mp h.1).1
    · exact ih h.2 hj

end Recorder
end EtherVal.Vm
