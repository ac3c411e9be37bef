import EtherVal.Vm.MemoryExec

/-!
# TAC memory instructions against the opcodes of the EVM

The TAC instruction resizes the memory on its own, with its operands cut to 64 bits; the EVM
checks the 256-bit operands before the opcode runs.
-/

namespace EtherVal.Vm
open EtherVal.Lib EtherVal.TacParser Exec List
open Uint256 (uint64WithOverflow uint64 bytes32 setBytes)

variable {σ α : Type}
variable {d maxGas o n size : Nat} {b rd : Bytes} {m' : Machine σ}
  {res : Except (Stop σ) (Ret × Machine σ)} {mem : Memory}

namespace MemOp

def tacOp : MemOp → TACOp
  | MLOAD => .MLOAD | MSTORE => .MSTORE | MSTORE8 => .MSTORE8 | SHA3 => .SHA3
  | CALLDATACOPY => .CALLDATACOPY | CODECOPY => .CODECOPY | EXTCODECOPY => .EXTCODECOPY
  | RETURNDATACOPY => .RETURNDATACOPY | RETURN => .RETURN | REVERT => .REVERT
  | LOG 0 => .LOG0 | LOG 1 => .LOG1 | LOG 2 => .LOG2 | LOG 3 => .LOG3 | LOG 4 => .LOG4

def pushes : MemOp → Bool
  | MLOAD | SHA3 => true
  | _ => false

def arity : MemOp → Nat
  | MLOAD => 1
  | MSTORE | MSTORE8 | SHA3 | RETURN | REVERT => 2
  | CALLDATACOPY | CODECOPY | RETURNDATACOPY => 3
  | EXTCODECOPY => 4
  | LOG n => 2 + n

end MemOp

structure MemOperands (m : Machine σ) (op : MemOp) (d : Nat) (rs : List Nat) : Prop where
  dest : op.pushes = true → m.operand 1 = .ok d
  args : ∀ i (h : i < rs.length), m.operand ((if op.pushes then 2 else 1) + i) = .ok rs[i]
  count : rs.length = op.arity

def scopeOf (host : Host σ) (m : Machine σ) (frame : TACFrame) (cold : Bool) : EvmScope where
  memory := frame.memory
  contract := frame.contract
  returnData := m.engine.returnData
  readOnly := m.engine.readOnly
  blockNumber := m.engine.config.blockNumber % uint64Mod
  getCode a := (host.getCode a m.engine.stateDB).1
  keccak256 := host.keccak256
  coldAccount := cold

def isFailure : Option VmError → Bool
  | none | some .stopToken | some .executionReverted => false
  | some _ => true

structure SameOutcome (host : Host σ) (m : Machine σ) (d : Nat) (ret : Ret) (m' : Machine σ)
    (out : EvmResult) : Prop where
  succeeds : isFailure out.err = false
  bytes : ret.1 = out.ret
  reverts : ret.2 = some .executionReverted ↔ out.err = some .executionReverted
  pushed : ∀ w, out.pushed = some w → m'.val d = w
  logged : ∀ log, out.logged = some log →
    m'.engine.stateDB = host.addLog log m.engine.stateDB ∧
      m'.engine.delta.substrateTrace.eventTraces =
        m.engine.delta.substrateTrace.eventTraces ++ [⟨log.topics, log.data⟩]
  memory : m'.engine.frames.head?.map (·.memory.store) = some out.memory.store

/-- The instruction does not panic.  If it fails, so does the opcode, or its memory fee is too
high; else it leaves what the opcode leaves. -/
def RefinesEvm (host : Host σ) (m : Machine σ) (d : Nat) (res : Except (Stop σ) (Ret × Machine σ))
    (evm : Except GoPanic EvmResult) (fee : Except VmError Nat) : Prop :=
  ∃ ret m' out, res = .ok (ret, m') ∧ evm = .ok out ∧
    if isFailure ret.2 then
      isFailure out.err = true ∨ ∃ f, fee = .ok f ∧ m.engine.delta.maxGas < f
    else SameOutcome host m d ret m' out

section Span
variable {host : Host σ} {m m1 : Machine σ} {d : Nat} {op : MemOp} {s : EvmScope} {stack : Stack}
  {o n : Nat} {access : Memory → Except GoPanic (α × Memory)} {use : α → Exec σ Ret}

theorem isFailure_of_gas {e : VmError} (h : e = .gasUintOverflow ∨ e = .outOfGas) :
    isFailure (some e) = true := by
  rcases h with rfl | rfl <;> rfl

def granted (m1 : Machine σ) (access : Memory → Except GoPanic (α × Memory))
    (use : α → Exec σ Ret) (g : Memory) : Except (Stop σ) (Ret × Machine σ) :=
  afterMemory m1 ((access g).map fun p => (.ok p.1, p.2)) use

theorem evm_rejects_iff (bodyFails : Prop) (hpaid : s.memory.Paid)
    (hbody : needed (op.span stack) ≤ maxMemorySize → ∃ out,
      op.execute { s with memory := s.memory.grown (needed (op.span stack)) } stack = .ok out ∧
        (isFailure out.err = true ↔ bodyFails)) :
    (∃ out, evmRound op s stack = .ok out ∧ (isFailure out.err = true ∨
      ∃ f, evmMemoryFee op s stack = .ok f ∧ maxGas < f)) ↔
      s.memory.Refuses (needed (op.span stack)) maxGas ∨ bodyFails := by
  by_cases hlarge : maxMemorySize < needed (op.span stack)
  · obtain ⟨e, he, hcases⟩ := evmRound_large (s := s) hlarge
    have hleft : ∃ out, evmRound op s stack = .ok out ∧ (isFailure out.err = true ∨
        ∃ f, evmMemoryFee op s stack = .ok f ∧ maxGas < f) :=
      ⟨_, he, .inl (isFailure_of_gas hcases)⟩
    exact iff_of_true hleft (.inl (.inl hlarge))
  · have hle : needed (op.span stack) ≤ maxMemorySize := by omega
    obtain ⟨out, hout, hfails⟩ := hbody hle
    rw [evmRound_eq hpaid hle, evmMemoryFee_eq hpaid hle]
    constructor
    · rintro ⟨out', hout', hrej⟩
      cases hout.symm.trans hout'
      rcases hrej with hfail | ⟨f, hf, hlt⟩
      · exact .inr (hfails.mp hfail)
      · cases hf
        exact .inl (.inr hlt)
    · rintro (hrefuse | hfail)
      · exact ⟨out, hout, .inr ⟨_, rfl, hrefuse.resolve_left hlarge⟩⟩
      · exact ⟨out, hout, .inl (hfails.mpr hfail)⟩

variable {res : Except (Stop σ) (Ret × Machine σ)}
variable {evm : Except GoPanic EvmResult} {fee : Except VmError Nat}

theorem refinesEvm_failure {e : VmError} (hres : res = .ok (([], some e), m'))
    (he : isFailure (some e) = true) :
    RefinesEvm host m d res evm fee ↔ ∃ out, evm = .ok out ∧ (isFailure out.err = true ∨
      ∃ f, fee = .ok f ∧ m.engine.delta.maxGas < f) := by
  subst hres
  constructor
  · rintro ⟨ret, m'', out, hres, hout, h⟩
    cases hres
    rw [if_pos he] at h
    exact ⟨out, hout, h⟩
  · rintro ⟨out, hout, h⟩
    refine ⟨_, _, out, rfl, hout, ?_⟩
    rw [if_pos he]
    exact h

theorem refinesEvm_success (hgood : ∀ ret m', res = .ok (ret, m') → isFailure ret.2 = false) :
    RefinesEvm host m d res evm fee ↔ ∃ ret m' out, res = .ok (ret, m') ∧ evm = .ok out ∧
      SameOutcome host m d ret m' out := by
  constructor
  · rintro ⟨ret, m', out, hres, hout, h⟩
    rw [if_neg (by rw [hgood ret m' hres]; decide)] at h
    exact ⟨ret, m', out, hres, hout, h⟩
  · rintro ⟨ret, m', out, hres, hout, h⟩
    refine ⟨ret, m', out, hres, hout, ?_⟩
    rw [if_neg (by rw [hgood ret m' hres]; decide)]
    exact h

theorem not_same_of_failure {out : EvmResult} (hevm : evm = .ok out)
    (hfail : isFailure out.err = true) :
    ¬ ∃ ret m' out, res = .ok (ret, m') ∧ evm = .ok out ∧ SameOutcome host m d ret m' out := by
  rintro ⟨ret, m', out', -, hout', hsame⟩
  cases hevm.symm.trans hout'
  exact absurd (hfail.symm.trans hsame.succeeds) (by decide)

variable {mem : Memory}

theorem store_grown_eq_iff {k : Nat} :
    (mem.grown k).store = mem.store ↔ 32 * wordsFor k ≤ mem.len := by
  constructor
  · intro h
    have hlen : (mem.grown k).len = mem.len := congrArg List.length h
    rw [Memory.len_grown] at hlen
    omega
  · intro h
    rw [Memory.grown_of_le h]

theorem refuses_zero (hpaid : mem.Paid) (maxGas : Nat) : ¬ mem.Refuses 0 maxGas := by
  rintro (h | h)
  · exact absurd h (by decide)
  · rw [Memory.newFee_of_le hpaid (Nat.zero_le _)] at h
    omega

theorem refuses_of_wrap (h : mem.Refuses ((o + n) % uint64Mod) maxGas) :
    mem.Refuses (o + n) maxGas := by
  by_cases hwrap : o + n < uint64Mod
  · rw [Nat.mod_eq_of_lt hwrap] at h
    exact h
  · -- a sum that wraps around is far above the limit
    refine .inl ?_
    unfold uint64Mod at hwrap
    unfold maxMemorySize
    omega

theorem large_of_wrap (hn : n ≠ 0) (hwrap : ¬ o + n < uint64Mod) :
    maxMemorySize < needed (o, n) := by
  unfold needed
  rw [if_neg hn]
  unfold uint64Mod at hwrap
  unfold maxMemorySize
  show _ < o + n
  omega

def SpanCondition (mem : Memory) (maxGas o n : Nat) (covers bodyFails : Prop) : Prop :=
  if mem.Refuses ((o + n) % uint64Mod) maxGas then n ≠ 0 ∨ bodyFails
  else covers ∧ ¬ bodyFails ∧
    if n = 0 then 32 * wordsFor (o % uint64Mod) ≤ mem.len else o + n < uint64Mod

theorem span_refinesEvm_iff {covers bodyFails : Prop} (hpaid : s.memory.Paid)
    (hspan : op.span stack = (o, n)) (hres : res = afterMemory m1
      (s.memory.afterResize ((o + n) % uint64Mod) m.engine.delta.maxGas access) use)
    (hgood : ∀ g ret m', granted m1 access use g = .ok (ret, m') → isFailure ret.2 = false)
    (hbody : ∀ g, (n ≠ 0 → o + n ≤ g.len ∧ o + n ≤ maxMemorySize) →
      ∃ out, op.execute { s with memory := g } stack = .ok out ∧
        (isFailure out.err = true ↔ bodyFails))
    (hsame : ∀ g g', (n ≠ 0 → g = g' ∧ o + n ≤ g.len ∧ o + n ≤ maxMemorySize) →
      ((∃ ret m' out, granted m1 access use g = .ok (ret, m') ∧
          op.execute { s with memory := g' } stack = .ok out ∧ SameOutcome host m d ret m' out) ↔
        covers ∧ ¬ bodyFails ∧ g.store = g'.store)) :
    RefinesEvm host m d res (evmRound op s stack) (evmMemoryFee op s stack) ↔
      SpanCondition s.memory m.engine.delta.maxGas o n covers bodyFails := by
  unfold SpanCondition
  have hneed : needed (op.span stack) = if n = 0 then 0 else o + n := by
    rw [hspan]
    rfl
  split
  · next hrefuse =>
    obtain ⟨e, mem', heq, hcases⟩ := Memory.afterResize_refused hpaid hrefuse access
    rw [heq] at hres
    rw [refinesEvm_failure hres (isFailure_of_gas hcases)]
    by_cases hn : n = 0
    · rw [if_pos hn] at hneed
      rw [evm_rejects_iff bodyFails hpaid]
      · rw [hneed]
        simp [refuses_zero hpaid, hn]
      · intro _
        refine hbody _ fun h => absurd hn h
    · rw [if_neg hn] at hneed
      rw [evm_rejects_iff bodyFails hpaid]
      · rw [hneed]
        exact iff_of_true (.inl (refuses_of_wrap hrefuse)) (.inl hn)
      · intro hle
        rw [hneed] at hle ⊢
        exact hbody _ fun _ => ⟨s.memory.le_len_grown _, hle⟩
  · next hgrant =>
    have hres : res = granted m1 access use (s.memory.grown ((o + n) % uint64Mod)) := by
      rw [hres, Memory.afterResize_granted hpaid hgrant]
      rfl
    have hsize : (o + n) % uint64Mod ≤ maxMemorySize := by
      have := not_or.mp hgrant
      omega
    rw [hres, refinesEvm_success (hgood _)]
    by_cases hn : n = 0
    · rw [if_pos hn] at hneed
      rw [evmRound_eq hpaid (by rw [hneed]; exact Nat.zero_le _), hneed, Memory.grown_zero,
        if_pos hn]
      refine (hsame _ s.memory fun h => absurd hn h).trans ?_
      rw [store_grown_eq_iff, hn, add_zero]
    · rw [if_neg hn] at hneed
      rw [if_neg hn]
      by_cases hwrap : o + n < uint64Mod
      · rw [Nat.mod_eq_of_lt hwrap] at hsize ⊢
        rw [evmRound_eq hpaid (by rw [hneed]; exact hsize), hneed]
        refine (hsame _ _ fun _ => ⟨rfl, s.memory.le_len_grown _, hsize⟩).trans ?_
        simp [hwrap]
      · have hlarge : maxMemorySize < needed (op.span stack) := by
          rw [hspan]
          exact large_of_wrap hn hwrap
        obtain ⟨e, he, hcases⟩ := evmRound_large (s := s) hlarge
        refine iff_of_false (not_same_of_failure he (isFailure_of_gas hcases)) ?_
        rintro ⟨-, -, h⟩
        exact hwrap h

end Span

theorem ofInt64_addInt64 (x y : Nat) :
    ofInt64 (addInt64 (toInt64 x) (toInt64 y)) = (x + y) % uint64Mod := by
  have hof : ∀ z : Int, ofInt64 (toInt64 (ofInt64 z)) = ofInt64 z := by
    intro z
    unfold ofInt64 toInt64
    split <;> omega
  unfold addInt64
  rw [hof]
  unfold uint64Mod ofInt64 toInt64
  split <;> split <;> omega

theorem rangeAccess_eq (mem : Memory) (offset length : Word) (maxGas : Nat) :
    rangeAccess mem offset length maxGas =
      mem.afterResize ((offset.toNat + length.toNat) % uint64Mod) maxGas fun g => do
        return (← g.getPtr (toInt64 (uint64 offset)) (toInt64 (uint64 length)), g) := by
  unfold rangeAccess Memory.extGetPtr
  rw [ofInt64_addInt64]
  unfold uint64
  rw [← Nat.add_mod]

def spanBytes (g : Memory) (o n : Nat) : Bytes := if n = 0 then [] else g.bytesAt o n

theorem uint64_of_le {x : Word} (h : x.toNat ≤ maxMemorySize) : uint64 x = x.toNat := by
  unfold maxMemorySize at h
  unfold uint64 uint64Mod
  omega

theorem getPtr_span {g : Memory} {offset length : Word}
    (h : length.toNat ≠ 0 → offset.toNat + length.toNat ≤ g.len ∧
      offset.toNat + length.toNat ≤ maxMemorySize) :
    g.getPtr (toInt64 (uint64 offset)) (toInt64 (uint64 length)) =
      .ok (spanBytes g offset.toNat length.toNat) := by
  unfold spanBytes
  split
  · next hzero =>
    have hlen : toInt64 (uint64 length) = 0 := by
      unfold uint64
      rw [hzero]
      decide
    rw [hlen]
    unfold Memory.getPtr
    rw [if_pos rfl]
  · next hne =>
    obtain ⟨hle, hbound⟩ := h hne
    rw [uint64_of_le (by omega), uint64_of_le (by omega), Memory.toInt64_of_lt (by omega),
      Memory.toInt64_of_lt (by omega)]
    exact Memory.getPtr_eq hle hbound

section Range
variable {host : Host σ} {m m1 : Machine σ} {d : Nat} {op : MemOp} {s : EvmScope} {stack : Stack}
  {use : Bytes → Exec σ Ret} {offset length : Word}

/-- An instruction that reads a span and changes no bytes.  `evm` is what the body of the opcode
makes of them. -/
theorem range_refinesEvm_iff {covers bodyFails : Prop} (hpaid : s.memory.Paid)
    (hspan : op.span stack = (offset.toNat, length.toNat)) (evm : Bytes → EvmResult)
    (hres : res = afterMemory m1 (rangeAccess s.memory offset length m.engine.delta.maxGas) use)
    (hgood : ∀ b m' ret m'', use b m' = .ok (ret, m'') → isFailure ret.2 = false)
    (hexec : ∀ g b, g.getPtr (toInt64 (uint64 offset)) (toInt64 (uint64 length)) =
      .ok b → op.execute { s with memory := g } stack = .ok { evm b with memory := g })
    (hfails : ∀ b, isFailure (evm b).err = true ↔ bodyFails)
    (hpanics : ¬ covers → ∀ b g, ∃ stop, use b (m1.withMemory g) = .error stop)
    (hsame : covers → ¬ bodyFails → ∀ b g, ∃ ret m', use b (m1.withMemory g) = .ok (ret, m') ∧
      SameOutcome host m d ret m' { evm b with memory := g }) :
    RefinesEvm host m d res (evmRound op s stack) (evmMemoryFee op s stack) ↔
      SpanCondition s.memory m.engine.delta.maxGas offset.toNat length.toNat covers bodyFails := by
  rw [rangeAccess_eq] at hres
  refine span_refinesEvm_iff hpaid hspan hres ?_ ?_ ?_
  · intro g ret m' h
    dsimp only [granted] at h
    cases hptr : g.getPtr (toInt64 (uint64 offset)) (toInt64 (uint64 length)) with
    | error p =>
      rw [hptr] at h
      cases h
    | ok b =>
      rw [hptr] at h
      exact hgood b _ ret m' h
  · intro g hg
    exact ⟨_, hexec g _ (getPtr_span hg), hfails _⟩
  · intro g g' hg
    have hptr := getPtr_span (g := g) (fun h => (hg h).2)
    have hptr' : g'.getPtr (toInt64 (uint64 offset)) (toInt64 (uint64 length)) =
        .ok (spanBytes g offset.toNat length.toNat) := by
      by_cases hn : length.toNat = 0
      · rw [getPtr_span fun h => absurd hn h]
        unfold spanBytes
        rw [if_pos hn, if_pos hn]
      · rw [← (hg hn).1]
        exact hptr
    have hgrant : granted m1 (fun g => do
        return (← g.getPtr (toInt64 (uint64 offset)) (toInt64 (uint64 length)), g))
        use g = use (spanBytes g offset.toNat length.toNat) (m1.withMemory g) := by
      dsimp only [granted]
      rw [hptr]
      rfl
    rw [hgrant, hexec g' _ hptr']
    generalize spanBytes g offset.toNat length.toNat = b
    by_cases hfail : bodyFails
    · exact iff_of_false (not_same_of_failure rfl ((hfails b).mpr hfail)) fun h => h.2.1 hfail
    by_cases hcov : covers
    · obtain ⟨ret, m', hok, hout⟩ := hsame hcov hfail b g
      constructor
      · rintro ⟨ret', m'', out, hok', hout', h⟩
        cases hok.symm.trans hok'
        cases hout'
        exact ⟨hcov, hfail, Option.some.inj (hout.memory.symm.trans h.memory)⟩
      · rintro ⟨-, -, hstore⟩
        exact ⟨ret, m', _, hok, rfl,
          { hout with memory := hout.memory.trans (congrArg some hstore) }⟩
    · obtain ⟨stop, hstop⟩ := hpanics hcov b g
      refine iff_of_false ?_ fun h => hcov h.1
      rintro ⟨ret, m', out, hok, -⟩
      cases hstop.symm.trans hok

end Range
def TraceCovers (m : Machine σ) : MemOp → Prop
  | .SHA3 => ∀ t, m.engine.config.evmTrace = some t →
      m.engine.config.isolationIndex < t.callTraces.length ∧
        m.engine.config.isolationIndex < m.engine.delta.substrateTrace.callTraces.length
  | .LOG _ => m.engine.delta.stats.tacDeviation = [] → ∀ t, m.engine.config.evmTrace = some t →
      m.engine.delta.substrateTrace.eventTraces.length < t.eventTraces.length
  | _ => True

def Machine.withStats (m : Machine σ) (st : TACStats) : Machine σ :=
  { m with engine := { m.engine with delta := { m.engine.delta with stats := st } } }

def Machine.withTrace (m : Machine σ) (t : EVMTrace) : Machine σ :=
  { m with engine := { m.engine with delta := { m.engine.delta with substrateTrace := t } } }

def Machine.withState (m : Machine σ) (db : σ) : Machine σ :=
  { m with engine := { m.engine with stateDB := db } }

theorem checkDeviation_ok (what : String) (check : EVMTrace → EVMTrace → Except GoPanic Bool)
    (m : Machine σ) (h : ∀ t, m.engine.config.evmTrace = some t →
      ∃ b, check t m.engine.delta.substrateTrace = .ok b) :
    ∃ st, checkDeviation what check m = .ok ((), m.withStats st) := by
  unfold checkDeviation
  rw [bind_get]
  cases htrace : m.engine.config.evmTrace with
  | none => exact ⟨m.engine.delta.stats, rfl⟩
  | some t =>
    obtain ⟨b, hb⟩ := h t htrace
    dsimp only
    rw [bind_of_ok (read_eq_ok.mpr ⟨hb, rfl⟩)]
    cases b with
    | false => exact ⟨m.engine.delta.stats, rfl⟩
    | true => exact ⟨_, rfl⟩

variable {t : EVMTrace}

theorem checkDeviation_panics (what : String) (check : EVMTrace → EVMTrace → Except GoPanic Bool)
    (m : Machine σ) {p : GoPanic} (ht : m.engine.config.evmTrace = some t)
    (h : check t m.engine.delta.substrateTrace = .error p) :
    checkDeviation what check m = .error (.panic p m) := by
  have hread : (Exec.read fun m : Machine σ => check t m.engine.delta.substrateTrace) m =
      .error (.panic p m) := by
    simp only [Exec.read, h]
  unfold checkDeviation
  rw [bind_get, ht]
  dsimp only
  rw [bind_apply, hread]
  rfl

theorem sha3Deviates_ok_iff {iso : Nat} {hash : Word} {t' : EVMTrace} :
    (∃ b, sha3Deviates iso hash t t' = .ok b) ↔
      iso < t.callTraces.length ∧ iso < t'.callTraces.length := by
  unfold sha3Deviates
  constructor
  · rintro ⟨b, h⟩
    split at h
    · next h1 h2 =>
      exact ⟨(List.getElem?_eq_some_iff.mp h1).1, (List.getElem?_eq_some_iff.mp h2).1⟩
    · cases h
  · rintro ⟨h1, h2⟩
    rw [getElem?_eq_getElem h1, getElem?_eq_getElem h2]
    dsimp only
    split
    · exact ⟨_, rfl⟩
    · exact ⟨_, rfl⟩

variable {data : Bytes}

theorem logDeviates_ok_iff {topics : List Word} {t' : EVMTrace} :
    (∃ b, logDeviates topics data t t' = .ok b) ↔
      t'.eventTraces.length < t.eventTraces.length := by
  unfold logDeviates
  constructor
  · rintro ⟨b, h⟩
    split at h
    · cases h
    · next h1 => exact (List.getElem?_eq_some_iff.mp h1).1
  · intro h
    rw [getElem?_eq_getElem h]
    exact ⟨_, rfl⟩

section Reads
variable {host : Host σ} {m : Machine σ} {frame : TACFrame} {rest : List TACFrame} {cold : Bool}

theorem head_withMemory (hf : m.engine.frames = frame :: rest) (g : Memory) :
    (m.withMemory g).engine.frames.head?.map (·.memory.store) = some g.store := by
  rw [Machine.withMemory_frames hf]
  rfl

theorem sameOutcome_written (hf : m.engine.frames = frame :: rest) {m0 : Machine σ} (size : Int)
    (g : Memory) :
    SameOutcome host m0 d ([], none) ((m.withMemory g).advance size) { memory := g } :=
  ⟨rfl, rfl, iff_of_false nofun nofun, nofun, nofun, head_withMemory hf g⟩

/-- `RETURN` and `REVERT` hand the bytes of a span over. -/
theorem exit_refinesEvm_iff {op : MemOp} {stack : Stack} {offset length : Word}
    {err evmErr : Option VmError} (hf : m.engine.frames = frame :: rest) (hpaid : frame.memory.Paid)
    (hspan : op.span stack = (offset.toNat, length.toNat))
    (hres : res = afterMemory m (rangeAccess frame.memory offset length m.engine.delta.maxGas)
      fun b => pure (b, err))
    (hexec : ∀ g b, g.getPtr (toInt64 (uint64 offset)) (toInt64 (uint64 length)) =
      .ok b → op.execute { scopeOf host m frame cold with memory := g } stack =
        .ok { memory := g, ret := b, err := evmErr }) (herr : isFailure err = false)
    (hevm : isFailure evmErr = false)
    (hrev : err = some .executionReverted ↔ evmErr = some .executionReverted) :
    RefinesEvm host m d res (evmRound op (scopeOf host m frame cold) stack)
      (evmMemoryFee op (scopeOf host m frame cold) stack) ↔
    SpanCondition frame.memory m.engine.delta.maxGas offset.toNat length.toNat True False := by
  refine range_refinesEvm_iff (s := scopeOf host m frame cold) hpaid hspan
    (fun b => { memory := newMemory, ret := b, err := evmErr }) hres ?_ hexec ?_
    (fun h => absurd trivial h) ?_
  · intro b m' ret m'' h
    obtain ⟨rfl, -⟩ := pure_eq_ok.mp h
    exact herr
  · intro b
    exact iff_of_false (by rw [hevm]; decide) not_false
  · intro _ _ b g
    exact ⟨_, _, rfl, hevm, rfl, hrev, nofun, nofun, head_withMemory hf g⟩

section
variable (hf : m.engine.frames = frame :: rest) (hpaid : frame.memory.Paid) {d o n : Nat}
  (ho : m.operand 1 = .ok o) (hn : m.operand 2 = .ok n)
include hf hpaid ho hn

theorem return_refinesEvm_iff :
    RefinesEvm host m d (execReturn m)
      (evmRound .RETURN (scopeOf host m frame cold) [m.val o, m.val n])
      (evmMemoryFee .RETURN (scopeOf host m frame cold) [m.val o, m.val n]) ↔
    SpanCondition frame.memory m.engine.delta.maxGas (m.val o).toNat (m.val n).toNat True False :=
  exit_refinesEvm_iff hf hpaid rfl (execReturn_eq hf ho hn)
    (fun _ b hb => bind_ok_iff.mpr ⟨b, hb, rfl⟩) rfl rfl (iff_of_false nofun nofun)

theorem revert_refinesEvm_iff :
    RefinesEvm host m d (execRevert m)
      (evmRound .REVERT (scopeOf host m frame cold) [m.val o, m.val n])
      (evmMemoryFee .REVERT (scopeOf host m frame cold) [m.val o, m.val n]) ↔
    SpanCondition frame.memory m.engine.delta.maxGas (m.val o).toNat (m.val n).toNat True False :=
  exit_refinesEvm_iff hf hpaid rfl (execRevert_eq hf ho hn)
    (fun _ b hb => bind_ok_iff.mpr ⟨b, hb, rfl⟩) rfl rfl Iff.rfl

end

theorem mload_span (w : Word) : MemOp.MLOAD.span [w] = (w.toNat, (32 : Word).toNat) := rfl

theorem mload_refinesEvm_iff (hf : m.engine.frames = frame :: rest) (hpaid : frame.memory.Paid)
    {a : Nat} (hd : m.operand 1 = .ok d) (ha : m.operand 2 = .ok a) :
    RefinesEvm host m d (execMload m)
      (evmRound .MLOAD (scopeOf host m frame cold) [m.val a])
      (evmMemoryFee .MLOAD (scopeOf host m frame cold) [m.val a]) ↔
    SpanCondition frame.memory m.engine.delta.maxGas (m.val a).toNat 32 True False := by
  have hreg := Machine.operand_lt hd
  refine range_refinesEvm_iff (s := scopeOf host m frame cold) hpaid (mload_span (m.val a))
    (fun b => { memory := newMemory, pushed := some (setBytes b) }) (execMload_eq hf hd ha)
    ?_ ?_ ?_ (fun h => absurd trivial h) ?_
  · intro b m' ret m'' h
    have hret : ret = ([], none) := by
      simpa using (Prod.mk.inj (Except.ok.inj h)).1.symm
    rw [hret]
    rfl
  · intro g b hb
    exact bind_ok_iff.mpr ⟨b, hb, rfl⟩
  · intro b
    exact iff_of_false Bool.false_ne_true not_false
  · intro _ _ b g
    refine ⟨([], none), ((m.withMemory g).assign d (setBytes b)).advance 3, rfl, rfl, rfl,
      iff_of_false nofun nofun, fun w hw => ?_, nofun, head_withMemory hf g⟩
    cases hw
    exact ((m.withMemory g).val_assign (setBytes b) hreg d).trans (if_pos rfl)

theorem onlyIf_onState (c : Bool) (g : σ → σ) (m : Machine σ) :
    ∃ db, (onlyIf c (onState fun s => ((), g s))) m =
      .ok ((), m.withState db) := by
  cases c with
  | false => exact ⟨m.engine.stateDB, rfl⟩
  | true => exact ⟨_, rfl⟩

theorem sha3Use_ok (host : Host σ) (m : Machine σ) (b : Bytes)
    (hf : m.engine.frames = frame :: rest) (hd : d < m.ctx.registers.length)
    (hcov : TraceCovers m .SHA3) :
    ∃ m', sha3Use host d b m = .ok (([], none), m') ∧ m'.val d = host.keccak256 b ∧
      m'.engine.frames = m.engine.frames := by
  unfold sha3Use
  rw [bind_get]
  obtain ⟨db, hdb⟩ := onlyIf_onState m.engine.config.enablePreimageRecording
    (host.addPreimage (host.keccak256 b) b) m
  rw [bind_of_ok hdb]
  obtain ⟨st, hst⟩ := checkDeviation_ok "SHA3"
    (sha3Deviates m.engine.config.isolationIndex (host.keccak256 b))
    (m.withState db) fun t ht => sha3Deviates_ok_iff.mpr (hcov t ht)
  rw [bind_of_ok hst]
  unfold modifySubCallTrace
  simp only [bind_assoc]
  have hframes : ((m.withState db).withStats st).engine.frames = frame :: rest := hf
  rw [bind_of_ok (getFrame_of_frames hframes)]
  refine ⟨_, rfl, ?_, rfl⟩
  exact (Machine.val_assign _ (host.keccak256 b) hd d).trans (if_pos rfl)

theorem sha3Use_panics (host : Host σ) (d : Nat) (m : Machine σ) (b : Bytes)
    (hcov : ¬ TraceCovers m .SHA3) :
    ∃ stop, sha3Use host d b m = .error stop := by
  have hcov' : ∃ t, m.engine.config.evmTrace = some t ∧
      ¬ (m.engine.config.isolationIndex < t.callTraces.length ∧
        m.engine.config.isolationIndex < m.engine.delta.substrateTrace.callTraces.length) := by
    simpa [TraceCovers] using hcov
  obtain ⟨t, ht, hout⟩ := hcov'
  unfold sha3Use
  rw [bind_get]
  obtain ⟨db, hdb⟩ := onlyIf_onState m.engine.config.enablePreimageRecording
    (host.addPreimage (host.keccak256 b) b) m
  rw [bind_of_ok hdb]
  cases hcheck : sha3Deviates m.engine.config.isolationIndex (host.keccak256 b) t
      m.engine.delta.substrateTrace with
  | ok r => exact absurd (sha3Deviates_ok_iff.mp ⟨r, hcheck⟩) hout
  | error p =>
    have hpanic := checkDeviation_panics "SHA3"
      (sha3Deviates m.engine.config.isolationIndex (host.keccak256 b))
      (m.withState db) ht hcheck
    rw [bind_apply, hpanic]
    exact ⟨_, rfl⟩

theorem isFailure_sha3Use {ret : Ret} (h : sha3Use host d b m = .ok (ret, m')) :
    isFailure ret.2 = false := by
  unfold sha3Use at h
  simp only [bind_eq_ok, done_eq_ok] at h
  obtain ⟨_, _, _, _, _, _, _, _, _, _, _, _, _, _, _, _, _, _, rfl, -⟩ := h
  rfl

theorem sha3_refinesEvm_iff (hf : m.engine.frames = frame :: rest) (hpaid : frame.memory.Paid)
    (hd : m.operand 1 = .ok d) (ho : m.operand 2 = .ok o) (hn : m.operand 3 = .ok n) :
    RefinesEvm host m d (execSha3 host m)
      (evmRound .SHA3 (scopeOf host m frame cold) [m.val o, m.val n])
      (evmMemoryFee .SHA3 (scopeOf host m frame cold) [m.val o, m.val n]) ↔
    SpanCondition frame.memory m.engine.delta.maxGas (m.val o).toNat (m.val n).toNat
      (TraceCovers m .SHA3) False := by
  refine range_refinesEvm_iff (s := scopeOf host m frame cold) hpaid rfl
    (fun b => { memory := newMemory, pushed := some (host.keccak256 b) })
    (execSha3_eq hf host hd ho hn) ?_ ?_ ?_ ?_ ?_
  · intro b m' ret m'' h
    exact isFailure_sha3Use h
  · intro g b hb
    exact bind_ok_iff.mpr ⟨b, hb, rfl⟩
  · intro b
    exact iff_of_false Bool.false_ne_true not_false
  · intro hcov b g
    exact sha3Use_panics host d (m.withMemory g) b hcov
  · intro hcov _ b g
    obtain ⟨m', hok, hval, hframes⟩ := sha3Use_ok host (m.withMemory g) b
      (Machine.withMemory_frames hf g) (Machine.operand_lt hd) hcov
    refine ⟨_, m', hok, rfl, rfl, iff_of_false nofun nofun, fun w hw => ?_, nofun, ?_⟩
    · cases hw
      exact hval
    · rw [hframes]
      exact head_withMemory hf g

/-! The log is compared with the recorded one before it is added. -/

theorem logUse_ok (host : Host σ) (topics : List Word) (size : Nat) (m : Machine σ) (b : Bytes)
    {k : Fin 5}
    (hf : m.engine.frames = frame :: rest) (hcov : TraceCovers m (.LOG k)) :
    ∃ m', logUse host topics size b m = .ok (([], none), m') ∧
      m'.engine.stateDB = host.addLog ⟨frame.contract.address, topics, b,
        m.engine.config.blockNumber % uint64Mod⟩ m.engine.stateDB ∧
      m'.engine.delta.substrateTrace.eventTraces =
        m.engine.delta.substrateTrace.eventTraces ++ [⟨topics, b⟩] ∧
      m'.engine.frames = m.engine.frames := by
  obtain ⟨st, hst⟩ : ∃ st, (onlyIf (m.engine.delta.stats.tacDeviation = [])
      (checkDeviation ("LOG" ++ toString size) (logDeviates topics b))) m =
      .ok ((), m.withStats st) := by
    by_cases hdev : m.engine.delta.stats.tacDeviation = []
    · obtain ⟨st, hst⟩ := checkDeviation_ok ("LOG" ++ toString size) (logDeviates topics b) m
        fun t ht => logDeviates_ok_iff.mpr (hcov hdev t ht)
      refine ⟨st, ?_⟩
      rw [decide_eq_true hdev]
      exact hst
    · refine ⟨m.engine.delta.stats, ?_⟩
      rw [decide_eq_false hdev]
      rfl
  let m2 := (m.withStats st).withTrace { m.engine.delta.substrateTrace with
    eventTraces := m.engine.delta.substrateTrace.eventTraces ++ [⟨topics, b⟩] }
  have hframes : m2.engine.frames = frame :: rest := hf
  have hadd : (modifyDelta fun delta => { delta with substrateTrace := { delta.substrateTrace with
      eventTraces := delta.substrateTrace.eventTraces ++ [⟨topics, b⟩] } }) (m.withStats st) =
      .ok ((), m2) := rfl
  unfold logUse
  rw [bind_get, bind_of_ok hst, bind_of_ok hadd, bind_of_ok (getFrame_of_frames hframes), bind_get]
  exact ⟨_, rfl, rfl, rfl, rfl⟩

theorem logUse_panics (host : Host σ) (topics : List Word) (size : Nat) (m : Machine σ) (b : Bytes)
    {k : Fin 5}
    (hcov : ¬ TraceCovers m (.LOG k)) : ∃ stop, logUse host topics size b m = .error stop := by
  have hcov' : m.engine.delta.stats.tacDeviation = [] ∧ ∃ t, m.engine.config.evmTrace = some t ∧
      ¬ m.engine.delta.substrateTrace.eventTraces.length < t.eventTraces.length := by
    simpa [TraceCovers] using hcov
  obtain ⟨hdev, t, ht, hout⟩ := hcov'
  unfold logUse
  rw [bind_get, decide_eq_true hdev]
  cases hcheck : logDeviates topics b t m.engine.delta.substrateTrace with
  | ok r => exact absurd (logDeviates_ok_iff.mp ⟨r, hcheck⟩) hout
  | error p =>
    have hpanic := checkDeviation_panics ("LOG" ++ toString size) (logDeviates topics b) m ht hcheck
    rw [bind_apply]
    unfold onlyIf
    rw [if_pos rfl, hpanic]
    exact ⟨_, rfl⟩

theorem isFailure_logUse {topics : List Word} {ret : Ret}
    (h : logUse host topics size b m = .ok (ret, m')) : isFailure ret.2 = false := by
  unfold logUse at h
  simp only [bind_eq_ok, done_eq_ok] at h
  obtain ⟨_, _, _, _, _, _, _, _, _, _, _, _, _, _, _, _, _, _, _, _, _, rfl, -⟩ := h
  rfl

theorem log_refinesEvm_iff (hf : m.engine.frames = frame :: rest) (hpaid : frame.memory.Paid)
    {topics : List Nat} (k : Fin 5) (hk : topics.length = k) (ho : m.operand 1 = .ok o)
    (hn : m.operand 2 = .ok n)
    (ht : ∀ i (hi : i < topics.length), m.operand (3 + i) = .ok topics[i]) :
    RefinesEvm host m d (makeTACLog host k m)
      (evmRound (.LOG k) (scopeOf host m frame cold) (m.val o :: m.val n :: topics.map m.val))
      (evmMemoryFee (.LOG k) (scopeOf host m frame cold) (m.val o :: m.val n :: topics.map m.val)) ↔
    SpanCondition frame.memory m.engine.delta.maxGas (m.val o).toNat (m.val n).toNat
      (TraceCovers m (.LOG k)) (m.engine.readOnly = true) := by
  have hlog := makeTACLog_eq hf host ho hn ht
  rw [hk] at hlog
  have htake : (topics.map m.val).take k = topics.map m.val :=
    take_of_length_le (by rw [length_map, hk])
  refine range_refinesEvm_iff (s := scopeOf host m frame cold) hpaid rfl
    (fun b => if m.engine.readOnly then { memory := newMemory, err := some .writeProtection }
      else { memory := newMemory, logged := some ⟨frame.contract.address, topics.map m.val, b,
        m.engine.config.blockNumber % uint64Mod⟩ }) hlog ?_ ?_ ?_ ?_ ?_
  · intro b m' ret m'' h
    exact isFailure_logUse h
  · intro g b hb
    by_cases hro : m.engine.readOnly = true
    · rw [if_pos hro]
      exact EvmScope.makeLog_readOnly hro
    · rw [if_neg hro]
      refine (EvmScope.makeLog_ok { scopeOf host m frame cold with memory := g } k
        (m.val o :: m.val n :: topics.map m.val) hro hb).trans ?_
      simp only [drop_succ_cons, drop_zero, htake]
      rfl
  · intro b
    by_cases hro : m.engine.readOnly = true
    · rw [if_pos hro]
      exact iff_of_true rfl hro
    · rw [if_neg hro]
      exact iff_of_false Bool.false_ne_true hro
  · intro hcov b g
    exact logUse_panics host (topics.map m.val) k ((m.advance 3).withMemory g) b (k := k) hcov
  · intro hcov hro b g
    obtain ⟨m', hok, hdb, hev, hframes⟩ := logUse_ok host (topics.map m.val) k
      ((m.advance 3).withMemory g) b (k := k) (Machine.withMemory_frames hf g) hcov
    rw [if_neg hro]
    refine ⟨_, m', hok, rfl, rfl, iff_of_false nofun nofun, nofun, fun log hl => ?_, ?_⟩
    · cases hl
      exact ⟨hdb, hev⟩
    · rw [hframes]
      exact head_withMemory hf g

theorem write_refinesEvm_iff {op : MemOp} {s : EvmScope} {m1 : Machine σ} {stack : Stack}
    (size : Int) {access : Memory → Except GoPanic (Unit × Memory)} (value : Bytes)
    (hf : m1.engine.frames = frame :: rest) (hpaid : s.memory.Paid) (hspan : op.span stack = (o, n))
    (hn : n ≠ 0) (hres : res = afterMemory m1 (s.memory.afterResize ((o + n) % uint64Mod)
      m.engine.delta.maxGas access) (fun _ => do
        advance size
        done)) (haccess : ∀ g, o + n ≤ g.len → o + n ≤ maxMemorySize →
      access g = .ok ((), g.written o value)) (hexec : ∀ g, o + n ≤ g.len → o + n ≤ maxMemorySize →
      op.execute { s with memory := g } stack = .ok { memory := g.written o value }) :
    RefinesEvm host m d res (evmRound op s stack) (evmMemoryFee op s stack) ↔
    SpanCondition s.memory m.engine.delta.maxGas o n True False := by
  refine span_refinesEvm_iff hpaid hspan hres ?_ ?_ ?_
  · intro g ret m' h
    unfold granted at h
    cases hg : access g with
    | error p =>
      rw [hg] at h
      cases h
    | ok q =>
      rw [hg] at h
      cases h
      rfl
  · intro g hg
    obtain ⟨hle, hbound⟩ := hg hn
    exact ⟨_, hexec g hle hbound, iff_of_false Bool.false_ne_true not_false⟩
  · intro g g' hg
    obtain ⟨rfl, hle, hbound⟩ := hg hn
    have hgrant : granted m1 access (fun _ => do advance size; done) g =
        .ok (([], none), (m1.withMemory (g.written o value)).advance size) := by
      unfold granted
      rw [haccess g hle hbound]
      rfl
    exact iff_of_true ⟨_, _, _, hgrant, hexec g hle hbound, sameOutcome_written hf size _⟩
      ⟨trivial, not_false, rfl⟩

@[simp] theorem length_bytes32 (w : Word) : (bytes32 w).length = 32 := by
  unfold bytes32
  rw [length_map, length_range]

theorem mstore_refinesEvm_iff (hf : m.engine.frames = frame :: rest) (hpaid : frame.memory.Paid)
    {v : Nat} (ho : m.operand 1 = .ok o) (hv : m.operand 2 = .ok v) :
    RefinesEvm host m d (execMstore m)
      (evmRound .MSTORE (scopeOf host m frame cold) [m.val o, m.val v])
      (evmMemoryFee .MSTORE (scopeOf host m frame cold) [m.val o, m.val v]) ↔
    SpanCondition frame.memory m.engine.delta.maxGas (m.val o).toNat 32 True False := by
  have hwrap : (uint64 (m.val o) + 32) % uint64Mod = ((m.val o).toNat + 32) % uint64Mod := by
    unfold uint64
    rw [Nat.mod_add_mod]
  have hcopy : ∀ g : Memory, (m.val o).toNat + 32 ≤ g.len →
      (m.val o).toNat + 32 ≤ maxMemorySize →
      copyInto g.store (uint64 (m.val o)) g.len (bytes32 (m.val v)) =
        .ok (g.written (m.val o).toNat (bytes32 (m.val v))).store := by
    intro g hle hbound
    rw [uint64_of_le (by omega)]
    exact Memory.copyInto_eq (by rw [length_bytes32]; omega) (by omega) le_rfl
  have hres : execMstore m = afterMemory m (frame.memory.afterResize
      (((m.val o).toNat + 32) % uint64Mod) m.engine.delta.maxGas fun g => do
        let store ← copyInto g.store (uint64 (m.val o)) g.len (bytes32 (m.val v))
        return ((), { g with store })) (fun _ => do
          advance 3
          done) := by
    rw [execMstore_eq hf ho hv]
    unfold Memory.extSet32
    rw [hwrap]
  refine write_refinesEvm_iff (s := scopeOf host m frame cold) (o := (m.val o).toNat) (n := 32) 3
    (bytes32 (m.val v)) hf hpaid rfl (by decide) hres ?_ ?_
  · intro g hle hbound
    exact bind_ok_iff.mpr ⟨_, hcopy g hle hbound, rfl⟩
  · intro g hle hbound
    refine bind_ok_iff.mpr ⟨g.written (m.val o).toNat (bytes32 (m.val v)), ?_, rfl⟩
    show g.set32 (uint64 (m.val o)) (m.val v) = _
    unfold Memory.set32
    rw [hwrap, if_neg ?_]
    · exact bind_ok_iff.mpr ⟨_, hcopy g hle hbound, rfl⟩
    · have := Nat.mod_le ((m.val o).toNat + 32) uint64Mod
      omega

theorem mstore8_refinesEvm_iff (hf : m.engine.frames = frame :: rest) (hpaid : frame.memory.Paid)
    {v : Nat} (ho : m.operand 1 = .ok o) (hv : m.operand 2 = .ok v) :
    RefinesEvm host m d (execMstore8 m)
      (evmRound .MSTORE8 (scopeOf host m frame cold) [m.val o, m.val v])
      (evmMemoryFee .MSTORE8 (scopeOf host m frame cold) [m.val o, m.val v]) ↔
    SpanCondition frame.memory m.engine.delta.maxGas (m.val o).toNat 1 True False := by
  have hwrap : (uint64 (m.val o) + 1) % uint64Mod = ((m.val o).toNat + 1) % uint64Mod := by
    unfold uint64
    rw [Nat.mod_add_mod]
  have hset : ∀ g : Memory, (m.val o).toNat + 1 ≤ g.len →
      ({ g with store := g.store.set (m.val o).toNat (UInt8.ofNat (uint64 (m.val v))) } :
        Memory) = g.written (m.val o).toNat [UInt8.ofNat (uint64 (m.val v))] := by
    intro g hle
    unfold Memory.written
    rw [set_eq_take_append_cons_drop, if_pos (by exact hle)]
    simp
  have hres : execMstore8 m = afterMemory m (frame.memory.afterResize
      (((m.val o).toNat + 1) % uint64Mod) m.engine.delta.maxGas fun g =>
        if uint64 (m.val o) < g.len then .ok ((), { g with
          store := g.store.set (uint64 (m.val o)) (UInt8.ofNat (uint64 (m.val v))) })
        else .error .indexOutOfRange) (fun _ => do
          advance 3
          done) := by
    rw [execMstore8_eq hf ho hv]
    unfold Memory.extSet1
    rw [hwrap]
  refine write_refinesEvm_iff (s := scopeOf host m frame cold) (o := (m.val o).toNat) (n := 1) 3
    [UInt8.ofNat (uint64 (m.val v))] hf hpaid rfl (by decide) hres ?_ ?_
  · intro g hle hbound
    rw [uint64_of_le (by omega : (m.val o).toNat ≤ _), if_pos (by omega), hset g hle]
  · intro g hle hbound
    refine bind_ok_iff.mpr ⟨g.written (m.val o).toNat
      [UInt8.ofNat (uint64 (m.val v))], ?_, rfl⟩
    show g.set1 (uint64 (m.val o)) (UInt8.ofNat (uint64 (m.val v))) = _
    unfold Memory.set1
    rw [uint64_of_le (by omega : (m.val o).toNat ≤ _), if_pos (by omega), hset g hle]

end Reads

theorem extGetData_refused {start : Nat} (h : newMemory.Refuses size maxGas) :
    ∃ e, extGetData data start size maxGas = .ok (.error e) ∧
      (e = .gasUintOverflow ∨ e = .outOfGas) := by
  unfold extGetData
  by_cases hsize : maxMemorySize < size
  · rw [Memory.memoryGasCost_of_lt hsize]
    exact ⟨_, rfl, .inl rfl⟩
  · rw [Memory.memoryGasCost_eq Memory.paid_newMemory (by omega)]
    dsimp only
    rw [if_pos (h.resolve_left hsize)]
    exact ⟨_, rfl, .inr rfl⟩

theorem extGetData_granted {start : Nat} (h : ¬ newMemory.Refuses size maxGas)
    (hb : getData data start size = .ok b) :
    extGetData data start size maxGas = .ok (.ok b) := by
  obtain ⟨hsize, hfee⟩ := not_or.mp h
  unfold extGetData
  rw [Memory.memoryGasCost_eq Memory.paid_newMemory (by omega)]
  dsimp only
  rw [if_neg hfee, hb]
  rfl

theorem getData_eq (hdata : data.length < 2 ^ 63) (start : Nat) (hsize : size ≤ maxMemorySize) :
    ∃ b, getData data start size = .ok b ∧ b.length = size := by
  have hno : min start data.length + size < uint64Mod := by
    unfold maxMemorySize at hsize
    unfold uint64Mod
    omega
  unfold getData
  dsimp only
  rw [Nat.mod_eq_of_lt hno]
  unfold slice
  rw [if_pos ⟨by omega, by omega, by omega⟩]
  refine ⟨_, rfl, ?_⟩
  unfold rightPadBytes
  simp only [length_append, length_drop, length_take, length_replicate]
  omega

/-- When a copy refines its opcode: where the instruction fails, the EVM has to refuse the same
span; where it succeeds, the span must not wrap around. -/
def CopyCondition (mem : Memory) (maxGas dest length : Nat) : Prop :=
  if newMemory.Refuses (length % uint64Mod) maxGas ∨
      (length % uint64Mod ≠ 0 ∧ mem.Refuses ((dest + length) % uint64Mod) maxGas) then
    mem.Refuses (dest + length) maxGas
  else length = 0 ∨ dest + length < uint64Mod

section Copies
variable {host : Host σ} {m m1 : Machine σ} {frame : TACFrame} {rest : List TACFrame} {d : Nat}
  {op : MemOp} {s : EvmScope} {stack : Stack} {dest length : Word}
variable {value : Bytes}

theorem set_written {g : Memory} (hle : dest.toNat + length.toNat ≤ g.len)
    (hbound : dest.toNat + length.toNat ≤ maxMemorySize) (hvalue : value.length = length.toNat) :
    g.set (uint64 dest) (uint64 length) value =
      .ok (if length.toNat = 0 then g else g.written dest.toNat value) := by
  have hlt : dest.toNat + length.toNat < uint64Mod := by
    unfold maxMemorySize at hbound
    unfold uint64Mod
    omega
  unfold Memory.set
  rw [uint64_of_le (by omega), uint64_of_le (by omega), Nat.mod_eq_of_lt hlt]
  by_cases hn : length.toNat = 0
  · rw [if_neg (by omega), if_pos hn]
  · rw [if_pos (by omega), if_neg (by omega), if_neg hn]
    exact bind_ok_iff.mpr ⟨_, Memory.copyInto_eq (by omega) (by omega) hle, rfl⟩

theorem set_refinesEvm_iff (size : Int) (hf1 : m1.engine.frames = frame :: rest)
    (hpaid : s.memory.Paid) (hspan : op.span stack = (dest.toNat, length.toNat))
    (hvalue : value.length = uint64 length)
    (hexec : ∀ g, op.execute { s with memory := g } stack =
      (g.set (uint64 dest) (uint64 length) value).map fun memory => { memory }) :
    RefinesEvm host m d (afterMemory m1 (s.memory.extSet (uint64 dest)
        (uint64 length) value m.engine.delta.maxGas) fun _ => do
          advance size
          done)
      (evmRound op s stack) (evmMemoryFee op s stack) ↔
    length.toNat = 0 ∨ dest.toNat + length.toNat < uint64Mod ∨ (uint64 length ≠ 0 ∧
      s.memory.Refuses ((dest.toNat + length.toNat) % uint64Mod) m.engine.delta.maxGas) := by
  by_cases hzero : uint64 length = 0
  · -- the instruction writes nothing
    have hres : (afterMemory m1 (s.memory.extSet (uint64 dest) (uint64 length) value
        m.engine.delta.maxGas) fun _ => do
          advance size
          done) = .ok (([], none), (m1.withMemory s.memory).advance size) := by
      unfold Memory.extSet
      rw [hzero]
      rfl
    by_cases hn : length.toNat = 0
    · have hround : evmRound op s stack = .ok { memory := s.memory } := by
        have hneed : needed (op.span stack) = 0 := by
          rw [hspan]
          exact if_pos hn
        rw [evmRound_eq hpaid (by rw [hneed]; exact Nat.zero_le _), hneed, Memory.grown_zero, hexec]
        unfold Memory.set
        rw [hzero]
        rfl
      exact iff_of_true ⟨_, _, _, hres, hround, sameOutcome_written hf1 size s.memory⟩ (.inl hn)
    · have hwrap : ¬ dest.toNat + length.toNat < uint64Mod := by
        unfold uint64 uint64Mod at hzero
        unfold uint64Mod
        omega
      obtain ⟨e, he, hcases⟩ := evmRound_large (s := s) (hspan ▸ large_of_wrap hn hwrap)
      rw [hres, refinesEvm_success fun _ _ h => by cases h; rfl]
      refine iff_of_false (not_same_of_failure he (isFailure_of_gas hcases)) ?_
      rintro (h | h | h)
      · exact hn h
      · exact hwrap h
      · exact h.1 hzero
  · have hn : length.toNat ≠ 0 := fun h => hzero (by unfold uint64; rw [h]; rfl)
    have hwrapped : (uint64 dest + uint64 length) % uint64Mod =
        (dest.toNat + length.toNat) % uint64Mod := by
      unfold uint64
      rw [← Nat.add_mod]
    unfold Memory.extSet
    rw [if_pos (Nat.pos_of_ne_zero hzero), hwrapped]
    refine (write_refinesEvm_iff size value hf1 hpaid hspan hn rfl ?_ ?_).trans ?_
    · intro g hle hbound
      have hlen : uint64 length = length.toNat := uint64_of_le (by omega)
      rw [uint64_of_le (by omega : dest.toNat ≤ _),
        Nat.mod_eq_of_lt (lt_of_le_of_lt hbound (by decide))]
      exact bind_ok_iff.mpr ⟨_, Memory.copyInto_eq (by omega) (by omega) hle, rfl⟩
    · intro g hle hbound
      rw [hexec, set_written hle hbound (hvalue.trans (uint64_of_le (by omega))), if_neg hn]
      rfl
    · unfold SpanCondition
      split
      · next hrefuse => exact iff_of_true (.inl hn) (.inr (.inr ⟨hzero, hrefuse⟩))
      · next hgrant => simp [hn, hgrant]

theorem copyAccess_refused (mem : Memory) (data : Bytes) (dest src : Word)
    (h : newMemory.Refuses (uint64 length) maxGas) :
    ∃ e, copyAccess mem data dest src length maxGas = .ok (.error e, mem) ∧
      (e = .gasUintOverflow ∨ e = .outOfGas) := by
  obtain ⟨e, he, hcases⟩ : ∃ e, extGetData data (copyStart src) (uint64 length) maxGas =
      .ok (.error e) ∧ (e = .gasUintOverflow ∨ e = .outOfGas) := extGetData_refused h
  refine ⟨e, ?_, hcases⟩
  unfold copyAccess
  rw [he]

variable {src : Word}

theorem copyAccess_granted (h : ¬ newMemory.Refuses (uint64 length) maxGas)
    (hb : getData data (copyStart src) (uint64 length) = .ok b) :
    copyAccess mem data dest src length maxGas =
      mem.extSet (uint64 dest) (uint64 length) b maxGas := by
  unfold copyAccess
  rw [extGetData_granted h hb]

theorem copy_refinesEvm_iff (size : Int) (hf1 : m1.engine.frames = frame :: rest)
    (hpaid : s.memory.Paid) (hspan : op.span stack = (dest.toNat, length.toNat))
    (hdata : data.length < 2 ^ 63) (hexec : ∀ g, op.execute { s with memory := g } stack = do
      let copied ← getData data (copyStart src) (uint64 length)
      return { memory := ← g.set (uint64 dest) (uint64 length) copied }) :
    RefinesEvm host m d (afterMemory m1 (copyAccess s.memory data dest src length
        m.engine.delta.maxGas) fun _ => do
          advance size
          done)
      (evmRound op s stack) (evmMemoryFee op s stack) ↔
    CopyCondition s.memory m.engine.delta.maxGas dest.toNat length.toNat := by
  unfold CopyCondition
  by_cases hfetch : newMemory.Refuses (uint64 length) m.engine.delta.maxGas
  · -- the padding is refused before the memory is looked at
    have hn : length.toNat ≠ 0 := by
      intro hzero
      refine refuses_zero Memory.paid_newMemory m.engine.delta.maxGas ?_
      have h0 : uint64 length = 0 := by
        unfold uint64
        rw [hzero]
        rfl
      rw [← h0]
      exact hfetch
    have hneed : needed (op.span stack) = dest.toNat + length.toNat := by
      rw [hspan]
      exact if_neg hn
    obtain ⟨e, he, hcases⟩ := copyAccess_refused s.memory data dest src hfetch
    rw [if_pos (.inl hfetch), he]
    refine (refinesEvm_failure rfl (isFailure_of_gas hcases)).trans ?_
    rw [evm_rejects_iff False hpaid, hneed, or_false]
    rw [hneed]
    intro hle
    have hlen64 : uint64 length = length.toNat := uint64_of_le (by omega)
    obtain ⟨b, hb, hblen⟩ := getData_eq hdata (copyStart src) (hlen64 ▸ (by omega) :
      uint64 length ≤ maxMemorySize)
    rw [hlen64] at hblen
    refine ⟨{ memory := (s.memory.grown (dest.toNat + length.toNat)).written dest.toNat b }, ?_,
      iff_of_false Bool.false_ne_true not_false⟩
    rw [hexec]
    refine bind_ok_iff.mpr ⟨b, hb, bind_ok_iff.mpr ⟨_,
      set_written (s.memory.le_len_grown _) hle hblen, ?_⟩⟩
    rw [if_neg hn]
    rfl
  · have hsize : uint64 length ≤ maxMemorySize := by
      have := not_or.mp hfetch
      omega
    obtain ⟨b, hb, hblen⟩ := getData_eq hdata (copyStart src) hsize
    have hfetch' : ¬ newMemory.Refuses (length.toNat % uint64Mod) m.engine.delta.maxGas := hfetch
    rw [copyAccess_granted hfetch hb]
    refine (set_refinesEvm_iff size hf1 hpaid hspan hblen fun g => ?_).trans ?_
    · rw [hexec, hb]
      show (g.set (uint64 dest) (uint64 length) b >>= fun memory =>
        pure ({ memory } : EvmResult)) = _
      cases g.set (uint64 dest) (uint64 length) b <;> rfl
    · by_cases hrefuse : length.toNat % uint64Mod ≠ 0 ∧
          s.memory.Refuses ((dest.toNat + length.toNat) % uint64Mod) m.engine.delta.maxGas
      · rw [if_pos (.inr hrefuse)]
        exact iff_of_true (.inr (.inr hrefuse)) (refuses_of_wrap hrefuse.2)
      · rw [if_neg (not_or.mpr ⟨hfetch', hrefuse⟩)]
        exact or_congr_right (or_iff_left hrefuse)

def OutOfBounds (returnData : Bytes) (src length : Word) : Prop :=
  uint64Mod ≤ src.toNat ∨ uint64Mod ≤ (src + length).toNat ∨
    returnData.length < (src + length).toNat

def ReturnDataCondition (mem : Memory) (maxGas : Nat) (returnData : Bytes)
    (dest src length : Word) : Prop :=
  OutOfBounds returnData src length ∨ (src.toNat ≤ (src + length).toNat ∧
    (length.toNat = 0 ∨ dest.toNat + length.toNat < uint64Mod ∨
      mem.Refuses ((dest.toNat + length.toNat) % uint64Mod) maxGas))

/-- The checks of the source, on the values cut to 64 bits. -/
theorem outOfBounds_iff : OutOfBounds rd src length ↔
    (uint64WithOverflow src).2 = true ∨ ((uint64WithOverflow (src + length)).2 = true ∨
      rd.length < (uint64WithOverflow (src + length)).1) := by
  unfold OutOfBounds uint64WithOverflow
  simp only [decide_eq_true_eq]
  by_cases hend : uint64Mod ≤ (src + length).toNat
  · simp only [hend, true_or]
  · have h64 : uint64 (src + length) = (src + length).toNat := Nat.mod_eq_of_lt (by omega)
    rw [h64]

theorem uint64_of_inBounds (h : ¬ OutOfBounds rd src length) :
    uint64 src = src.toNat ∧ uint64 (src + length) = (src + length).toNat := by
  obtain ⟨hsrc, h⟩ := not_or.mp h
  obtain ⟨hend, -⟩ := not_or.mp h
  exact ⟨Nat.mod_eq_of_lt (by omega), Nat.mod_eq_of_lt (by omega)⟩

theorem returnDataAccess_outOfBounds (h : OutOfBounds rd src length) :
    returnDataAccess mem rd dest src length maxGas = .ok (.error .returnDataOutOfBounds, mem) := by
  unfold returnDataAccess
  dsimp only
  split
  · rfl
  · next hsrc => exact if_pos ((outOfBounds_iff.mp h).resolve_left hsrc)

theorem returnDataAccess_inBounds (h : ¬ OutOfBounds rd src length) :
    returnDataAccess mem rd dest src length maxGas =
      match slice rd src.toNat (src + length).toNat with
      | .error p => .error p
      | .ok data => mem.extSet (uint64 dest) (uint64 length) data maxGas := by
  obtain ⟨hsrc, hend⟩ := not_or.mp (outOfBounds_iff.not.mp h)
  obtain ⟨h64, hend64⟩ := uint64_of_inBounds h
  rw [← h64, ← hend64]
  unfold returnDataAccess
  dsimp only
  exact (if_neg hsrc).trans (if_neg hend)

theorem opReturnDataCopy_outOfBounds (h : OutOfBounds s.returnData src length) :
    s.opReturnDataCopy [dest, src, length] =
      .ok { memory := s.memory, err := some .returnDataOutOfBounds } := by
  unfold EvmScope.opReturnDataCopy
  rw [Stack.back_zero, Stack.back_one, Stack.back_two]
  dsimp only
  split
  · rfl
  · next hsrc => exact if_pos ((outOfBounds_iff.mp h).resolve_left hsrc)

theorem opReturnDataCopy_inBounds (h : ¬ OutOfBounds s.returnData src length)
    (hdata : slice s.returnData src.toNat (src + length).toNat = .ok data) :
    s.opReturnDataCopy [dest, src, length] =
      (s.memory.set (uint64 dest) (uint64 length) data).map
        fun memory => { memory } := by
  obtain ⟨hsrc, hend⟩ := not_or.mp (outOfBounds_iff.not.mp h)
  obtain ⟨h64, hend64⟩ := uint64_of_inBounds h
  unfold EvmScope.opReturnDataCopy
  rw [Stack.back_zero, Stack.back_one, Stack.back_two]
  dsimp only
  rw [if_neg hsrc, if_neg hend]
  unfold uint64WithOverflow
  rw [h64, hend64, hdata]
  show (s.memory.set (uint64 dest) (uint64 length) data >>= fun memory =>
    pure ({ memory } : EvmResult)) = _
  cases s.memory.set (uint64 dest) (uint64 length) data <;> rfl

theorem returndatacopy_refinesEvm_iff (size : Int) (hf1 : m1.engine.frames = frame :: rest)
    (hpaid : s.memory.Paid) (hrd : s.returnData.length < 2 ^ 63) :
    RefinesEvm host m d (afterMemory m1 (returnDataAccess s.memory s.returnData dest src length
        m.engine.delta.maxGas) fun _ => do
          advance size
          done)
      (evmRound .RETURNDATACOPY s [dest, src, length])
      (evmMemoryFee .RETURNDATACOPY s [dest, src, length]) ↔
    ReturnDataCondition s.memory m.engine.delta.maxGas s.returnData dest src length := by
  unfold ReturnDataCondition
  by_cases hout : OutOfBounds s.returnData src length
  · rw [returnDataAccess_outOfBounds hout]
    refine (refinesEvm_failure rfl rfl).trans ?_
    rw [evm_rejects_iff True hpaid]
    · exact iff_of_true (.inr trivial) (.inl hout)
    · intro _
      exact ⟨_, opReturnDataCopy_outOfBounds (s := { s with memory := _ }) hout,
        iff_of_true rfl trivial⟩
  · rw [returnDataAccess_inBounds hout]
    obtain ⟨hsrc, h⟩ := not_or.mp hout
    obtain ⟨hend, hle⟩ := not_or.mp h
    by_cases horder : src.toNat ≤ (src + length).toNat
    · have hlen : length.toNat = (src + length).toNat - src.toNat := by
        have hadd := BitVec.toNat_add src length
        have h1 := src.isLt
        have h2 := length.isLt
        omega
      have hslice : slice s.returnData src.toNat (src + length).toNat =
          .ok ((s.returnData.take (src + length).toNat).drop src.toNat) := by
        unfold slice
        rw [if_pos ⟨by omega, by exact_mod_cast horder, by omega⟩]
        rfl
      rw [hslice]
      have hlen64 : uint64 length = length.toNat := Nat.mod_eq_of_lt (by unfold uint64Mod; omega)
      refine (set_refinesEvm_iff size hf1 hpaid rfl ?_ fun g => ?_).trans ?_
      · rw [length_drop, length_take]
        omega
      · exact opReturnDataCopy_inBounds (s := { s with memory := g }) hout hslice
      · rw [hlen64]
        by_cases hn : length.toNat = 0
        · exact iff_of_true (.inl hn) (.inr ⟨horder, .inl hn⟩)
        · simp only [hn, hout, horder, ne_eq, not_false_iff, true_and, false_or]
    · have hslice : slice s.returnData src.toNat (src + length).toNat =
          .error .indexOutOfRange := by
        unfold slice
        rw [if_neg (by omega)]
      rw [hslice]
      refine iff_of_false ?_ ?_
      · rintro ⟨ret, m', out, hres, -⟩
        cases hres
      · rintro (h | h)
        · exact hout h
        · exact horder h.1

end Copies

end EtherVal.Vm
