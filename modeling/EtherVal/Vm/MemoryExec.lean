import EtherVal.Vm.EvmMemory
import EtherVal.Vm.ExecRules

/-!
# Memory instructions as one access and what follows it
-/

namespace EtherVal.Vm
open EtherVal.Lib EtherVal.TacParser Exec
open Uint256 (uint64WithOverflow uint64 setBytes)

variable {σ α : Type}
variable {o n d : Nat} {m : Machine σ} {frame : TACFrame} {rest : List TACFrame}

namespace Machine

def withMemory (m : Machine σ) (mem : Memory) : Machine σ :=
  { m with engine := { m.engine with frames := match m.engine.frames with
    | frame :: rest => { frame with memory := mem } :: rest
    | [] => [] } }

@[simp] theorem withMemory_frames (hf : m.engine.frames = frame :: rest) (mem : Memory) :
    (m.withMemory mem).engine.frames = { frame with memory := mem } :: rest := by
  unfold withMemory
  rw [hf]

theorem withMemory_self (hf : m.engine.frames = frame :: rest) : m.withMemory frame.memory = m := by
  have hframes : (m.withMemory frame.memory).engine.frames = m.engine.frames := by
    rw [withMemory_frames hf, hf]
  obtain ⟨pc, engine, ctx⟩ := m
  obtain ⟨config, stateDB, evmAbort, interpreter, readOnly, returnData, frames⟩ := engine
  unfold withMemory at *
  dsimp only at *
  rw [hframes]

theorem operand_advance (m : Machine σ) (n k : Int) :
    (m.advance n).operand k = m.operand (n + k) := by
  have hcell : (m.advance n).inst k = m.inst (n + k) := by
    unfold inst advance
    rw [add_assoc]
  unfold operand
  rw [hcell]
  rfl

end Machine

def afterMemory (m : Machine σ) (r : MemResult α) (use : α → Exec σ Ret) :
    Except (Stop σ) (Ret × Machine σ) :=
  match r with
  | .error p => .error (.panic p m)
  | .ok (.error e, mem) => .ok (([], some e), m.withMemory mem)
  | .ok (.ok a, mem) => use a (m.withMemory mem)

theorem bind_val (r : Nat) (f : Word → Exec σ α) (m : Machine σ) :
    (val r >>= f) m = f (m.val r) m := rfl

theorem bind_get (f : Machine σ → Exec σ α) (m : Machine σ) : (get >>= f) m = f m m := rfl

theorem getFrame_of_frames (hf : m.engine.frames = frame :: rest) : getFrame m = .ok (frame, m) :=
  read_eq_ok.mpr ⟨by simp only [hf], rfl⟩

theorem onMemory_apply (hf : m.engine.frames = frame :: rest) (g : Memory → MemResult α)
    {f : Except VmError α → Exec σ Ret} (hfail : ∀ e, f (.error e) = fail e) :
    (onMemory g >>= f) m = afterMemory m (g frame.memory) fun a => f (.ok a) := by
  unfold onMemory afterMemory
  simp only [bind_assoc]
  rw [bind_of_ok (getFrame_of_frames hf)]
  cases g frame.memory with
  | error p => rfl
  | ok q =>
    obtain ⟨r, mem⟩ := q
    cases r with
    | error e => exact congrFun (hfail e) (m.withMemory mem)
    | ok a => rfl

section
variable {m : Machine σ} {frame : TACFrame} {rest : List TACFrame}
  (hf : m.engine.frames = frame :: rest)
include hf

def rangeAccess (mem : Memory) (offset length : Word) (maxGas : Nat) : MemResult Bytes :=
  mem.extGetPtr (toInt64 (uint64 offset)) (toInt64 (uint64 length)) maxGas

theorem memoryRange_apply (o n : Nat) {f : Except VmError Bytes → Exec σ Ret}
    (hfail : ∀ e, f (.error e) = fail e) :
    (memoryRange o n >>= f) m = afterMemory m
      (rangeAccess frame.memory (m.val o) (m.val n) m.engine.delta.maxGas) fun a => f (.ok a) := by
  unfold memoryRange
  simp only [bind_assoc]
  rw [bind_val, bind_val, bind_get]
  exact onMemory_apply hf _ hfail

theorem execMload_eq {a : Nat} (hd : m.operand 1 = .ok d) (ha : m.operand 2 = .ok a) :
    execMload m = afterMemory m (frame.memory.extGetPtr (toInt64 (uint64 (m.val a))) 32
      m.engine.delta.maxGas) (fun data => do
        assign d (setBytes data)
        advance 3
        done) := by
  unfold execMload
  rw [bind_of_ok (operand_eq_ok.mpr ⟨hd, rfl⟩), bind_of_ok (operand_eq_ok.mpr ⟨ha, rfl⟩),
    bind_val, bind_get]
  exact onMemory_apply hf _ fun _ => rfl

theorem execMstore_eq {v : Nat} (ho : m.operand 1 = .ok o) (hv : m.operand 2 = .ok v) :
    execMstore m = afterMemory m (frame.memory.extSet32 (uint64 (m.val o)) (m.val v)
      m.engine.delta.maxGas) (fun _ => do
        advance 3
        done) := by
  unfold execMstore
  rw [bind_of_ok (operand_eq_ok.mpr ⟨ho, rfl⟩), bind_of_ok (operand_eq_ok.mpr ⟨hv, rfl⟩),
    bind_val, bind_val, bind_get]
  exact onMemory_apply hf _ fun _ => rfl

theorem execMstore8_eq {v : Nat} (ho : m.operand 1 = .ok o) (hv : m.operand 2 = .ok v) :
    execMstore8 m = afterMemory m (frame.memory.extSet1 (uint64 (m.val o))
      (UInt8.ofNat (uint64 (m.val v))) m.engine.delta.maxGas) (fun _ => do
        advance 3
        done) := by
  unfold execMstore8
  rw [bind_of_ok (operand_eq_ok.mpr ⟨ho, rfl⟩), bind_of_ok (operand_eq_ok.mpr ⟨hv, rfl⟩),
    bind_val, bind_val, bind_get]
  exact onMemory_apply hf _ fun _ => rfl

theorem execReturn_eq (ho : m.operand 1 = .ok o) (hn : m.operand 2 = .ok n) :
    execReturn m = afterMemory m (rangeAccess frame.memory (m.val o) (m.val n)
      m.engine.delta.maxGas) fun ret => pure (ret, none) := by
  unfold execReturn
  rw [bind_of_ok (operand_eq_ok.mpr ⟨ho, rfl⟩), bind_of_ok (operand_eq_ok.mpr ⟨hn, rfl⟩)]
  exact memoryRange_apply hf o n fun _ => rfl

theorem execRevert_eq (ho : m.operand 1 = .ok o) (hn : m.operand 2 = .ok n) :
    execRevert m = afterMemory m (rangeAccess frame.memory (m.val o) (m.val n)
      m.engine.delta.maxGas) fun ret => pure (ret, some .executionReverted) := by
  unfold execRevert
  rw [bind_of_ok (operand_eq_ok.mpr ⟨ho, rfl⟩), bind_of_ok (operand_eq_ok.mpr ⟨hn, rfl⟩)]
  exact memoryRange_apply hf o n fun _ => rfl

def sha3Use (host : Host σ) (d : Nat) (data : Bytes) : Exec σ Ret := do
  let hash := host.keccak256 data
  let m ← get
  onlyIf m.engine.config.enablePreimageRecording
    (onState fun s => ((), host.addPreimage hash data s))
  checkDeviation "SHA3" (sha3Deviates m.engine.config.isolationIndex hash)
  modifySubCallTrace (·.addSHA3InstRet hash)
  assign d hash
  advance 4
  done

theorem execSha3_eq (host : Host σ) (hd : m.operand 1 = .ok d) (ho : m.operand 2 = .ok o)
    (hn : m.operand 3 = .ok n) :
    execSha3 host m = afterMemory m (rangeAccess frame.memory (m.val o) (m.val n)
      m.engine.delta.maxGas) (sha3Use host d) := by
  unfold execSha3
  rw [bind_of_ok (operand_eq_ok.mpr ⟨hd, rfl⟩), bind_of_ok (operand_eq_ok.mpr ⟨ho, rfl⟩),
    bind_of_ok (operand_eq_ok.mpr ⟨hn, rfl⟩)]
  exact memoryRange_apply hf o n fun _ => rfl

def logUse (host : Host σ) (topics : List Word) (size : Nat) (d : Bytes) : Exec σ Ret := do
  onlyIf ((← get).engine.delta.stats.tacDeviation = [])
    (checkDeviation ("LOG" ++ toString size) (logDeviates topics d))
  modifyDelta fun delta => { delta with substrateTrace := { delta.substrateTrace with
    eventTraces := delta.substrateTrace.eventTraces ++ [⟨topics, d⟩] } }
  let address := (← getFrame).contract.address
  let blockNumber := (← get).engine.config.blockNumber % uint64Mod
  onState fun s => ((), host.addLog ⟨address, topics, d, blockNumber⟩ s)
  advance size
  done

omit hf in
theorem operandValues_eq {rs : List Nat} {first : Int}
    (h : ∀ i (hi : i < rs.length), m.operand (first + i) = .ok rs[i]) :
    operandValues first rs.length m = .ok (rs.map m.val, m) := by
  induction rs generalizing first with
  | nil => rfl
  | cons r rs ih =>
    have h0 : m.operand first = .ok r := by
      have := h 0 (by simp)
      simpa using this
    have hrest : operandValues (first + 1) rs.length m = .ok (rs.map m.val, m) := by
      refine ih fun i hi => ?_
      have hcell : first + 1 + (i : Int) = first + ((i + 1 : Nat) : Int) := by
        push_cast
        ring
      rw [hcell]
      exact h (i + 1) (by simpa using hi)
    rw [List.length_cons, operandValues, bind_of_ok (operand_eq_ok.mpr ⟨h0, rfl⟩), bind_val,
      bind_of_ok hrest]
    rfl

theorem makeTACLog_eq (host : Host σ) {topics : List Nat} (ho : m.operand 1 = .ok o)
    (hn : m.operand 2 = .ok n)
    (ht : ∀ i (hi : i < topics.length), m.operand (3 + i) = .ok topics[i]) :
    makeTACLog host topics.length m = afterMemory (m.advance 3)
      (rangeAccess frame.memory (m.val o) (m.val n) m.engine.delta.maxGas)
      (logUse host (topics.map m.val) topics.length) := by
  have htopics : operandValues 0 topics.length (m.advance 3) =
      .ok (topics.map m.val, m.advance 3) := by
    refine operandValues_eq fun i hi => ?_
    rw [Machine.operand_advance, zero_add]
    exact ht i hi
  unfold makeTACLog
  rw [bind_of_ok (operand_eq_ok.mpr ⟨ho, rfl⟩), bind_of_ok (operand_eq_ok.mpr ⟨hn, rfl⟩),
    bind_of_ok (advance_eq_ok (u := ()).mpr rfl), bind_of_ok htopics]
  exact memoryRange_apply (m := m.advance 3) hf o n fun _ => rfl

def copyStart (src : Word) : Nat :=
  if (uint64WithOverflow src).2 then maxUint64 else (uint64WithOverflow src).1

def copyAccess (mem : Memory) (data : Bytes) (dest src length : Word) (maxGas : Nat) :
    MemResult Unit :=
  match extGetData data (copyStart src) (uint64 length) maxGas with
  | .error p => .error p
  | .ok (.error e) => .ok (.error e, mem)
  | .ok (.ok copied) => mem.extSet (uint64 dest) (uint64 length) copied maxGas

omit hf in
theorem execCopy_eq {first size : Int} {source : Exec σ Bytes} {data : Bytes} {m1 : Machine σ}
    {s : Nat} (hd : m.operand first = .ok d) (hs : m.operand (first + 1) = .ok s)
    (hn : m.operand (first + 2) = .ok n) (hsource : source m = .ok (data, m1))
    (hf1 : m1.engine.frames = frame :: rest) :
    execCopy first size source m = afterMemory m1 (copyAccess frame.memory data (m.val d)
      (m.val s) (m.val n) m1.engine.delta.maxGas) (fun _ => do
        advance size
        done) := by
  unfold execCopy
  rw [bind_of_ok (operand_eq_ok.mpr ⟨hd, rfl⟩), bind_of_ok (operand_eq_ok.mpr ⟨hs, rfl⟩),
    bind_of_ok (operand_eq_ok.mpr ⟨hn, rfl⟩), bind_val]
  dsimp only
  rw [bind_val, bind_val, bind_of_ok hsource, bind_get]
  unfold copyAccess copyStart
  cases extGetData data
      (if (uint64WithOverflow (m.val s)).2 = true then maxUint64
        else (uint64WithOverflow (m.val s)).1)
      (uint64 (m.val n)) m1.engine.delta.maxGas with
  | error p => rfl
  | ok r =>
    have hread : (Exec.read fun _ : Machine σ => Except.ok r) m1 = .ok (r, m1) := rfl
    rw [bind_of_ok hread]
    cases r with
    | error e =>
      show Except.ok (([], some e), m1) = Except.ok (([], some e), m1.withMemory frame.memory)
      rw [Machine.withMemory_self hf1]
    | ok copied => exact onMemory_apply hf1 _ fun _ => rfl

def returnDataAccess (mem : Memory) (returnData : Bytes) (dest src length : Word) (maxGas : Nat) :
    MemResult Unit :=
  let (src64, overflow) := uint64WithOverflow src
  if overflow then .ok (.error .returnDataOutOfBounds, mem)
  else
    let (end64, overflow) := uint64WithOverflow (src + length)
    if overflow ∨ returnData.length < end64 then .ok (.error .returnDataOutOfBounds, mem)
    else match slice returnData src64 end64 with
      | .error p => .error p
      | .ok data => mem.extSet (uint64 dest) (uint64 length) data maxGas

theorem execReturndatacopy_eq {s : Nat} (hd : m.operand 1 = .ok d) (hs : m.operand 2 = .ok s)
    (hn : m.operand 3 = .ok n) :
    execReturndatacopy m = afterMemory m (returnDataAccess frame.memory m.engine.returnData
      (m.val d) (m.val s) (m.val n) m.engine.delta.maxGas) (fun _ => do
        advance 4
        done) := by
  have hself := Machine.withMemory_self hf
  have hfail : ∀ e, fail e m = afterMemory m (α := Unit) (.ok (.error e, frame.memory))
      (fun _ => do advance 4; done) := by
    intro e
    show Except.ok (([], some e), m) = Except.ok (([], some e), m.withMemory frame.memory)
    rw [hself]
  unfold execReturndatacopy returnDataAccess
  rw [bind_of_ok (operand_eq_ok.mpr ⟨hd, rfl⟩), bind_of_ok (operand_eq_ok.mpr ⟨hs, rfl⟩),
    bind_of_ok (operand_eq_ok.mpr ⟨hn, rfl⟩), bind_val]
  dsimp only
  split
  · exact hfail _
  · rw [bind_val, bind_val, bind_get]
    split
    · exact hfail _
    · rw [bind_val, bind_val]
      cases hslice : slice m.engine.returnData (uint64WithOverflow (m.val s)).1
          (uint64WithOverflow (m.val s + m.val n)).1 with
      | error p =>
        have hread : (Exec.read fun m' : Machine σ => slice m'.engine.returnData
            (uint64WithOverflow (m.val s)).1
            (uint64WithOverflow (m.val s + m.val n)).1) m = .error (.panic p m) := by
          simp only [Exec.read, hslice]
        rw [bind_apply, hread]
        rfl
      | ok data =>
        rw [bind_of_ok (read_eq_ok.mpr ⟨hslice, rfl⟩)]
        exact onMemory_apply hf _ fun _ => rfl

end

end EtherVal.Vm
