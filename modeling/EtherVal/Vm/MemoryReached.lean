import EtherVal.Vm.MemoryRefinement

/-!
# Memory instructions on every reachable memory
-/

namespace EtherVal.Vm
open EtherVal.Lib EtherVal.TacParser Exec List

variable {σ α : Type}

inductive Memory.Reached : Memory → Prop
  | new : Reached newMemory
  | getPtr {mem mem' : Memory} {o n : Int} {maxGas : Nat} {b : Bytes} (h : Reached mem)
      (hok : mem.extGetPtr o n maxGas = .ok (.ok b, mem')) : Reached mem'
  | set {mem mem' : Memory} {o n maxGas : Nat} {value : Bytes} (h : Reached mem)
      (hok : mem.extSet o n value maxGas = .ok (.ok (), mem')) : Reached mem'
  | set32 {mem mem' : Memory} {o maxGas : Nat} {w : Word} (h : Reached mem)
      (hok : mem.extSet32 o w maxGas = .ok (.ok (), mem')) : Reached mem'
  | set1 {mem mem' : Memory} {o maxGas : Nat} {b : UInt8} (h : Reached mem)
      (hok : mem.extSet1 o b maxGas = .ok (.ok (), mem')) : Reached mem'

theorem Memory.Paid.of_store {g : Memory} (h : g.Paid) {store : Bytes}
    (hlen : store.length = g.store.length) : ({ g with store } : Memory).Paid := by
  have hlen' : ({ g with store } : Memory).len = g.len := hlen
  refine ⟨?_, ?_, ?_⟩
  · rw [hlen']
    exact h.aligned
  · rw [hlen']
    exact h.fee
  · rw [hlen']
    exact h.bound

theorem paid_afterResize {mem mem' : Memory} {n maxGas : Nat} {a : α}
    {access : Memory → Except GoPanic (α × Memory)} (hpaid : mem.Paid)
    (haccess : ∀ g b g', g.Paid → access g = .ok (b, g') → g'.Paid)
    (hok : mem.afterResize n maxGas access = .ok (.ok a, mem')) : mem'.Paid := by
  by_cases hrefuse : mem.Refuses n maxGas
  · obtain ⟨e, m', heq, -⟩ := Memory.afterResize_refused hpaid hrefuse access
    rw [heq] at hok
    cases (Prod.mk.inj (Except.ok.inj hok)).1
  · rw [Memory.afterResize_granted hpaid hrefuse] at hok
    have hle : n ≤ maxMemorySize := by
      have := not_or.mp hrefuse
      omega
    cases hg : access (mem.grown n) with
    | error p =>
      rw [hg] at hok
      cases hok
    | ok q =>
      rw [hg] at hok
      cases hok
      exact haccess _ q.1 q.2 (hpaid.grown hle) hg

theorem length_copyInto {store store' : Bytes} {low high : Nat} {value : Bytes}
    (h : copyInto store low high value = .ok store') : store'.length = store.length := by
  unfold copyInto at h
  split at h
  · next hle =>
    cases h
    simp only [length_append, length_take, length_drop]
    omega
  · cases h

theorem Memory.Reached.paid {mem : Memory} (h : mem.Reached) : mem.Paid := by
  have hcopy : ∀ (low high : Memory → Nat) (value : Bytes) (g g' : Memory) (u : Unit), g.Paid →
      (do
        let store ← copyInto g.store (low g) (high g) value
        return ((), ({ g with store } : Memory))) = .ok (u, g') → g'.Paid := by
    intro low high value g g' u hg hok
    obtain ⟨store, hstore, hok⟩ := bind_ok hok
    cases hok
    exact hg.of_store (length_copyInto hstore)
  induction h with
  | new => exact Memory.paid_newMemory
  | getPtr _ hok ih =>
    refine paid_afterResize ih (fun g b g' hg hacc => ?_) hok
    obtain ⟨_, -, hacc⟩ := bind_ok hacc
    cases hacc
    exact hg
  | set _ hok ih =>
    unfold Memory.extSet at hok
    split at hok
    · exact paid_afterResize ih (fun g b g' hg => hcopy (fun _ => _) (fun _ => _) _ g g' b hg) hok
    · cases hok
      exact ih
  | set32 _ hok ih =>
    exact paid_afterResize ih (fun g b g' hg => hcopy (fun _ => _) Memory.len _ g g' b hg) hok
  | set1 _ hok ih =>
    refine paid_afterResize ih (fun g b g' hg hacc => ?_) hok
    split at hacc
    · cases hacc
      exact hg.of_store (length_set ..)
    · cases hacc

structure GoSized (host : Host σ) (m : Machine σ) (frame : TACFrame) : Prop where
  input : frame.contract.input.length < 2 ^ 63
  code : frame.contract.code.length < 2 ^ 63
  returnData : m.engine.returnData.length < 2 ^ 63
  getCode : ∀ a, (host.getCode a m.engine.stateDB).1.length < 2 ^ 63

def MemCondition (m : Machine σ) (frame : TACFrame) (stack : Stack) (op : MemOp) : Prop :=
  let span := SpanCondition frame.memory m.engine.delta.maxGas (stack.back 0).toNat
  let copy := CopyCondition frame.memory m.engine.delta.maxGas
  match op with
  | .MLOAD | .MSTORE => span 32 True False
  | .MSTORE8 => span 1 True False
  | .RETURN | .REVERT => span (stack.back 1).toNat True False
  | .SHA3 => span (stack.back 1).toNat (TraceCovers m .SHA3) False
  | .LOG k => span (stack.back 1).toNat (TraceCovers m (.LOG k)) (m.engine.readOnly = true)
  | .CALLDATACOPY | .CODECOPY => copy (stack.back 0).toNat (stack.back 2).toNat
  | .EXTCODECOPY => copy (stack.back 1).toNat (stack.back 3).toNat
  | .RETURNDATACOPY => ReturnDataCondition frame.memory m.engine.delta.maxGas m.engine.returnData
      (stack.back 0) (stack.back 1) (stack.back 2)

theorem execution_log (host : Host σ) (run : Runner σ) (k : Fin 5) :
    execution host run (MemOp.LOG k).tacOp = makeTACLog host k := by
  match k with
  | 0 | 1 | 2 | 3 | 4 => rfl

theorem memory_refinesEvm_iff (host : Host σ) (run : Runner σ) (op : MemOp) (m : Machine σ)
    (frame : TACFrame) (rest : List TACFrame) (hf : m.engine.frames = frame :: rest)
    (hmem : frame.memory.Reached) (hsized : GoSized host m frame) (d : Nat) (rs : List Nat)
    (h : MemOperands m op d rs) (cold : Bool) :
    RefinesEvm host m d (execution host run op.tacOp m)
      (evmRound op (scopeOf host m frame cold) (rs.map m.val))
      (evmMemoryFee op (scopeOf host m frame cold) (rs.map m.val)) ↔
    MemCondition m frame (rs.map m.val) op := by
  have hpaid := hmem.paid
  have hcount := h.count
  have hargs := h.args
  cases op with
  | MLOAD =>
    obtain ⟨a, rfl⟩ := length_eq_one_iff.mp hcount
    exact mload_refinesEvm_iff hf hpaid (h.dest rfl) (hargs 0 (by simp))
  | MSTORE =>
    obtain ⟨o, v, rfl⟩ := length_eq_two.mp hcount
    exact mstore_refinesEvm_iff hf hpaid (hargs 0 (by simp)) (hargs 1 (by simp))
  | MSTORE8 =>
    obtain ⟨o, v, rfl⟩ := length_eq_two.mp hcount
    exact mstore8_refinesEvm_iff hf hpaid (hargs 0 (by simp)) (hargs 1 (by simp))
  | SHA3 =>
    obtain ⟨o, n, rfl⟩ := length_eq_two.mp hcount
    exact sha3_refinesEvm_iff hf hpaid (h.dest rfl) (hargs 0 (by simp)) (hargs 1 (by simp))
  | RETURN =>
    obtain ⟨o, n, rfl⟩ := length_eq_two.mp hcount
    exact return_refinesEvm_iff hf hpaid (hargs 0 (by simp)) (hargs 1 (by simp))
  | REVERT =>
    obtain ⟨o, n, rfl⟩ := length_eq_two.mp hcount
    exact revert_refinesEvm_iff hf hpaid (hargs 0 (by simp)) (hargs 1 (by simp))
  | LOG k =>
    rcases rs with _ | ⟨o, _ | ⟨n, topics⟩⟩
    · simp only [length_nil, MemOp.arity] at hcount
      omega
    · simp only [length_cons, length_nil, MemOp.arity] at hcount
      omega
    · have hk : topics.length = k := by
        simp only [length_cons, MemOp.arity] at hcount
        omega
      rw [execution_log]
      refine log_refinesEvm_iff hf hpaid k hk (hargs 0 (by simp)) (hargs 1 (by simp)) fun i hi => ?_
      have hcell : (3 : Int) + (i : Int) = 1 + ((i + 2 : Nat) : Int) := by
        push_cast
        ring
      rw [hcell]
      exact hargs (i + 2) (by simpa using hi)
  | CALLDATACOPY =>
    obtain ⟨a, b, n, rfl⟩ := length_eq_three.mp hcount
    have hsource : (do return (← getFrame).contract.input : Exec σ Bytes) m =
        .ok (frame.contract.input, m) := by
      rw [bind_of_ok (getFrame_of_frames hf)]
      rfl
    have h0 : m.operand 1 = .ok a := hargs 0 (by simp)
    have h1 : m.operand (1 + 1) = .ok b := hargs 1 (by simp)
    have h2 : m.operand (1 + 2) = .ok n := hargs 2 (by simp)
    show RefinesEvm host m d (execCopy 1 4 _ m) _ _ ↔ _
    rw [execCopy_eq h0 h1 h2 hsource hf]
    exact copy_refinesEvm_iff (s := scopeOf host m frame cold) 4 hf hpaid rfl hsized.input
      fun _ => rfl
  | CODECOPY =>
    obtain ⟨a, b, n, rfl⟩ := length_eq_three.mp hcount
    have hsource : (do return (← getFrame).contract.code : Exec σ Bytes) m =
        .ok (frame.contract.code, m) := by
      rw [bind_of_ok (getFrame_of_frames hf)]
      rfl
    have h0 : m.operand 1 = .ok a := hargs 0 (by simp)
    have h1 : m.operand (1 + 1) = .ok b := hargs 1 (by simp)
    have h2 : m.operand (1 + 2) = .ok n := hargs 2 (by simp)
    show RefinesEvm host m d (execCopy 1 4 _ m) _ _ ↔ _
    rw [execCopy_eq h0 h1 h2 hsource hf]
    exact copy_refinesEvm_iff (s := scopeOf host m frame cold) 4 hf hpaid rfl hsized.code
      fun _ => rfl
  | EXTCODECOPY =>
    rcases rs with _ | ⟨x, rs⟩
    · simp [MemOp.arity] at hcount
    · have hthree : rs.length = 3 := by
        simp only [length_cons, MemOp.arity] at hcount
        omega
      obtain ⟨a, b, n, rfl⟩ := length_eq_three.mp hthree
      have h0 : m.operand 1 = .ok x := hargs 0 (by simp)
      have hsource : (do
          let a ← operand 1
          onState (host.getCode (Uint256.bytes20 (← val a))) : Exec σ Bytes) m =
          .ok ((host.getCode (Uint256.bytes20 (m.val x)) m.engine.stateDB).1,
            m.withState (host.getCode (Uint256.bytes20 (m.val x)) m.engine.stateDB).2) := by
        rw [bind_of_ok (operand_eq_ok.mpr ⟨h0, rfl⟩), bind_val]
        rfl
      have h1 : m.operand 2 = .ok a := hargs 1 (by simp)
      have h2 : m.operand (2 + 1) = .ok b := hargs 2 (by simp)
      have h3 : m.operand (2 + 2) = .ok n := hargs 3 (by simp)
      have hf1 : (m.withState
          (host.getCode (Uint256.bytes20 (m.val x)) m.engine.stateDB).2).engine.frames =
          frame :: rest := hf
      show RefinesEvm host m d (execCopy 2 5 _ m) _ _ ↔ _
      rw [execCopy_eq h1 h2 h3 hsource hf1]
      exact copy_refinesEvm_iff (s := scopeOf host m frame cold) 5 hf hpaid rfl
        (hsized.getCode _) fun _ => rfl
  | RETURNDATACOPY =>
    obtain ⟨a, b, n, rfl⟩ := length_eq_three.mp hcount
    have hres := execReturndatacopy_eq hf
        (hargs 0 (by simp)) (hargs 1 (by simp)) (hargs 2 (by simp))
    show RefinesEvm host m d (execReturndatacopy m) _ _ ↔ _
    rw [hres]
    exact returndatacopy_refinesEvm_iff (s := scopeOf host m frame cold) 4 hf hpaid
      hsized.returnData

def mloadFrame : TACFrame := { (default : TACFrame) with memory := newMemory }

def mloadMachine (offset : Word) : Machine Unit where
  pc := 0
  engine := { (default : TACInterpreter Unit) with
    frames := [mloadFrame], delta := { (default : DeltaSemantics) with maxGas := 1000 } }
  ctx := { registers := [{}, { val := offset }], function := { insts := [TACOp.MLOAD.code, 0, 1] } }

theorem memOperands_mload (offset : Word) : MemOperands (mloadMachine offset) .MLOAD 0 [1] where
  dest _ := rfl
  args := by
    intro i hi
    obtain rfl : i = 0 := by simpa using hi
    rfl
  count := rfl

theorem mload_refinesEvm_low :
    RefinesEvm default (mloadMachine 64) 0
      (execution default (executeFunc default 0) .MLOAD (mloadMachine 64))
      (evmRound .MLOAD (scopeOf default (mloadMachine 64) mloadFrame false) [64])
      (evmMemoryFee .MLOAD (scopeOf default (mloadMachine 64) mloadFrame false) [64]) :=
  (memory_refinesEvm_iff default (executeFunc default 0) .MLOAD (mloadMachine 64) mloadFrame []
    rfl .new ⟨by decide, by decide, by decide, fun _ => Nat.two_pow_pos 63⟩ 0 [1]
    (memOperands_mload 64)
    false).mpr (by
      show SpanCondition newMemory 1000 64 32 True False
      refine (if_neg ?_).mpr ⟨trivial, not_false, ?_⟩
      · decide
      · decide)

/-- At offset 2^64 the EVM fails; the TAC instruction reads at offset 0. -/
theorem mload_wraps_around :
    (mloadFrame.memory.Reached ∧ MemOperands (mloadMachine 0x10000000000000000) .MLOAD 0 [1]) ∧
    ¬ RefinesEvm default (mloadMachine 0x10000000000000000) 0
      (execution default (executeFunc default 0) .MLOAD (mloadMachine 0x10000000000000000))
      (evmRound .MLOAD (scopeOf default (mloadMachine 0x10000000000000000) mloadFrame false)
      [0x10000000000000000])
      (evmMemoryFee .MLOAD (scopeOf default (mloadMachine 0x10000000000000000) mloadFrame false)
      [0x10000000000000000]) := by
  refine ⟨⟨.new, memOperands_mload _⟩, fun h => ?_⟩
  have hcond := (mload_refinesEvm_iff rfl Memory.paid_newMemory
    ((memOperands_mload 0x10000000000000000).dest rfl)
    ((memOperands_mload 0x10000000000000000).args 0 (by simp))).mp h
  have hspan : SpanCondition newMemory 1000 0x10000000000000000 32 True False := hcond
  unfold SpanCondition at hspan
  rw [if_neg (by decide +kernel)] at hspan
  exact absurd hspan.2.2 (by decide +kernel)

end EtherVal.Vm
