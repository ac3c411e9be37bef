import EtherVal.Vm.Interpreter

/-!
# Rules for computations on the machine

How a computation takes apart, and what each access to the machine does to the rest of it.
-/

namespace EtherVal.Vm
open EtherVal.Lib EtherVal.TacParser

variable {σ α β : Type}
variable {m m' : Machine σ} {r d : Nat} {ret : Ret} {off : Int} {a : α} {u : Unit} {w : Word}

/-! Both ways a computation can end, once it has ended in one of them. -/

section
variable {ε γ μ π ν : Type} {R : γ → Prop} {P : α → μ → Prop} {Q : π → ν → Prop} {f : π → ν → ε}
  {r : Except ε β} {stop : ε}

theorem outcome_value {c : γ} (h : R c) : (∀ q, (.ok c : Except ε γ) = .ok q → R q) ∧
    ∀ p n, (.ok c : Except ε γ) = .error (f p n) → Q p n := by
  refine ⟨fun q heq => ?_, fun p n heq => (by cases heq)⟩
  cases heq
  exact h

theorem outcome_ok {m : μ} (h : P a m) :
    (∀ b m', (.ok (a, m) : Except ε (α × μ)) = .ok (b, m') → P b m') ∧
      ∀ p n, (.ok (a, m) : Except ε (α × μ)) = .error (f p n) → Q p n :=
  (outcome_value (R := fun q => P q.1 q.2) h).imp_left fun hall b m' => hall (b, m')

theorem outcome_value_of_error (hr : r = .error stop) (h : ∀ p n, r = .error (f p n) → Q p n) :
    (∀ q, (.error stop : Except ε γ) = .ok q → R q) ∧
      ∀ p n, (.error stop : Except ε γ) = .error (f p n) → Q p n := by
  refine ⟨fun q heq => (by cases heq), fun p n heq => ?_⟩
  obtain rfl := Except.error.inj heq
  exact h p n hr

theorem outcome_of_error (hr : r = .error stop) (h : ∀ p n, r = .error (f p n) → Q p n) :
    (∀ b m', (.error stop : Except ε (α × μ)) = .ok (b, m') → P b m') ∧
      ∀ p n, (.error stop : Except ε (α × μ)) = .error (f p n) → Q p n :=
  (outcome_value_of_error (R := fun q => P q.1 q.2) hr h).imp_left fun hall b m' => hall (b, m')

theorem outcome_panic {Q : GoPanic → Machine σ → Prop} {p : GoPanic} (h : Q p m) :
    (∀ b m', (.error (.panic p m) : Except (Stop σ) (α × μ)) = .ok (b, m') → P b m') ∧
      ∀ p' n, (.error (.panic p m) : Except (Stop σ) (α × μ)) = .error (.panic p' n) → Q p' n :=
  outcome_of_error (r := (.error (.panic p m) : Except (Stop σ) Unit)) rfl fun p' n heq => by
    obtain ⟨rfl, rfl⟩ := Stop.panic.inj (Except.error.inj heq)
    exact h

theorem outcome_error {p : π} {n : ν} (h : Q p n) :
    (∀ b m', (.error (p, n) : Except (π × ν) (α × μ)) = .ok (b, m') → P b m') ∧
      ∀ p' n', (.error (p, n) : Except (π × ν) (α × μ)) = .error (p', n') → Q p' n' :=
  outcome_of_error (r := (.error (p, n) : Except (π × ν) Unit)) rfl fun p' n' heq => by
    cases Except.error.inj heq
    exact h

end

namespace Exec

theorem bind_apply (x : Exec σ α) (f : α → Exec σ β) (m : Machine σ) :
    (x >>= f) m = (x m >>= fun p => f p.1 p.2) := rfl

variable {m m' : Machine σ}

@[simp] theorem bind_eq_ok {x : Exec σ α} {f : α → Exec σ β} {b : β} :
    (x >>= f) m = .ok (b, m') ↔ ∃ a m1, x m = .ok (a, m1) ∧ f a m1 = .ok (b, m') := by
  rw [bind_apply]
  constructor
  · intro h
    cases hx : x m with
    | error e =>
      rw [hx] at h
      cases h
    | ok p =>
      rw [hx] at h
      exact ⟨p.1, p.2, rfl, h⟩
  · rintro ⟨a, m1, hx, hf⟩
    rw [hx]
    exact hf

theorem bind_of_ok {x : Exec σ α} {f : α → Exec σ β} {m1 : Machine σ} (h : x m = .ok (a, m1)) :
    (x >>= f) m = f a m1 := by
  rw [bind_apply, h]
  rfl

@[simp] theorem pure_eq_ok {b : α} :
    (pure a : Exec σ α) m = .ok (b, m') ↔ a = b ∧ m = m' := by
  show Except.ok (a, m) = .ok (b, m') ↔ _
  simp

@[simp] theorem modify_eq_ok {g : Machine σ → Machine σ} :
    (modify g : Exec σ Unit) m = .ok (u, m') ↔ m' = g m := by
  show Except.ok ((), g m) = .ok (u, m') ↔ _
  simp [eq_comm]

@[simp] theorem get_eq_ok {m1 : Machine σ} :
    (get : Exec σ (Machine σ)) m = .ok (m1, m') ↔ m = m1 ∧ m = m' := by
  show Except.ok (m, m) = .ok (m1, m') ↔ _
  simp

@[simp] theorem panicWith_ne_ok {p : GoPanic} :
    (panicWith p : Exec σ α) m ≠ .ok (a, m') := by
  intro h
  cases h

@[simp] theorem read_eq_ok {g : Machine σ → Except GoPanic α} :
    (read g) m = .ok (a, m') ↔ g m = .ok a ∧ m = m' := by
  unfold read
  cases g m with
  | error p => simp
  | ok b => simp

@[simp] theorem inst_eq_ok {c : Int} :
    inst off m = .ok (c, m') ↔ m.inst off = .ok c ∧ m = m' := read_eq_ok

@[simp] theorem operand_eq_ok :
    operand off m = .ok (r, m') ↔ m.operand off = .ok r ∧ m = m' := read_eq_ok

@[simp] theorem val_eq_ok :
    val r m = .ok (w, m') ↔ m.val r = w ∧ m = m' := by
  show Except.ok (m.val r, m) = .ok (w, m') ↔ _
  simp

@[simp] theorem assign_eq_ok :
    assign r w m = .ok (u, m') ↔ m' = m.assign r w := modify_eq_ok

@[simp] theorem advance_eq_ok {n : Int} :
    advance n m = .ok (u, m') ↔ m' = m.advance n := modify_eq_ok

/-! What the first step of a computation leaves for the rest -/

section
variable {f : α → Exec σ β} {g : Unit → Exec σ β} {k : Word → Exec σ β} {q : β × Machine σ}

theorem get_bind {f : Machine σ → Exec σ β} (h : (get >>= f) m = .ok q) : f m m = .ok q := h

theorem val_bind (h : (val r >>= k) m = .ok q) : k (m.val r) m = .ok q := h

theorem modify_bind {u : Machine σ → Machine σ} (h : (modify u >>= g) m = .ok q) :
    g () (u m) = .ok q := h

theorem assign_bind (h : (assign r w >>= g) m = .ok q) :
    g () (m.assign r w) = .ok q := h

theorem advance_bind {n : Int} (h : (advance n >>= g) m = .ok q) : g () (m.advance n) = .ok q := h

theorem read_bind {u : Machine σ → Except GoPanic α} (h : (read u >>= f) m = .ok q) :
    ∃ a, u m = .ok a ∧ f a m = .ok q := by
  obtain ⟨a, m1, hread, h⟩ := bind_eq_ok.mp h
  obtain ⟨hu, rfl⟩ := read_eq_ok.mp hread
  exact ⟨a, hu, h⟩

theorem inst_bind {f : Int → Exec σ β} (h : (inst off >>= f) m = .ok q) :
    ∃ c, m.inst off = .ok c ∧ f c m = .ok q := read_bind h

theorem operand_bind {f : Nat → Exec σ β} (h : (operand off >>= f) m = .ok q) :
    ∃ r, m.operand off = .ok r ∧ f r m = .ok q := read_bind h

end

@[simp] theorem done_eq_ok :
    done m = .ok (ret, m') ↔ ret = ([], none) ∧ m' = m := by
  show Except.ok (([], none), m) = .ok (ret, m') ↔ _
  simp [eq_comm]

@[simp] theorem fail_eq_ok {e : VmError} :
    fail e m = .ok (ret, m') ↔ ret = ([], some e) ∧ m' = m := by
  show Except.ok (([], some e), m) = .ok (ret, m') ↔ _
  simp [eq_comm]

def Quiet (x : Exec σ Unit) : Prop :=
  ∀ m : Machine σ, ∃ e, x m = .ok ((), { m with engine := e })

theorem quiet_modifyStats (g : TACStats → TACStats) : Quiet (modifyStats (σ := σ) g) :=
  fun m => ⟨{ m.engine with delta := { m.engine.delta with stats := g m.engine.delta.stats } }, rfl⟩

theorem quiet_countIf (c : Bool) (g : TACStats → TACStats) : Quiet (countIf (σ := σ) c g) := by
  intro m
  cases c with
  | true => exact quiet_modifyStats g m
  | false => exact ⟨m.engine, rfl⟩

theorem Quiet.bind {x y : Exec σ Unit} (hx : Quiet x) (hy : Quiet y) :
    Quiet (x >>= fun _ => y) := by
  intro m
  obtain ⟨e, he⟩ := hx m
  obtain ⟨e', he'⟩ := hy { m with engine := e }
  exact ⟨e', by rw [bind_of_ok he, he']⟩

theorem execPhiStart_inv (h : execPhiStart m = .ok (ret, m')) :
    ∃ n, m.inst 1 = .ok n ∧ ((n = 0 ∧ m' = m.advance 3) ∨
      ∃ m1, execPhis n.toNat (m.advance 2) = .ok ((), m1) ∧ m' = m1.advance 1) := by
  obtain ⟨n, hn, h⟩ := Exec.inst_bind h
  refine ⟨n, hn, ?_⟩
  split at h
  · next h0 =>
    have h := Exec.advance_bind h
    obtain ⟨-, rfl⟩ := done_eq_ok.mp h
    exact .inl ⟨h0, rfl⟩
  · have h := Exec.advance_bind h
    obtain ⟨_, m1, hphis, h⟩ := bind_eq_ok.mp h
    have h := Exec.advance_bind h
    obtain ⟨-, rfl⟩ := done_eq_ok.mp h
    exact .inr ⟨m1, hphis, rfl⟩

end Exec

open Exec

theorem execUnary_eq_ok {g : Word → Exec σ Word} :
    execUnary g m = .ok (ret, m') ↔ ∃ d a w m1, m.operand 1 = .ok d ∧ m.operand 2 = .ok a ∧
      g (m.val a) m = .ok (w, m1) ∧ ret = ([], none) ∧ m' = (m1.assign d w).advance 3 := by
  simp [execUnary, and_assoc]

theorem execBinary_eq_ok {g : Word → Word → Word} :
    execBinary g m = .ok (ret, m') ↔ ∃ d a b, m.operand 1 = .ok d ∧ m.operand 2 = .ok a ∧
      m.operand 3 = .ok b ∧ ret = ([], none) ∧
      m' = (m.assign d (g (m.val a) (m.val b))).advance 4 := by
  simp [execBinary, and_assoc]

theorem execTernary_eq_ok {g : Word → Word → Word → Word} :
    execTernary g m = .ok (ret, m') ↔ ∃ d a b c, m.operand 1 = .ok d ∧ m.operand 2 = .ok a ∧
      m.operand 3 = .ok b ∧ m.operand 4 = .ok c ∧ ret = ([], none) ∧
      m' = (m.assign d (g (m.val a) (m.val b) (m.val c))).advance 5 := by
  simp [execTernary, and_assoc]

theorem execNot_eq_ok :
    execNot m = .ok (ret, m') ↔ ∃ d a, m.operand 1 = .ok d ∧ m.operand 2 = .ok a ∧
      ret = ([], none) ∧ m' = (m.setReg d { m.reg d with val := ~~~(m.val a) }).advance 3 := by
  simp [execNot, and_assoc]

namespace Machine

theorem getVar_eq_ok {c : Int} :
    m.getVar c = .ok r ↔ c = r ∧ r < m.ctx.registers.length := by
  cases c with
  | negSucc n =>
    simp only [getVar, reduceCtorEq, false_iff, not_and]
    exact fun h => h.elim
  | ofNat n =>
    simp only [getVar, Int.ofNat_eq_natCast, Int.natCast_inj]
    by_cases hn : n < m.ctx.registers.length
    · rw [if_pos hn, Except.ok.injEq]
      exact ⟨fun h => ⟨h, h ▸ hn⟩, fun h => h.1⟩
    · rw [if_neg hn]
      simp only [reduceCtorEq, false_iff, not_and]
      exact fun h => h ▸ hn

theorem operand_iff :
    m.operand off = .ok r ↔ m.inst off = .ok (r : Int) ∧ r < m.ctx.registers.length := by
  unfold operand
  cases hc : m.inst off with
  | error p =>
    constructor
    · intro h
      cases h
    · rintro ⟨h, -⟩
      cases h
  | ok c =>
    change m.getVar c = .ok r ↔ _
    rw [getVar_eq_ok, Except.ok.injEq]

theorem operand_lt (h : m.operand off = .ok r) :
    r < m.ctx.registers.length := (operand_iff.mp h).2

theorem reg_setReg (m : Machine σ) (x : TACRegister) (h : d < m.ctx.registers.length) (r : Nat) :
    (m.setReg d x).reg r = if r = d then x else m.reg r := by
  unfold reg setReg
  simp only [List.getD_eq_getElem?_getD, List.getElem?_set]
  by_cases hr : r = d
  · subst hr
    simp [h]
  · simp [Ne.symm hr, hr]

@[simp] theorem reg_advance (m : Machine σ) (n : Int) (r : Nat) :
    (m.advance n).reg r = m.reg r := rfl

@[simp] theorem val_advance (m : Machine σ) (n : Int) (r : Nat) :
    (m.advance n).val r = m.val r := rfl

theorem reg_assign (m : Machine σ) (w : Word) (h : d < m.ctx.registers.length) (r : Nat) :
    (m.assign d w).reg r = if r = d then ⟨w, m.ctx.cycle⟩ else m.reg r :=
  m.reg_setReg _ h r

theorem val_assign (m : Machine σ) (w : Word) (h : d < m.ctx.registers.length) (r : Nat) :
    (m.assign d w).val r = if r = d then w else m.val r := by
  unfold val
  rw [reg_assign m w h]
  split <;> rfl

end Machine

def SameButData (e e' : TACInterpreter σ) : Prop := ∃ returnData, e' = { e with returnData }

/-- How a round ends after its instruction; `m1` has the new return data and cycle. -/
inductive Tail (op : TACOperation) (ret : Ret) (m m1 : Machine σ) : Except (Stop σ) (Round σ) → Prop
  | noFrame (hf : m.engine.frames = []) : Tail op ret m m1 (.error (.panic .indexOutOfRange m1))
  | stop {frame : TACFrame} {rest : List TACFrame} (hf : m.engine.frames = frame :: rest)
      (hstop : m.ctx.functionStop = true) : Tail op ret m m1 (.ok (.returned ret m1))
  | error {frame : TACFrame} {rest : List TACFrame} {err : VmError}
      (hf : m.engine.frames = frame :: rest) (hstop : m.ctx.functionStop = false)
      (herr : ret.2 = some err) : Tail op ret m m1 (.ok (.returned ([], some err) m1))
  | reverts {frame : TACFrame} {rest : List TACFrame} (hf : m.engine.frames = frame :: rest)
      (hstop : m.ctx.functionStop = false) (hnone : ret.2 = none)
      (hreverts : (frame.mark op).reverts = true) : Tail op ret m m1
        (.ok (.returned (ret.1, some .executionReverted)
          { m1 with engine := { m1.engine with frames := frame.mark op :: rest } }))
  | halts {frame : TACFrame} {rest : List TACFrame} (hf : m.engine.frames = frame :: rest)
      (hstop : m.ctx.functionStop = false) (hnone : ret.2 = none)
      (hreverts : (frame.mark op).reverts = false) (hhalts : (frame.mark op).halts = true) :
      Tail op ret m m1 (.ok (.returned (ret.1, none)
        { m1 with engine := { m1.engine with frames := frame.mark op :: rest } }))
  | next {frame : TACFrame} {rest : List TACFrame} (hf : m.engine.frames = frame :: rest)
      (hstop : m.ctx.functionStop = false) (hnone : ret.2 = none)
      (hreverts : (frame.mark op).reverts = false) (hhalts : (frame.mark op).halts = false) :
      Tail op ret m m1 (.ok (.next
        ⟨{ m1 with engine := { m1.engine with frames := frame.mark op :: rest } }, ret.1, none⟩))

theorem roundTail_tail (op : TACOperation) (ret : Ret) (m : Machine σ) :
    ∃ m1, m1.pc = m.pc ∧ m1.ctx = (increaseCycle m).ctx ∧ SameButData m.engine m1.engine ∧
      Tail op ret m m1 (roundTail op ret m) := by
  obtain ⟨d, hset⟩ : ∃ d, setReturnData op ret.1 (increaseCycle m) =
      { increaseCycle m with engine := { m.engine with returnData := d } } := by
    unfold setReturnData
    split
    · exact ⟨_, rfl⟩
    · exact ⟨m.engine.returnData, rfl⟩
  refine ⟨{ increaseCycle m with engine := { m.engine with returnData := d } }, rfl,
    rfl, ⟨d, rfl⟩, ?_⟩
  unfold roundTail
  rw [hset]
  dsimp only
  split
  · next hf => exact .noFrame hf
  next frame rest hf =>
  split
  · next hstop => exact .stop hf hstop
  next hrunning =>
  have hstop : m.ctx.functionStop = false := Bool.eq_false_iff.mpr hrunning
  cases herr : ret.2 with
  | some err => exact .error hf hstop herr
  | none =>
    rw [Option.isSome_none, if_neg Bool.false_ne_true]
    split
    · next hreverts => exact .reverts hf hstop herr hreverts
    next hreverts =>
    split
    · next hhalts => exact .halts hf hstop herr (Bool.eq_false_iff.mpr hreverts) hhalts
    next hhalts =>
    exact .next hf hstop herr (Bool.eq_false_iff.mpr hreverts) (Bool.eq_false_iff.mpr hhalts)

end EtherVal.Vm
