import EtherVal.Vm.Invariants

/-!
# What each instruction does to the context

An instruction that returns no error writes at most its destination registers, stamps them
with the current cycle and moves on by its own size, jumps and `NOT` apart.  The same walk over its
text shows which invariants of the engine it keeps.
-/

namespace EtherVal.Vm
open EtherVal.Lib EtherVal.TacParser
open Exec (bind_eq_ok pure_eq_ok advance_eq_ok assign_eq_ok fail_eq_ok)

variable {σ α β : Type}
variable {I : TACInterpreter σ → Prop}
variable {k : Int} {x : Exec σ α} {f : α → Exec σ Ret} {d : Nat}

/-! ### Instructions without and with one destination

The rules follow the text of an instruction: what only touches the engine comes first, and
the base cases are the ends that return an error and those that move on. -/

structure Advances (I : TACInterpreter σ → Prop) (k : Int) (x : Exec σ Ret) : Prop where
  keeps : Keeps I x
  moves : ∀ m ret m', x m = .ok (ret, m') → ret.2 = none → m'.ctx = m.ctx ∧ m'.pc = m.pc + k

structure WritesTo (I : TACInterpreter σ → Prop) (d : Nat) (k : Int) (x : Exec σ Ret) : Prop where
  keeps : Keeps I x
  writes : ∀ m ret m', x m = .ok (ret, m') → ret.2 = none →
    ∃ w, m'.ctx = (m.assign d w).ctx ∧ m'.pc = m.pc + k

structure Writes (I : TACInterpreter σ → Prop) (k : Int) (x : Exec σ Ret) : Prop where
  keeps : Keeps I x
  writes : ∀ m ret m', x m = .ok (ret, m') → ret.2 = none →
    ∃ d w, m.operand 1 = .ok d ∧ m'.ctx = (m.assign d w).ctx ∧ m'.pc = m.pc + k

theorem assign_ctx_congr {m m1 : Machine σ} (h : m1.ctx = m.ctx) (d : Nat) (w : Word) :
    (m1.assign d w).ctx = (m.assign d w).ctx := by
  simp only [Machine.assign, Machine.setReg, h]

theorem operand_congr {m m1 : Machine σ} (hpc : m1.pc = m.pc) (hctx : m1.ctx = m.ctx) (off : Int) :
    m1.operand off = m.operand off := by
  simp only [Machine.operand, Machine.inst, Machine.getVar, hpc, hctx]

namespace Advances

theorem bind (hx : EngineOnly I x) (hf : ∀ a, Advances I k (f a)) : Advances I k (x >>= f) := by
  refine ⟨hx.keeps.bind fun a => (hf a).keeps, fun m ret m' h hret => ?_⟩
  obtain ⟨a, m1, h1, h2⟩ := bind_eq_ok.mp h
  obtain ⟨hp, hc⟩ := hx.same m a m1 h1
  obtain ⟨hc', hp'⟩ := (hf a).moves m1 ret m' h2 hret
  exact ⟨hc'.trans hc, by rw [hp', hp]⟩

theorem advance {f : Unit → Exec σ Ret} {n t : Int} (ht : n + k = t)
    (hf : ∀ u, Advances I k (f u)) : Advances I t (Exec.advance n >>= f) := by
  refine ⟨(Keeps.advance n).bind fun a => (hf a).keeps, fun m ret m' h hret => ?_⟩
  obtain ⟨a, m1, h1, h2⟩ := bind_eq_ok.mp h
  obtain rfl := advance_eq_ok.mp h1
  obtain ⟨hc, hp⟩ := (hf a).moves _ ret m' h2 hret
  exact ⟨hc, by rw [hp, Machine.advance, add_assoc, ht]⟩

theorem ret (r : Ret) : Advances I 0 (pure r) := by
  refine ⟨.pure r, fun m ret m' h _ => ?_⟩
  obtain ⟨-, rfl⟩ := pure_eq_ok.mp h
  exact ⟨rfl, (add_zero _).symm⟩

theorem error (r : Bytes) (e : VmError) (k : Int) : Advances I k (pure (r, some e)) := by
  refine ⟨.pure _, fun m ret m' h hret => ?_⟩
  obtain ⟨rfl, -⟩ := pure_eq_ok.mp h
  cases hret

theorem fail (e : VmError) (k : Int) : Advances I k (Exec.fail e) := error [] e k

theorem move (r : Ret) (k : Int) : Advances I k (Exec.advance k >>= fun _ => pure r) :=
  advance (add_zero k) fun _ => ret r

end Advances

namespace WritesTo

theorem bind (hx : EngineOnly I x) (hf : ∀ a, WritesTo I d k (f a)) :
    WritesTo I d k (x >>= f) := by
  refine ⟨hx.keeps.bind fun a => (hf a).keeps, fun m ret m' h hret => ?_⟩
  obtain ⟨a, m1, h1, h2⟩ := bind_eq_ok.mp h
  obtain ⟨hp, hc⟩ := hx.same m a m1 h1
  obtain ⟨w, hc', hp'⟩ := (hf a).writes m1 ret m' h2 hret
  exact ⟨w, by rw [hc', assign_ctx_congr hc], by rw [hp', hp]⟩

theorem advance {f : Unit → Exec σ Ret} {n t : Int} (ht : n + k = t)
    (hf : ∀ u, WritesTo I d k (f u)) : WritesTo I d t (Exec.advance n >>= f) := by
  refine ⟨(Keeps.advance n).bind fun a => (hf a).keeps, fun m ret m' h hret => ?_⟩
  obtain ⟨a, m1, h1, h2⟩ := bind_eq_ok.mp h
  obtain rfl := advance_eq_ok.mp h1
  obtain ⟨w, hc, hp⟩ := (hf a).writes _ ret m' h2 hret
  exact ⟨w, hc, by rw [hp, Machine.advance, add_assoc, ht]⟩

theorem fail (e : VmError) (d : Nat) (k : Int) : WritesTo I d k (Exec.fail e) := by
  refine ⟨.fail e, fun m ret m' h hret => ?_⟩
  obtain ⟨rfl, -⟩ := fail_eq_ok.mp h
  cases hret

theorem assign {f : Unit → Exec σ Ret} {w : Word} (hf : ∀ u, Advances I k (f u)) :
    WritesTo I d k (Exec.assign d w >>= f) := by
  refine ⟨(Keeps.assign d w).bind fun a => (hf a).keeps, fun m ret m' h hret => ?_⟩
  obtain ⟨a, m1, h1, h2⟩ := bind_eq_ok.mp h
  obtain rfl := assign_eq_ok.mp h1
  obtain ⟨hc, hp⟩ := (hf a).moves _ ret m' h2 hret
  exact ⟨w, hc, hp⟩

theorem put (w : Word) (k : Int) :
    WritesTo I d k (Exec.assign d w >>= fun _ => Exec.advance k >>= fun _ => Exec.done) :=
  assign fun _ => Advances.move _ k

end WritesTo

theorem Writes.operand {f : Nat → Exec σ Ret} (hf : ∀ d, WritesTo I d k (f d)) :
    Writes I k (Exec.operand 1 >>= f) := by
  refine ⟨(Keeps.operand 1).bind fun d => (hf d).keeps, fun m ret m' h hret => ?_⟩
  obtain ⟨d, hd, h2⟩ := Exec.operand_bind h
  obtain ⟨w, hc, hp⟩ := (hf d).writes _ ret m' h2 hret
  exact ⟨d, w, hd, hc, hp⟩

theorem Writes.bind (hx : EngineOnly I x) (hf : ∀ a, Writes I k (f a)) : Writes I k (x >>= f) := by
  refine ⟨hx.keeps.bind fun a => (hf a).keeps, fun m ret m' h hret => ?_⟩
  obtain ⟨a, m1, h1, h2⟩ := bind_eq_ok.mp h
  obtain ⟨hp, hc⟩ := hx.same m a m1 h1
  obtain ⟨d, w, hd, hc', hp'⟩ := (hf a).writes m1 ret m' h2 hret
  exact ⟨d, w, operand_congr hp hc 1 ▸ hd, by rw [hc', assign_ctx_congr hc], by rw [hp', hp]⟩

open EngineOnly (get read inst operand val onState onMemory getFrame modifyStats countIf onlyIf
  modifySubCallTrace modifyDelta)

section
open WritesTo (bind fail assign put)

theorem writes_execRead {src : Exec σ Word} (h : EngineOnly I src) : Writes I 2 (execRead src) :=
  Writes.bind h fun _ => Writes.operand fun _ => put _ 2

theorem writes_execUnary {g : Word → Exec σ Word} (h : ∀ x, EngineOnly I (g x)) :
    Writes I 3 (execUnary g) :=
  Writes.operand fun _ => bind (operand _) fun _ => bind (val _) fun _ =>
    bind (h _) fun _ => put _ 3

theorem writes_execBinary (g : Word → Word → Word) : Writes I 4 (execBinary g) :=
  Writes.operand fun _ => bind (operand _) fun _ => bind (operand _) fun _ => bind (val _) fun _ =>
    bind (val _) fun _ => put _ 4

theorem writes_execTernary (g : Word → Word → Word → Word) : Writes I 5 (execTernary g) :=
  Writes.operand fun _ => bind (operand _) fun _ => bind (operand _) fun _ =>
    bind (operand _) fun _ => bind (val _) fun _ => bind (val _) fun _ =>
      bind (val _) fun _ => put _ 5

theorem engineOnly_fromFrame (g : TACFrame → Word) : EngineOnly I (fromFrame g) :=
  getFrame.bind fun _ => EngineOnly.pure _

theorem engineOnly_fromConfig (g : EVMConfig → Word) : EngineOnly I (fromConfig (σ := σ) g) :=
  get.bind fun _ => EngineOnly.pure _

theorem writes_execCalldataload : Writes I 3 execCalldataload := by
  refine Writes.operand fun d => bind (operand _) fun a => bind (val _) fun x => ?_
  dsimp only
  split
  · exact put _ 3
  · refine bind getFrame fun frame => bind get fun m => bind (read _) fun res => ?_
    cases res with
    | error e => exact fail _ _ _
    | ok data => exact put _ 3

section
variable (hI : FrameInv I)
include hI

theorem writes_execMload : Writes I 3 execMload := by
  refine Writes.operand fun d => bind (operand _) fun a => bind (val _) fun x =>
    bind get fun m => bind (onMemory hI _) fun res => ?_
  cases res with
  | error e => exact fail _ _ _
  | ok data => exact put _ 3

theorem writes_execExtcodehash (host : Host σ) : Writes I 3 (execExtcodehash host) := by
  refine writes_execUnary fun x => (onState hI _).bind fun b => ?_
  cases b with
  | true => exact EngineOnly.pure _
  | false => exact onState hI _

theorem writes_execBlockhash (host : Host σ) : Writes I 3 (execBlockhash host) := by
  refine writes_execUnary fun x => get.bind fun m => ?_
  dsimp only
  generalize (if _ < 257 then 0 else _) = lower
  exact .ite (.pure _) (.ite (onState hI _) (.pure _))

theorem writes_execConst : Writes I 2 execConst := by
  refine Writes.bind get fun _ => Writes.bind (modifyStats hI fun _ => rfl) fun _ =>
    Writes.bind (countIf hI _ fun _ => rfl) fun _ => Writes.operand fun c =>
      ⟨Keeps.bind (.modify fun _ => rfl) fun _ => .move 2, fun m ret m' h hret => ?_⟩
  have h2 := Exec.modify_bind h
  obtain ⟨hc, hp⟩ := (Advances.move (I := I) ([], none) 2).moves _ ret m' h2 hret
  exact ⟨m.val c, hc, hp⟩

end

section
variable (hI : EventInv I)
include hI

theorem writes_execGas : Writes I 2 execGas := by
  refine Writes.operand fun d => bind getFrame fun frame => bind get fun m => ?_
  dsimp only
  split
  · exact fail _ _ _
  · exact bind (modifySubCallTrace hI _) fun _ => put _ 2

theorem writes_execSha3 (host : Host σ) : Writes I 4 (execSha3 host) := by
  refine Writes.operand fun d => bind (operand _) fun o => bind (operand _) fun l =>
    bind (.memoryRange hI.frameInv _ _) fun res => ?_
  cases res with
  | error e => exact fail _ _ _
  | ok data =>
    exact bind get fun m => bind (onlyIf _ (onState hI.frameInv _)) fun _ =>
      bind (.checkDeviation hI _ _) fun _ => bind (modifySubCallTrace hI _) fun _ => put _ 4

end

end

section
open Advances (bind fail move ret error advance)

section
variable (hI : FrameInv I)
include hI

theorem advances_execMstore : Advances I 3 execMstore := by
  refine bind (operand _) fun o => bind (operand _) fun v => bind (val _) fun x =>
    bind (val _) fun y => bind get fun m => bind (onMemory hI _) fun res => ?_
  cases res with
  | error e => exact fail _ _
  | ok _ => exact move _ 3

theorem advances_execMstore8 : Advances I 3 execMstore8 := by
  refine bind (operand _) fun o => bind (operand _) fun v => bind (val _) fun x =>
    bind (val _) fun y => bind get fun m => bind (onMemory hI _) fun res => ?_
  cases res with
  | error e => exact fail _ _
  | ok _ => exact move _ 3

theorem advances_execReturn : Advances I 0 execReturn := by
  refine bind (operand _) fun o => bind (operand _) fun l =>
    bind (.memoryRange hI _ _) fun res => ?_
  cases res with
  | error e => exact fail _ _
  | ok data => exact ret _

theorem advances_execRevert (k : Int) : Advances I k execRevert := by
  refine bind (operand _) fun o => bind (operand _) fun l =>
    bind (.memoryRange hI _ _) fun res => ?_
  cases res with
  | error e => exact fail _ _
  | ok data => exact error _ _ _

theorem advances_execCopy {first size : Int} {source : Exec σ Bytes} (h : EngineOnly I source) :
    Advances I size (execCopy first size source) := by
  refine bind (operand _) fun d => bind (operand _) fun s => bind (operand _) fun l =>
    bind (val _) fun x => bind (val _) fun y => bind (val _) fun z => bind h fun data =>
      bind get fun m => bind (read _) fun copied => ?_
  cases copied with
  | error e => exact fail _ _
  | ok copied =>
    refine bind (onMemory hI _) fun res => ?_
    cases res with
    | error e => exact fail _ _
    | ok _ => exact move _ size

theorem advances_execReturndatacopy : Advances I 4 execReturndatacopy := by
  refine bind (operand _) fun d => bind (operand _) fun s =>
    bind (operand _) fun l => bind (val _) fun x => ?_
  dsimp only
  split
  · exact fail _ _
  · refine bind (val _) fun y => bind (val _) fun z => bind get fun m => ?_
    split
    · exact fail _ _
    · refine bind (val _) fun _ => bind (val _) fun _ =>
        bind (read _) fun data => bind (onMemory hI _) fun res => ?_
      cases res with
      | error e => exact fail _ _
      | ok _ => exact move _ 4

theorem advances_execSelfdestruct (host : Host σ) : Advances I 0 (execSelfdestruct host) :=
  bind (operand _) fun _ => bind getFrame fun _ => bind (onState hI _) fun _ =>
    bind (val _) fun _ =>
    bind (onState hI _) fun _ => bind (onState hI _) fun _ => ret _

theorem advances_execThrow (k : Int) : Advances I k execThrow :=
  bind get fun _ => bind (modifyStats hI fun _ => rfl) fun _ =>
    bind (countIf hI _ fun _ => rfl) fun _ => fail _ _

theorem advances_execStop : Advances I 0 execStop :=
  bind get fun _ => bind (modifyStats hI fun _ => rfl) fun _ =>
    bind (countIf hI _ fun _ => rfl) fun _ => ret _

/- A call writes its success flag before it stores the returned data. -/
theorem writesTo_finishCall (host : Host σ) (toAddr : Address) (d retOffset retSize : Nat)
    (size : Int) (res : CallResult) :
    WritesTo I d size (finishCall host toAddr d retOffset retSize size res) := by
  refine WritesTo.assign fun _ => bind (.storeReturned hI _ _ _) fun stored => ?_
  cases stored with
  | error e => exact fail _ _
  | ok _ =>
    refine bind (.modifyEngine fun e he => hI e _ ⟨rfl, rfl, rfl, rfl, rfl, rfl, rfl⟩ he) fun _ =>
      bind get fun _ => bind (onlyIf _ ((onState hI _).bind fun _ =>
        onlyIf _ (.noteUsedEVM hI))) fun _ => ?_
    cases res.err with
    | none => exact move _ size
    | some e =>
      refine bind get fun m => ?_
      split
      · exact fail _ _
      · exact move _ size

end

section
variable (hI : EventInv I)
include hI

theorem advances_execSstore (host : Host σ) : Advances I 3 (execSstore host) :=
  bind (operand _) fun _ => bind (operand _) fun _ => bind (val _) fun _ => bind (val _) fun _ =>
    bind getFrame fun _ => bind (onState hI.frameInv _) fun _ => advance (add_zero 3) fun _ =>
      bind (.checkDeviation hI _ _) fun _ => bind (modifyDelta hI fun _ => rfl) fun _ => ret _

theorem advances_makeTACLog (host : Host σ) (size : Nat) :
    Advances I (3 + size) (makeTACLog host size) := by
  refine bind (operand _) fun o => bind (operand _) fun l =>
    advance rfl fun _ => bind (.operandValues _ _) fun topics =>
      bind (.memoryRange hI.frameInv _ _) fun res => ?_
  cases res with
  | error e => exact fail _ _
  | ok data =>
    exact bind get fun _ => bind (onlyIf _ (.checkDeviation hI _ _)) fun _ =>
      bind (modifyDelta hI fun _ => rfl) fun _ => bind getFrame fun _ =>
        bind get fun _ => bind (onState hI.frameInv _) fun _ => move _ size

end

end

section
open WritesTo (bind fail)

theorem writes_execCallKind (hI : EventInv I) {host : Host σ} (hcall : CallKeeps I host)
    (kind : CallKind) :
    Writes I (8 + if kind.hasValue then 1 else 0) (execCallKind kind host) := by
  unfold execCallKind callOperands
  simp only [bind_assoc, pure_bind]
  generalize (if kind.hasValue then (1 : Int) else 0) = k
  refine Writes.operand fun d => bind (operand _) fun g => bind (operand _) fun a =>
    bind (.optionalValue _ _) fun value => bind (operand _) fun _ => bind (operand _) fun _ =>
      bind (operand _) fun _ => bind (operand _) fun _ => bind (val _) fun _ =>
        bind (val _) fun _ =>
        bind (.memoryRange hI.frameInv _ _) fun res => ?_
  cases res with
  | error e => exact fail _ _ _
  | ok args =>
    refine bind get fun _ => ?_
    split
    · exact fail _ _ _
    · refine bind get fun _ => ?_
      split
      · exact fail _ _ _
      · exact bind (.checkDeviation hI _ _) fun _ => bind (.external hcall _) fun _ =>
          writesTo_finishCall hI.frameInv _ _ _ _ _ _ _

theorem writes_execCreateKind (hI : FrameInv I) (hcredit : CreditInv I) {host : Host σ}
    (hcall : CallKeeps I host) (salted : Bool) :
    Writes I (if salted then 6 else 5) (execCreateKind salted host) := by
  unfold execCreateKind
  generalize (if salted then (6 : Int) else 5) = k
  refine Writes.operand fun d => bind (operand _) fun _ => bind (val _) fun _ =>
    bind (operand _) fun _ => bind (operand _) fun _ => bind (.optionalValue _ _) fun salt =>
      WritesTo.advance (add_zero k) fun _ => bind getFrame fun frame =>
        bind (.memoryRange hI _ _) fun res => ?_
  cases res with
  | error e => exact fail _ _ _
  | ok input =>
    refine bind get fun m => bind get fun m' => ?_
    dsimp only
    generalize (if m.engine.config.isEIP150 then _ else _) = gas
    split
    · exact fail _ _ _
    · refine bind (.external hcall _) fun res => bind get fun _ =>
        bind (onlyIf _ (.noteUsedEVM hI)) fun _ => WritesTo.assign fun _ =>
          Advances.bind (.of_modifyEngine (hcredit _)) fun _ => ?_
      split
      · exact Advances.ret _
      · exact Advances.ret _

end

structure KeepsContext (I : TACInterpreter σ → Prop) (x : Exec σ Ret) : Prop where
  keeps : Keeps I x
  same : ∀ m ret m', x m = .ok (ret, m') → m'.ctx = m.ctx

theorem KeepsContext.bind (hx : EngineOnly I x) (hf : ∀ a, KeepsContext I (f a)) :
    KeepsContext I (x >>= f) := by
  refine ⟨hx.keeps.bind fun a => (hf a).keeps, fun m ret m' h => ?_⟩
  obtain ⟨a, m1, h1, h2⟩ := bind_eq_ok.mp h
  exact ((hf a).same m1 ret m' h2).trans (hx.same m a m1 h1).2

theorem keepsContext_jumpTo (addr : Int) : KeepsContext I (jumpTo addr) := by
  refine ⟨Keeps.bind (.modify fun _ => rfl) fun _ => .done, fun m ret m' h => ?_⟩
  have h2 := Exec.modify_bind h
  obtain ⟨-, rfl⟩ := Exec.done_eq_ok.mp h2
  rfl

theorem keepsContext_fail (e : VmError) : KeepsContext I (Exec.fail e) := by
  refine ⟨.fail e, fun m ret m' h => ?_⟩
  obtain ⟨-, rfl⟩ := fail_eq_ok.mp h
  rfl

theorem keepsContext_move (k : Int) : KeepsContext I (Exec.advance k >>= fun _ => Exec.done) := by
  refine ⟨.move k, fun m ret m' h => ?_⟩
  have h2 := Exec.advance_bind h
  obtain ⟨-, rfl⟩ := Exec.done_eq_ok.mp h2
  rfl

section
open KeepsContext (bind)

theorem keepsContext_jumpToValue (v : Word) : KeepsContext I (jumpToValue v) := by
  refine bind get fun m => bind (read _) fun found => ?_
  cases found with
  | some name => exact keepsContext_jumpTo _
  | none =>
    dsimp only
    split
    · exact keepsContext_jumpTo _
    · exact bind .errInvalidJump fun _ => keepsContext_fail _

variable (hI : FrameInv I)
include hI

theorem keepsContext_execJump : KeepsContext I execJump := by
  refine bind (.countJump hI) fun _ => bind (inst _) fun target => ?_
  split
  · exact bind .errInvalidJump fun _ => keepsContext_fail _
  · exact keepsContext_jumpTo _

theorem keepsContext_execJumpi : KeepsContext I execJumpi := by
  refine bind (.countJump hI) fun _ => bind (inst _) fun target =>
    bind (operand _) fun _ => bind (val _) fun _ => ?_
  split
  · exact keepsContext_move 3
  · split
    · exact bind .errInvalidJump fun _ => keepsContext_fail _
    · exact keepsContext_jumpTo _

theorem keepsContext_execJumpVar : KeepsContext I execJumpVar :=
  bind (.countJump hI) fun _ => bind (operand _) fun _ =>
    bind (val _) fun _ => keepsContext_jumpToValue _

theorem keepsContext_execJumpiVar : KeepsContext I execJumpiVar := by
  refine bind (.countJump hI) fun _ => bind (operand _) fun _ =>
    bind (operand _) fun _ => bind (val _) fun _ => ?_
  split
  · exact keepsContext_move 3
  · exact bind (val _) fun _ => keepsContext_jumpToValue _

end

/-! Every invariant at once: what an instruction does to the context does not depend on one. -/

def Always (_ : TACInterpreter σ) : Prop := True

theorem always_eventInv : EventInv (Always (σ := σ)) :=
  ⟨fun _ _ _ _ => trivial, fun _ => .modifyEngine fun _ _ => trivial,
    fun _ _ _ => ⟨fun _ _ _ => trivial, fun _ _ _ => trivial⟩⟩

theorem always_frameInv : FrameInv (Always (σ := σ)) := always_eventInv.frameInv

theorem always_creditInv : CreditInv (Always (σ := σ)) := fun _ => .modifyEngine fun _ _ => trivial

theorem always_callKeeps (host : Host σ) : CallKeeps Always host :=
  fun _ _ _ => ⟨fun _ _ _ => trivial, fun _ _ _ => trivial⟩

end EtherVal.Vm
