import EtherVal.Vm.ExecRules

/-!
# Invariants of the interpreter object

An invariant of the engine that every instruction keeps holds after any run, also after one that
panics.  The rules follow the text of the instructions; an invariant that only looks at traces,
configuration and addresses is kept by everything that does not touch them.
-/

namespace EtherVal.Vm
open EtherVal.Lib EtherVal.TacParser
open Exec (bind_eq_ok pure_eq_ok get_eq_ok read_eq_ok val_eq_ok modify_eq_ok)

variable {σ α β : Type}
variable {I : TACInterpreter σ → Prop} {run : Runner σ}

def TACFrame.key (f : TACFrame) : Address × Nat := (f.contract.address, f.subCallTrace)

def TACFrame.ledger (f : TACFrame) : TACFrame :=
  { f with memory := default, reverts := false, halts := false }

theorem map_key_of_ledger {l l' : List TACFrame}
    (h : l'.map TACFrame.ledger = l.map TACFrame.ledger) :
    l'.map TACFrame.key = l.map TACFrame.key := by
  have hkeys := congrArg (List.map TACFrame.key) h
  rw [List.map_map, List.map_map] at hkeys
  exact hkeys

structure SameTraces (e e' : TACInterpreter σ) : Prop where
  config : e'.config = e.config
  interpreter : e'.interpreter = e.interpreter
  deviationCheck : e'.deviationCheck = e.deviationCheck
  recorded : e'.delta.recordedTrace = e.delta.recordedTrace
  substrate : e'.delta.substrateTrace = e.delta.substrateTrace
  deviation : e'.delta.stats.tacDeviation = e.delta.stats.tacDeviation
  frames : e'.frames.map (·.key) = e.frames.map (·.key)

structure SameFrames (e e' : TACInterpreter σ) : Prop where
  config : e'.config = e.config
  interpreter : e'.interpreter = e.interpreter
  deviationCheck : e'.deviationCheck = e.deviationCheck
  recorded : e'.delta.recordedTrace = e.delta.recordedTrace
  substrate : e'.delta.substrateTrace = e.delta.substrateTrace
  deviation : e'.delta.stats.tacDeviation = e.delta.stats.tacDeviation
  frames : e'.frames.map (·.ledger) = e.frames.map (·.ledger)

theorem SameFrames.refl (e : TACInterpreter σ) : SameFrames e e :=
  ⟨rfl, rfl, rfl, rfl, rfl, rfl, rfl⟩

variable {e e' : TACInterpreter σ}

theorem SameFrames.sameTraces (h : SameFrames e e') :
    SameTraces e e' where
  config := h.config
  interpreter := h.interpreter
  deviationCheck := h.deviationCheck
  recorded := h.recorded
  substrate := h.substrate
  deviation := h.deviation
  frames := map_key_of_ledger h.frames

def TraceInv (I : TACInterpreter σ → Prop) : Prop := ∀ e e', SameTraces e e' → I e → I e'

def FrameInv (I : TACInterpreter σ → Prop) : Prop := ∀ e e', SameFrames e e' → I e → I e'

theorem TraceInv.frameInv (hI : TraceInv I) : FrameInv I :=
  fun e e' h => hI e e' h.sameTraces

def Keeps (I : TACInterpreter σ → Prop) (x : Exec σ α) : Prop :=
  ∀ m, I m.engine → (∀ a m', x m = .ok (a, m') → I m'.engine) ∧
    ∀ p m', x m = .error (.panic p m') → I m'.engine

namespace Keeps
variable {I : TACInterpreter σ → Prop}
variable {x : Exec σ α}

theorem bind {f : α → Exec σ β} (hx : Keeps I x) (hf : ∀ a, Keeps I (f a)) :
    Keeps I (x >>= f) := by
  intro m hm
  rw [Exec.bind_apply]
  cases h : x m with
  | error stop => exact outcome_of_error h (hx m hm).2
  | ok q =>
    exact hf q.1 q.2 ((hx m hm).1 q.1 q.2 h)

theorem of_ok (h : ∀ m, I m.engine → ∃ a m', x m = .ok (a, m') ∧ I m'.engine) :
    Keeps I x := by
  intro m hm
  obtain ⟨a, m1, heq, hI⟩ := h m hm
  rw [heq]
  exact outcome_ok hI

theorem pure (a : α) : Keeps I (pure a) := of_ok fun m hm => ⟨a, m, rfl, hm⟩

theorem get : Keeps I (MonadState.get : Exec σ (Machine σ)) := of_ok fun m hm => ⟨m, m, rfl, hm⟩

theorem val (r : Nat) : Keeps I (Exec.val r) := of_ok fun m hm => ⟨m.val r, m, rfl, hm⟩

theorem read (g : Machine σ → Except GoPanic α) : Keeps I (Exec.read g) := by
  intro m hm
  unfold Exec.read
  cases g m with
  | ok a => exact outcome_ok hm
  | error p => exact outcome_panic hm

theorem panicWith (p : GoPanic) : Keeps I (Exec.panicWith p : Exec σ α) := read fun _ => .error p

theorem inst (off : Int) : Keeps I (Exec.inst off) := read _

theorem operand (off : Int) : Keeps I (Exec.operand off) := read _

theorem fail (e : VmError) : Keeps I (Exec.fail e) := pure _

theorem done : Keeps I Exec.done := pure _

theorem modify {g : Machine σ → Machine σ} (hg : ∀ m, (g m).engine = m.engine) :
    Keeps I (MonadState.modifyGet fun m => ((), g m) : Exec σ Unit) :=
  of_ok fun m hm => ⟨(), g m, rfl, by rw [hg]; exact hm⟩

theorem assign (r : Nat) (w : Word) : Keeps I (Exec.assign r w) := modify fun _ => rfl

theorem advance (n : Int) : Keeps I (Exec.advance n) := modify fun _ => rfl

theorem move (n : Int) : Keeps I (Exec.advance n >>= fun _ => Exec.done) :=
  bind (advance n) fun _ => done

theorem write (r : Nat) (w : Word) (n : Int) :
    Keeps I (Exec.assign r w >>= fun _ => Exec.advance n >>= fun _ => Exec.done) :=
  bind (assign r w) fun _ => move n

theorem onlyIf (c : Bool) {x : Exec σ Unit} (hx : Keeps I x) : Keeps I (Exec.onlyIf c x) := by
  cases c with
  | true => exact hx
  | false => exact pure ()

theorem ite {c : Prop} [Decidable c] {y : Exec σ α} (hx : Keeps I x) (hy : Keeps I y) :
    Keeps I (if c then x else y) := by
  split
  · exact hx
  · exact hy

theorem modifyEngine {g : TACInterpreter σ → TACInterpreter σ} (hg : ∀ e, I e → I (g e)) :
    Keeps I (Exec.modifyEngine g) :=
  of_ok fun m hm => ⟨(), { m with engine := g m.engine }, rfl, hg _ hm⟩

theorem getFrame : Keeps I (σ := σ) Exec.getFrame := read _

end Keeps

structure EventInv (I : TACInterpreter σ → Prop) : Prop where
  frameInv : FrameInv I
  modifyDelta : ∀ {g : DeltaSemantics → DeltaSemantics}, (∀ d, (g d).stats = d.stats) →
    Keeps I (Exec.modifyDelta g)
  setDeviation : ∀ what, Keeps I (setDeviation what)

def TACFrame.credit (gas : Nat) (f : TACFrame) : TACFrame :=
  { f with contract := { f.contract with gas := (f.contract.gas + gas) % uint64Mod } }

def CreditInv (I : TACInterpreter σ → Prop) : Prop :=
  ∀ gas, Keeps I (Exec.modifyFrame (TACFrame.credit gas))

def CallKeeps (I : TACInterpreter σ → Prop) (host : Host σ) : Prop :=
  ∀ c e, I e → (∀ res e', host.external c e = .ok (res, e') → I e') ∧
    ∀ p e', host.external c e = .error (p, e') → I e'

/-- What only touches the engine, and keeps `I` there. -/
structure EngineOnly (I : TACInterpreter σ → Prop) (x : Exec σ α) : Prop where
  keeps : Keeps I x
  same : ∀ m a m', x m = .ok (a, m') → m'.pc = m.pc ∧ m'.ctx = m.ctx

namespace EngineOnly
variable {x : Exec σ α}

theorem bind {f : α → Exec σ β} (hx : EngineOnly I x) (hf : ∀ a, EngineOnly I (f a)) :
    EngineOnly I (x >>= f) := by
  refine ⟨hx.keeps.bind fun a => (hf a).keeps, fun m b m' h => ?_⟩
  obtain ⟨a, m1, h1, h2⟩ := bind_eq_ok.mp h
  obtain ⟨hp1, hc1⟩ := hx.same m a m1 h1
  obtain ⟨hp2, hc2⟩ := (hf a).same m1 b m' h2
  exact ⟨hp2.trans hp1, hc2.trans hc1⟩

theorem of_unchanged (hx : Keeps I x) (h : ∀ m a m', x m = .ok (a, m') → m = m') :
    EngineOnly I x :=
  ⟨hx, fun m a m' heq => by rw [h m a m' heq]; exact ⟨rfl, rfl⟩⟩

theorem pure (a : α) : EngineOnly I (pure a) :=
  of_unchanged (.pure a) fun _ _ _ h => (pure_eq_ok.mp h).2

theorem get : EngineOnly I (MonadState.get : Exec σ (Machine σ)) :=
  of_unchanged .get fun _ _ _ h => (get_eq_ok.mp h).2

theorem read (g : Machine σ → Except GoPanic α) : EngineOnly I (Exec.read g) :=
  of_unchanged (.read g) fun _ _ _ h => (read_eq_ok.mp h).2

theorem val (r : Nat) : EngineOnly I (Exec.val r) :=
  of_unchanged (.val r) fun _ _ _ h => (val_eq_ok.mp h).2

theorem inst (off : Int) : EngineOnly I (Exec.inst off) := read _

theorem operand (off : Int) : EngineOnly I (Exec.operand off) := read _

theorem getFrame : EngineOnly (σ := σ) I Exec.getFrame := read _

theorem onlyIf (c : Bool) {x : Exec σ Unit} (hx : EngineOnly I x) :
    EngineOnly I (Exec.onlyIf c x) := by
  cases c with
  | true => exact hx
  | false => exact pure ()

theorem ite {c : Prop} [Decidable c] {y : Exec σ α} (hx : EngineOnly I x) (hy : EngineOnly I y) :
    EngineOnly I (if c then x else y) := by
  split
  · exact hx
  · exact hy

theorem of_modifyEngine {g : TACInterpreter σ → TACInterpreter σ}
    (hg : Keeps I (Exec.modifyEngine g)) : EngineOnly I (Exec.modifyEngine g) := by
  refine ⟨hg, fun m a m' h => ?_⟩
  obtain rfl := modify_eq_ok.mp h
  exact ⟨rfl, rfl⟩

theorem modifyEngine {g : TACInterpreter σ → TACInterpreter σ} (hg : ∀ e, I e → I (g e)) :
    EngineOnly I (Exec.modifyEngine g) :=
  of_modifyEngine (.modifyEngine hg)

theorem errInvalidJump : EngineOnly I errInvalidJump := getFrame.bind fun _ => pure _

theorem operandValues (first : Int) (n : Nat) : EngineOnly I (operandValues first n) := by
  induction n generalizing first with
  | zero => exact pure []
  | succ n ih =>
    exact (operand _).bind fun _ => (val _).bind fun _ => (ih _).bind fun _ => pure _

theorem optionalValue (present : Bool) (off : Int) : EngineOnly I (optionalValue present off) := by
  cases present with
  | true => exact (operand _).bind fun _ => val _
  | false => exact pure _

theorem callOperands (kind : CallKind) : EngineOnly I (callOperands kind) :=
  (operand _).bind fun _ => (operand _).bind fun _ => (operand _).bind fun _ =>
    (optionalValue _ _).bind fun _ => (operand _).bind fun _ => (operand _).bind fun _ =>
      (operand _).bind fun _ => (operand _).bind fun _ => (val _).bind fun _ =>
        (val _).bind fun _ => pure _

theorem external {host : Host σ} (h : CallKeeps I host) (c : ExternalCall) :
    EngineOnly I (external host c) := by
  unfold Vm.external
  refine ⟨fun m hm => ?_, fun m a m' heq => ?_⟩
  · obtain ⟨hok, hpanic⟩ := h c m.engine hm
    cases hx : host.external c m.engine with
    | ok q => exact outcome_ok (hok q.1 q.2 hx)
    | error q => exact outcome_panic (hpanic q.1 q.2 hx)
  · split at heq <;> cases heq
    exact ⟨rfl, rfl⟩

section
variable (hI : FrameInv I)
include hI

theorem modifyStats {g : TACStats → TACStats} (hg : ∀ s, (g s).tacDeviation = s.tacDeviation) :
    EngineOnly I (Exec.modifyStats g) := by
  refine ⟨.of_ok fun m hm => ⟨(), _, rfl, hI m.engine _ ?_ hm⟩, fun m a m' h => ?_⟩
  · exact ⟨rfl, rfl, rfl, rfl, rfl, hg m.engine.delta.stats, rfl⟩
  · obtain rfl := modify_eq_ok.mp h
    exact ⟨rfl, rfl⟩

theorem countIf (c : Bool) {g : TACStats → TACStats}
    (hg : ∀ s, (g s).tacDeviation = s.tacDeviation) : EngineOnly I (Exec.countIf c g) :=
  onlyIf c (modifyStats hI hg)

theorem countJump : EngineOnly I countJump :=
  bind get fun _ => bind (modifyStats hI fun _ => rfl) fun _ =>
    bind (countIf hI _ fun _ => rfl) fun _ => countIf hI _ fun _ => rfl

theorem onState (g : σ → α × σ) : EngineOnly I (Exec.onState g) where
  keeps := .of_ok fun m hm => ⟨_, _, rfl, hI m.engine _ ⟨rfl, rfl, rfl, rfl, rfl, rfl, rfl⟩ hm⟩
  same := by
    rintro m a m' ⟨⟩
    exact ⟨rfl, rfl⟩

theorem modifyFrame {g : TACFrame → TACFrame} (hg : ∀ f, (g f).ledger = f.ledger) :
    EngineOnly I (Exec.modifyFrame g) := by
  refine modifyEngine fun e he => hI e _ ⟨rfl, rfl, rfl, rfl, rfl, rfl, ?_⟩ he
  cases e.frames with
  | nil => rfl
  | cons f rest => simp [hg]

theorem onMemory (g : Memory → MemResult α) : EngineOnly I (Exec.onMemory g) :=
  bind getFrame fun _ => bind (read _) fun _ => bind (modifyFrame hI fun _ => rfl) fun _ => pure _

theorem memoryRange (offset length : Nat) : EngineOnly I (memoryRange offset length) :=
  (val _).bind fun _ => (val _).bind fun _ => get.bind fun _ => onMemory hI _

theorem noteUsedEVM : EngineOnly I (Exec.modifyDelta fun d => { d with usedEVM := true }) :=
  modifyEngine fun e he => hI e _ ⟨rfl, rfl, rfl, rfl, rfl, rfl, rfl⟩ he

theorem storeReturned (retOffset retSize : Nat) (res : CallResult) :
    EngineOnly I (storeReturned retOffset retSize res) :=
  ite ((val _).bind fun _ => (val _).bind fun _ => get.bind fun _ => onMemory hI _) (pure _)

end

section
variable (hI : EventInv I)
include hI

theorem modifyDelta {g : DeltaSemantics → DeltaSemantics} (hg : ∀ d, (g d).stats = d.stats) :
    EngineOnly I (Exec.modifyDelta g) :=
  of_modifyEngine (hI.modifyDelta hg)

theorem modifySubCallTrace (g : EVMCallTrace → EVMCallTrace) :
    EngineOnly I (Exec.modifySubCallTrace g) :=
  getFrame.bind fun _ => modifyDelta hI fun _ => rfl

theorem setDeviation (what : String) : EngineOnly I (setDeviation what) := by
  refine ⟨hI.setDeviation what, fun m a m' h => ?_⟩
  obtain rfl := modify_eq_ok.mp (Exec.get_bind h)
  exact ⟨rfl, rfl⟩

theorem checkDeviation (what : String) (check : EVMTrace → EVMTrace → Except GoPanic Bool) :
    EngineOnly I (checkDeviation what check) := by
  refine get.bind fun m => ?_
  cases m.engine.config.evmTrace with
  | none => exact pure ()
  | some _ => exact (read _).bind fun _ => onlyIf _ (setDeviation hI what)

end
end EngineOnly

namespace Keeps

theorem insts (first : Int) (n : Nat) : Keeps I (insts first n) := by
  induction n generalizing first with
  | zero => exact pure []
  | succ n ih => exact (inst _).bind fun _ => (ih _).bind fun _ => pure _

theorem targetFunction (id : Int) : Keeps I (targetFunction id) := by
  refine bind getFrame fun frame => ?_
  cases id with
  | negSucc n => exact panicWith _
  | ofNat n =>
    cases h : frame.prog.functions[n]? with
    | none =>
      simp only [h]
      exact panicWith _
    | some f =>
      simp only [h]
      exact pure f

theorem runCallee (hrun : ∀ ctx e, I e →
      (∀ ret m', run ctx e = .ok (ret, m') → I m'.engine) ∧
        ∀ p m', run ctx e = .error (.panic p m') → I m'.engine) (ctx : TACContext) :
    Keeps I (runCallee run ctx) := by
  intro m hm
  obtain ⟨hok, hpanic⟩ := hrun ctx m.engine hm
  unfold Vm.runCallee
  cases h : run ctx m.engine with
  | ok q => exact outcome_ok (hok q.1 q.2 h)
  | error stop =>
    cases stop with
    | outOfFuel => exact ⟨fun a m' h' => (by cases h'), fun p m' h' => (by cases h')⟩
    | panic p m1 => exact outcome_panic (hpanic p m1 h)

end Keeps

end EtherVal.Vm
