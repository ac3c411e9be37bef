import EtherVal.Vm.StepEffect

/-!
# Invariants along a run

An invariant that every instruction keeps is kept by the rounds of the interpreter.
-/

namespace EtherVal.Vm
open EtherVal.Lib EtherVal.TacParser

variable {σ α β : Type}
variable {I : TACInterpreter σ → Prop} {run : Runner σ}
variable {e e' : TACInterpreter σ}

section Instructions
open Keeps (bind pure get read val panicWith inst operand done modify assign advance move)

theorem keeps_execNot : Keeps I (execNot (σ := σ)) :=
  bind (operand _) fun _ => bind (operand _) fun _ => bind (modify fun _ => rfl) fun _ => move _

theorem keeps_selectRecent (j : Int) (n recent : Nat) :
    Keeps I (selectRecent (σ := σ) j n recent) := by
  induction n generalizing j recent with
  | zero => exact pure _
  | succ n ih => exact bind (operand _) fun _ => bind get fun _ => ih _ _

theorem keeps_execPhi (hI : FrameInv I) : Keeps I (execPhi (σ := σ)) := by
  have hcount : ∀ (c : Bool) {g : TACStats → TACStats}, (∀ s, (g s).tacDeviation = s.tacDeviation) →
      Keeps I (Exec.countIf c g) := fun c _ hg => (EngineOnly.countIf hI c hg).keeps
  have hstats : ∀ {g : TACStats → TACStats}, (∀ s, (g s).tacDeviation = s.tacDeviation) →
      Keeps I (Exec.modifyStats g) := fun hg => (EngineOnly.modifyStats hI hg).keeps
  have hphi : ∀ f a, Keeps I (countPhi (σ := σ) f a) := fun f a =>
    bind (hstats fun _ => rfl) fun _ => bind (hcount _ fun _ => rfl) fun _ => hcount _ fun _ => rfl
  exact bind get fun m => bind (hphi _ _) fun _ => bind (inst _) fun _ => bind (operand _) fun _ =>
    bind (advance _) fun _ => bind (operand _) fun _ => bind (keeps_selectRecent _ _ _) fun _ =>
      bind (hcount _ fun _ => rfl) fun _ => bind (val _) fun _ =>
        bind (assign _ _) fun _ => advance _

theorem keeps_execPhis (hI : FrameInv I) (n : Nat) : Keeps I (execPhis (σ := σ) n) := by
  induction n with
  | zero => exact pure ()
  | succ n ih => exact bind (keeps_execPhi hI) fun _ => ih

theorem keeps_execPhiStart (hI : FrameInv I) : Keeps I (execPhiStart (σ := σ)) := by
  refine bind (inst _) fun n => ?_
  split
  · exact move _
  · exact bind (advance _) fun _ => bind (keeps_execPhis hI _) fun _ => move _

theorem keeps_assignAll (l : List (Int × Word)) : Keeps I (assignAll (σ := σ) l) := by
  induction l with
  | nil => exact pure ()
  | cons p l ih => exact bind (read _) fun _ => bind (assign _ _) fun _ => ih

theorem keeps_returnValues (vs : List Word) (i : Nat) : Keeps I (returnValues (σ := σ) vs i) := by
  induction vs generalizing i with
  | nil => exact pure ()
  | cons v vs ih =>
    refine bind get fun m => ?_
    split
    · exact panicWith _
    · split
      · exact bind (modify fun _ => rfl) fun _ => ih _
      · exact panicWith _

theorem keeps_execReturnprivate : Keeps I (execReturnprivate (σ := σ)) :=
  bind (inst _) fun _ => bind (advance _) fun _ =>
    bind (EngineOnly.operandValues _ _).keeps fun _ => bind (keeps_returnValues _ _) fun _ =>
      bind (advance _) fun _ => bind (modify fun _ => rfl) fun _ => done

def RunKeeps (I : TACInterpreter σ → Prop) (run : Runner σ) : Prop :=
  ∀ ctx e, I e → (∀ ret m', run ctx e = .ok (ret, m') → I m'.engine) ∧
    ∀ p m', run ctx e = .error (.panic p m') → I m'.engine

theorem keeps_enterPrivate (I : TACInterpreter σ → Prop) : Keeps I enterPrivate := by
  refine bind (inst _) fun n => bind (advance _) fun _ => bind (Keeps.insts _ _) fun _ =>
    bind (advance _) fun _ => bind (inst _) fun _ => bind (Keeps.targetFunction _) fun f =>
      bind (advance _) fun _ => bind (EngineOnly.operandValues _ _).keeps fun _ =>
        bind (read _) fun _ => bind (advance _) fun _ => ?_
  split
  · exact panicWith _
  · exact pure _

theorem keeps_leavePrivate (hrun : RunKeeps I run) (ctx : TACContext) (dests : List Int) :
    Keeps I (leavePrivate run ctx dests) :=
  bind (Keeps.runCallee hrun _) fun _ => bind (modify fun _ => rfl) fun _ =>
    bind (keeps_assignAll _) fun _ => pure _

theorem keeps_execCallprivate (hrun : RunKeeps I run) :
    Keeps I (execCallprivate run) := by
  rw [execCallprivate_eq]
  exact bind (keeps_enterPrivate I) fun q => keeps_leavePrivate hrun q.1 q.2

end Instructions

variable {op : TACOp}

theorem execution_keeps_plain (hI : FrameInv I) (host : Host σ) (run : Runner σ)
    (h : writesTraces op = false) : Keeps I (execution host run op) := by
  by_cases hplain : isPlain op = true
  · exact (execution_silent hI hplain h host run).keeps
  · cases op
    case CALLPRIVATE => cases h
    case RETURNPRIVATE => exact keeps_execReturnprivate
    case PHI_START => exact keeps_execPhiStart hI
    case PHI | PHI_END => exact Keeps.panicWith _
    case BLOCK_FLAG => exact Keeps.bind (Keeps.modify fun _ => rfl) fun _ => Keeps.move _
    case NOT => exact keeps_execNot
    case JUMP => exact (keepsContext_execJump hI).keeps
    case JUMPI => exact (keepsContext_execJumpi hI).keeps
    case JUMP_VAR => exact (keepsContext_execJumpVar hI).keeps
    case JUMPI_VAR => exact (keepsContext_execJumpiVar hI).keeps
    all_goals exact absurd rfl hplain

variable {host : Host σ}

theorem execution_keeps_calls (h : KeepsCalls host I) (run : Runner σ)
    (hprivate : op ≠ .CALLPRIVATE)
    (hcreate : op ≠ .CREATE ∧ op ≠ .CREATE2 ∨ CreditInv I) : Keeps I (execution host run op) := by
  cases hop : writesTraces op with
  | false => exact execution_keeps_plain h.frameInv host run hop
  | true => exact (execution_event h hop hprivate hcreate run).keeps

theorem execution_keeps_events (h : KeepsEvents host I) (run : Runner σ)
    (hprivate : op ≠ .CALLPRIVATE) : Keeps I (execution host run op) :=
  execution_keeps_calls h.toKeepsCalls run hprivate (.inr h.credit)

theorem execution_keeps (h : KeepsEvents host I) (hrun : RunKeeps I run) (op : TACOp) :
    Keeps I (execution host run op) := by
  by_cases hprivate : op = .CALLPRIVATE
  · exact hprivate ▸ keeps_execCallprivate hrun
  · exact execution_keeps_events h run hprivate

theorem SameFrames.trans {e'' : TACInterpreter σ} (h : SameFrames e e') (h' : SameFrames e' e'') :
    SameFrames e e'' where
  config := h'.config.trans h.config
  interpreter := h'.interpreter.trans h.interpreter
  deviationCheck := h'.deviationCheck.trans h.deviationCheck
  recorded := h'.recorded.trans h.recorded
  substrate := h'.substrate.trans h.substrate
  deviation := h'.deviation.trans h.deviation
  frames := h'.frames.trans h.frames

theorem sameFrames_checkOutOfGas {b : Bool} (h : checkOutOfGas host e = .ok (b, e')) :
    SameFrames e e' := by
  unfold checkOutOfGas at h
  obtain ⟨b', -, h⟩ := bind_ok h
  split at h <;>
    · cases h
      exact ⟨rfl, rfl, rfl, rfl, rfl, rfl, rfl⟩

theorem sameFrames_noteTimeout (host : Host σ) (e : TACInterpreter σ) :
    SameFrames e (noteTimeout host e) := by
  unfold noteTimeout
  split
  · exact ⟨rfl, rfl, rfl, rfl, rfl, rfl, rfl⟩
  · exact .refl e

variable {s : LoopState σ}

theorem roundHead_sameFrames :
    (∀ o s', roundHead host s = .ok (o, s') → SameFrames s.machine.engine s'.machine.engine) ∧
      ∀ p m', roundHead host s = .error (.panic p m') → SameFrames s.machine.engine m'.engine := by
  unfold roundHead
  dsimp only
  cases hc : checkOutOfGas host s.machine.engine with
  | error p => exact outcome_panic (.refl _)
  | ok q =>
    obtain ⟨b, e⟩ := q
    have hsame := (sameFrames_checkOutOfGas hc).trans (sameFrames_noteTimeout host e)
    dsimp only
    generalize (if timedOut host e = true then some VmError.tacTimeout
      else if b = true then some VmError.outOfGas else s.err) = err
    split
    · exact outcome_ok hsame
    · split
      · exact outcome_ok hsame
      · split
        · exact outcome_panic hsame
        · exact outcome_ok hsame

theorem ledger_mark (op : TACOperation) (f : TACFrame) : (f.mark op).ledger = f.ledger := by
  unfold TACFrame.mark
  split
  · rfl
  · split <;> rfl

def Round.machine : Round σ → Machine σ
  | .next s => s.machine
  | .returned _ m => m

variable {m : Machine σ}

theorem roundTail_sameFrames {op : TACOperation} {ret : Ret} :
    (∀ r, roundTail op ret m = .ok r → SameFrames m.engine r.machine.engine) ∧
      ∀ p m', roundTail op ret m = .error (.panic p m') → SameFrames m.engine m'.engine := by
  obtain ⟨m1, -, -, ⟨data, hdata⟩, htail⟩ := roundTail_tail op ret m
  have hsame : SameFrames m.engine m1.engine := by
    rw [hdata]
    exact ⟨rfl, rfl, rfl, rfl, rfl, rfl, rfl⟩
  have hmark : ∀ {frame : TACFrame} {rest : List TACFrame}, m.engine.frames = frame :: rest →
      SameFrames m.engine { m1.engine with frames := frame.mark op :: rest } := by
    intro frame rest hf
    rw [hdata]
    exact ⟨rfl, rfl, rfl, rfl, rfl, rfl, by simp [hf, ledger_mark]⟩
  constructor
  · intro r h
    rw [h] at htail
    cases htail with
    | stop => exact hsame
    | error => exact hsame
    | reverts hf => exact hmark hf
    | halts hf => exact hmark hf
    | next hf => exact hmark hf
  · intro p m' h
    rw [h] at htail
    cases htail with
    | noFrame => exact hsame

def counted (m : Machine σ) : Machine σ :=
  { m with engine := { m.engine with delta := { m.engine.delta with stats :=
    { m.engine.delta.stats with tacInstCount := m.engine.delta.stats.tacInstCount + 1 } } } }

theorem sameFrames_counted (m : Machine σ) : SameFrames m.engine (counted m).engine :=
  ⟨rfl, rfl, rfl, rfl, rfl, rfl, rfl⟩

structure Begins (host : Host σ) (s : LoopState σ) (op : TACOp) (m : Machine σ) : Prop where
  passes : ∃ s', roundHead host s = .ok (none, s') ∧ m = counted s'.machine
  fetches : fetch m = .ok op

def begun (host : Host σ) (s : LoopState σ) : Option (TACOp × Machine σ) :=
  match roundHead host s with
  | .ok (none, s') =>
    match fetch (counted s'.machine) with
    | .ok op => some (op, counted s'.machine)
    | .error _ => none
  | _ => none

theorem begun_eq_some {host : Host σ} {s : LoopState σ} {op : TACOp} {m : Machine σ} :
    begun host s = some (op, m) ↔ Begins host s op m := by
  constructor
  · intro h
    unfold begun at h
    split at h
    · next s' hhead =>
      split at h
      · next op' hf =>
        cases h
        exact ⟨⟨s', hhead, rfl⟩, hf⟩
      · cases h
    · cases h
  · intro h
    obtain ⟨s', hhead, rfl⟩ := h.passes
    rw [begun, hhead]
    dsimp only
    rw [h.fetches]

theorem Begins.sameFrames (h : Begins host s op m) :
    SameFrames s.machine.engine m.engine := by
  obtain ⟨s', hhead, rfl⟩ := h.passes
  exact (roundHead_sameFrames.1 _ _ hhead).trans (sameFrames_counted _)

theorem Begins.round_eq (h : Begins host s op m) (run : Runner σ) :
    round host run s =
      (execution host run op m).bind fun q => roundTail (operation op) q.1 q.2 := by
  obtain ⟨s', hhead, rfl⟩ := h.passes
  have hread : Exec.read fetch (counted s'.machine) = .ok (op, counted s'.machine) := by
    rw [Exec.read, h.fetches]
  rw [round, hhead]
  change (Exec.read fetch (counted s'.machine) >>= _) = _
  rw [hread]
  rfl

theorem round_cases (host : Host σ) (run : Runner σ) (s : LoopState σ) :
    (∃ stop, roundHead host s = .error stop ∧ round host run s = .error stop) ∨
      (∃ ret s', roundHead host s = .ok (some ret, s') ∧
        round host run s = .ok (.returned ret s'.machine)) ∨
      (∃ p s', roundHead host s = .ok (none, s') ∧
        round host run s = .error (.panic p (counted s'.machine))) ∨
      ∃ op m, Begins host s op m := by
  cases hhead : roundHead host s with
  | error stop =>
    refine .inl ⟨stop, rfl, ?_⟩
    rw [round, hhead]
    rfl
  | ok q =>
    obtain ⟨o, s'⟩ := q
    cases o with
    | some ret =>
      refine .inr (.inl ⟨ret, s', rfl, ?_⟩)
      rw [round, hhead]
      rfl
    | none =>
      cases hf : fetch (counted s'.machine) with
      | ok op => exact .inr (.inr (.inr ⟨op, _, ⟨s', hhead, rfl⟩, hf⟩))
      | error p =>
        refine .inr (.inr (.inl ⟨p, s', rfl, ?_⟩))
        have hread : Exec.read fetch (counted s'.machine)
            = .error (.panic p (counted s'.machine)) := by
          rw [Exec.read, hf]
        rw [round, hhead]
        change (Exec.read fetch (counted s'.machine) >>= _) = _
        rw [hread]
        rfl

theorem round_idle (run : Runner σ) (hI : FrameInv I) (hb : ∀ op m, ¬ Begins host s op m)
    (hs : I s.machine.engine) :
    (∀ r, round host run s = .ok r → ∃ ret m', r = .returned ret m' ∧ I m'.engine) ∧
      ∀ p m', round host run s = .error (.panic p m') → I m'.engine := by
  rcases round_cases host run s with ⟨stop, hhead, heq⟩ | ⟨ret, s', hhead, heq⟩ |
      ⟨p, s', hhead, heq⟩ | ⟨op, m, hbegins⟩
  · rw [heq]
    exact outcome_value_of_error hhead fun p m' h => hI _ _ (roundHead_sameFrames.2 p m' h) hs
  · rw [heq]
    exact outcome_value ⟨ret, _, rfl, hI _ _ (roundHead_sameFrames.1 _ s' hhead) hs⟩
  · rw [heq]
    refine ⟨fun r hr => (by cases hr), fun p m' hp => ?_⟩
    obtain ⟨-, rfl⟩ := Stop.panic.inj (Except.error.inj hp)
    exact hI _ _ ((roundHead_sameFrames.1 _ s' hhead).trans (sameFrames_counted _)) hs
  · exact absurd hbegins (hb op m)

theorem round_keeps_of (hI : FrameInv I) (hs : I s.machine.engine)
    (hop : ∀ op m, Begins host s op m → I m.engine →
      (∀ q, execution host run op m = .ok q → I q.2.engine) ∧
        ∀ p m', execution host run op m = .error (.panic p m') → I m'.engine) :
    (∀ r, round host run s = .ok r → I r.machine.engine) ∧
      ∀ p m', round host run s = .error (.panic p m') → I m'.engine := by
  by_cases hbegins : ∃ op m, Begins host s op m
  · obtain ⟨op, m, hb⟩ := hbegins
    have hm := hop op m hb (hI _ _ hb.sameFrames hs)
    rw [hb.round_eq run]
    cases hx : execution host run op m with
    | error stop => exact outcome_value_of_error hx hm.2
    | ok q =>
      have hq := hm.1 q hx
      exact ⟨fun r hr => hI _ _ (roundTail_sameFrames.1 r hr) hq,
        fun p m' hp => hI _ _ (roundTail_sameFrames.2 p m' hp) hq⟩
  · refine (round_idle run hI (fun op m h => hbegins ⟨op, m, h⟩) hs).imp_left fun hok r hr => ?_
    obtain ⟨ret, m', rfl, hm'⟩ := hok r hr
    exact hm'

theorem round_keeps (h : KeepsEvents host I) (hrun : RunKeeps I run) (hs : I s.machine.engine) :
    (∀ r, round host run s = .ok r → I r.machine.engine) ∧
      ∀ p m', round host run s = .error (.panic p m') → I m'.engine := by
  refine round_keeps_of h.frameInv hs fun op m _ hm => ?_
  obtain ⟨hok, hpanic⟩ := execution_keeps h hrun op m hm
  exact ⟨fun q hq => hok q.1 q.2 hq, hpanic⟩

end EtherVal.Vm
