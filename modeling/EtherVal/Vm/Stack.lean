import EtherVal.Vm.Attempts
import EtherVal.Vm.Evm

/-!
# The stack of frames
-/

namespace EtherVal.Vm
open EtherVal.Lib EtherVal.TacParser List

variable {ret : Ret}

section
variable {σ : Type} {I : TACInterpreter σ → Prop}
open Keeps (bind pure get val operand assign advance of_ok modifyEngine)

def StackInv (I : TACInterpreter σ → Prop) : Prop :=
  ∀ e e', e'.interpreter = e.interpreter → e'.frames.map TACFrame.key = e.frames.map TACFrame.key →
    I e → I e'

def Deviated (e : TACInterpreter σ) : Prop := e.delta.stats.tacDeviation ≠ []

def NoteInv (I : TACInterpreter σ → Prop) : Prop :=
  ∀ e e', e'.interpreter = e.interpreter → e'.frames.map TACFrame.key = e.frames.map TACFrame.key →
    (Deviated e → Deviated e') → I e → I e'

theorem StackInv.noteInv (hI : StackInv I) : NoteInv I :=
  fun e e' hi hf _ he => hI e e' hi hf he

theorem NoteInv.traceInv (hI : NoteInv I) : TraceInv I :=
  fun e e' h he => hI e e' h.interpreter h.frames (fun hd => by rwa [Deviated, h.deviation]) he

theorem TraceInv.modifyFrame (hI : TraceInv I) {g : TACFrame → TACFrame}
    (hg : ∀ f, (g f).key = f.key) : Keeps I (Exec.modifyFrame g) := by
  refine modifyEngine fun e he => hI e _ ⟨rfl, rfl, rfl, rfl, rfl, rfl, ?_⟩ he
  cases e.frames with
  | nil => rfl
  | cons f rest => simp [hg]

theorem NoteInv.eventInv (hI : NoteInv I) : EventInv I where
  frameInv := hI.traceInv.frameInv
  modifyDelta := fun hg =>
    modifyEngine fun e he => hI e _ rfl rfl (fun hd => by rwa [Deviated, hg]) he
  setDeviation := by
    intro what
    refine bind get fun m => ?_
    refine of_ok fun m' hm => ⟨(), _, rfl, hI m'.engine _ rfl rfl (fun _ => ?_) hm⟩
    simp [Deviated]

theorem TraceInv.creditInv (hI : TraceInv I) : CreditInv I :=
  fun _ => hI.modifyFrame fun _ => rfl

def LedgerInv (I : TACInterpreter σ → Prop) : Prop :=
  ∀ e e', e'.interpreter = e.interpreter →
    e'.frames.map TACFrame.ledger = e.frames.map TACFrame.ledger → I e → I e'

theorem LedgerInv.eventInv (hI : LedgerInv I) : EventInv I where
  frameInv := fun e e' h he => hI e e' h.interpreter h.frames he
  modifyDelta := fun _ => modifyEngine fun e he => hI e _ rfl rfl he
  setDeviation := fun _ => bind get fun _ =>
    of_ok fun m hm => ⟨(), _, rfl, hI m.engine _ rfl rfl hm⟩

theorem keeps_askCreate (hI : FrameInv I) (salted : Bool) : Keeps I (askCreate salted) := by
  refine bind (operand _) fun _ => bind (operand _) fun _ => bind (val _) fun _ =>
    bind (operand _) fun _ => bind (operand _) fun _ =>
      bind (EngineOnly.optionalValue _ _).keeps fun _ => bind (advance _) fun _ =>
        bind Keeps.getFrame fun _ => bind (EngineOnly.memoryRange hI _ _).keeps fun range => ?_
  cases range with
  | error e => exact pure _
  | ok input => exact bind get fun m => bind get fun m' => .ite (pure _) (pure _)

theorem keeps_resumeCreate (hI : FrameInv I) {res : CallResult}
    (hcredit : Keeps I (Exec.modifyFrame (TACFrame.credit res.leftOverGas)))
    (salted isHomestead : Bool) (dest : Nat) : Keeps I (resumeCreate salted isHomestead dest res) :=
  bind get fun _ => bind (.onlyIf _ (EngineOnly.noteUsedEVM hI).keeps) fun _ =>
    bind (assign _ _) fun _ => bind hcredit fun _ => .ite (pure _) (pure _)

theorem keeps_logArgs (hI : FrameInv I) (size : Nat) : Keeps I (logArgs size) := by
  refine bind (operand _) fun _ => bind (operand _) fun _ => bind (advance _) fun _ =>
    bind (EngineOnly.operandValues _ _).keeps fun _ =>
      bind (EngineOnly.memoryRange hI _ _).keeps fun range => ?_
  cases range with
  | error e => exact pure _
  | ok data => exact pure _

namespace EngineOnly

theorem callArgs (hI : FrameInv I) (kind : CallKind) (host : Host σ) :
    EngineOnly I (callArgs kind host) := by
  refine (callOperands kind).bind fun ops => (memoryRange hI _ _).bind fun range => ?_
  cases range with
  | error e => exact .pure _
  | ok args =>
    exact EngineOnly.get.bind fun m => ite (.pure _)
      (EngineOnly.get.bind fun m' => ite (.pure _) (.pure _))

theorem askCall (hI : EventInv I) (kind : CallKind) (host : Host σ) :
    EngineOnly I (askCall kind host) := by
  refine (callArgs hI.frameInv kind host).bind fun r => ?_
  cases r with
  | error e => exact .pure _
  | ok q => exact (checkDeviation hI _ _).bind fun _ => .pure _

theorem sstoreArgs : EngineOnly I (sstoreArgs (σ := σ)) :=
  (EngineOnly.operand _).bind fun _ => (EngineOnly.operand _).bind fun _ =>
    (EngineOnly.val _).bind fun _ => (EngineOnly.val _).bind fun _ =>
      getFrame.bind fun _ => .pure _

theorem sha3Args (hI : FrameInv I) : EngineOnly I (sha3Args (σ := σ)) := by
  refine (EngineOnly.operand _).bind fun _ => (EngineOnly.operand _).bind fun _ =>
    (EngineOnly.operand _).bind fun _ => (memoryRange hI _ _).bind fun range => ?_
  cases range with
  | error e => exact .pure _
  | ok data => exact .pure _

end EngineOnly

theorem NoteInv.keepsEvents (hI : NoteInv I) {host : Host σ} (h : CallKeeps I host) :
    KeepsEvents host I := ⟨⟨hI.eventInv, h⟩, hI.traceInv.creditInv⟩

theorem StackInv.keepsEvents (hI : StackInv I) {host : Host σ} (h : CallKeeps I host) :
    KeepsEvents host I := hI.noteInv.keepsEvents h

end

section
variable {δ : Type}

structure InStack (keys : List (Address × Nat)) (e : Engine δ) : Prop where
  tac : e.interpreter = .tac
  suffix : keys <:+ e.frames.map TACFrame.key

theorem stackInv_inStack (keys : List (Address × Nat)) : StackInv (InStack (δ := δ) keys) :=
  fun _ _ hi hf h => ⟨hi.trans h.tac, hf ▸ h.suffix⟩

variable {e : Engine δ}
variable {keys : List (Address × Nat)}

theorem InStack.frames_ne_nil {k : Address × Nat} (h : InStack (k :: keys) e) : e.frames ≠ [] := by
  intro hnil
  have hsuffix := h.suffix
  rw [hnil] at hsuffix
  simp at hsuffix

def LedgerPred (B : List TACFrame → Prop) : Prop :=
  ∀ l l', l'.map TACFrame.ledger = l.map TACFrame.ledger → B l → B l'

structure OnStack (J : InterpreterKind → Prop) (B : List TACFrame → Prop)
    (e : Engine δ) : Prop where
  kind : J e.interpreter
  base : ∃ base, base <:+ e.frames ∧ B base

def Above (B : List TACFrame → Prop) (l : List TACFrame) : Prop := l ≠ [] ∧ B l.tail

theorem inStack_iff :
    InStack keys e ↔ OnStack (· = .tac) (fun l => l.map TACFrame.key = keys) e := by
  constructor
  · intro h
    obtain ⟨top, htop⟩ := h.suffix
    obtain ⟨l, base, hl, -, hbase⟩ := map_eq_append_iff.mp htop.symm
    exact ⟨h.tac, base, ⟨l, hl.symm⟩, hbase⟩
  · rintro ⟨htac, base, ⟨top, htop⟩, rfl⟩
    refine ⟨htac, top.map TACFrame.key, ?_⟩
    rw [← map_append, htop]

theorem ledgerPred_keys (keys : List (Address × Nat)) :
    LedgerPred fun l => l.map TACFrame.key = keys := by
  intro l l' hl h
  exact (map_key_of_ledger hl).trans h

variable {B : List TACFrame → Prop}

theorem LedgerPred.above (hB : LedgerPred B) : LedgerPred (Above B) := by
  rintro l l' hl ⟨hne, h⟩
  refine ⟨?_, hB _ _ ?_ h⟩
  · rintro rfl
    exact hne (map_eq_nil_iff.mp hl.symm)
  · rw [map_tail, map_tail, hl]

variable {J : InterpreterKind → Prop}

theorem ledgerInv_onStack (hB : LedgerPred B) :
    LedgerInv (OnStack (δ := δ) J B) := by
  rintro e e' hi hf ⟨hkind, base, ⟨top, htop⟩, h⟩
  rw [← htop, map_append] at hf
  obtain ⟨top', base', he', -, hbase⟩ := map_eq_append_iff.mp hf
  exact ⟨hi ▸ hkind, base', ⟨top', he'.symm⟩, hB _ _ hbase h⟩

theorem creditInv_above :
    CreditInv (OnStack (δ := δ) J (Above B)) := by
  intro gas
  refine Keeps.modifyEngine fun e he => ⟨he.kind, ?_⟩
  obtain ⟨base, ⟨top, htop⟩, hne, h⟩ := he.base
  cases top with
  | nil =>
    cases base with
    | nil => exact absurd rfl hne
    | cons f base =>
      rw [← htop]
      exact ⟨_, suffix_refl _, cons_ne_nil _ _, h⟩
  | cons f top =>
    rw [← htop]
    exact ⟨base, ⟨_ :: top, rfl⟩, hne, h⟩

structure SameStack (e e' : Engine δ) : Prop where
  interpreter : e'.interpreter = e.interpreter
  frames : e'.frames = e.frames

theorem SameStack.refl (e : Engine δ) : SameStack e e := ⟨rfl, rfl⟩

variable {e' : Engine δ}

theorem SameStack.trans {e'' : Engine δ} (h : SameStack e e') (h' : SameStack e' e'') :
    SameStack e e'' :=
  ⟨h'.interpreter.trans h.interpreter, h'.frames.trans h.frames⟩

theorem SameStack.onStack (h : SameStack e e') (he : OnStack J B e) : OnStack J B e' :=
  ⟨h.interpreter ▸ he.kind, h.frames ▸ he.base⟩

theorem SameStack.onDb {α : Type} (h : SameStack e e') (g : δ → α × δ) :
    SameStack e (onDb g e').2 :=
  ⟨h.interpreter, h.frames⟩

theorem SameStack.setDb (h : SameStack e e') (g : δ → δ) :
    SameStack e (setDb g e') :=
  ⟨h.interpreter, h.frames⟩

theorem SameStack.ite {c : Prop} [Decidable c] {e1 e2 : Engine δ} (h1 : SameStack e e1)
    (h2 : SameStack e e2) : SameStack e (if c then e1 else e2) := by
  split
  · exact h1
  · exact h2

def Prepared.engine : Prepared δ → Engine δ
  | .finished _ e => e
  | .frame _ e => e

theorem SameStack.prepared_ite {c : Prop} [Decidable c] {x y : Prepared δ}
    (hx : SameStack e x.engine) (hy : SameStack e y.engine) :
    SameStack e (if c then x else y).engine := by
  split
  · exact hx
  · exact hy

theorem sameStack_settle (w : World δ) (snapshot : Nat) (ret : Ret) (gas : Nat) (e : Engine δ) :
    SameStack e (settle w snapshot ret gas e).2 := by
  unfold settle
  split
  · exact .refl e
  · exact (SameStack.refl e).setDb _

theorem SameStack.runPrecompiled (h : SameStack e e') (w : World δ) (p : Bytes → Nat → Ret × Nat)
    (input : Bytes) (gas snapshot : Nat) :
    SameStack e (runPrecompiled w p input gas snapshot e').engine :=
  h.trans (sameStack_settle w snapshot _ _ e')

theorem sameStack_prepareCall (w : World δ) (caller : Contract) (addr : Address) (input : Bytes)
    (gas : Nat) (value : Word) (e : Engine δ) :
    SameStack e (prepareCall w caller addr input gas value e).engine := by
  unfold prepareCall
  refine .prepared_ite (.refl e) ?_
  have hrich : SameStack e
      (if value = 0 then (true, e) else onDb (w.canTransfer caller.address value) e).2 := by
    split
    · exact .refl e
    · exact (SameStack.refl e).onDb _
  generalize (if value = 0 then (true, e) else onDb (w.canTransfer caller.address value) e) = q
    at hrich
  have hexist := (hrich.onDb w.snapshot).onDb (w.exist addr)
  refine .prepared_ite hrich (.prepared_ite hexist ?_)
  have hpaid := (SameStack.ite (c := (onDb (w.exist addr) (onDb w.snapshot q.2).2).1 = true)
    hexist (hexist.setDb (w.createAccount addr))).setDb (w.transfer caller.address addr value)
  cases w.precompile addr with
  | some p => exact hpaid.runPrecompiled ..
  | none => exact .prepared_ite (hpaid.onDb _) (hpaid.onDb _)

theorem sameStack_prepareCallCode (w : World δ) (caller : Contract) (addr : Address)
    (input : Bytes) (gas : Nat) (value : Word) (e : Engine δ) :
    SameStack e (prepareCallCode w caller addr input gas value e).engine := by
  unfold prepareCallCode
  have hrich := (SameStack.refl e).onDb (w.canTransfer caller.address value)
  refine .prepared_ite (.refl e) (.prepared_ite hrich ?_)
  cases w.precompile addr with
  | some p => exact (hrich.onDb _).runPrecompiled ..
  | none => exact (hrich.onDb w.snapshot).onDb (w.getCode addr)

theorem sameStack_prepareDelegateCall (w : World δ) (caller : Contract) (addr : Address)
    (input : Bytes) (gas : Nat) (e : Engine δ) :
    SameStack e (prepareDelegateCall w caller addr input gas e).engine := by
  unfold prepareDelegateCall
  have hsnap := (SameStack.refl e).onDb w.snapshot
  refine .prepared_ite (.refl e) ?_
  cases w.precompile addr with
  | some p => exact hsnap.runPrecompiled ..
  | none => exact hsnap.onDb (w.getCode addr)

theorem sameStack_prepareStaticCall (w : World δ) (caller : Contract) (addr : Address)
    (input : Bytes) (gas : Nat) (e : Engine δ) :
    SameStack e (prepareStaticCall w caller addr input gas e).engine := by
  unfold prepareStaticCall
  have hsnap := ((SameStack.refl e).onDb w.snapshot).setDb (w.touch addr)
  refine .prepared_ite (.refl e) ?_
  cases w.precompile addr with
  | some p => exact hsnap.runPrecompiled ..
  | none => exact hsnap.onDb (w.getCode addr)

theorem sameStack_prepareCreate (w : World δ) (caller : Contract) (code : Bytes) (gas : Nat)
    (value : Word) (address : Address) (e : Engine δ) :
    SameStack e (prepareCreate w caller code gas value address e).engine := by
  unfold prepareCreate
  have hrich := (SameStack.refl e).onDb (w.canTransfer caller.address value)
  have hnonce := hrich.onDb (w.getNonce caller.address)
  refine .prepared_ite (.refl e) (.prepared_ite hrich (.prepared_ite hnonce ?_))
  refine .prepared_ite ?_ ?_
  · exact (SameStack.onDb (.ite ((hnonce.setDb _).setDb _) (hnonce.setDb _)) _).onDb _
  · exact .setDb (.ite (.setDb (.setDb (.onDb (.onDb (.onDb (.ite ((hnonce.setDb _).setDb _)
      (hnonce.setDb _)) _) _) _) _) _) (.setDb (.onDb (.onDb (.onDb (.ite
        ((hnonce.setDb _).setDb _) (hnonce.setDb _)) _) _) _) _)) _

theorem sameStack_prepare (w : World δ) (caller : Contract) (c : ExternalCall) (e : Engine δ) :
    SameStack e (prepare w caller c e).engine := by
  cases c with
  | call addr input gas value => exact sameStack_prepareCall ..
  | callCode addr input gas value => exact sameStack_prepareCallCode ..
  | delegateCall addr input gas => exact sameStack_prepareDelegateCall ..
  | staticCall addr input gas => exact sameStack_prepareStaticCall ..
  | create code gas value =>
    exact ((SameStack.refl e).onDb (w.getNonce caller.address)).trans
      (sameStack_prepareCreate w caller code gas value _ _)
  | create2 code gas value salt => exact sameStack_prepareCreate ..

theorem sameStack_finishCreate (w : World δ) (req : FrameRequest) (ret : Ret) (gas : Nat)
    (e : Engine δ) : SameStack e (finishCreate w req ret gas e).2 :=
  .ite (.setDb (.ite ((SameStack.refl e).setDb _) (.refl e)) _)
    (.ite ((SameStack.refl e).setDb _) (.refl e))

theorem sameStack_finish (w : World δ) (c : ExternalCall) (req : FrameRequest) (ret : Ret)
    (gas : Nat) (e : Engine δ) : SameStack e (finish w c req ret gas e).2 := by
  cases c with
  | create | create2 => exact sameStack_finishCreate ..
  | call | callCode | delegateCall | staticCall => exact sameStack_settle ..

def GivesBack (run : FrameRunner δ) : Prop :=
  ∀ J B, LedgerPred B → ∀ req e, OnStack J B e →
    (∀ q e', run req e = .ok (q, e') → OnStack J B e') ∧
    ∀ p e', run req e = .error (p, e') → OnStack J B e'

theorem OnStack.push {f : TACFrame} (h : OnStack J B e) (hi : e'.interpreter = e.interpreter)
    (hf : e'.frames = f :: e.frames) :
    OnStack J (Above B) e' := by
  obtain ⟨base, ⟨top, htop⟩, hbase⟩ := h.base
  obtain ⟨init, last, hlast⟩ := eq_nil_or_concat (f :: top) |>.resolve_left (by simp)
  refine ⟨hi ▸ h.kind, last :: base, ⟨init, ?_⟩, cons_ne_nil _ _, hbase⟩
  rw [hf, ← htop, ← cons_append, hlast]
  simp

theorem OnStack.pop (h : OnStack J (Above B) e) :
    OnStack J B { e with frames := e.frames.tail } := by
  obtain ⟨base, ⟨top, htop⟩, hne, hbase⟩ := h.base
  refine ⟨h.kind, base.tail, ?_, hbase⟩
  dsimp only
  rw [← htop]
  cases top with
  | nil => exact suffix_refl _
  | cons a top => exact (tail_suffix base).trans (suffix_append _ _)

theorem OnStack.below (h : OnStack J (Above B) e) :
    OnStack J B e := by
  obtain ⟨base, hsuffix, hne, hbase⟩ := h.base
  exact ⟨h.kind, base.tail, (tail_suffix base).trans hsuffix, hbase⟩

def keysOf (e : Engine δ) : List (Address × Nat) := e.frames.map TACFrame.key

variable {prog : TACProgram} {req : FrameRequest}

theorem enterRun_frame {start : Engine δ} {frame : TACFrame}
    (h : enterRun prog req e = .ok (.frame frame start)) :
    start.interpreter = e.interpreter ∧ start.frames = frame :: e.frames := by
  unfold enterRun at h
  dsimp only at h
  split at h
  · cases h
  · split at h
    · cases h
    · split at h
      · cases h
      · obtain ⟨rfl, rfl⟩ := Entered.frame.inj (Except.ok.inj h)
        exact ⟨rfl, rfl⟩

theorem enterRun_returned (h : enterRun prog req e = .ok (.returned ret e')) :
    SameStack e e' := by
  unfold enterRun at h
  dsimp only at h
  split at h
  · cases h
  · split at h
    · obtain ⟨-, rfl⟩ := Entered.returned.inj (Except.ok.inj h)
      exact ⟨rfl, rfl⟩
    · split at h
      · obtain ⟨-, rfl⟩ := Entered.returned.inj (Except.ok.inj h)
        exact ⟨rfl, rfl⟩
      · cases h

theorem enterRun_error {p : GoPanic} (h : enterRun prog req e = .error (p, e')) :
    SameStack e e' := by
  unfold enterRun at h
  dsimp only at h
  split at h
  · cases Except.error.inj h
    exact ⟨rfl, rfl⟩
  · split at h
    · cases h
    · split at h <;> cases h

theorem runEntry_keeps {host : Host (EvmState δ)} {I : Engine δ → Prop} (hI : KeepsEvents host I)
    (fuel : Nat) (prog : TACProgram) (he : I e) :
    (∀ ret e', runEntry host fuel prog e = .ok (ret, e') → I e') ∧
      ∀ p e', runEntry host fuel prog e = .error (p, e') → I e' := by
  unfold runEntry
  cases prog.entry with
  | none =>
    exact outcome_error he
  | some f =>
    dsimp only
    cases newContext f none with
    | error p' =>
      exact outcome_error he
    | ok ctx =>
      dsimp only
      obtain ⟨hok, hpanic⟩ := runKeeps_executeFunc hI fuel ctx e he
      cases hx : executeFunc host fuel ctx e with
      | ok q =>
        exact outcome_ok (hok q.1 q.2 hx)
      | error stop =>
        cases stop with
        | panic p' m =>
          exact outcome_error (hpanic p' m hx)
        | outOfFuel =>
          exact outcome_error he

theorem sameStack_select (w : World δ) (start : Engine δ) (ret : Ret) (e : Engine δ) :
    SameStack e (select w start ret e).2 := by
  unfold select
  split
  · exact ⟨rfl, rfl⟩
  · exact .refl e

theorem onStack_finishRun (h : OnStack J (Above B) e) (w : World δ) (before : Engine δ)
    (req : FrameRequest) (frame : TACFrame) (ret : Ret) :
    OnStack J B (finishRun w before req frame ret e).2 := by
  have hpop := h.pop
  unfold finishRun
  dsimp only
  split
  · split
    · exact ⟨hpop.kind, hpop.base⟩
    · exact ⟨hpop.kind, hpop.base⟩
  · exact ⟨hpop.kind, hpop.base⟩

theorem givesBack_tacRun (w : World δ) {host : Host (EvmState δ)}
    (h : ∀ J B, LedgerPred B → CallKeeps (OnStack J B) host) (fuel : Nat) (prog : TACProgram) :
    GivesBack (tacRun w host fuel prog) := by
  intro J B hB req e he
  unfold tacRun
  cases hen : enterRun prog req e with
  | error q =>
    refine ⟨fun _ _ h => (by cases h), fun p e' h => ?_⟩
    obtain rfl := Except.error.inj h
    exact (enterRun_error hen).onStack he
  | ok entered =>
    cases entered with
    | returned ret e1 =>
      refine ⟨fun q e' h => ?_, fun _ _ h => (by cases h)⟩
      cases h
      have h1 := (enterRun_returned hen).onStack he
      exact ⟨h1.kind, h1.base⟩
    | frame frame start =>
      obtain ⟨hint, hframes⟩ := enterRun_frame hen
      have hrun := runEntry_keeps ⟨⟨(ledgerInv_onStack hB.above).eventInv, h _ _ hB.above⟩,
        creditInv_above⟩ fuel prog (he.push hint hframes)
      dsimp only
      cases hx : runEntry host fuel prog start with
      | ok q =>
        refine ⟨fun q' e' h => ?_, fun _ _ h => (by cases h)⟩
        have hq := hrun.1 q.1 q.2 hx
        have hsel := (sameStack_select w start q.1 q.2).onStack hq
        have heq : _ = e' := congrArg Prod.snd (Except.ok.inj h)
        rw [← heq]
        exact onStack_finishRun hsel w e req frame _
      | error q =>
        have hq := hrun.2 q.1 q.2 hx
        dsimp only
        split
        · refine ⟨fun q' e' h => ?_, fun _ _ h => (by cases h)⟩
          have hsel := (sameStack_select w start ([], some .tacPanic) q.2).onStack hq
          have heq : _ = e' := congrArg Prod.snd (Except.ok.inj h)
          rw [← heq]
          exact onStack_finishRun hsel w e req frame _
        · exact outcome_error ⟨hq.below.kind, hq.below.base⟩

theorem givesBack_runTac (w : World δ) {host : Host (EvmState δ)}
    (h : ∀ J B, LedgerPred B → CallKeeps (OnStack J B) host) (fuel : Nat) :
    GivesBack (runTac w host fuel) := by
  intro J B hB req e he
  unfold runTac
  cases w.getTACProg req.contract with
  | error err =>
    refine ⟨fun q e' h => ?_, fun _ _ h => (by cases h)⟩
    cases h
    have hsame : SameStack e (if isTACGlobalError err then setSubstrateErr err e else e) :=
      .ite ⟨rfl, rfl⟩ (.refl e)
    exact hsame.onStack he
  | ok prog => exact givesBack_tacRun w h fuel prog J B hB req e he

theorem evmExternal_keeps (w : World δ) {run : FrameRunner δ} (hrun : GivesBack run)
    (hB : LedgerPred B) {c : ExternalCall} (he : OnStack J B e) :
    (∀ res e', evmExternal w run c e = .ok (res, e') → OnStack J B e') ∧
      ∀ p e', evmExternal w run c e = .error (p, e') → OnStack J B e' := by
  unfold evmExternal
  cases hf : e.frames with
  | nil =>
    exact outcome_error he
  | cons frame rest =>
    dsimp only
    have hprep : OnStack J B (prepare w frame.contract c (nextCallTrace e)).engine :=
      (sameStack_prepare w frame.contract c (nextCallTrace e)).onStack ⟨he.kind, he.base⟩
    cases hp : prepare w frame.contract c (nextCallTrace e) with
    | finished res e1 =>
      rw [hp] at hprep
      exact outcome_ok ⟨hprep.kind, hprep.base⟩
    | frame req e1 =>
      rw [hp] at hprep
      have hback := hrun J B hB req e1 hprep
      dsimp only
      cases hx : run req e1 with
      | error q =>
        refine ⟨fun _ _ h => (by cases h), fun p e' h => ?_⟩
        have hq := hback.2 q.1 q.2 hx
        cases Except.error.inj h
        exact ⟨hq.kind, hq.base⟩
      | ok q =>
        refine ⟨fun res' e' h => ?_, fun _ _ h => (by cases h)⟩
        have hq := hback.1 q.1 q.2 hx
        have hfin := (sameStack_finish w c req q.1.1 q.1.2 q.2).onStack hq
        cases h
        exact ⟨hfin.kind, hfin.base⟩

theorem hostAt_onStack (w : World δ) (fuel n : Nat) (hB : LedgerPred B) :
    CallKeeps (OnStack J B) (hostAt w fuel n) := by
  induction n generalizing J B with
  | zero =>
    have hnone : GivesBack fun (_ : FrameRequest) (e : Engine δ) =>
        (.error (fuelPanic, e) : Except (GoPanic × Engine δ) ((Ret × Nat) × Engine δ)) := by
      intro J B hB req e he
      exact outcome_error he
    intro c e he
    exact evmExternal_keeps w hnone hB he
  | succ n ih =>
    intro c e he
    exact evmExternal_keeps w (givesBack_runTac w (fun J B hB => ih hB) fuel) hB he

theorem hostAt_keeps (w : World δ) (fuel n : Nat) (keys : List (Address × Nat)) :
    CallKeeps (InStack keys) (hostAt w fuel n) := by
  intro c e he
  have h := hostAt_onStack w fuel n (ledgerPred_keys keys) c e (inStack_iff.mp he)
  exact ⟨fun res e' hx => inStack_iff.mpr (h.1 res e' hx), fun p e' hx =>
    inStack_iff.mpr (h.2 p e' hx)⟩

def instCount (e : Engine δ) : Int := e.delta.stats.tacInstCount

theorem instCount_sameButData (h : SameButData e e') :
    instCount e' = instCount e := by
  obtain ⟨data, rfl⟩ := h
  rfl

theorem instCount_finishRun (w : World δ) (before : Engine δ) (req : FrameRequest)
    (frame : TACFrame) (ret : Ret) (e : Engine δ) :
    instCount (finishRun w before req frame ret e).2 = instCount e := by
  unfold finishRun
  dsimp only
  split
  · split <;> rfl
  · rfl

structure RunningFrame (δ : Type) where
  req : FrameRequest
  before : Engine δ
  prog : TACProgram
  entry : TACFunction
  frame : TACFrame
  start : Engine δ
  ctx : TACContext
  op : TACOp
  machine : Machine (EvmState δ)
  left : Nat
  path : List (Activation (EvmState δ))

namespace RunningFrame

structure Reached (w : World δ) (host : Host (EvmState δ)) (fuel : Nat) (p : RunningFrame δ) :
    Prop where
  prog : w.getTACProg p.req.contract = .ok p.prog
  enters : enterRun p.prog p.req p.before = .ok (.frame p.frame p.start)
  entry : p.prog.entry = some p.entry
  ctx : newContext p.entry none = .ok p.ctx
  executes : Executes host p.op p.machine p.left fuel (startLoop p.ctx p.start) p.path

variable {w : World δ} {host : Host (EvmState δ)} {fuel : Nat} {p : RunningFrame δ} {err : VmError}

theorem Reached.inStack_start (hp : p.Reached w host fuel) (htac : p.before.interpreter = .tac) :
    InStack (p.frame.key :: keysOf p.before) p.start := by
  obtain ⟨hint, hframes⟩ := enterRun_frame hp.enters
  refine ⟨hint.trans htac, ?_⟩
  rw [hframes]
  exact suffix_refl _

variable {m : Machine (EvmState δ)}

theorem Reached.run_of_entry (hp : p.Reached w host fuel)
    (hx : executeFunc host fuel p.ctx p.start = .ok (ret, m)) :
    ∃ gas e', runTac w host fuel p.req p.before =
        .ok (((if guarded w p.start && w.timerFires p.start then ([], some .tacTimeout) else ret),
          gas), e') ∧ instCount e' = instCount m.engine := by
  have hentry : runEntry host fuel p.prog p.start = .ok (ret, m.engine) := by
    rw [runEntry, hp.entry]
    dsimp only
    rw [hp.ctx]
    dsimp only
    rw [hx]
  have hrun : runTac w host fuel p.req p.before
      = .ok (finishRun w p.before p.req p.frame (select w p.start ret m.engine).1
        (select w p.start ret m.engine).2) := by
    rw [runTac, hp.prog]
    dsimp only
    rw [tacRun, hp.enters]
    dsimp only
    rw [hentry]
  have hret : (select w p.start ret m.engine).1
      = if guarded w p.start && w.timerFires p.start then ([], some .tacTimeout) else ret := by
    unfold select
    split <;> rfl
  have hcount : instCount (select w p.start ret m.engine).2 = instCount m.engine := by
    unfold select
    split <;> rfl
  rw [hrun, ← hret]
  generalize select w p.start ret m.engine = q at hcount
  exact ⟨(finishRun w p.before p.req p.frame q.1 q.2).1.2, _, rfl,
    (instCount_finishRun w p.before p.req p.frame q.1 q.2).trans hcount⟩

theorem Reached.run_eq (hp : p.Reached w host fuel)
    (hx : executeFunc host fuel p.ctx p.start = .ok (([], some err), m)) :
    ∃ gas e', runTac w host fuel p.req p.before =
        .ok ((([], some (if guarded w p.start && w.timerFires p.start then .tacTimeout else err)),
          gas), e') ∧ instCount e' = instCount m.engine := by
  obtain ⟨gas, e', hrun, hcount⟩ := hp.run_of_entry hx
  refine ⟨gas, e', ?_, hcount⟩
  rw [hrun]
  split <;> rfl

theorem Reached.run_panic (hp : p.Reached w host fuel) {q : GoPanic}
    (hx : executeFunc host fuel p.ctx p.start = .error (.panic q m)) {gas : Nat}
    (hrun : runTac w host fuel p.req p.before = .ok ((ret, gas), e)) :
    ret = ([], some .tacPanic) ∨ ret = ([], some .tacTimeout) := by
  have hentry : runEntry host fuel p.prog p.start = .error (q, m.engine) := by
    rw [runEntry, hp.entry]
    dsimp only
    rw [hp.ctx]
    dsimp only
    rw [hx]
  rw [runTac, hp.prog] at hrun
  dsimp only at hrun
  rw [tacRun, hp.enters] at hrun
  dsimp only at hrun
  rw [hentry] at hrun
  dsimp only at hrun
  split at hrun
  · have hret : (select w p.start ([], some .tacPanic) m.engine).1 = ret :=
      congrArg (fun r => r.1.1) (Except.ok.inj hrun)
    rw [← hret]
    unfold select
    split
    · exact .inr rfl
    · exact .inl rfl
  · cases hrun

end RunningFrame

end

end EtherVal.Vm
