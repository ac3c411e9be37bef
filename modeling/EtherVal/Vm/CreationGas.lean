import EtherVal.Vm.Replay

/-!
# Gas that creations hand back (`tac_interpreter.go:1810-1955`)

`exec_create` and `exec_create2` add the gas that the EVM returns to the gas of the contract, from
which the gas for the creation was never taken.
-/

namespace EtherVal.Vm
open EtherVal.Lib EtherVal.TacParser Exec

section
variable {σ : Type}

def creditTop (gas : Nat) (frames : List TACFrame) : List TACFrame :=
  match frames with
  | frame :: rest => frame.credit gas :: rest
  | [] => []

theorem resumeCreate_frames (salted isHomestead : Bool) (dest : Nat) (res : CallResult)
    (m : Machine σ) : ∃ ret m', resumeCreate salted isHomestead dest res m = .ok (ret, m') ∧
      m'.engine.interpreter = m.engine.interpreter ∧
        m'.engine.frames = creditTop res.leftOverGas m.engine.frames := by
  have hnote : ∃ m1, Exec.onlyIf (m.engine.interpreter = .evm)
      (Exec.modifyDelta fun d => { d with usedEVM := true }) m = .ok ((), m1) ∧
        m1.engine.interpreter = m.engine.interpreter ∧ m1.engine.frames = m.engine.frames := by
    unfold Exec.onlyIf
    split
    · exact ⟨_, rfl, rfl, rfl⟩
    · exact ⟨m, rfl, rfl, rfl⟩
  obtain ⟨m1, hm1, hkind, hframes⟩ := hnote
  have hget : (get : Exec σ (Machine σ)) m = .ok (m, m) := rfl
  rw [resumeCreate, bind_of_ok hget, bind_of_ok hm1]
  dsimp only
  generalize (if (res.err.any fun e => salted || isHomestead ||
    decide (e.text ≠ VmError.codeStoreOutOfGas.text)) = true then Uint256.clear
      else Uint256.ofAddress res.addr) = word
  let m2 : Machine σ := { m1.assign dest word with
    engine := { m1.engine with frames := creditTop res.leftOverGas m1.engine.frames } }
  obtain ⟨ret, hret⟩ : ∃ ret,
    (if (res.err.any fun e => e.text = VmError.executionReverted.text) = true
      then pure (res.ret, none) else done : Exec σ Ret) m2 = .ok (ret, m2) := by
    split <;> exact ⟨_, rfl⟩
  refine ⟨ret, m2, hret, hkind, ?_⟩
  rw [← hframes]

theorem creation_keeps {I : TACInterpreter σ → Prop} (hI : LedgerInv I) {host : Host σ}
    (hhost : CallKeeps I host) {op : TACOp} (hop : IsCreation op) (run : Runner σ) {m : Machine σ}
    (hm : I m.engine)
    (hcredit : ∀ site m1 res e, Asks host op m site m1 →
      host.external site.call m1.engine = .ok (res, e) → I e →
        I { e with frames := creditTop res.leftOverGas e.frames }) :
    (∀ q, execution host run op m = .ok q → I q.2.engine) ∧
      ∀ p m', execution host run op m = .error (.panic p m') → I m'.engine := by
  obtain ⟨salted, hask⟩ : ∃ salted, ask host op = some (askCreate salted) := by
    rcases hop with rfl | rfl
    · exact ⟨false, rfl⟩
    · exact ⟨true, rfl⟩
  have hasked := keeps_askCreate hI.eventInv.frameInv salted m hm
  rw [execution_ask hask, bind_apply]
  cases hx : askCreate salted m with
  | error stop =>
    exact outcome_value_of_error hx hasked.2
  | ok q =>
    obtain ⟨site, m1⟩ := q
    have hm1 := hasked.1 site m1 hx
    cases site with
    | error ret =>
      exact outcome_value hm1
    | ok site =>
      change (∀ q, (external host site.call >>= site.resume) m1 = .ok q → _) ∧
        ∀ p m', (external host site.call >>= site.resume) m1 = .error (.panic p m') → _
      obtain ⟨isHomestead, dest, hresume⟩ := (askCreate_site hx).1
      rw [bind_apply, external]
      cases hext : host.external site.call m1.engine with
      | error q =>
        refine ⟨fun q h => (by cases h), fun p m' h => ?_⟩
        obtain ⟨-, rfl⟩ := Stop.panic.inj (Except.error.inj h)
        exact (hhost site.call m1.engine hm1).2 q.1 q.2 hext
      | ok q =>
        obtain ⟨res, e⟩ := q
        have he := hcredit site m1 res e ⟨_, hask, hx⟩ hext ((hhost _ _ hm1).1 res e hext)
        obtain ⟨ret, m', hok, hkind, hframes⟩ :=
          resumeCreate_frames salted isHomestead dest res { m1 with engine := e }
        change (∀ q, site.resume res { m1 with engine := e } = .ok q → _) ∧
          ∀ p m', site.resume res { m1 with engine := e } = .error (.panic p m') → _
        rw [hresume, hok]
        exact outcome_value (hI { e with frames := creditTop res.leftOverGas e.frames } m'.engine
          hkind (congrArg (List.map TACFrame.ledger) hframes) he)

end

structure FrameRun (δ : Type) where
  req : FrameRequest
  before : Engine δ
  prog : TACProgram
  entry : TACFunction
  frame : TACFrame
  start : Engine δ
  ctx : TACContext
  enters : enterRun prog req before = .ok (.frame frame start)
  entry_eq : prog.entry = some entry
  context : newContext entry none = .ok ctx

namespace FrameRun
variable {δ : Type} (r : FrameRun δ) (host : Host (EvmState δ)) (fuel : Nat)

def Executes (op : TACOp) (m : Machine (EvmState δ)) (left : Nat)
    (path : List (Activation (EvmState δ))) : Prop :=
  Vm.Executes host op m left fuel (startLoop r.ctx r.start) path

def gas (e : Engine δ) : Nat := (ownFrame r.before r.frame e).contract.gas

def entryGas : Nat := r.req.contract.gas

def OnTop (e : Engine δ) : Prop := e.frames.length = r.before.frames.length + 1

def Creates (res : CallResult) (e : Engine δ) : Prop :=
  ∃ op m left path site m1, r.Executes host fuel op m left path ∧ IsCreation op ∧
    Asks host op m site m1 ∧ host.external site.call m1.engine = .ok (res, e)

/-- No gas is handed back, or it fits below the entry gas, or the sum wraps around. -/
def Fits (res : CallResult) (e : Engine δ) : Prop :=
  res.leftOverGas % uint64Mod = 0 ∨ r.gas e + res.leftOverGas % uint64Mod ≤ r.entryGas ∨
    uint64Mod ≤ r.gas e + res.leftOverGas % uint64Mod

end FrameRun

def creationGas (isEIP150 : Bool) (gas : Nat) : Nat := if isEIP150 then gas - gas / 64 else gas

theorem creationGas_mono (isEIP150 : Bool) {gas gas' : Nat} (h : gas ≤ gas') :
    creationGas isEIP150 gas ≤ creationGas isEIP150 gas' := by
  unfold creationGas
  split <;> omega

namespace FrameRun
variable {δ : Type} (r : FrameRun δ) (host : Host (EvmState δ)) (fuel : Nat)

/-- Before and after every instruction of the frame its gas is at most the entry gas, so no
creation is refused that the entry gas would allow. -/
def NoGasCreated : Prop :=
  ∀ op m left path, r.Executes host fuel op m left path →
    r.gas m.engine ≤ r.entryGas ∧
      (∀ ret m', execution host (executeFunc host left) op m = .ok (ret, m') →
        r.gas m'.engine ≤ r.entryGas) ∧
      (IsCreation op →
        m.engine.delta.maxGas < creationGas m.engine.config.isEIP150 (r.gas m.engine) →
          m.engine.delta.maxGas < creationGas m.engine.config.isEIP150 r.entryGas)

variable {r host fuel}
variable {e : Engine δ}

theorem OnTop.frames_eq (h : r.OnTop e) :
    ∃ f rest, e.frames = f :: rest ∧ rest.length = r.before.frames.length := by
  cases hf : e.frames with
  | nil =>
    rw [OnTop, hf] at h
    simp at h
  | cons f rest =>
    rw [OnTop, hf, List.length_cons] at h
    exact ⟨f, rest, rfl, by omega⟩

theorem gas_of_frames {f : TACFrame} {rest : List TACFrame} (hf : e.frames = f :: rest)
    (hlen : rest.length = r.before.frames.length) :
    r.gas e = f.contract.gas := by
  have hown : e.frames.reverse[r.before.frames.length]? = some f := by
    rw [hf, ← hlen]
    simp
  rw [gas, ownFrame, hown]
  rfl

theorem gas_creditTop {e' : Engine δ} (h : r.OnTop e) {gas : Nat}
    (he : e'.frames = creditTop gas e.frames) : r.gas e' = (r.gas e + gas) % uint64Mod := by
  obtain ⟨f, rest, hf, hlen⟩ := h.frames_eq
  rw [hf] at he
  rw [gas_of_frames hf hlen, gas_of_frames he hlen]
  rfl

def Bounded (r : FrameRun δ) : Engine δ → Prop :=
  OnStack (fun _ => True) (OwnGas r.before.frames.length (· ≤ r.entryGas))

theorem Bounded.gas_le (h : r.Bounded e) : r.gas e ≤ r.entryGas :=
  h.ownFrame r.frame

theorem bounded_start : r.Bounded r.start := by
  obtain ⟨-, hframes⟩ := enterRun_frame r.enters
  obtain ⟨hframe, -⟩ := enterRun_created r.enters
  exact ⟨trivial, r.start.frames, List.suffix_refl _, r.frame, r.before.frames, hframes, rfl,
    hframe.le⟩

theorem ledgerInv_bounded : LedgerInv r.Bounded := ledgerInv_onStack (ledgerPred_ownGas _ _)

theorem Fits.credited_le {res : CallResult} (h : r.Fits res e) (hgas : r.entryGas < uint64Mod)
    (he : r.gas e ≤ r.entryGas) :
    (r.gas e + res.leftOverGas) % uint64Mod ≤ r.entryGas := by
  unfold Fits at h
  unfold uint64Mod at *
  omega

theorem Bounded.credit {res : CallResult} (he : r.Bounded e) (hgas : r.entryGas < uint64Mod)
    (hfits : r.OnTop e → r.Fits res e) :
    r.Bounded { e with frames := creditTop res.leftOverGas e.frames } := by
  have hle := he.gas_le
  obtain ⟨base, ⟨top, htop⟩, f, rest, rfl, hlen, hf⟩ := he.base
  refine ⟨trivial, ?_⟩
  dsimp only
  cases top with
  | nil =>
    -- the frame is on top and gets the gas
    have hframes : e.frames = f :: rest := htop.symm
    have hon : r.OnTop e := by rw [OnTop, hframes, List.length_cons, hlen]
    have hsum := (hfits hon).credited_le hgas hle
    rw [gas_of_frames hframes hlen] at hsum
    rw [hframes]
    exact ⟨_, List.suffix_refl _, _, rest, rfl, hlen, hsum⟩
  | cons a top =>
    rw [← htop]
    exact ⟨f :: rest, ⟨_ :: top, rfl⟩, f, rest, rfl, hlen, hf⟩

theorem keptAlong_bounded (hhost : GivesFramesBack host) (hgas : r.entryGas < uint64Mod)
    (hfits : ∀ res e, r.Creates host fuel res e → r.OnTop e → r.Fits res e) :
    KeptAlong host r.Bounded fuel (startLoop r.ctx r.start) := by
  intro op m left path hx hprivate hm
  have hcalls : CallKeeps r.Bounded host := hhost _ _ (ledgerPred_ownGas _ _)
  by_cases hop : IsCreation op
  · refine creation_keeps ledgerInv_bounded hcalls hop _ hm fun site m1 res e hasks hext he => ?_
    exact he.credit hgas (hfits res e ⟨op, m, left, path, site, m1, hx, hop, hasks, hext⟩)
  · obtain ⟨hok, hpanic⟩ := execution_keeps_calls ⟨ledgerInv_bounded.eventInv, hcalls⟩
      (executeFunc host left) hprivate (.inl ⟨fun h => hop (.inl h), fun h => hop (.inr h)⟩) m hm
    exact ⟨fun q hq => hok q.1 q.2 hq, hpanic⟩

/-- A frame creates no gas exactly if every creation that is answered hands back none, or gas that
fits below the entry gas or wraps around. -/
theorem noGasCreated_iff (hhost : GivesFramesBack host) (hgas : r.entryGas < uint64Mod) :
    r.NoGasCreated host fuel ↔
      ∀ res e, r.Creates host fuel res e → r.OnTop e → r.Fits res e := by
  constructor
  · rintro h res e ⟨op, m, left, path, site, m1, hx, hop, hasks, hext⟩ hon
    obtain ⟨salted, isHomestead, dest, hresume⟩ := hasks.create_site hop
    obtain ⟨ret, m', hok, -, hframes⟩ :=
      resumeCreate_frames salted isHomestead dest res { m1 with engine := e }
    have hexec := hasks.execution_eq hext (executeFunc host left)
    rw [hresume, hok] at hexec
    have hle := (h op m left path hx).2.1 ret m' hexec
    rw [gas_creditTop hon hframes] at hle
    unfold Fits
    unfold uint64Mod at *
    omega
  · intro hfits op m left path hx
    have hkept := keptAlong_bounded hhost hgas hfits
    have hm : r.Bounded m.engine :=
      hkept.reached ledgerInv_bounded.eventInv.frameInv hx bounded_start
    refine ⟨hm.gas_le, ?_, fun _ hmax => hmax.trans_le (creationGas_mono _ hm.gas_le)⟩
    intro ret m' hexec
    have hend : r.Bounded m'.engine :=
      hkept.execution ledgerInv_bounded.eventInv.frameInv hx bounded_start hexec
    exact hend.gas_le

end FrameRun

def twoCreations : TACFunction where
  insts := [TACOp.CREATE.code, 0, 0, 0, 0, TACOp.CREATE.code, 0, 0, 0, 0, TACOp.STOP.code]
  numVars := 1

def returningHost (gas : Nat) : Host (EvmState Nat) :=
  { (default : Host (EvmState Nat)) with
    researchPreAlloc := fun _ => []
    external := fun _ e => .ok (⟨[], 0, gas, none⟩, e) }

theorem returningHost_givesFramesBack (gas : Nat) : GivesFramesBack (returningHost gas) := by
  intro J B _ c e he
  exact outcome_ok he

def twoCreationsEngine : Engine Nat :=
  { refundEngine with delta := { refundEngine.delta with maxGas := 120 } }

def twoCreationsRun : FrameRun Nat where
  req := refundRequest
  before := twoCreationsEngine
  prog := ⟨[twoCreations], ∅⟩
  entry := twoCreations
  frame := _
  start := _
  ctx := _
  enters := rfl
  entry_eq := rfl
  context := rfl

theorem twoCreations_returning_nothing :
    twoCreationsRun.NoGasCreated (returningHost 0) 9 := by
  refine (FrameRun.noGasCreated_iff (returningHost_givesFramesBack 0) (by decide)).mpr ?_
  rintro res e ⟨op, m, left, path, site, m1, -, -, -, hext⟩ -
  cases hext
  exact .inl rfl

/-- The second creation finds 150 gas and is refused, though the entry gas would do. -/
theorem twoCreations_gas_created :
    ∃ m left path, twoCreationsRun.Executes (returningHost 50) 9 .CREATE m left path ∧
      twoCreationsRun.entryGas = 100 ∧ twoCreationsRun.gas m.engine = 150 ∧
      (execution (returningHost 50) (executeFunc (returningHost 50) left) .CREATE m).toOption.map
        Prod.fst = some ([], some .outOfGas) ∧
      ¬ m.engine.delta.maxGas < creationGas m.engine.config.isEIP150 100 ∧
      ¬ twoCreationsRun.NoGasCreated (returningHost 50) 9 := by
  obtain ⟨m, hm⟩ : ∃ m : Machine (EvmState Nat),
      twoCreationsRun.Executes (returningHost 50) 9 .CREATE m 7 [] ∧
        twoCreationsRun.gas m.engine = 150 ∧
        (execution (returningHost 50) (executeFunc (returningHost 50) 7) .CREATE m).toOption.map
          Prod.fst = some ([], some .outOfGas) ∧
        ¬ m.engine.delta.maxGas < creationGas m.engine.config.isEIP150 100 :=
    ⟨_, .later (by decide) rfl (.now (by decide) ⟨⟨_, rfl, rfl⟩, rfl⟩), rfl, rfl, by decide⟩
  obtain ⟨hx, hgas, hrefused, hmax⟩ := hm
  refine ⟨m, 7, [], hx, rfl, hgas, hrefused, hmax, fun h => ?_⟩
  have hle := (h .CREATE m 7 [] hx).1
  rw [hgas] at hle
  exact absurd hle (by decide)

end EtherVal.Vm
