import EtherVal.Vm.Executes

/-!
# The gas forwarded by the four calls

The gas operand is cut to 64 bits before the stipend is added, and only then compared with the
limit.
-/

namespace EtherVal.Vm
open EtherVal.Lib EtherVal.TacParser Exec

variable {σ : Type}

def askWith (kind : CallKind) (host : Host σ) (ops : CallOperands) :
    Exec σ (Except Ret (CallSite σ)) :=
  admitCall kind host ops >>= asked kind

def ExternalCall.gas : ExternalCall → Nat
  | .call _ _ gas _ | .callCode _ _ gas _ | .delegateCall _ _ gas | .staticCall _ _ gas
  | .create _ gas _ | .create2 _ gas _ _ => gas

def Forwards (kind : CallKind) (host : Host σ) (ops : CallOperands) (m : Machine σ) (h : Nat) :
    Prop :=
  ∃ site m', askWith kind host ops m = .ok (.ok site, m') ∧ site.call.gas = h

def Admitted (kind : CallKind) (ops : CallOperands) (m : Machine σ) : Prop :=
  ∃ args m1 m2, memoryRange ops.argsOffset ops.argsSize m = .ok (.ok args, m1) ∧
    ¬ (kind = .call ∧ m1.engine.readOnly ∧ ops.value ≠ 0) ∧
    checkDeviation kind.name (callDeviates (Uint256.bytes20 ops.addr)) m1 = .ok ((), m2)

variable {m : Machine σ}

theorem memoryRange_delta {o n : Nat} {r : Except VmError Bytes} {m1 : Machine σ}
    (h : memoryRange o n m = .ok (r, m1)) : m1.engine.delta = m.engine.delta := by
  unfold memoryRange onMemory at h
  have h := Exec.val_bind h
  have h := Exec.val_bind h
  have h := Exec.get_bind h
  obtain ⟨_, -, h⟩ := Exec.read_bind h
  obtain ⟨_, -, h⟩ := Exec.read_bind h
  have h := Exec.modify_bind h
  obtain ⟨-, rfl⟩ := pure_eq_ok.mp h
  rfl

theorem toExternal_gas (kind : CallKind) (addr : Address) (args : Bytes) (gas : Nat)
    (value : Word) : (kind.toExternal addr args gas value).gas = gas := by
  cases kind <;> rfl

variable {kind : CallKind} {host : Host σ} {ops : CallOperands}

theorem forwards_iff {h : Nat} : Forwards kind host ops m h ↔ Admitted kind ops m ∧
      forwardedGas ops.value ops.gas ≤ m.engine.delta.maxGas ∧
      h = forwardedGas ops.value ops.gas := by
  constructor
  · rintro ⟨site, m', hask, hgas⟩
    obtain ⟨r, m0, hadmit, hask⟩ := bind_eq_ok.mp hask
    obtain ⟨range, m1, hrange, hadmit⟩ := bind_eq_ok.mp hadmit
    cases range with
    | error e =>
      obtain ⟨rfl, -⟩ := pure_eq_ok.mp hadmit
      cases (pure_eq_ok.mp hask).1
    | ok args =>
      have hadmit := Exec.get_bind hadmit
      split at hadmit
      · obtain ⟨rfl, -⟩ := pure_eq_ok.mp hadmit
        cases (pure_eq_ok.mp hask).1
      · next hwrite =>
        have hadmit := Exec.get_bind hadmit
        split at hadmit
        · obtain ⟨rfl, -⟩ := pure_eq_ok.mp hadmit
          cases (pure_eq_ok.mp hask).1
        · next hlimit =>
          obtain ⟨rfl, rfl⟩ := pure_eq_ok.mp hadmit
          obtain ⟨_, m2, hcheck, hask⟩ := bind_eq_ok.mp hask
          obtain rfl := Except.ok.inj (pure_eq_ok.mp hask).1
          rw [memoryRange_delta hrange] at hlimit
          rw [toExternal_gas] at hgas
          exact ⟨⟨args, _, m2, hrange, hwrite, hcheck⟩, by omega, hgas.symm⟩
  · rintro ⟨⟨args, m1, m2, hrange, hwrite, hcheck⟩, hlimit, rfl⟩
    refine ⟨⟨kind.toExternal (Uint256.bytes20 ops.addr) args
      (forwardedGas ops.value ops.gas) ops.value,
      finishCall host (Uint256.bytes20 ops.addr) ops.success ops.retOffset ops.retSize
        (8 + if kind.hasValue then 1 else 0)⟩, m2, ?_, toExternal_gas ..⟩
    unfold askWith admitCall
    rw [bind_assoc, bind_of_ok hrange]
    dsimp only
    rw [bind_assoc, bind_of_ok (get_eq_ok.mpr ⟨rfl, rfl⟩), if_neg hwrite, bind_assoc,
      bind_of_ok (get_eq_ok.mpr ⟨rfl, rfl⟩), memoryRange_delta hrange, if_neg (by omega),
      pure_bind, asked, bind_of_ok hcheck]
    rfl

def stipendOf (value : Word) : Nat := if value ≠ 0 then callStipend else 0

theorem forwardedGas_eq (value gas : Word) :
    forwardedGas value gas = (gas.toNat + stipendOf value) % 2 ^ 64 := by
  unfold forwardedGas stipendOf Uint256.uint64 uint64Mod
  split
  · rw [Nat.mod_add_mod]
  · rfl

theorem stipendOf_lt (value : Word) : stipendOf value < 2 ^ 64 := by
  unfold stipendOf callStipend
  split <;> norm_num

def GasMonotone (kind : CallKind) (host : Host σ) (ops : CallOperands) (m : Machine σ)
    (bound : Word) : Prop :=
  ∀ g1 g2 : Word, g1 ≤ g2 → g2 ≤ bound → ∀ h2, Forwards kind host { ops with gas := g2 } m h2 →
    (∃ h1 ≤ h2, Forwards kind host { ops with gas := g1 } m h1) ∧
      min g2.toNat m.engine.delta.maxGas ≤ h2

theorem gasMonotone_of_le {bound : Word} (hb : bound.toNat + stipendOf ops.value < 2 ^ 64) :
    GasMonotone kind host ops m bound := by
  intro g1 g2 h12 h2b h2 hfwd
  obtain ⟨hadm, hlimit, rfl⟩ := forwards_iff.mp hfwd
  dsimp only at hlimit ⊢
  rw [BitVec.le_def] at h12 h2b
  rw [forwardedGas_eq, Nat.mod_eq_of_lt (by omega)] at hlimit ⊢
  refine ⟨⟨g1.toNat + stipendOf ops.value, by omega, forwards_iff.mpr ⟨hadm, ?_, ?_⟩⟩, by omega⟩
  · dsimp only
    rw [forwardedGas_eq, Nat.mod_eq_of_lt (by omega)]
    omega
  · dsimp only
    rw [forwardedGas_eq, Nat.mod_eq_of_lt (by omega)]

def wrapGas (value : Word) : Word := BitVec.ofNat 256 (2 ^ 64 - stipendOf value)

theorem wrapGas_toNat (value : Word) : (wrapGas value).toNat = 2 ^ 64 - stipendOf value := by
  unfold wrapGas
  rw [BitVec.toNat_ofNat]
  exact Nat.mod_eq_of_lt (by omega)

/-- A call whose operand makes the sum wrap around forwards nothing, where a smaller operand
forwards something or is refused. -/
theorem not_gasMonotone {bound : Word} (hadm : Admitted kind ops m)
    (hb : 2 ^ 64 ≤ bound.toNat + stipendOf ops.value) : ¬ GasMonotone kind host ops m bound := by
  intro h
  have hst := stipendOf_lt ops.value
  have hwrap := wrapGas_toNat ops.value
  have hzero : forwardedGas ops.value (wrapGas ops.value) = 0 := by
    rw [forwardedGas_eq, hwrap, Nat.sub_add_cancel (by omega), Nat.mod_self]
  have hfwd : Forwards kind host { ops with gas := wrapGas ops.value } m 0 :=
    forwards_iff.mpr ⟨hadm, by dsimp only; omega, hzero.symm⟩
  have hle : wrapGas ops.value ≤ bound := by
    rw [BitVec.le_def]
    omega
  have hone : (1 : Word) ≤ wrapGas ops.value := by
    rw [BitVec.le_def, hwrap]
    have h1 : (1 : Word).toNat = 1 := rfl
    omega
  obtain ⟨⟨h1, hle1, hfwd1⟩, -⟩ := h 1 (wrapGas ops.value) hone hle 0 hfwd
  obtain ⟨-, -, heq⟩ := forwards_iff.mp hfwd1
  dsimp only at heq
  rw [forwardedGas_eq] at heq
  have hsmall : stipendOf ops.value ≤ 2300 := by
    unfold stipendOf callStipend
    split <;> omega
  have h1nat : (1 : Word).toNat = 1 := rfl
  rw [Nat.mod_eq_of_lt (by omega)] at heq
  omega

/-- The forwarded gas follows the operand exactly up to where operand and stipend fit 64 bits, in
every state in which the call gets to the EVM at all. -/
theorem gasMonotone_iff (kind : CallKind) (host : Host σ) (ops : CallOperands) (m : Machine σ)
    (bound : Word) : GasMonotone kind host ops m bound ↔
      bound.toNat + stipendOf ops.value < 2 ^ 64 ∨
        ∀ g ≤ bound, ∀ h, ¬ Forwards kind host { ops with gas := g } m h := by
  constructor
  · intro h
    by_cases hb : bound.toNat + stipendOf ops.value < 2 ^ 64
    · exact .inl hb
    · right
      intro g _ h2 hfwd
      have hadm : Admitted kind ops m := (forwards_iff.mp hfwd).1
      exact not_gasMonotone hadm (by omega) h
  · rintro (hb | hnone)
    · exact gasMonotone_of_le hb
    · intro g1 g2 _ hle h2 hfwd
      exact absurd hfwd (hnone g2 hle h2)

def callMachine : Machine Unit where
  pc := 0
  engine := { (default : TACInterpreter Unit) with
    frames := [{ (default : TACFrame) with memory := ⟨[], 0⟩ }]
    delta := { (default : DeltaSemantics) with maxGas := 1000 } }
  ctx := { registers := [{}], function := { insts := [] } }

/-- With a gas operand of 2^64, `STATICCALL` forwards nothing. -/
theorem staticcall_wraps_around :
    ¬ GasMonotone .staticcall default ⟨0, 0, 0, 0, 0, 0, 0, 0⟩ callMachine 0x10000000000000000 := by
  refine not_gasMonotone ⟨[], callMachine, callMachine, rfl, ?_, rfl⟩ (by decide)
  rintro ⟨hkind, -⟩
  cases hkind

end EtherVal.Vm
