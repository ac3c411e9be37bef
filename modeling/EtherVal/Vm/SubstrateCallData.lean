import EtherVal.Lib.ZeroPad
import EtherVal.Vm.MemoryRefinement

/-!
# Call data in the Substrate interpreter

`SubstrateInterpreter.Run` pads a short input to a word.  The expressions `msg.data[i]` and
`msg.data.length` and the intrinsic `CALLDATACOPY` read the padded input; the opcodes of the EVM
read the input itself and take zeros past its end.
-/

namespace EtherVal.Vm
open EtherVal.Lib List
open Uint256 (uint64WithOverflow uint64 setBytes)

variable {o n d : Word} {size : Nat} {value : Bytes}

def substratePanic (depth : Nat) (msg : GoString) : GoPanic :=
  .text (msg ++ " (calldepth: ".toList ++ Nat.toDigits 10 depth ++ [')'])

/-- `contract.Input` during a run (`substrate_interpreter.go:240`). -/
def paddedInput (input : Bytes) : Bytes :=
  if input.length ≠ 0 ∧ input.length < 32 then input ++ List.replicate (32 - input.length) 0
  else input

def msgDataAt (msgData : Bytes) (i : Word) : Except GoPanic Word := do
  let index := uint64 i
  let last := (index + 32) % uint64Mod
  let last := if msgData.length < last then msgData.length else last
  let (index, last) := if msgData.length < index then (0, 0) else (index, last)
  return setBytes (← slice msgData index last)

def msgDataLength (msgData : Bytes) : Word := Uint256.setUint64 msgData.length

def makeBytes (n : Nat) : Except GoPanic Bytes :=
  if n < 2 ^ 63 then .ok (List.replicate n 0)
  else .error (.text "runtime error: makeslice: len out of range".toList)

def calldatacopyBytes (depth : Nat) (msgData : Bytes) (offset size : Nat) : Except GoPanic Bytes :=
  if msgData.length < (offset + size) % uint64Mod then
    if msgData.length = offset then makeBytes size
    else .error (substratePanic depth "Invalid calldata size to load".toList)
  else slice msgData offset ((offset + size) % uint64Mod : Nat)

structure MemAccess where
  length : Option Word := none
  deriving DecidableEq, Repr

/-- The intrinsic `CALLDATACOPY` (`substrate_interpreter.go:571`); `acc` is the memory variable
that the destination names. -/
def intrinsicCalldatacopy (depth maxGas : Nat) (msgData : Bytes) (mem : Memory)
    (acc : Option MemAccess) (exprs : List Word) : Except GoPanic (Memory × Option MemAccess) :=
  match exprs with
  | [dest, offset, size] => do
    let copydata ← calldatacopyBytes depth msgData (uint64 offset) (uint64 size)
    let acc := acc.map fun a => if a.length = none then { a with length := some size } else a
    match ← mem.extSet (uint64 dest) (uint64 size) copydata maxGas with
    | (.error e, _) => throw (substratePanic depth e.text)
    | (.ok _, mem) => return (mem, acc)
  | _ => .error (substratePanic depth "Wrong number of arguments in CALLDATACOPY".toList)

namespace EvmScope

def opCallDataLoad (s : EvmScope) (stack : Stack) : Except GoPanic Word := do
  let (offset, overflow) := uint64WithOverflow (stack.back 0)
  if overflow then return Uint256.clear
  else return setBytes (← getData s.contract.input offset 32)

def opCallDataSize (s : EvmScope) : Word := Uint256.setUint64 s.contract.input.length

end EvmScope

section
variable {input : Bytes} (hlen : input.length < 2 ^ 63)

theorem paddedInput_eq (input : Bytes) : ∃ k, paddedInput input = input ++ List.replicate k 0 := by
  unfold paddedInput
  split
  · exact ⟨_, rfl⟩
  · exact ⟨0, by simp⟩

@[simp] theorem byteAt_paddedInput (input : Bytes) (p : Nat) :
    byteAt (paddedInput input) p = byteAt input p := by
  obtain ⟨k, hk⟩ := paddedInput_eq input
  rw [hk, byteAt_append_zeros]

@[simp] theorem readAt_paddedInput (input : Bytes) (o n : Nat) :
    readAt (paddedInput input) o n = readAt input o n := by
  simp only [readAt, byteAt_paddedInput]

@[simp] theorem zeroAt_paddedInput {input : Bytes} {o n : Nat} :
    ZeroAt (paddedInput input) o n ↔ ZeroAt input o n := by
  simp only [ZeroAt, byteAt_paddedInput]

include hlen in
theorem length_paddedInput_lt : (paddedInput input).length < 2 ^ 63 := by
  unfold paddedInput
  split
  · simp
    omega
  · exact hlen

theorem length_paddedInput_iff :
    (paddedInput input).length = input.length ↔ ¬ (0 < input.length ∧ input.length < 32) := by
  unfold paddedInput
  split
  · simp
    omega
  · simp
    omega

theorem setUint64_inj {a b : Nat} (ha : a < 2 ^ 63) (hb : b < 2 ^ 63) :
    Uint256.setUint64 a = Uint256.setUint64 b ↔ a = b := by
  rw [← BitVec.toNat_inj, Uint256.setUint64, Uint256.setUint64, BitVec.toNat_ofNat,
    BitVec.toNat_ofNat, Nat.mod_eq_of_lt (by omega), Nat.mod_eq_of_lt (by omega)]

theorem setBytes_inj {a b : Bytes} (ha : a.length ≤ 32) (hb : b.length ≤ 32) :
    setBytes a = setBytes b ↔ beVal a = beVal b := by
  have hword : ∀ {c : Bytes}, c.length ≤ 32 → beVal c < 2 ^ 256 := by
    intro c hc
    calc beVal c < 256 ^ c.length := beVal_lt c
      _ ≤ 256 ^ 32 := Nat.pow_le_pow_right (by decide) hc
      _ = 2 ^ 256 := by norm_num
  have hval : ∀ {c : Bytes}, c.length ≤ 32 → (setBytes c).toNat = beVal c := by
    intro c hc
    rw [setBytes, BitVec.toNat_ofNat]
    exact Nat.mod_eq_of_lt (hword hc)
  rw [← BitVec.toNat_inj, hval ha, hval hb]

theorem getData_readAt {data : Bytes} (hdata : data.length < 2 ^ 63) (start : Nat)
    (hsize : size ≤ maxMemorySize) : getData data start size = .ok (readAt data start size) := by
  have hno : min start data.length + size < uint64Mod := by
    unfold maxMemorySize at hsize
    unfold uint64Mod
    omega
  unfold getData
  dsimp only
  rw [Nat.mod_eq_of_lt hno]
  unfold slice
  rw [if_pos ⟨by omega, by omega, by omega⟩]
  refine congrArg Except.ok ?_
  have htaken : (data.take (min (min start data.length + size) data.length)).drop
      (min start data.length) = (data.drop start).take size := by
    by_cases hstart : start ≤ data.length
    · rw [min_eq_left hstart, drop_take, take_eq_take_iff, length_drop]
      omega
    · have hend : data.length ≤ start := by omega
      rw [min_eq_right hend, drop_take, drop_of_length_le hend,
        drop_of_length_le (Nat.le_refl _), take_nil, take_nil]
  have hpad : size - ((data.drop start).take size).length = size - (data.length - start) := by
    simp only [length_take, length_drop]
    omega
  rw [Int.toNat_natCast, Int.toNat_natCast, htaken, rightPadBytes, readAt_eq_append, hpad]

/-! ### `msg.data[i]` -/

include hlen in
theorem msgDataAt_eq (i : Word) :
    msgDataAt (paddedInput input) i =
      .ok (setBytes (((paddedInput input).drop (uint64 i)).take 32)) := by
  have hmsg := length_paddedInput_lt hlen
  generalize paddedInput input = msgData at hmsg ⊢
  have hi : uint64 i < uint64Mod := Nat.mod_lt _ (by decide)
  have hslice : ∀ {low high : Nat}, low ≤ high → high ≤ msgData.length →
      slice msgData low high = .ok ((msgData.drop low).take (high - low)) := by
    intro low high hle hhigh
    rw [slice, if_pos ⟨by omega, by omega, by omega⟩, Int.toNat_natCast, Int.toNat_natCast,
      drop_take]
  unfold msgDataAt
  by_cases hpast : msgData.length < uint64 i
  · simp only [if_pos hpast]
    rw [drop_of_length_le (by omega), take_nil]
    exact congrArg (setBytes <$> ·) (hslice (Nat.le_refl 0) (Nat.zero_le _))
  · have hnowrap : (uint64 i + 32) % uint64Mod = uint64 i + 32 :=
      Nat.mod_eq_of_lt (by unfold uint64Mod; omega)
    simp only [if_neg hpast, hnowrap]
    split
    · rw [hslice (by omega) (Nat.le_refl _), take_of_length_le (by simp),
        take_of_length_le (by simp; omega)]
      rfl
    · rw [hslice (by omega) (by omega), Nat.add_sub_cancel_left]
      rfl

include hlen in
theorem opCallDataLoad_eq {s : EvmScope} (hs : s.contract.input = input) (i : Word) :
    s.opCallDataLoad [i] = .ok (setBytes (readAt input i.toNat 32)) := by
  unfold EvmScope.opCallDataLoad
  simp only [Stack.back_zero, hs, uint64WithOverflow]
  split
  · next hover =>
    have hpast : input.length ≤ i.toNat := by
      have : uint64Mod ≤ i.toNat := of_decide_eq_true hover
      unfold uint64Mod at this
      omega
    rw [readAt_past_end _ hpast]
    rfl
  · next hover =>
    have hlt : i.toNat < uint64Mod := Nat.lt_of_not_le fun h => hover (decide_eq_true h)
    rw [getData_readAt hlen _ (by decide), uint64, Nat.mod_eq_of_lt hlt]
    rfl

def LoadCondition (input : Bytes) (i : Word) : Prop :=
  i.toNat + 32 ≤ (paddedInput input).length ∨ ZeroAt input (uint64 i) 32

include hlen in
theorem beVal_read_iff (i : Word) :
    beVal (((paddedInput input).drop (uint64 i)).take 32) = beVal (readAt input i.toNat 32) ↔
      LoadCondition input i := by
  have hmsg := length_paddedInput_lt hlen
  have hzero : beVal (((paddedInput input).drop (uint64 i)).take 32) = 0 ↔
      ZeroAt input (uint64 i) 32 := by
    rw [beVal_eq_zero_iff, ← zeroAt_iff_take, zeroAt_paddedInput]
  unfold LoadCondition
  by_cases hin : i.toNat + 32 ≤ (paddedInput input).length
  · have hlow : uint64 i = i.toNat := Nat.mod_eq_of_lt (by unfold uint64Mod; omega)
    rw [hlow, ← readAt_paddedInput, readAt_of_le hin]
    simp [hin]
  · rw [← hzero, or_iff_right hin, ← readAt_paddedInput]
    by_cases hhigh : uint64Mod ≤ i.toNat
    · have hpast : (paddedInput input).length ≤ i.toNat := by
        unfold uint64Mod at hhigh
        omega
      have hnone : beVal (readAt (paddedInput input) i.toNat 32) = 0 := by
        rw [readAt_past_end _ hpast]
        rfl
      rw [hnone]
    · have hlow : uint64 i = i.toNat := Nat.mod_eq_of_lt (by omega)
      rw [hlow, readAt_eq_append, beVal_append_zeros]
      have hmany : 1 < 256 ^ (32 - ((paddedInput input).length - i.toNat)) :=
        Nat.one_lt_pow (by omega) (by decide)
      constructor
      · intro h
        by_contra hpos
        have := lt_mul_of_one_lt_right (Nat.pos_of_ne_zero hpos) hmany
        omega
      · intro h
        rw [h, Nat.zero_mul]

/-! ### `CALLDATACOPY` -/

def Copyable (input : Bytes) (offset size : Nat) : Prop :=
  offset + size ≤ (paddedInput input).length ∨
    (offset = (paddedInput input).length ∧ size < 2 ^ 63)

def MemoryLimit (depth : Nat) (p : GoPanic) : Prop :=
  p = substratePanic depth VmError.outOfGas.text ∨
    p = substratePanic depth VmError.gasUintOverflow.text

theorem not_memoryLimit_text {depth : Nat} {c : Char} {msg : GoString} (ho : c ≠ 'o')
    (hg : c ≠ 'g') : ¬ MemoryLimit depth (.text (c :: msg)) := by
  rintro (h | h)
  · exact ho (List.cons.inj (GoPanic.text.inj h)).1
  · exact hg (List.cons.inj (GoPanic.text.inj h)).1

theorem not_memoryLimit_index {depth : Nat} : ¬ MemoryLimit depth .indexOutOfRange := by
  rintro (h | h) <;> cases h

include hlen in
theorem calldatacopyBytes_eq (depth : Nat) {offset : Nat} (h : Copyable input offset size) :
    calldatacopyBytes depth (paddedInput input) offset size = .ok (readAt input offset size) := by
  have hmsg := length_paddedInput_lt hlen
  have hno : (offset + size) % uint64Mod = offset + size := by
    apply Nat.mod_eq_of_lt
    unfold uint64Mod
    rcases h with h | h <;> omega
  unfold calldatacopyBytes
  rw [hno, ← readAt_paddedInput]
  by_cases hin : offset + size ≤ (paddedInput input).length
  · rw [if_neg (by omega), slice, if_pos ⟨by omega, by omega, by omega⟩, Int.toNat_natCast,
      Int.toNat_natCast, drop_take, Nat.add_sub_cancel_left, readAt_of_le hin]
  · obtain ⟨hend, hsize⟩ := h.resolve_left hin
    rw [if_pos (by omega), if_pos hend.symm, makeBytes, if_pos hsize, readAt_past_end _ (by omega)]

theorem calldatacopyBytes_panics (depth : Nat) {offset : Nat} (ho : offset < uint64Mod)
    (hs : size < uint64Mod) (h : ¬ Copyable input offset size) :
    ∃ p, calldatacopyBytes depth (paddedInput input) offset size = .error p ∧
      ¬ MemoryLimit depth p := by
  obtain ⟨hin, hend⟩ := not_or.mp h
  unfold calldatacopyBytes
  split
  · split
    · next hlarge hstart =>
      refine ⟨_, by rw [makeBytes, if_neg fun hsize => hend ⟨hstart.symm, hsize⟩], ?_⟩
      exact not_memoryLimit_text (by decide) (by decide)
    · exact ⟨_, rfl, not_memoryLimit_text (by decide) (by decide)⟩
  · next hsmall =>
    -- The sum wraps around, so the slice ends before it starts.
    have hwrap : uint64Mod ≤ offset + size := by
      by_contra hno
      rw [Nat.mod_eq_of_lt (by omega)] at hsmall
      omega
    have hlt : (offset + size) % uint64Mod < offset := by
      rw [Nat.mod_eq_sub_mod hwrap, Nat.mod_eq_of_lt (by omega)]
      omega
    refine ⟨.indexOutOfRange, ?_, not_memoryLimit_index⟩
    rw [slice, if_neg (by omega)]

end

namespace Memory
variable {m m' : Memory} {n maxGas : Nat}

theorem byteAt_written {d : Nat} {value : Bytes} (h : d + value.length ≤ m.len) (p : Nat) :
    byteAt (m.written d value).store p =
      if d ≤ p ∧ p < d + value.length then byteAt value (p - d) else byteAt m.store p := by
  unfold Memory.len at h
  have hd : (m.store.take d).length = d := by simp; omega
  unfold Memory.written byteAt
  dsimp only
  split
  · next hin =>
    rw [getD_append _ _ _ _ (by simp; omega), getD_append_right _ _ _ _ (by omega), hd]
  · next hout =>
    by_cases hlow : p < d
    · rw [append_assoc, getD_append _ _ _ _ (by omega)]
      simp [getD_eq_getElem?_getD, hlow]
    · have hhigh : d + value.length ≤ p := by omega
      rw [getD_append_right _ _ _ _ (by simp; omega)]
      simp only [getD_eq_getElem?_getD, getElem?_drop, length_append, hd]
      congr 2
      omega

theorem memoryGasCost_store {gas : Nat} (h : memoryGasCost m n = .ok (gas, m')) :
    m'.store = m.store := by
  unfold memoryGasCost at h
  split at h
  · rw [(Prod.mk.inj (Except.ok.inj h)).2]
  · split at h
    · cases h
    · dsimp only at h
      split at h <;> rw [← (Prod.mk.inj (Except.ok.inj h)).2]

theorem extResize_cases {r : Except VmError Unit} (h : m.extResize n maxGas = (r, m')) :
    (∃ e, r = .error e ∧ (e = .outOfGas ∨ e = .gasUintOverflow) ∧ m'.store = m.store) ∨
      (r = .ok () ∧ n ≤ maxMemorySize ∧
        m'.store = m.store ++ List.replicate (32 * wordsFor n - m.len) 0) := by
  by_cases hbound : n ≤ maxMemorySize
  · unfold extResize at h
    split at h
    · next e herr =>
      cases h
      unfold memoryGasCost at herr
      rw [if_neg (by omega : ¬ maxMemorySize < n)] at herr
      split at herr
      · cases herr
      · dsimp only at herr
        split at herr <;> cases herr
    · next gas m1 hcost =>
      have hstore := memoryGasCost_store hcost
      split at h
      · cases h
        exact .inl ⟨_, rfl, .inl rfl, hstore⟩
      · have hno : wordsFor n * 32 < uint64Mod := by
          have := wordsFor_le hbound
          unfold maxMemorySize at this
          unfold uint64Mod
          omega
        dsimp only [safeMul] at h
        rw [toWordSize_eq hbound, if_neg (by simpa using hno), Nat.mod_eq_of_lt hno] at h
        cases h
        refine .inr ⟨rfl, hbound, ?_⟩
        have hlen : m1.len = m.len := congrArg List.length hstore
        unfold resize
        rw [hlen, Nat.mul_comm, ← hstore]
        split
        · split
          · rfl
          · rw [Nat.sub_eq_zero_of_le (by omega)]
            simp
        · rw [Nat.sub_eq_zero_of_le (by omega)]
          simp
  · unfold extResize at h
    rw [memoryGasCost_of_lt (by omega)] at h
    cases h
    exact .inl ⟨_, rfl, .inr rfl, rfl⟩

theorem extResize_error {e : VmError} (h : m.extResize n maxGas = (.error e, m')) :
    e = .outOfGas ∨ e = .gasUintOverflow := by
  obtain ⟨e', heq, hcases, -⟩ | ⟨heq, -⟩ := extResize_cases h
  · exact Except.error.inj heq ▸ hcases
  · cases heq

theorem extResize_ok (h : m.extResize n maxGas = (.ok (), m')) :
    n ≤ maxMemorySize ∧ m'.len = max m.len (32 * wordsFor n) ∧
      ∀ p, byteAt m'.store p = byteAt m.store p := by
  obtain ⟨e, heq, -⟩ | ⟨-, hbound, hstore⟩ := extResize_cases h
  · cases heq
  · refine ⟨hbound, ?_, fun p => by rw [hstore, byteAt_append_zeros]⟩
    unfold len at *
    rw [hstore, length_append, length_replicate]
    omega

def Overwritten (m : Memory) (d : Nat) (value : Bytes) (m' : Memory) : Prop :=
  ∀ p, byteAt m'.store p =
    if d ≤ p ∧ p < d + value.length then byteAt value (p - d) else byteAt m.store p

def RefusesResize (m : Memory) (n maxGas : Nat) : Prop := (m.extResize n maxGas).1 ≠ .ok ()

theorem extSet_of_refused {d : Nat} (hn : n ≠ 0) (h : m.RefusesResize ((d + n) % uint64Mod) maxGas)
    :
    ∃ e m', m.extSet d n value maxGas = .ok (.error e, m') ∧
      (e = .outOfGas ∨ e = .gasUintOverflow) := by
  unfold extSet afterResize
  rw [if_pos (by omega)]
  cases hres : m.extResize ((d + n) % uint64Mod) maxGas with
  | mk r m' =>
    cases r with
    | ok u => exact absurd (by rw [hres]) h
    | error e => exact ⟨e, m', rfl, extResize_error hres⟩

theorem extSet_of_granted {d : Nat} (hn : n ≠ 0) (hvalue : value.length = n)
    (hno : d + n < uint64Mod) (h : ¬ m.RefusesResize ((d + n) % uint64Mod) maxGas) :
    d + n ≤ maxMemorySize ∧
      ∃ m', m.extSet d n value maxGas = .ok (.ok (), m') ∧ m.Overwritten d value m' := by
  obtain ⟨m1, hres⟩ : ∃ m1, m.extResize ((d + n) % uint64Mod) maxGas = (.ok (), m1) :=
    ⟨_, Prod.ext (not_not.mp h) rfl⟩
  obtain ⟨hbound, hlen, hbytes⟩ := extResize_ok hres
  replace hlen : (d + n) % uint64Mod ≤ m1.len := by
    have := le_wordsFor ((d + n) % uint64Mod)
    omega
  have hcopy : copyInto m1.store d ((d + n) % uint64Mod) value =
      .ok (m1.written d value).store := by
    rw [Nat.mod_eq_of_lt hno] at hlen ⊢
    exact Memory.copyInto_eq (by omega) (by omega) hlen
  rw [Nat.mod_eq_of_lt hno] at hbound hlen
  refine ⟨hbound, m1.written d value, ?_, fun p => ?_⟩
  · unfold extSet afterResize
    rw [if_pos (by omega), hres]
    dsimp only
    rw [hcopy]
    rfl
  · rw [byteAt_written (by omega) p, hbytes]

theorem extSet_of_wrapped {d : Nat} (hd : d < uint64Mod) (hn : n < uint64Mod)
    (hwrap : uint64Mod ≤ d + n) (h : ¬ m.RefusesResize ((d + n) % uint64Mod) maxGas) :
    m.extSet d n value maxGas = .error .indexOutOfRange := by
  obtain ⟨m1, hres⟩ : ∃ m1, m.extResize ((d + n) % uint64Mod) maxGas = (.ok (), m1) :=
    ⟨_, Prod.ext (not_not.mp h) rfl⟩
  have hshort : ¬ d ≤ (d + n) % uint64Mod := by
    rw [Nat.mod_eq_sub_mod hwrap, Nat.mod_eq_of_lt (by omega)]
    omega
  have hcopy : copyInto m1.store d ((d + n) % uint64Mod) value = .error .indexOutOfRange :=
    if_neg fun hle => hshort hle.1
  unfold extSet afterResize
  rw [if_pos (by omega), hres]
  dsimp only
  rw [hcopy]
  rfl

end Memory

section
variable {s : EvmScope}

theorem readAt_copyStart {data : Bytes} (hdata : data.length < 2 ^ 63) (o : Word) (n : Nat) :
    readAt data (copyStart o) n = readAt data o.toNat n := by
  by_cases ho : uint64Mod ≤ o.toNat
  · have hstart : copyStart o = maxUint64 := if_pos (decide_eq_true ho)
    have hmax : data.length ≤ maxUint64 := by unfold maxUint64; omega
    have hpast : data.length ≤ o.toNat := by unfold uint64Mod at ho; omega
    rw [hstart, readAt_past_end _ hmax, readAt_past_end _ hpast]
  · have hstart : copyStart o = uint64 o := if_neg fun h => ho (of_decide_eq_true h)
    rw [hstart, uint64, Nat.mod_eq_of_lt (by omega)]

theorem evm_calldatacopy_eq (hlen : s.contract.input.length < 2 ^ 63) (hpaid : s.memory.Paid)
    (h : needed (d.toNat, n.toNat) ≤ maxMemorySize) :
    ∃ out, evmRound .CALLDATACOPY s [d, o, n] = .ok out ∧ out.err = none ∧
      ∀ p, d.toNat ≤ p → p < d.toNat + n.toNat →
        byteAt out.memory.store p = byteAt s.contract.input (o.toNat + (p - d.toNat)) := by
  have hn : n.toNat ≤ maxMemorySize := by
    unfold needed at h
    split at h
    · next hzero => exact le_of_eq_of_le hzero (Nat.zero_le _)
    · dsimp only at h
      omega
  have hread : getData s.contract.input (copyStart o) (uint64 n) =
      .ok (readAt s.contract.input o.toNat n.toNat) := by
    rw [uint64_of_le hn, getData_readAt hlen _ hn, readAt_copyStart hlen]
  have hround : ∀ {mem}, (s.memory.grown (needed (d.toNat, n.toNat))).set (uint64 d)
      (uint64 n) (readAt s.contract.input o.toNat n.toNat) = .ok mem →
      evmRound .CALLDATACOPY s [d, o, n] = .ok { memory := mem } := by
    intro mem hset
    have hneed : needed (MemOp.CALLDATACOPY.span [d, o, n]) ≤ maxMemorySize := h
    refine (evmRound_eq hpaid hneed).trans ?_
    exact bind_ok_iff.mpr ⟨_, hread, bind_ok_iff.mpr ⟨mem, hset, rfl⟩⟩
  by_cases hzero : n.toNat = 0
  · have hnone : ¬ 0 < uint64 n := by
      rw [uint64_of_le hn]
      omega
    refine ⟨_, hround (if_neg hnone), rfl, ?_⟩
    intro p hp hlt
    omega
  · have hneed : needed (d.toNat, n.toNat) = d.toNat + n.toNat := if_neg hzero
    have hgrown := s.memory.le_len_grown (d.toNat + n.toNat)
    rw [hneed] at h hround
    have hset := set_written hgrown h (length_readAt s.contract.input o.toNat n.toNat)
    rw [if_neg hzero] at hset
    refine ⟨_, hround hset, rfl, ?_⟩
    intro p hp hlt
    dsimp only
    rw [Memory.byteAt_written (by simpa using hgrown), if_pos (by simp; omega),
      byteAt_readAt (by omega)]

def WritesAsEvm (s : EvmScope) (mem mem' : Memory) (d o n : Word) : Prop :=
  ∃ out, evmRound .CALLDATACOPY s [d, o, n] = .ok out ∧ out.err = none ∧
    ∀ p, byteAt mem'.store p =
      if d.toNat ≤ p ∧ p < d.toNat + n.toNat then byteAt out.memory.store p
      else byteAt mem.store p

def CopiesAsEvm (s : EvmScope) (depth maxGas : Nat) (mem : Memory) (acc : Option MemAccess)
    (d o n : Word) : Prop :=
  match (intrinsicCalldatacopy depth maxGas (paddedInput s.contract.input) mem acc
    [d, o, n]).map Prod.fst with
  | .error p => MemoryLimit depth p
  | .ok mem' => WritesAsEvm s mem mem' d o n

/-- The bytes are there to copy, and the memory may not grow, there are none, or the destination
is in reach of the EVM and the offset is not cut to other bytes than zeros. -/
def CalldatacopyCondition (input : Bytes) (maxGas : Nat) (mem : Memory) (d o n : Word) : Prop :=
  Copyable input (uint64 o) (uint64 n) ∧
    ((uint64 n ≠ 0 ∧
        mem.RefusesResize ((uint64 d + uint64 n) % uint64Mod) maxGas) ∨
      n = 0 ∨
      (d.toNat + n.toNat ≤ maxMemorySize ∧
        (o.toNat < uint64Mod ∨ ZeroAt input (uint64 o) n.toNat)))

theorem evm_calldatacopy_fails (h : maxMemorySize < needed (d.toNat, n.toNat)) :
    ∀ out, evmRound .CALLDATACOPY s [d, o, n] = .ok out → out.err ≠ none := by
  intro out hout
  have hneed : maxMemorySize < needed (MemOp.CALLDATACOPY.span [d, o, n]) := h
  obtain ⟨e, he, -⟩ := evmRound_large (s := s) hneed
  rw [he] at hout
  cases hout
  exact Option.some_ne_none e

theorem readAt_cut_iff {input : Bytes} (hlen : input.length < 2 ^ 63) {n : Nat} :
    (∀ j < n, byteAt input (uint64 o + j) = byteAt input (o.toNat + j)) ↔
      o.toNat < uint64Mod ∨ ZeroAt input (uint64 o) n := by
  by_cases ho : o.toNat < uint64Mod
  · have hcut : uint64 o = o.toNat := Nat.mod_eq_of_lt ho
    rw [hcut]
    simp [ho]
  · rw [or_iff_right ho]
    have hpast : ∀ j, byteAt input (o.toNat + j) = 0 := by
      intro j
      apply byteAt_of_le
      unfold uint64Mod at ho
      omega
    constructor
    · intro h p hp hlt
      have hj := h (p - uint64 o) (by omega)
      rwa [hpast, Nat.add_sub_cancel' hp] at hj
    · intro h j hj
      rw [hpast]
      exact h _ (by omega) (by omega)

theorem intrinsicCalldatacopy_eq (hlen : s.contract.input.length < 2 ^ 63) (depth maxGas : Nat)
    (mem : Memory) (acc : Option MemAccess) (d : Word)
    (hcopy : Copyable s.contract.input (uint64 o) (uint64 n)) :
    (intrinsicCalldatacopy depth maxGas (paddedInput s.contract.input) mem acc [d, o, n]).map
        Prod.fst =
      match mem.extSet (uint64 d) (uint64 n)
        (readAt s.contract.input (uint64 o) (uint64 n)) maxGas with
      | .error p => .error p
      | .ok (.error e, _) => .error (substratePanic depth e.text)
      | .ok (.ok _, mem') => .ok mem' := by
  unfold intrinsicCalldatacopy
  dsimp only
  rw [calldatacopyBytes_eq hlen depth hcopy]
  simp only [bind, Except.bind]
  rcases mem.extSet (uint64 d) (uint64 n)
    (readAt s.contract.input (uint64 o) (uint64 n)) maxGas with p | ⟨e | u, mem'⟩
  · rfl
  · rfl
  · rfl

theorem writesAsEvm_self_iff (hlen : s.contract.input.length < 2 ^ 63) (hpaid : s.memory.Paid)
    {mem : Memory} (hnone : uint64 n = 0) :
    WritesAsEvm s mem mem d o n ↔ n.toNat = 0 := by
  constructor
  · rintro ⟨out, hout, herr, -⟩
    by_contra hn
    -- The length is a multiple of 2^64, so the opcode fails.
    have hlarge : maxMemorySize < d.toNat + n.toNat := by
      by_contra hsmall
      have hlt : n.toNat < uint64Mod := by
        have : maxMemorySize < uint64Mod := by decide
        omega
      exact hn ((Nat.mod_eq_of_lt hlt).symm.trans hnone)
    exact evm_calldatacopy_fails (by rw [needed, if_neg hn]; exact hlarge) out hout herr
  · intro hn
    have hneed : needed (d.toNat, n.toNat) ≤ maxMemorySize := by
      rw [needed, if_pos hn]
      exact Nat.zero_le _
    obtain ⟨out, hout, herr, -⟩ := evm_calldatacopy_eq hlen hpaid hneed
    refine ⟨out, hout, herr, fun p => ?_⟩
    rw [if_neg (by omega)]

theorem writesAsEvm_iff (hlen : s.contract.input.length < 2 ^ 63) (hpaid : s.memory.Paid)
    {mem mem' : Memory} (hn : n.toNat ≠ 0)
    (hover : mem.Overwritten (uint64 d) (readAt s.contract.input (uint64 o) (uint64 n)) mem') :
    WritesAsEvm s mem mem' d o n ↔ d.toNat + n.toNat ≤ maxMemorySize ∧
      (o.toNat < uint64Mod ∨ ZeroAt s.contract.input (uint64 o) n.toNat) := by
  have hneed : needed (d.toNat, n.toNat) = d.toNat + n.toNat := if_neg hn
  by_cases hsmall : d.toNat + n.toNat ≤ maxMemorySize
  · obtain ⟨out, hout, herr, hbytes⟩ := evm_calldatacopy_eq (o := o) hlen hpaid (hneed ▸ hsmall)
    have hd : uint64 d = d.toNat := uint64_of_le (by omega)
    have hn : uint64 n = n.toNat := uint64_of_le (by omega)
    rw [hd, hn] at hover
    rw [and_iff_right hsmall, ← readAt_cut_iff hlen]
    have hread : ∀ p, d.toNat ≤ p → p < d.toNat + n.toNat →
        byteAt mem'.store p = byteAt s.contract.input (uint64 o + (p - d.toNat)) := by
      intro p hp hlt
      rw [hover p, length_readAt, if_pos ⟨hp, hlt⟩, byteAt_readAt (by omega)]
    constructor
    · rintro ⟨out', hout', -, hsame⟩ j hj
      cases hout.symm.trans hout'
      have hp := hsame (d.toNat + j)
      rw [if_pos ⟨by omega, by omega⟩, hread _ (by omega) (by omega),
        hbytes _ (by omega) (by omega), Nat.add_sub_cancel_left] at hp
      exact hp
    · intro hsame
      refine ⟨out, hout, herr, fun p => ?_⟩
      split
      · next hin => rw [hread p hin.1 hin.2, hbytes p hin.1 hin.2, hsame _ (by omega)]
      · next hout => rw [hover p, length_readAt, if_neg hout]
  · refine iff_of_false ?_ fun h => hsmall h.1
    rintro ⟨out, hout, herr, -⟩
    exact evm_calldatacopy_fails (by omega) out hout herr

theorem copiesAsEvm_iff (hlen : s.contract.input.length < 2 ^ 63) (hpaid : s.memory.Paid)
    (depth maxGas : Nat) (mem : Memory) (acc : Option MemAccess) (d o n : Word) :
    CopiesAsEvm s depth maxGas mem acc d o n ↔
      CalldatacopyCondition s.contract.input maxGas mem d o n := by
  have hd64 : uint64 d < uint64Mod := Nat.mod_lt _ (by decide)
  have ho64 : uint64 o < uint64Mod := Nat.mod_lt _ (by decide)
  have hn64 : uint64 n < uint64Mod := Nat.mod_lt _ (by decide)
  have hzero : n = 0 ↔ n.toNat = 0 := by simp [← BitVec.toNat_inj]
  have hbig : maxMemorySize < uint64Mod := by decide
  unfold CopiesAsEvm CalldatacopyCondition
  by_cases hcopy : Copyable s.contract.input (uint64 o) (uint64 n)
  · rw [intrinsicCalldatacopy_eq hlen depth maxGas mem acc d hcopy, and_iff_right hcopy]
    by_cases hnone : uint64 n = 0
    · rw [Memory.extSet, if_neg (by omega), or_iff_right fun h => h.1 hnone, hzero]
      refine (writesAsEvm_self_iff hlen hpaid hnone).trans (or_iff_left_of_imp fun h => ?_).symm
      exact (Nat.mod_eq_of_lt (by omega)).symm.trans hnone
    · have hn : n.toNat ≠ 0 := fun h => hnone (by rw [uint64, h]; rfl)
      by_cases hrefuse : mem.RefusesResize ((uint64 d + uint64 n) % uint64Mod) maxGas
      · obtain ⟨e, mem', hset, he⟩ := Memory.extSet_of_refused hnone hrefuse
        rw [hset]
        refine iff_of_true ?_ (.inl ⟨hnone, hrefuse⟩)
        rcases he with rfl | rfl
        · exact .inl rfl
        · exact .inr rfl
      · rw [or_iff_right fun h => hrefuse h.2, or_iff_right fun h => hn (hzero.mp h)]
        by_cases hwrap : uint64Mod ≤ uint64 d + uint64 n
        · have hd : uint64 d ≤ d.toNat := Nat.mod_le _ _
          have hn' : uint64 n ≤ n.toNat := Nat.mod_le _ _
          rw [Memory.extSet_of_wrapped hd64 hn64 hwrap hrefuse]
          exact iff_of_false not_memoryLimit_index (by omega)
        · obtain ⟨-, mem', hset, hover⟩ := Memory.extSet_of_granted hnone
            (length_readAt s.contract.input (uint64 o) (uint64 n)) (by omega) hrefuse
          rw [hset]
          exact writesAsEvm_iff hlen hpaid hn hover
  · obtain ⟨p, hp, hlimit⟩ := calldatacopyBytes_panics depth ho64 hn64 hcopy
    have hpanic : intrinsicCalldatacopy depth maxGas (paddedInput s.contract.input) mem acc
        [d, o, n] = .error p := by
      unfold intrinsicCalldatacopy
      dsimp only
      rw [hp]
      rfl
    rw [hpanic]
    exact iff_of_false hlimit fun h => hcopy h.1

structure SeesCallData (s : EvmScope) (depth maxGas : Nat) (mem : Memory) (acc : Option MemAccess)
    (i d o n : Word) : Prop where
  load : ∃ w, msgDataAt (paddedInput s.contract.input) i = .ok w ∧ s.opCallDataLoad [i] = .ok w
  size : msgDataLength (paddedInput s.contract.input) = s.opCallDataSize
  copy : CopiesAsEvm s depth maxGas mem acc d o n

theorem seesCallData_iff (hlen : s.contract.input.length < 2 ^ 63) (hpaid : s.memory.Paid)
    (depth maxGas : Nat) (mem : Memory) (acc : Option MemAccess) (i d o n : Word) :
    SeesCallData s depth maxGas mem acc i d o n ↔
      ¬ (0 < s.contract.input.length ∧ s.contract.input.length < 32) ∧
        LoadCondition s.contract.input i ∧
        CalldatacopyCondition s.contract.input maxGas mem d o n := by
  have hload : (∃ w, msgDataAt (paddedInput s.contract.input) i = .ok w ∧
      s.opCallDataLoad [i] = .ok w) ↔ LoadCondition s.contract.input i := by
    rw [msgDataAt_eq hlen, opCallDataLoad_eq hlen rfl, ← beVal_read_iff hlen,
      ← setBytes_inj (by simp) (by simp)]
    simp [eq_comm]
  have hsize : msgDataLength (paddedInput s.contract.input) = s.opCallDataSize ↔
      ¬ (0 < s.contract.input.length ∧ s.contract.input.length < 32) :=
    (setUint64_inj (length_paddedInput_lt hlen) hlen).trans length_paddedInput_iff
  have hcopy := copiesAsEvm_iff hlen hpaid depth maxGas mem acc d o n
  constructor
  · rintro ⟨h1, h2, h3⟩
    exact ⟨hsize.mp h2, hload.mp h1, hcopy.mp h3⟩
  · rintro ⟨h2, h1, h3⟩
    exact ⟨hload.mpr h1, hsize.mpr h2, hcopy.mpr h3⟩

def calledWith (input : Bytes) : EvmScope where
  memory := newMemory
  contract := ⟨0, 0, [], input, 0, 0⟩
  returnData := []
  readOnly := false
  blockNumber := 0
  getCode := fun _ => []
  keccak256 := fun _ => 0
  coldAccount := false

/-- The selector and one argument, copied to the free memory. -/
theorem seesCallData_one_argument :
    SeesCallData (calledWith (List.replicate 36 1)) 1 1000 newMemory none 4 0x80 4 32 := by
  refine (seesCallData_iff (by decide) Memory.paid_newMemory 1 1000 newMemory none 4 0x80 4 32).mpr
    ⟨by decide, .inl (by decide), .inl (by decide), .inr (.inr ⟨by decide, .inl (by decide)⟩)⟩

/-- A bare selector: its length is 32 instead of 4, the word at 2 has its bytes at the low end,
and a copy of two words panics. -/
theorem selector_not_seen :
    msgDataLength (paddedInput [1, 2, 3, 4]) ≠ (calledWith [1, 2, 3, 4]).opCallDataSize ∧
      (¬ ∃ w, msgDataAt (paddedInput [1, 2, 3, 4]) 2 = .ok w ∧
        (calledWith [1, 2, 3, 4]).opCallDataLoad [2] = .ok w) ∧
      ¬ CopiesAsEvm (calledWith [1, 2, 3, 4]) 1 1000 newMemory none 0 0 64 := by
  refine ⟨by decide, ?_, not_memoryLimit_text (by decide) (by decide)⟩
  rintro ⟨w, hmsg, hevm⟩
  exact absurd (hmsg.trans hevm.symm) (by decide)

end
end EtherVal.Vm
