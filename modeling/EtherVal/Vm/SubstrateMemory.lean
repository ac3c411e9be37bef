import EtherVal.Vm.SubstrateCallData

/-!
# The memory of a Substrate frame (`substrate_interpreter.go:250-279`, `806-827`, `954-981`)

A frame starts with 4096 bytes for which no fee has been paid.  From then on its memory grows by
whole words.
-/

namespace EtherVal.Vm
open EtherVal.Lib
open Uint256 (uint64 bytes32 setBytes)

variable {value : Bytes} {o high : Nat} {v : Word}

/-- `memory.Resize(4096)` and `MEM[0x40] = 0x80` -/
def frameMemory : Memory := (newMemory.resize 4096).written 64 (bytes32 0x80)

inductive MemoryOp where
  | set (offset size : Nat) (value : Bytes)
  | set32 (offset : Nat) (val : Word)
  | getPtr (offset size : Int)
  | freePtr (val : Word)

def MemoryOp.run (maxGas : Nat) (m : Memory) : MemoryOp → Except GoPanic Memory
  | .set offset size value => (m.extSet offset size value maxGas).map (·.2)
  | .set32 offset val => (m.extSet32 offset val maxGas).map (·.2)
  | .getPtr offset size => (m.extGetPtr offset size maxGas).map (·.2)
  | .freePtr val => m.set32 64 val

inductive FrameMemory (maxGas : Nat) : Memory → Prop
  | start : FrameMemory maxGas frameMemory
  | step {m m' : Memory} (op : MemoryOp) : FrameMemory maxGas m → op.run maxGas m = .ok m' →
      FrameMemory maxGas m'

structure Memory.Sized (m : Memory) : Prop where
  aligned : 32 ∣ m.len
  start : 4096 ≤ m.len
  bound : m.len ≤ maxMemorySize

namespace Memory
variable {α : Type} {m m' g : Memory} {n maxGas : Nat}

theorem Sized.of_len (h : m.Sized) (hlen : m'.len = m.len) : m'.Sized :=
  ⟨hlen ▸ h.aligned, hlen ▸ h.start, hlen ▸ h.bound⟩

theorem copyInto_inv {s s' : Bytes} {low : Nat} (h : copyInto s low high value = .ok s') :
    low ≤ high ∧ high ≤ s.length ∧ s' = s.take low ++ value.take (high - low) ++
      s.drop (low + (value.take (high - low)).length) := by
  unfold copyInto at h
  split at h
  · next hle => exact ⟨hle.1, hle.2, (Except.ok.inj h).symm⟩
  · cases h

theorem copyInto_length {s s' : Bytes} {low : Nat} (h : copyInto s low high value = .ok s') :
    s'.length = s.length := by
  obtain ⟨hlow, hhigh, rfl⟩ := copyInto_inv h
  simp only [List.length_append, List.length_take, List.length_drop]
  omega

theorem Sized.extResize {r : Except VmError Unit} (h : m.Sized)
    (hres : m.extResize n maxGas = (r, m')) : m'.Sized := by
  obtain ⟨e, -, -, hstore⟩ | ⟨rfl, -⟩ := extResize_cases hres
  · exact h.of_len (congrArg List.length hstore)
  · obtain ⟨hbound, hlen, -⟩ := extResize_ok hres
    have hwords := wordsFor_le hbound
    obtain ⟨haligned, hstart, hmax⟩ := h
    exact ⟨by omega, by omega, by omega⟩

theorem Sized.afterResize {access : Memory → Except GoPanic (α × Memory)} (h : m.Sized)
    (hacc : ∀ g a g', access g = .ok (a, g') → g'.len = g.len)
    (hok : (m.afterResize n maxGas access).map (·.2) = .ok m') : m'.Sized := by
  unfold Memory.afterResize at hok
  split at hok
  · next hres => exact Except.ok.inj hok ▸ h.extResize hres
  · next g hres =>
    cases hg : access g with
    | error p => rw [hg] at hok; cases hok
    | ok a =>
      rw [hg] at hok
      exact Except.ok.inj hok ▸ (h.extResize hres).of_len (hacc g a.1 a.2 hg)

theorem len_of_copied {u : Unit}
    (h : (do let store ← copyInto g.store o high value; return ((), { g with store })) =
      (.ok (u, m') : Except GoPanic (Unit × Memory))) : m'.len = g.len := by
  cases hcopy : copyInto g.store o high value with
  | error p => rw [hcopy] at h; cases h
  | ok s =>
    rw [hcopy] at h
    cases h
    exact copyInto_length hcopy

end Memory

theorem len_frameMemory : frameMemory.len = 4096 := by decide +kernel

theorem sized_frameMemory : frameMemory.Sized :=
  ⟨by rw [len_frameMemory]; decide, len_frameMemory.ge, by rw [len_frameMemory]; decide⟩

theorem FrameMemory.sized {maxGas : Nat} {m : Memory} (h : FrameMemory maxGas m) : m.Sized := by
  induction h with
  | start => exact sized_frameMemory
  | @step m m' op _ hrun ih =>
    cases op with
    | set o n v =>
      simp only [MemoryOp.run, Memory.extSet] at hrun
      split at hrun
      · exact ih.afterResize (fun _ _ _ => Memory.len_of_copied) hrun
      · exact Except.ok.inj hrun ▸ ih
    | set32 o v => exact ih.afterResize (fun _ _ _ => Memory.len_of_copied) hrun
    | getPtr o n =>
      refine ih.afterResize (fun g a g' hg => ?_) hrun
      cases hptr : g.getPtr o n with
      | error p => rw [hptr] at hg; cases hg
      | ok b => rw [hptr] at hg; obtain ⟨-, rfl⟩ := Prod.mk.inj (Except.ok.inj hg); rfl
    | freePtr w =>
      simp only [MemoryOp.run, Memory.set32] at hrun
      split at hrun
      · cases hrun
      · cases hcopy : copyInto m.store 64 m.len (bytes32 w) with
        | error p => rw [hcopy] at hrun; cases hrun
        | ok s =>
          rw [hcopy] at hrun
          exact ih.of_len (Except.ok.inj hrun ▸ Memory.copyInto_length hcopy)

/-- The value of `ActAllocSize`: `MEM[o]`, `MEM[a len n]` or `MEM[a:b]`. -/
inductive MemSlice where
  | word (o : Word)
  | len (a n : Word)
  | to (a b : Word)

def MemSlice.window : MemSlice → Int × Int
  | .word o => (toInt64 (uint64 o), 32)
  | .len a n => (toInt64 (uint64 a), toInt64 (uint64 n))
  | .to a b => (toInt64 (uint64 a),
      toInt64 ((uint64 b + uint64Mod - uint64 a) % uint64Mod))

def getMem (m : Memory) (s : MemSlice) (maxGas : Nat) : MemResult Word :=
  (m.extGetPtr s.window.1 s.window.2 maxGas).map fun (r, m) => (r.map setBytes, m)

section
variable {m m' : Memory} {n maxGas : Nat}

theorem Memory.Sized.extResize_within (h : m.Sized) (hn : n ≤ m.len) :
    m.extResize n maxGas = (.ok (), m) := by
  obtain ⟨haligned, -, hmax⟩ := h
  have hwords : wordsFor n * 32 ≤ m.len := by
    unfold wordsFor
    omega
  have hcost : memoryGasCost m n = .ok (0, m) := by
    unfold memoryGasCost
    rw [toWordSize_eq (by omega)]
    split
    · rfl
    · rw [if_neg (by omega)]
      exact if_neg (by omega)
  have hno : wordsFor n * 32 < uint64Mod := by
    unfold maxMemorySize at hmax
    unfold uint64Mod
    omega
  unfold Memory.extResize Memory.resize
  simp only [hcost, safeMul, toWordSize_eq (Nat.le_trans hn hmax), Nat.mod_eq_of_lt hno]
  simp [Nat.not_lt.mpr hwords, Nat.not_le.mpr hno]

theorem Memory.Sized.extGetPtr_eq (h : m.Sized) (hn : o + n ≤ m.len) :
    m.extGetPtr o n maxGas = .ok (.ok (m.bytesAt o n), m) := by
  have hbound := h.bound
  have hof : ofInt64 ((o + n : Nat) : Int) = o + n := by
    unfold maxMemorySize at hbound
    unfold ofInt64
    omega
  unfold Memory.extGetPtr Memory.afterResize
  rw [Memory.addInt64_of_lt (by omega), hof, h.extResize_within hn]
  dsimp only
  rw [Memory.getPtr_eq hn (by omega)]
  rfl

theorem Memory.bytesAt_eq_readAt (h : o + n ≤ m.len) :
    m.bytesAt o n = readAt m.store o n := by
  rw [readAt_of_le h, Memory.bytesAt, List.drop_take, Nat.add_sub_cancel_left]

inductive MemTarget where
  | mem | mem8
  deriving DecidableEq

/-- `setUint256` for `ValueMem` and `ValueMem8`; `val.Bytes()` has no leading zeros. -/
def storeMem (t : MemTarget) (m : Memory) (o v : Word) (maxGas : Nat) : MemResult Unit :=
  match t with
  | .mem => m.extSet32 (uint64 o) v maxGas
  | .mem8 => m.extSet (uint64 o) 1 (natBytes v.toNat) maxGas

def MemTarget.bytes : MemTarget → Word → Bytes
  | .mem, v => bytes32 v
  | .mem8, v => [UInt8.ofNat v.toNat]

structure StoresAsEvm (t : MemTarget) (m : Memory) (o v : Word) (maxGas : Nat) (m' : Memory) :
    Prop where
  inside : o.toNat + (t.bytes v).length ≤ m'.len
  stored : ∀ p, o.toNat ≤ p → p < o.toNat + (t.bytes v).length →
    byteAt m'.store p = byteAt (t.bytes v) (p - o.toNat)
  others : ∀ p < m.len, ¬ (o.toNat ≤ p ∧ p < o.toNat + (t.bytes v).length) →
    byteAt m'.store p = byteAt m.store p
  reads : t = .mem → getMem m' (.word o) maxGas = .ok (.ok v, m')

def StoreCondition (t : MemTarget) (m : Memory) (o v : Word) : Prop :=
  o.toNat < 2 ^ 64 ∧ (t = .mem8 →
    if v = 0 then byteAt m.store o.toNat = 0
    else v.toNat / 256 ^ Nat.log 256 v.toNat = v.toNat % 256)

theorem copied_inv {high : Memory → Nat} (h : m.afterResize n maxGas (fun g => do
      let store ← copyInto g.store o (high g) value
      return ((), { g with store })) = .ok (.ok (), m')) :
    ∃ g, m.extResize n maxGas = (.ok (), g) ∧ o ≤ high g ∧ high g ≤ g.len ∧
      m' = g.written o (value.take (high g - o)) := by
  unfold Memory.afterResize at h
  split at h
  · cases (Prod.mk.inj (Except.ok.inj h)).1
  · next g hres =>
    refine ⟨g, hres, ?_⟩
    dsimp only at h
    cases hcopy : copyInto g.store o (high g) value with
    | error p => rw [hcopy] at h; cases h
    | ok s =>
      rw [hcopy] at h
      obtain ⟨hlow, hhigh, rfl⟩ := Memory.copyInto_inv hcopy
      exact ⟨hlow, hhigh, (Prod.mk.inj (Except.ok.inj h)).2.symm⟩

def MemTarget.copied : MemTarget → Word → Bytes
  | .mem, v => bytes32 v
  | .mem8, v => (natBytes v.toNat).take 1

theorem storeMem_inv {t : MemTarget} {o : Word} (hm : m.Sized)
    (h : storeMem t m o v maxGas = .ok (.ok (), m')) :
    m'.Sized ∧ uint64 o + (t.bytes v).length ≤ m'.len ∧
      m.Overwritten (uint64 o) (t.copied v) m' := by
  have hlt : uint64 o < uint64Mod := Nat.mod_lt _ (by decide)
  cases t with
  | mem =>
    obtain ⟨g, hres, hlow, -, rfl⟩ := copied_inv h
    have hsized := hm.extResize hres
    obtain ⟨-, hlen, hbytes⟩ := Memory.extResize_ok hres
    have hmax := hsized.bound
    rw [Nat.mod_eq_of_lt (by unfold maxMemorySize at hmax; unfold uint64Mod; omega)] at hlen
    have hwords := le_wordsFor (uint64 o + 32)
    have hroom : uint64 o + (bytes32 v).length ≤ g.len := by
      rw [length_bytes32]
      omega
    rw [List.take_of_length_le (by omega)]
    refine ⟨hsized.of_len (Memory.len_written hroom), ?_, fun p => ?_⟩
    · rw [Memory.len_written hroom]
      exact hroom
    · rw [Memory.byteAt_written hroom, hbytes]
      rfl
  | mem8 =>
    have h' := h
    simp only [storeMem, Memory.extSet, Nat.one_pos, if_true] at h'
    obtain ⟨g, hres, hlow, hhigh, rfl⟩ := copied_inv h'
    have hsized := hm.extResize hres
    obtain ⟨-, -, hbytes⟩ := Memory.extResize_ok hres
    have hmax := hsized.bound
    have hno : (uint64 o + 1) % uint64Mod = uint64 o + 1 := by
      unfold uint64Mod at *
      omega
    rw [hno] at hhigh
    rw [hno, Nat.add_sub_cancel_left]
    have hroom : uint64 o + ((natBytes v.toNat).take 1).length ≤ g.len := by
      rw [List.length_take]
      omega
    refine ⟨hsized.of_len (Memory.len_written hroom), ?_, fun p => ?_⟩
    · rw [Memory.len_written hroom]
      exact hhigh
    · rw [Memory.byteAt_written hroom, hbytes]
      rfl

theorem byteAt_copied_mem8 (hv : v ≠ 0) :
    MemTarget.mem8.copied v = [UInt8.ofNat (v.toNat / 256 ^ Nat.log 256 v.toNat)] := by
  have hne : v.toNat ≠ 0 := fun h => hv (BitVec.eq_of_toNat_eq h)
  simp only [MemTarget.copied, natBytes, beBytes, if_neg hne, List.range_succ_eq_map, List.map_cons]
  simp

theorem uint8_ofNat_inj {x y : Nat} (hx : x < 256) :
    UInt8.ofNat x = UInt8.ofNat y ↔ x = y % 256 := by
  rw [← UInt8.toNat_inj, UInt8.toNat_ofNat', UInt8.toNat_ofNat', Nat.mod_eq_of_lt hx]

theorem storeMem_within {t : MemTarget} {o : Word} (hm : m.Sized)
    (ho : o.toNat + (t.bytes v).length ≤ m.len) :
    storeMem t m o v maxGas = .ok (.ok (), m.written o.toNat (t.copied v)) := by
  have hmax := hm.bound
  have ho64 : uint64 o = o.toNat := uint64_of_le (by omega)
  cases t with
  | mem =>
    rw [MemTarget.bytes, length_bytes32] at ho
    have hno : (o.toNat + 32) % uint64Mod = o.toNat + 32 := by
      unfold maxMemorySize at hmax
      unfold uint64Mod
      omega
    simp only [storeMem, Memory.extSet32, Memory.afterResize, ho64, hno, hm.extResize_within ho]
    rw [Memory.copyInto_eq (by rw [length_bytes32]; omega) (by omega) le_rfl]
    rfl
  | mem8 =>
    replace ho : o.toNat + 1 ≤ m.len := ho
    have hno : (o.toNat + 1) % uint64Mod = o.toNat + 1 := by
      unfold maxMemorySize at hmax
      unfold uint64Mod
      omega
    have hcopy : copyInto m.store o.toNat (o.toNat + 1) (natBytes v.toNat) =
        .ok (m.written o.toNat ((natBytes v.toNat).take 1)).store := by
      unfold copyInto
      rw [if_pos ⟨by omega, ho⟩, Nat.add_sub_cancel_left]
      rfl
    simp only [storeMem, Memory.extSet, Nat.one_pos, if_true, Memory.afterResize, ho64, hno,
      hm.extResize_within ho]
    rw [hcopy]
    rfl

/-- For every store that succeeds. -/
theorem storesAsEvm_iff {t : MemTarget} {o : Word} (hm : FrameMemory maxGas m)
    (h : storeMem t m o v maxGas = .ok (.ok (), m')) :
    StoresAsEvm t m o v maxGas m' ↔ StoreCondition t m o v := by
  obtain ⟨hsized, hroom, hover⟩ := storeMem_inv hm.sized h
  have hmax := hsized.bound
  by_cases ho : o.toNat < 2 ^ 64
  · have ho64 : uint64 o = o.toNat := Nat.mod_eq_of_lt ho
    rw [ho64] at hroom hover
    cases t with
    | mem =>
      have hreads : getMem m' (.word o) maxGas = .ok (.ok v, m') := by
        have hword : (MemSlice.word o).window = ((o.toNat : Int), ((32 : Nat) : Int)) := by
          rw [MemSlice.window, ho64, Memory.toInt64_of_lt (by omega)]
          rfl
        have hread : readAt m'.store o.toNat 32 = readAt (bytes32 v) 0 32 := by
          refine List.map_congr_left fun j hj => ?_
          have hj' : j < (bytes32 v).length := by simpa using hj
          rw [hover, if_pos ⟨by omega, Nat.add_lt_add_left hj' _⟩,
            Nat.add_sub_cancel_left, zero_add]
          rfl
        replace hroom : o.toNat + 32 ≤ m'.len := by
          rw [MemTarget.bytes, length_bytes32] at hroom
          exact hroom
        rw [getMem, hword, hsized.extGetPtr_eq hroom, Memory.bytesAt_eq_readAt hroom, hread,
          readAt_of_le (by simp), List.drop_zero, List.take_of_length_le (by simp)]
        simp only [Except.map, Uint256.setBytes_bytes32]
      refine iff_of_true ⟨hroom, fun p hp hlt => ?_, fun p _ hp => ?_, fun _ => hreads⟩
        ⟨ho, fun h => by cases h⟩
      · exact (hover p).trans (if_pos ⟨hp, hlt⟩)
      · exact (hover p).trans (if_neg hp)
    | mem8 =>
      have hlen : ((natBytes v.toNat).take 1).length ≤ 1 := List.length_take_le _ _
      have hothers : ∀ p, p ≠ o.toNat → byteAt m'.store p = byteAt m.store p := by
        intro p hp
        refine (hover p).trans (if_neg fun hin => ?_)
        have : p < o.toNat + ((natBytes v.toNat).take 1).length := hin.2
        omega
      have hstored : byteAt m'.store o.toNat = UInt8.ofNat v.toNat ↔
          if v = 0 then byteAt m.store o.toNat = 0
          else v.toNat / 256 ^ Nat.log 256 v.toNat = v.toNat % 256 := by
        rw [hover]
        by_cases hv : v = 0
        · subst hv
          simp [MemTarget.copied, natBytes, beBytes]
        · have htop : v.toNat / 256 ^ Nat.log 256 v.toNat < 256 :=
            Nat.div_lt_of_lt_mul (Nat.lt_pow_succ_log_self (b := 256) (by decide) _)
          rw [if_neg hv]
          rw [byteAt_copied_mem8 hv, if_pos ⟨le_rfl, by simp⟩, Nat.sub_self]
          exact uint8_ofNat_inj htop
      constructor
      · intro hs
        have hbyte := hs.stored o.toNat le_rfl (by simp [MemTarget.bytes])
        rw [Nat.sub_self] at hbyte
        exact ⟨ho, fun _ => hstored.mp hbyte⟩
      · intro hc
        refine ⟨hroom, fun p hp hlt => ?_, fun p _ hp => hothers p ?_, fun h => by cases h⟩
        · obtain rfl : p = o.toNat := Nat.le_antisymm (Nat.lt_succ_iff.mp hlt) hp
          rw [Nat.sub_self]
          exact hstored.mpr (hc.2 rfl)
        · rintro rfl
          exact hp ⟨le_rfl, Nat.lt_succ_self _⟩
  · refine iff_of_false (fun hs => ?_) fun hc => ho hc.1
    have := hs.inside
    unfold maxMemorySize at hmax
    omega

/-- `MEM8[128] = 7` writes 7. -/
theorem storesAsEvm_iff_seven :
    StoresAsEvm .mem8 frameMemory 128 7 0 (frameMemory.written 128 (MemTarget.mem8.copied 7)) := by
  have hstore : storeMem .mem8 frameMemory 128 7 0 = .ok (.ok (), _) :=
    storeMem_within sized_frameMemory (by rw [len_frameMemory]; decide)
  have hlog : Nat.log 256 (7 : Word).toNat = 0 := Nat.log_of_lt (by decide)
  refine (storesAsEvm_iff .start hstore).mpr ⟨by decide, fun _ => ?_⟩
  rw [if_neg (by decide), hlog]
  decide

/-- `MEM8[128] = 256` writes 1, and `MEM8[95] = 0` leaves the last byte of the free pointer. -/
theorem mem8_writes_other_byte :
    (∃ m', storeMem .mem8 frameMemory 128 256 0 = .ok (.ok (), m') ∧ byteAt m'.store 128 = 1) ∧
      ∃ m', storeMem .mem8 frameMemory 95 0 0 = .ok (.ok (), m') ∧ byteAt m'.store 95 = 0x80 := by
  have hs := sized_frameMemory
  have hlen := len_frameMemory
  have hone : MemTarget.mem8.copied 256 = [1] := by
    have hlog : Nat.log 256 (256 : Word).toNat = 1 := Nat.log_pow (b := 256) (by decide) 1
    rw [byteAt_copied_mem8 (by decide), hlog]
    rfl
  refine ⟨⟨_, storeMem_within hs (by rw [hlen]; decide), ?_⟩,
    ⟨_, storeMem_within hs (by rw [hlen]; decide), ?_⟩⟩
  · rw [hone]
    exact (Memory.byteAt_written (by rw [hlen]; decide) 128).trans (by decide)
  · decide +kernel

end

end EtherVal.Vm
