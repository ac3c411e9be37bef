import EtherVal.Vm.SubstrateCallData

/-!
# Packed fields in storage (`substrate_interpreter.go:730-768`, `861-870`, `1013-1024`)

A field takes the bytes `bitStart` to `bitEnd` of a slot, counted from the least significant one.
Gas is not counted and there is no recorded trace to compare the stores with.
-/

namespace EtherVal.Vm
open EtherVal.Lib List
open Uint256 (bytes32 setBytes)

variable {n : Nat} {b : Bytes}

abbrev Storage := Word → Word

/-- The storage of the contract, and the `uint256.Int`s that the substrate's variables point to. -/
structure FieldState where
  storage : Storage
  ints : Nat → Word

/-- `storageRef`, or `storStruct` for a member `fieldJ_s_e`, with a range of bytes. -/
structure StorageRef where
  index : Word
  bitStart : Nat
  bitEnd : Nat
  le : bitStart ≤ bitEnd
  bound : bitEnd ≤ 31

/-- The two ways to a field: `sloadRef` and `sstoreRef`, or a `ValueStruct`. -/
inductive FieldAccess where
  | ref | struct
deriving DecidableEq

/-- `sloadRef`, and `getUint256` for a `ValueStruct`. -/
def loadField (σ : Storage) (f : StorageRef) : FieldAccess → Except GoPanic Word
  | .ref => return setBytes (← slice (bytes32 (σ f.index)) (31 - f.bitEnd)
      (32 - f.bitStart))
  | .struct =>
    let u := σ f.index
    if f.bitEnd < f.bitStart then .ok u
    else return setBytes (← slice (bytes32 u) (31 - f.bitEnd) (32 - f.bitStart))

def mergeField (slot v : Word) (f : StorageRef) : Except GoPanic Word := do
  let field ← slice (bytes32 v) (31 - (f.bitEnd - f.bitStart)) 32
  return setBytes (← copyInto (bytes32 slot) (31 - f.bitEnd) (32 - f.bitStart) field)

/-- `sstoreRef`, and `setUint256` for a `ValueStruct`, with the Int at `p` as the value.
`getUint256` of a local variable hands over the variable's own Int. -/
def storeField (st : FieldState) (f : StorageRef) (p : Nat) :
    FieldAccess → Except GoPanic FieldState
  | .ref => do
    let merged ← mergeField (st.storage f.index) (st.ints p) f
    return { st with storage := Function.update st.storage f.index merged }
  | .struct => do
    -- `val = val.SetBytes(sloadBytes[:])` writes the merged slot into the Int it was handed
    let ints ← if f.bitEnd < f.bitStart then .ok st.ints else
      (mergeField (st.storage f.index) (st.ints p) f).map (Function.update st.ints p)
    return ⟨Function.update st.storage f.index (ints p), ints⟩

namespace StorageRef

def offset (f : StorageRef) : Nat := 31 - f.bitEnd
def size (f : StorageRef) : Nat := f.bitEnd - f.bitStart + 1

def Apart (f g : StorageRef) : Prop :=
  f.index ≠ g.index ∨ f.bitEnd < g.bitStart ∨ g.bitEnd < f.bitStart

variable (f : StorageRef)

theorem offset_add_size : f.offset + f.size = 32 - f.bitStart := by
  have := f.le
  have := f.bound
  unfold offset size
  omega

theorem offset_add_size_le : f.offset + f.size ≤ 32 := by
  rw [offset_add_size]
  omega

end StorageRef

theorem toNat_setBytes (h : b.length ≤ 32) : (setBytes b).toNat = beVal b := by
  have hlt := beVal_lt b
  have hpow : 256 ^ b.length ≤ 256 ^ 32 := Nat.pow_le_pow_right (by decide) h
  exact Nat.mod_eq_of_lt (Nat.lt_of_lt_of_le hlt (by simpa using hpow))

theorem bytes32_setBytes (h : b.length = 32) :
    bytes32 (setBytes b) = b := by
  change beBytes 32 (setBytes b).toNat = b
  rw [toNat_setBytes h.le, ← h, beBytes_beVal]

/-- The last `n` bytes of a word. -/
theorem readAt_bytes32_last (v : Word) (hn : n ≤ 32) :
    readAt (bytes32 v) (32 - n) n = beBytes n v.toNat := by
  refine map_congr_left fun j hj => ?_
  have hj' : j < n := mem_range.mp hj
  have hexp : 31 - (32 - n + j) = n - 1 - j := by omega
  simp [byteAt, bytes32, show 32 - n + j < 32 by omega, hexp]

theorem slice_eq_readAt {o k : Nat} (hk : k = o + n) (h : k ≤ b.length) :
    slice b o k = .ok (readAt b o n) := by
  subst hk
  rw [slice, if_pos ⟨by omega, by omega, by exact_mod_cast h⟩, readAt_of_le h, Int.toNat_natCast,
    Int.toNat_natCast, drop_take, Nat.add_sub_cancel_left]

def spliced (b : Bytes) (o : Nat) (x : Bytes) : Bytes := ((⟨b, 0⟩ : Memory).written o x).store

section
variable {b x y : Bytes} {o : Nat}

theorem length_spliced (h : o + x.length ≤ b.length) : (spliced b o x).length = b.length :=
  Memory.len_written (m := ⟨b, 0⟩) h

theorem readAt_spliced (h : o + x.length ≤ b.length) : readAt (spliced b o x) o x.length = x := by
  have hread : readAt (spliced b o x) o x.length = readAt x 0 x.length := by
    refine map_congr_left fun j hj => ?_
    have hj' := mem_range.mp hj
    refine (Memory.byteAt_written (m := ⟨b, 0⟩) h (o + j)).trans ?_
    rw [if_pos ⟨by omega, by omega⟩, Nat.add_sub_cancel_left, zero_add]
  rw [hread, readAt_of_le (by omega), drop_zero, take_length]

theorem readAt_spliced_apart {k : Nat} (h : o + x.length ≤ b.length)
    (hapart : k + n ≤ o ∨ o + x.length ≤ k) : readAt (spliced b o x) k n = readAt b k n := by
  refine map_congr_left fun j hj => ?_
  have hj' := mem_range.mp hj
  refine (Memory.byteAt_written (m := ⟨b, 0⟩) h (k + j)).trans (if_neg ?_)
  omega

theorem spliced_readAt (h : o + n ≤ b.length) : spliced b o (readAt b o n) = b := by
  rw [spliced, Memory.written, length_readAt, readAt_of_le h]
  simp only [append_assoc, ← drop_drop, take_append_drop]

theorem spliced_spliced (h : o + x.length ≤ b.length) (hxy : x.length = y.length) :
    spliced (spliced b o x) o y = spliced b o y := by
  have ho : (b.take o).length = o := by simp; omega
  simp only [spliced, Memory.written, append_assoc]
  rw [take_append_of_le_length ho.ge, take_of_length_le ho.le, ← drop_drop,
    drop_append_of_le_length ho.ge, drop_of_length_le ho.le, nil_append, ← hxy,
    drop_left]

end

section
variable (σ : Storage) (f : StorageRef) (a : FieldAccess)

theorem loadField_eq : loadField σ f a =
    .ok (setBytes (readAt (bytes32 (σ f.index)) f.offset f.size)) := by
  have hslice : slice (bytes32 (σ f.index)) (31 - f.bitEnd) (32 - f.bitStart) =
      .ok (readAt (bytes32 (σ f.index)) f.offset f.size) := by
    have hle := f.le
    have hbound := f.bound
    have h := slice_eq_readAt (b := bytes32 (σ f.index)) f.offset_add_size.symm (by simp)
    rw [StorageRef.offset] at h
    push_cast [show f.bitStart ≤ 32 by omega, hbound] at h
    exact h
  cases a with
  | ref => rw [loadField, hslice]; rfl
  | struct => rw [loadField, if_neg (Nat.not_lt.mpr f.le), hslice]; rfl

theorem mergeField_eq (slot v : Word) : mergeField slot v f = .ok (setBytes
    (spliced (bytes32 slot) f.offset (beBytes f.size v.toNat))) := by
  have hle := f.le
  have hbound := f.bound
  have hn : f.size ≤ 32 := by unfold StorageRef.size; omega
  have hfield : slice (bytes32 v) (31 - (f.bitEnd - f.bitStart)) 32 =
      .ok (beBytes f.size v.toNat) := by
    have h := slice_eq_readAt (b := bytes32 v) (o := 32 - f.size) (n := f.size) (k := 32)
      (by omega) (by simp)
    rw [readAt_bytes32_last v hn] at h
    rw [← h]
    congr 1
    unfold StorageRef.size
    omega
  have hvalue : (beBytes f.size v.toNat).length ≤ 32 - f.bitStart - f.offset := by
    rw [beBytes_length, ← f.offset_add_size]
    omega
  have hcopy := Memory.copyInto_eq (m := ⟨bytes32 slot, 0⟩) hvalue
    (by rw [← f.offset_add_size]; omega) (by simp [Memory.len])
  rw [mergeField, hfield]
  exact (congrArg (Except.map setBytes) hcopy : _)

end

/-- The word in the slot of `f` once the Int at `p` is stored. -/
def FieldState.merged (st : FieldState) (f : StorageRef) (p : Nat) : Word :=
  setBytes (spliced (bytes32 (st.storage f.index)) f.offset (beBytes f.size (st.ints p).toNat))

/-- What a store leaves in the Ints. -/
def FieldState.after (st : FieldState) (f : StorageRef) (p : Nat) : FieldAccess → Nat → Word
  | .ref => st.ints
  | .struct => Function.update st.ints p (st.merged f p)

section
variable (st : FieldState) (f : StorageRef) (p q : Nat) (a : FieldAccess)

theorem storeField_eq : storeField st f p a =
    .ok ⟨Function.update st.storage f.index (st.merged f p), st.after f p a⟩ := by
  cases a with
  | ref => rw [storeField, mergeField_eq]; rfl
  | struct =>
    rw [storeField, if_neg (Nat.not_lt.mpr f.le), mergeField_eq]
    exact congrArg (fun w => Except.ok (FieldState.mk (Function.update st.storage f.index w) _))
      (Function.update_self p _ st.ints)

end

theorem FieldState.bytes32_merged (st : FieldState) (f : StorageRef) (p : Nat) :
    bytes32 (st.merged f p) =
      spliced (bytes32 (st.storage f.index)) f.offset (beBytes f.size (st.ints p).toNat) := by
  have hfit := f.offset_add_size_le
  apply bytes32_setBytes
  rw [length_spliced (by simpa using hfit), length_bytes32]

theorem StorageRef.Apart.offsets {f g : StorageRef} (h : f.Apart g) (hslot : g.index = f.index) :
    g.offset + g.size ≤ f.offset ∨ f.offset + f.size ≤ g.offset := by
  have hg := g.bound
  have hf := f.bound
  rw [g.offset_add_size, f.offset_add_size]
  unfold StorageRef.offset
  rcases h with hne | hlt | hlt
  · exact absurd hslot.symm hne
  · omega
  · omega

/-- The laws of a lens for one field, stored to from the Int at `p` and then from the one at `q`,
and its independence of fields apart from it. -/
structure FieldLaws (a : FieldAccess) (st : FieldState) (f : StorageRef) (p q : Nat) : Prop where
  load_store : ∃ st', storeField st f p a = .ok st' ∧
    loadField st'.storage f a = .ok (BitVec.ofNat 256 ((st.ints p).toNat % 256 ^ f.size))
  store_load : ∀ r, loadField st.storage f a = .ok (st.ints r) →
    (storeField st f r a).map FieldState.storage = .ok st.storage
  store_store : ∀ st', storeField st f p a = .ok st' →
    (storeField st' f q a).map FieldState.storage = (storeField st f q a).map FieldState.storage
  load_apart : ∀ g st', f.Apart g → storeField st f p a = .ok st' →
    loadField st'.storage g a = loadField st.storage g a

/-- Byte `i` of a word, the least significant one first. -/
def lowByte (w : Word) (i : Nat) : UInt8 := byteAt (bytes32 w) (31 - i)

/-- Moving the low bytes of `v` up into the field does not change the low bytes of the slot's new
word: those below the field are the slot's old ones. -/
def KeepsLow (slot v : Word) (f : StorageRef) : Prop :=
  ∀ i < f.size, lowByte v i = if i < f.bitStart then lowByte slot i else lowByte v (i - f.bitStart)

section
variable (st : FieldState) (f : StorageRef) (p q : Nat) (a : FieldAccess)

theorem load_of_store : loadField (Function.update st.storage f.index (st.merged f p)) f a =
    .ok (BitVec.ofNat 256 ((st.ints p).toNat % 256 ^ f.size)) := by
  have hfit := f.offset_add_size_le
  have hread := readAt_spliced (b := bytes32 (st.storage f.index)) (o := f.offset)
    (x := beBytes f.size (st.ints p).toNat) (by simpa using hfit)
  rw [beBytes_length] at hread
  rw [loadField_eq, Function.update_self, st.bytes32_merged, hread, ← beVal_beBytes_mod]
  rfl

theorem merged_of_load (h : loadField st.storage f a = .ok (st.ints p)) :
    st.merged f p = st.storage f.index := by
  have hfit := f.offset_add_size_le
  have hle : (readAt (bytes32 (st.storage f.index)) f.offset f.size).length ≤ 32 := by
    rw [length_readAt]
    omega
  have hfield := beBytes_beVal (readAt (bytes32 (st.storage f.index)) f.offset f.size)
  rw [length_readAt] at hfield
  rw [loadField_eq] at h
  rw [FieldState.merged, ← Except.ok.inj h, toNat_setBytes hle, hfield,
    spliced_readAt (by simpa using hfit), Uint256.setBytes_bytes32]

theorem load_of_store_apart {g : StorageRef} (hapart : f.Apart g) :
    loadField (Function.update st.storage f.index (st.merged f p)) g a =
      loadField st.storage g a := by
  rw [loadField_eq, loadField_eq]
  by_cases hslot : g.index = f.index
  · rw [hslot, Function.update_self, st.bytes32_merged,
      readAt_spliced_apart (by simpa using f.offset_add_size_le)
        (by simpa using hapart.offsets hslot)]
  · rw [Function.update_of_ne hslot]

/-- A second store replaces the first by what its Int holds then. -/
theorem merged_of_store (ints : Nat → Word) :
    FieldState.merged ⟨Function.update st.storage f.index (st.merged f p), ints⟩ f q =
      FieldState.merged ⟨st.storage, ints⟩ f q := by
  have hfit := f.offset_add_size_le
  have hbytes := st.bytes32_merged f p
  unfold FieldState.merged at hbytes ⊢
  dsimp only
  rw [Function.update_self, hbytes, spliced_spliced (by simpa using hfit) (by simp)]

theorem merged_inj (ints : Nat → Word) :
    FieldState.merged ⟨st.storage, ints⟩ f q = st.merged f q ↔
      beBytes f.size (ints q).toNat = beBytes f.size (st.ints q).toNat := by
  refine ⟨fun h => ?_, fun h => ?_⟩
  · have hfit := f.offset_add_size_le
    have hread : ∀ s : FieldState, s.storage = st.storage →
        readAt (bytes32 (s.merged f q)) f.offset f.size = beBytes f.size (s.ints q).toNat := by
      intro s hs
      have hr := readAt_spliced (b := bytes32 (s.storage f.index)) (o := f.offset)
        (x := beBytes f.size (s.ints q).toNat) (by simpa using hfit)
      rwa [beBytes_length, ← s.bytes32_merged] at hr
    rw [← hread ⟨st.storage, ints⟩ rfl, h, hread st rfl]
  · unfold FieldState.merged
    rw [h]

/-- The bytes the Int at `p` has for a second store are the old ones just when they are kept. -/
theorem keepsLow_iff : beBytes f.size (st.merged f p).toNat = beBytes f.size (st.ints p).toNat ↔
    KeepsLow (st.storage f.index) (st.ints p) f := by
  have hle := f.le
  have hbound := f.bound
  have hsize : f.size ≤ 32 := by unfold StorageRef.size; omega
  have hoff := f.offset_add_size
  have hfit := f.offset_add_size_le
  have hbyte : ∀ i < f.size, lowByte (st.merged f p) i = if i < f.bitStart then
      lowByte (st.storage f.index) i else lowByte (st.ints p) (i - f.bitStart) := by
    intro i hi
    have hw := @Memory.byteAt_written ⟨bytes32 (st.storage f.index), 0⟩ f.offset
      (beBytes f.size (st.ints p).toNat)
      (by simpa [Memory.len] using f.offset_add_size_le) (31 - i)
    unfold lowByte
    rw [st.bytes32_merged]
    refine hw.trans ?_
    rw [beBytes_length]
    by_cases h : i < f.bitStart
    · rw [if_neg (by omega), if_pos h]
    · have hoffset : f.offset = 31 - f.bitEnd := rfl
      have hsz : f.size = f.bitEnd - f.bitStart + 1 := rfl
      rw [if_pos (by omega), if_neg h, ← readAt_bytes32_last _ hsize, byteAt_readAt (by omega)]
      congr 1
      omega
  rw [← readAt_bytes32_last _ hsize, ← readAt_bytes32_last _ hsize]
  refine ⟨fun h i hi => ?_, fun h => map_congr_left fun j hj => ?_⟩
  · have hb := congrArg (byteAt · (f.size - 1 - i)) h
    rw [byteAt_readAt (by omega), byteAt_readAt (by omega),
      show 32 - f.size + (f.size - 1 - i) = 31 - i by omega] at hb
    exact hb.symm.trans (hbyte i hi)
  · have hj' := mem_range.mp hj
    have hb := (hbyte (f.size - 1 - j) (by omega)).trans (h (f.size - 1 - j) (by omega)).symm
    unfold lowByte at hb
    rwa [show 31 - (f.size - 1 - j) = 32 - f.size + j by omega] at hb

/-- Storing twice is storing once, as long as the second Int still has the value it had. -/
theorem store_store_iff : (∀ st', storeField st f p a = .ok st' →
      (storeField st' f q a).map FieldState.storage =
        (storeField st f q a).map FieldState.storage) ↔
    beBytes f.size (st.after f p a q).toNat = beBytes f.size (st.ints q).toNat := by
  rw [← merged_inj st f q (st.after f p a)]
  simp only [storeField_eq, Except.ok.injEq, forall_eq', Except.map, merged_of_store,
    Function.update_idem]
  exact ⟨fun h => by simpa using congrFun h f.index, fun h => by rw [h]⟩

/-- Packed fields obey the laws, but that storing a struct's field twice from one Int stores what
the first store left there. -/
theorem fieldLaws_iff : FieldLaws a st f p q ↔
    (a = .struct → p = q → KeepsLow (st.storage f.index) (st.ints p) f) := by
  have hsecond : beBytes f.size (st.after f p a q).toNat = beBytes f.size (st.ints q).toNat ↔
      (a = .struct → p = q → KeepsLow (st.storage f.index) (st.ints p) f) := by
    cases a with
    | ref => exact ⟨fun _ h => absurd h (by decide), fun _ => rfl⟩
    | struct =>
      rw [FieldState.after]
      by_cases hpq : p = q
      · subst hpq
        rw [Function.update_self, keepsLow_iff]
        exact ⟨fun h _ _ => h, fun h => h rfl rfl⟩
      · rw [Function.update_of_ne (Ne.symm hpq)]
        exact ⟨fun _ _ h => absurd h hpq, fun _ => rfl⟩
  rw [← hsecond, ← store_store_iff]
  refine ⟨fun h => h.store_store, fun h => ⟨⟨_, storeField_eq st f p a, ?_⟩, ?_, h, ?_⟩⟩
  · exact load_of_store st f p a
  · intro r hload
    rw [storeField_eq, Except.map, merged_of_load st f r a hload, Function.update_eq_self]
  · intro g st' hapart hstore
    rw [storeField_eq] at hstore
    cases hstore
    exact load_of_store_apart st f p a hapart

end

/-- `S.field0_1_1`, and a local variable with 5 in front of an empty storage. -/
def secondByte : StorageRef := ⟨0, 1, 1, by decide, by decide⟩

def fiveLocal : FieldState := ⟨fun _ => 0, fun _ => 5⟩

/-- `S.field0_1_1 = x` twice leaves 0 in the field. -/
theorem fieldLaws_fail_twice : ¬ FieldLaws .struct fiveLocal secondByte 0 0 ∧
    ∃ once twice, storeField fiveLocal secondByte 0 .struct = .ok once ∧
      storeField once secondByte 0 .struct = .ok twice ∧
      loadField once.storage secondByte .struct = .ok 5 ∧
      loadField twice.storage secondByte .struct = .ok 0 := by
  have htwice : ∃ once twice, storeField fiveLocal secondByte 0 .struct = .ok once ∧
      storeField once secondByte 0 .struct = .ok twice ∧
      loadField once.storage secondByte .struct = .ok 5 ∧
      loadField twice.storage secondByte .struct = .ok 0 :=
    ⟨_, _, rfl, rfl, by decide +kernel, by decide +kernel⟩
  refine ⟨fun h => ?_, htwice⟩
  obtain ⟨once, twice, honce, htwice, hfive, hzero⟩ := htwice
  have hsame := h.store_store once honce
  rw [htwice, honce] at hsame
  have hstorage : twice.storage = once.storage := Except.ok.inj hsame
  rw [hstorage, hfive] at hzero
  exact absurd hzero (by decide)

end EtherVal.Vm
