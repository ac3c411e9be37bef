import EtherVal.Lib.Heap
import EtherVal.Vm.SubstrateCallData

/-!
# The input of the Substrate interpreter and the memory of its caller

`Memory.GetPtr` hands out a window of the caller's store, and `SubstrateInterpreter.Run` pads a
short input by `append`.  Frames are modelled by what they do to byte arrays: they resize and write
their own memory, make new slices and call further frames, with a slice they have built or with a
window of their memory.  The input itself is only read.
-/

namespace EtherVal.Vm
open EtherVal.Lib List

abbrev ByteHeap := Heap Bytes

def byteField : Field Bytes Bytes := ⟨id, fun l _ => l⟩

structure ByteFrame where
  memory : GoSlice
  input : GoSlice

/-- `Memory.GetPtr`; slicing beyond the capacity panics. -/
def getPtrSlice (store : GoSlice) (offset size : Nat) : Option GoSlice :=
  if size = 0 then some .nil
  else if offset < store.len then
    if h : offset + size ≤ store.cap then
      some ⟨store.array, store.offset + offset, size, store.cap - offset, by omega⟩
    else none
  else some .nil

/-- What a frame does to byte arrays.  The bytes it writes depend on all it can read. -/
inductive ByteOp where
  | resize (size : Nat)
  | set (offset : Nat) (value : ByteHeap → ByteFrame → Bytes)
  | make (value : ByteHeap → ByteFrame → Bytes)
  /-- A call with a slice built for it. -/
  | call (substrate : Bool) (input : ByteHeap → ByteFrame → Bytes) (ops : List ByteOp)
  /-- A call of the EVM, with a window of the memory. -/
  | callWindow (substrate : Bool) (offset size : Nat) (ops : List ByteOp)

section run
variable (grow : Nat → Nat)

/-- `contract.Input = append(input, pad...)` (`substrate_interpreter.go:240`) -/
def padInput (h : ByteHeap) (input : GoSlice) : GoSlice × ByteHeap :=
  if input.len ≠ 0 ∧ input.len < 32 then
    GoSlice.append byteField grow h input (List.replicate (32 - input.len) 0)
  else (input, h)

/-- A frame begins with an empty memory; only the Substrate interpreter pads its input. -/
def enterFrame (substrate : Bool) (h : ByteHeap) (input : GoSlice) : ByteHeap × ByteFrame :=
  if substrate then
    let (input, h) := padInput grow h input
    (h, ⟨.nil, input⟩)
  else (h, ⟨.nil, input⟩)

def resizeStore (h : ByteHeap) (fr : ByteFrame) (size : Nat) : ByteHeap × ByteFrame :=
  if fr.memory.len < size then
    let (store, h) :=
      GoSlice.append byteField grow h fr.memory (List.replicate (size - fr.memory.len) 0)
    (h, { fr with memory := store })
  else (h, fr)

/-- `copy(m.store[offset:], value)` for a store that is long enough -/
def setStore (h : ByteHeap) (fr : ByteFrame) (offset : Nat) (value : Bytes) : ByteHeap :=
  if value ≠ [] ∧ offset + value.length ≤ fr.memory.len then
    h.update fr.memory.array fun array => GoSlice.overwrite array (fr.memory.offset + offset) value
  else h

def newBytes (h : ByteHeap) (value : Bytes) : GoSlice × ByteHeap :=
  (⟨h.next, 0, value.length, value.length, Nat.le_refl _⟩, h.alloc value)

mutual

def applyOp : ByteOp → ByteHeap → ByteFrame → ByteHeap × ByteFrame
  | .resize size, h, fr => resizeStore grow h fr size
  | .set offset value, h, fr => (setStore h fr offset (value h fr), fr)
  | .make value, h, fr => ((newBytes h (value h fr)).2, fr)
  | .call substrate input ops, h, fr =>
    let (arg, h) := newBytes h (input h fr)
    let (h, callee) := enterFrame grow substrate h arg
    (applyOps ops h callee, fr)
  | .callWindow substrate offset size ops, h, fr =>
    match getPtrSlice fr.memory offset size with
    | none => (h, fr)
    | some arg =>
      let (h, callee) := enterFrame grow substrate h arg
      (applyOps ops h callee, fr)

def applyOps : List ByteOp → ByteHeap → ByteFrame → ByteHeap
  | [], h, _ => h
  | op :: ops, h, fr =>
    let (h, fr) := applyOp op h fr
    applyOps ops h fr

end

def byteRun (h : ByteHeap) (input : GoSlice) (ops : List ByteOp) : ByteHeap :=
  let (h, fr) := enterFrame grow true h input
  applyOps grow (.resize 4096 :: .set 0x40 (fun _ _ => beBytes 32 0x80) :: ops) h fr

end run

section frame
variable {grow : Nat → Nat} {base : Nat}

structure Inside (base : Nat) (h : ByteHeap) (fr : ByteFrame) : Prop where
  next : base ≤ h.next
  memory : ∀ a ∈ fr.memory.footprint, base ≤ a

abbrev WritesFrom (base : Nat) (h h' : ByteHeap) : Prop := Heap.Changes (Set.Ici base) h h'

theorem WritesFrom.then {h h1 h2 : ByteHeap} (h01 : WritesFrom base h h1)
    (h12 : WritesFrom base h1 h2) : WritesFrom base h h2 :=
  h01.trans h12 fun _ hp _ => hp

theorem nil_footprint : ∀ a ∈ GoSlice.nil.footprint, base ≤ a := by
  rintro a ⟨-, hcap⟩
  exact absurd hcap (Nat.lt_irrefl 0)

theorem writesFrom_alloc (base : Nat) (h : ByteHeap) (b : Bytes) : WritesFrom base h (h.alloc b) :=
  (Heap.Changes.alloc h b).mono (Set.empty_subset _)

theorem writesFrom_append (grow : Nat → Nat) (h : ByteHeap) {s : GoSlice} {xs : Bytes}
    (hs : ∀ a ∈ s.footprint, base ≤ a) (hpos : 0 < xs.length) :
    WritesFrom base h (GoSlice.append byteField grow h s xs).2 :=
  (GoSlice.append_changes byteField grow h hpos).mono hs

theorem padInput_writes (grow : Nat → Nat) (h : ByteHeap) {input : GoSlice}
    (hs : ∀ a ∈ input.footprint, base ≤ a) :
    WritesFrom base h (padInput grow h input).2 := by
  unfold padInput
  split
  · next hlen =>
    apply writesFrom_append grow h hs
    rw [length_replicate]
    omega
  · exact Heap.Changes.refl _ h

theorem enterFrame_inside (grow : Nat → Nat) (substrate : Bool) {h : ByteHeap} {input : GoSlice}
    (hnext : base ≤ h.next)
    (hs : ∀ a ∈ input.footprint, base ≤ a) :
    WritesFrom base h (enterFrame grow substrate h input).1 ∧
      Inside base (enterFrame grow substrate h input).1 (enterFrame grow substrate h input).2 := by
  cases substrate with
  | true =>
    have hpad := padInput_writes grow h hs
    exact ⟨hpad, hnext.trans hpad.next, nil_footprint⟩
  | false => exact ⟨Heap.Changes.refl _ h, hnext, nil_footprint⟩

theorem resizeStore_inside {h : ByteHeap} {fr : ByteFrame} (hin : Inside base h fr) (size : Nat) :
    WritesFrom base h (resizeStore grow h fr size).1 ∧
      Inside base (resizeStore grow h fr size).1 (resizeStore grow h fr size).2 := by
  unfold resizeStore
  split
  · next hlen =>
    have hpos : 0 < (List.replicate (size - fr.memory.len) (0 : UInt8)).length := by
      rw [length_replicate]
      omega
    have hwrites := writesFrom_append grow h hin.memory hpos
    refine ⟨hwrites, hin.next.trans hwrites.next, ?_⟩
    intro a ha
    rcases GoSlice.append_footprint byteField grow h a ha with hold | ⟨hnew, -⟩
    · exact hin.memory a hold
    · exact hin.next.trans hnew
  · exact ⟨Heap.Changes.refl _ h, hin⟩

theorem setStore_writes {h : ByteHeap} {fr : ByteFrame} (hin : Inside base h fr) (offset : Nat)
    (value : Bytes) : WritesFrom base h (setStore h fr offset value) := by
  unfold setStore
  split
  · next hfit =>
    refine (Heap.Changes.update h fr.memory.array _).mono ?_
    rintro a rfl
    have hpos := length_pos_iff.mpr hfit.1
    have hcap := fr.memory.len_le
    exact hin.memory _ ⟨rfl, by omega⟩
  · exact Heap.Changes.refl _ h

theorem getPtrSlice_footprint {store arg : GoSlice} {offset size : Nat}
    (h : getPtrSlice store offset size = some arg) (hs : ∀ a ∈ store.footprint, base ≤ a) :
    ∀ a ∈ arg.footprint, base ≤ a := by
  unfold getPtrSlice at h
  split at h
  · cases h
    exact nil_footprint
  · split at h
    · next hlen =>
      split at h
      · cases h
        rintro a ⟨rfl, hcap⟩
        have := store.len_le
        exact hs _ ⟨rfl, by omega⟩
      · cases h
    · cases h
      exact nil_footprint

-- The recursion is that of `applyOp` and `applyOps`: the operations of a callee run in a frame of
-- their own, and its memory is newer than `base` because the callee is entered with none.
mutual

theorem applyOp_inside (op : ByteOp) {h : ByteHeap} {fr : ByteFrame} (hin : Inside base h fr) :
    WritesFrom base h (applyOp grow op h fr).1 ∧
      Inside base (applyOp grow op h fr).1 (applyOp grow op h fr).2 := by
  cases op with
  | resize size =>
    simp only [applyOp]
    exact resizeStore_inside hin size
  | set offset value =>
    have hwrites := setStore_writes hin offset (value h fr)
    simp only [applyOp]
    exact ⟨hwrites, hin.next.trans hwrites.next, hin.memory⟩
  | make value =>
    have hwrites := writesFrom_alloc base h (value h fr)
    simp only [applyOp, newBytes]
    exact ⟨hwrites, hin.next.trans hwrites.next, hin.memory⟩
  | call substrate input ops =>
    have halloc := writesFrom_alloc base h (input h fr)
    have harg : ∀ a ∈ (newBytes h (input h fr)).1.footprint, base ≤ a := by
      rintro a ⟨rfl, -⟩
      exact hin.next
    obtain ⟨henter, hinside⟩ := enterFrame_inside grow substrate
      (hin.next.trans halloc.next) harg
    have hops := applyOps_writes ops hinside
    have hwrites := (WritesFrom.then halloc henter).then hops
    simp only [applyOp]
    exact ⟨hwrites, hin.next.trans hwrites.next, hin.memory⟩
  | callWindow substrate offset size ops =>
    simp only [applyOp]
    split
    · exact ⟨Heap.Changes.refl _ h, hin⟩
    · next arg hptr =>
      obtain ⟨henter, hinside⟩ := enterFrame_inside grow substrate hin.next
        (getPtrSlice_footprint hptr hin.memory)
      have hwrites := WritesFrom.then henter (applyOps_writes ops hinside)
      exact ⟨hwrites, hin.next.trans hwrites.next, hin.memory⟩

theorem applyOps_writes (ops : List ByteOp) {h : ByteHeap} {fr : ByteFrame}
    (hin : Inside base h fr) : WritesFrom base h (applyOps grow ops h fr) := by
  cases ops with
  | nil =>
    simp only [applyOps]
    exact Heap.Changes.refl _ h
  | cons op ops =>
    obtain ⟨hop, hinside⟩ := applyOp_inside op hin
    simp only [applyOps]
    exact WritesFrom.then hop (applyOps_writes ops hinside)

end

theorem byteRun_cell (h : ByteHeap) (input : GoSlice) (ops : List ByteOp) {a : Nat}
    (ha : a < (padInput grow h input).2.next) :
    (byteRun grow h input ops).cell a = (padInput grow h input).2.cell a := by
  have hin : Inside (padInput grow h input).2.next (padInput grow h input).2
      ⟨.nil, (padInput grow h input).1⟩ := ⟨Nat.le_refl _, nil_footprint⟩
  simp only [byteRun, enterFrame, if_true]
  exact (applyOps_writes _ hin).cell a ha (by simpa using ha)

end frame

structure StoreIn (h : ByteHeap) (store : GoSlice) : Prop where
  allocated : store.array < h.next
  capacity : store.offset + store.cap ≤ (h.cell store.array).length

def MemoryKept (grow : Nat → Nat) (h : ByteHeap) (store : GoSlice) (o n : Nat)
    (ops : List ByteOp) : Prop :=
  ∃ arg, getPtrSlice store o n = some arg ∧
    store.read (byteRun grow h arg ops).cell = store.read h.cell

def PadsInPlace (store : GoSlice) (o n : Nat) : Prop := n ≠ 0 ∧ n < 32 ∧ o + 32 ≤ store.cap

def ZeroBehind (h : ByteHeap) (store : GoSlice) (o n : Nat) : Prop :=
  ∀ i, o + n ≤ i → i < o + 32 → i < store.len → (store.read h.cell)[i]? = some 0

section caller
variable {grow : Nat → Nat} {h : ByteHeap} {store : GoSlice} {o n : Nat}

theorem getPtrSlice_window (hn : n ≠ 0) (hwindow : o + n ≤ store.len) :
    getPtrSlice store o n = some ⟨store.array, store.offset + o, n, store.cap - o, by
      have := store.len_le
      omega⟩ := by
  have hcap := store.len_le
  rw [getPtrSlice, if_neg hn, if_pos (by omega), dif_pos (by omega)]

theorem byteRun_store (hin : StoreIn h store) (arg : GoSlice) (ops : List ByteOp) :
    (byteRun grow h arg ops).cell store.array =
      (padInput grow h arg).2.cell store.array := by
  apply byteRun_cell
  have hwrites : WritesFrom 0 h (padInput grow h arg).2 :=
    padInput_writes grow h fun _ _ => Nat.zero_le _
  have hnext := hwrites.next
  have hstore := hin.allocated
  omega

theorem padInput_elsewhere (grow : Nat → Nat) (hin : StoreIn h store) (hwindow : o + n ≤ store.len)
    (hpad : ¬ PadsInPlace store o n) :
    ∃ arg, getPtrSlice store o n = some arg ∧
      (padInput grow h arg).2.cell store.array = h.cell store.array := by
  by_cases hn : n = 0
  · exact ⟨.nil, by rw [getPtrSlice, if_pos hn], rfl⟩
  · refine ⟨_, getPtrSlice_window hn hwindow, ?_⟩
    unfold padInput
    split
    · next hlen =>
      have hlen : n < 32 := hlen.2
      have hroom : ¬ n + (List.replicate (32 - n) (0 : UInt8)).length ≤ store.cap - o := by
        rw [length_replicate]
        intro hle
        exact hpad ⟨hn, hlen, by omega⟩
      rw [GoSlice.append, dif_neg hroom]
      exact Heap.alloc_cell_of_ne h _ hin.allocated.ne
    · rfl

theorem padInput_inPlace (grow : Nat → Nat) (h : ByteHeap) (hwindow : o + n ≤ store.len)
    (hpad : PadsInPlace store o n) :
    ∃ arg, getPtrSlice store o n = some arg ∧
      (padInput grow h arg).2.cell store.array =
        GoSlice.overwrite (h.cell store.array) (store.offset + o + n)
        (List.replicate (32 - n) 0) := by
  obtain ⟨hn, hlt, hroom⟩ := hpad
  refine ⟨_, getPtrSlice_window hn hwindow, ?_⟩
  have hfit : n + (List.replicate (32 - n) (0 : UInt8)).length ≤ store.cap - o := by
    rw [length_replicate]
    omega
  rw [padInput, if_pos ⟨hn, hlt⟩, GoSlice.append, dif_pos hfit]
  exact Heap.update_cell h store.array _

theorem read_overwrite_zero_iff (hin : StoreIn h store) (hpad : PadsInPlace store o n) :
    ((GoSlice.overwrite (h.cell store.array) (store.offset + o + n)
        (List.replicate (32 - n) 0)).drop store.offset).take store.len = store.read h.cell ↔
      ZeroBehind h store o n := by
  obtain ⟨hn, hlt, hroom⟩ := hpad
  have hfit : store.offset + o + n + (List.replicate (32 - n) (0 : UInt8)).length ≤
      (h.cell store.array).length := by
    have hcap := hin.capacity
    rw [length_replicate]
    omega
  have hread : ∀ i, i < store.len →
      (store.read h.cell)[i]? = (h.cell store.array)[store.offset + i]? := by
    intro i hi
    rw [GoSlice.read, getElem?_take_of_lt hi, getElem?_drop]
  have hover : ∀ i, i < store.len →
      (((GoSlice.overwrite (h.cell store.array) (store.offset + o + n)
        (List.replicate (32 - n) 0)).drop store.offset).take store.len)[i]? =
        if o + n ≤ i ∧ i < o + 32 then some 0 else (store.read h.cell)[i]? := by
    intro i hi
    rw [getElem?_take_of_lt hi, getElem?_drop, GoSlice.getElem?_overwrite hfit, hread i hi,
      length_replicate]
    by_cases hmid : o + n ≤ i ∧ i < o + 32
    · rw [if_pos (by omega), if_pos hmid, getElem?_replicate, if_pos (by omega)]
    · rw [if_neg (by omega), if_neg hmid]
  constructor
  · intro heq i hlow hhigh hi
    rw [← heq, hover i hi, if_pos ⟨hlow, hhigh⟩]
  · intro hzero
    apply ext_getElem?
    intro i
    by_cases hi : i < store.len
    · rw [hover i hi]
      split
      · next hmid => exact (hzero i hmid.1 hmid.2 hi).symm
      · rfl
    · rw [GoSlice.read, getElem?_take_eq_none (by omega), getElem?_take_eq_none (by omega)]

theorem memoryKept_inPlace (hin : StoreIn h store) (hwindow : o + n ≤ store.len)
    (hpad : PadsInPlace store o n) (ops : List ByteOp) :
    MemoryKept grow h store o n ops ↔ ZeroBehind h store o n := by
  obtain ⟨arg, hptr, hcell⟩ := padInput_inPlace grow h hwindow hpad
  have hread : store.read (byteRun grow h arg ops).cell = store.read h.cell ↔
      ZeroBehind h store o n := by
    rw [← read_overwrite_zero_iff hin hpad, ← hcell, ← byteRun_store hin arg ops]
    rfl
  constructor
  · rintro ⟨arg', hptr', hkept⟩
    rw [hptr] at hptr'
    cases hptr'
    exact hread.mp hkept
  · intro hzero
    exact ⟨arg, hptr, hread.mpr hzero⟩

/-- A call leaves its caller's memory alone unless the padding lands on bytes that are not zero. -/
theorem memoryKept_iff (hin : StoreIn h store) (hwindow : o + n ≤ store.len) (ops : List ByteOp) :
    MemoryKept grow h store o n ops ↔ (PadsInPlace store o n → ZeroBehind h store o n) := by
  by_cases hpad : PadsInPlace store o n
  · rw [memoryKept_inPlace hin hwindow hpad]
    exact ⟨fun hzero _ => hzero, fun hzero => hzero hpad⟩
  · obtain ⟨arg, hptr, hcell⟩ := padInput_elsewhere grow hin hwindow hpad
    refine iff_of_true ⟨arg, hptr, ?_⟩ (fun h => absurd h hpad)
    apply GoSlice.read_congr
    rintro a ⟨rfl, -⟩
    rw [byteRun_store hin, hcell]

end caller

def onesHeap : ByteHeap := ⟨fun _ => List.replicate 64 1, 1⟩

def onesStore : GoSlice := ⟨0, 0, 64, 64, Nat.le_refl 64⟩

theorem onesStore_in : StoreIn onesHeap onesStore := ⟨Nat.one_pos, by decide⟩

/-- A memory with a selector at its front and nothing behind it. -/
def selectorHeap : ByteHeap := ⟨fun _ => List.replicate 4 1 ++ List.replicate 60 0, 1⟩

/-- The padding is written over the zeros, and the callee then writes to its own memory. -/
theorem memoryKept_selector : PadsInPlace onesStore 0 4 ∧
    MemoryKept id selectorHeap onesStore 0 4 [.resize 32, .set 0 fun _ _ => [7]] := by
  have hin : StoreIn selectorHeap onesStore := ⟨Nat.one_pos, by decide⟩
  refine ⟨⟨by decide, by decide, by decide⟩, (memoryKept_iff hin (by decide) _).mpr fun _ => ?_⟩
  intro i hlo hhi _
  interval_cases i <;> rfl

/-- A selector passed from the front of the memory: the 28 bytes behind it are cleared. -/
theorem selector_clears_memory :
    StoreIn onesHeap onesStore ∧ 0 + 4 ≤ onesStore.len ∧
      ¬ MemoryKept id onesHeap onesStore 0 4 [] := by
  have hpad : PadsInPlace onesStore 0 4 := ⟨by decide, by decide, by decide⟩
  refine ⟨onesStore_in, by decide, ?_⟩
  rw [memoryKept_inPlace onesStore_in (by decide) hpad]
  intro hzero
  have hbyte := hzero 4 (by decide) (by decide) (by decide)
  revert hbyte
  decide

end EtherVal.Vm
