import EtherVal.Vm.MemoryReached

/-!
# The memory limit (`extended_memory.go`)

Each resize compares the limit with the fee of what is new, so the limit bounds the total only for
a memory that is grown at once.
-/

namespace EtherVal.Vm
open EtherVal.Lib

inductive MemCall where
  | set (offset size : Nat) (value : Bytes)
  | set32 (offset : Nat) (val : Word)
  | set1 (offset : Nat) (val : UInt8)
  | getCopy (offset size : Int)
  | getPtr (offset size : Int)
  | resize (newMemSize : Nat)

namespace MemCall

def run (m : Memory) (maxGas : Nat) : MemCall → MemResult Unit
  | set offset size value => m.extSet offset size value maxGas
  | set32 offset val => m.extSet32 offset val maxGas
  | set1 offset val => m.extSet1 offset val maxGas
  | getCopy offset size | getPtr offset size =>
    (m.extGetPtr offset size maxGas).map fun r => (r.1.map fun _ => (), r.2)
  | resize newMemSize => .ok (m.extResize newMemSize maxGas)

def size : MemCall → Nat
  | set offset size _ => if 0 < size then (offset + size) % uint64Mod else 0
  | set32 offset _ => (offset + 32) % uint64Mod
  | set1 offset _ => (offset + 1) % uint64Mod
  | getCopy offset size | getPtr offset size => ofInt64 (addInt64 offset size)
  | resize newMemSize => newMemSize

end MemCall

inductive MemCalls (maxGas : Nat) : List MemCall → Memory → Prop
  | nil : MemCalls maxGas [] newMemory
  | snoc {calls call m m'} : MemCalls maxGas calls m → call.run m maxGas = .ok (.ok (), m') →
      MemCalls maxGas (calls ++ [call]) m'

section
variable {α : Type} {m m' : Memory} {n maxGas : Nat}

theorem afterResize_ok {a : α} {access : Memory → Except GoPanic (α × Memory)} (hpaid : m.Paid)
    (hok : m.afterResize n maxGas access = .ok (.ok a, m')) :
    ¬ m.Refuses n maxGas ∧ access (m.grown n) = .ok (a, m') := by
  by_cases hrefuse : m.Refuses n maxGas
  · obtain ⟨e, m', heq, -⟩ := Memory.afterResize_refused hpaid hrefuse access
    rw [heq] at hok
    cases (Prod.mk.inj (Except.ok.inj hok)).1
  · rw [Memory.afterResize_granted hpaid hrefuse] at hok
    refine ⟨hrefuse, ?_⟩
    cases hg : access (m.grown n) with
    | error p =>
      rw [hg] at hok
      cases hok
    | ok q =>
      rw [hg] at hok
      obtain ⟨ha, rfl⟩ := Prod.mk.inj (Except.ok.inj hok)
      rw [← Except.ok.inj ha]

structure GrownTo (m : Memory) (n maxGas : Nat) (m' : Memory) : Prop where
  granted : ¬ m.Refuses n maxGas
  paid : m'.Paid
  len : m'.len = (m.grown n).len

theorem GrownTo.of_store (hpaid : m.Paid) (hn : ¬ m.Refuses n maxGas) {store : Bytes}
    (hlen : store.length = (m.grown n).store.length) :
    GrownTo m n maxGas { m.grown n with store } := by
  have hle : n ≤ maxMemorySize := by
    have := not_or.mp hn
    omega
  exact ⟨hn, (hpaid.grown hle).of_store hlen, hlen⟩

theorem GrownTo.copied (hpaid : m.Paid) {high : Memory → Nat} {low : Nat} {value : Bytes}
    (hok : m.afterResize n maxGas (fun m => do
      let store ← copyInto m.store low (high m) value
      return ((), { m with store })) = .ok (.ok (), m')) : GrownTo m n maxGas m' := by
  obtain ⟨hn, hacc⟩ := afterResize_ok hpaid hok
  obtain ⟨store, hstore, hacc⟩ := bind_ok hacc
  cases hacc
  exact GrownTo.of_store hpaid hn (length_copyInto hstore)

theorem GrownTo.read (hpaid : m.Paid) {offset size : Int}
    (hok : ((m.extGetPtr offset size maxGas).map
      fun r => ((r.1.map fun _ => () : Except VmError Unit), r.2)) = .ok (.ok (), m')) :
    GrownTo m (ofInt64 (addInt64 offset size)) maxGas m' := by
  cases hget : m.extGetPtr offset size maxGas with
  | error p =>
    rw [hget] at hok
    cases hok
  | ok r =>
    obtain ⟨r, g⟩ := r
    rw [hget] at hok
    obtain ⟨hr, rfl⟩ := Prod.mk.inj (Except.ok.inj hok)
    cases r with
    | error e => cases hr
    | ok b =>
      obtain ⟨hn, hacc⟩ := afterResize_ok hpaid hget
      obtain ⟨_, -, hacc⟩ := bind_ok hacc
      cases hacc
      exact GrownTo.of_store hpaid hn rfl

theorem MemCall.run_ok {call : MemCall} (hpaid : m.Paid)
    (hok : call.run m maxGas = .ok (.ok (), m')) : GrownTo m call.size maxGas m' := by
  cases call with
  | set offset size value =>
    simp only [MemCall.run, Memory.extSet] at hok
    split at hok
    · next hpos =>
      simp only [MemCall.size, if_pos hpos]
      exact GrownTo.copied hpaid hok
    · next hzero =>
      cases hok
      simp only [MemCall.size, if_neg hzero]
      have hfee : m.newFee 0 = 0 := Memory.newFee_of_le hpaid (Nat.zero_le _)
      refine ⟨?_, hpaid, by rw [Memory.grown_zero]⟩
      rintro (hsize | hgas)
      · omega
      · omega
  | set32 offset val => exact GrownTo.copied hpaid hok
  | set1 offset val =>
    obtain ⟨hn, hacc⟩ := afterResize_ok hpaid hok
    split at hacc
    · cases hacc
      exact GrownTo.of_store hpaid hn (List.length_set ..)
    · cases hacc
  | getCopy offset size | getPtr offset size => exact GrownTo.read hpaid hok
  | resize newMemSize =>
    have hpair : m.extResize newMemSize maxGas = (.ok (), m') := Except.ok.inj hok
    by_cases hn : m.Refuses newMemSize maxGas
    · obtain ⟨e, g, heq, -⟩ := Memory.extResize_refused hpaid hn
      rw [heq] at hpair
      cases hpair
    · rw [Memory.extResize_granted hpaid hn] at hpair
      cases hpair
      exact GrownTo.of_store hpaid hn rfl

theorem MemCalls.paid {calls : List MemCall} (h : MemCalls maxGas calls m) : m.Paid := by
  induction h with
  | nil => exact Memory.paid_newMemory
  | snoc _ hok ih => exact (MemCall.run_ok ih hok).paid

end

def Memory.totalFee (m : Memory) : Nat := memoryFee (m.len / 32)

def WithinLimit (maxGas : Nat) (calls : List MemCall) : Prop :=
  ∀ done m, done <+: calls → MemCalls maxGas done m → m.totalFee ≤ maxGas

def GrownAtOnce (maxGas : Nat) (calls : List MemCall) : Prop :=
  ∀ done call m m', done ++ [call] <+: calls → MemCalls maxGas done m →
    call.run m maxGas = .ok (.ok (), m') → m.len ≠ 0 → m.len < 32 * wordsFor call.size →
    memoryFee (wordsFor call.size) ≤ maxGas

theorem totalFee_grown {m m' : Memory} {n maxGas : Nat} (h : GrownTo m n maxGas m')
    (hlt : m.len < 32 * wordsFor n) : m'.totalFee = memoryFee (wordsFor n) := by
  rw [Memory.totalFee, h.len, Memory.len_grown, Nat.max_eq_right (by omega),
    Nat.mul_div_cancel_left _ (by decide)]

theorem totalFee_step {m m' : Memory} {n maxGas : Nat} (h : GrownTo m n maxGas m')
    (hfee : m.totalFee ≤ maxGas)
    (honce : m.len ≠ 0 → m.len < 32 * wordsFor n → memoryFee (wordsFor n) ≤ maxGas) :
    m'.totalFee ≤ maxGas := by
  by_cases hlt : m.len < 32 * wordsFor n
  · rw [totalFee_grown h hlt]
    by_cases hempty : m.len = 0
    · -- the fee of what is new is the whole fee
      have hnew := (not_or.mp h.granted).2
      unfold Memory.newFee at hnew
      rw [hempty] at hnew
      have hzero : memoryFee (0 / 32) = 0 := rfl
      omega
    · exact honce hempty hlt
  · have hsame : m'.len = m.len := by
      rw [h.len, Memory.grown_of_le (by omega)]
    rw [Memory.totalFee, hsame]
    exact hfee

/-- The limit bounds the total fee in exactly the runs that never grow a memory that is not empty
beyond it. -/
theorem withinLimit_iff (maxGas : Nat) (calls : List MemCall) :
    WithinLimit maxGas calls ↔ GrownAtOnce maxGas calls := by
  constructor
  · intro h done call m m' hpre hdone hok _ hlt
    have hgrown := MemCall.run_ok hdone.paid hok
    have hfee := h _ m' hpre (hdone.snoc hok)
    rw [totalFee_grown hgrown hlt] at hfee
    exact hfee
  · intro h done m hpre hdone
    induction hdone with
    | nil => exact Nat.zero_le _
    | @snoc done call m m' hdone hok ih =>
      have hfee := ih ((List.prefix_append _ _).trans hpre)
      exact totalFee_step (MemCall.run_ok hdone.paid hok) hfee (h done call m m' hpre hdone hok)

/-- Two words, one after the other, at a limit that pays for one. -/
theorem two_words_exceed_limit : ¬ WithinLimit 3 [.set32 0 0, .set32 32 0] := by
  intro h
  have hone : MemCalls 3 [.set32 0 0] ⟨List.replicate 32 0, 3⟩ :=
    MemCalls.nil.snoc (by rfl)
  have htwo : MemCalls 3 [.set32 0 0, .set32 32 0] ⟨List.replicate 64 0, 6⟩ :=
    hone.snoc (by rfl)
  have hfee := h _ _ (List.prefix_refl _) htwo
  revert hfee
  decide

end EtherVal.Vm
