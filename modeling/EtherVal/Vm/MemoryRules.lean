import EtherVal.Vm.Memory

/-!
# Rules for the memory of a frame
-/

namespace EtherVal.Vm
open EtherVal.Lib

variable {n o : Nat} {m : Memory}

def wordsFor (n : Nat) : Nat := (n + 31) / 32

theorem toWordSize_eq (h : n ≤ maxMemorySize) : toWordSize n = wordsFor n := by
  unfold toWordSize
  rw [if_neg]
  · rfl
  · unfold maxMemorySize at h
    unfold maxUint64
    omega

theorem wordsFor_le (h : n ≤ maxMemorySize) : 32 * wordsFor n ≤ maxMemorySize := by
  unfold maxMemorySize wordsFor at *
  omega

theorem le_wordsFor (n : Nat) : n ≤ 32 * wordsFor n := by
  unfold wordsFor
  omega

@[simp] theorem wordsFor_mul (w : Nat) : wordsFor (32 * w) = w := by
  unfold wordsFor
  omega

theorem memoryFee_mono {v w : Nat} (h : v ≤ w) : memoryFee v ≤ memoryFee w := by
  have hsquare : v * v ≤ w * w := Nat.mul_le_mul h h
  have hquad : v * v / 512 ≤ w * w / 512 := Nat.div_le_div_right hsquare
  unfold memoryFee
  omega

theorem memoryFee_lt (h : n ≤ maxMemorySize) : memoryFee (wordsFor n) < 2 ^ 62 := by
  have hwords : wordsFor n ≤ 2 ^ 32 := by
    unfold maxMemorySize at h
    unfold wordsFor
    omega
  calc memoryFee (wordsFor n) ≤ memoryFee (2 ^ 32) := memoryFee_mono hwords
    _ < 2 ^ 62 := by decide

namespace Memory

structure Paid (m : Memory) : Prop where
  aligned : 32 * (m.len / 32) = m.len
  fee : m.lastGasCost = memoryFee (m.len / 32)
  bound : m.len ≤ maxMemorySize

def newFee (m : Memory) (n : Nat) : Nat := memoryFee (wordsFor n) - memoryFee (m.len / 32)

def Refuses (m : Memory) (n maxGas : Nat) : Prop := maxMemorySize < n ∨ maxGas < m.newFee n

instance (m : Memory) (n maxGas : Nat) : Decidable (m.Refuses n maxGas) :=
  inferInstanceAs (Decidable (_ ∨ _))

def grown (m : Memory) (n : Nat) : Memory :=
  if m.len < 32 * wordsFor n then
    ⟨m.store ++ List.replicate (32 * wordsFor n - m.len) 0, memoryFee (wordsFor n)⟩
  else m

theorem len_grown (m : Memory) (n : Nat) : (m.grown n).len = max m.len (32 * wordsFor n) := by
  unfold grown
  split
  · next h =>
    simp only [len, List.length_append, List.length_replicate] at h ⊢
    omega
  · next h => omega

theorem le_len_grown (m : Memory) (n : Nat) : n ≤ (m.grown n).len := by
  have h := le_wordsFor n
  rw [len_grown]
  omega

theorem grown_of_le (h : 32 * wordsFor n ≤ m.len) : m.grown n = m := by
  unfold grown
  rw [if_neg (by omega)]

@[simp] theorem grown_zero (m : Memory) : m.grown 0 = m := grown_of_le (Nat.zero_le _)

@[simp] theorem grown_words (m : Memory) (n : Nat) : m.grown (32 * wordsFor n) = m.grown n := by
  unfold grown
  rw [wordsFor_mul]

theorem newFee_words (m : Memory) (n : Nat) : m.newFee (32 * wordsFor n) = m.newFee n := by
  unfold newFee
  rw [wordsFor_mul]

theorem newFee_of_le (h : m.Paid) (hn : 32 * wordsFor n ≤ m.len) :
    m.newFee n = 0 := by
  have hwords : wordsFor n ≤ m.len / 32 := by
    have := h.aligned
    omega
  exact Nat.sub_eq_zero_of_le (memoryFee_mono hwords)

theorem Paid.grown (h : m.Paid) (hn : n ≤ maxMemorySize) :
    (m.grown n).Paid := by
  by_cases hlt : m.len < 32 * wordsFor n
  · have hlen : (m.grown n).len = 32 * wordsFor n := by
      rw [len_grown]
      omega
    have hcost : (m.grown n).lastGasCost = memoryFee (wordsFor n) := by
      unfold Memory.grown
      rw [if_pos hlt]
    refine ⟨?_, ?_, ?_⟩
    · omega
    · rw [hcost, hlen, Nat.mul_div_cancel_left _ (by decide)]
    · rw [hlen]
      exact wordsFor_le hn
  · rw [grown_of_le (by omega)]
    exact h

theorem paid_newMemory : newMemory.Paid := ⟨rfl, rfl, Nat.zero_le _⟩

theorem memoryGasCost_eq (h : m.Paid) (hn : n ≤ maxMemorySize) :
    memoryGasCost m n = .ok (m.newFee n, { m with lastGasCost := (m.grown n).lastGasCost }) := by
  unfold memoryGasCost
  split
  · next hzero =>
    subst hzero
    rw [newFee_of_le h (Nat.zero_le _), grown_zero]
  · rw [if_neg (by omega), toWordSize_eq hn]
    dsimp only
    split
    · next hlt =>
      have hlt' : m.len < 32 * wordsFor n := by omega
      have hwords : m.len / 32 ≤ wordsFor n := by omega
      have hle : m.lastGasCost ≤ memoryFee (wordsFor n) := by
        rw [h.fee]
        exact memoryFee_mono hwords
      have hfee : (memoryFee (wordsFor n) + uint64Mod - m.lastGasCost) % uint64Mod =
          m.newFee n := by
        have hrange := memoryFee_lt hn
        unfold newFee
        rw [← h.fee]
        unfold uint64Mod
        omega
      have hcost : (m.grown n).lastGasCost = memoryFee (wordsFor n) := by
        unfold Memory.grown
        rw [if_pos hlt']
      rw [hfee, hcost]
    · next hle =>
      have hle' : 32 * wordsFor n ≤ m.len := by omega
      rw [newFee_of_le h hle', grown_of_le hle']

theorem memoryGasCost_of_lt (hn : maxMemorySize < n) :
    memoryGasCost m n = .error .gasUintOverflow := by
  unfold memoryGasCost
  rw [if_neg (by omega), if_pos hn]

theorem resize_noted (m : Memory) (n : Nat) :
    (if 0 < 32 * wordsFor n then
      ({ m with lastGasCost := (m.grown n).lastGasCost } : Memory).resize (32 * wordsFor n)
    else { m with lastGasCost := (m.grown n).lastGasCost }) = m.grown n := by
  unfold resize grown len
  by_cases hlt : m.store.length < 32 * wordsFor n
  · rw [if_pos (by omega), if_pos hlt, if_pos hlt]
  · simp only [if_neg hlt, ite_self]

theorem extResize_granted (h : m.Paid) {maxGas : Nat} (hn : ¬ m.Refuses n maxGas) :
    m.extResize n maxGas = (.ok (), m.grown n) := by
  obtain ⟨hsize, hfee⟩ := not_or.mp hn
  have hle : n ≤ maxMemorySize := by omega
  have hno : ¬ uint64Mod ≤ wordsFor n * 32 := by
    have := wordsFor_le hle
    unfold maxMemorySize at this
    unfold uint64Mod
    omega
  have hmul : wordsFor n * 32 % uint64Mod = 32 * wordsFor n := by
    rw [Nat.mod_eq_of_lt (by omega), Nat.mul_comm]
  unfold extResize
  rw [memoryGasCost_eq h hle]
  dsimp only
  rw [if_neg hfee, toWordSize_eq hle]
  simp only [safeMul, hno, decide_false, Bool.false_eq_true, if_false, hmul]
  rw [resize_noted]

theorem extResize_refused (h : m.Paid) {maxGas : Nat} (hn : m.Refuses n maxGas) :
    ∃ e m', m.extResize n maxGas = (.error e, m') ∧ (e = .gasUintOverflow ∨ e = .outOfGas) := by
  by_cases hsize : maxMemorySize < n
  · refine ⟨.gasUintOverflow, m, ?_, .inl rfl⟩
    unfold extResize
    rw [memoryGasCost_of_lt hsize]
  · have hfee : maxGas < m.newFee n := hn.resolve_left hsize
    refine ⟨.outOfGas, { m with lastGasCost := (m.grown n).lastGasCost }, ?_, .inr rfl⟩
    unfold extResize
    rw [memoryGasCost_eq h (by omega)]
    dsimp only
    rw [if_pos hfee]

variable {α : Type} {m : Memory} {n maxGas : Nat}

theorem afterResize_granted (h : m.Paid) (hn : ¬ m.Refuses n maxGas)
    (access : Memory → Except GoPanic (α × Memory)) :
    m.afterResize n maxGas access = (access (m.grown n)).map fun p => (.ok p.1, p.2) := by
  unfold afterResize
  rw [extResize_granted h hn]

theorem afterResize_refused (h : m.Paid) (hn : m.Refuses n maxGas)
    (access : Memory → Except GoPanic (α × Memory)) :
    ∃ e m', m.afterResize n maxGas access = .ok (.error e, m') ∧
      (e = .gasUintOverflow ∨ e = .outOfGas) := by
  obtain ⟨e, m', heq, hcases⟩ := extResize_refused h hn
  refine ⟨e, m', ?_, hcases⟩
  unfold afterResize
  rw [heq]

def bytesAt (m : Memory) (o n : Nat) : Bytes := (m.store.take (o + n)).drop o

def written (m : Memory) (o : Nat) (value : Bytes) : Memory :=
  { m with store := m.store.take o ++ value ++ m.store.drop (o + value.length) }

theorem len_written {value : Bytes} (h : o + value.length ≤ m.len) :
    (m.written o value).len = m.len := by
  unfold len written at *
  simp only [List.length_append, List.length_take, List.length_drop]
  omega

theorem copyInto_eq {k : Nat} {value : Bytes} (hvalue : value.length ≤ k - o) (hk : o ≤ k)
    (hle : k ≤ m.len) :
    copyInto m.store o k value = .ok (m.written o value).store := by
  unfold copyInto
  rw [if_pos ⟨hk, hle⟩]
  simp only [List.take_of_length_le hvalue]
  rfl

theorem toInt64_of_lt {x : Nat} (h : x ≤ maxMemorySize) : toInt64 x = x := by
  unfold maxMemorySize at h
  unfold toInt64
  rw [if_pos (by omega)]

theorem addInt64_of_lt {x y : Nat} (h : x + y ≤ maxMemorySize) :
    addInt64 (x : Int) y = (x + y : Nat) := by
  have hof : ofInt64 ((x : Int) + y) = x + y := by
    unfold maxMemorySize at h
    unfold ofInt64
    omega
  unfold addInt64
  rw [hof, toInt64_of_lt h]

theorem getPtr_eq (hle : o + n ≤ m.len) (hbound : o + n ≤ maxMemorySize) :
    m.getPtr o n = .ok (m.bytesAt o n) := by
  unfold getPtr
  split
  · next hzero =>
    obtain rfl : n = 0 := by omega
    simp [bytesAt]
  · rw [if_pos (by omega), addInt64_of_lt hbound]
    unfold slice
    rw [if_pos ⟨by omega, by omega, by exact_mod_cast hle⟩]
    rfl

end Memory
end EtherVal.Vm
