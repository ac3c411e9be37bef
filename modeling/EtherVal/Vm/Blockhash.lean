import EtherVal.Lib.BigEndian
import EtherVal.Lib.Go
import EtherVal.Lib.GoMap

/-!
# BLOCKHASH under record and replay (`instructions.go:439-468`, `evm.go:792-841`)

A recorded transaction notes every answer of `BLOCKHASH` under the low 64 bits of the operand;
the notes become the hash function of the replay.
-/

namespace EtherVal.Vm
open EtherVal.Lib
open Uint256 (uint64WithOverflow uint64 bytes32 setBytes)

variable {num : Word} {nums : List Word}

structure BlockContext where
  getHash : Nat → Word
  coinbase : Address
  gasLimit : Nat
  blockNumber : Nat
  time : Nat
  difficulty : Option Nat
  baseFee : Option Nat
  blobBaseFee : Option Nat
  random : Option Word
  researchBlockHashes : Option (GoMap Nat Word)

structure BlockHashEntry where
  key : Option Nat
  value : Option Bytes

structure BlockEnv where
  blockHashes : List BlockHashEntry
  coinbase : Option Bytes
  difficulty : Option Bytes
  gasLimit : Option Nat
  number : Option Nat
  timestamp : Option Nat
  baseFee : Option Bytes
  random : Option Bytes
  blobBaseFee : Option Bytes

def bigIntToBytes (x : Option Nat) : Option Bytes := x.map natBytes

def bytesToBigInt (b : Option Bytes) : Option Nat := b.map beVal

theorem bytesToBigInt_bigIntToBytes (x : Option Nat) : bytesToBigInt (bigIntToBytes x) = x := by
  cases x with
  | none => rfl
  | some n => simp [bytesToBigInt, bigIntToBytes, beVal_natBytes]

/-- The entries of the map; a map is walked in key order here, so the sort has nothing left
to do. -/
def blockHashEntries (hashes : GoMap Nat Word) : List BlockHashEntry :=
  hashes.toList.map fun e => ⟨some e.1, some (bytes32 e.2)⟩

def BlockContext.saveSubstate (b : BlockContext) : BlockEnv where
  blockHashes := (b.researchBlockHashes.map blockHashEntries).getD []
  coinbase := some (Address.bytes b.coinbase)
  difficulty := bigIntToBytes b.difficulty
  gasLimit := some b.gasLimit
  number := some (b.blockNumber % uint64Mod)
  timestamp := some b.time
  baseFee := bigIntToBytes b.baseFee
  random := b.random.map bytes32
  blobBaseFee := bigIntToBytes b.blobBaseFee

def deref {α : Type} : Option α → Except GoPanic α
  | some a => .ok a
  | none => .error .nilDereference

def loadBlockHashes : List BlockHashEntry → GoMap Nat Word → Except GoPanic (GoMap Nat Word)
  | [], hashes => .ok hashes
  | entry :: rest, hashes => do
    let key ← deref entry.key
    let value ← deref entry.value
    loadBlockHashes rest (hashes.insert key (setBytes value))

def BlockContext.loadSubstate (b : BlockContext) (e : BlockEnv) : Except GoPanic BlockContext := do
  let coinbase ← deref e.coinbase
  let gasLimit ← deref e.gasLimit
  let number ← deref e.number
  let time ← deref e.timestamp
  let blockHashes ← loadBlockHashes e.blockHashes ∅
  return { b with
    coinbase := Address.ofBytes coinbase
    difficulty := bytesToBigInt e.difficulty
    gasLimit := gasLimit
    blockNumber := number
    time := time
    baseFee := bytesToBigInt e.baseFee
    random := e.random.map setBytes
    blobBaseFee := bytesToBigInt e.blobBaseFee
    getHash := fun num64 => blockHashes[num64]?.getD 0 }

def BlockContext.recent (b : BlockContext) (num64 : Nat) : Bool :=
  let upper := b.blockNumber % uint64Mod
  let lower := if upper < 257 then 0 else upper - 256
  lower ≤ num64 && num64 < upper

def BlockContext.blockhash (b : BlockContext) (num : Word) : Word :=
  let (num64, overflow) := uint64WithOverflow num
  if overflow then Uint256.clear
  else if b.recent num64 then b.getHash num64 else Uint256.clear

/-- `opBlockhash`: the deferred function notes the answer for every operand, also for one
that does not fit into 64 bits. -/
def opBlockhash (num : Word) (b : BlockContext) : Word × BlockContext :=
  let answer := b.blockhash num
  let hashes := b.researchBlockHashes.getD ∅
  (answer, { b with researchBlockHashes := some (hashes.insert (uint64 num) answer) })

def runBlockhash : List Word → BlockContext → List Word × BlockContext
  | [], b => ([], b)
  | num :: nums, b =>
    let (answer, b) := opBlockhash num b
    let (answers, b) := runBlockhash nums b
    (answer :: answers, b)

def BlockContext.noted (b : BlockContext) (num64 : Nat) : Option Word :=
  (b.researchBlockHashes.getD ∅)[num64]?

theorem opBlockhash_noted (num : Word) (b : BlockContext) (k : Nat) :
    (opBlockhash num b).2.noted k =
      if uint64 num = k then some (b.blockhash num) else b.noted k := by
  simp only [opBlockhash, BlockContext.noted, Option.getD_some]
  exact GoMap.get_insert _ _ _ _

theorem opBlockhash_blockhash (num : Word) (b : BlockContext) :
    (opBlockhash num b).2.blockhash = b.blockhash := rfl

def lastOperand (nums : List Word) (k : Nat) : Option Word :=
  (nums.filter fun num => uint64 num = k).getLast?

theorem lastOperand_cons (num : Word) (nums : List Word) (k : Nat) :
    lastOperand (num :: nums) k =
      if uint64 num = k then some ((lastOperand nums k).getD num)
      else lastOperand nums k := by
  unfold lastOperand
  by_cases h : uint64 num = k
  · rw [List.filter_cons_of_pos (by simpa using h), List.getLast?_cons, if_pos h]
  · rw [List.filter_cons_of_neg (by simpa using h), if_neg h]

theorem runBlockhash_answers (nums : List Word) (b : BlockContext) :
    (runBlockhash nums b).1 = nums.map b.blockhash := by
  induction nums generalizing b with
  | nil => rfl
  | cons num nums ih =>
    simp only [runBlockhash, List.map_cons, ih, opBlockhash_blockhash]
    rfl

theorem runBlockhash_blockNumber (nums : List Word) (b : BlockContext) :
    (runBlockhash nums b).2.blockNumber = b.blockNumber := by
  induction nums generalizing b with
  | nil => rfl
  | cons num nums ih => exact ih _

theorem runBlockhash_noted (nums : List Word) (b : BlockContext) (k : Nat) :
    (runBlockhash nums b).2.noted k =
      match lastOperand nums k with
      | some num => some (b.blockhash num)
      | none => b.noted k := by
  induction nums generalizing b with
  | nil => rfl
  | cons num nums ih =>
    have hrun : (runBlockhash (num :: nums) b).2 =
        (runBlockhash nums (opBlockhash num b).2).2 := rfl
    rw [hrun, ih, opBlockhash_blockhash, lastOperand_cons, opBlockhash_noted]
    by_cases h : uint64 num = k
    · rw [if_pos h, if_pos h]
      cases lastOperand nums k <;> rfl
    · rw [if_neg h, if_neg h]

theorem loadBlockHashes_map (l : List (Nat × Word)) (hashes : GoMap Nat Word) :
    loadBlockHashes (l.map fun e => ⟨some e.1, some (bytes32 e.2)⟩) hashes =
      .ok (l.foldl (fun m e => m.insert e.1 e.2) hashes) := by
  induction l generalizing hashes with
  | nil => rfl
  | cons e l ih =>
    rw [List.map_cons, List.foldl_cons, ← ih]
    simp [loadBlockHashes, deref, Uint256.setBytes_bytes32, bind, Except.bind]

theorem loadBlockHashes_entries (m : GoMap Nat Word) :
    loadBlockHashes (blockHashEntries m) ∅ = .ok m := by
  rw [blockHashEntries, loadBlockHashes_map]
  congr 1
  apply GoMap.ext
  intro k
  ext v
  refine (GoMap.get_foldl_insert (GoMap.toList_keys_nodup m) k v).trans ?_
  constructor
  · rintro (⟨e, he, rfl, rfl⟩ | ⟨-, h'⟩)
    · exact GoMap.mem_toList.mp he
    · simp at h'
  · intro hk
    exact .inl ⟨(k, v), GoMap.mem_toList.mpr hk, rfl, rfl⟩

/-- Loading what was saved restores every field but the hash function, which now answers
from the notes; the block number loses what is above 64 bits. -/
theorem loadSubstate_saveSubstate (r b : BlockContext) :
    r.loadSubstate b.saveSubstate = .ok { b with
      blockNumber := b.blockNumber % uint64Mod
      getHash := fun k => (b.noted k).getD 0
      researchBlockHashes := r.researchBlockHashes } := by
  have hhashes : loadBlockHashes b.saveSubstate.blockHashes ∅ =
      .ok (b.researchBlockHashes.getD ∅) := by
    cases h : b.researchBlockHashes with
    | none => simp [BlockContext.saveSubstate, h, loadBlockHashes]
    | some m => simp [BlockContext.saveSubstate, h, loadBlockHashes_entries]
  have hrandom : (b.random.map bytes32).map setBytes = b.random := by
    cases b.random with
    | none => rfl
    | some w => simp [Uint256.setBytes_bytes32]
  unfold BlockContext.loadSubstate
  rw [hhashes]
  simp only [BlockContext.saveSubstate, deref, bind, Except.bind, pure, Except.pure,
    Address.ofBytes_bytes, bytesToBigInt_bigIntToBytes, hrandom]
  rfl

/-- The replay answers like the recording: it starts from what the recording saved. -/
def ReplayAgrees (nums : List Word) (b r : BlockContext) : Prop :=
  ∃ r', r.loadSubstate (runBlockhash nums b).2.saveSubstate = .ok r' ∧
    (runBlockhash nums r').1 = (runBlockhash nums b).1

def NotesKept (nums : List Word) (b : BlockContext) : Prop :=
  ∀ num ∈ nums, Uint256.isUint64 num → b.recent num.toNat → b.getHash num.toNat ≠ 0 →
    ∀ last, lastOperand nums num.toNat = some last → Uint256.isUint64 last

theorem uint64_of_isUint64 (h : Uint256.isUint64 num = true) :
    uint64 num = num.toNat :=
  Nat.mod_eq_of_lt (by simpa [Uint256.isUint64] using h)

theorem blockhash_eq (b : BlockContext) (num : Word) :
    b.blockhash num =
      if Uint256.isUint64 num ∧ b.recent num.toNat then b.getHash num.toNat else 0 := by
  unfold BlockContext.blockhash uint64WithOverflow
  by_cases h : Uint256.isUint64 num = true
  · have hle : ¬ uint64Mod ≤ num.toNat := by
      have : num.toNat < uint64Mod := by simpa [Uint256.isUint64] using h
      omega
    simp only [hle, decide_false, Bool.false_eq_true, if_false, uint64_of_isUint64 h, h, true_and]
    rfl
  · have hle : uint64Mod ≤ num.toNat := by simpa [Uint256.isUint64] using h
    simp [hle, h, Uint256.clear]

theorem lastOperand_mem {k : Nat} {last : Word} (h : lastOperand nums k = some last) :
    last ∈ nums ∧ uint64 last = k := by
  have hmem := List.mem_of_getLast? h
  simpa using List.mem_filter.mp hmem

theorem lastOperand_isSome (h : num ∈ nums) :
    ∃ last, lastOperand nums (uint64 num) = some last := by
  cases hl : lastOperand nums (uint64 num) with
  | some last => exact ⟨last, rfl⟩
  | none =>
    have hnil := List.getLast?_eq_none_iff.mp hl
    have hmem : num ∈ nums.filter fun n => uint64 n = uint64 num := by simp [h]
    rw [hnil] at hmem
    cases hmem

theorem replayed_blockhash_iff (hmem : num ∈ nums) {b r' : BlockContext}
    (hnumber : r'.blockNumber = b.blockNumber % uint64Mod)
    (hhash : ∀ k, r'.getHash k = ((runBlockhash nums b).2.noted k).getD 0) :
    r'.blockhash num = b.blockhash num ↔
      (Uint256.isUint64 num → b.recent num.toNat → b.getHash num.toNat ≠ 0 →
        ∀ last, lastOperand nums num.toNat = some last → Uint256.isUint64 last) := by
  have hrecent : r'.recent num.toNat = b.recent num.toNat := by
    simp only [BlockContext.recent, hnumber, Nat.mod_mod]
  rw [blockhash_eq, blockhash_eq, hrecent]
  by_cases hask : Uint256.isUint64 num = true ∧ b.recent num.toNat = true
  swap
  · rw [if_neg hask, if_neg hask]
    simp only [true_iff]
    intro h1 h2
    exact absurd ⟨h1, h2⟩ hask
  rw [if_pos hask, if_pos hask, hhash, runBlockhash_noted]
  obtain ⟨last, hlast⟩ := lastOperand_isSome hmem
  rw [uint64_of_isUint64 hask.1] at hlast
  rw [hlast]
  simp only [Option.getD_some, Option.some.injEq, forall_eq', hask.1, hask.2, true_imp_iff]
  by_cases hfits : Uint256.isUint64 last = true
  · have heq : last = num := by
      apply BitVec.eq_of_toNat_eq
      rw [← uint64_of_isUint64 hfits, (lastOperand_mem hlast).2]
    rw [heq, blockhash_eq, if_pos hask]
    simp [hask.1]
  · -- the note of the larger operand is zero
    rw [blockhash_eq, if_neg (fun h => hfits h.1)]
    constructor
    · intro h0 hne
      exact absurd h0.symm hne
    · intro h
      by_contra hne
      exact hfits (h (Ne.symm hne))

theorem replay_agrees_iff (nums : List Word) (b r : BlockContext) :
    ReplayAgrees nums b r ↔ NotesKept nums b := by
  unfold ReplayAgrees NotesKept
  rw [loadSubstate_saveSubstate]
  simp only [Except.ok.injEq, exists_eq_left', runBlockhash_answers, List.map_inj_left]
  refine forall₂_congr fun num hmem => ?_
  refine replayed_blockhash_iff hmem ?_ (fun _ => rfl)
  simp only [runBlockhash_blockNumber]

def blockTen : BlockContext where
  getHash := fun k => if k = 5 then 0x1234 else 0
  coinbase := 0
  gasLimit := 0
  blockNumber := 10
  time := 0
  difficulty := none
  baseFee := none
  blobBaseFee := none
  random := none
  researchBlockHashes := none

/-- The operand 2^64 + 5 overwrites the note for block 5 with zero. -/
theorem replay_forgets_block_five :
    (runBlockhash [5, 0x10000000000000005] blockTen).1 = [0x1234, 0] ∧
      ¬ ReplayAgrees [5, 0x10000000000000005] blockTen blockTen := by
  refine ⟨by rw [runBlockhash_answers]; decide, ?_⟩
  rintro ⟨r', hload, hrun⟩
  rw [loadSubstate_saveSubstate] at hload
  cases hload
  rw [runBlockhash_answers, runBlockhash_answers, List.map_inj_left] at hrun
  have hnumber := runBlockhash_blockNumber [5, 0x10000000000000005] blockTen
  have hkept := (replayed_blockhash_iff (by decide) (congrArg (· % uint64Mod) hnumber)
    (fun _ => rfl)).mp (hrun 5 (by decide)) (by decide) (by decide) (by decide)
  exact absurd (hkept 0x10000000000000005 (by decide)) (by decide)

end EtherVal.Vm
