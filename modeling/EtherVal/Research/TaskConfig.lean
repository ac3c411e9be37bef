import EtherVal.Lib.GoMap
import EtherVal.Research.Substate
import Mathlib.Data.Finset.Basic

/-!
# Which transactions a task pool runs (`substate_task.go:17-77`, `125-174`)
-/

namespace EtherVal.Research
open EtherVal.Lib

structure SubstateTaskConfig where
  skipTransferTxs : Bool
  skipCallTxs : Bool
  skipCreateTxs : Bool
  txListEnabled : Bool
  /- the blocks and the transactions of the list file, and the blocks of those transactions -/
  blockSet : Finset Nat
  txSet : Finset (Nat × Int)
  txBlockSet : Finset Nat

namespace SubstateTaskConfig

def isBlockListed (config : SubstateTaskConfig) (block : Nat) : Bool :=
  if !config.txListEnabled then true
  else if block ∈ config.blockSet then true
  else decide (block ∈ config.txBlockSet)

def isTxListed (config : SubstateTaskConfig) (block : Nat) (tx : Int) : Bool :=
  if !config.txListEnabled then true
  else if block ∈ config.blockSet then true
  else decide ((block, tx) ∈ config.txSet)

def skipTx (config : SubstateTaskConfig) (substate : Substate) : Bool :=
  let receives (p : Nat → Bool) (addr : Bytes) : Bool :=
    substate.inputAlloc.any fun entry => entry.address == addr && p entry.account.getCode.len
  match substate.txMessage.toAddr with
  | some addr =>
    (config.skipTransferTxs && receives (· == 0) addr) ||
      (config.skipCallTxs && receives (fun n => decide (0 < n)) addr)
  | none => config.skipCreateTxs

end SubstateTaskConfig

abbrev Task := Int × Substate

/-- `GetBlockSubstatesWithTxList` on a block with the given substates -/
def getBlockSubstatesWithTxList (stored : GoMap Int Substate) (block : Nat)
    (config : SubstateTaskConfig) : List Task :=
  if !config.isBlockListed block then []
  else stored.toList.filter fun t => config.isTxListed block t.1

def blockTasks (stored : GoMap Int Substate) (block : Nat) (config : SubstateTaskConfig) :
    List Task :=
  (getBlockSubstatesWithTxList stored block config).filter fun t => !config.skipTx t.2

theorem mem_blockTasks {stored : GoMap Int Substate} {block : Nat} {config : SubstateTaskConfig}
    {tx : Int} {substate : Substate} :
    (tx, substate) ∈ blockTasks stored block config ↔ stored[tx]? = some substate ∧
      config.isBlockListed block = true ∧ config.isTxListed block tx = true ∧
      config.skipTx substate = false := by
  unfold blockTasks getBlockSubstatesWithTxList
  rw [List.mem_filter]
  cases hb : config.isBlockListed block with
  | false => simp
  | true =>
    simp only [Bool.not_true, Bool.false_eq_true, if_false, List.mem_filter, GoMap.mem_toList,
      Bool.not_eq_true', true_and, and_assoc]

theorem blockTasks_nodup (stored : GoMap Int Substate) (block : Nat) (config : SubstateTaskConfig) :
    ((blockTasks stored block config).map Prod.fst).Nodup := by
  have hnd := GoMap.toList_keys_nodup stored
  unfold blockTasks getBlockSubstatesWithTxList
  split
  · simp
  · refine List.Sublist.nodup (List.Sublist.map _ ?_) hnd
    exact (List.filter_sublist).trans List.filter_sublist

end EtherVal.Research
