import EtherVal.Lib.Transition
import EtherVal.Research.TaskConfig

/-!
# The task pool (`substate_task.go:79-317`)

`ExecuteSegment` as a transition system.  The goroutines are the `numWorkers` workers, the work
producer and the caller itself (`Main`); the channels are queues with the capacities the source
gives them, and a `select` takes any of its cases that is ready.
-/

namespace EtherVal.Research
open EtherVal.Lib Relation

structure BlockSegment where
  first : Nat
  last : Nat
  first_le : first ≤ last
  last_lt : last < 2 ^ 64

structure SubstateTaskPool where
  name : String
  config : SubstateTaskConfig
  numWorkers : Nat
  pos : 0 < numWorkers
  /- the substates of each block in the database -/
  db : Nat → GoMap Int Substate
  /- what a call of `TaskFunc` may return: an error or nil -/
  taskFunc : Nat → Int → Substate → Option String → Prop

structure TaskError where
  name : String
  block : Nat
  tx : Int
  err : String
  deriving DecidableEq, Repr

inductive Outcome where
  | block (block : Nat)
  | error (err : TaskError)
  deriving DecidableEq, Repr

namespace Outcome

def origin : Outcome → Nat
  | block b => b
  | error e => e.block

def Ok (o : Outcome) : Prop := o = .block o.origin

end Outcome

inductive Worker where
  | waiting
  /- in the loop of `ExecuteBlock` -/
  | executing (block : Nat) (todo : List Task)
  /- inside `TaskFunc` -/
  | calling (block : Nat) (task : Task) (todo : List Task)
  | sending (outcome : Outcome)
  | returned

inductive Producer where
  | loop (block : Nat)
  /- returned at the end of the loop, or by a stop -/
  | finished
  | stopped
  deriving DecidableEq

inductive Main where
  | loop (block : Nat) (waitMap : Finset Nat)
  /- the deferred function: sending stops, then in `wg.Wait` -/
  | stopping (result : Option TaskError) (sent : Nat)
  | joining (result : Option TaskError)
  | returned (result : Option TaskError)

structure Call where
  block : Nat
  task : Task
  err : Option String

structure PoolState where
  workChan : List Nat
  doneChan : List Outcome
  stopChan : Nat
  producer : Producer
  workers : List Worker
  main : Main
  /- for the statements only: what has been received from `doneChan`, and the finished calls -/
  received : List Outcome
  calls : List Call

def nextBlock (block : Nat) : Nat := (block + 1) % 2 ^ 64

section Pool
variable (pool : SubstateTaskPool) (segment : BlockSegment)

def SubstateTaskPool.txSubstates (block : Nat) : List Task :=
  getBlockSubstatesWithTxList (pool.db block) block pool.config

def SubstateTaskPool.tasks (block : Nat) : List Task :=
  blockTasks (pool.db block) block pool.config

def PoolState.init : PoolState where
  workChan := []
  doneChan := []
  stopChan := 0
  producer := .loop segment.first
  workers := List.replicate pool.numWorkers .waiting
  main := .loop segment.first ∅
  received := []
  calls := []

inductive PoolStep : PoolState → PoolState → Prop
  -- the work producer
  | produce {s block} : s.producer = .loop block → block ≤ segment.last →
      s.workChan.length < pool.numWorkers * 1000 →
      PoolStep s { s with workChan := s.workChan ++ [block], producer := .loop (nextBlock block) }
  | produceStop {s block} : s.producer = .loop block → block ≤ segment.last → 0 < s.stopChan →
      PoolStep s { s with stopChan := s.stopChan - 1, producer := .stopped }
  | produceEnd {s block} : s.producer = .loop block → segment.last < block →
      PoolStep s { s with producer := .finished }
  -- a worker; a map is walked in any order
  | take {s pre post block rest order} : s.workers = pre ++ .waiting :: post →
      s.workChan = block :: rest → order.Perm (pool.txSubstates block) →
      PoolStep s { s with workChan := rest, workers := pre ++ .executing block order :: post }
  | stop {s pre post} : s.workers = pre ++ .waiting :: post → 0 < s.stopChan →
      PoolStep s { s with stopChan := s.stopChan - 1, workers := pre ++ .returned :: post }
  | skip {s pre post block task todo} :
      s.workers = pre ++ .executing block (task :: todo) :: post →
      pool.config.skipTx task.2 = true →
      PoolStep s { s with workers := pre ++ .executing block todo :: post }
  | call {s pre post block task todo} :
      s.workers = pre ++ .executing block (task :: todo) :: post →
      pool.config.skipTx task.2 = false →
      PoolStep s { s with workers := pre ++ .calling block task todo :: post }
  | callReturns {s pre post block task todo} :
      s.workers = pre ++ .calling block task todo :: post →
      pool.taskFunc block task.1 task.2 none →
      PoolStep s { s with
        workers := pre ++ .executing block todo :: post
        calls := ⟨block, task, none⟩ :: s.calls }
  | callFails {s pre post block task todo err} :
      s.workers = pre ++ .calling block task todo :: post →
      pool.taskFunc block task.1 task.2 (some err) →
      PoolStep s { s with
        workers := pre ++ .sending (.error ⟨pool.name, block, task.1, err⟩) :: post
        calls := ⟨block, task, some err⟩ :: s.calls }
  | finish {s pre post block} : s.workers = pre ++ .executing block [] :: post →
      PoolStep s { s with workers := pre ++ .sending (.block block) :: post }
  | send {s pre post outcome} : s.workers = pre ++ .sending outcome :: post →
      s.doneChan.length < pool.numWorkers * 1000 →
      PoolStep s { s with
        doneChan := s.doneChan ++ [outcome], workers := pre ++ .waiting :: post }
  -- the main loop
  | count {s block waitMap} : s.main = .loop block waitMap → block ≤ segment.last →
      block ∈ waitMap →
      PoolStep s { s with main := .loop (nextBlock block) (waitMap.erase block) }
  | receive {s block waitMap b rest} : s.main = .loop block waitMap → block ≤ segment.last →
      block ∉ waitMap → s.doneChan = .block b :: rest →
      PoolStep s { s with
        doneChan := rest, received := s.received ++ [.block b]
        main := .loop block (insert b waitMap) }
  | receiveError {s block waitMap err rest} : s.main = .loop block waitMap →
      block ≤ segment.last → block ∉ waitMap → s.doneChan = .error err :: rest →
      PoolStep s { s with
        doneChan := rest, received := s.received ++ [.error err], main := .stopping (some err) 0 }
  | loopEnd {s block waitMap} : s.main = .loop block waitMap → segment.last < block →
      PoolStep s { s with main := .stopping none 0 }
  -- the deferred function
  | sendStop {s result sent} : s.main = .stopping result sent → sent ≤ pool.numWorkers →
      s.stopChan < pool.numWorkers →
      PoolStep s { s with stopChan := s.stopChan + 1, main := .stopping result (sent + 1) }
  | stopsSent {s result sent} : s.main = .stopping result sent → pool.numWorkers < sent →
      PoolStep s { s with main := .joining result }
  | join {s result} : s.main = .joining result → (∀ w ∈ s.workers, w = .returned) →
      (s.producer = .finished ∨ s.producer = .stopped) →
      PoolStep s { s with main := .returned result }

def PoolReaches (s : PoolState) : Prop :=
  ReflTransGen (PoolStep pool segment) (.init pool segment) s

end Pool

namespace Worker

def held : Worker → Option Nat
  | executing b _ | calling b _ _ => some b
  | sending o => some o.origin
  | _ => none

def outcome : Worker → Option Outcome
  | sending o => some o
  | _ => none

def running : Worker → Option (Nat × Task)
  | calling b task _ => some (b, task)
  | _ => none

end Worker

def PoolState.made (s : PoolState) : List (Nat × Task) :=
  s.calls.map (fun c => (c.block, c.task)) ++ s.workers.filterMap Worker.running

end EtherVal.Research
