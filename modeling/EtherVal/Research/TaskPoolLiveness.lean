import EtherVal.Research.TaskPoolRun

/-!
# When the task pool can be stuck

Every run ends if the block counters do not wrap around.  A state without a step in which
`ExecuteSegment` has not returned is one where a task failed, `doneChan` is full and a worker
still has an outcome to send.
-/

namespace EtherVal.Research
open EtherVal.Lib Relation List

variable {w : Worker}

namespace Worker

def isReturned : Worker → Bool
  | returned => true
  | _ => false

def weight : Worker → Nat
  | waiting => 1
  | executing _ todo => 2 * todo.length + 6
  | calling _ _ todo => 2 * todo.length + 7
  | sending _ => 5
  | returned => 0

end Worker

def Main.stopsSent (numWorkers : Nat) : Main → Nat
  | .loop _ _ => 0
  | .stopping _ sent => sent
  | .joining _ | .returned _ => numWorkers + 1

section Pool
variable {pool : SubstateTaskPool} {segment : BlockSegment} {s t : PoolState}

structure StopsTracked (pool : SubstateTaskPool) (s : PoolState) : Prop where
  sum : s.main.stopsSent pool.numWorkers = s.stopChan + s.workers.countP Worker.isReturned +
    (if s.producer = .stopped then 1 else 0)
  le : s.main.stopsSent pool.numWorkers ≤ pool.numWorkers + 1

theorem StopsTracked.step (h : StopsTracked pool s) (hst : PoolStep pool segment s t) :
    StopsTracked pool t := by
  have hsum := h.sum
  have hle := h.le
  cases hst with
  | produce hp =>
    rw [hp] at hsum
    exact ⟨by simpa using hsum, hle⟩
  | produceStop hp _ hpos =>
    rw [hp] at hsum
    refine ⟨?_, hle⟩
    simp only [reduceCtorEq, if_false, if_true] at hsum ⊢
    omega
  | produceEnd hp =>
    rw [hp] at hsum
    exact ⟨by simpa using hsum, hle⟩
  | take hw | skip hw | call hw | callReturns hw | callFails hw | finish hw | send hw =>
    rw [hw] at hsum
    refine ⟨?_, hle⟩
    simpa [countP_cons, Worker.isReturned] using hsum
  | stop hw hpos =>
    rw [hw] at hsum
    refine ⟨?_, hle⟩
    simp only [countP_append, countP_cons, Worker.isReturned, Bool.false_eq_true,
      if_false, if_true] at hsum ⊢
    omega
  | count hm | receive hm | receiveError hm | loopEnd hm =>
    rw [hm] at hsum
    exact ⟨hsum, Nat.zero_le _⟩
  | sendStop hm hsent =>
    rw [hm] at hsum hle
    simp only [Main.stopsSent] at hsum hle
    refine ⟨?_, ?_⟩
    · simp only [Main.stopsSent]
      omega
    · simp only [Main.stopsSent]
      omega
  | stopsSent hm hlt =>
    rw [hm] at hsum hle
    simp only [Main.stopsSent] at hsum hle
    refine ⟨?_, Nat.le_refl _⟩
    simp only [Main.stopsSent]
    omega
  | join hm =>
    rw [hm] at hsum
    exact ⟨hsum, Nat.le_refl _⟩

theorem stopsTracked_of_reaches (h : PoolReaches pool segment s) : StopsTracked pool s := by
  apply reach_invariant (fun _ _ hs hst => StopsTracked.step hs hst) h
  refine ⟨?_, Nat.zero_le _⟩
  simp [PoolState.init, Main.stopsSent, Worker.isReturned, countP_replicate]

theorem workers_length_of_reaches (h : PoolReaches pool segment s) :
    s.workers.length = pool.numWorkers := by
  apply reach_invariant (I := fun s : PoolState => s.workers.length = pool.numWorkers) ?_ h
  · simp [PoolState.init]
  · intro s t hs hst
    cases hst with
    | take hw | stop hw | skip hw | call hw | callReturns hw | callFails hw | finish hw
    | send hw =>
      rw [hw] at hs
      simpa using hs
    | _ => exact hs

def MayFail (pool : SubstateTaskPool) (block : Nat) : Prop :=
  ∃ task ∈ pool.tasks block, ∃ err, pool.taskFunc block task.1 task.2 (some err)

def Worker.FromTasks (pool : SubstateTaskPool) : Worker → Prop
  | .executing b todo => todo ⊆ pool.txSubstates b
  | .calling b task todo => task ∈ pool.tasks b ∧ todo ⊆ pool.txSubstates b
  | .sending (.error e) => MayFail pool e.block
  | _ => True

structure Blamed (pool : SubstateTaskPool) (s : PoolState) : Prop where
  workers : ∀ w ∈ s.workers, w.FromTasks pool
  sent : ∀ e, .error e ∈ s.sent → MayFail pool e.block

theorem Blamed.move {pre post : List Worker} {w' : Worker} (h : Blamed pool s)
    (hw : s.workers = pre ++ w :: post) (hw' : t.workers = pre ++ w' :: post)
    (hsent : t.sent = s.sent) (hnew : w.FromTasks pool → w'.FromTasks pool) : Blamed pool t := by
  refine ⟨?_, ?_⟩
  · intro x hx
    rw [hw'] at hx
    have hold := h.workers
    rw [hw] at hold
    cases mem_append.mp hx with
    | inl hpre => exact hold x (mem_append_left _ hpre)
    | inr hcons =>
      cases mem_cons.mp hcons with
      | inl heq =>
        rw [heq]
        exact hnew (hold w (mem_append_right _ mem_cons_self))
      | inr hpost => exact hold x (mem_append_right _ (mem_cons_of_mem _ hpost))
  · rw [hsent]
    exact h.sent

theorem Blamed.step (h : Blamed pool s) (hst : PoolStep pool segment s t) : Blamed pool t := by
  cases hst with
  | produce | produceStop | produceEnd | count | loopEnd | sendStop | stopsSent | join =>
    exact ⟨h.workers, h.sent⟩
  | take hw _ hperm => exact h.move hw rfl rfl (fun _ => hperm.subset)
  | stop hw => exact h.move hw rfl rfl (fun _ => trivial)
  | skip hw =>
    refine h.move hw rfl rfl ?_
    intro hsub
    exact List.Subset.trans (subset_cons_self _ _) hsub
  | call hw hskip =>
    refine h.move hw rfl rfl ?_
    intro hsub
    refine ⟨mem_filter.mpr ⟨hsub mem_cons_self, ?_⟩, ?_⟩
    · rw [hskip]
      rfl
    · exact List.Subset.trans (subset_cons_self _ _) hsub
  | callReturns hw => exact h.move hw rfl rfl (fun hold => hold.2)
  | callFails hw hret =>
    refine h.move hw rfl rfl ?_
    intro hold
    exact ⟨_, hold.1, _, hret⟩
  | finish hw => exact h.move hw rfl rfl (fun _ => trivial)
  | @send pre post outcome hw =>
    have hmove : Blamed pool { s with workers := pre ++ .waiting :: post } :=
      h.move hw rfl rfl (fun _ => trivial)
    refine ⟨hmove.workers, ?_⟩
    intro e he
    have hcases : .error e ∈ s.sent ∨ outcome = .error e := by
      simp only [PoolState.sent, mem_append, mem_singleton] at he ⊢
      tauto
    cases hcases with
    | inl hold => exact h.sent e hold
    | inr heq =>
      have hsend := h.workers (.sending outcome) (by rw [hw]; simp)
      rw [heq] at hsend
      exact hsend
  | receive _ _ _ hdone | receiveError _ _ _ hdone =>
    refine ⟨h.workers, ?_⟩
    intro e he
    apply h.sent e
    rw [PoolState.sent, hdone]
    simpa [PoolState.sent] using he

theorem blamed_of_reaches (h : PoolReaches pool segment s) : Blamed pool s := by
  apply reach_invariant (fun _ _ hs hst => Blamed.step hs hst) h
  refine ⟨?_, ?_⟩
  · intro w hw
    rw [(mem_replicate.mp hw).2]
    trivial
  · intro e he
    cases he

theorem PoolStep.sent_cases (hst : PoolStep pool segment s t) :
    t.sent = s.sent ∨
      ∃ pre post o, s.workers = pre ++ .sending o :: post ∧ t.sent = s.sent ++ [o] := by
  cases hst with
  | send hw => exact .inr ⟨_, _, _, hw, (append_assoc ..).symm⟩
  | receive _ _ _ hdone | receiveError _ _ _ hdone =>
    left
    rw [PoolState.sent, PoolState.sent, hdone]
    simp
  | _ => exact .inl rfl

theorem sent_in_order (hlast : segment.last + 1 < 2 ^ 64) (h : PoolReaches pool segment s)
    {k : Nat} {o : Outcome} (hk : s.sent[k]? = some o) :
    o.origin < segment.first + k + pool.numWorkers := by
  induction h generalizing k o with
  | refl => simp [PoolState.sent, PoolState.init] at hk
  | @tail u v hreach hst ih =>
    cases hst.sent_cases with
    | inl hsame =>
      rw [hsame] at hk
      exact ih hk
    | inr hsend =>
      obtain ⟨pre, post, o', hw, hsent⟩ := hsend
      rw [hsent] at hk
      by_cases hlt : k < u.sent.length
      · rw [getElem?_append_left hlt] at hk
        exact ih hk
      · rw [getElem?_append_right (by omega), getElem?_singleton] at hk
        split at hk
        · cases hk
          obtain ⟨d, hd⟩ := dispatched_of_reaches hlast hreach
          have hmem : o.origin ∈ u.taken := by
            simp [PoolState.taken, hw, Worker.held]
          rw [hd.taken.mem_iff, mem_range'_1] at hmem
          have hlen := hd.length_le.1
          have hheld := length_filterMap_le Worker.held u.workers
          rw [hd.workers_length] at hheld
          omega
        · cases hk

theorem received_error (h : PoolReaches pool segment s) {err : TaskError}
    (hr : s.main.result = some (some err)) : ∃ l, s.received = l ++ [.error err] := by
  induction h generalizing err with
  | refl => cases hr
  | tail _ hst ih =>
    cases hst with
    | produce | produceStop | produceEnd | take | stop | skip | call | callReturns | callFails
    | finish | send => exact ih hr
    | count | receive | loopEnd => cases hr
    | receiveError =>
      cases hr
      exact ⟨_, rfl⟩
    | sendStop hm | stopsSent hm | join hm =>
      apply ih
      rw [hm]
      exact hr

def blockWeight (pool : SubstateTaskPool) (block : Nat) : Nat :=
  2 * (pool.txSubstates block).length + 7

def Producer.weight (pool : SubstateTaskPool) (segment : BlockSegment) : Producer → Nat
  | .loop b => ((List.range' b (segment.last + 1 - b)).map fun b => blockWeight pool b + 1).sum + 1
  | _ => 0

def Main.weight (pool : SubstateTaskPool) : Main → Nat
  | .loop _ w => 2 * w.card + (2 * pool.numWorkers + 7)
  | .stopping _ sent => 2 * (pool.numWorkers + 1 - sent) + 3
  | .joining _ => 2
  | .returned _ => 1

def PoolState.weight (pool : SubstateTaskPool) (segment : BlockSegment) (s : PoolState) : Nat :=
  s.producer.weight pool segment + (s.workChan.map (blockWeight pool)).sum +
    (s.workers.map Worker.weight).sum + 3 * s.doneChan.length + s.stopChan + s.main.weight pool

theorem PoolStep.weight_lt (hlast : segment.last + 1 < 2 ^ 64)
    (hst : PoolStep pool segment s t) : t.weight pool segment < s.weight pool segment := by
  unfold PoolState.weight
  cases hst with
  | @produce block hp hle =>
    have hlen : segment.last + 1 - block = segment.last + 1 - (block + 1) + 1 := by omega
    rw [hp, nextBlock_eq (by omega)]
    simp only [Producer.weight, hlen, range'_succ, map_cons, sum_cons,
      map_append, sum_append, map_nil, sum_nil]
    omega
  | produceStop hp _ hpos =>
    rw [hp]
    simp only [Producer.weight]
    omega
  | produceEnd hp =>
    rw [hp]
    simp only [Producer.weight]
    omega
  | take hw hq hperm =>
    rw [hw, hq]
    simp only [map_append, map_cons, sum_append, sum_cons, Worker.weight,
      blockWeight, hperm.length_eq]
    omega
  | stop hw | finish hw =>
    rw [hw]
    simp only [map_append, map_cons, sum_append, sum_cons, Worker.weight,
      length_nil]
    omega
  | skip hw | call hw | callReturns hw | callFails hw =>
    rw [hw]
    simp only [map_append, map_cons, sum_append, sum_cons, Worker.weight,
      length_cons]
    omega
  | send hw =>
    rw [hw]
    simp only [map_append, map_cons, sum_append, sum_cons, Worker.weight,
      length_append, length_singleton]
    omega
  | count hm _ hmem =>
    have hcard := Finset.card_erase_lt_of_mem hmem
    rw [hm]
    simp only [Main.weight]
    omega
  | @receive block waitMap b rest hm _ _ hdone =>
    have hcard := Finset.card_insert_le b waitMap
    rw [hm, hdone]
    simp only [Main.weight, length_cons]
    omega
  | receiveError hm _ _ hdone =>
    rw [hm, hdone]
    simp only [Main.weight, length_cons]
    omega
  | loopEnd hm | sendStop hm | stopsSent hm | join hm =>
    rw [hm]
    simp only [Main.weight]
    omega

theorem pool_not_endless (hlast : segment.last + 1 < 2 ^ 64) :
    ¬ Endless (PoolStep pool segment) s :=
  not_endless_of_measure (I := fun _ => True) (μ := PoolState.weight pool segment) trivial
    fun _ _ _ hst => ⟨trivial, hst.weight_lt hlast⟩

def SubstateTaskPool.Terminates (pool : SubstateTaskPool) : Prop :=
  ∀ block tx substate, ∃ r, pool.taskFunc block tx substate r

def BackStep (pool : SubstateTaskPool) (segment : BlockSegment) (s t : PoolState) : Prop :=
  PoolStep pool segment s t ∧ t.main = s.main ∧ t.stopChan = s.stopChan

theorem stuck_back (h : Stuck (PoolStep pool segment) s) : Stuck (BackStep pool segment) s :=
  fun t ht => h t ht.1

theorem quiet_worker (hret : pool.Terminates) (hq : Stuck (BackStep pool segment) s)
    (hw : w ∈ s.workers) : (w = .waiting ∧ s.workChan = []) ∨ w = .returned ∨
      ∃ o, w = .sending o ∧ pool.numWorkers * 1000 ≤ s.doneChan.length := by
  obtain ⟨pre, post, hsplit⟩ := append_of_mem hw
  cases w with
  | waiting =>
    left
    cases hq' : s.workChan with
    | nil => exact ⟨rfl, rfl⟩
    | cons block rest => exact absurd ⟨.take hsplit hq' (List.Perm.refl _), rfl, rfl⟩ (hq _)
  | executing block todo =>
    cases todo with
    | nil => exact absurd ⟨.finish hsplit, rfl, rfl⟩ (hq _)
    | cons task todo =>
      cases hskip : pool.config.skipTx task.2 with
      | true => exact absurd ⟨.skip hsplit hskip, rfl, rfl⟩ (hq _)
      | false => exact absurd ⟨.call hsplit hskip, rfl, rfl⟩ (hq _)
  | calling block task todo =>
    obtain ⟨r, hr⟩ := hret block task.1 task.2
    cases r with
    | none => exact absurd ⟨.callReturns hsplit hr, rfl, rfl⟩ (hq _)
    | some err => exact absurd ⟨.callFails hsplit hr, rfl, rfl⟩ (hq _)
  | sending o =>
    right; right
    refine ⟨o, rfl, ?_⟩
    by_contra hroom
    exact hq _ ⟨.send hsplit (by omega), rfl, rfl⟩
  | returned => exact .inr (.inl rfl)

theorem quiet_producer (hq : Stuck (BackStep pool segment) s) {b : Nat}
    (hp : s.producer = .loop b) :
    b ≤ segment.last ∧ pool.numWorkers * 1000 ≤ s.workChan.length := by
  have hle : b ≤ segment.last := by
    by_contra hlt
    exact hq _ ⟨.produceEnd hp (by omega), rfl, rfl⟩
  refine ⟨hle, ?_⟩
  by_contra hroom
  exact hq _ ⟨.produce hp hle (by omega), rfl, rfl⟩

theorem isReturned_of_count (hcount : s.workers.countP Worker.isReturned = 0) (hw : w ∈ s.workers) :
    w ≠ .returned := by
  intro heq
  have hnot := countP_eq_zero.mp hcount w hw
  rw [heq] at hnot
  exact hnot rfl

theorem quiet_idle (hret : pool.Terminates) (hq : Stuck (BackStep pool segment) s)
    (hlen : s.workers.length = pool.numWorkers) (hsend : ∀ o, .sending o ∉ s.workers)
    (hcount : s.workers.countP Worker.isReturned = 0) :
    s.workers.filterMap Worker.held = [] ∧ s.workChan = [] ∧ ∀ b, s.producer ≠ .loop b := by
  have hwait : ∀ w ∈ s.workers, w = .waiting ∧ s.workChan = [] := by
    intro w hw
    obtain hwait | hret' | ⟨o, ho, _⟩ := quiet_worker hret hq hw
    · exact hwait
    · exact absurd hret' (isReturned_of_count hcount hw)
    · exact absurd (ho ▸ hw) (hsend o)
  have hpos := pool.pos
  obtain ⟨w, hw⟩ := exists_mem_of_length_pos (by omega : 0 < s.workers.length)
  have hwork := (hwait w hw).2
  refine ⟨?_, hwork, ?_⟩
  · rw [filterMap_eq_nil_iff]
    intro w hw
    rw [(hwait w hw).1]
    rfl
  · intro b hb
    have hfull := (quiet_producer hq hb).2
    rw [hwork, length_nil] at hfull
    omega

theorem loop_not_stuck (hlast : segment.last + 1 < 2 ^ 64) (hret : pool.Terminates)
    (h : PoolReaches pool segment s) (hstuck : Stuck (PoolStep pool segment) s) {b : Nat}
    {w : Finset Nat} (hm : s.main = .loop b w) : False := by
  obtain ⟨d, hd⟩ := dispatched_of_reaches hlast h
  obtain ⟨hfirst, _, _, hperm⟩ := (counted_of_reaches hlast h).loop b w hm
  have hstops := (stopsTracked_of_reaches h).sum
  rw [hm] at hstops
  simp only [Main.stopsSent] at hstops
  have hble : b ≤ segment.last := by
    by_contra hlt
    exact hstuck _ (.loopEnd hm (by omega))
  have hbw : b ∉ w := fun hmem => hstuck _ (.count hm hble hmem)
  have hdone : s.doneChan = [] := by
    cases hdone : s.doneChan with
    | nil => rfl
    | cons o rest =>
      cases o with
      | block b' => exact absurd (.receive hm hble hbw hdone) (hstuck _)
      | error e => exact absurd (.receiveError hm hble hbw hdone) (hstuck _)
  have hpos := pool.pos
  have hsend : ∀ o, .sending o ∉ s.workers := by
    intro o ho
    obtain hw | hw | ⟨o', _, hfull⟩ := quiet_worker hret (stuck_back hstuck) ho
    · cases hw.1
    · cases hw
    · rw [hdone, length_nil] at hfull
      omega
  obtain ⟨hheld, hwork, hprod⟩ :=
    quiet_idle hret (stuck_back hstuck) hd.workers_length hsend (by omega)
  have hfin : s.producer = .finished := by
    cases hp : s.producer with
    | loop b' => exact absurd hp (hprod b')
    | finished => rfl
    | stopped =>
      rw [hp, if_pos rfl] at hstops
      omega
  have hall := hd.finished hfin
  rw [hwork, length_nil] at hall
  -- so every block of the segment has been received, this one too
  have htaken : s.taken = s.received.map Outcome.origin := by
    rw [PoolState.taken, PoolState.sent, hheld, hdone, append_nil, append_nil]
  have hmem : b ∈ s.received.map Outcome.origin := by
    rw [← htaken, hd.taken.mem_iff, mem_range'_1]
    omega
  rw [hperm.mem_iff, mem_append, mem_range'_1, Finset.mem_toList] at hmem
  cases hmem with
  | inl hrange => omega
  | inr hwait => exact hbw hwait

theorem count_returned_of_all (hall : ∀ w ∈ s.workers, w = .returned) :
    s.workers.countP Worker.isReturned = s.workers.length := by
  rw [countP_eq_length]
  intro w hw
  rw [hall w hw]
  rfl

theorem stopping_stuck (hret : pool.Terminates) (h : PoolReaches pool segment s)
    (hlen : s.workers.length = pool.numWorkers) (hstuck : Stuck (PoolStep pool segment) s)
    {result : Option TaskError} {sent : Nat} (hm : s.main = .stopping result sent) :
    ∃ o, .sending o ∈ s.workers := by
  by_contra hnone
  have hstops := (stopsTracked_of_reaches h).sum
  rw [hm] at hstops
  simp only [Main.stopsSent] at hstops
  have hsent : sent ≤ pool.numWorkers := by
    by_contra hlt
    exact hstuck _ (.stopsSent hm (by omega))
  have hfull : pool.numWorkers ≤ s.stopChan := by
    by_contra hroom
    exact hstuck _ (.sendStop hm hsent (by omega))
  have hpos := pool.pos
  have hall : ∀ w ∈ s.workers, w = .returned := by
    intro w hw
    obtain ⟨rfl, _⟩ | hdone | ⟨o, rfl, _⟩ := quiet_worker hret (stuck_back hstuck) hw
    · obtain ⟨pre, post, hsplit⟩ := append_of_mem hw
      exact absurd (.stop hsplit (by omega)) (hstuck _)
    · exact hdone
    · exact absurd ⟨o, hw⟩ hnone
  have hcount := count_returned_of_all hall
  omega

theorem joining_stuck (hret : pool.Terminates) (h : PoolReaches pool segment s)
    (hlen : s.workers.length = pool.numWorkers) (hstuck : Stuck (PoolStep pool segment) s)
    {result : Option TaskError} (hm : s.main = .joining result) :
    ∃ o, .sending o ∈ s.workers := by
  by_contra hnone
  have hstops := (stopsTracked_of_reaches h).sum
  rw [hm] at hstops
  simp only [Main.stopsSent] at hstops
  have hle := countP_le_length (p := Worker.isReturned) (l := s.workers)
  have hflag : (if s.producer = .stopped then 1 else 0) ≤ 1 := by split <;> omega
  have hall : ∀ w ∈ s.workers, w = .returned := by
    intro w hw
    obtain ⟨rfl, _⟩ | hdone | ⟨o, rfl, _⟩ := quiet_worker hret (stuck_back hstuck) hw
    · obtain ⟨pre, post, hsplit⟩ := append_of_mem hw
      have hzero : s.stopChan = 0 := by
        by_contra hpos
        exact hstuck _ (.stop hsplit (by omega))
      -- this worker has had no stop, so one of the stops is still to be taken
      have hlt : s.workers.countP Worker.isReturned < s.workers.length := by
        refine Nat.lt_of_le_of_ne hle ?_
        intro heq
        have hwait := countP_eq_length.mp heq _ hw
        cases hwait
      omega
    · exact hdone
    · exact absurd ⟨o, hw⟩ hnone
  have hcount := count_returned_of_all hall
  cases hp : s.producer with
  | loop b =>
    have hb := (quiet_producer (stuck_back hstuck) hp).1
    rw [hp, if_neg (by simp)] at hstops
    exact hstuck _ (.produceStop hp hb (by omega))
  | finished => exact hstuck _ (.join hm hall (.inl hp))
  | stopped => exact hstuck _ (.join hm hall (.inr hp))

def BlockSegment.size (segment : BlockSegment) : Nat := segment.last + 1 - segment.first

/-- The fewest blocks of a segment with a failing block from which on `doneChan` can fill up after
the main loop has stopped receiving. -/
def stallSize (pool : SubstateTaskPool) (segment : BlockSegment) (block : Nat) : Nat :=
  pool.numWorkers * 1000 + 2 + (block + 1 - segment.first - pool.numWorkers)

/-- A worker that cannot send, after the caller has left the main loop, means that a block failed
in a segment of the stalling size. -/
theorem stall_size_le (hlast : segment.last + 1 < 2 ^ 64) (h : PoolReaches pool segment s)
    {r : Option TaskError} (hres : s.main.result = some r)
    (hfull : pool.numWorkers * 1000 ≤ s.doneChan.length) {o : Outcome}
    (hsend : .sending o ∈ s.workers) :
    ∃ block, segment.first ≤ block ∧ block ≤ segment.last ∧ MayFail pool block ∧
      stallSize pool segment block ≤ segment.size := by
  obtain ⟨d, hd⟩ := dispatched_of_reaches hlast h
  obtain ⟨hsum, hdle⟩ := hd.length_le
  have hpos := pool.pos
  have hheld : 0 < (s.workers.filterMap Worker.held).length := by
    apply length_pos_of_mem (a := o.origin)
    exact mem_filterMap.mpr ⟨_, hsend, rfl⟩
  rw [PoolState.sent, length_append] at hsum
  cases r with
  | none =>
    have hcount := ((counted_of_reaches hlast h).done hres).2
    omega
  | some err =>
    obtain ⟨l, hl⟩ := received_error h hres
    have hat : s.sent[l.length]? = some (.error err) := by
      rw [PoolState.sent, hl, append_assoc, getElem?_append_right (Nat.le_refl _)]
      simp
    have horder := sent_in_order hlast h hat
    have hmem : err.block ∈ s.taken :=
      mem_append_left _ (mem_map_of_mem (f := Outcome.origin) (mem_of_getElem? hat))
    rw [hd.taken.mem_iff, mem_range'_1] at hmem
    rw [hl, length_append, length_singleton] at hsum
    refine ⟨err.block, hmem.1, by omega, ?_, ?_⟩
    · exact (blamed_of_reaches h).sent err (mem_of_getElem? hat)
    · have hearly : err.block + 1 - segment.first - pool.numWorkers ≤ l.length := by
        change err.block < segment.first + l.length + pool.numWorkers at horder
        clear hfull hsum
        omega
      have hlate : l.length + 1 + pool.numWorkers * 1000 + 1 ≤ d := by omega
      calc stallSize pool segment err.block ≤ pool.numWorkers * 1000 + 2 + l.length :=
            Nat.add_le_add_left hearly _
        _ ≤ d := by linarith only [hlate]
        _ ≤ segment.size := hdle

theorem stuck_stalls (hlast : segment.last + 1 < 2 ^ 64) (hret : pool.Terminates)
    (h : PoolReaches pool segment s) (hstuck : Stuck (PoolStep pool segment) s)
    (hrun : ∀ r, s.main ≠ .returned r) :
    ∃ block, segment.first ≤ block ∧ block ≤ segment.last ∧ MayFail pool block ∧
      stallSize pool segment block ≤ segment.size := by
  obtain ⟨d, hd⟩ := dispatched_of_reaches hlast h
  have hfull : ∀ o, .sending o ∈ s.workers → pool.numWorkers * 1000 ≤ s.doneChan.length := by
    intro o ho
    obtain hw | hw | ⟨o', _, hfull⟩ := quiet_worker hret (stuck_back hstuck) ho
    · cases hw.1
    · cases hw
    · exact hfull
  cases hm : s.main with
  | loop b w => exact (loop_not_stuck hlast hret h hstuck hm).elim
  | stopping r sent =>
    obtain ⟨o, ho⟩ := stopping_stuck hret h hd.workers_length hstuck hm
    exact stall_size_le hlast h (by rw [hm]; rfl) (hfull o ho) ho
  | joining r =>
    obtain ⟨o, ho⟩ := joining_stuck hret h hd.workers_length hstuck hm
    exact stall_size_le hlast h (by rw [hm]; rfl) (hfull o ho) ho
  | returned r => exact absurd hm (hrun r)

end Pool

end EtherVal.Research
