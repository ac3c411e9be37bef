import EtherVal.Research.TaskPool
import Mathlib.Data.List.Range

/-!
# The runs of the task pool
-/

namespace EtherVal.Research
open EtherVal.Lib Relation List

variable {d : Nat}

def PoolState.sent (s : PoolState) : List Outcome := s.received ++ s.doneChan

def PoolState.taken (s : PoolState) : List Nat :=
  s.sent.map Outcome.origin ++ s.workers.filterMap Worker.held

def PoolState.outcomes (s : PoolState) : List Outcome :=
  s.sent ++ s.workers.filterMap Worker.outcome

def Main.result : Main → Option (Option TaskError)
  | .loop _ _ => none
  | .stopping r _ | .joining r | .returned r => some r

section Pool
variable {pool : SubstateTaskPool} {segment : BlockSegment} {s t : PoolState}

def Joined (s : PoolState) : Prop :=
  ∀ r, s.main = .returned r → ∀ w ∈ s.workers, w = .returned

theorem Joined.step (h : Joined s) (hst : PoolStep pool segment s t) : Joined t := by
  intro r hr
  cases hst with
  | produce | produceStop | produceEnd => exact h r hr
  | take hw | stop hw | skip hw | call hw | callReturns hw | callFails hw | finish hw | send hw =>
    -- a worker that moves has not returned
    have hmem := h r hr _ (by rw [hw]; exact mem_append_right _ mem_cons_self)
    cases hmem
  | count | receive | receiveError | loopEnd | sendStop | stopsSent => cases hr
  | join _ hall => exact hall

theorem joined_of_reaches (h : PoolReaches pool segment s) : Joined s := by
  apply reach_invariant (fun _ _ hs hst => Joined.step hs hst) h
  intro r hr
  cases hr

structure Dispatched (pool : SubstateTaskPool) (segment : BlockSegment) (s : PoolState)
    (d : Nat) : Prop where
  workers_length : s.workers.length = pool.numWorkers
  taken : s.taken.Perm (List.range' segment.first d)
  queued : s.workChan = List.range' (segment.first + d) s.workChan.length
  loop : ∀ b, s.producer = .loop b → b = segment.first + d + s.workChan.length
  finished : s.producer = .finished → segment.first + d + s.workChan.length = segment.last + 1
  le : segment.first + d + s.workChan.length ≤ segment.last + 1

theorem nextBlock_eq {block : Nat} (h : block + 1 < 2 ^ 64) : nextBlock block = block + 1 :=
  Nat.mod_eq_of_lt h

theorem Dispatched.congr (h : Dispatched pool segment s d)
    (hlen : t.workers.length = s.workers.length) (htaken : t.taken.Perm s.taken)
    (hwork : t.workChan = s.workChan) (hprod : ∀ p, t.producer = p → p = .stopped ∨ s.producer = p)
    :
    Dispatched pool segment t d where
  workers_length := by rw [hlen, h.workers_length]
  taken := htaken.trans h.taken
  queued := by rw [hwork]; exact h.queued
  loop b hb := by
    rw [hwork]
    cases hprod _ hb with
    | inl hstop => cases hstop
    | inr hs => exact h.loop b hs
  finished hf := by
    rw [hwork]
    cases hprod _ hf with
    | inl hstop => cases hstop
    | inr hs => exact h.finished hs
  le := by rw [hwork]; exact h.le

theorem taken_congr {pre post : List Worker} {w w' : Worker} (hw : s.workers = pre ++ w :: post)
    (hw' : t.workers = pre ++ w' :: post) (hsent : t.sent = s.sent) (hheld : w'.held = w.held) :
    t.taken.Perm s.taken := by
  unfold PoolState.taken
  rw [hw, hw', hsent]
  simp only [filterMap_append, filterMap_cons, hheld]
  exact List.Perm.refl _

theorem Dispatched.step {d : Nat} (hlast : segment.last + 1 < 2 ^ 64)
    (h : Dispatched pool segment s d) (hst : PoolStep pool segment s t) :
    ∃ d', Dispatched pool segment t d' := by
  cases hst with
  | @produce block hp hle hroom =>
    have hb := h.loop block hp
    refine ⟨d, h.workers_length, h.taken, ?_, ?_, ?_, ?_⟩
    · simp only [length_append, length_singleton]
      rw [range'_1_concat, ← h.queued, hb]
    · intro b hb'
      cases hb'
      rw [nextBlock_eq (by omega)]
      simp only [length_append, length_singleton]
      omega
    · intro hf
      cases hf
    · simp only [length_append, length_singleton]
      omega
  | produceStop hp hle hpos =>
    exact ⟨d, h.congr rfl (List.Perm.refl _) rfl (fun p hp => .inl hp.symm)⟩
  | @produceEnd block hp hlt =>
    have hb := h.loop block hp
    have hle := h.le
    refine ⟨d, h.workers_length, h.taken, h.queued, ?_, ?_, h.le⟩
    · intro b hb'
      cases hb'
    · intro _
      show segment.first + d + s.workChan.length = segment.last + 1
      omega
  | @take pre post block rest order hw hq hperm =>
    have hqueue := h.queued
    rw [hq, length_cons, range'_succ] at hqueue
    obtain ⟨hblock, hrest⟩ := List.cons.inj hqueue
    have hle := h.le
    rw [hq, length_cons] at hle
    refine ⟨d + 1, ?_, ?_, ?_, ?_, ?_, ?_⟩
    · rw [← h.workers_length, hw]
      simp
    · rw [range'_1_concat, ← hblock]
      have hold := h.taken
      unfold PoolState.taken at hold ⊢
      rw [hw] at hold
      simp only [filterMap_append, filterMap_cons, Worker.held, PoolState.sent] at hold ⊢
      rw [perm_iff_count] at hold ⊢
      intro x
      have hx := hold x
      simp only [count_append, count_cons, count_nil] at hx ⊢
      omega
    · show rest = List.range' (segment.first + (d + 1)) rest.length
      rw [← Nat.add_assoc]
      exact hrest
    · intro b hb
      have hloop := h.loop b hb
      rw [hq, length_cons] at hloop
      show b = segment.first + (d + 1) + rest.length
      omega
    · intro hf
      have hfin := h.finished hf
      rw [hq, length_cons] at hfin
      show segment.first + (d + 1) + rest.length = segment.last + 1
      omega
    · show segment.first + (d + 1) + rest.length ≤ segment.last + 1
      omega
  | stop hw hpos =>
    exact ⟨d, h.congr (by rw [hw]; simp) (taken_congr hw rfl rfl rfl) rfl (fun p hp => .inr hp)⟩
  | skip hw | call hw | callReturns hw | callFails hw | finish hw =>
    exact ⟨d, h.congr (by rw [hw]; simp) (taken_congr hw rfl rfl rfl) rfl (fun p hp => .inr hp)⟩
  | @send pre post outcome hw hroom =>
    refine ⟨d, h.congr (by rw [hw]; simp) ?_ rfl (fun p hp => .inr hp)⟩
    unfold PoolState.taken PoolState.sent
    rw [hw, perm_iff_count]
    intro x
    simp only [filterMap_append, filterMap_cons, Worker.held, map_append,
      map_cons, map_nil, count_append, count_cons, count_nil]
    omega
  | receive _ _ _ hdone | receiveError _ _ _ hdone =>
    refine ⟨d, h.congr rfl ?_ rfl (fun p hp => .inr hp)⟩
    unfold PoolState.taken PoolState.sent
    rw [hdone]
    simp
  | count | loopEnd | sendStop | stopsSent | join =>
    exact ⟨d, h.congr rfl (List.Perm.refl _) rfl (fun p hp => .inr hp)⟩

theorem dispatched_init : Dispatched pool segment (.init pool segment) 0 where
  workers_length := by simp [PoolState.init]
  taken := by
    simp [PoolState.taken, PoolState.sent, PoolState.init, Worker.held, filterMap_replicate]
  queued := rfl
  loop b hb := by
    cases hb
    rfl
  finished hf := by cases hf
  le := by
    have := segment.first_le
    show segment.first + 0 + 0 ≤ segment.last + 1
    omega

theorem dispatched_of_reaches (hlast : segment.last + 1 < 2 ^ 64)
    (h : PoolReaches pool segment s) : ∃ d, Dispatched pool segment s d := by
  have hstep : ∀ s t, (∃ d, Dispatched pool segment s d) → PoolStep pool segment s t →
      ∃ d, Dispatched pool segment t d := by
    rintro s t ⟨d, hd⟩ hst
    exact hd.step hlast hst
  exact reach_invariant (I := fun s => ∃ d, Dispatched pool segment s d) hstep h
    ⟨0, dispatched_init⟩

theorem Dispatched.sent_nodup (h : Dispatched pool segment s d) :
    (s.sent.map Outcome.origin).Nodup := by
  have hnd : s.taken.Nodup := h.taken.nodup_iff.mpr (nodup_range' ..)
  exact (nodup_append.mp hnd).1

theorem Dispatched.length_le (h : Dispatched pool segment s d) :
    s.sent.length + (s.workers.filterMap Worker.held).length = d ∧
      d ≤ segment.last + 1 - segment.first := by
  have hlen := h.taken.length_eq
  have hle := h.le
  simp only [PoolState.taken, length_append, length_map, length_range'] at hlen
  omega

structure Counted (segment : BlockSegment) (s : PoolState) : Prop where
  loop : ∀ b w, s.main = .loop b w → segment.first ≤ b ∧ b ≤ segment.last + 1 ∧
    (∀ o ∈ s.received, o.Ok) ∧
    (s.received.map Outcome.origin).Perm (List.range' segment.first (b - segment.first) ++ w.toList)
  done : s.main.result = some none → (∀ o ∈ s.received, o.Ok) ∧
    s.received.length = segment.last + 1 - segment.first

theorem Counted.congr (h : Counted segment s) (hmain : t.main = s.main)
    (hrec : t.received = s.received) : Counted segment t := by
  constructor
  · rw [hmain, hrec]
    exact h.loop
  · rw [hmain, hrec]
    exact h.done

theorem Counted.step {d : Nat} (hlast : segment.last + 1 < 2 ^ 64) (h : Counted segment s)
    (hd : Dispatched pool segment s d) (hst : PoolStep pool segment s t) : Counted segment t := by
  cases hst with
  | produce | produceStop | produceEnd | take | stop | skip | call | callReturns | callFails
  | finish | send => exact h.congr rfl rfl
  | @count block waitMap hm hle hmem =>
    obtain ⟨hfirst, hb, hok, hperm⟩ := h.loop block waitMap hm
    refine ⟨?_, ?_⟩
    · intro b w hbw
      cases hbw
      rw [nextBlock_eq (by omega)]
      refine ⟨by omega, by omega, hok, hperm.trans ?_⟩
      have herase := Finset.toList_insert (Finset.notMem_erase block waitMap)
      rw [Finset.insert_erase hmem] at herase
      have hnext : block + 1 - segment.first = block - segment.first + 1 := by omega
      have hlastElem : segment.first + (block - segment.first) = block := by omega
      rw [hnext, range'_1_concat, hlastElem, append_assoc]
      exact herase.append_left _
    · intro hres
      cases hres
  | @receive block waitMap b' rest hm hle hnot hdone =>
    obtain ⟨hfirst, hb, hok, hperm⟩ := h.loop block waitMap hm
    have hnd := hd.sent_nodup
    rw [PoolState.sent, hdone, map_append, map_cons] at hnd
    have hfresh : b' ∉ s.received.map Outcome.origin := by
      intro hin
      exact (nodup_append.mp hnd).2.2 b' hin b' mem_cons_self rfl
    have hwait : b' ∉ waitMap := by
      intro hin
      apply hfresh
      rw [hperm.mem_iff]
      exact mem_append_right _ (Finset.mem_toList.mpr hin)
    refine ⟨?_, ?_⟩
    · intro b w hbw
      cases hbw
      refine ⟨hfirst, hb, ?_, ?_⟩
      · intro o ho
        cases mem_append.mp ho with
        | inl hold => exact hok o hold
        | inr hnew => rw [mem_singleton.mp hnew]; rfl
      · rw [map_append]
        refine (hperm.append_right _).trans ?_
        rw [append_assoc]
        refine List.Perm.append_left _ ?_
        refine perm_append_comm.trans ?_
        exact (Finset.toList_insert hwait).symm
    · intro hres
      cases hres
  | receiveError =>
    refine ⟨?_, ?_⟩
    · intro b w hbw
      cases hbw
    · intro hres
      cases hres
  | @loopEnd block waitMap hm hlt =>
    obtain ⟨hfirst, hb, hok, hperm⟩ := h.loop block waitMap hm
    refine ⟨?_, ?_⟩
    · intro b w hbw
      cases hbw
    · intro _
      -- all blocks are counted and no more than those were taken
      have hlen := hperm.length_eq
      have hbound := hd.length_le
      simp only [length_map, length_append, length_range', PoolState.sent]
        at hlen hbound
      exact ⟨hok, by show s.received.length = _; omega⟩
  | sendStop hm | stopsSent hm | join hm =>
    refine ⟨?_, ?_⟩
    · intro b w hbw
      cases hbw
    · intro hres
      apply h.done
      rw [hm]
      exact hres

theorem counted_of_reaches (hlast : segment.last + 1 < 2 ^ 64) (h : PoolReaches pool segment s) :
    Counted segment s := by
  induction h with
  | refl =>
    refine ⟨?_, ?_⟩
    · intro b w hbw
      cases hbw
      have := segment.first_le
      refine ⟨Nat.le_refl _, by omega, ?_, ?_⟩
      · intro o ho
        cases ho
      · simp [PoolState.init]
    · intro hres
      cases hres
  | tail hreach hst ih =>
    obtain ⟨d, hd⟩ := dispatched_of_reaches hlast hreach
    exact ih.step hlast hd hst

theorem result_ne_none (hlast : segment.last + 1 = 2 ^ 64) (h : PoolReaches pool segment s) :
    (∀ b w, s.main = .loop b w → b < 2 ^ 64) ∧ s.main.result ≠ some none := by
  apply reach_invariant (I := fun s : PoolState =>
    (∀ b w, s.main = .loop b w → b < 2 ^ 64) ∧ s.main.result ≠ some none) ?_ h
  · refine ⟨?_, by simp [PoolState.init, Main.result]⟩
    intro b w hbw
    cases hbw
    exact Nat.lt_of_le_of_lt segment.first_le segment.last_lt
  · intro s t hs hst
    cases hst with
    | produce | produceStop | produceEnd | take | stop | skip | call | callReturns | callFails
    | finish | send => exact hs
    | count =>
      refine ⟨?_, by simp [Main.result]⟩
      intro b w hbw
      cases hbw
      exact Nat.mod_lt _ (by norm_num)
    | receive hm =>
      refine ⟨?_, by simp [Main.result]⟩
      intro b w hbw
      cases hbw
      exact hs.1 _ _ hm
    | receiveError =>
      refine ⟨?_, by simp [Main.result]⟩
      intro b w hbw
      cases hbw
    | loopEnd hm hlt =>
      have hb := hs.1 _ _ hm
      omega
    | sendStop hm | stopsSent hm | join hm =>
      have hres := hs.2
      rw [hm] at hres
      refine ⟨?_, hres⟩
      intro b w hbw
      cases hbw

def SubstateTaskPool.callsOf (pool : SubstateTaskPool) (block : Nat) : List (Nat × Task) :=
  (pool.tasks block).map (Prod.mk block)

def Worker.remaining (pool : SubstateTaskPool) : Worker → List (Nat × Task)
  | .executing b todo => (todo.filter fun task => !pool.config.skipTx task.2).map (Prod.mk b)
  | .calling b task todo =>
    (b, task) :: (todo.filter fun task => !pool.config.skipTx task.2).map (Prod.mk b)
  | _ => []

def CallsTracked (pool : SubstateTaskPool) (s : PoolState) : Prop :=
  (∀ o ∈ s.outcomes, o.Ok) →
    (s.calls.map (fun c => (c.block, c.task)) ++ s.workers.flatMap (Worker.remaining pool)).Perm
      (s.taken.flatMap pool.callsOf) ∧ ∀ c ∈ s.calls, c.err = none

theorem CallsTracked.before (h : CallsTracked pool s) (hok : ∀ o ∈ t.outcomes, o.Ok)
    (hout : s.outcomes ⊆ t.outcomes) :
    (s.calls.map (fun c => (c.block, c.task)) ++ s.workers.flatMap (Worker.remaining pool)).Perm
      (s.taken.flatMap pool.callsOf) ∧ ∀ c ∈ s.calls, c.err = none := by
  apply h
  intro o ho
  exact hok o (hout ho)

theorem CallsTracked.congr (h : CallsTracked pool s) (hout : s.outcomes ⊆ t.outcomes)
    (hcalls : t.calls = s.calls)
    (hrem : (t.workers.flatMap (Worker.remaining pool)).Perm
      (s.workers.flatMap (Worker.remaining pool)))
    (htaken : t.taken.Perm s.taken) : CallsTracked pool t := by
  intro hok
  obtain ⟨hperm, herr⟩ := h.before hok hout
  rw [hcalls]
  refine ⟨?_, herr⟩
  have htag : (t.taken.flatMap pool.callsOf).Perm (s.taken.flatMap pool.callsOf) :=
    htaken.flatMap_right _
  exact (hrem.append_left _).trans (hperm.trans htag.symm)

theorem outcomes_subset {pre post : List Worker} {w w' : Worker}
    (hw : s.workers = pre ++ w :: post) (hw' : t.workers = pre ++ w' :: post)
    (hsent : t.sent = s.sent) (hnone : w.outcome = none) : s.outcomes ⊆ t.outcomes := by
  intro o ho
  unfold PoolState.outcomes at ho ⊢
  rw [hw] at ho
  rw [hw', hsent]
  simp only [filterMap_append, filterMap_cons, hnone, mem_append] at ho ⊢
  cases w'.outcome with
  | none => exact ho
  | some o' =>
    rw [mem_cons]
    tauto

theorem CallsTracked.step (h : CallsTracked pool s) (hst : PoolStep pool segment s t) :
    CallsTracked pool t := by
  cases hst with
  | produce | produceStop | produceEnd | count | loopEnd | sendStop | stopsSent | join =>
    exact h.congr (List.Subset.refl _) rfl (List.Perm.refl _) (List.Perm.refl _)
  | @take pre post block rest order hw hq hperm =>
    intro hok
    obtain ⟨hcalls, herr⟩ := h.before hok (outcomes_subset hw rfl rfl rfl)
    refine ⟨?_, herr⟩
    have htodo : ((order.filter fun task => !pool.config.skipTx task.2).map (Prod.mk block)).Perm
        (pool.callsOf block) := (hperm.filter _).map _
    rw [perm_iff_count] at hcalls htodo ⊢
    intro x
    have h1 := hcalls x
    have h2 := htodo x
    unfold PoolState.taken at h1 ⊢
    rw [hw] at h1
    simp only [filterMap_append, filterMap_cons, flatMap_append, flatMap_cons,
      Worker.held, Worker.remaining, PoolState.sent, count_append, nil_append]
      at h1 h2 ⊢
    omega
  | stop hw =>
    refine h.congr (outcomes_subset hw rfl rfl rfl) rfl ?_ (taken_congr hw rfl rfl rfl)
    rw [hw]
    simp [Worker.remaining]
  | skip hw hskip =>
    refine h.congr (outcomes_subset hw rfl rfl rfl) rfl ?_ (taken_congr hw rfl rfl rfl)
    rw [hw]
    simp [Worker.remaining, hskip]
  | call hw hskip =>
    refine h.congr (outcomes_subset hw rfl rfl rfl) rfl ?_ (taken_congr hw rfl rfl rfl)
    rw [hw]
    simp [Worker.remaining, hskip]
  | finish hw =>
    refine h.congr (outcomes_subset hw rfl rfl rfl) rfl ?_ (taken_congr hw rfl rfl rfl)
    rw [hw]
    simp [Worker.remaining]
  | @callReturns pre post block task todo hw hret =>
    intro hok
    obtain ⟨hcalls, herr⟩ := h.before hok (outcomes_subset hw rfl rfl rfl)
    refine ⟨?_, ?_⟩
    · have htaken : (PoolState.taken { s with
          workers := pre ++ .executing block todo :: post
          calls := ⟨block, task, none⟩ :: s.calls }).Perm s.taken := taken_congr hw rfl rfl rfl
      refine List.Perm.trans ?_ (hcalls.trans (htaken.flatMap_right _).symm)
      rw [hw, perm_iff_count]
      intro x
      simp only [flatMap_append, flatMap_cons, Worker.remaining, map_cons,
        count_append, count_cons]
      omega
    · intro c hc
      cases mem_cons.mp hc with
      | inl heq => rw [heq]
      | inr hold => exact herr c hold
  | @callFails pre post block task todo err hw hret =>
    -- the failure is an outcome
    intro hok
    have hmem := hok (.error ⟨pool.name, block, task.1, err⟩) (by
      simp [PoolState.outcomes, Worker.outcome])
    cases hmem
  | @send pre post outcome hw hroom =>
    refine h.congr ?_ rfl ?_ ?_
    · intro o ho
      unfold PoolState.outcomes PoolState.sent at ho ⊢
      rw [hw] at ho
      simp only [filterMap_append, filterMap_cons, Worker.outcome, mem_append,
        mem_cons, not_mem_nil, or_false] at ho ⊢
      tauto
    · rw [hw]
      simp [Worker.remaining]
    · unfold PoolState.taken PoolState.sent
      rw [hw, perm_iff_count]
      intro x
      simp only [filterMap_append, filterMap_cons, Worker.held, map_append,
        map_cons, map_nil, count_append, count_cons, count_nil]
      omega
  | receive _ _ _ hdone | receiveError _ _ _ hdone =>
    have hsent : ∀ o rest, s.doneChan = o :: rest → s.received ++ [o] ++ rest = s.sent := by
      intro o rest hrest
      rw [PoolState.sent, hrest, append_assoc, singleton_append]
    refine h.congr ?_ rfl (List.Perm.refl _) ?_
    · unfold PoolState.outcomes
      rw [← hsent _ _ hdone]
      exact List.Subset.refl _
    · unfold PoolState.taken
      rw [← hsent _ _ hdone]
      exact List.Perm.refl _

theorem callsTracked_of_reaches (h : PoolReaches pool segment s) : CallsTracked pool s := by
  apply reach_invariant (fun _ _ hs hst => CallsTracked.step hs hst) h
  intro _
  simp [PoolState.init, PoolState.taken, PoolState.sent, Worker.remaining, Worker.held,
    filterMap_replicate]

def Selected (pool : SubstateTaskPool) (segment : BlockSegment) (block : Nat) (tx : Int) : Prop :=
  segment.first ≤ block ∧ block ≤ segment.last ∧ ∃ substate, (pool.db block)[tx]? = some substate ∧
    pool.config.isBlockListed block = true ∧ pool.config.isTxListed block tx = true ∧
    pool.config.skipTx substate = false

def segmentTxs (pool : SubstateTaskPool) (segment : BlockSegment) : List (Nat × Int) :=
  (List.range' segment.first (segment.last + 1 - segment.first)).flatMap fun b =>
    (pool.tasks b).map fun task => (b, task.1)

theorem mem_segmentTxs {block : Nat} {tx : Int} :
    (block, tx) ∈ segmentTxs pool segment ↔ Selected pool segment block tx := by
  have hle := segment.first_le
  unfold segmentTxs Selected SubstateTaskPool.tasks
  rw [mem_flatMap]
  constructor
  · rintro ⟨b, hb, hmem⟩
    obtain ⟨⟨tx', substate⟩, htask, heq⟩ := mem_map.mp hmem
    cases heq
    rw [mem_range'_1] at hb
    exact ⟨by omega, by omega, substate, mem_blockTasks.mp htask⟩
  · rintro ⟨hfirst, hlast, substate, htask⟩
    refine ⟨block, ?_, ?_⟩
    · rw [mem_range'_1]
      omega
    · exact mem_map.mpr ⟨(tx, substate), mem_blockTasks.mpr htask, rfl⟩

theorem segmentTxs_nodup : (segmentTxs pool segment).Nodup := by
  unfold segmentTxs
  rw [nodup_flatMap]
  refine ⟨?_, ?_⟩
  · intro b _
    have hnd := (blockTasks_nodup (pool.db b) b pool.config).map (Prod.mk_right_injective b)
    rw [List.map_map] at hnd
    exact hnd
  · refine (nodup_range' ..).imp ?_
    intro a b hab x hxa hxb
    obtain ⟨_, _, rfl⟩ := mem_map.mp hxa
    obtain ⟨_, _, heq⟩ := mem_map.mp hxb
    exact hab (Prod.mk.inj heq).1.symm

theorem made_of_returned (h : PoolReaches pool segment s) (hr : s.main = .returned none) :
    (s.made.map fun c => (c.1, c.2.1)).Perm (segmentTxs pool segment) ∧
      ∀ c ∈ s.calls, c.err = none := by
  have hlast : segment.last + 1 < 2 ^ 64 := by
    have hlt := segment.last_lt
    by_contra hge
    exact (result_ne_none (by omega) h).2 (by rw [hr]; rfl)
  obtain ⟨d, hd⟩ := dispatched_of_reaches hlast h
  obtain ⟨hok, hcount⟩ := (counted_of_reaches hlast h).done (by rw [hr]; rfl)
  have hjoined := joined_of_reaches h none hr
  -- everything taken has been received
  have hidle : ∀ {β : Type} (f : Worker → Option β), f .returned = none →
      s.workers.filterMap f = [] := by
    intro β f hf
    rw [filterMap_eq_nil_iff]
    intro w hw
    rw [hjoined w hw, hf]
  obtain ⟨hsent, hdle⟩ := hd.length_le
  rw [PoolState.sent, length_append, hcount, hidle _ rfl, length_nil] at hsent
  have hdone : s.doneChan = [] := eq_nil_of_length_eq_zero (by omega)
  have hd' : d = segment.last + 1 - segment.first := by omega
  have hout : ∀ o ∈ s.outcomes, o.Ok := by
    rw [PoolState.outcomes, PoolState.sent, hdone, hidle _ rfl, append_nil, append_nil]
    exact hok
  obtain ⟨hcalls, herr⟩ := callsTracked_of_reaches h hout
  refine ⟨?_, herr⟩
  have hrem : s.workers.flatMap (Worker.remaining pool) = [] := by
    rw [flatMap_eq_nil_iff]
    intro w hw
    rw [hjoined w hw]
    rfl
  have hall := hcalls.trans (hd.taken.flatMap_right pool.callsOf)
  rw [hrem, append_nil, hd'] at hall
  have hmap := hall.map fun c => (c.1, c.2.1)
  unfold PoolState.made
  rw [hidle _ rfl, append_nil]
  refine hmap.trans ?_
  unfold segmentTxs SubstateTaskPool.callsOf
  rw [map_flatMap]
  simp only [List.map_map]
  exact List.Perm.refl _

/-- If `ExecuteSegment` returns nil, every selected transaction was run once, no other was, and
none failed; when it has returned at all, no call is running. -/
theorem executeSegment_calls_once (h : PoolReaches pool segment s) :
    (s.main = .returned none →
      (∀ block tx,
        (Selected pool segment block tx →
          (s.made.map fun c => (c.1, c.2.1)).count (block, tx) = 1) ∧
        (¬ Selected pool segment block tx →
          (s.made.map fun c => (c.1, c.2.1)).count (block, tx) = 0)) ∧
      ∀ c ∈ s.calls, c.err = none) ∧
    (∀ r, s.main = .returned r → ∀ w ∈ s.workers, w.running = none) := by
  constructor
  · intro hr
    obtain ⟨hperm, herr⟩ := made_of_returned h hr
    refine ⟨?_, herr⟩
    intro block tx
    rw [hperm.count_eq, ← mem_segmentTxs]
    exact ⟨count_eq_one_of_mem segmentTxs_nodup, count_eq_zero_of_not_mem⟩
  · intro r hr w hw
    rw [joined_of_reaches h r hr w hw]
    rfl

end Pool

/-- A transaction with a receiver; the default one has none and creates a contract. -/
def messageTx : Substate := { (default : Substate) with txMessage := { toAddr := some [1] } }

/-- Two workers and a list with transaction 0 of block 0 and the whole of block 1, whose creation
is skipped. -/
def pairPool : SubstateTaskPool where
  name := "pair"
  config := ⟨false, false, true, true, {1}, {(0, 0)}, {0}⟩
  numWorkers := 2
  pos := Nat.two_pos
  db block := if block = 0 then ((∅ : GoMap Int Substate).insert 0 messageTx).insert 1 messageTx
    else ((∅ : GoMap Int Substate).insert 0 default).insert 1 messageTx
  taskFunc _ _ _ r := r = none

def pairSegment : BlockSegment := ⟨0, 1, Nat.zero_le _, by decide⟩

/- The second worker is done first; it walks the transactions of block 1 from the last on. -/
open Worker in
theorem pairPool_returns : ∃ s, PoolReaches pairPool pairSegment s ∧ s.main = .returned none := by
  have htxs0 : pairPool.txSubstates 0 = [(0, messageTx)] := rfl
  have htxs1 : pairPool.txSubstates 1 = [(0, default), (1, messageTx)] := rfl
  have h0 : PoolReaches pairPool pairSegment (.init pairPool pairSegment) := .refl
  have h1 := h0.tail (.produce rfl (by decide) (by decide))
  have h2 := h1.tail (.produce rfl (by decide) (by decide))
  have h3 := h2.tail (.take (rfl : _ = [] ++ waiting :: [waiting]) rfl (.of_eq htxs0.symm))
  have h4 := h3.tail (.take (rfl : _ = [executing 0 [(0, messageTx)]] ++ waiting :: []) rfl
    ((Perm.swap (0, default) (1, messageTx) []).trans (.of_eq htxs1.symm)))
  have h5 := h4.tail (.call (rfl : _ = [] ++ executing 0 [(0, messageTx)] :: _) rfl)
  have h6 := h5.tail (.call (rfl : _ = [_] ++ executing 1 [(1, messageTx), (0, default)] :: []) rfl)
  have h7 := h6.tail (.callReturns (rfl : _ = [_] ++ calling 1 (1, messageTx) _ :: []) rfl)
  have h8 := h7.tail (.skip (rfl : _ = [_] ++ executing 1 [(0, default)] :: []) rfl)
  have h9 := h8.tail (.finish (rfl : _ = [_] ++ executing 1 [] :: []))
  have h10 := h9.tail (.send (rfl : _ = [_] ++ sending (.block 1) :: []) (by decide))
  have h11 := h10.tail (.callReturns (rfl : _ = [] ++ calling 0 (0, messageTx) [] :: _) rfl)
  have h12 := h11.tail (.finish (rfl : _ = [] ++ executing 0 [] :: _))
  have h13 := h12.tail (.send (rfl : _ = [] ++ sending (.block 0) :: _) (by decide))
  have h14 := h13.tail (.receive rfl (by decide) (by decide) rfl)
  have h15 := h14.tail (.receive rfl (by decide) (by decide) rfl)
  have h16 := h15.tail (.count rfl (by decide) (by decide))
  have h17 := h16.tail (.count rfl (by decide) (by decide))
  have h18 := h17.tail (.loopEnd rfl (by decide))
  have h19 := h18.tail (.sendStop rfl (by decide) (by decide))
  have h20 := h19.tail (.stop (rfl : _ = [] ++ waiting :: [waiting]) (by decide))
  have h21 := h20.tail (.sendStop rfl (by decide) (by decide))
  have h22 := h21.tail (.stop (rfl : _ = [returned] ++ waiting :: []) (by decide))
  have h23 := h22.tail (.sendStop rfl (by decide) (by decide))
  have h24 := h23.tail (.stopsSent rfl (by decide))
  have h25 := h24.tail (.produceEnd rfl (by decide))
  have h26 := h25.tail (.join rfl (by simp) (.inl rfl))
  exact ⟨_, h26, rfl⟩

theorem pairPool_calls_once : ∃ s, PoolReaches pairPool pairSegment s ∧ s.main = .returned none ∧
    ∀ block tx, (s.made.map fun c => (c.1, c.2.1)).count (block, tx) =
      if (block, tx) = (0, 0) ∨ (block, tx) = (1, 1) then 1 else 0 := by
  obtain ⟨s, hs, hr⟩ := pairPool_returns
  refine ⟨s, hs, hr, fun block tx => ?_⟩
  have hcount := ((executeSegment_calls_once hs).1 hr).1 block tx
  have hsel : Selected pairPool pairSegment block tx ↔
      (block, tx) = (0, 0) ∨ (block, tx) = (1, 1) := by
    rw [← mem_segmentTxs, show segmentTxs pairPool pairSegment = [(0, 0), (1, 1)] from rfl]
    simp
  split
  · next h => exact hcount.1 (hsel.mpr h)
  · next h => exact hcount.2 (mt hsel.mp h)

end EtherVal.Research
