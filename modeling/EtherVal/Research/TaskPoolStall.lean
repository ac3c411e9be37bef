import EtherVal.Research.TaskPoolLiveness

/-!
# How the task pool gets stuck

After an error nobody receives from `doneChan`, while the deferred function waits for workers that
still send to it.
-/

namespace EtherVal.Research
open EtherVal.Lib Relation List

section Pool
variable {pool : SubstateTaskPool} {segment : BlockSegment} {s t : PoolState}

/-- No reachable state before the return is a deadlock, and no run goes on for ever. -/
def NeverStuck (pool : SubstateTaskPool) (segment : BlockSegment) : Prop :=
  (∀ s, PoolReaches pool segment s → (∃ r, s.main = .returned r) ∨
    ∃ t, PoolStep pool segment s t) ∧
  ¬ Endless (PoolStep pool segment) (.init pool segment)

structure Stalled (pool : SubstateTaskPool) (o : Outcome) (s : PoolState) : Prop where
  left : s.main.result ≠ none
  full : pool.numWorkers * 1000 ≤ s.doneChan.length
  sending : .sending o ∈ s.workers

variable {o : Outcome}

theorem mem_of_move {pre post : List Worker} {w w' : Worker} (hsend : .sending o ∈ pre ++ w :: post)
    (hw : w.outcome = none) :
    .sending o ∈ pre ++ w' :: post := by
  simp only [mem_append, mem_cons] at hsend ⊢
  obtain hpre | rfl | hpost := hsend
  · exact .inl hpre
  · cases hw
  · exact .inr (.inr hpost)

theorem Stalled.step (h : Stalled pool o s) (hst : PoolStep pool segment s t) :
    Stalled pool o t := by
  have hsend := h.sending
  cases hst with
  | produce | produceStop | produceEnd => exact ⟨h.left, h.full, h.sending⟩
  | take hw | stop hw | skip hw | call hw | callReturns hw | callFails hw | finish hw =>
    rw [hw] at hsend
    exact ⟨h.left, h.full, mem_of_move hsend rfl⟩
  | send _ hroom =>
    have hfull := h.full
    omega
  | count hm | receive hm | receiveError hm | loopEnd hm =>
    have hleft := h.left
    rw [hm] at hleft
    exact absurd rfl hleft
  | sendStop | stopsSent | join => exact ⟨by simp [Main.result], h.full, h.sending⟩

theorem Stalled.not_neverStuck (h : Stalled pool o s) (hs : PoolReaches pool segment s) :
    ¬ NeverStuck pool segment := by
  intro hnever
  obtain ⟨t, hst, hstuck⟩ := exists_stuck fun hend => hnever.2 (hend.of_reach hs)
  have hreach : PoolReaches pool segment t := hs.trans hst
  have hstalled : Stalled pool o t := reach_invariant (fun _ _ hs hst => hs.step hst) hst h
  obtain ⟨r, hr⟩ | ⟨u, hu⟩ := hnever.1 t hreach
  · have hret := joined_of_reaches hreach r hr _ hstalled.sending
    cases hret
  · exact hstuck u hu

theorem doneChan_le (h : PoolReaches pool segment s) :
    s.doneChan.length ≤ pool.numWorkers * 1000 := by
  apply reach_invariant (I := fun s : PoolState => s.doneChan.length ≤ pool.numWorkers * 1000)
    ?_ h (Nat.zero_le _)
  intro s t hs hst
  cases hst with
  | send _ hroom =>
    rw [length_append, length_singleton]
    exact hroom
  | receive _ _ _ hdone | receiveError _ _ _ hdone =>
    rw [hdone, length_cons] at hs
    exact Nat.le_of_succ_le hs
  | _ => exact hs

theorem producer_ne_finished (hlast : segment.last + 1 = 2 ^ 64)
    (h : PoolReaches pool segment s) :
    (∀ b, s.producer = .loop b → b < 2 ^ 64) ∧ s.producer ≠ .finished := by
  apply reach_invariant (I := fun s : PoolState =>
    (∀ b, s.producer = .loop b → b < 2 ^ 64) ∧ s.producer ≠ .finished) ?_ h
  · refine ⟨?_, by simp [PoolState.init]⟩
    intro b hb
    cases hb
    exact Nat.lt_of_le_of_lt segment.first_le segment.last_lt
  · intro s t hs hst
    cases hst with
    | produce =>
      refine ⟨?_, by simp⟩
      intro b hb
      cases hb
      exact Nat.mod_lt _ (by norm_num)
    | produceStop =>
      refine ⟨?_, by simp⟩
      intro b hb
      cases hb
    | produceEnd hp hlt =>
      have hb := hs.1 _ hp
      omega
    | _ => exact hs

theorem back_reaches (h : ReflTransGen (BackStep pool segment) s t) :
    ReflTransGen (PoolStep pool segment) s t ∧ t.main = s.main ∧ t.stopChan = s.stopChan ∧
      ((∃ b w, s.main = .loop b w) ∨ t.received = s.received) := by
  induction h with
  | refl => exact ⟨.refl, rfl, rfl, .inr rfl⟩
  | @tail u v _ hst ih =>
    obtain ⟨hreach, hmain, hstop, hrec⟩ := ih
    refine ⟨hreach.tail hst.1, hst.2.1.trans hmain, hst.2.2.trans hstop, ?_⟩
    cases hrec with
    | inl hloop => exact .inl hloop
    | inr hrec =>
      -- only the main loop receives
      have hkeep : (∃ b w, u.main = .loop b w) ∨ v.received = u.received := by
        cases hst.1 with
        | receive hm | receiveError hm => exact .inl ⟨_, _, hm⟩
        | _ => exact .inr rfl
      cases hkeep with
      | inl hloop => exact .inl (hmain ▸ hloop)
      | inr hsame => exact .inr (hsame.trans hrec)

theorem room_after_error (hret : pool.Terminates) (hnever : NeverStuck pool segment)
    (h : PoolReaches pool segment s) {err : TaskError} (hm : s.main = .stopping (some err) 0) :
    segment.last + 1 < 2 ^ 64 ∧
      segment.size ≤ s.received.length + pool.numWorkers * 1000 := by
  have hback : ¬ Endless (BackStep pool segment) s := by
    intro hend
    exact hnever.2 ((hend.mono fun _ _ hst => hst.1).of_reach h)
  obtain ⟨t, hst, hq⟩ := exists_stuck hback
  obtain ⟨hsteps, hmain, _, hrec⟩ := back_reaches hst
  have ht : PoolReaches pool segment t := h.trans hsteps
  rw [hm] at hmain
  replace hrec : t.received = s.received := by
    obtain ⟨b, w, hloop⟩ | hrec := hrec
    · rw [hm] at hloop
      cases hloop
    · exact hrec
  have hsend : ∀ o, .sending o ∉ t.workers := by
    intro o ho
    obtain hw | hw | ⟨o', _, hfull⟩ := quiet_worker hret hq ho
    · cases hw.1
    · cases hw
    · have hstalled : Stalled pool o t := ⟨by rw [hmain]; simp [Main.result], hfull, ho⟩
      exact hstalled.not_neverStuck ht hnever
  have hstops := (stopsTracked_of_reaches ht).sum
  rw [hmain] at hstops
  simp only [Main.stopsSent] at hstops
  have hlen : t.workers.length = pool.numWorkers := workers_length_of_reaches ht
  obtain ⟨hheld, hwork, hprod⟩ := quiet_idle hret hq hlen hsend (by omega)
  have hfin : t.producer = .finished := by
    cases hp : t.producer with
    | loop b => exact absurd hp (hprod b)
    | finished => rfl
    | stopped =>
      rw [hp, if_pos rfl] at hstops
      omega
  have hlast : segment.last + 1 < 2 ^ 64 := by
    have hlt := segment.last_lt
    by_contra hge
    exact (producer_ne_finished (by omega) ht).2 hfin
  refine ⟨hlast, ?_⟩
  obtain ⟨d, hd⟩ := dispatched_of_reaches hlast ht
  have hall := hd.finished hfin
  have hsum := hd.length_le.1
  have hcap := doneChan_le ht
  rw [hwork, length_nil] at hall
  rw [hheld, length_nil, PoolState.sent, length_append, hrec] at hsum
  unfold BlockSegment.size
  omega

/-! ## A run into the error

The first blocks go through the first worker one after the other; then each worker gets a block,
the last of them one that fails. -/

structure Handed (pool : SubstateTaskPool) (segment : BlockSegment) (k : Nat) (busy : List Worker)
    (s : PoolState) : Prop where
  reaches : PoolReaches pool segment s
  workChan : s.workChan = []
  doneChan : s.doneChan = []
  producer : s.producer = .loop (segment.first + k + busy.length)
  workers : s.workers = busy ++ List.replicate (pool.numWorkers - busy.length) .waiting
  main : s.main = .loop (segment.first + k) ∅
  received : s.received.length = k

theorem handed_init : Handed pool segment 0 [] (.init pool segment) :=
  ⟨.refl, rfl, rfl, rfl, rfl, rfl, rfl⟩

variable {k : Nat}

theorem Handed.hand {busy : List Worker} (h : Handed pool segment k busy s)
    (hroom : busy.length < pool.numWorkers) (hle : segment.first + k + busy.length ≤ segment.last)
    (hnext : segment.first + k + busy.length + 1 < 2 ^ 64) {order : List Task}
    (horder : order.Perm (pool.txSubstates (segment.first + k + busy.length))) :
    ∃ t, Handed pool segment k
      (busy ++ [.executing (segment.first + k + busy.length) order]) t := by
  have hpos := pool.pos
  have hsplit : s.workers =
      busy ++ .waiting :: List.replicate (pool.numWorkers - busy.length - 1) .waiting := by
    rw [h.workers, ← replicate_succ]
    congr 2
    omega
  have h1 := h.reaches.tail (.produce h.producer hle (by rw [h.workChan, length_nil]; omega))
  have hqueue : s.workChan ++ [segment.first + k + busy.length] =
      [segment.first + k + busy.length] := by rw [h.workChan, nil_append]
  have h2 := h1.tail (.take hsplit hqueue horder)
  refine ⟨_, h2, rfl, h.doneChan, ?_, ?_, h.main, h.received⟩
  · show Producer.loop (nextBlock _) = _
    rw [nextBlock_eq hnext, length_append, length_singleton, Nat.add_assoc]
  · rw [length_append, length_singleton, append_assoc]
    rfl

variable {block : Nat}

theorem executes_block {pre post : List Worker} {todo : List Task}
    (hok : ∀ task ∈ todo, pool.config.skipTx task.2 = false →
      pool.taskFunc block task.1 task.2 none) (hs : PoolReaches pool segment s)
    (hw : s.workers = pre ++ .executing block todo :: post) :
    ∃ calls, PoolReaches pool segment
      { s with workers := pre ++ .sending (.block block) :: post, calls := calls } := by
  induction todo generalizing s with
  | nil => exact ⟨s.calls, hs.tail (.finish hw)⟩
  | cons task todo ih =>
    have hrest : ∀ task ∈ todo, pool.config.skipTx task.2 = false →
        pool.taskFunc block task.1 task.2 none :=
      fun task' hmem => hok task' (mem_cons_of_mem _ hmem)
    cases hskip : pool.config.skipTx task.2 with
    | true =>
      have h1 := hs.tail (.skip hw hskip)
      have hend := ih hrest h1 rfl
      exact hend
    | false =>
      have h1 := hs.tail (.call hw hskip)
      have h2 := h1.tail (.callReturns rfl (hok task mem_cons_self hskip))
      have hend := ih hrest h2 rfl
      exact hend

theorem returns_nil (hret : pool.Terminates) (hok : ¬ MayFail pool block) {task : Task}
    (hmem : task ∈ pool.txSubstates block) (hskip : pool.config.skipTx task.2 = false) :
    pool.taskFunc block task.1 task.2 none := by
  obtain ⟨r, hr⟩ := hret block task.1 task.2
  cases r with
  | none => exact hr
  | some err =>
    have htask : task ∈ pool.tasks block := mem_filter.mpr ⟨hmem, by rw [hskip]; rfl⟩
    exact absurd ⟨task, htask, err, hr⟩ hok

theorem Handed.done (hret : pool.Terminates) (h : Handed pool segment k [] s)
    (hle : segment.first + k ≤ segment.last) (hnext : segment.first + k + 1 < 2 ^ 64)
    (hok : ¬ MayFail pool (segment.first + k)) : ∃ t, Handed pool segment (k + 1) [] t := by
  have hpos := pool.pos
  obtain ⟨t, ht⟩ := h.hand hpos hle hnext (List.Perm.refl _)
  have hw : t.workers = [] ++ .executing (segment.first + k) (pool.txSubstates (segment.first + k))
      :: List.replicate (pool.numWorkers - 1) .waiting := ht.workers
  obtain ⟨calls, h1⟩ := executes_block
    (fun task hmem hskip => returns_nil hret hok hmem hskip) ht.reaches hw
  have h2 := h1.tail (.send rfl
    (by show t.doneChan.length < _; rw [ht.doneChan, length_nil]; omega))
  have hdone : t.doneChan ++ [.block (segment.first + k)] = .block (segment.first + k) :: [] := by
    rw [ht.doneChan, nil_append]
  have h3 := h2.tail (.receive ht.main hle (Finset.notMem_empty _) hdone)
  have h4 := h3.tail (.count rfl hle (Finset.mem_insert_self _ _))
  refine ⟨_, h4, ht.workChan, rfl, ?_, ?_, ?_, ?_⟩
  · show t.producer = _
    rw [ht.producer]
    rfl
  · show [] ++ Worker.waiting :: List.replicate (pool.numWorkers - 1) .waiting = _
    rw [nil_append, nil_append, ← replicate_succ]
    congr 1
    show pool.numWorkers - 1 + 1 = pool.numWorkers
    omega
  · show Main.loop (nextBlock _) _ = _
    rw [nextBlock_eq hnext]
    congr 1
    simp
  · show (t.received ++ _).length = _
    rw [length_append, ht.received]
    rfl

theorem Handed.fails {busy : List Worker} (h : Handed pool segment k busy s)
    (hroom : busy.length < pool.numWorkers) (hle : segment.first + k + busy.length ≤ segment.last)
    (hnext : segment.first + k + busy.length + 1 < 2 ^ 64)
    (hfail : MayFail pool (segment.first + k + busy.length)) :
    ∃ t err, PoolReaches pool segment t ∧ t.main = .stopping (some err) 0 ∧
      t.received.length = k + 1 := by
  obtain ⟨task, htask, err, herr⟩ := hfail
  obtain ⟨hmem, hskip⟩ := mem_filter.mp htask
  have hpos := pool.pos
  obtain ⟨t, ht⟩ := h.hand hroom hle hnext (perm_cons_erase hmem).symm
  have hw := ht.workers
  rw [append_assoc, singleton_append] at hw
  have h1 := ht.reaches.tail (.call hw (by simpa using hskip))
  have h2 := h1.tail (.callFails rfl herr)
  have h3 := h2.tail (.send rfl
    (by show t.doneChan.length < _; rw [ht.doneChan, length_nil]; omega))
  have hdone : ∀ o : Outcome, t.doneChan ++ [o] = o :: [] := by
    intro o
    rw [ht.doneChan, nil_append]
  have h4 := h3.tail (.receiveError ht.main (by omega) (Finset.notMem_empty _) (hdone _))
  refine ⟨_, _, h4, rfl, ?_⟩
  show (t.received ++ _).length = _
  rw [length_append, ht.received]
  rfl

theorem handed_done (hret : pool.Terminates) (hlast : segment.last + 1 < 2 ^ 64)
    (hle : block ≤ segment.last) (hok : ∀ b, segment.first ≤ b → b < block → ¬ MayFail pool b)
    (hk : segment.first + k ≤ block) : ∃ t, Handed pool segment k [] t := by
  induction k with
  | zero => exact ⟨_, handed_init⟩
  | succ k ih =>
    obtain ⟨t, ht⟩ := ih (by omega)
    exact ht.done hret (by omega) (by omega) (hok _ (by omega) (by omega))

theorem Handed.busy (hlast : segment.last + 1 < 2 ^ 64) {i : Nat} (h : Handed pool segment k [] s)
    (hi : i ≤ pool.numWorkers) (hle : segment.first + k + i ≤ segment.last) :
    ∃ busy t, busy.length = i ∧ Handed pool segment k busy t := by
  induction i with
  | zero => exact ⟨[], s, rfl, h⟩
  | succ i ih =>
    obtain ⟨busy, t, hlen, ht⟩ := ih (by omega) (by omega)
    obtain ⟨u, hu⟩ := ht.hand (by omega) (by omega) (by omega) (List.Perm.refl _)
    exact ⟨_, u, by rw [length_append, hlen]; rfl, hu⟩

theorem error_received (hret : pool.Terminates) (hlast : segment.last + 1 < 2 ^ 64)
    (hfirst : segment.first ≤ block) (hle : block ≤ segment.last) (hfail : MayFail pool block)
    (hok : ∀ b, segment.first ≤ b → b < block → ¬ MayFail pool b) :
    ∃ t err, PoolReaches pool segment t ∧ t.main = .stopping (some err) 0 ∧
      t.received.length = block + 1 - segment.first - pool.numWorkers + 1 := by
  have hpos := pool.pos
  obtain ⟨t, ht⟩ := handed_done hret hlast hle hok
    (by omega : segment.first + (block + 1 - segment.first - pool.numWorkers) ≤ block)
  obtain ⟨busy, u, hlen, hu⟩ := ht.busy hlast
    (by omega : block - segment.first - (block + 1 - segment.first - pool.numWorkers) ≤
      pool.numWorkers) (by omega)
  have hblock : segment.first + (block + 1 - segment.first - pool.numWorkers) + busy.length =
      block := by omega
  exact hu.fails (by omega) (by omega) (by omega) (by rw [hblock]; exact hfail)

theorem stopping_reached (h : PoolReaches pool segment s) {err : TaskError}
    (hr : s.main.result = some (some err)) :
    ∃ t, PoolReaches pool segment t ∧ t.main = .stopping (some err) 0 := by
  induction h with
  | refl => cases hr
  | tail hreach hst ih =>
    cases hst with
    | produce | produceStop | produceEnd | take | stop | skip | call | callReturns | callFails
    | finish | send => exact ih hr
    | count | receive | loopEnd => cases hr
    | receiveError hm hle hnot hdone =>
      cases hr
      exact ⟨_, hreach.tail (.receiveError hm hle hnot hdone), rfl⟩
    | sendStop hm | stopsSent hm | join hm =>
      apply ih
      rw [hm]
      exact hr

theorem NeverStuck.no_wrap (hret : pool.Terminates) (h : NeverStuck pool segment) :
    segment.last + 1 < 2 ^ 64 := by
  by_contra hge
  have hlt := segment.last_lt
  obtain ⟨s, hs, hstuck⟩ := exists_stuck h.2
  obtain ⟨r, hr⟩ | ⟨t, ht⟩ := h.1 s hs
  · cases r with
    | none => exact (result_ne_none (by omega) hs).2 (by rw [hr]; rfl)
    | some err =>
      obtain ⟨t, ht, hm⟩ := stopping_reached hs (by rw [hr]; rfl : s.main.result = some (some err))
      exact hge (room_after_error hret h ht hm).1
  · exact hstuck t ht

theorem NeverStuck.size_lt (hret : pool.Terminates) (h : NeverStuck pool segment)
    (hfirst : segment.first ≤ block) (hle : block ≤ segment.last) (hfail : MayFail pool block) :
    segment.size < stallSize pool segment block := by
  classical
  have hlast := h.no_wrap hret
  -- the first block that may fail gives the tightest bound
  have hex : ∃ b, segment.first ≤ b ∧ MayFail pool b := ⟨block, hfirst, hfail⟩
  obtain ⟨hmin, hfails⟩ := Nat.find_spec hex
  have hbefore : Nat.find hex ≤ block := Nat.find_min' hex ⟨hfirst, hfail⟩
  obtain ⟨t, err, ht, hm, hrec⟩ := error_received hret hlast hmin (by omega) hfails
    fun b hb hlt hb' => Nat.find_min hex hlt ⟨hb, hb'⟩
  have hroom := (room_after_error hret h ht hm).2
  rw [hrec] at hroom
  have hmono : Nat.find hex + 1 - segment.first - pool.numWorkers ≤
      block + 1 - segment.first - pool.numWorkers := by omega
  unfold stallSize
  linarith only [hroom, hmono]

/-- `ExecuteSegment` never gets stuck exactly when the segment does not end at the largest block
number and is shorter than what can stall after an error of any of its blocks. -/
theorem executeSegment_neverStuck_iff (hret : pool.Terminates) :
    NeverStuck pool segment ↔ segment.last + 1 < 2 ^ 64 ∧
      ∀ block, segment.first ≤ block → block ≤ segment.last → MayFail pool block →
        segment.size < stallSize pool segment block := by
  constructor
  · intro h
    exact ⟨h.no_wrap hret, fun _ hfirst hle hfail => h.size_lt hret hfirst hle hfail⟩
  · rintro ⟨hlast, hsize⟩
    refine ⟨?_, pool_not_endless hlast⟩
    intro s hs
    by_contra hnone
    obtain ⟨hrun, hstep⟩ := not_or.mp hnone
    obtain ⟨block, hfirst, hle, hfail, hstall⟩ := stuck_stalls hlast hret hs
      (fun t ht => hstep ⟨t, ht⟩) (fun r hr => hrun ⟨r, hr⟩)
    exact absurd (hsize block hfirst hle hfail) (by omega)

end Pool

def soloPool : SubstateTaskPool where
  name := "solo"
  config := ⟨false, false, false, false, ∅, ∅, ∅⟩
  numWorkers := 1
  pos := Nat.one_pos
  db block := if block = 0 then (∅ : GoMap Int Substate).insert 0 default else ∅
  taskFunc _ _ _ r := r = none

def soloSegment : BlockSegment := ⟨0, 0, Nat.le_refl _, by decide⟩

theorem soloPool_neverStuck : soloPool.Terminates ∧ NeverStuck soloPool soloSegment := by
  have hret : soloPool.Terminates := fun _ _ _ => ⟨none, rfl⟩
  refine ⟨hret, (executeSegment_neverStuck_iff hret).mpr ⟨by decide, ?_⟩⟩
  rintro block - - ⟨task, -, err, herr⟩
  cases herr

def failingPool : SubstateTaskPool :=
  { soloPool with taskFunc := fun _ _ _ r => r = some "failed" }

/-- With one worker and 1002 blocks, an error in the first one can leave the worker sending to a
full channel for ever. -/
theorem failingPool_stuck :
    failingPool.Terminates ∧ ¬ NeverStuck failingPool ⟨0, 1001, by decide, by decide⟩ := by
  have hret : failingPool.Terminates := fun _ _ _ => ⟨some "failed", rfl⟩
  refine ⟨hret, ?_⟩
  intro h
  have hfail : MayFail failingPool 0 := by
    refine ⟨(0, default), ?_, "failed", rfl⟩
    have htasks : failingPool.tasks 0 = [(0, default)] := rfl
    rw [htasks]
    exact mem_singleton_self _
  have hsize := h.size_lt hret (Nat.le_refl 0) (Nat.zero_le _) hfail
  revert hsize
  decide

end EtherVal.Research
