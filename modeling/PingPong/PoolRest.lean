-- The pool at rest: a pool in which no thread can go on has nothing left to do, and a
-- pool that gets no calls comes to rest by itself.
import PingPong.Lib.Fairness
import PingPong.Lib.Progress
import PingPong.PoolPass

namespace pingpong.concurinc

open mutex tally

variable {n : Nat} {γ φ : Type}

/-! ## What the threads rely on -/

/-- What holds where the threads sleep, pop and join, as long as the pthread calls succeed. -/
structure Tended (s : Pool n γ φ) : Prop where
  asleep : ∀ w, s.q_waiting w = true → (s.workers w).pc = .cond_wait
  supplied : ∀ w, (s.workers w).pc = .check_shutdown ∨ (s.workers w).pc = .pop →
    s.b_shutdown = true ∨ s.p_work_queue ≠ []
  popped : ∀ w, (s.workers w).pc ≠ .pop_failed
  counted : s.active_tasks = total counts s.workers
  waited : ∀ c, s.a_waiting c = true →
    0 < s.active_tasks ∨ ∃ w, (s.workers w).pc = .broadcast_dec
  joins : ∀ c i, (s.clients c).pc ≠ .stop_join i .COIN_PTHREAD_JOIN_ERROR
  gone : s.tpool_queue_mutex = .destroyed → AllExited s
  gone_active : s.active_tasks_mutex = .destroyed → s.tpool_queue_mutex = .destroyed

/-- A worker that goes to take a task is under the mutex of the queue. -/
theorem inQueue_of_taking {s : Pool n γ φ} {w : Fin n}
    (h : (s.workers w).pc = .check_shutdown ∨ (s.workers w).pc = .pop) : s.inQueue (.worker w) := by
  rcases h with hpc | hpc
  · rw [Pool.inQueue, hpc]
    rfl
  · rw [Pool.inQueue, hpc]
    rfl

theorem tended_new : Tended (new_pool : Pool n γ φ) where
  asleep _ h := nomatch h
  supplied _ h := nomatch h
  popped _ h := nomatch h
  counted := (total_zero fun _ => rfl).symm
  waited _ h := nomatch h
  joins _ _ h := nomatch h
  gone h := nomatch h
  gone_active h := nomatch h

/-- A step takes tasks out of the queue only at the pop. -/
theorem WorkerMove.queue {res : Int} {x x' : Worker φ} {d d' : Tasks φ}
    (h : WorkerMove res x x' d d') :
    d'.queue = d.queue ∨ (x.pc = .pop ∧ x'.pc.phase = .taken) := by
  cases h with
  | pop t q hpc hphase => exact Or.inr ⟨hpc, hphase⟩
  | _ => exact Or.inl rfl

/-- While the calls succeed, the count changes as the worker's share does. -/
theorem WorkerMove.counts_all {x x' : Worker φ} {d d' : Tasks φ} (h : WorkerMove 0 x x' d d')
    {rest : Nat} (hc : d.active = rest + counts x) : d'.active = rest + counts x' := by
  cases h with
  | quiet hphase htask hleave =>
    rcases hphase with hp | hp
    · rwa [counts_of_phase hp]
    · have hnone : counts x = 0 := by
        rcases hleave hp rfl with hi | hi
        · exact counts_of_phase hi
        · exact counts_of_phase hi
      rw [counts_of_phase hp]
      rwa [hnone] at hc
  | pop t q hpc hphase =>
    rw [counts, hpc] at hc
    rwa [counts_of_phase hphase]
  | inc hpc hphase =>
    rw [counts, hpc] at hc
    rw [counts_of_phase hphase]
    exact congrArg (· + 1) hc
  | run hpc hphase =>
    rw [counts, hpc] at hc
    rwa [counts_of_phase hphase]
  | free hpc hphase =>
    rw [counts, hpc] at hc
    rwa [counts_of_phase hphase]
  | dec hpc hphase =>
    rw [counts, hpc] at hc
    have hc : d.active = rest + 1 := hc
    rw [counts_of_phase hphase]
    show size_sub d.active 1 = rest
    rw [size_sub_of_le (by omega)]
    omega

variable [DecidableEq γ]

theorem Tended.worker_step {s s' : Pool n γ φ} {w : Fin n} {o : Outcome n} {x : Worker φ}
    (h : Tended s) (hp : Placed s) (hw : WorkerStep w 0 (s.workers w) x s s')
    (hpass : WorkerPass w o (s.workers w) x s s') (hs : pool_step s (.worker w o) = some s') :
    Tended s' := by
  have hqueue : s'.p_work_queue = s.p_work_queue ∨
      ((s.workers w).pc = .pop ∧ x.pc.phase = .taken) := hw.tasks.queue
  refine ⟨fun v hv => ?_, fun v hv => ?_, ?_, ?_, fun c hc => ?_, ?_, fun hgone v => ?_,
    fun hgone => ?_⟩
  · rcases hpass.asleep v hv with ⟨rfl, hpc⟩ | ⟨hwas, hne⟩
    · rw [hw.self]
      exact hpc
    · by_cases hvw : v = w
      · subst hvw
        exact absurd (h.asleep v hwas) (hne rfl)
      · rw [hw.other hvw]
        exact h.asleep v hwas
  · by_cases hvw : v = w
    · subst hvw
      rw [hw.self] at hv
      have hbefore : s.b_shutdown = true ∨ s.p_work_queue ≠ [] := by
        rcases hv with hv | hv
        · exact hpass.checked hv
        · exact h.supplied v (Or.inl (hpass.popping hv))
      rcases hqueue with hsame | ⟨-, hphase⟩
      · rw [hsame]
        exact hbefore.imp_left hw.flag_kept
      · rcases hv with hv | hv
        · rw [hv] at hphase
          cases hphase
        · rw [hv] at hphase
          cases hphase
    · rw [hw.other hvw] at hv
      rcases hqueue with hsame | ⟨hpop, -⟩
      · rw [hsame]
        exact (h.supplied v hv).imp_left hw.flag_kept
      · -- both would be under the mutex
        have hme : s.inQueue (.worker w) := inQueue_of_taking (Or.inr hpop)
        have hother : s.inQueue (.worker v) := inQueue_of_taking hv
        exact absurd (Thread.worker.inj (hp.queue.unique hother hme)) hvw
  · refine hw.forall_workers (P := fun x => x.pc ≠ .pop_failed) h.popped fun hx => ?_
    obtain ⟨hpop, hempty⟩ := hpass.starved hx
    rcases h.supplied w (Or.inr hpop) with hflag | hwork
    · rw [hp.to_pop w hpop] at hflag
      cases hflag
    · exact hwork hempty
  · obtain ⟨rest, hold, hnew⟩ := total_split counts s.workers w
    rw [hw.workers, hnew]
    exact hw.tasks.counts_all (h.counted.trans hold)
  · rcases hpass.told with hnone | ⟨hsame, hpc⟩
    · rw [hnone c] at hc
      cases hc
    · rw [hsame] at hc
      rcases h.waited c hc with hactive | ⟨v, hv⟩
      · by_cases hzero : s'.active_tasks = 0
        · rcases hpass.finished hzero with hwas | hnow
          · omega
          · refine Or.inr ⟨w, ?_⟩
            rw [hw.self]
            exact hnow
        · exact Or.inl (Nat.pos_of_ne_zero hzero)
      · refine Or.inr ⟨v, ?_⟩
        rw [hw.other fun hvw => hpc (hvw ▸ hv)]
        exact hv
  · rw [hw.clients]
    exact h.joins
  · exact exited_kept hs (h.gone (hpass.gone.1 hgone) v)
  · exact destroyed_kept hs (h.gone_active (hpass.gone.2 hgone))

theorem Tended.client_step {s s' : Pool n γ φ} {c : γ} {o : Outcome n} {y : Client φ}
    (h : Tended s) (hp : Placed s) (hclosing : Closing c s)
    (hc : ClientStep c 0 (s.clients c) y s s') (hpass : ClientPass (s.clients c) y s s')
    (hs : pool_step s (.client c o) = some s') : Tended s' := by
  have hactive : s'.active_tasks = s.active_tasks := hc.tasks.active
  refine ⟨fun v hv => ?_, fun v hv => ?_, ?_, ?_, fun d hd => ?_, fun d i hd => ?_,
    fun hgone v => ?_, fun hgone => ?_⟩
  · rw [hc.workers]
    refine h.asleep v ?_
    by_contra hwas
    rw [hc.awake v (Bool.eq_false_iff.mpr hwas)] at hv
    cases hv
  · rw [hc.workers] at hv
    rcases h.supplied v hv with hflag | hwork
    · exact Or.inl (hc.flag_kept hflag)
    · have hmove := hc.tasks
      generalize hd' : s'.tasks = d' at hmove
      have hqueue : s'.p_work_queue = d'.queue := congrArg Tasks.queue hd'
      rw [hqueue]
      cases hmove with
      | quiet => exact Or.inr hwork
      | push work free_arg => exact Or.inr (List.append_ne_nil_of_right_ne_nil _ nofun)
      | drop hpc =>
        -- the mutex is destroyed, so no worker is under it
        have hheld := hp.queue (.worker v) (inQueue_of_taking hv)
        rw [hp.past c (by rw [hpc]; rfl)] at hheld
        cases hheld
  · rw [hc.workers]
    exact h.popped
  · rw [hactive, hc.workers]
    exact h.counted
  · rw [hactive, hc.workers]
    rcases hpass.waits d hd with hwas | hpos
    · exact h.waited d hwas
    · exact Or.inl hpos
  · by_cases hdc : d = c
    · subst hdc
      rw [hc.self] at hd
      obtain ⟨j, hj⟩ := hpass.joins i hd
      exact h.joins d j hj
    · rw [hc.other hdc] at hd
      exact h.joins d i hd
  · rcases hpass.gone hgone with hwas | hpc
    · exact exited_kept hs (h.gone hwas v)
    · rw [Closing, hpc] at hclosing
      exact exited_kept hs (hclosing v)
  · rcases hpass.gone_active hgone with hwas | hpc
    · exact destroyed_kept hs (h.gone_active hwas)
    · rw [Closing, hpc] at hclosing
      exact destroyed_kept hs hclosing.mutex

theorem Tended.call_step {s s' : Pool n γ φ} {c : γ} {call : Call φ} (h : Tended s)
    (hs : pool_step s (.call c call) = some s') : Tended s' := by
  obtain ⟨-, rfl⟩ := call_step_cases hs
  refine ⟨h.asleep, h.supplied, h.popped, h.counted, h.waited, fun d i hd => ?_, h.gone,
    h.gone_active⟩
  by_cases hdc : d = c
  · rw [hdc, Pool.goto_self] at hd
    cases call <;> cases hd
  · rw [Pool.goto_other s hdc] at hd
    exact h.joins d i hd

theorem closing_of_reachable {s : Pool n γ φ} (h : OkReachable s) (c : γ) : Closing c s := by
  obtain ⟨s₀, ls, rfl, -, hr⟩ := h
  exact (closing_of_run hr c).2

theorem tended_of_reachable {s : Pool n γ φ} (h : OkReachable s) : Tended s := by
  have hboth : OkReachable s ∧ Tended s := by
    refine machine.Machine.Reach.invariant (P := fun s : Pool n γ φ => OkReachable s ∧ Tended s)
      (fun s hs => ⟨.start hs, hs ▸ tended_new⟩) ?_ h
    rintro s l s' ⟨hreach, ht⟩ hok hs
    refine ⟨hreach.step hok hs, ?_⟩
    have hp := placed_of_reachable hreach
    cases l with
    | worker w o =>
      obtain ⟨x, hw, hpass⟩ := worker_ok_cases hs hok
      exact ht.worker_step hp hw hpass hs
    | client c o =>
      obtain ⟨y, hc, hpass⟩ := client_ok_cases hs hok
      exact ht.client_step hp (closing_of_reachable hreach c) hc hpass hs
    | call c call => exact ht.call_step hs
  exact hboth.2

/-! ## Who can go on -/

def PoolLabel.thread : PoolLabel n γ φ → Option (Thread n γ)
  | .worker w _ => some (.worker w)
  | .client c _ => some (.client c)
  | .call _ _ => none

/-- No thread wakes up without a signal in the step. -/
def PoolLabel.Calm : PoolLabel n γ φ → Prop
  | .worker _ o | .client _ o => o.spurious = false
  | .call _ _ => True

/-- The steps of a thread whose pthread calls succeed. Only a signal wakes it. -/
def PoolLabel.Of (t : Thread n γ) (l : PoolLabel n γ φ) : Prop :=
  l.thread = some t ∧ l.Ok ∧ l.Calm

/-- The thread can take a step. -/
def Ready (s : Pool n γ φ) (t : Thread n γ) : Prop :=
  pool_machine.Enabled (fun _ l => l.Of t) s

def worker_pc.locksQueue : worker_pc → Bool
  | .lock_queue | .cond_wait | .exit_lock => true
  | _ => false

def worker_pc.locksActive : worker_pc → Bool
  | .lock_inc | .lock_dec => true
  | _ => false

def client_pc.locksQueue : client_pc φ → Bool
  | .submit_lock .. | .wait_lock_queue | .stop_lock | .destroy_queue_mutex => true
  | _ => false

def client_pc.locksActive : client_pc φ → Bool
  | .wait_lock_active | .wait_blocked | .destroy_active_mutex => true
  | _ => false

def Asleep (s : Pool n γ φ) (w : Fin n) : Prop :=
  (s.workers w).pc = .cond_wait ∧ s.q_waiting w = true

omit [DecidableEq γ] in
/-- Some outcome of a signal that succeeds is always there. -/
theorem exists_signal (waiting : Fin n → Bool) :
    ∃ o : Outcome n, o.res = 0 ∧ o.spurious = false ∧ ∃ after, signal o waiting = some after := by
  by_cases hall : ∀ v, waiting v = false
  · exact ⟨{}, rfl, rfl, waiting, by simp [signal, hall]⟩
  · push Not at hall
    obtain ⟨v, hv⟩ := hall
    exact ⟨{ wake := some v }, rfl, rfl, Function.update waiting v false, by simp [signal, hv]⟩

theorem worker_ready {s : Pool n γ φ} {w : Fin n} (hexit : (s.workers w).pc ≠ .exited)
    (hsleep : ¬ Asleep s w)
    (hqueue : (s.workers w).pc.locksQueue = true → s.tpool_queue_mutex = .free)
    (hactive : (s.workers w).pc.locksActive = true → s.active_tasks_mutex = .free) :
    Ready s (.worker w) := by
  have hgo : ∃ o : Outcome n, o.res = 0 ∧ o.spurious = false ∧
      ∃ s', worker_step w o s = some s' := by
    obtain ⟨o, hres, hcalm, after, hsignal⟩ := exists_signal s.q_waiting
    refine ⟨o, hres, hcalm, ?_⟩
    unfold Asleep at hsleep
    unfold worker_step
    generalize s.workers w = x at *
    obtain ⟨pc, p_task, err⟩ := x
    cases pc with
    | lock_queue | exit_lock => simp [Mutex.lock, hres, hqueue rfl]
    | lock_inc | lock_dec => simp [Mutex.lock, hres, hactive rfl]
    | cond_wait =>
      have hawake : s.q_waiting w ≠ true := fun h => hsleep ⟨rfl, h⟩
      simp [Mutex.lock, hawake, hqueue rfl]
    | check_queue =>
      simp only [hres, if_true]
      split
      · exact ⟨_, rfl⟩
      · exact ⟨_, rfl⟩
    | pop =>
      simp only
      split
      · exact ⟨_, rfl⟩
      · exact ⟨_, rfl⟩
    | signal_more =>
      simp only
      split
      · exact ⟨_, rfl⟩
      · simp [hsignal]
    | exited => exact absurd rfl hexit
    | _ => exact ⟨_, rfl⟩
  obtain ⟨o, hres, hcalm, s', hs⟩ := hgo
  exact ⟨.worker w o, s', ⟨rfl, hres, hcalm⟩, hs⟩

theorem client_ready {s : Pool n γ φ} {c : γ} (hidle : (s.clients c).pc ≠ .idle)
    (hsleep : ¬ ((s.clients c).pc = .wait_blocked ∧ s.a_waiting c = true))
    (hjoin : ∀ i status (hi : i < n), (s.clients c).pc = .stop_join i status →
      (s.workers ⟨i, hi⟩).pc = .exited)
    (hqueue : (s.clients c).pc.locksQueue = true → s.tpool_queue_mutex = .free)
    (hactive : (s.clients c).pc.locksActive = true → s.active_tasks_mutex = .free) :
    Ready s (.client c) := by
  have hgo : ∃ o : Outcome n, o.res = 0 ∧ o.spurious = false ∧
      ∃ s', client_step c o s = some s' := by
    obtain ⟨o, hres, hcalm, after, hsignal⟩ := exists_signal s.q_waiting
    refine ⟨o, hres, hcalm, ?_⟩
    unfold client_step
    generalize (s.clients c).pc = pc at *
    cases pc with
    | idle => exact absurd rfl hidle
    | submit_lock | stop_lock | wait_lock_queue => simp [Mutex.lock, hres, hqueue rfl]
    | wait_lock_active => simp [Mutex.lock, hres, hactive rfl]
    | wait_blocked =>
      have hawake : s.a_waiting c ≠ true := fun h => hsleep ⟨rfl, h⟩
      simp [Mutex.lock, hawake, hactive rfl]
    | destroy_queue_mutex => simp [Mutex.destroy, hres, hqueue rfl]
    | destroy_active_mutex => simp [Mutex.destroy, hres, hactive rfl]
    | submit_signal => simp [hsignal]
    | submit_alloc | submit_push | wait_unlock_again | wait_unlock_active | stop_unlock
    | destroy_queue_cond | destroy_active_cond =>
      simp only
      split
      · exact ⟨_, rfl⟩
      · exact ⟨_, rfl⟩
    | wait_check_active =>
      simp only [hres, if_true]
      split
      · exact ⟨_, rfl⟩
      · exact ⟨_, rfl⟩
    | wait_unlock_queue b_isempty =>
      simp only [hres, if_true]
      split
      · exact ⟨_, rfl⟩
      · exact ⟨_, rfl⟩
    | stop_join i status =>
      simp only [hres, ne_eq, not_true_eq_false, if_false]
      split
      · rename_i hi
        simp [hjoin i status hi rfl]
      · split
        · exact ⟨_, rfl⟩
        · exact ⟨_, rfl⟩
    | _ => exact ⟨_, rfl⟩
  obtain ⟨o, hres, hcalm, s', hs⟩ := hgo
  exact ⟨.client c o, s', ⟨rfl, hres, hcalm⟩, hs⟩

/-- A thread under a mutex does not wait for anything. -/
theorem ready_inside {s : Pool n γ φ} {t : Thread n γ} (h : s.inQueue t ∨ s.inActive t) :
    Ready s t := by
  cases t with
  | worker w =>
    have hin : (s.workers w).pc.inQueue = true ∨ (s.workers w).pc.inActive = true := h
    apply worker_ready
    · intro hpc
      simp [hpc, worker_pc.inQueue, worker_pc.inActive] at hin
    · rintro ⟨hpc, -⟩
      simp [hpc, worker_pc.inQueue, worker_pc.inActive] at hin
    · intro hlock
      generalize (s.workers w).pc = pc at hin hlock
      cases pc <;> simp_all [worker_pc.inQueue, worker_pc.inActive, worker_pc.locksQueue]
    · intro hlock
      generalize (s.workers w).pc = pc at hin hlock
      cases pc <;> simp_all [worker_pc.inQueue, worker_pc.inActive, worker_pc.locksActive]
  | client c =>
    have hin : (s.clients c).pc.inQueue = true ∨ (s.clients c).pc.inActive = true := h
    apply client_ready
    · intro hpc
      simp [hpc, client_pc.inQueue, client_pc.inActive] at hin
    · rintro ⟨hpc, -⟩
      simp [hpc, client_pc.inQueue, client_pc.inActive] at hin
    · intro i status hi hpc
      simp [hpc, client_pc.inQueue, client_pc.inActive] at hin
    · intro hlock
      generalize (s.clients c).pc = pc at hin hlock
      cases pc <;> simp_all [client_pc.inQueue, client_pc.inActive, client_pc.locksQueue]
    · intro hlock
      generalize (s.clients c).pc = pc at hin hlock
      cases pc <;> simp_all [client_pc.inQueue, client_pc.inActive, client_pc.locksActive]

/-! ## A pool that stands still -/

/-- No thread can take a step, unless a client starts a call or a worker wakes up without a
signal. -/
def Still (s : Pool n γ φ) : Prop := ∀ t, ¬ Ready s t

/-- All calls have returned. The workers sleep, and each task was executed and freed once, or
they have exited after the shutdown, and the tasks that are left are in the queue. -/
structure AtRest [DecidableEq φ] (s : Pool n γ φ) : Prop where
  idle : ∀ c, (s.clients c).pc = .idle
  queue_free : s.tpool_queue_mutex = .free
  active_free : s.active_tasks_mutex = .free
  none_active : s.active_tasks = 0
  asleep : s.b_shutdown = false → ∀ w, Asleep s w
  exited : s.b_shutdown = true → AllExited s
  executed : ∀ t ∈ s.pushed, At s t .done ∨ (s.b_shutdown = true ∧ At s t .queued)

section Still

variable {s : Pool n γ φ}

theorem Still.mutexes (h : Still s) (hreach : OkReachable s) :
    (s.tpool_queue_mutex = .free ∨ s.tpool_queue_mutex = .destroyed) ∧
    (s.active_tasks_mutex = .free ∨ s.active_tasks_mutex = .destroyed) := by
  obtain ⟨hqueue, hactive⟩ := kept_of_reachable hreach
  constructor
  · cases hm : s.tpool_queue_mutex with
    | free => exact Or.inl rfl
    | destroyed => exact Or.inr rfl
    | held t => exact absurd (ready_inside (Or.inl (hqueue t hm))) (h t)
  · cases hm : s.active_tasks_mutex with
    | free => exact Or.inl rfl
    | destroyed => exact Or.inr rfl
    | held t => exact absurd (ready_inside (Or.inr (hactive t hm))) (h t)

/-- A worker that cannot go on has exited or sleeps, when it does not wait for a mutex. -/
theorem worker_rests {w : Fin n} (h : ¬ Ready s (.worker w))
    (hqueue : (s.workers w).pc.locksQueue = true → s.tpool_queue_mutex = .free)
    (hactive : (s.workers w).pc.locksActive = true → s.active_tasks_mutex = .free) :
    (s.workers w).pc = .exited ∨ Asleep s w := by
  by_contra hgo
  push Not at hgo
  exact h (worker_ready hgo.1 hgo.2 hqueue hactive)

omit [DecidableEq γ] in
theorem phase_of_rest {w : Fin n} (h : (s.workers w).pc = .exited ∨ Asleep s w) :
    (s.workers w).pc.phase = .idle ∨ (s.workers w).pc.phase = .leaving := by
  rcases h with hpc | ⟨hpc, -⟩
  · rw [hpc]
    exact Or.inr rfl
  · rw [hpc]
    exact Or.inl rfl

omit [DecidableEq γ] in
/-- With all workers at rest no task is active, and no client sleeps. -/
theorem Tended.none_active (h : Tended s)
    (hrest : ∀ w, (s.workers w).pc = .exited ∨ Asleep s w) :
    s.active_tasks = 0 ∧ ∀ c, s.a_waiting c = false := by
  have hzero : s.active_tasks = 0 := by
    rw [h.counted]
    refine total_zero fun w => ?_
    rcases phase_of_rest (hrest w) with hp | hp
    · exact counts_of_phase hp
    · exact counts_of_phase hp
  refine ⟨hzero, fun c => Bool.eq_false_iff.mpr fun hc => ?_⟩
  rcases h.waited c hc with hpos | ⟨w, hw⟩
  · omega
  · rcases hrest w with hpc | ⟨hpc, -⟩
    · rw [hw] at hpc
      cases hpc
    · rw [hw] at hpc
      cases hpc

omit [DecidableEq γ] in
/-- No task waits for workers that all rest, unless the flag is set. -/
theorem Wakeful.queue_nil (h : Wakeful s)
    (hrest : ∀ w, (s.workers w).pc = .exited ∨ Asleep s w)
    (hsignal : ∀ c, (s.clients c).pc ≠ .submit_signal) (hflag : s.b_shutdown = false) :
    (∀ w, Asleep s w) ∧ s.p_work_queue = [] := by
  have hasleep : ∀ w, Asleep s w := by
    intro w
    refine (hrest w).resolve_left fun hpc => ?_
    rw [h.flag w (by rw [hpc]; rfl)] at hflag
    cases hflag
  refine ⟨hasleep, ?_⟩
  by_contra hwork
  rcases h.queued hflag hwork with ⟨w, hw⟩ | ⟨c, hc⟩
  · rw [(hasleep w).2] at hw
    cases hw
  · exact hsignal c hc

omit [DecidableEq γ] in
/-- A worker that rests has no task. -/
theorem Placed.rests_without_task (h : Placed s) {w : Fin n}
    (hrest : (s.workers w).pc = .exited ∨ Asleep s w) : (s.workers w).p_task = none := by
  rcases phase_of_rest hrest with hp | hp
  · have hfit := h.fits w
    unfold TaskFits at hfit
    rwa [hp] at hfit
  · exact h.left w hp

omit [DecidableEq γ] in
/-- Where the workers rest, each task is done or still in the queue. -/
theorem Placed.done_or_queued [DecidableEq φ] (h : Placed s)
    (hlive : s.tpool_queue_mutex ≠ .destroyed)
    (hrest : ∀ w, (s.workers w).pc = .exited ∨ Asleep s w) {t : coin_task_t φ}
    (ht : t ∈ s.pushed) : At s t .done ∨ At s t .queued := by
  obtain ⟨p, hp, -⟩ := h.one_place ht
  cases p with
  | queued => exact Or.inr hp
  | done => exact Or.inl hp
  | held w =>
    have hheld := hp.1
    rw [h.rests_without_task (hrest w)] at hheld
    cases hheld
  | dropped =>
    have hdrop : s.dropped ≠ [] := by
      intro hnil
      have hcount := hp.1
      rw [hnil] at hcount
      cases hcount
    exact absurd (h.emptied hdrop).2 hlive

end Still

theorem told_of_reachable {s : Pool n γ φ} (h : OkReachable s) : Told s :=
  machine.Machine.Reach.invariant (P := Told) (fun _ hs => hs ▸ told_new)
    (fun _ _ _ ht _ hs => ht.step hs) h

/-- A thread whose calls have returned, or that sleeps or has exited, takes no step. -/
theorem AtRest.still [DecidableEq φ] {s : Pool n γ φ} (h : AtRest s) : Still s := by
  rintro t ⟨l, s', ⟨hthread, -, hcalm⟩, hs⟩
  cases l with
  | worker w o =>
    have hs : worker_step w o s = some s' := hs
    have hrest : (s.workers w).pc = .exited ∨ Asleep s w := by
      cases hflag : s.b_shutdown with
      | true => exact Or.inl (h.exited hflag w)
      | false => exact Or.inr (h.asleep hflag w)
    have hcalm : o.spurious = false := hcalm
    unfold worker_step at hs
    rcases hrest with hpc | ⟨hpc, hwaiting⟩
    · simp [hpc] at hs
    · simp [hpc, hwaiting, hcalm] at hs
  | client c o => exact client_open hs (h.idle c)
  | call c call => cases hthread

theorem at_rest_of_still [DecidableEq φ] (hn : 0 < n) {s : Pool n γ φ} (h : OkReachable s)
    (hlive : s.tpool_queue_mutex ≠ .destroyed) (hstill : Still s) : AtRest s := by
  have htended := tended_of_reachable h
  have hwake := wakeful_of_reachable hn h
  obtain ⟨hqueue, hactive⟩ := hstill.mutexes h
  have hqueue := hqueue.resolve_right hlive
  have hactive := hactive.resolve_right fun hgone => hlive (htended.gone_active hgone)
  have hrest : ∀ w, (s.workers w).pc = .exited ∨ Asleep s w := fun w =>
    worker_rests (hstill (.worker w)) (fun _ => hqueue) fun _ => hactive
  obtain ⟨hzero, hnone⟩ := htended.none_active hrest
  have hout : ∀ c, (s.clients c).pc.inQueue ≠ true := fun c hin =>
    hstill (.client c) (ready_inside (Or.inl hin))
  have hexited : s.b_shutdown = true → AllExited s := by
    intro hflag w
    refine (hrest w).resolve_right fun hsleep => ?_
    rcases hwake.told hflag with hall | ⟨c, hc⟩
    · have hwaiting := hsleep.2
      rw [hall w] at hwaiting
      cases hwaiting
    · exact hout c (by rw [hc]; rfl)
  have hquiet : s.b_shutdown = false → (∀ w, Asleep s w) ∧ s.p_work_queue = [] :=
    hwake.queue_nil hrest fun c hc => hout c (by rw [hc]; rfl)
  refine ⟨fun c => ?_, hqueue, hactive, hzero, fun hflag => (hquiet hflag).1, hexited,
    fun t ht => ?_⟩
  · by_contra hidle
    refine hstill (.client c) (client_ready hidle ?_ ?_ (fun _ => hqueue) fun _ => hactive)
    · rintro ⟨-, hsleep⟩
      rw [hnone c] at hsleep
      cases hsleep
    · -- a worker that is joined was told to stop
      intro i status hi hpc
      exact hexited ((told_of_reachable h).flag c (by rw [hpc]; rfl)) ⟨i, hi⟩
  · refine ((placed_of_reachable h).done_or_queued hlive hrest ht).imp_right fun hqueued => ?_
    cases hflag : s.b_shutdown with
    | true => exact ⟨rfl, hqueued⟩
    | false =>
      have hcount := hqueued.1
      rw [(hquiet hflag).2] at hcount
      cases hcount

/-- While the pthread calls succeed: no thread of a pool that is not destroyed can go on, but for a
worker that wakes up without a signal, exactly when all calls have returned, no mutex is held, and
the workers sleep and every task was executed and freed once, or all workers have exited after the
shutdown and the other tasks are in the queue. -/
theorem a_pool_stands_still_iff_it_is_at_rest [DecidableEq φ] (hn : 0 < n) {s : Pool n γ φ}
    (h : OkReachable s) (hlive : s.tpool_queue_mutex ≠ .destroyed) : Still s ↔ AtRest s :=
  ⟨at_rest_of_still hn h hlive, AtRest.still⟩

/-- The worker has executed the task and sleeps again. -/
theorem a_worker_that_sleeps_again_is_at_rest :
    ∃ s : Pool 1 Unit Unit, OkReachable s ∧ s.pushed = [⟨0, (), false⟩] ∧
      (s.workers 0).pc = .cond_wait ∧ (Still s ↔ AtRest s) ∧ Still s := by
  let s : Pool 1 Unit Unit :=
    (pool_machine.run new_pool (submit_labels ++ work_labels 18)).get rfl
  have hreach : OkReachable s :=
    okReachable_of_run (submit_labels ++ work_labels 18) (by decide) (Option.some_get _).symm
  have hiff := a_pool_stands_still_iff_it_is_at_rest Nat.one_pos hreach nofun
  have hrest : AtRest s := by
    refine ⟨fun _ => rfl, rfl, rfl, rfl, fun _ w => ?_, nofun, fun t ht => .inl ?_⟩
    · rw [Subsingleton.elim w 0]
      exact ⟨rfl, rfl⟩
    · rw [List.mem_singleton.mp ht]
      exact ⟨rfl, rfl, rfl⟩
  exact ⟨s, hreach, rfl, rfl, hiff, hiff.mpr hrest⟩

end pingpong.concurinc
