-- The pool under a fair scheduler: when no new calls come, every call returns, also
-- `coin_tpool_wait` with its loops, and every task is executed.
import PingPong.PoolDrain

namespace pingpong.concurinc

open mutex tally machine Filter

variable {n : Nat} {γ φ : Type} [DecidableEq γ]

/-! ## The steps of a waiting client -/

/-- The steps of a client to the unlock of the mutex that it holds. -/
def client_pc.toUnlock : client_pc φ → Nat
  | .submit_push .. | .stop_flag | .wait_check_active => 3
  | .submit_signal | .stop_broadcast | .wait_check_size | .wait_read_size => 2
  | .submit_unlock | .submit_push_failed | .submit_signal_failed | .stop_broadcast_failed
  | .stop_unlock | .wait_unlock_again | .wait_unlock_active | .wait_cond_failed
  | .wait_unlock_queue _ => 1
  | _ => 0

/-- The steps of `coin_tpool_wait` to its return, when no task is active and none is in the
queue. -/
def client_pc.toReturn : client_pc φ → Nat
  | .wait_unlock_again | .wait_unlock_queue false => 8
  | .wait_lock_active | .wait_blocked => 7
  | .wait_check_active => 6
  | .wait_check_size => 5
  | .wait_unlock_active => 4
  | .wait_lock_queue => 3
  | .wait_read_size => 2
  | .wait_unlock_queue true => 1
  | _ => 0

theorem toUnlock_of_step {c : γ} {o : Outcome n} {s s' : Pool n γ φ}
    (hs : client_step c o s = some s') (hr : o.res = 0)
    (h : ((s.clients c).pc.inQueue = true ∧ (s'.clients c).pc.inQueue = true) ∨
      ((s.clients c).pc.inActive = true ∧ (s'.clients c).pc.inActive = true)) :
    (s'.clients c).pc.toUnlock < (s.clients c).pc.toUnlock := by
  unfold client_step at hs
  generalize (s.clients c).pc = pc at hs h ⊢
  simp only [hr, if_true] at hs
  cases pc
  all_goals simp only [client_pc.inQueue, client_pc.inActive, Bool.false_eq_true, false_and,
    or_self, true_and, or_false, false_or] at h
  case submit_push work free_arg =>
    simp only at hs
    split at hs <;> cases hs
    · simp [client_pc.toUnlock]
    · simp [client_pc.toUnlock]
  case submit_signal =>
    obtain ⟨m, -, rfl⟩ := Option.map_eq_some_iff.mp hs
    simp [client_pc.toUnlock]
  case wait_check_active =>
    simp only at hs
    split at hs <;> cases hs
    · simp at h
    · simp [client_pc.toUnlock]
  case wait_check_size =>
    cases hs
    split <;> simp [client_pc.toUnlock]
  case wait_unlock_queue b_isempty =>
    simp only at hs
    split at hs <;> cases hs
    · simp at h
    · simp at h
  case wait_read_size | stop_flag | stop_broadcast =>
    cases hs
    simp [client_pc.toUnlock]
  all_goals
    cases hs
    simp at h

/-- With nothing left to do, every step of a waiting client brings it nearer to its return. -/
theorem toReturn_of_step {c : γ} {o : Outcome n} {s s' : Pool n γ φ}
    (hs : client_step c o s = some s') (hr : o.res = 0)
    (hwait : (s.clients c).pc.inWait = true) (hactive : s.active_tasks = 0)
    (hqueue : s.p_work_queue = []) :
    (s'.clients c).pc.toReturn < (s.clients c).pc.toReturn := by
  unfold client_step at hs
  generalize (s.clients c).pc = pc at hs hwait ⊢
  simp only [hr, if_true, hactive, hqueue, Nat.lt_irrefl, if_false, List.length_nil] at hs
  cases pc
  all_goals simp only at hs
  case wait_lock_active | wait_lock_queue =>
    obtain ⟨m, -, rfl⟩ := Option.map_eq_some_iff.mp hs
    simp [client_pc.toReturn]
  case wait_blocked =>
    split at hs
    · cases hs
    · obtain ⟨m, -, rfl⟩ := Option.map_eq_some_iff.mp hs
      simp [client_pc.toReturn]
  case wait_unlock_queue b_isempty =>
    cases b_isempty <;> cases hs <;> simp [client_pc.toReturn]
  case wait_check_active | wait_check_size | wait_unlock_again | wait_unlock_active
      | wait_read_size =>
    cases hs
    simp [client_pc.toReturn]
  all_goals cases hwait

/-- The step of a waiting client leaves all but its own place and the mutexes as they are. -/
theorem frozen_of_wait_step [Fintype γ] {c : γ} {o : Outcome n} {s s' : Pool n γ φ}
    (hs : client_step c o s = some s') (hr : o.res = 0)
    (hwait : (s.clients c).pc.inWait = true) :
    s'.workers = s.workers ∧ s'.q_waiting = s.q_waiting ∧ s'.tasks = s.tasks ∧
      s'.left = s.left := by
  obtain ⟨y, hc, hpass⟩ := client_ok_cases hs hr
  obtain ⟨hwaiting, hto⟩ := hpass.goes_on hwait
  have htasks : s'.tasks = s.tasks := by
    have hmove := hc.tasks
    generalize s'.tasks = d' at hmove
    cases hmove with
    | quiet => rfl
    | push work free_arg hpc =>
      rw [hpc] at hwait
      cases hwait
    | drop hpc =>
      rw [hpc] at hwait
      cases hwait
  refine ⟨hc.workers, hwaiting, htasks, ?_⟩
  have hnone : ∀ {pc : client_pc φ}, pc.inWait = true → pc.left n = 0 := by
    intro pc hpc
    cases pc
    all_goals first
      | rfl
      | cases hpc
  have hnone' : y.pc.left n = 0 := by
    rcases hto with hin | ⟨hidle, -⟩
    · exact hnone hin
    · rw [hidle]
      rfl
  have hqueue : s'.p_work_queue = s.p_work_queue := congrArg Tasks.queue htasks
  obtain ⟨rest, hold, hnew⟩ := total_split (fun y : Client φ => y.pc.left n) s.clients c
  unfold Pool.left
  rw [hc.workers, hc.clients, hold, hnew, hwaiting, hqueue, hnone', hnone hwait]

/-! ## Fair executions -/

/-- An execution without new calls, whose pthread calls succeed, from a pool that is not told to
stop. In the end no worker wakes up without a signal, and each thread that can take a step again
and again takes steps again and again. -/
structure FairRun (e : Execution (pool_machine (n := n) (γ := γ) (φ := φ))) : Prop where
  reachable : OkReachable (e.state 0)
  running : (e.state 0).b_shutdown = false
  kept : ∀ c, ((e.state 0).clients c).pc.inDestroy = false
  steps : ∀ i l, e.label i = some l → l.Ok ∧ ∃ t, l.thread = some t
  calm : ∀ᶠ i in atTop, ∀ w o, e.label i = some (.worker w o) → o.spurious = false
  fair : ∀ t, e.Fair fun _ l => l.Of t

/-- What holds all along. -/
structure Running (s : Pool n γ φ) : Prop where
  reachable : OkReachable s
  flag : s.b_shutdown = false
  kept : ∀ c, (s.clients c).pc.inDestroy = false

theorem Running.step (hn : 0 < n) {s s' : Pool n γ φ} {l : PoolLabel n γ φ} (h : Running s)
    (hok : l.Ok) (hthread : ∃ t, l.thread = some t) (hs : pool_step s l = some s') :
    Running s' := by
  refine ⟨h.reachable.step hok hs, ?_, ?_⟩
  · cases l with
    | worker w o =>
      obtain ⟨x, -, hpass⟩ := worker_ok_cases hs hok
      rcases hpass.flag with hsame | hpc | hstop
      · exact hsame.trans h.flag
      · exact absurd hpc ((tended_of_reachable h.reachable).popped w)
      · have hset := (wakeful_of_reachable hn h.reachable).flag w hstop
        rw [h.flag] at hset
        cases hset
    | client c o =>
      obtain ⟨y, hc⟩ := client_step_cases hs
      rcases hc.shutdown with hsame | ⟨-, -, hpc⟩
      · exact hsame.trans h.flag
      · rcases hc.destroys (by rw [hpc]; rfl) with hin | hidle
        · rw [h.kept c] at hin
          cases hin
        · exact absurd hidle (client_open hs)
    | call c call =>
      obtain ⟨t, ht⟩ := hthread
      cases ht
  · intro d
    cases l with
    | worker w o =>
      obtain ⟨x, hw⟩ := worker_step_cases hs
      rw [hw.clients]
      exact h.kept d
    | client c o =>
      obtain ⟨y, hc⟩ := client_step_cases hs
      by_cases hdc : d = c
      · subst hdc
        rw [hc.self]
        refine Bool.eq_false_iff.mpr fun hin => ?_
        rcases hc.destroys hin with hwas | hidle
        · rw [h.kept d] at hwas
          cases hwas
        · exact client_open hs hidle
      · rw [hc.other hdc]
        exact h.kept d
    | call c call =>
      obtain ⟨t, ht⟩ := hthread
      cases ht

/-- A client that is in no call submits a task or waits. -/
theorem Running.goto {s : Pool n γ φ} {c : γ} {call : Call φ} (h : Running s)
    (hidle : (s.clients c).pc = .idle) (hnot : call ≠ .destroy) :
    Running (s.goto c call.start) := by
  have hs : pool_step s (.call c call) = some (s.goto c call.start) := by
    unfold pool_step
    simp only [hidle]
  refine ⟨h.reachable.step (l := .call c call) trivial hs, h.flag, fun d => ?_⟩
  by_cases hd : d = c
  · rw [hd, Pool.goto_self]
    cases call with
    | submit | wait => rfl
    | destroy => exact absurd rfl hnot
  · rw [Pool.goto_other s hd]
    exact h.kept d

/-- The mutexes of a pool that is not told to stop are not destroyed. -/
theorem Running.live (hn : 0 < n) {s : Pool n γ φ} (h : Running s) :
    s.tpool_queue_mutex ≠ .destroyed ∧ s.active_tasks_mutex ≠ .destroyed := by
  have ht := tended_of_reachable h.reachable
  have hqueue : s.tpool_queue_mutex ≠ .destroyed := by
    intro hgone
    have hset := (wakeful_of_reachable hn h.reachable).flag ⟨0, hn⟩ (by rw [ht.gone hgone]; rfl)
    rw [h.flag] at hset
    cases hset
  exact ⟨hqueue, fun hgone => hqueue (ht.gone_active hgone)⟩

section FairRun

variable {e : Execution (pool_machine (n := n) (γ := γ) (φ := φ))}

theorem FairRun.runs (hn : 0 < n) (h : FairRun e) (i : Nat) : Running (e.state i) :=
  Execution.invariant (P := Running) ⟨h.reachable, h.running, h.kept⟩
    (fun i l hl hrun => hrun.step hn (h.steps i l hl).1 (h.steps i l hl).2 (e.steps i l hl)) i

/-- A step of a worker, or of a client that is not in `coin_tpool_wait`. -/
def Busy (s : Pool n γ φ) : PoolLabel n γ φ → Prop
  | .worker _ _ => True
  | .client c _ => (s.clients c).pc.inWait = false
  | .call _ _ => False

/-- In the end only waiting clients take steps. -/
theorem FairRun.only_waits [Fintype γ] (hn : 0 < n) (h : FairRun e) :
    ∀ᶠ i in atTop, ¬ e.Takes Busy i := by
  refine Execution.never_taken_of_rank Pool.left ?_
  filter_upwards [h.calm] with i hcalm l hl
  have hs := e.steps i l hl
  have hok := (h.steps i l hl).1
  have hreach := (h.runs hn i).reachable
  cases l with
  | worker w o =>
    have hless := left_of_worker_step (tended_of_reachable hreach)
      (wakeful_of_reachable hn hreach).flag hok (hcalm w o hl) hs
    exact ⟨hless.le, fun _ => hless⟩
  | client c o =>
    cases hwait : ((e.state i).clients c).pc.inWait with
    | true =>
      refine ⟨(frozen_of_wait_step hs hok hwait).2.2.2.le, fun hbusy => ?_⟩
      rw [Busy, hwait] at hbusy
      cases hbusy
    | false =>
      have hless := left_of_client_step hok hwait hs
      exact ⟨hless.le, fun _ => hless⟩
  | call c call =>
    obtain ⟨t, ht⟩ := (h.steps i _ hl).2
    cases ht

/-- In the end no worker can take a step. -/
theorem FairRun.no_worker_ready [Fintype γ] (hn : 0 < n) (h : FairRun e) :
    ∀ᶠ i in atTop, ∀ w, ¬ Ready (e.state i) (.worker w) := by
  refine eventually_all.mpr fun w => (h.fair (.worker w)).never_enabled ?_
  filter_upwards [h.only_waits hn] with i hnot
  rintro ⟨l, hl, hthread, -⟩
  refine hnot ⟨l, hl, ?_⟩
  cases l with
  | worker v o => trivial
  | client c o => cases hthread
  | call c call => cases hthread

/-! ## The mutexes -/

inductive pool_mutex
  | tpool_queue_mutex
  | active_tasks_mutex
  deriving DecidableEq, Repr

def Pool.mutex (s : Pool n γ φ) : pool_mutex → Mutex (Thread n γ)
  | .tpool_queue_mutex => s.tpool_queue_mutex
  | .active_tasks_mutex => s.active_tasks_mutex

/-- The threads under the mutex. -/
def Pool.under (s : Pool n γ φ) : pool_mutex → Thread n γ → Prop
  | .tpool_queue_mutex => s.inQueue
  | .active_tasks_mutex => s.inActive

omit [DecidableEq γ] in
theorem inside_of_under {s : Pool n γ φ} {m : pool_mutex} {t : Thread n γ} (h : s.under m t) :
    s.inQueue t ∨ s.inActive t := by
  cases m with
  | tpool_queue_mutex => exact Or.inl h
  | active_tasks_mutex => exact Or.inr h

theorem Running.holder_under {s : Pool n γ φ} (h : Running s) {m : pool_mutex}
    {t : Thread n γ} (hm : s.mutex m = .held t) : s.under m t := by
  obtain ⟨hqueue, hactive⟩ := kept_of_reachable h.reachable
  cases m with
  | tpool_queue_mutex => exact hqueue t hm
  | active_tasks_mutex => exact hactive t hm

theorem held_or_free_of_step {s s' : Pool n γ φ} {l : PoolLabel n γ φ} {m : pool_mutex}
    {t : Thread n γ} (hs : pool_step s l = some s') (hm : s.mutex m = .held t) :
    s'.mutex m = .held t ∨ s'.mutex m = .free := by
  obtain ⟨u, res, -, hqueue, hactive⟩ := pool_step_turns hs
  cases m with
  | tpool_queue_mutex =>
    have hmove := hqueue.move
    rw [show s.tpool_queue_mutex = .held t from hm] at hmove
    exact hmove.held_or_free
  | active_tasks_mutex =>
    have hmove := hactive.move
    rw [show s.active_tasks_mutex = .held t from hm] at hmove
    exact hmove.held_or_free

/-- Each mutex is free again and again: its holder can always go on, and comes to its unlock. -/
theorem FairRun.free_again [Fintype γ] (hn : 0 < n) (h : FairRun e) (m : pool_mutex) :
    ∃ᶠ i in atTop, (e.state i).mutex m = .free := by
  by_contra hnever
  obtain ⟨k, hk⟩ := eventually_atTop.mp ((not_frequently.mp hnever).and (h.no_worker_ready hn))
  -- the holder of the mutex never changes
  obtain ⟨t, ht⟩ : ∃ t, (e.state k).mutex m = .held t := by
    have hlive := (h.runs hn k).live hn
    have hbusy := (hk k le_rfl).1
    cases hm : (e.state k).mutex m with
    | free => exact absurd hm hbusy
    | held t => exact ⟨t, rfl⟩
    | destroyed =>
      cases m with
      | tpool_queue_mutex => exact absurd hm hlive.1
      | active_tasks_mutex => exact absurd hm hlive.2
  have hheld : ∀ i, k ≤ i → (e.state i).mutex m = .held t := by
    intro i hi
    refine Execution.invariant_from (P := fun s : Pool n γ φ => s.mutex m = .held t) ht ?_
      hi
    intro i l hi hl hm
    exact (held_or_free_of_step (e.steps i l hl) hm).resolve_right (hk (i + 1) (by omega)).1
  have hunder : ∀ i, k ≤ i → (e.state i).under m t := fun i hi =>
    (h.runs hn i).holder_under (hheld i hi)
  have hready : ∀ i, k ≤ i → Ready (e.state i) t := fun i hi =>
    ready_inside (inside_of_under (hunder i hi))
  cases t with
  | worker w => exact (hk k le_rfl).2 w (hready k le_rfl)
  | client c =>
    refine h.fair (.client c) (eventually_atTop.mpr ⟨k, hready⟩).frequently ?_
    refine Execution.never_taken_of_rank (fun s => (s.clients c).pc.toUnlock) ?_
    filter_upwards [eventually_ge_atTop k] with i hi l hl
    have hs := e.steps i l hl
    by_cases hby : l.by c
    · obtain ⟨o, rfl⟩ := hby.label
      have hless := toUnlock_of_step hs (h.steps i _ hl).1 (by
        have hnow := hunder i hi
        have hnext := hunder (i + 1) (by omega)
        cases m with
        | tpool_queue_mutex => exact Or.inl ⟨hnow, hnext⟩
        | active_tasks_mutex => exact Or.inr ⟨hnow, hnext⟩)
      exact ⟨hless.le, fun _ => hless⟩
    · have hsame := clients_of_other hs hby (by
        rintro call rfl
        obtain ⟨t, ht⟩ := (h.steps i _ hl).2
        cases ht)
      refine ⟨by rw [hsame], fun hof => absurd ?_ hby⟩
      have hthread := hof.1
      cases l with
      | worker w o => cases hthread
      | client d o =>
        cases hthread
        rfl
      | call d call => cases hthread

/-! ## The end of the execution -/

omit [DecidableEq γ] in
/-- Only a wait and a destruction acquire `active_tasks_mutex`. -/
theorem not_locksActive {pc : client_pc φ} (hwait : pc.inWait = false)
    (hdestroy : pc.inDestroy = false) : pc.locksActive = false := by
  cases pc with
  | wait_lock_active | wait_blocked => cases hwait
  | destroy_active_mutex => cases hdestroy
  | _ => rfl

/-- A step that is not busy is one of a waiting client. -/
theorem FairRun.wait_step (h : FairRun e) {i : Nat} {l : PoolLabel n γ φ}
    (hl : e.label i = some l) (hnot : ¬ e.Takes Busy i) :
    ∃ c o, l = .client c o ∧ o.res = 0 ∧ ((e.state i).clients c).pc.inWait = true := by
  obtain ⟨hok, t, ht⟩ := h.steps i l hl
  cases l with
  | worker w o => exact absurd ⟨_, hl, trivial⟩ hnot
  | client c o =>
    refine ⟨c, o, rfl, hok, ?_⟩
    by_contra hout
    exact hnot ⟨_, hl, Bool.eq_false_iff.mpr hout⟩
  | call c call => cases ht

/-- In the end the workers and the tasks stay as they are. -/
theorem FairRun.frozen [Fintype γ] (hn : 0 < n) (h : FairRun e) :
    ∀ᶠ k in atTop, ∀ i, k ≤ i → (e.state i).workers = (e.state k).workers ∧
      (e.state i).q_waiting = (e.state k).q_waiting ∧ (e.state i).tasks = (e.state k).tasks := by
  obtain ⟨k₀, hk₀⟩ := eventually_atTop.mp (h.only_waits hn)
  refine eventually_atTop.mpr ⟨k₀, fun k hk i hi => ?_⟩
  refine Execution.invariant_from (P := fun s : Pool n γ φ => s.workers = (e.state k).workers ∧
    s.q_waiting = (e.state k).q_waiting ∧ s.tasks = (e.state k).tasks) ⟨rfl, rfl, rfl⟩ ?_ hi
  rintro i l hi hl ⟨hworkers, hwaiting, htasks⟩
  obtain ⟨c, o, rfl, hr, hwait⟩ := h.wait_step hl (hk₀ i (hk.trans hi))
  obtain ⟨hw, hq, ht, -⟩ := frozen_of_wait_step (e.steps i _ hl) hr hwait
  exact ⟨hw.trans hworkers, hq.trans hwaiting, ht.trans htasks⟩

/-- In the end all workers have exited or sleep. -/
theorem FairRun.workers_rest [Fintype γ] (hn : 0 < n) (h : FairRun e) :
    ∀ᶠ i in atTop, ∀ w, ((e.state i).workers w).pc = .exited ∨ Asleep (e.state i) w := by
  obtain ⟨k, hk⟩ := eventually_atTop.mp ((h.frozen hn).and (h.no_worker_ready hn))
  refine eventually_atTop.mpr ⟨k, fun i hi w => ?_⟩
  have hsame := (hk i hi).1
  -- the worker waits for one of the mutexes at most, which is free at some `j`
  have hfree : ∃ j, i ≤ j ∧
      (((e.state i).workers w).pc.locksQueue = true → (e.state j).tpool_queue_mutex = .free) ∧
      (((e.state i).workers w).pc.locksActive = true → (e.state j).active_tasks_mutex = .free) := by
    by_cases hlock : ((e.state i).workers w).pc.locksQueue = true
    · obtain ⟨j, hj, hfree⟩ := frequently_atTop.mp (h.free_again hn .tpool_queue_mutex) i
      refine ⟨j, hj, fun _ => hfree, fun hother => ?_⟩
      generalize ((e.state i).workers w).pc = pc at hlock hother
      cases pc <;> cases hlock <;> cases hother
    · obtain ⟨j, hj, hfree⟩ := frequently_atTop.mp (h.free_again hn .active_tasks_mutex) i
      exact ⟨j, hj, fun hqueue => absurd hqueue hlock, fun _ => hfree⟩
  obtain ⟨j, hj, hqueue, hactive⟩ := hfree
  obtain ⟨hworkers, hwaiting, -⟩ := hsame j hj
  rw [← hworkers] at hqueue hactive
  have hrest := worker_rests ((hk j (hi.trans hj)).2 w) hqueue hactive
  unfold Asleep at hrest ⊢
  rwa [hwaiting, hworkers] at hrest

/-- A client that waits goes on to wait, or its call has returned. -/
theorem FairRun.wait_kept (h : FairRun e) {i : Nat} {l : PoolLabel n γ φ} {c : γ}
    (hl : e.label i = some l)
    (hc : ((e.state i).clients c).pc.inWait = true ∨ ((e.state i).clients c).pc = .idle) :
    (((e.state i).clients c).pc.inWait = true ∧
      (((e.state (i + 1)).clients c).pc.inWait = true ∨
        (((e.state (i + 1)).clients c).pc = .idle ∧
          ((e.state (i + 1)).clients c).status = .COIN_SUCCESS))) ∨
    (e.state (i + 1)).clients c = (e.state i).clients c := by
  have hs := e.steps i l hl
  obtain ⟨hok, t, ht⟩ := h.steps i l hl
  by_cases hby : l.by c
  · obtain ⟨o, rfl⟩ := hby.label
    obtain ⟨y, hstep, hpass⟩ := client_ok_cases hs hok
    have hwait := hc.resolve_right (client_open hs)
    rw [hstep.self]
    exact Or.inl ⟨hwait, (hpass.goes_on hwait).2⟩
  · refine Or.inr (clients_of_other hs hby ?_)
    rintro call rfl
    cases ht

/-- In the end every client is in `coin_tpool_wait` or in no call. -/
theorem FairRun.clients_wait [Fintype γ] (hn : 0 < n) (h : FairRun e) (c : γ) :
    ∀ᶠ i in atTop, ((e.state i).clients c).pc.inWait = true ∨
      ((e.state i).clients c).pc = .idle := by
  obtain ⟨k, hk⟩ := eventually_atTop.mp (h.only_waits hn)
  by_cases hex : ∃ i, k ≤ i ∧ (((e.state i).clients c).pc.inWait = true ∨
      ((e.state i).clients c).pc = .idle)
  · obtain ⟨i, -, hi⟩ := hex
    refine eventually_atTop.mpr ⟨i, fun j hj => ?_⟩
    refine Execution.invariant_from (P := fun s : Pool n γ φ =>
      (s.clients c).pc.inWait = true ∨ (s.clients c).pc = .idle) hi ?_ hj
    intro j l hj hl hP
    rcases h.wait_kept hl hP with ⟨-, hnext⟩ | hsame
    · exact hnext.imp_right And.left
    · rw [hsame]
      exact hP
  · -- a client in another call would take no step, and could take one
    push Not at hex
    have hnever : ∀ᶠ i in atTop, ¬ e.Takes (fun _ l => l.Of (.client c)) i := by
      refine eventually_atTop.mpr ⟨k, fun i hi => ?_⟩
      rintro ⟨l, hl, hthread, -⟩
      obtain ⟨d, o, rfl, -, hwait⟩ := h.wait_step hl (hk i hi)
      cases hthread
      exact (hex i hi).1 hwait
    obtain ⟨k', hk'⟩ := eventually_atTop.mp ((h.fair (.client c)).never_enabled hnever)
    obtain ⟨j, hj, hfree⟩ := frequently_atTop.mp (h.free_again hn .tpool_queue_mutex) (max k k')
    obtain ⟨hwait, hidle⟩ := hex j (by omega)
    have hkept := (h.runs hn j).kept c
    refine absurd (client_ready hidle ?_ ?_ (fun _ => hfree) ?_) (hk' j (by omega))
    · rintro ⟨hpc, -⟩
      rw [hpc] at hwait
      exact hwait rfl
    · intro i status hi hpc
      rw [hpc] at hkept
      cases hkept
    · intro hlock
      rw [not_locksActive (Bool.eq_false_iff.mpr hwait) hkept] at hlock
      cases hlock

/-- In the end no task is active and none is in the queue. -/
theorem FairRun.nothing_to_do [Fintype γ] (hn : 0 < n) (h : FairRun e) :
    ∀ᶠ i in atTop, (e.state i).active_tasks = 0 ∧ (e.state i).p_work_queue = [] := by
  filter_upwards [h.workers_rest hn, eventually_all.mpr (h.clients_wait hn)] with i hrest hclients
  have hrun := h.runs hn i
  refine ⟨((tended_of_reachable hrun.reachable).none_active hrest).1, ?_⟩
  refine ((wakeful_of_reachable hn hrun.reachable).queue_nil hrest (fun c hpc => ?_) hrun.flag).2
  have hc := hclients c
  rw [hpc] at hc
  rcases hc with hc | hc <;> cases hc

/-- In the end no step is taken. -/
theorem FairRun.no_steps [Fintype γ] (hn : 0 < n) (h : FairRun e) :
    ∀ᶠ i in atTop, ¬ e.Takes (fun _ _ => True) i := by
  refine Execution.never_taken_of_rank
    (fun s : Pool n γ φ => total (fun y => y.pc.toReturn) s.clients) ?_
  filter_upwards [h.only_waits hn, h.nothing_to_do hn] with i hnot hnothing l hl
  obtain ⟨c, o, rfl, hr, hwait⟩ := h.wait_step hl hnot
  have hs := e.steps i _ hl
  obtain ⟨y, hc⟩ := client_step_cases hs
  have hnearer := toReturn_of_step hs hr hwait hnothing.1 hnothing.2
  obtain ⟨rest, hold, hnew⟩ :=
    total_split (fun y : Client φ => y.pc.toReturn) (e.state i).clients c
  rw [hc.self] at hnearer
  rw [hc.clients, hold, hnew]
  exact ⟨by omega, fun _ => by omega⟩

theorem FairRun.comes_to_rest [Fintype γ] [DecidableEq φ] (hn : 0 < n) (h : FairRun e) :
    ∀ᶠ i in atTop, AtRest (e.state i) := by
  have hstill : ∀ t : Thread n γ, ∀ᶠ i in atTop, ¬ Ready (e.state i) t := by
    intro t
    refine (h.fair t).never_enabled ((h.no_steps hn).mono fun i hnot => ?_)
    rintro ⟨l, hl, -⟩
    exact hnot ⟨l, hl, trivial⟩
  filter_upwards [eventually_all.mpr fun w => hstill (.worker w),
    eventually_all.mpr fun c => hstill (.client c)] with i hworkers hclients
  have hrun := h.runs hn i
  refine at_rest_of_still hn hrun.reachable (hrun.live hn).1 fun t => ?_
  cases t with
  | worker w => exact hworkers w
  | client c => exact hclients c

end FairRun

/-- In every fair execution of a pool that is not told to stop, in which no new calls come and the
pthread calls succeed, all calls return in the end, and every task that was accepted was executed
and freed once, for the pool is never told to stop. A call of `coin_tpool_wait` returns
`COIN_SUCCESS`. -/
theorem every_call_returns_under_a_fair_scheduler [Fintype γ] [DecidableEq φ] (hn : 0 < n)
    {e : Execution (pool_machine (n := n) (γ := γ) (φ := φ))} (h : FairRun e) :
    (∀ᶠ i in atTop, AtRest (e.state i)) ∧ (∀ i, (e.state i).b_shutdown = false) ∧
    ∀ c i, ((e.state i).clients c).pc.inWait = true →
      ∀ᶠ j in atTop, (e.state j).clients c = ⟨.idle, .COIN_SUCCESS⟩ := by
  refine ⟨h.comes_to_rest hn, fun i => (h.runs hn i).flag, fun c i hwait => ?_⟩
  have hkept : ∀ j, i ≤ j → ((e.state j).clients c).pc.inWait = true ∨
      (((e.state j).clients c).pc = .idle ∧ ((e.state j).clients c).status = .COIN_SUCCESS) := by
    intro j hj
    refine Execution.invariant_from (P := fun s : Pool n γ φ => (s.clients c).pc.inWait = true ∨
      ((s.clients c).pc = .idle ∧ (s.clients c).status = .COIN_SUCCESS)) (Or.inl hwait) ?_ hj
    intro j l hj hl hP
    rcases h.wait_kept hl (hP.imp_right And.left) with ⟨-, hnext⟩ | hsame
    · exact hnext
    · rw [hsame]
      exact hP
  filter_upwards [h.comes_to_rest hn, eventually_ge_atTop i] with j hrest hj
  rcases hkept j hj with hin | ⟨hidle, hsuccess⟩
  · rw [hrest.idle c] at hin
    cases hin
  · generalize (e.state j).clients c = y at hidle hsuccess ⊢
    obtain ⟨pc, status⟩ := y
    cases hidle
    cases hsuccess
    rfl

/-- The worker goes to sleep, and a call of `coin_tpool_wait` finds nothing to wait for. -/
def quiet_wait : List (PoolLabel 1 Unit Unit) := work_labels 2 ++ wait_labels

theorem a_wait_for_a_sleeping_worker_returns :
    ∃ e : Execution (pool_machine (n := 1) (γ := Unit) (φ := Unit)), FairRun e ∧
      ((e.state 0).clients ()).pc = .wait_lock_active ∧ (∀ᶠ i in atTop, AtRest (e.state i)) ∧
      (∀ i, (e.state i).b_shutdown = false) ∧
      ∀ᶠ j in atTop, (e.state j).clients () = ⟨.idle, .COIN_SUCCESS⟩ := by
  let s : Pool 1 Unit Unit := new_pool.goto () .wait_lock_active
  let after : Pool 1 Unit Unit := (pool_machine.run s quiet_wait).get rfl
  have hr : pool_machine.run s quiet_wait = some after := (Option.some_get _).symm
  have hrest : AtRest after := by
    refine ⟨fun _ => rfl, rfl, rfl, rfl, fun _ w => ?_, nofun, nofun⟩
    rw [Subsingleton.elim w 0]
    exact ⟨rfl, rfl⟩
  let e := Execution.ofRun hr
  have hlabels : ∀ i l, e.label i = some l → l.Ok ∧ l.Calm ∧ ∃ t, l.thread = some t := by
    intro i l hl
    have hmem : l ∈ quiet_wait := List.mem_of_getElem? hl
    rcases List.mem_append.mp hmem with hmem | hmem
    · rw [List.eq_of_mem_replicate hmem]
      exact ⟨rfl, rfl, _, rfl⟩
    · rw [List.eq_of_mem_replicate hmem]
      exact ⟨rfl, rfl, _, rfl⟩
  have hfair : FairRun e := by
    refine ⟨okReachable_of_run [.call () .wait] (by decide) rfl, rfl, fun _ => rfl,
      fun i l hl => ⟨(hlabels i l hl).1, (hlabels i l hl).2.2⟩,
      Eventually.of_forall fun i w o hl => (hlabels i _ hl).2.1,
      fun t => Execution.fair_ofRun hr (hrest.still t)⟩
  have hreturns := every_call_returns_under_a_fair_scheduler Nat.one_pos hfair
  exact ⟨e, hfair, rfl, hreturns.1, hreturns.2.1, hreturns.2.2 () 0 rfl⟩

end pingpong.concurinc
