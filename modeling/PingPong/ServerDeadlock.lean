-- The order of the mutexes in the server: main takes a mutex of the pool while it
-- holds that of a context, and nobody takes one the other way round.
import PingPong.ServerLaws

namespace pingpong.server

open concurinc mutex netio tasks

variable {n : Nat}

/-! ## The mutexes, and who waits for them -/

inductive mutex_id
  | ctx (p : ctx_id)
  | tpool_queue_mutex
  | active_tasks_mutex
  deriving DecidableEq, Repr

def Server.mutex_of (s : Server n) : mutex_id → Mutex (Thread n Unit)
  | .ctx p => (s.ctxs p).mutex
  | .tpool_queue_mutex => s.pool.tpool_queue_mutex
  | .active_tasks_mutex => s.pool.active_tasks_mutex

/-- The mutex of the pool that a worker acquires at its point. `pthread_cond_wait` acquires its
mutex again before it returns. -/
def worker_wants : worker_pc → Option mutex_id
  | .lock_queue | .cond_wait | .exit_lock => some .tpool_queue_mutex
  | .lock_inc | .lock_dec => some .active_tasks_mutex
  | _ => none

def client_wants : client_pc io_task → Option mutex_id
  | .submit_lock .. | .wait_lock_queue | .stop_lock => some .tpool_queue_mutex
  | .wait_lock_active | .wait_blocked => some .active_tasks_mutex
  | _ => none

/-- The context whose mutex main acquires at its point. -/
def main_wants : main_pc → Option ctx_id
  | .close_lock _ p | .task_lock _ _ p | .hup_lock _ p => some p
  | _ => none

/-- The thread acquires this mutex next. -/
inductive Wants (s : Server n) : Thread n Unit → mutex_id → Prop
  | worker (w : Fin n) (m : mutex_id) (h : worker_wants (s.pool.workers w).pc = some m) :
      Wants s (.worker w) m
  | task (w : Fin n) (t : coin_task_t io_task) (hrun : (s.pool.workers w).pc = .run)
      (ht : (s.pool.workers w).p_task = some t) (hlock : s.task w = .lock) :
      Wants s (.worker w) (.ctx t.work.coin_task_arg)
  | call (m : mutex_id) (h : client_wants (s.pool.clients ()).pc = some m) :
      Wants s (.client ()) m
  | main (p : ctx_id) (h : main_wants s.main = some p) : Wants s (.client ()) (.ctx p)

def Holds (s : Server n) (t : Thread n Unit) (m : mutex_id) : Prop := s.mutex_of m = .held t

/-- The mutexes of the contexts come before those of the pool. -/
def mutex_id.rank : mutex_id → Nat
  | .ctx _ => 0
  | .tpool_queue_mutex | .active_tasks_mutex => 1

/-! ## Runs in which the calls succeed -/

/-- The thread that takes the step. -/
def ServerLabel.thread : ServerLabel n → Option (Thread n Unit)
  | .main _ | .call _ => some (.client ())
  | .worker w _ | .task w _ _ => some (.worker w)
  | .signal => none

/-- The runs of the server, seen at its pool, are runs of a pool. -/
theorem pool_of_reachable {host : ByteOrder} {s : Server n}
    (h : Reachable host (fun _ l => l.Ok) s) : OkReachable s.pool := by
  obtain ⟨sfd, sigpipe_fd, hr⟩ := h
  apply machine.Machine.Reach.simulates (fun s : Server n => s.pool) _ _ hr
  · rintro s rfl
    rfl
  · intro s l s' hok hs
    rcases pool_step_of_server_step (server_step_cases hs) with hpool | ⟨k, hk, hstep⟩
    · exact Or.inl hpool
    · exact Or.inr ⟨k, hk hok, hstep⟩

/-- Who holds the mutex of a context is at a point under it. -/
theorem kept_ctx_of_reachable {host : ByteOrder} {s : Server n}
    (h : Reachable host (fun _ l => l.Ok) s) :
    Linked s ∧ ∀ p, Mutex.Kept (s.inside p) (s.ctxs p).mutex := by
  obtain ⟨sfd, sigpipe_fd, hr⟩ := h
  refine machine.Machine.Reach.invariant
    (P := fun s : Server n => Linked s ∧ ∀ p, Mutex.Kept (s.inside p) (s.ctxs p).mutex) ?_ ?_ hr
  · rintro s rfl
    exact ⟨linked_new sfd sigpipe_fd, fun _ => nofun⟩
  · rintro s l s' ⟨hl, hkept⟩ hok hs
    have hcases := server_step_cases hs
    refine ⟨hl.step hcases, fun p => ?_⟩
    rcases hcases.turn hl hok.locks p with ⟨t, res, hres, hturn⟩ | ⟨-, -, hfree⟩
    · rw [hres hok] at hturn
      exact (hkept p).turn hturn
    · -- nobody holds the mutex of a new context
      intro u hu
      rw [hfree] at hu
      cases hu

/-! ## The points of the threads -/

theorem worker_wants_outside {pc : worker_pc} {m : mutex_id} (h : worker_wants pc = some m) :
    pc ≠ .run ∧ pc.inQueue = false ∧ pc.inActive = false := by
  cases pc with
  | lock_queue | cond_wait | exit_lock | lock_inc | lock_dec => exact ⟨nofun, rfl, rfl⟩
  | _ => cases h

theorem client_wants_outside {pc : client_pc io_task} {m : mutex_id}
    (h : client_wants pc = some m) :
    pc ≠ .idle ∧ pc.inQueue = false ∧ pc.inActive = false ∧ m.rank = 1 := by
  cases pc with
  | submit_lock | wait_lock_queue | stop_lock | wait_lock_active | wait_blocked =>
    cases h
    exact ⟨nofun, rfl, rfl, rfl⟩
  | _ => cases h

theorem main_wants_outside {pc : main_pc} {p : ctx_id} (h : main_wants pc = some p) :
    pc.locks = none ∧ pc.inCall = false := by
  cases pc with
  | close_lock | task_lock | hup_lock => exact ⟨rfl, rfl⟩
  | _ => cases h

theorem Linked.idle_of_outside {s : Server n} (h : Linked s) (hout : s.main.inCall = false) :
    (s.pool.clients ()).pc = .idle := by
  by_contra hpc
  rw [h.in_call hpc] at hout
  cases hout

/-- A thread that is under a mutex of the pool acquires no other. -/
theorem Linked.none_wanted {s : Server n} (h : Linked s) {t : Thread n Unit} {m : mutex_id}
    (hin : s.pool.inQueue t ∨ s.pool.inActive t) : ¬ Wants s t m := by
  intro hw
  cases hw with
  | worker w _ hwants =>
    obtain ⟨-, hqueue, hactive⟩ := worker_wants_outside hwants
    unfold Pool.inQueue Pool.inActive at hin
    simp [hqueue, hactive] at hin
  | task w t hrun =>
    unfold Pool.inQueue Pool.inActive at hin
    simp [hrun, worker_pc.inQueue, worker_pc.inActive] at hin
  | call _ hwants =>
    obtain ⟨-, hqueue, hactive, -⟩ := client_wants_outside hwants
    unfold Pool.inQueue Pool.inActive at hin
    simp [hqueue, hactive] at hin
  | main p hwants =>
    have hidle := h.idle_of_outside (main_wants_outside hwants).2
    unfold Pool.inQueue Pool.inActive at hin
    simp [hidle, client_pc.inQueue, client_pc.inActive] at hin

/-- A thread that is under the mutex of a context acquires none but those of the pool. -/
theorem Linked.wanted_inside {s : Server n} (h : Linked s) {t : Thread n Unit} {p : ctx_id}
    {m : mutex_id} (hin : s.inside p t) (hw : Wants s t m) : m.rank = 1 := by
  cases hw with
  | worker w _ hwants =>
    rw [inside_worker, h.at_lock w (worker_wants_outside hwants).1] at hin
    cases hin.2
  | task w t hrun ht hlock =>
    rw [inside_worker, hlock] at hin
    cases hin.2
  | call _ hwants => exact (client_wants_outside hwants).2.2.2
  | main q hwants =>
    rw [inside_client, (main_wants_outside hwants).1] at hin
    cases hin

/-- Every thread takes its mutexes in the order of their ranks. -/
theorem mutexes_are_taken_in_order {host : ByteOrder} {s : Server n}
    (h : Reachable host (fun _ l => l.Ok) s) {t : Thread n Unit} {m m' : mutex_id}
    (hholds : Holds s t m) (hwants : Wants s t m') : m.rank < m'.rank := by
  obtain ⟨hqueue, hactive⟩ := kept_of_reachable (pool_of_reachable h)
  obtain ⟨hl, hctx⟩ := kept_ctx_of_reachable h
  cases m with
  | ctx p =>
    rw [hl.wanted_inside (hctx p t hholds) hwants]
    exact Nat.one_pos
  | tpool_queue_mutex => exact absurd hwants (hl.none_wanted (Or.inl (hqueue t hholds)))
  | active_tasks_mutex => exact absurd hwants (hl.none_wanted (Or.inr (hactive t hholds)))

/-! ## The law -/

section Blocked

variable {host : ByteOrder} {s : Server n} {t : Thread n Unit} {m : mutex_id}

theorem worker_blocked {w : Fin n} (hwants : worker_wants (s.pool.workers w).pc = some m)
    (hm : s.mutex_of m ≠ .free) {o : Outcome n} (ho : o.res = 0) :
    worker_step w o s.pool = none := by
  unfold worker_step
  generalize s.pool.workers w = x at hwants
  obtain ⟨pc, p_task, err⟩ := x
  cases pc with
  | lock_queue | exit_lock | lock_inc | lock_dec =>
    cases hwants
    have hbusy := Mutex.lock_of_busy (.worker w) hm
    unfold Server.mutex_of at hbusy
    simp only [ho, hbusy, Option.map_none]
  | cond_wait =>
    cases hwants
    have hbusy := Mutex.lock_of_busy (.worker w) hm
    unfold Server.mutex_of at hbusy
    simp only [hbusy, Option.map_none, ite_self]
  | _ => cases hwants

theorem client_blocked (hwants : client_wants (s.pool.clients ()).pc = some m)
    (hm : s.mutex_of m ≠ .free) {o : Outcome n} (ho : o.res = 0) :
    client_step () o s.pool = none := by
  unfold client_step
  generalize (s.pool.clients ()).pc = pc at hwants
  cases pc with
  | submit_lock | wait_lock_queue | stop_lock | wait_lock_active =>
    cases hwants
    have hbusy := Mutex.lock_of_busy (.client ()) hm
    unfold Server.mutex_of at hbusy
    simp only [ho, hbusy, Option.map_none]
  | wait_blocked =>
    cases hwants
    have hbusy := Mutex.lock_of_busy (.client ()) hm
    unfold Server.mutex_of at hbusy
    simp only [hbusy, Option.map_none, ite_self]
  | _ => cases hwants

/-- Main does not go on while a call is open. -/
theorem main_blocked (hcall : s.main.inCall = true) (hpc : (s.pool.clients ()).pc ≠ .idle)
    (o : main_outs) : main_step o s = none := by
  have hret : s.returned = none := by
    by_contra hsome
    exact hpc (idle_of_returned (Option.isSome_iff_ne_none.mpr hsome))
  unfold main_step
  generalize s.main = pc at hcall
  cases pc with
  | task_submit | wait | destroy_tpool =>
    simp only [hret, Option.map_none]
  | _ => cases hcall

theorem lock_blocked {p : ctx_id} (hm : (s.ctxs p).mutex ≠ .free) : s.lock t p 0 = none := by
  unfold Server.lock
  rw [Mutex.lock_of_busy t hm, Option.map_none]

/-- A thread that acquires a mutex which is not free takes no step whose calls succeed. -/
theorem Linked.blocked (h : Linked s) (hwants : Wants s t m) (hm : s.mutex_of m ≠ .free)
    {l : ServerLabel n} (hl : l.thread = some t) (hok : l.Ok) : server_step host s l = none := by
  cases hwants with
  | worker w _ hw =>
    cases l with
    | worker v o =>
      cases hl
      unfold server_step pool_step
      simp only [worker_blocked hw hm hok, Option.map_none, ite_self]
    | task v res outs =>
      cases hl
      unfold server_step
      simp only [(worker_wants_outside hw).1, if_false]
    | _ => cases hl
  | task w t hrun ht hlock =>
    cases l with
    | worker v o =>
      cases hl
      unfold server_step
      simp [hrun, hlock]
    | task v res outs =>
      cases hl
      have hres : res = 0 := hok
      unfold server_step task_step
      simp only [hrun, if_true, ht, Option.bind_some, hlock, hres, lock_blocked hm,
        Option.map_none]
    | _ => cases hl
  | call _ hw =>
    have hopen := (client_wants_outside hw).1
    cases l with
    | main o => exact main_blocked (h.in_call hopen) hopen o
    | call o =>
      unfold server_step pool_step
      simp only [client_blocked hw hm hok, Option.map_none]
    | _ => cases hl
  | main p hw =>
    cases l with
    | main o =>
      have hres : o.res = 0 := hok
      have hbusy := lock_blocked (t := .client ()) hm
      unfold server_step main_step
      generalize s.main = pc at hw
      cases pc with
      | close_lock | task_lock | hup_lock =>
        cases hw
        simp only [hres, hbusy, Option.map_none]
      | _ => cases hw
    | call o =>
      have hidle := h.idle_of_outside (main_wants_outside hw).2
      unfold server_step pool_step client_step
      simp only [hidle, Option.map_none]
    | _ => cases hl

end Blocked

/-- While the pthread calls succeed there is no set of threads in which each one waits for a mutex
that a thread of the set holds. -/
theorem no_threads_wait_for_each_other {host : ByteOrder} {s : Server n}
    (h : Reachable host (fun _ l => l.Ok) s) :
    ¬ ∃ S : Set (Thread n Unit), S.Nonempty ∧
      ∀ t ∈ S, ∃ m, Wants s t m ∧ ∃ u ∈ S, Holds s u m := by
  rintro ⟨S, ⟨t, ht⟩, hS⟩
  apply no_deadlock mutex_id.rank 1 _ _ hS t ht
  · intro m
    cases m <;> simp [mutex_id.rank]
  · intro t m m' hholds hwants
    exact mutexes_are_taken_in_order h hholds hwants

/-- The closing pass holds the mutex of the client's context, which the worker waits for. -/
theorem a_worker_waits_for_the_closing_pass :
    ∃ s : Server 1, Wants s (.worker 0) (.ctx 2) ∧ Holds s (.client ()) (.ctx 2) ∧
      ¬ ∃ S : Set (Thread 1 Unit), S.Nonempty ∧
        ∀ t ∈ S, ∃ m, Wants s t m ∧ ∃ u ∈ S, Holds s u m := by
  obtain ⟨s, hreach, hrun, htask, hlock, hheld⟩ := exists_of_run .big (fun _ l => l.Ok) 3 4
    (accept_labels ++ submit_read_labels ++ take_labels ++ main_steps 5)
    (fun s : Server 1 => (s.pool.workers 0).pc = .run ∧
      (s.pool.workers 0).p_task = some ⟨0, ⟨.task_io_read, 2⟩, false⟩ ∧ s.task 0 = .lock ∧
      (s.ctxs 2).mutex = .held (.client ()))
    (machine.Machine.meets_of_mem (by decide)) (by decide +kernel)
  exact ⟨s, .task 0 _ hrun htask hlock, hheld, no_threads_wait_for_each_other hreach⟩

end pingpong.server
