-- A pool that gets no new calls comes to an end: its threads have a bounded number of
-- steps left, unless one of them is in `coin_tpool_wait`, and a destruction returns.
import PingPong.PoolRest

namespace pingpong.concurinc

open mutex tally

variable {n : Nat} {γ φ : Type} [DecidableEq γ]

/-! ## Every step lowers what is left -/

/-- The step of a worker that no spurious wake-up moves. -/
theorem left_of_worker_step [Fintype γ] {s s' : Pool n γ φ} {w : Fin n} {o : Outcome n}
    (h : Tended s) (hflag : ∀ w, (s.workers w).pc.stopping = true → s.b_shutdown = true)
    (hr : o.res = 0) (hcalm : o.spurious = false) (hs : worker_step w o s = some s') :
    s'.left < s.left := by
  obtain ⟨x, hw, hpass⟩ := worker_ok_cases hs hr
  have hawake : (s.workers w).pc ≠ .cond_wait → s.q_waiting w = false := by
    intro hpc
    refine Bool.eq_false_iff.mpr fun hsleep => ?_
    exact hpc (h.asleep w hsleep)
  have hless := hpass.left hcalm hawake (h.popped w) (hflag w)
  obtain ⟨rest, hold, hnew⟩ := total_split (fun x : Worker φ => x.pc.left) s.workers w
  unfold Pool.left
  rw [hw.clients, hw.workers, hold, hnew]
  omega

theorem left_of_client_step [Fintype γ] {s s' : Pool n γ φ} {c : γ} {o : Outcome n}
    (hr : o.res = 0) (hwait : (s.clients c).pc.inWait = false)
    (hs : client_step c o s = some s') : s'.left < s.left := by
  obtain ⟨y, hc, hpass⟩ := client_ok_cases hs hr
  have hless := (hpass.left hwait).2
  obtain ⟨rest, hold, hnew⟩ := total_split (fun y : Client φ => y.pc.left n) s.clients c
  unfold Pool.left
  rw [hc.workers, hc.clients, hold, hnew]
  omega

/-- A client comes into `coin_tpool_wait` by a call only. -/
theorem no_wait_of_step {s s' : Pool n γ φ} {l : PoolLabel n γ φ} {c : γ} (hok : l.Ok)
    (hthread : ∃ t, l.thread = some t) (hwait : (s.clients c).pc.inWait = false)
    (hs : pool_step s l = some s') : (s'.clients c).pc.inWait = false := by
  cases l with
  | worker w o =>
    obtain ⟨x, hw⟩ := worker_step_cases hs
    rw [hw.clients]
    exact hwait
  | client d o =>
    obtain ⟨y, hc, hpass⟩ := client_ok_cases hs hok
    by_cases hcd : c = d
    · subst hcd
      rw [hc.self]
      exact (hpass.left hwait).1
    · rw [hc.other hcd]
      exact hwait
  | call d call =>
    obtain ⟨t, ht⟩ := hthread
    cases ht

/-- In a reachable pool without a waiting client, the steps of the threads lead to such a pool with
less left. -/
theorem left_of_step [Fintype γ] (hn : 0 < n) {s s' : Pool n γ φ} {l : PoolLabel n γ φ}
    (h : OkReachable s) (hwait : ∀ c, (s.clients c).pc.inWait = false) (hl : ∃ t, l.Of t)
    (hs : pool_step s l = some s') :
    (OkReachable s' ∧ ∀ c, (s'.clients c).pc.inWait = false) ∧ s'.left < s.left := by
  obtain ⟨t, hthread, hok, hcalm⟩ := hl
  refine ⟨⟨h.step hok hs, fun c => no_wait_of_step hok ⟨t, hthread⟩ (hwait c) hs⟩, ?_⟩
  cases l with
  | worker w o =>
    exact left_of_worker_step (tended_of_reachable h) (wakeful_of_reachable hn h).flag hok hcalm hs
  | client c o => exact left_of_client_step hok (hwait c) hs
  | call c call => cases hthread

omit [DecidableEq γ] in
theorem left_le [Fintype γ] (s : Pool n γ φ) :
    s.left ≤ 24 * s.p_work_queue.length + 36 * n + total (fun y => y.pc.left n) s.clients := by
  have hworkers : total (fun x : Worker φ => x.pc.left) s.workers ≤ Fintype.card (Fin n) * 28 := by
    apply total_le
    intro w
    cases (s.workers w).pc <;> simp [worker_pc.left]
  have hawake := awake_le s.q_waiting
  rw [Fintype.card_fin] at hworkers
  unfold Pool.left
  omega

theorem length_le_left [Fintype γ] (hn : 0 < n) {s after : Pool n γ φ}
    {ls : List (PoolLabel n γ φ)} (h : OkReachable s)
    (hwait : ∀ c, (s.clients c).pc.inWait = false) (hls : ∀ l ∈ ls, ∃ t, l.Of t)
    (hr : pool_machine.run s ls = some after) :
    ls.length + after.left ≤
      24 * s.p_work_queue.length + 36 * n + total (fun y => y.pc.left n) s.clients := by
  refine Nat.le_trans ?_ (left_le s)
  refine machine.Machine.run_length_le (C := fun _ l => ∃ t, l.Of t)
    (P := fun s => OkReachable s ∧ ∀ c, (s.clients c).pc.inWait = false)
    (fun s l s' hP hl hs => left_of_step hn hP.1 hP.2 hl hs) ⟨h, hwait⟩
    (machine.Machine.meets_of_mem hls) hr

/-- While the pthread calls succeed, no client is in `coin_tpool_wait` and no thread wakes up without
a signal: however the threads interleave, they take no more steps than 24 for each task in the queue,
36 for each worker and those that the open calls have left. Where they can take no more, a pool
that is not destroyed is at rest. -/
theorem the_threads_of_a_pool_come_to_rest [Fintype γ] [DecidableEq φ] (hn : 0 < n)
    {s after : Pool n γ φ} {ls : List (PoolLabel n γ φ)} (h : OkReachable s)
    (hwait : ∀ c, (s.clients c).pc.inWait = false) (hls : ∀ l ∈ ls, ∃ t, l.Of t)
    (hr : pool_machine.run s ls = some after) :
    ls.length ≤
      24 * s.p_work_queue.length + 36 * n + total (fun y => y.pc.left n) s.clients ∧
    (after.tpool_queue_mutex ≠ .destroyed → Still after → AtRest after) := by
  constructor
  · have hbound := length_le_left hn h hwait hls hr
    omega
  · have hreach : OkReachable after := by
      refine machine.Machine.run_invariant (P := OkReachable) (C := fun _ l => ∃ t, l.Of t) ?_ h
        (machine.Machine.meets_of_mem hls) hr
      rintro s l s' hs ⟨t, -, hok, -⟩ hstep
      exact hs.step hok hstep
    exact at_rest_of_still hn hreach

theorem of_only_worker {steps : Nat} :
    ∀ l ∈ work_labels steps, ∃ t : Thread 1 Unit, l.Of t := by
  intro l hl
  rw [List.eq_of_mem_replicate hl]
  exact ⟨.worker only_worker, rfl, rfl, rfl⟩

/-- The worker takes 18 steps from its start to its sleep, with one task. -/
theorem a_worker_with_one_task_comes_to_rest :
    ∃ s after : Pool 1 Unit Unit, pool_machine.run new_pool submit_labels = some s ∧
      pool_machine.run s (work_labels 18) = some after ∧
      (work_labels 18).length ≤
        24 * s.p_work_queue.length + 36 * 1 + total (fun y => y.pc.left 1) s.clients ∧
      (after.tpool_queue_mutex ≠ .destroyed → Still after → AtRest after) := by
  let s : Pool 1 Unit Unit := (pool_machine.run new_pool submit_labels).get rfl
  have hs : pool_machine.run new_pool submit_labels = some s := (Option.some_get _).symm
  let after : Pool 1 Unit Unit := (pool_machine.run s (work_labels 18)).get rfl
  have hr : pool_machine.run s (work_labels 18) = some after := (Option.some_get _).symm
  exact ⟨s, after, hs, hr, the_threads_of_a_pool_come_to_rest Nat.one_pos
    (okReachable_of_run submit_labels (by decide) hs) (fun _ => rfl) of_only_worker hr⟩

/-! ## A destruction returns -/

/-- A step of a destruction whose pthread call succeeds goes on with it, or it is the last. -/
theorem destroy_goes_on {c : γ} {o : Outcome n} {s s' : Pool n γ φ}
    (hs : client_step c o s = some s') (hr : o.res = 0)
    (hin : (s.clients c).pc.inDestroy = true) (hfail : (s.clients c).pc ≠ .stop_broadcast_failed)
    (hjoin : ∀ i, (s.clients c).pc ≠ .stop_join i .COIN_PTHREAD_JOIN_ERROR) :
    ((s'.clients c).pc.inDestroy = true ∧ (s'.clients c).pc ≠ .stop_broadcast_failed ∧
      ((s.clients c).pc.pastMutex = true ∨ (s.clients c).pc = .destroy_queue_mutex →
        (s'.clients c).pc.pastMutex = true) ∧ (s.clients c).pc ≠ .destroy_active_mutex) ∨
    ((s'.clients c).pc = .idle ∧ (s'.clients c).status = .COIN_SUCCESS ∧
      s'.active_tasks_mutex = .destroyed) := by
  unfold client_step at hs
  generalize (s.clients c).pc = pc at hs hin hfail hjoin ⊢
  simp only [hr, if_true] at hs
  cases pc
  all_goals simp only at hs
  case stop_lock =>
    obtain ⟨m, -, rfl⟩ := Option.map_eq_some_iff.mp hs
    simp [client_pc.inDestroy, client_pc.pastMutex]
  case stop_flag =>
    cases hs
    simp [client_pc.inDestroy, client_pc.pastMutex]
  case stop_broadcast =>
    cases hs
    simp [client_pc.inDestroy, client_pc.pastMutex]
  case stop_broadcast_failed => exact absurd rfl hfail
  case stop_unlock =>
    cases hs
    simp [client_pc.inDestroy, client_pc.pastMutex]
  case stop_join i status =>
    simp only [ne_eq, not_true_eq_false, if_false] at hs
    split at hs
    · split at hs <;> cases hs
      simp [client_pc.inDestroy, client_pc.pastMutex]
    · split at hs
      · rename_i hstatus
        exact absurd (by rw [hstatus]) (hjoin i)
      · cases hs
        simp [client_pc.inDestroy, client_pc.pastMutex]
  case destroy_queue_cond =>
    cases hs
    simp [client_pc.inDestroy, client_pc.pastMutex]
  case destroy_queue_mutex =>
    obtain ⟨m, -, rfl⟩ := Option.map_eq_some_iff.mp hs
    simp [client_pc.inDestroy, client_pc.pastMutex]
  case destroy_queue =>
    cases hs
    simp [client_pc.inDestroy, client_pc.pastMutex]
  case destroy_active_cond =>
    cases hs
    simp [client_pc.inDestroy, client_pc.pastMutex]
  case destroy_active_mutex =>
    obtain ⟨m, hm, rfl⟩ := Option.map_eq_some_iff.mp hs
    rcases Mutex.destroy_eq_some.mp hm with ⟨-, -, rfl⟩ | ⟨hne, -⟩
    · exact Or.inr (by simp [Pool.give])
    · exact absurd rfl hne
  all_goals cases hin

/-- A destruction by `c` while no other client is in a call. It alone destroys the mutexes. -/
structure Ending (c : γ) (s : Pool n γ φ) : Prop where
  others : ∀ d, d ≠ c → (s.clients d).pc = .idle
  call : ((s.clients c).pc.inDestroy = true ∧ (s.clients c).pc ≠ .stop_broadcast_failed) ∨
    ((s.clients c).pc = .idle ∧ (s.clients c).status = .COIN_SUCCESS ∧
      s.active_tasks_mutex = .destroyed)
  queue : s.tpool_queue_mutex = .destroyed →
    (s.clients c).pc.pastMutex = true ∨ (s.clients c).pc = .idle
  active : s.active_tasks_mutex = .destroyed → (s.clients c).pc = .idle

/-- The destruction of a pool that is in no call begins. -/
theorem Ending.start (c : γ) {s : Pool n γ φ} (h : OkReachable s)
    (hidle : ∀ d, (s.clients d).pc = .idle) (hlive : s.tpool_queue_mutex ≠ .destroyed) :
    Ending c (s.goto c .stop_lock) := by
  refine ⟨fun d hd => ?_, Or.inl ?_, fun hgone => absurd hgone hlive, fun hgone => ?_⟩
  · rw [Pool.goto_other s hd]
    exact hidle d
  · rw [Pool.goto_self]
    exact ⟨rfl, nofun⟩
  · exact absurd ((tended_of_reachable h).gone_active hgone) hlive

theorem Ending.step {c : γ} {s s' : Pool n γ φ} {l : PoolLabel n γ φ} (h : Ending c s)
    (ht : Tended s) (hok : l.Ok) (hthread : ∃ t, l.thread = some t)
    (hs : pool_step s l = some s') : Ending c s' := by
  cases l with
  | worker w o =>
    obtain ⟨x, hw, hpass⟩ := worker_ok_cases hs hok
    refine ⟨?_, ?_, fun hgone => ?_, fun hgone => ?_⟩
    · rw [hw.clients]
      exact h.others
    · rw [hw.clients]
      refine h.call.imp_right fun ⟨hidle, hsuccess, hgone⟩ => ⟨hidle, hsuccess, ?_⟩
      have hmove := hw.active
      rw [hgone] at hmove
      exact hmove.of_destroyed
    · rw [hw.clients]
      exact h.queue (hpass.gone.1 hgone)
    · rw [hw.clients]
      exact h.active (hpass.gone.2 hgone)
  | client d o =>
    have hd : d = c := by
      by_contra hne
      exact client_open hs (h.others d hne)
    subst hd
    obtain ⟨y, hc, hpass⟩ := client_ok_cases hs hok
    have hothers : ∀ d', d' ≠ d → (s'.clients d').pc = .idle := by
      intro d' hne
      rw [hc.other hne]
      exact h.others d' hne
    obtain ⟨hin, hfail⟩ := h.call.resolve_right fun hreturned => client_open hs hreturned.1
    rcases destroy_goes_on hs hok hin hfail (ht.joins d) with ⟨hin', hfail', hpast, hlast⟩ | hlast
    · refine ⟨hothers, Or.inl ⟨hin', hfail'⟩, fun hgone => Or.inl (hpast ?_), fun hgone => ?_⟩
      · rcases hpass.gone hgone with hwas | hpc
        · exact Or.inl ((h.queue hwas).resolve_right (client_open hs))
        · exact Or.inr hpc
      · rcases hpass.gone_active hgone with hwas | hpc
        · exact absurd (h.active hwas) (client_open hs)
        · exact absurd hpc hlast
    · exact ⟨hothers, Or.inr hlast, fun _ => Or.inr hlast.1, fun _ => hlast.1⟩
  | call d call =>
    obtain ⟨t, ht⟩ := hthread
    cases ht

/-- The destruction goes on until it returns. -/
theorem Ending.returned {c : γ} {s : Pool n γ φ} (hn : 0 < n) (h : Ending c s)
    (hreach : OkReachable s) (hstill : Still s) :
    (s.clients c).pc = .idle ∧ (s.clients c).status = .COIN_SUCCESS := by
  rcases h.call with ⟨hin, -⟩ | ⟨hreturned, hsuccess, -⟩
  swap
  · exact ⟨hreturned, hsuccess⟩
  have hidle : (s.clients c).pc ≠ .idle := by
    intro hpc
    rw [hpc] at hin
    cases hin
  have ht := tended_of_reachable hreach
  obtain ⟨hqueue, hactive⟩ := hstill.mutexes hreach
  have hactive := hactive.resolve_right fun hgone => hidle (h.active hgone)
  -- before its destruction the mutex of the queue is free
  have hbefore : (s.clients c).pc.pastMutex = false → s.tpool_queue_mutex = .free := by
    intro hpast
    refine hqueue.resolve_right fun hgone => ?_
    rcases h.queue hgone with hin | hpc
    · rw [hpast] at hin
      cases hin
    · exact hidle hpc
  refine absurd (client_ready hidle ?_ ?_ ?_ fun _ => hactive) (hstill (.client c))
  · rintro ⟨hpc, -⟩
    rw [hpc] at hin
    cases hin
  · intro i status hi hpc
    have hfree := hbefore (by rw [hpc]; rfl)
    have hflag := (told_of_reachable hreach).flag c (by rw [hpc]; rfl)
    refine (worker_rests (hstill (.worker ⟨i, hi⟩)) (fun _ => hfree) fun _ => hactive).resolve_right
      fun hsleep => ?_
    rcases (wakeful_of_reachable hn hreach).told hflag with hall | ⟨d, hd⟩
    · have hwaiting := hsleep.2
      rw [hall] at hwaiting
      cases hwaiting
    · exact hstill (.client d) (ready_inside (Or.inl (by rw [Pool.inQueue, hd]; rfl)))
  · intro hlock
    refine hbefore ?_
    generalize (s.clients c).pc = pc at hlock
    cases pc
    all_goals first
      | rfl
      | cases hlock

/-- What is left of a destruction that begins. -/
theorem client_left_of_destroy [Fintype γ] {before : Pool n γ φ} {c : γ}
    (hidle : ∀ d, (before.clients d).pc = .idle) :
    (∀ d, ((before.goto c .stop_lock).clients d).pc.inWait = false) ∧
    total (fun y : Client φ => y.pc.left n) (before.goto c .stop_lock).clients = 9 * n + 10 := by
  have hothers : ∀ d, d ≠ c → ((before.goto c .stop_lock).clients d).pc = .idle := by
    intro d hd
    rw [Pool.goto_other before hd]
    exact hidle d
  constructor
  · intro d
    by_cases hd : d = c
    · rw [hd, Pool.goto_self]
      rfl
    · rw [hothers d hd]
      rfl
  · rw [total_single fun d hd => by rw [hothers d hd]; rfl, Pool.goto_self]
    rfl

omit [DecidableEq γ] in
/-- In a pool that is closed, nothing holds a task. -/
theorem Closed.place [DecidableEq φ] {s : Pool n γ φ} (h : Closed s) (hp : Placed s)
    {t : coin_task_t φ} (ht : t ∈ s.pushed) : At s t .done ∨ At s t .dropped := by
  obtain ⟨p, hat, -⟩ := hp.one_place ht
  cases p with
  | done => exact Or.inl hat
  | dropped => exact Or.inr hat
  | queued =>
    have hcount := hat.1
    rw [h.queue] at hcount
    cases hcount
  | held w =>
    have hheld := hat.1
    rw [hp.rests_without_task (Or.inl (h.exited w))] at hheld
    cases hheld

/-- While the pthread calls succeed: when no other client is in a call, `coin_tpool_destroy` returns
after a bounded number of steps, however it interleaves with the workers. It returns `COIN_SUCCESS`,
all workers have exited, and each task was executed and freed once or is dropped. -/
theorem a_destruction_returns [Fintype γ] [DecidableEq φ] (hn : 0 < n) {c : γ}
    {before s after : Pool n γ φ} {ls : List (PoolLabel n γ φ)} (h : OkReachable before)
    (hidle : ∀ d, (before.clients d).pc = .idle) (hlive : before.tpool_queue_mutex ≠ .destroyed)
    (hcall : pool_step before (.call c .destroy) = some s) (hls : ∀ l ∈ ls, ∃ t, l.Of t)
    (hr : pool_machine.run s ls = some after) :
    ls.length ≤ 24 * before.p_work_queue.length + 45 * n + 10 ∧
    (Still after → (after.clients c).pc = .idle ∧ (after.clients c).status = .COIN_SUCCESS ∧
      Closed after ∧ ∀ t ∈ after.pushed, At after t .done ∨ At after t .dropped) := by
  have hreach : OkReachable s := h.step (l := .call c .destroy) trivial hcall
  obtain ⟨-, rfl⟩ := call_step_cases hcall
  obtain ⟨hwait, hshares⟩ := client_left_of_destroy (c := c) hidle
  constructor
  · have hbound : ls.length + after.left ≤ 24 * before.p_work_queue.length + 36 * n +
        total (fun y : Client φ => y.pc.left n) (before.goto c .stop_lock).clients :=
      length_le_left hn hreach hwait hls hr
    rw [hshares] at hbound
    omega
  · intro hstill
    have hreturning : Returning c (before.goto c .stop_lock) := by
      refine Or.inl ?_
      rw [Pool.goto_self]
      rfl
    have hend : OkReachable after ∧ Ending c after ∧ Returning c after := by
      refine machine.Machine.run_invariant (C := fun _ l => ∃ t, l.Of t)
        (P := fun s => OkReachable s ∧ Ending c s ∧ Returning c s) ?_
        ⟨hreach, .start c h hidle hlive, hreturning⟩ (machine.Machine.meets_of_mem hls) hr
      rintro s l s' ⟨hreach, hending, hreturning⟩ hl hs
      obtain ⟨t, hthread, hok, -⟩ := hl
      refine ⟨hreach.step hok hs, hending.step (tended_of_reachable hreach) hok ⟨t, hthread⟩ hs,
        hreturning.step (placed_of_reachable hreach).toSound (closing_of_reachable hreach c) ?_ hs⟩
      rintro call rfl
      cases hthread
    obtain ⟨hreach, hending, hreturning⟩ := hend
    obtain ⟨hpc, hsuccess⟩ := hending.returned hn hreach hstill
    have hclosed : Closed after := by
      rcases hreturning with hin | ⟨-, hclosed⟩
      · rw [hpc] at hin
        cases hin
      · exact hclosed hsuccess
    exact ⟨hpc, hsuccess, hclosed, fun t => hclosed.place (placed_of_reachable hreach)⟩

/-- The steps of a destruction of a pool whose worker sleeps. -/
def stop_and_destroy : List (PoolLabel 1 Unit Unit) :=
  List.replicate 4 (.client () {}) ++ work_labels 7 ++ List.replicate 7 (.client () {})

/-- The worker sleeps after its task, and the destruction wakes it and joins it. -/
theorem the_destruction_of_a_sleeping_worker_returns :
    ∃ before s after : Pool 1 Unit Unit,
      pool_machine.run new_pool (submit_labels ++ work_labels 18) = some before ∧
      pool_step before (.call () .destroy) = some s ∧
      pool_machine.run s stop_and_destroy = some after ∧
      stop_and_destroy.length ≤ 24 * before.p_work_queue.length + 45 * 1 + 10 ∧
      (Still after → (after.clients ()).pc = .idle ∧ (after.clients ()).status = .COIN_SUCCESS ∧
        Closed after ∧ ∀ t ∈ after.pushed, At after t .done ∨ At after t .dropped) := by
  let before : Pool 1 Unit Unit :=
    (pool_machine.run new_pool (submit_labels ++ work_labels 18)).get rfl
  have hbefore : pool_machine.run new_pool (submit_labels ++ work_labels 18) = some before :=
    (Option.some_get _).symm
  let s := before.goto () .stop_lock
  let after : Pool 1 Unit Unit := (pool_machine.run s stop_and_destroy).get rfl
  have hr : pool_machine.run s stop_and_destroy = some after := (Option.some_get _).symm
  have hls : ∀ l ∈ stop_and_destroy, ∃ t : Thread 1 Unit, l.Of t := by
    intro l hl
    simp only [stop_and_destroy, List.mem_append] at hl
    rcases hl with (hl | hl) | hl
    · rw [List.eq_of_mem_replicate hl]
      exact ⟨.client (), rfl, rfl, rfl⟩
    · exact of_only_worker l hl
    · rw [List.eq_of_mem_replicate hl]
      exact ⟨.client (), rfl, rfl, rfl⟩
  exact ⟨before, s, after, hbefore, rfl, hr, a_destruction_returns Nat.one_pos
    (okReachable_of_run _ (by decide) hbefore) (fun _ => rfl) nofun rfl hls hr⟩

end pingpong.concurinc
