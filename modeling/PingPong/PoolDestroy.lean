-- The law of `coin_tpool_destroy`: its joins leave no worker that takes a step, so
-- the tasks that are still in the queue are those that `coin_queue_destroy` drops.
import PingPong.PoolLaws

namespace pingpong.concurinc

open mutex tally

variable {n : Nat} {γ φ : Type}

/-! ## The points of a call -/

def AllExited (s : Pool n γ φ) : Prop := ∀ w, (s.workers w).pc = .exited

/-- What `coin_tpool_destroy` leaves behind: no worker, no task in the queue, and no mutex to
push another one. -/
structure Closed (s : Pool n γ φ) : Prop where
  exited : AllExited s
  queue : s.p_work_queue = []
  mutex : s.tpool_queue_mutex = .destroyed

/-- What a call has established at a point of it. -/
def Closing (c : γ) (s : Pool n γ φ) : Prop :=
  match (s.clients c).pc with
  | .stop_join i status => status ≠ .COIN_PTHREAD_JOIN_ERROR →
      ∀ w : Fin n, w.val < i → (s.workers w).pc = .exited
  | .destroy_queue_cond | .destroy_queue_mutex => AllExited s
  | .destroy_queue => AllExited s ∧ s.tpool_queue_mutex = .destroyed
  | .destroy_active_cond | .destroy_active_mutex => Closed s
  | _ => True

theorem closing_of_out {c : γ} {s : Pool n γ φ} (h : (s.clients c).pc.inDestroy = false) :
    Closing c s := by
  unfold Closing
  cases hpc : (s.clients c).pc
  all_goals first
    | trivial
    | rw [hpc] at h; cases h

variable [DecidableEq γ]

section Kept

variable {c : γ} {s s' : Pool n γ φ} {l : PoolLabel n γ φ}

/-- A worker that has exited takes no step. -/
theorem exited_kept (hs : pool_step s l = some s') {w : Fin n}
    (h : (s.workers w).pc = .exited) : (s'.workers w).pc = .exited := by
  rcases pool_step_cases hs with ⟨v, o, x, rfl, hw⟩ | ⟨d, res, y, -, -, hc⟩
  · have hwv : w ≠ v := by
      rintro rfl
      have hs : worker_step w o s = some s' := hs
      unfold worker_step at hs
      simp only [h] at hs
      cases hs
    rw [hw.other hwv]
    exact h
  · rw [hc.workers]
    exact h

theorem destroyed_kept (hs : pool_step s l = some s') (h : s.tpool_queue_mutex = .destroyed) :
    s'.tpool_queue_mutex = .destroyed := by
  obtain ⟨t, res, -, hturn, -⟩ := pool_step_turns hs
  have hmove := hturn.move
  rw [h] at hmove
  exact hmove.of_destroyed

/-- No thread can push, as none holds the mutex. -/
theorem Closed.step (h : Closed s) (hsound : Sound s) (hs : pool_step s l = some s') :
    Closed s' := by
  refine ⟨fun w => exited_kept hs (h.exited w), ?_, destroyed_kept hs h.mutex⟩
  rcases pool_step_cases hs with ⟨w, o, x, -, hw⟩ | ⟨d, res, y, -, -, hc⟩
  · exact hw.tasks.queue_nil h.queue
  · refine (hc.tasks.queue_nil h.queue).resolve_right fun hpc => ?_
    have hin : s'.inQueue (.client d) := by
      rw [Pool.inQueue, hc.self, hpc]
      rfl
    have hheld := (hsound.step hs).queue _ hin
    rw [destroyed_kept hs h.mutex] at hheld
    cases hheld

end Kept

theorem Closing.own_step {c : γ} {s s' : Pool n γ φ} {o : Outcome n} (h : Closing c s)
    (hsound : Sound s) (hs : client_step c o s = some s') : Closing c s' := by
  by_cases hout : (s'.clients c).pc.inDestroy = false
  · exact closing_of_out hout
  obtain ⟨y, hc⟩ := client_step_cases hs
  have hin : (s.clients c).pc.inDestroy = true := by
    rw [hc.self] at hout
    exact (hc.destroys (Bool.eq_true_of_not_eq_false hout)).resolve_right (client_open hs)
  have hclosed : Closed s → Closed s' := fun h => h.step (l := .client c o) hsound hs
  unfold Closing at h
  unfold client_step at hs
  cases hpc : (s.clients c).pc
  all_goals simp only [hpc] at h hs hin
  case stop_lock =>
    obtain ⟨m, -, rfl⟩ := Option.map_eq_some_iff.mp hs
    split
    · simp [Closing]
    · simp [Closing]
  case stop_flag =>
    cases hs
    simp [Closing]
  case stop_broadcast =>
    cases hs
    split
    · simp [Closing]
    · simp [Closing]
  case stop_broadcast_failed =>
    cases hs
    simp [Closing]
  case stop_unlock =>
    split at hs
    · cases hs
      simp [Closing]
    · cases hs
      simp [Closing]
  case stop_join i status =>
    split at hs
    · rename_i hi
      split at hs
      · cases hs
        simp [Closing]
      · split at hs
        · rename_i hexited
          cases hs
          rw [Closing, Pool.goto_self]
          intro hstatus w hw
          rcases Nat.lt_succ_iff_lt_or_eq.mp hw with hlt | heq
          · exact h hstatus w hlt
          · rw [show w = ⟨i, hi⟩ from Fin.ext heq]
            exact hexited
        · cases hs
    · rename_i hi
      split at hs
      · cases hs
        simp [Closing]
      · rename_i hstatus
        cases hs
        rw [Closing, Pool.goto_self]
        exact fun w => h hstatus w (Nat.lt_of_lt_of_le w.isLt (Nat.le_of_not_lt hi))
  case destroy_queue_cond =>
    split at hs
    · cases hs
      rw [Closing, Pool.goto_self]
      exact h
    · cases hs
      simp [Closing]
  case destroy_queue_mutex =>
    obtain ⟨m, hm, rfl⟩ := Option.map_eq_some_iff.mp hs
    rcases Mutex.destroy_eq_some.mp hm with ⟨hr, -, rfl⟩ | ⟨hr, -⟩
    · rw [if_pos hr, Closing, Pool.goto_self]
      exact ⟨h, rfl⟩
    · rw [if_neg hr, Closing, Pool.give_self]
      trivial
  case destroy_queue =>
    cases hs
    rw [Closing, Pool.goto_self]
    exact ⟨h.1, rfl, h.2⟩
  case destroy_active_cond =>
    split at hs
    · cases hs
      rw [Closing, Pool.goto_self]
      exact hclosed h
    · cases hs
      simp [Closing]
  case destroy_active_mutex =>
    obtain ⟨m, -, rfl⟩ := Option.map_eq_some_iff.mp hs
    simp [Closing]
  all_goals cases hin

/-- The steps of the other threads take nothing back. -/
theorem Closing.kept {c : γ} {s s' : Pool n γ φ} {l : PoolLabel n γ φ} (h : Closing c s)
    (hsound : Sound s) (hs : pool_step s l = some s') (hsame : s'.clients c = s.clients c) :
    Closing c s' := by
  unfold Closing at h ⊢
  rw [hsame]
  cases hpc : (s.clients c).pc
  all_goals simp only [hpc] at h ⊢
  case stop_join i status => exact fun hstatus w hw => exited_kept hs (h hstatus w hw)
  case destroy_queue_cond => exact fun w => exited_kept hs (h w)
  case destroy_queue_mutex => exact fun w => exited_kept hs (h w)
  case destroy_queue => exact ⟨fun w => exited_kept hs (h.1 w), destroyed_kept hs h.2⟩
  case destroy_active_cond => exact h.step hsound hs
  case destroy_active_mutex => exact h.step hsound hs

theorem Closing.step {c : γ} {s s' : Pool n γ φ} {l : PoolLabel n γ φ} (h : Closing c s)
    (hsound : Sound s) (hs : pool_step s l = some s') : Closing c s' := by
  by_cases hcall : ∃ call, l = .call c call
  · obtain ⟨call, rfl⟩ := hcall
    obtain ⟨-, rfl⟩ := call_step_cases hs
    cases call <;> simp [Closing, Call.start]
  by_cases hby : l.by c
  · obtain ⟨o, rfl⟩ := hby.label
    exact h.own_step hsound hs
  · exact h.kept hsound hs (clients_of_other hs hby fun call hl => hcall ⟨call, hl⟩)

/-- In every run, whatever the pthread calls return. -/
theorem closing_of_run {s : Pool n γ φ} {ls : List (PoolLabel n γ φ)}
    (hr : pool_machine.run new_pool ls = some s) (c : γ) : Sound s ∧ Closing c s := by
  refine machine.Machine.run_invariant (P := fun s => Sound s ∧ Closing c s)
    (C := fun _ _ => True) ?_ ⟨sound_new, closing_of_out rfl⟩
    (machine.Machine.meets_of_all (fun _ _ => trivial) _ _) hr
  rintro s l s' ⟨hsound, hclosing⟩ - hs
  exact ⟨hsound.step hs, hclosing.step hsound hs⟩

/-- A step of the call stays in it, or returns, and with `COIN_SUCCESS` only from its last
point. -/
theorem destroy_returns {c : γ} {s s' : Pool n γ φ} {o : Outcome n}
    (hs : client_step c o s = some s') (hin : (s.clients c).pc.inDestroy = true) :
    (s'.clients c).pc.inDestroy = true ∨ (s'.clients c).pc = .idle ∧
      ((s'.clients c).status = .COIN_SUCCESS → (s.clients c).pc = .destroy_active_mutex) := by
  unfold client_step at hs
  cases hpc : (s.clients c).pc
  all_goals simp only [hpc] at hs hin
  case stop_lock =>
    obtain ⟨m, -, rfl⟩ := Option.map_eq_some_iff.mp hs
    split <;> simp [client_pc.inDestroy]
  case stop_flag =>
    cases hs
    simp [client_pc.inDestroy]
  case stop_broadcast =>
    cases hs
    split <;> simp [client_pc.inDestroy]
  case stop_broadcast_failed =>
    cases hs
    simp
  case stop_join i status =>
    split at hs
    · split at hs
      · cases hs
        simp [client_pc.inDestroy]
      · split at hs <;> cases hs
        simp [client_pc.inDestroy]
    · split at hs
      · rename_i hstatus
        cases hs
        simp [hstatus]
      · cases hs
        simp [client_pc.inDestroy]
  case destroy_queue =>
    cases hs
    simp [client_pc.inDestroy]
  case destroy_queue_mutex =>
    obtain ⟨m, -, rfl⟩ := Option.map_eq_some_iff.mp hs
    split <;> simp [client_pc.inDestroy]
  case destroy_active_mutex =>
    obtain ⟨m, -, rfl⟩ := Option.map_eq_some_iff.mp hs
    simp
  case stop_unlock => split at hs <;> cases hs <;> simp [client_pc.inDestroy]
  case destroy_queue_cond => split at hs <;> cases hs <;> simp [client_pc.inDestroy]
  case destroy_active_cond => split at hs <;> cases hs <;> simp [client_pc.inDestroy]
  all_goals cases hin

/-! ## A call that returns -/

/-- The thread is in its call, or the call has returned. -/
def Returning (c : γ) (s : Pool n γ φ) : Prop :=
  (s.clients c).pc.inDestroy = true ∨
    (s.clients c).pc = .idle ∧ ((s.clients c).status = .COIN_SUCCESS → Closed s)

theorem Returning.step {c : γ} {s s' : Pool n γ φ} {l : PoolLabel n γ φ} (h : Returning c s)
    (hsound : Sound s) (hclosing : Closing c s) (hcall : ∀ call, l ≠ .call c call)
    (hs : pool_step s l = some s') : Returning c s' := by
  unfold Returning at h ⊢
  by_cases hby : l.by c
  · obtain ⟨o, rfl⟩ := hby.label
    have hown : client_step c o s = some s' := hs
    have hin := h.resolve_right fun hreturned => client_open hown hreturned.1
    rcases destroy_returns hown hin with hin' | ⟨hidle, hlast⟩
    · exact Or.inl hin'
    · refine Or.inr ⟨hidle, fun hsuccess => ?_⟩
      rw [Closing, hlast hsuccess] at hclosing
      exact Closed.step hclosing hsound hs
  · rw [clients_of_other hs hby hcall]
    rcases h with hin | ⟨hidle, hclosed⟩
    · exact Or.inl hin
    · exact Or.inr ⟨hidle, fun hsuccess => (hclosed hsuccess).step hsound hs⟩

/-- A run whose pthread calls succeed, with a call of `coin_tpool_destroy` that has returned
`COIN_SUCCESS` as the last call of its thread. -/
structure DestroyRun (c : γ) (ls : List (PoolLabel n γ φ)) (after : Pool n γ φ) : Prop where
  ok : ∀ l ∈ ls, l.Ok
  run : pool_machine.run new_pool ls = some after
  call : ∃ earlier during, ls = earlier ++ .call c .destroy :: during ∧
    ∀ call, PoolLabel.call c call ∉ during
  idle : (after.clients c).pc = .idle
  success : (after.clients c).status = .COIN_SUCCESS

theorem DestroyRun.closed {c : γ} {ls : List (PoolLabel n γ φ)} {after : Pool n γ φ}
    (h : DestroyRun c ls after) : Closed after := by
  obtain ⟨earlier, during, rfl, hown⟩ := h.call
  have hr := h.run
  rw [machine.Machine.run_append] at hr
  obtain ⟨before, hbefore, hr⟩ := Option.bind_eq_some_iff.mp hr
  obtain ⟨s, hs, hr⟩ := pool_machine.run_cons.mp hr
  have hs : pool_step before (.call c .destroy) = some s := hs
  obtain ⟨hsound, hclosing⟩ := closing_of_run hbefore c
  have hstart : Returning c s := by
    obtain ⟨-, rfl⟩ := call_step_cases hs
    exact Or.inl (by simp [Call.start, client_pc.inDestroy])
  have hother : ∀ l ∈ during, ∀ call, l ≠ .call c call := by
    rintro l hl call rfl
    exact hown call hl
  have hend : Sound after ∧ Closing c after ∧ Returning c after := by
    refine machine.Machine.run_invariant (P := fun s => Sound s ∧ Closing c s ∧ Returning c s)
      (C := fun _ l => ∀ call, l ≠ .call c call) ?_
      ⟨hsound.step hs, hclosing.step hsound hs, hstart⟩
      (machine.Machine.meets_of_mem hother) hr
    rintro t l t' ⟨hsound, hclosing, hreturning⟩ hcall ht
    exact ⟨hsound.step ht, hclosing.step hsound ht, hreturning.step hsound hclosing hcall ht⟩
  rcases hend.2.2 with hin | ⟨-, hclosed⟩
  · rw [h.idle] at hin
    cases hin
  · exact hclosed h.success

/-! ## The arguments of the tasks -/

/-- The calls of `free_arg_func`, each with its task. A worker makes the call right before it
frees the task object, and `coin_queue_destroy` makes none. -/
def free_arg_calls (s : Pool n γ φ) : List (coin_task_t φ) := s.freed.filter fun t => t.free_arg

/-- The argument of every accepted task that has a `free_arg_func` is released exactly once. -/
def ReleasedOnce [DecidableEq φ] (s : Pool n γ φ) : Prop :=
  ∀ t ∈ s.pushed, t.free_arg = true → (free_arg_calls s).count t = 1

/-- No task of a list has a `free_arg_func`. -/
def NoneOwned (ts : List (coin_task_t φ)) : Prop := ∀ t ∈ ts, t.free_arg = false

/-- When `coin_queue_destroy` drops the queue, no task in it has a `free_arg_func`. -/
def DropsNoOwned (s : Pool n γ φ) (l : PoolLabel n γ φ) : Prop :=
  ∀ c o, l = .client c o → (s.clients c).pc = .destroy_queue → NoneOwned s.p_work_queue

theorem noneOwned_append {ts us : List (coin_task_t φ)} :
    NoneOwned (ts ++ us) ↔ NoneOwned ts ∧ NoneOwned us := by
  simp [NoneOwned, or_imp, forall_and]

theorem dropped_step {s s' : Pool n γ φ} {l : PoolLabel n γ φ} (hs : pool_step s l = some s') :
    NoneOwned s'.dropped ↔ NoneOwned s.dropped ∧ DropsNoOwned s l := by
  by_cases hdrop : ∃ c o, l = .client c o ∧ (s.clients c).pc = .destroy_queue
  · obtain ⟨c, o, rfl, hpc⟩ := hdrop
    have hs : client_step c o s = some s' := hs
    unfold client_step at hs
    simp only [hpc] at hs
    cases hs
    have hcond : DropsNoOwned s (.client c o) ↔ NoneOwned s.p_work_queue := by
      refine ⟨fun h => h c o rfl hpc, ?_⟩
      rintro h d o' ⟨⟩ -
      exact h
    rw [hcond]
    exact noneOwned_append
  · have hcond : DropsNoOwned s l := fun c o hl hpc => absurd ⟨c, o, hl, hpc⟩ hdrop
    have hsame : s'.dropped = s.dropped := by
      cases l with
      | worker w o =>
        obtain ⟨x, hw⟩ := worker_step_cases hs
        exact hw.tasks.dropped
      | client c o =>
        obtain ⟨y, hc⟩ := client_step_cases hs
        exact hc.tasks.dropped fun hpc => hdrop ⟨c, o, rfl, hpc⟩
      | call c call =>
        obtain ⟨-, rfl⟩ := call_step_cases hs
        rfl
    rw [hsame]
    exact (and_iff_left hcond).symm

theorem dropped_run {ls : List (PoolLabel n γ φ)} : ∀ {s after : Pool n γ φ},
    pool_machine.run s ls = some after →
    (NoneOwned after.dropped ↔
      NoneOwned s.dropped ∧ pool_machine.Meets DropsNoOwned s ls) := by
  induction ls with
  | nil =>
    intro s after hr
    cases hr
    simp
  | cons l ls ih =>
    intro s after hr
    obtain ⟨t, ht, hr⟩ := pool_machine.run_cons.mp hr
    rw [ih hr, dropped_step ht, machine.Machine.meets_cons_of_step ht, and_assoc]

omit [DecidableEq γ] in
/-- The counts of a task when the pool is closed: a worker has freed it, or it was dropped. -/
theorem Closed.count [DecidableEq φ] {s : Pool n γ φ} (h : Closed s) (hp : Placed s)
    {t : coin_task_t φ} (ht : t ∈ s.pushed) : s.dropped.count t + s.freed.count t = 1 := by
  have hone := (hp.counts ht).1
  have hnone : total (fun x => (holds x).count t) s.workers = 0 := by
    refine total_zero fun w => ?_
    have hleft := hp.left w (by rw [h.exited w]; rfl)
    rw [count_holds, hleft]
    rfl
  rw [h.queue, hnone] at hone
  simpa using hone

/-- Every owned argument is released exactly once if and only if no task with a `free_arg_func` is
in the queue when `coin_queue_destroy` drops it. -/
theorem each_owned_argument_is_released_once_iff_none_is_dropped [DecidableEq φ] {c : γ}
    {ls : List (PoolLabel n γ φ)} {after : Pool n γ φ} (h : DestroyRun c ls after) :
    ReleasedOnce after ↔ pool_machine.Meets DropsNoOwned new_pool ls := by
  have hplaced := placed_of_reachable (okReachable_of_run ls h.ok h.run)
  have hclosed := h.closed
  have hmeets : NoneOwned after.dropped ↔ pool_machine.Meets DropsNoOwned new_pool ls := by
    rw [dropped_run h.run]
    exact and_iff_right nofun
  rw [← hmeets]
  constructor
  · intro hreleased t ht
    by_contra howned
    have howned := Bool.eq_true_of_not_eq_false howned
    have hpushed : t ∈ after.pushed := by
      rw [show after.pushed = _ from hplaced.ordered.order]
      exact List.mem_append_right _ ht
    have hfreed := hreleased t hpushed howned
    rw [free_arg_calls, List.count_filter howned] at hfreed
    have hone := hclosed.count hplaced hpushed
    have hdropped := List.count_pos_iff.mpr ht
    omega
  · intro hnone t hpushed howned
    have hdropped : after.dropped.count t = 0 := by
      refine List.count_eq_zero.mpr fun ht => ?_
      rw [hnone t ht] at howned
      cases howned
    rw [free_arg_calls, List.count_filter howned]
    have hone := hclosed.count hplaced hpushed
    omega

/-- One worker, which has taken some steps since the first submission when the pool is destroyed.
The argument of the one task has a `free_arg_func`. -/
def destroy_labels (steps : Nat) : List (PoolLabel 1 Unit Unit) :=
  (.call () (.submit () true) :: List.replicate 5 (.client () {})) ++ work_labels steps ++
    .call () .destroy :: (List.replicate 4 (.client () {}) ++ work_labels 7 ++
      List.replicate 7 (.client () {}))

theorem destroyRun_of_run (steps : Nat) {after : Pool 1 Unit Unit}
    (hr : pool_machine.run new_pool (destroy_labels steps) = some after)
    (hidle : (after.clients ()).pc = .idle)
    (hsuccess : (after.clients ()).status = .COIN_SUCCESS) :
    DestroyRun () (destroy_labels steps) after where
  ok l hl := by
    simp only [destroy_labels, work_labels, List.mem_append, List.mem_cons, List.mem_replicate] at hl
    rcases hl with ((rfl | ⟨-, rfl⟩) | ⟨-, rfl⟩) | rfl | (⟨-, rfl⟩ | ⟨-, rfl⟩) | ⟨-, rfl⟩
    all_goals trivial
  run := hr
  call := ⟨_, _, rfl, by simp [work_labels]⟩
  idle := hidle
  success := hsuccess

/-- The worker executes the task and frees its argument before the destruction. -/
theorem an_executed_task_is_released_once :
    ∃ after : Pool 1 Unit Unit, DestroyRun () (destroy_labels 16) after ∧
      after.pushed = [⟨0, (), true⟩] ∧ ReleasedOnce after := by
  let after : Pool 1 Unit Unit := (pool_machine.run new_pool (destroy_labels 16)).get rfl
  have hr : pool_machine.run new_pool (destroy_labels 16) = some after := (Option.some_get _).symm
  have hrun : DestroyRun () (destroy_labels 16) after := destroyRun_of_run 16 hr rfl rfl
  have hmeets := ((dropped_run hr).mp (by exact nofun)).2
  exact ⟨after, hrun, rfl,
    (each_owned_argument_is_released_once_iff_none_is_dropped hrun).mpr hmeets⟩

/-- The task is in the queue when the flag is set: it is dropped, and its argument is not
released. -/
theorem a_dropped_task_is_not_released :
    ¬ ∀ (ls : List (PoolLabel 1 Unit Unit)) (after : Pool 1 Unit Unit),
      DestroyRun () ls after → ReleasedOnce after := by
  intro h
  let after : Pool 1 Unit Unit := (pool_machine.run new_pool (destroy_labels 0)).get rfl
  have hr : pool_machine.run new_pool (destroy_labels 0) = some after := (Option.some_get _).symm
  have hcount := h _ after (destroyRun_of_run 0 hr rfl rfl) ⟨0, (), true⟩
    (List.mem_singleton_self _) rfl
  have hnone : (free_arg_calls after).count ⟨0, (), true⟩ = 0 := rfl
  rw [hnone] at hcount
  cases hcount

end pingpong.concurinc
