-- The laws of the thread pool: where each task object is, and when
-- `coin_tpool_wait` has waited for all of them.
import PingPong.PoolWait

namespace pingpong.concurinc

open mutex tally

variable {n : Nat} {γ φ : Type}

/-! ## Each task object is in one place -/

/-- Where an accepted task object can be: in the queue, with a worker, executed and freed, or
freed by `coin_queue_destroy`. -/
inductive Place (n : Nat)
  | queued
  | held (w : Fin n)
  | done
  | dropped
  deriving DecidableEq, Repr

/-- The object is in the place, and was executed and freed as often as this place asks for. A
worker that has the object executes it once before it frees it. -/
def At [DecidableEq φ] (s : Pool n γ φ) (t : coin_task_t φ) : Place n → Prop
  | .queued => s.p_work_queue.count t = 1 ∧ s.ran.count t = 0 ∧ s.freed.count t = 0 ∧
      s.dropped.count t = 0
  | .held w => (s.workers w).p_task = some t ∧
      s.ran.count t = (if (s.workers w).pc.phase = .ran then 1 else 0) ∧
      s.freed.count t = 0 ∧ s.dropped.count t = 0
  | .done => s.ran.count t = 1 ∧ s.freed.count t = 1 ∧ s.dropped.count t = 0
  | .dropped => s.dropped.count t = 1 ∧ s.ran.count t = 0 ∧ s.freed.count t = 0

theorem Tasks.Ordered.nodup {d : Tasks φ} (h : d.Ordered) : d.pushed.Nodup := by
  refine List.Nodup.of_map (fun t => t.id) ?_
  have hid : d.pushed.map (fun t => t.id) = List.range d.pushed.length := by
    apply List.ext_getElem?
    intro i
    rw [List.getElem?_map]
    by_cases hi : i < d.pushed.length
    · have ht := List.getElem?_eq_getElem hi
      rw [List.getElem?_range hi, ht, Option.map_some, h.numbered i _ ht]
    · rw [List.getElem?_eq_none (by omega), List.getElem?_eq_none (by simpa using hi)]
      rfl
  rw [hid]
  exact List.nodup_range

section Places

variable [DecidableEq φ]

theorem count_holds (x : Worker φ) (t : coin_task_t φ) :
    (holds x).count t = if x.p_task = some t then 1 else 0 := by
  unfold holds
  rw [Multiset.coe_count]
  cases x.p_task with
  | none => simp
  | some u => simp [List.count_singleton]

theorem count_holdsRan (x : Worker φ) (t : coin_task_t φ) :
    (holdsRan x).count t = if x.p_task = some t ∧ x.pc.phase = .ran then 1 else 0 := by
  unfold holdsRan
  split
  · rename_i hp
    simp [count_holds, hp]
  · rename_i hp
    simp [hp]

/-- The counts of one object: in the queue, dropped, freed, and with a worker. -/
theorem Placed.counts {s : Pool n γ φ} (h : Placed s) {t : coin_task_t φ} (ht : t ∈ s.pushed) :
    s.p_work_queue.count t + s.dropped.count t + s.freed.count t
      + total (fun x => (holds x).count t) s.workers = 1 ∧
    s.ran.count t = total (fun x => (holdsRan x).count t) s.workers + s.freed.count t := by
  have hone : s.pushed.count t = 1 := List.count_eq_one_of_mem h.ordered.nodup ht
  have horder : s.pushed = s.popped ++ s.p_work_queue ++ s.dropped := h.ordered.order
  rw [horder, List.count_append, List.count_append] at hone
  have hpopped := congrArg (Multiset.count t) h.shared.1
  have hran := congrArg (Multiset.count t) h.shared.2
  rw [Multiset.count_add, count_total, Multiset.coe_count, Multiset.coe_count] at hpopped hran
  have hp : s.popped.count t = _ := hpopped
  have hf : s.tasks.freed.count t = s.freed.count t := rfl
  exact ⟨by omega, hran⟩

theorem Placed.one_place {s : Pool n γ φ} (h : Placed s) {t : coin_task_t φ}
    (ht : t ∈ s.pushed) : ∃! p, At s t p := by
  obtain ⟨hone, hran⟩ := h.counts ht
  by_cases hheld : ∃ w, (s.workers w).p_task = some t
  · obtain ⟨w, hw⟩ := hheld
    have hshare : (holds (s.workers w)).count t = 1 := by rw [count_holds, if_pos hw]
    have hle := share_le_total (fun x => (holds x).count t) s.workers w
    -- no other worker has it, so none of them has executed it
    have hothers : ∀ v, v ≠ w → (s.workers v).p_task ≠ some t := by
      intro v hv hvt
      have hpair := pair_le_total (fun x => (holds x).count t) s.workers hv
      simp only [count_holds, if_pos hvt, if_pos hw] at hpair hone
      omega
    have hsingle : total (fun x => (holdsRan x).count t) s.workers
        = (holdsRan (s.workers w)).count t :=
      total_single fun v hv => by
        rw [count_holdsRan, if_neg fun hc => hothers v hv hc.1]
    rw [hsingle, count_holdsRan] at hran
    refine ⟨.held w, ⟨hw, ?_, by omega, by omega⟩, ?_⟩
    · rw [hran]
      simp only [hw, true_and]
      omega
    · intro p hp
      cases p with
      | queued => exact absurd hp.1 (by omega)
      | held v =>
        by_cases hv : v = w
        · rw [hv]
        · exact absurd hp.1 (hothers v hv)
      | done => exact absurd hp.2.1 (by omega)
      | dropped => exact absurd hp.1 (by omega)
  · have hnone : ∀ w, ¬ (s.workers w).p_task = some t := fun w hw => hheld ⟨w, hw⟩
    have hzero : total (fun x => (holds x).count t) s.workers = 0 :=
      total_zero fun w => by rw [count_holds, if_neg (hnone w)]
    have hzeroRan : total (fun x => (holdsRan x).count t) s.workers = 0 :=
      total_zero fun w => by rw [count_holdsRan, if_neg fun hc => hnone w hc.1]
    rw [hzero] at hone
    rw [hzeroRan] at hran
    have hcases : s.p_work_queue.count t = 1 ∨ s.dropped.count t = 1 ∨ s.freed.count t = 1 := by
      omega
    rcases hcases with hq | hd | hf
    · refine ⟨.queued, ⟨hq, by omega, by omega, by omega⟩, fun p hp => ?_⟩
      cases p with
      | queued => rfl
      | held v => exact absurd hp.1 (hnone v)
      | done => exact absurd hp.2.1 (by omega)
      | dropped => exact absurd hp.1 (by omega)
    · refine ⟨.dropped, ⟨hd, by omega, by omega⟩, fun p hp => ?_⟩
      cases p with
      | queued => exact absurd hp.1 (by omega)
      | held v => exact absurd hp.1 (hnone v)
      | done => exact absurd hp.2.1 (by omega)
      | dropped => rfl
    · refine ⟨.done, ⟨by omega, hf, by omega⟩, fun p hp => ?_⟩
      cases p with
      | queued => exact absurd hp.1 (by omega)
      | held v => exact absurd hp.1 (hnone v)
      | done => rfl
      | dropped => exact absurd hp.1 (by omega)

end Places

/-- Once the flag is set, a step pops no task. -/
theorem Placed.no_pop [DecidableEq γ] {s s' : Pool n γ φ} (h : Placed s)
    (hflag : s.b_shutdown = true) {l : PoolLabel n γ φ} (hs : pool_step s l = some s') :
    s'.popped = s.popped := by
  rcases pool_step_cases hs with ⟨w, o, x, -, hw⟩ | ⟨c, res, y, -, -, hc⟩
  · refine hw.tasks.popped fun hpc => ?_
    rw [h.to_pop w hpc] at hflag
    cases hflag
  · exact hc.tasks.popped

/-- While the pthread calls succeed, the task objects that the pool has accepted are distinct
and each in exactly one place, they leave the queue in the order of their submission, and once
`b_shutdown` is set no worker pops another one. -/
theorem no_task_is_lost_duplicated_or_reordered [DecidableEq γ] [DecidableEq φ]
    {s : Pool n γ φ} (h : OkReachable s) :
    s.pushed.Nodup ∧ (∀ t ∈ s.pushed, ∃! p, At s t p) ∧
    s.pushed = s.popped ++ s.p_work_queue ++ s.dropped ∧
    ∀ l s', pool_step s l = some s' → s.b_shutdown = true → s'.popped = s.popped := by
  have hp := placed_of_reachable h
  exact ⟨hp.ordered.nodup, fun t ht => hp.one_place ht, hp.ordered.order,
    fun l s' hs hflag => hp.no_pop hflag hs⟩

/-- One worker, and the call that submits a task to it. -/
def submit_labels : List (PoolLabel 1 Unit Unit) :=
  .call () (.submit () false) :: List.replicate 5 (.client () {})

/-- The next steps of the worker. -/
def work_labels (steps : Nat) : List (PoolLabel 1 Unit Unit) :=
  List.replicate steps (.worker only_worker {})

/-- A worker that has popped the only task is the one place of it. -/
theorem a_popped_task_is_with_its_worker :
    ∃ s : Pool 1 Unit Unit, OkReachable s ∧ s.pushed = [⟨0, (), false⟩] ∧ s.p_work_queue = [] ∧
      At s ⟨0, (), false⟩ (.held 0) ∧ ∃! p, At s ⟨0, (), false⟩ p := by
  have hreach : OkReachable _ :=
    okReachable_of_run (submit_labels ++ work_labels 4) (by decide) rfl
  refine ⟨_, hreach, rfl, rfl, ⟨rfl, rfl, rfl, rfl⟩, ?_⟩
  exact (no_task_is_lost_duplicated_or_reordered hreach).2.1 _ List.mem_cons_self

/-! ## The barrier -/

/-- What `coin_tpool_wait` promises when it returns `COIN_SUCCESS`: all tasks that were submitted
before it are executed, no worker has a task, and the queue is empty. -/
def AllDone (tasks : List (coin_task_t φ)) (s : Pool n γ φ) : Prop :=
  s.p_work_queue = [] ∧ (∀ w, (s.workers w).p_task = none) ∧ ∀ t ∈ tasks, t ∈ s.ran

/-- A call of `coin_tpool_wait` without a submission during it, and its return. -/
structure WaitCall [DecidableEq γ] (C : Pool n γ φ → PoolLabel n γ φ → Prop) (c : γ)
    (before s : Pool n γ φ) (ls : List (PoolLabel n γ φ)) (after : Pool n γ φ) : Prop where
  reachable : OkReachable before
  call : pool_step before (.call c .wait) = some s
  meets : pool_machine.Meets (fun s l => l.DuringCall c ∧ C s l) s ls
  run : pool_machine.run s ls = some after
  idle : (after.clients c).pc = .idle
  success : (after.clients c).status = .COIN_SUCCESS

/-- Whenever the waiting thread sees an empty queue while it holds `active_tasks_mutex`, no worker
is between its pop and its count up. -/
def NoGap (c : γ) (s : Pool n γ φ) (l : PoolLabel n γ φ) : Prop :=
  (∃ o, l = .client c o) → NoneTaken c s

/-- The call is a barrier in every run in which the waiting thread does not read the size of the
queue while a worker is between its pop and its count up. -/
theorem wait_is_a_barrier_without_a_gap [DecidableEq γ] {c : γ} {before s after : Pool n γ φ}
    {ls : List (PoolLabel n γ φ)} (h : WaitCall (NoGap c) c before s ls after) :
    AllDone before.pushed after := by
  have hstart : DuringWait before.pushed c s := by
    have hplaced := placed_of_reachable (h.reachable.step (l := .call c .wait) trivial h.call)
    obtain ⟨-, rfl⟩ := call_step_cases h.call
    refine ⟨hplaced, waiting_start c before, rfl, fun hidle => ?_⟩
    rw [Pool.goto_self] at hidle
    cases hidle
  have hend : DuringWait before.pushed c after := by
    refine machine.Machine.run_invariant (P := DuringWait before.pushed c) ?_ hstart h.meets h.run
    intro s l s' hd hl hs
    cases l with
    | worker w o =>
      obtain ⟨x, hw⟩ := worker_step_cases hs
      have hres : o.res = 0 := hl.1
      rw [hres] at hw
      exact hd.worker_step (hd.placed.toSound.step (l := .worker w o) hs) hw
    | client d o =>
      obtain ⟨⟨rfl, -⟩, hgap⟩ := hl
      exact hd.own_step (hgap ⟨o, rfl⟩) hs
    | call d call => exact hl.1.elim
  exact hend.all_done h.idle h.success

/-- The pool after its worker has taken some steps with the one task. -/
def after_work (steps : Nat) : Option (Pool 1 Unit Unit) :=
  pool_machine.run new_pool (submit_labels ++ work_labels steps)

/-- The steps of the waiting thread in a call that does not block. -/
def wait_labels : List (PoolLabel 1 Unit Unit) := List.replicate 7 (.client () {})

/-- The worker has executed and freed the task before the call. -/
theorem a_wait_after_the_task_is_a_barrier :
    ∃ before s after : Pool 1 Unit Unit, WaitCall (NoGap ()) () before s wait_labels after ∧
      before.pushed = [⟨0, (), false⟩] ∧ AllDone before.pushed after := by
  let before : Pool 1 Unit Unit := (after_work 16).get rfl
  let s := before.goto () .wait_lock_active
  let after : Pool 1 Unit Unit := (pool_machine.run s wait_labels).get rfl
  have hreach : OkReachable before :=
    okReachable_of_run (submit_labels ++ work_labels 16) (by decide) (Option.some_get _).symm
  -- no step of the waiting thread moves the worker
  have hmeets : pool_machine.Meets (fun s l => l.DuringCall () ∧ NoGap () s l) s wait_labels := by
    refine machine.Machine.meets_of_invariant (C := fun _ l => l = .client () {})
      (P := fun s => ∀ w, (s.workers w).pc.phase ≠ .taken) ?_ ?_ (by decide)
      (machine.Machine.meets_of_mem fun l hl => List.eq_of_mem_replicate hl)
    · rintro s l s' hP rfl hs
      obtain ⟨y, hc⟩ := client_step_cases hs
      rw [hc.workers]
      exact hP
    · rintro s l hP rfl
      exact ⟨⟨rfl, rfl⟩, fun _ _ _ => hP⟩
  have hcall : WaitCall (NoGap ()) () before s wait_labels after :=
    ⟨hreach, rfl, hmeets, (Option.some_get _).symm, rfl, rfl⟩
  exact ⟨before, s, after, hcall, rfl, wait_is_a_barrier_without_a_gap hcall⟩

/-- The worker has popped the task and not counted it up, and the call returns before the task
is executed. -/
theorem a_task_in_the_gap_is_not_waited_for :
    ¬ ∀ (before s after : Pool 1 Unit Unit) (ls : List (PoolLabel 1 Unit Unit)),
      WaitCall (fun _ _ => True) () before s ls after → AllDone before.pushed after := by
  intro h
  let before : Pool 1 Unit Unit := (after_work 6).get rfl
  let s := before.goto () .wait_lock_active
  let after : Pool 1 Unit Unit := (pool_machine.run s wait_labels).get rfl
  have hreach : OkReachable before :=
    okReachable_of_run (submit_labels ++ work_labels 6) (by decide) (Option.some_get _).symm
  have hmeets : pool_machine.Meets (fun _ l => l.DuringCall () ∧ True) s wait_labels := by
    refine machine.Machine.meets_of_mem (D := fun l => PoolLabel.DuringCall () l ∧ True)
      fun l hl => ?_
    rw [List.eq_of_mem_replicate hl]
    exact ⟨⟨rfl, rfl⟩, trivial⟩
  have hdone : AllDone before.pushed after :=
    h before s after wait_labels
      ⟨hreach, rfl, hmeets, (Option.some_get _).symm, rfl, rfl⟩
  have hnone : (after.workers 0).p_task = none := hdone.2.1 0
  have hheld : (after.workers 0).p_task = some ⟨0, (), false⟩ := rfl
  rw [hheld] at hnone
  cases hnone

end pingpong.concurinc
