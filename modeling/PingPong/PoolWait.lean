-- What `coin_tpool_wait` knows of the pool at each of its points, and when no
-- worker begins a task anymore. It holds in any run, also one whose calls fail.
import PingPong.PoolPlaces

namespace pingpong.concurinc

open mutex tally

variable {n : Nat} {γ φ : Type}

/-! ## A pool with nothing to do -/

/-- A worker has popped a task and not finished it. -/
def Phase.unfinished : Phase → Bool
  | .taken | .counted | .ran => true
  | .idle | .done | .leaving => false

/-- No task is in the queue or with a worker that goes on with it. -/
def Quiet (s : Pool n γ φ) : Prop :=
  s.p_work_queue = [] ∧ ∀ w, (s.workers w).pc.phase.unfinished = false

/-- The empty queue was seen, all tasks are counted, and none is active. -/
theorem quiet_of_counts {s : Pool n γ φ} (hcount : total counts s.workers ≤ 0)
    (hqueue : s.p_work_queue = []) (htaken : ∀ w, (s.workers w).pc.phase ≠ .taken) : Quiet s := by
  refine ⟨hqueue, fun w => ?_⟩
  have hw := Nat.le_trans (share_le_total counts s.workers w) hcount
  have ht := htaken w
  unfold counts at hw
  generalize (s.workers w).pc.phase = p at hw ht
  cases p with
  | taken => exact absurd rfl ht
  | counted => cases hw
  | ran => cases hw
  | _ => rfl

/-- A worker that finds no task at its pop does not begin one. -/
theorem WorkerMove.none_begun {res : Int} {x x' : Worker φ} {d d' : Tasks φ}
    (h : WorkerMove res x x' d d') (hpop : x.pc = .pop → d.queue = [])
    (hx : x.pc.phase.unfinished = false) :
    d'.queue = d.queue ∧ x'.pc.phase.unfinished = false := by
  cases h with
  | quiet hphase =>
    refine ⟨rfl, ?_⟩
    rcases hphase with hp | hp
    · rw [hp]
      exact hx
    · rw [hp]
      rfl
  | pop t q hpc hphase hq => exact absurd (hq.symm.trans (hpop hpc)) nofun
  | inc hpc =>
    rw [hpc] at hx
    cases hx
  | run hpc =>
    rw [hpc] at hx
    cases hx
  | free hpc =>
    rw [hpc] at hx
    cases hx
  | dec hpc hphase =>
    refine ⟨rfl, ?_⟩
    rw [hphase]
    rfl

/-- No worker has a task that it has not finished, and none takes one: the queue is empty, or the
flag is set and no worker is at its pop. -/
def Settled (s : Pool n γ φ) : Prop :=
  (∀ w, (s.workers w).pc.phase.unfinished = false) ∧
  (s.p_work_queue = [] ∨ (s.b_shutdown = true ∧ ∀ w, (s.workers w).pc ≠ .pop))

instance [DecidableEq φ] (s : Pool n γ φ) : Decidable (Settled s) :=
  inferInstanceAs (Decidable (_ ∧ (_ ∨ _)))

theorem Quiet.settled {s : Pool n γ φ} (h : Quiet s) : Settled s := ⟨h.2, Or.inl h.1⟩

variable [DecidableEq γ]

theorem Quiet.worker_step {w : Fin n} {res : Int} {x : Worker φ} {s s' : Pool n γ φ}
    (h : Quiet s) (hw : WorkerStep w res (s.workers w) x s s') : Quiet s' := by
  obtain ⟨hq, hx⟩ := hw.tasks.none_begun (fun _ => h.1) (h.2 w)
  exact ⟨hq.trans h.1, hw.forall_workers (P := fun x => x.pc.phase.unfinished = false) h.2 hx⟩

theorem Settled.worker_step {w : Fin n} {res : Int} {x : Worker φ} {s s' : Pool n γ φ}
    (h : Settled s) (hw : WorkerStep w res (s.workers w) x s s') : Settled s' := by
  obtain ⟨hdone, hempty | ⟨hflag, hpop⟩⟩ := h
  · have hquiet : Quiet s' := Quiet.worker_step ⟨hempty, hdone⟩ hw
    exact hquiet.settled
  · obtain ⟨-, hx⟩ := hw.tasks.none_begun (fun hp => absurd hp (hpop w)) (hdone w)
    have hflag' : s'.b_shutdown = true := by
      rcases hw.shutdown with hs | ⟨hs, -⟩
      · rw [hs]
        exact hflag
      · exact hs
    refine ⟨hw.forall_workers (P := fun x => x.pc.phase.unfinished = false) hdone hx,
      Or.inr ⟨hflag', hw.forall_workers (P := fun x => x.pc ≠ .pop) hpop fun hp => ?_⟩⟩
    rw [hw.to_pop hp] at hflag'
    cases hflag'

/-- A client that is in no submission leaves the workers without a task. -/
theorem Settled.client_step {c : γ} {res : Int} {y : Client φ} {s s' : Pool n γ φ}
    (h : Settled s) (hsubmits : (s.clients c).pc.submits = none)
    (hc : ClientStep c res (s.clients c) y s s') : Settled s' := by
  obtain ⟨hdone, hrest⟩ := h
  have hqueue : s'.p_work_queue = s.p_work_queue ∨ s'.p_work_queue = [] :=
    (hc.tasks.queue hsubmits).imp_right And.right
  refine ⟨by rw [hc.workers]; exact hdone, ?_⟩
  rcases hrest with hempty | ⟨hflag, hpop⟩
  · rcases hqueue with hq | hq
    · exact Or.inl (hq.trans hempty)
    · exact Or.inl hq
  · refine Or.inr ⟨?_, by rw [hc.workers]; exact hpop⟩
    rcases hc.shutdown with hs | ⟨hs, -⟩
    · rw [hs]
      exact hflag
    · exact hs

/-! ## The points of the waiting thread -/

/-- What the thread knows. At its first read of the size no task is active, and from there to
the return the pool has nothing to do. -/
def Waiting (c : γ) (s : Pool n γ φ) : Prop :=
  match (s.clients c).pc with
  | .wait_lock_active | .wait_check_active | .wait_blocked | .wait_cond_failed
  | .wait_unlock_again => True
  | .wait_check_size => s.active_tasks = 0
  | .wait_unlock_active | .wait_lock_queue | .wait_read_size | .wait_unlock_queue _ => Quiet s
  | .idle => (s.clients c).status = .COIN_SUCCESS → Quiet s
  | _ => False

/-- When the waiting thread sees an empty queue, no worker is between its `coin_queue_pop` and
its count up of `active_tasks`. -/
def NoneTaken (c : γ) (s : Pool n γ φ) : Prop :=
  (s.clients c).pc = .wait_check_size → s.p_work_queue = [] →
    ∀ w, (s.workers w).pc.phase ≠ .taken

instance [DecidableEq φ] (c : γ) (s : Pool n γ φ) : Decidable (NoneTaken c s) :=
  inferInstanceAs (Decidable (_ → _ → _))

theorem Waiting.worker_step {c : γ} {w : Fin n} {res : Int} {x : Worker φ} {s s' : Pool n γ φ}
    (h : Waiting c s) (hsound : Sound s) (hw : WorkerStep w res (s.workers w) x s s') :
    Waiting c s' := by
  unfold Waiting at h ⊢
  rw [hw.clients]
  cases hpc : (s.clients c).pc with
  | wait_check_size =>
    rw [hpc] at h
    -- the thread is under the mutex, so no worker changes the count
    have hme : s.inActive (.client c) := by
      show (s.clients c).pc.inActive = true
      rw [hpc]
      rfl
    have hout : (s.workers w).pc.inActive ≠ true := by
      intro hin
      have heq : Thread.worker w = Thread.client c :=
        hsound.active.unique (t := .worker w) (u := .client c) hin hme
      cases heq
    have hactive : s'.active_tasks = s.active_tasks := hw.tasks.active hout
    exact hactive.trans h
  | wait_unlock_active =>
    rw [hpc] at h
    exact h.worker_step hw
  | wait_lock_queue =>
    rw [hpc] at h
    exact h.worker_step hw
  | wait_read_size =>
    rw [hpc] at h
    exact h.worker_step hw
  | wait_unlock_queue =>
    rw [hpc] at h
    exact h.worker_step hw
  | idle =>
    rw [hpc] at h
    exact fun hst => (h hst).worker_step hw
  | _ =>
    rw [hpc] at h
    exact h

/-- What the new record of the waiting thread asks for. -/
theorem waiting_iff {c : γ} {s s' : Pool n γ φ} {y : Client φ}
    (h : s'.clients = Function.update s.clients c y) :
    Waiting c s' ↔ match y.pc with
      | .wait_lock_active | .wait_check_active | .wait_blocked | .wait_cond_failed
      | .wait_unlock_again => True
      | .wait_check_size => s'.active_tasks = 0
      | .wait_unlock_active | .wait_lock_queue | .wait_read_size | .wait_unlock_queue _ => Quiet s'
      | .idle => y.status = .COIN_SUCCESS → Quiet s'
      | _ => False := by
  unfold Waiting
  rw [h, Function.update_self]

theorem waiting_start (c : γ) (s : Pool n γ φ) : Waiting c (s.goto c .wait_lock_active) :=
  (waiting_iff (s := s) rfl).mpr trivial

/-- A call that fails promises nothing. -/
theorem waiting_of_failure {c : γ} {s s' : Pool n γ φ} {status : coin_status_t}
    (h : s'.clients = Function.update s.clients c ⟨.idle, status⟩)
    (hne : status ≠ .COIN_SUCCESS) : Waiting c s' :=
  (waiting_iff h).mpr fun he => absurd he hne

theorem Waiting.own_step {c : γ} {o : Outcome n} {s s' : Pool n γ φ} (h : Waiting c s)
    (hsound : Sound s) (htaken : NoneTaken c s) (hs : client_step c o s = some s') :
    Waiting c s' := by
  unfold Waiting at h
  unfold NoneTaken at htaken
  unfold client_step at hs
  cases hpc : (s.clients c).pc with
  | idle =>
    rw [hpc] at hs
    cases hs
  | wait_lock_active =>
    rw [hpc] at hs
    obtain ⟨m, -, rfl⟩ := Option.map_eq_some_iff.mp hs
    split
    · exact (waiting_iff rfl).mpr trivial
    · exact waiting_of_failure rfl nofun
  | wait_check_active =>
    rw [hpc] at hs
    simp only at hs
    split at hs
    · split at hs
      · cases hs
        exact (waiting_iff rfl).mpr trivial
      · cases hs
        exact (waiting_iff rfl).mpr trivial
    · rename_i hzero
      cases hs
      exact (waiting_iff rfl).mpr (Nat.eq_zero_of_not_pos hzero)
  | wait_blocked =>
    rw [hpc] at hs
    simp only at hs
    split at hs
    · cases hs
    · obtain ⟨m, -, rfl⟩ := Option.map_eq_some_iff.mp hs
      split
      · exact (waiting_iff rfl).mpr trivial
      · exact (waiting_iff rfl).mpr trivial
  | wait_cond_failed =>
    rw [hpc] at hs
    cases hs
    exact waiting_of_failure rfl nofun
  | wait_check_size =>
    rw [hpc] at hs h
    cases hs
    split
    · exact (waiting_iff rfl).mpr trivial
    · rename_i hempty
      have hqueue : s.p_work_queue = [] :=
        List.eq_nil_of_length_eq_zero (Nat.eq_zero_of_not_pos hempty)
      have hcount : total counts s.workers ≤ 0 := Nat.le_trans hsound.counted (Nat.le_of_eq h)
      exact (waiting_iff rfl).mpr (quiet_of_counts hcount hqueue (htaken hpc hqueue))
  | wait_unlock_again =>
    rw [hpc] at hs
    simp only at hs
    split at hs
    · cases hs
      exact (waiting_iff rfl).mpr trivial
    · cases hs
      exact waiting_of_failure rfl nofun
  | wait_unlock_active =>
    rw [hpc] at hs h
    simp only at hs
    split at hs
    · cases hs
      exact (waiting_iff rfl).mpr h
    · cases hs
      exact waiting_of_failure rfl nofun
  | wait_lock_queue =>
    rw [hpc] at hs h
    obtain ⟨m, -, rfl⟩ := Option.map_eq_some_iff.mp hs
    split
    · exact (waiting_iff rfl).mpr h
    · exact waiting_of_failure rfl nofun
  | wait_read_size =>
    rw [hpc] at hs h
    cases hs
    exact (waiting_iff rfl).mpr h
  | wait_unlock_queue b_isempty =>
    rw [hpc] at hs h
    simp only at hs
    split at hs
    · cases hs
      exact (waiting_iff rfl).mpr fun _ => h
    · split at hs
      · cases hs
        exact (waiting_iff rfl).mpr trivial
      · cases hs
        exact waiting_of_failure rfl nofun
  | _ =>
    rw [hpc] at h
    exact h.elim

/-! ## A whole call -/

/-- The steps during a call of `c`: of the workers and of `c`, and the pthread calls succeed. -/
def PoolLabel.DuringCall (c : γ) : PoolLabel n γ φ → Prop
  | .worker _ o => o.res = 0
  | .client d o => d = c ∧ o.res = 0
  | .call _ _ => False

/-- What holds during a call of `coin_tpool_wait` before which `tasks` were submitted. -/
structure DuringWait (tasks : List (coin_task_t φ)) (c : γ) (s : Pool n γ φ) : Prop where
  placed : Placed s
  waiting : Waiting c s
  pushed : s.pushed = tasks
  kept : (s.clients c).pc = .idle → (s.clients c).status = .COIN_SUCCESS → s.dropped = []

/-- A thread in the call neither pushes a task nor drops the queue. -/
theorem Waiting.tasks_kept {c : γ} {res : Int} {y : Client φ} {s s' : Pool n γ φ}
    (h : Waiting c s) (hc : ClientStep c res (s.clients c) y s s') : s'.tasks = s.tasks := by
  have hmove := hc.tasks
  unfold Waiting at h
  generalize s'.tasks = d' at hmove
  cases hmove with
  | quiet => rfl
  | push work free_arg hpc =>
    rw [hpc] at h
    exact h.elim
  | drop hpc =>
    rw [hpc] at h
    exact h.elim

theorem DuringWait.own_step {tasks : List (coin_task_t φ)} {c : γ} {o : Outcome n}
    {s s' : Pool n γ φ} (h : DuringWait tasks c s) (htaken : NoneTaken c s)
    (hs : client_step c o s = some s') : DuringWait tasks c s' := by
  have hsound : Sound s' := h.placed.toSound.step (l := .client c o) hs
  obtain ⟨y, hc⟩ := client_step_cases hs
  have htasks := h.waiting.tasks_kept hc
  have hpushed : s'.pushed = s.pushed := congrArg Tasks.pushed htasks
  have hdropped : s'.dropped = s.dropped := congrArg Tasks.dropped htasks
  refine ⟨h.placed.client_step hsound hc, h.waiting.own_step h.placed.toSound htaken hs,
    hpushed.trans h.pushed, fun hidle hsuccess => ?_⟩
  rw [hc.self] at hidle hsuccess
  rw [hdropped]
  rcases hc.succeeds hidle hsuccess with hin | hin
  · -- it returns from under the mutex of the queue, which is not destroyed then
    by_contra hdrop
    have hheld := h.placed.queue (.client c) hin
    rw [(h.placed.emptied hdrop).2] at hheld
    cases hheld
  · have hw := h.waiting
    unfold Waiting at hw
    generalize (s.clients c).pc = pc at hin hw
    cases pc <;> first | exact hw.elim | cases hin

theorem DuringWait.worker_step {tasks : List (coin_task_t φ)} {c : γ} {w : Fin n} {x : Worker φ}
    {s s' : Pool n γ φ} (h : DuringWait tasks c s) (hsound : Sound s')
    (hw : WorkerStep w 0 (s.workers w) x s s') : DuringWait tasks c s' := by
  have hpushed : s'.pushed = s.pushed := hw.tasks.pushed
  have hdropped : s'.dropped = s.dropped := hw.tasks.dropped
  refine ⟨h.placed.worker_step hsound hw, h.waiting.worker_step h.placed.toSound hw,
    hpushed.trans h.pushed, ?_⟩
  rw [hw.clients, hdropped]
  exact h.kept

omit [DecidableEq γ] in
/-- When the call has returned `COIN_SUCCESS`, the workers have executed and freed all tasks. -/
theorem DuringWait.all_done {tasks : List (coin_task_t φ)} {c : γ} {s : Pool n γ φ}
    (h : DuringWait tasks c s) (hidle : (s.clients c).pc = .idle)
    (hsuccess : (s.clients c).status = .COIN_SUCCESS) :
    s.p_work_queue = [] ∧ (∀ w, (s.workers w).p_task = none) ∧ ∀ t ∈ tasks, t ∈ s.ran := by
  have hquiet : Quiet s := by
    have hw := h.waiting
    unfold Waiting at hw
    rw [hidle] at hw
    exact hw hsuccess
  have hnone : ∀ w, (s.workers w).p_task = none := by
    intro w
    have hfit := h.placed.fits w
    have hleft := h.placed.left w
    have hphase := hquiet.2 w
    unfold TaskFits at hfit
    generalize (s.workers w).pc.phase = p at hfit hleft hphase
    cases p with
    | idle => exact hfit
    | done => exact hfit
    | leaving => exact hleft rfl
    | _ => cases hphase
  refine ⟨hquiet.1, hnone, fun t ht => ?_⟩
  have hshared := h.placed.shared
  have horder : s.pushed = s.popped ++ s.p_work_queue ++ s.dropped := h.placed.ordered.order
  rw [h.pushed, hquiet.1, h.kept hidle hsuccess, List.append_nil, List.append_nil] at horder
  have hheld : total holds s.workers = 0 := total_zero fun w => holds_of_none (hnone w)
  have hheldRan : total holdsRan s.workers = 0 := total_zero fun w => by
    unfold holdsRan
    rw [holds_of_none (hnone w), ite_self]
  have hsame : (↑s.ran : Multiset (coin_task_t φ)) = ↑s.popped := by
    have hpopped := hshared.1
    have hran := hshared.2
    rw [hheld] at hpopped
    rw [hheldRan] at hran
    exact hran.trans hpopped.symm
  have hmem : t ∈ (↑s.ran : Multiset (coin_task_t φ)) := by
    rw [hsame, Multiset.mem_coe, ← horder]
    exact ht
  exact Multiset.mem_coe.mp hmem

end pingpong.concurinc
