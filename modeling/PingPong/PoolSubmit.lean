-- The law of `coin_tpool_submit`: what a call has done to the work queue when it returns, next to
-- any other threads, and whether its status says so.
import PingPong.PoolInv

namespace pingpong.concurinc

open mutex

variable {n : Nat} {γ φ : Type}

/-! ## What a call does to the queue -/

/-- The work queue before a step and after it, for some steps. -/
abbrev QueueLog (φ : Type) := List (List (coin_task_t φ) × List (coin_task_t φ))

/-- The tasks, their order and their number are as before. -/
def Untouched (log : QueueLog φ) : Prop := ∀ p ∈ log, p.2 = p.1

/-- One step puts one task object behind the others, and the other steps do nothing. -/
def AppendedOnce (work : φ) (free_arg : Bool) (log : QueueLog φ) : Prop :=
  ∃ before after q id, log = before ++ (q, q ++ [⟨id, work, free_arg⟩]) :: after ∧
    Untouched before ∧ Untouched after

theorem untouched_append {log more : QueueLog φ} (h : Untouched log) (hmore : Untouched more) :
    Untouched (log ++ more) := by
  intro p hp
  rcases List.mem_append.mp hp with hp | hp
  · exact h p hp
  · exact hmore p hp

theorem untouched_same (q : List (coin_task_t φ)) : Untouched [(q, q)] := by
  intro p hp
  rw [List.mem_singleton.mp hp]

theorem AppendedOnce.append {work : φ} {free_arg : Bool} {log more : QueueLog φ}
    (h : AppendedOnce work free_arg log) (hmore : Untouched more) :
    AppendedOnce work free_arg (log ++ more) := by
  obtain ⟨before, after, q, id, rfl, hbefore, hafter⟩ := h
  exact ⟨before, after ++ more, q, id, by simp, hbefore, untouched_append hafter hmore⟩

theorem AppendedOnce.not_untouched {work : φ} {free_arg : Bool} {log : QueueLog φ}
    (h : AppendedOnce work free_arg log) : ¬ Untouched log := by
  obtain ⟨before, after, q, id, rfl, -, -⟩ := h
  intro huntouched
  have hsame := huntouched (q, q ++ [⟨id, work, free_arg⟩]) (by simp)
  exact absurd (congrArg List.length hsame) (by simp)

variable [DecidableEq γ]

/-- What the steps of one thread do to the work queue. -/
def queue_steps (c : γ) : Pool n γ φ → List (PoolLabel n γ φ) → QueueLog φ
  | _, [] => []
  | s, l :: ls => match pool_step s l with
    | none => []
    | some s' => (if l.by c then [(s.p_work_queue, s'.p_work_queue)] else []) ++ queue_steps c s' ls

/-- The signal and the last unlock of the call succeed. -/
def SignalsAndUnlocks (c : γ) (s : Pool n γ φ) (l : PoolLabel n γ φ) : Prop :=
  ∀ o, l = .client c o →
    (s.clients c).pc = .submit_signal ∨ (s.clients c).pc = .submit_unlock → o.res = 0

/-! ## The points of a call -/

/-- What the steps of a call up to some point have done, and if one of them was a signal or an
unlock that has failed. -/
def Story (c : γ) (work : φ) (free_arg : Bool) (s : Pool n γ φ) (log : QueueLog φ)
    (late : Prop) : Prop :=
  match (s.clients c).pc with
  | .submit_alloc w f | .submit_lock w f | .submit_push w f =>
    w = work ∧ f = free_arg ∧ Untouched log ∧ ¬ late
  | .submit_push_failed => Untouched log ∧ ¬ late
  | .submit_signal | .submit_unlock => AppendedOnce work free_arg log ∧ ¬ late
  | .submit_signal_failed => AppendedOnce work free_arg log ∧ late
  | .idle =>
    if (s.clients c).status = .COIN_SUCCESS then AppendedOnce work free_arg log ∧ ¬ late
    else Untouched log ∧ ¬ late ∨ AppendedOnce work free_arg log ∧ late
  | _ => False

theorem Story.own_step {c : γ} {work : φ} {free_arg : Bool} {s s' : Pool n γ φ} {log : QueueLog φ}
    {late : Prop} {o : Outcome n} (h : Story c work free_arg s log late)
    (hs : client_step c o s = some s') :
    Story c work free_arg s' (log ++ [(s.p_work_queue, s'.p_work_queue)])
      (late ∨ ¬ SignalsAndUnlocks c s (.client c o)) := by
  have hearly : (s.clients c).pc ≠ .submit_signal → (s.clients c).pc ≠ .submit_unlock →
      ¬ late → ¬ (late ∨ ¬ SignalsAndUnlocks c s (.client c o)) := by
    rintro h1 h2 hlate (h | h)
    · exact hlate h
    · exact h fun o' _ hpc => absurd hpc (not_or.mpr ⟨h1, h2⟩)
  have hsame := untouched_same s.p_work_queue
  unfold Story at h
  unfold client_step at hs
  cases hpc : (s.clients c).pc with
  | submit_alloc w f =>
    simp only [hpc] at h hs
    obtain ⟨hw, hf, hlog, hlate⟩ := h
    have hlate' := hearly (by simp [hpc]) (by simp [hpc]) hlate
    split at hs
    · cases hs
      simp only [Story, Pool.goto_self]
      exact ⟨hw, hf, untouched_append hlog hsame, hlate'⟩
    · cases hs
      simp only [Story, Pool.give_self]
      exact Or.inl ⟨untouched_append hlog hsame, hlate'⟩
  | submit_lock w f =>
    simp only [hpc] at h hs
    obtain ⟨hw, hf, hlog, hlate⟩ := h
    have hlate' := hearly (by simp [hpc]) (by simp [hpc]) hlate
    obtain ⟨m, -, rfl⟩ := Option.map_eq_some_iff.mp hs
    split
    · simp only [Story, Pool.goto_self]
      exact ⟨hw, hf, untouched_append hlog hsame, hlate'⟩
    · simp only [Story, Pool.give_self]
      exact Or.inl ⟨untouched_append hlog hsame, hlate'⟩
  | submit_push w f =>
    simp only [hpc] at h hs
    obtain ⟨rfl, rfl, hlog, hlate⟩ := h
    have hlate' := hearly (by simp [hpc]) (by simp [hpc]) hlate
    split at hs
    · cases hs
      simp only [Story, Pool.goto_self]
      exact ⟨⟨log, [], s.p_work_queue, s.pushed.length, rfl, hlog, nofun⟩, hlate'⟩
    · cases hs
      simp only [Story, Pool.goto_self]
      exact ⟨untouched_append hlog hsame, hlate'⟩
  | submit_push_failed =>
    simp only [hpc] at h hs
    have hlate' := hearly (by simp [hpc]) (by simp [hpc]) h.2
    cases hs
    simp only [Story, Pool.give_self]
    exact Or.inl ⟨untouched_append h.1 hsame, hlate'⟩
  | submit_signal =>
    simp only [hpc] at h hs
    obtain ⟨waiting, -, rfl⟩ := Option.map_eq_some_iff.mp hs
    by_cases hres : o.res = 0
    · simp only [Story, Pool.goto_self, if_pos hres]
      refine ⟨h.1.append hsame, not_or.mpr ⟨h.2, not_not.mpr ?_⟩⟩
      rintro o' ⟨⟩ -
      exact hres
    · simp only [Story, Pool.goto_self, if_neg hres]
      exact ⟨h.1.append hsame, Or.inr fun hok => hres (hok o rfl (Or.inl hpc))⟩
  | submit_signal_failed =>
    simp only [hpc] at h hs
    cases hs
    simp only [Story, Pool.give_self]
    exact Or.inr ⟨h.1.append hsame, Or.inl h.2⟩
  | submit_unlock =>
    simp only [hpc] at h hs
    cases hs
    by_cases hres : o.res = 0
    · simp only [Story, Pool.give_self, if_pos hres]
      refine ⟨h.1.append hsame, not_or.mpr ⟨h.2, not_not.mpr ?_⟩⟩
      rintro o' ⟨⟩ -
      exact hres
    · simp only [Story, Pool.give_self, if_neg hres]
      exact Or.inr ⟨h.1.append hsame, Or.inr fun hok => hres (hok o rfl (Or.inr hpc))⟩
  | idle =>
    simp only [hpc] at hs
    cases hs
  | _ =>
    simp only [hpc] at h

theorem Story.run {c : γ} {work : φ} {free_arg : Bool} {ls : List (PoolLabel n γ φ)}
    (hown : ∀ call, PoolLabel.call c call ∉ ls) : ∀ {s after : Pool n γ φ} {log : QueueLog φ}
    {late : Prop}, Story c work free_arg s log late → pool_machine.run s ls = some after →
    Story c work free_arg after (log ++ queue_steps c s ls)
      (late ∨ ¬ pool_machine.Meets (SignalsAndUnlocks c) s ls) := by
  induction ls with
  | nil =>
    intro s after log late h hr
    cases hr
    simpa [queue_steps] using h
  | cons l ls ih =>
    intro s after log late h hr
    obtain ⟨t, ht, hr⟩ := pool_machine.run_cons.mp hr
    have ht : pool_step s l = some t := ht
    have hstep : Story c work free_arg t
        (log ++ if l.by c then [(s.p_work_queue, t.p_work_queue)] else [])
        (late ∨ ¬ SignalsAndUnlocks c s l) := by
      by_cases hby : l.by c
      · rw [if_pos hby]
        obtain ⟨o, rfl⟩ := hby.label
        exact h.own_step ht
      · have hok : SignalsAndUnlocks c s l := by
          rintro o rfl
          exact absurd rfl hby
        have hclient := clients_of_other ht hby fun call hl => hown call (hl ▸ List.mem_cons_self)
        rw [if_neg hby, List.append_nil]
        have hlate : (late ∨ ¬ SignalsAndUnlocks c s l) = late := by simp [hok]
        rw [hlate]
        unfold Story
        rw [hclient]
        exact h
    have hrest := ih (fun call hl => hown call (List.mem_cons_of_mem l hl)) hstep hr
    have hlog : queue_steps c s (l :: ls) =
        (if l.by c then [(s.p_work_queue, t.p_work_queue)] else []) ++ queue_steps c t ls := by
      rw [queue_steps, ht]
    have hlate : (late ∨ ¬ pool_machine.Meets (SignalsAndUnlocks c) s (l :: ls)) =
        ((late ∨ ¬ SignalsAndUnlocks c s l) ∨
          ¬ pool_machine.Meets (SignalsAndUnlocks c) t ls) := by
      rw [machine.Machine.meets_cons_of_step ht, not_and_or, or_assoc]
    rw [hlog, hlate, ← List.append_assoc]
    exact hrest

/-! ## A task that is not in the queue -/

/-- No task object has this work, and no call for it is under way but those of the threads
in `except`. -/
structure Unseen (work : φ) (except : γ → Prop) (s : Pool n γ φ) : Prop where
  queue : ∀ t ∈ s.p_work_queue, t.work ≠ work
  held : ∀ w t, (s.workers w).p_task = some t → t.work ≠ work
  ran : ∀ t ∈ s.ran, t.work ≠ work
  calls : ∀ d, ¬ except d → (s.clients d).pc.submits ≠ some work

theorem Unseen.worker_step {work : φ} {except : γ → Prop} {s s' : Pool n γ φ} {w : Fin n}
    {res : Int} {x : Worker φ} (h : Unseen work except s)
    (hw : WorkerStep w res (s.workers w) x s s') : Unseen work except s' := by
  refine ⟨fun t ht => h.queue t (hw.tasks.mem_queue ht), ?_, fun t ht => ?_, ?_⟩
  · refine hw.forall_workers (P := fun x => ∀ t, x.p_task = some t → t.work ≠ work) h.held ?_
    intro t ht
    rcases hw.tasks.took ht with hold | hqueue
    · exact h.held w t hold
    · exact h.queue t hqueue
  · rcases hw.tasks.mem_ran ht with hran | hheld
    · exact h.ran t hran
    · exact h.held w t hheld
  · rw [hw.clients]
    exact h.calls

theorem Unseen.client_step {work : φ} {except : γ → Prop} {s s' : Pool n γ φ} {d : γ}
    {res : Int} {y : Client φ} (h : Unseen work except s)
    (hc : ClientStep d res (s.clients d) y s s') (hopen : (s.clients d).pc ≠ .idle)
    (hown : except d → s'.p_work_queue = s.p_work_queue) : Unseen work except s' := by
  refine ⟨fun t ht => ?_, ?_, fun t ht => ?_, fun e he => ?_⟩
  · by_cases hexcept : except d
    · rw [hown hexcept] at ht
      exact h.queue t ht
    · rcases hc.tasks.mem_queue ht with hold | hsubmits
      · exact h.queue t hold
      · rintro rfl
        exact h.calls d hexcept hsubmits
  · rw [hc.workers]
    exact h.held
  · rw [show s'.ran = s.ran from hc.tasks.ran] at ht
    exact h.ran t ht
  · by_cases hed : e = d
    · subst hed
      rw [hc.self]
      intro hsub
      exact h.calls e he ((hc.submits work hsub).resolve_right hopen)
    · rw [hc.other hed]
      exact h.calls e he

theorem Unseen.step {work : φ} {except : γ → Prop} {s s' : Pool n γ φ} {l : PoolLabel n γ φ}
    (h : Unseen work except s) (hs : pool_step s l = some s')
    (hcall : ∀ d free_arg, l ≠ .call d (.submit work free_arg))
    (hown : ∀ d o, except d → l = .client d o → s'.p_work_queue = s.p_work_queue) :
    Unseen work except s' := by
  cases l with
  | worker w o =>
    obtain ⟨x, hw⟩ := worker_step_cases hs
    exact h.worker_step hw
  | client d o =>
    obtain ⟨y, hc⟩ := client_step_cases hs
    exact h.client_step hc (client_open hs) fun hexcept => hown d o hexcept rfl
  | call d call =>
    obtain ⟨-, rfl⟩ := call_step_cases hs
    refine ⟨h.queue, h.held, h.ran, fun e he => ?_⟩
    by_cases hed : e = d
    · subst hed
      rw [Pool.goto_self]
      intro hsub
      cases call with
      | submit w free_arg =>
        cases hsub
        exact hcall e free_arg rfl
      | wait => cases hsub
      | destroy => cases hsub
    · rw [Pool.goto_other s hed]
      exact h.calls e he

/-- While the steps of `c` leave the queue alone, no object with the work comes into the pool. -/
theorem Unseen.run {work : φ} {c : γ} {ls : List (PoolLabel n γ φ)} : ∀ {s after : Pool n γ φ},
    Unseen work (fun d => d = c) s → (∀ d free_arg, PoolLabel.call d (.submit work free_arg) ∉ ls) →
    Untouched (queue_steps c s ls) → pool_machine.run s ls = some after →
    Unseen work (fun d => d = c) after := by
  induction ls with
  | nil =>
    intro s after h _ _ hr
    cases hr
    exact h
  | cons l ls ih =>
    intro s after h hcall hlog hr
    obtain ⟨t, ht, hr⟩ := pool_machine.run_cons.mp hr
    have ht : pool_step s l = some t := ht
    rw [queue_steps, ht] at hlog
    refine ih (h.step ht (fun d f hl => hcall d f (hl ▸ List.mem_cons_self)) ?_)
      (fun d f hl => hcall d f (List.mem_cons_of_mem l hl))
      (fun p hp => hlog p (List.mem_append_right _ hp)) hr
    rintro d o rfl rfl
    have hby : (PoolLabel.client d o : PoolLabel n γ φ).by d := rfl
    exact hlog _ (List.mem_append_left _ (by rw [if_pos hby]; exact List.mem_singleton_self _))

theorem Unseen.run_all {work : φ} {ls : List (PoolLabel n γ φ)} : ∀ {s after : Pool n γ φ},
    Unseen work (fun _ => False) s →
    (∀ d free_arg, PoolLabel.call d (.submit work free_arg) ∉ ls) →
    pool_machine.run s ls = some after → Unseen work (fun _ => False) after := by
  induction ls with
  | nil =>
    intro s after h _ hr
    cases hr
    exact h
  | cons l ls ih =>
    intro s after h hcall hr
    obtain ⟨t, ht, hr⟩ := pool_machine.run_cons.mp hr
    exact ih (h.step ht (fun d f hl => hcall d f (hl ▸ List.mem_cons_self)) fun _ _ hf => hf.elim)
      (fun d f hl => hcall d f (List.mem_cons_of_mem l hl)) hr

/-! ## One call -/

/-- A call of `coin_tpool_submit` next to any steps of the other threads, and its return. -/
structure SubmitCall (c : γ) (work : φ) (free_arg : Bool) (before s : Pool n γ φ)
    (ls : List (PoolLabel n γ φ)) (after : Pool n γ φ) : Prop where
  call : pool_step before (.call c (.submit work free_arg)) = some s
  own : ∀ call, PoolLabel.call c call ∉ ls
  run : pool_machine.run s ls = some after
  idle : (after.clients c).pc = .idle

/-- A work that the pool has not seen before is in no later run, unless a call submits it. -/
def NeverExecuted (work : φ) (before : Pool n γ φ) (ls : List (PoolLabel n γ φ))
    (after : Pool n γ φ) : Prop :=
  Unseen work (fun _ => False) before → ∀ ks last,
    (∀ d free_arg, PoolLabel.call d (.submit work free_arg) ∉ ls ++ ks) →
    pool_machine.run after ks = some last → ∀ t ∈ last.ran, t.work ≠ work

/-- With `COIN_SUCCESS` the steps of the call have put this one task at the end of the queue, and
with another status they have left the queue as it was and the task is never executed. -/
def LeavesNoTrace (c : γ) (work : φ) (free_arg : Bool) (before s : Pool n γ φ)
    (ls : List (PoolLabel n γ φ)) (after : Pool n γ φ) : Prop :=
  if (after.clients c).status = .COIN_SUCCESS then AppendedOnce work free_arg (queue_steps c s ls)
  else Untouched (queue_steps c s ls) ∧ NeverExecuted work before ls after

section Call

variable {c : γ} {work : φ} {free_arg : Bool} {before s after : Pool n γ φ}
  {ls : List (PoolLabel n γ φ)}

theorem SubmitCall.started (h : SubmitCall c work free_arg before s ls after) :
    s = before.goto c (.submit_alloc work free_arg) := (call_step_cases h.call).2

/-- The story of the whole call. -/
theorem SubmitCall.told (h : SubmitCall c work free_arg before s ls after) :
    if (after.clients c).status = .COIN_SUCCESS then
      AppendedOnce work free_arg (queue_steps c s ls) ∧
        pool_machine.Meets (SignalsAndUnlocks c) s ls
    else
      Untouched (queue_steps c s ls) ∧ pool_machine.Meets (SignalsAndUnlocks c) s ls ∨
        AppendedOnce work free_arg (queue_steps c s ls) ∧
          ¬ pool_machine.Meets (SignalsAndUnlocks c) s ls := by
  have hstart : Story c work free_arg s [] False := by
    rw [h.started, Story, Pool.goto_self]
    exact ⟨rfl, rfl, nofun, not_false⟩
  have hend := hstart.run h.own h.run
  rw [Story, h.idle, List.nil_append] at hend
  simpa only [false_or, not_not] using hend

theorem SubmitCall.never_executed (h : SubmitCall c work free_arg before s ls after)
    (hlog : Untouched (queue_steps c s ls)) : NeverExecuted work before ls after := by
  intro hbefore ks last hcall hr
  have hstart : Unseen work (fun d => d = c) s := by
    rw [h.started]
    refine ⟨hbefore.queue, hbefore.held, hbefore.ran, fun d hd => ?_⟩
    rw [Pool.goto_other before hd]
    exact hbefore.calls d not_false
  have hend := hstart.run (fun d f hl => hcall d f (List.mem_append_left ks hl)) hlog h.run
  have hreturned : Unseen work (fun _ => False) after := by
    refine ⟨hend.queue, hend.held, hend.ran, fun d _ => ?_⟩
    by_cases hd : d = c
    · rw [hd, h.idle]
      exact nofun
    · exact hend.calls d hd
  exact (hreturned.run_all (fun d f hl => hcall d f (List.mem_append_right ls hl)) hr).ran

/-- A submission leaves no trace when it fails, and appends exactly its task when it succeeds, if
and only if no signal and no unlock fails after the push of the task. -/
theorem a_failed_submission_leaves_no_trace_iff_nothing_fails_after_the_push
    (h : SubmitCall c work free_arg before s ls after) :
    LeavesNoTrace c work free_arg before s ls after ↔
      pool_machine.Meets (SignalsAndUnlocks c) s ls := by
  have htold := h.told
  unfold LeavesNoTrace
  split at htold
  · rename_i hstatus
    rw [if_pos hstatus]
    exact iff_of_true htold.1 htold.2
  · rename_i hstatus
    rw [if_neg hstatus]
    rcases htold with ⟨hlog, hok⟩ | ⟨hlog, hlate⟩
    · exact iff_of_true ⟨hlog, h.never_executed hlog⟩ hok
    · exact iff_of_false (fun hnone => hlog.not_untouched hnone.1) hlate

end Call

/-- The steps of a call when `pthread_cond_signal` ends as given. -/
def submit_steps (signalled : Outcome 1) : List (PoolLabel 1 Unit Unit) :=
  [.client () {}, .client () {}, .client () {}, .client () signalled, .client () {}]

/-- The first task goes into the queue of a new pool. -/
theorem the_first_submission_is_appended :
    ∃ s after : Pool 1 Unit Unit, SubmitCall () () true new_pool s (submit_steps {}) after ∧
      (after.clients ()).status = .COIN_SUCCESS ∧
      LeavesNoTrace () () true new_pool s (submit_steps {}) after := by
  let s : Pool 1 Unit Unit := new_pool.goto () (.submit_alloc () true)
  let after : Pool 1 Unit Unit := (pool_machine.run s (submit_steps {})).get rfl
  have hcall : SubmitCall () () true new_pool s (submit_steps {}) after :=
    ⟨rfl, by simp [submit_steps], (Option.some_get _).symm, rfl⟩
  have hok : pool_machine.Meets (SignalsAndUnlocks ()) s (submit_steps {}) := by
    refine machine.Machine.meets_mono (C := fun _ l => l = .client () {}) ?_
      (machine.Machine.meets_of_mem (by simp [submit_steps]))
    rintro s l rfl o ⟨⟩ -
    rfl
  exact ⟨s, after, hcall, rfl,
    (a_failed_submission_leaves_no_trace_iff_nothing_fails_after_the_push hcall).mpr hok⟩

/-- The signal fails: the call reports an error, and its task is in the queue. -/
theorem a_failed_signal_leaves_the_task_in_the_queue :
    ¬ ∀ (s after : Pool 1 Unit Unit) (ls : List (PoolLabel 1 Unit Unit)),
      SubmitCall () () true new_pool s ls after →
        LeavesNoTrace () () true new_pool s ls after := by
  intro h
  let s : Pool 1 Unit Unit := new_pool.goto () (.submit_alloc () true)
  let ls : List (PoolLabel 1 Unit Unit) := submit_steps { res := 22 }
  let after : Pool 1 Unit Unit := (pool_machine.run s ls).get rfl
  have hcall : SubmitCall () () true new_pool s ls after :=
    ⟨rfl, by simp [ls, submit_steps], (Option.some_get _).symm, rfl⟩
  have hstatus : (after.clients ()).status = .COIN_PTHREAD_COND_ERROR := rfl
  have htrace := h s after ls hcall
  rw [LeavesNoTrace, if_neg (by rw [hstatus]; exact nofun)] at htrace
  -- the third step is the push
  have hpush : (queue_steps () s ls)[2]? = some ([], [⟨0, (), true⟩]) := rfl
  exact absurd (htrace.1 _ (List.mem_of_getElem? hpush)) nofun

end pingpong.concurinc
