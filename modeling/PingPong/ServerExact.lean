-- When the reference count of a context is exact: it counts the tasks that have
-- not released their reference, as long as no POLLOUT submission is refused.
import PingPong.ServerLaws

namespace pingpong.server

open concurinc connmgr mutex netio tally tasks

variable {n : Nat}

/-! ## A submission that is refused -/

/-- The step ends the call before the queue has taken the task. -/
def Refuses (o : Outcome n) : client_pc io_task → Prop
  | .submit_alloc .. | .submit_push .. => o.alloc = false
  | .submit_lock .. => o.res ≠ 0
  | _ => False

instance (o : Outcome n) : DecidablePred (Refuses o)
  | .submit_alloc .. | .submit_push .. => inferInstanceAs (Decidable (o.alloc = false))
  | .submit_lock .. => inferInstanceAs (Decidable (o.res ≠ 0))
  | .idle | .submit_push_failed | .submit_signal | .submit_signal_failed | .submit_unlock
  | .wait_lock_active | .wait_check_active | .wait_blocked | .wait_cond_failed | .wait_check_size
  | .wait_unlock_again | .wait_unlock_active | .wait_lock_queue | .wait_read_size
  | .wait_unlock_queue _ | .stop_lock | .stop_flag | .stop_broadcast | .stop_broadcast_failed
  | .stop_unlock | .stop_join .. | .destroy_queue_cond | .destroy_queue_mutex | .destroy_queue
  | .destroy_active_cond | .destroy_active_mutex => inferInstanceAs (Decidable False)

/-- A call of `coin_tpool_submit` goes on, puts its task into the queue, or is refused. -/
theorem submit_step_cases {o : Outcome n} {s s' : Pool n Unit io_task} {work : io_task}
    (h : client_step () o s = some s') (hw : (s.clients ()).pc.submits = some work) :
    ((s'.clients ()).pc.submits = some work ∧ s'.p_work_queue = s.p_work_queue) ∨
    ((s'.clients ()).pc.submits = none ∧
      ∃ t, t.work = work ∧ s'.p_work_queue = s.p_work_queue ++ [t]) ∨
    (Refuses o (s.clients ()).pc ∧ (s'.clients ()).pc.submits = none ∧
      s'.p_work_queue = s.p_work_queue ∧ ((s'.clients ()).pc = .submit_push_failed ∨
        ((s'.clients ()).pc = .idle ∧ (s'.clients ()).status ≠ .COIN_SUCCESS))) := by
  unfold client_step at h
  generalize hy : s.clients () = y at h hw
  obtain ⟨pc, status⟩ := y
  cases pc with
  | submit_alloc work' free_arg =>
    simp only at h
    split at h <;> cases h
    · rw [Pool.goto_self]
      exact Or.inl ⟨hw, rfl⟩
    · rename_i halloc
      rw [Pool.give_self]
      exact Or.inr (Or.inr ⟨Bool.eq_false_iff.mpr halloc, rfl, rfl, Or.inr ⟨rfl, nofun⟩⟩)
  | submit_lock work' free_arg =>
    obtain ⟨m, hm, rfl⟩ := Option.map_eq_some_iff.mp h
    split
    · rw [Pool.goto_self]
      exact Or.inl ⟨hw, rfl⟩
    · rename_i hres
      rw [Pool.give_self]
      exact Or.inr (Or.inr ⟨hres, rfl, rfl, Or.inr ⟨rfl, nofun⟩⟩)
  | submit_push work' free_arg =>
    cases hw
    simp only at h
    split at h <;> cases h
    · rw [Pool.goto_self]
      exact Or.inr (Or.inl ⟨rfl, _, rfl, rfl⟩)
    · rename_i halloc
      rw [Pool.goto_self]
      exact Or.inr (Or.inr ⟨Bool.eq_false_iff.mpr halloc, rfl, rfl, Or.inl rfl⟩)
  | _ => cases hw

/-- A refused submission stays so until it returns. -/
theorem refused_kept {o : Outcome n} {s s' : Pool n Unit io_task} {main : main_pc} {p : ctx_id}
    (h : client_step () o s = some s') (hp : main.refused (s.clients ()) = some p) :
    main.refused (s'.clients ()) = some p := by
  have hopen := client_open h
  unfold main_pc.refused at hp ⊢
  cases main with
  | failed_unlock conn q => exact hp
  | task_submit func conn q =>
    cases func with
    | task_io_send => cases hp
    | task_io_read =>
      unfold client_step at h
      generalize s.clients () = y at h hp hopen
      obtain ⟨pc, status⟩ := y
      cases pc with
      | submit_push_failed =>
        cases h
        simp only [Pool.give_self]
        exact hp
      | idle => exact absurd rfl hopen
      | _ => cases hp
  | _ => cases hp

theorem locks_of_refused {main : main_pc} {y : Client io_task} {p : ctx_id}
    (h : main.refused y = some p) : main.locks = some p := by
  unfold main_pc.refused at h
  cases main with
  | failed_unlock conn q => exact h
  | task_submit func conn q =>
    cases func with
    | task_io_send => cases h
    | task_io_read =>
      simp only at h
      split at h
      · exact h
      · split at h
        · cases h
        · exact h
      · cases h
  | _ => cases h

/-! ## The exact count -/

/-- The tasks on `p` that are queued, or popped and have not released their reference. -/
def unreleased (p : ctx_id) (s : Server n) : Nat := load task_pc.owes p s

/-- The count of a context is that of its tasks, with the one that main submits, or the submission
of a read task was refused. -/
def Exact (s : Server n) : Prop :=
  ∀ p, s.main.refused (s.pool.clients ()) = some p ∨
    (s.ctxs p).link.ctx.ref_count = ((unreleased p s + promised p s : Nat) : Int)

theorem exact_new (sfd sigpipe_fd : Int) : Exact (new_server sfd sigpipe_fd : Server n) := by
  intro p
  refine Or.inr ?_
  have hzero : unreleased p (new_server sfd sigpipe_fd : Server n) = 0 := by
    unfold unreleased load
    rw [total_zero fun w => share_of_none rfl]
    rfl
  rw [hzero]
  rfl

/-- A step that changes no count and no task. -/
theorem Exact.frame {s s' : Server n} (h : Exact s)
    (hrefused : ∀ p, s.main.refused (s.pool.clients ()) = some p →
      s'.main.refused (s'.pool.clients ()) = some p)
    (hcount : ∀ p, (s'.ctxs p).link.ctx.ref_count = (s.ctxs p).link.ctx.ref_count)
    (hload : ∀ p, unreleased p s' + promised p s' = unreleased p s + promised p s) :
    Exact s' := by
  intro p
  rcases h p with href | heq
  · exact Or.inl (hrefused p href)
  · rw [hcount, hload]
    exact Or.inr heq

/-- A point of main that has refused nothing. -/
theorem not_refused {s s' : Server n} (h : s.main.refused (s.pool.clients ()) = none) (p : ctx_id)
    (hp : s.main.refused (s.pool.clients ()) = some p) :
    s'.main.refused (s'.pool.clients ()) = some p := by
  rw [h] at hp
  cases hp

theorem refused_of_unlocked {s : Server n} (h : s.main.locks = none) :
    s.main.refused (s.pool.clients ()) = none := by
  by_contra hsome
  obtain ⟨p, hp⟩ := Option.ne_none_iff_exists'.mp hsome
  rw [locks_of_refused hp] at h
  cases h

/-! ## The steps of main -/

theorem foldl_make_refs {links : List Link} (hzero : ∀ k ∈ links, k.ctx.ref_count = 0)
    (s : Server n) (hfresh : ∀ p, s.made ≤ p → s.ctxs p = no_context) (p : ctx_id) :
    ((links.foldl Server.make s).ctxs p).link.ctx.ref_count =
      (s.ctxs p).link.ctx.ref_count := by
  induction links generalizing s with
  | nil => rfl
  | cons k links ih =>
    have hrest := ih (fun k' hk' => hzero k' (List.mem_cons_of_mem k hk')) (s.make k) fun q hq => by
      have hlt : s.made < q := hq
      rw [s.make_other k (Nat.ne_of_gt hlt)]
      exact hfresh q (Nat.le_of_lt hlt)
    rw [List.foldl_cons, hrest]
    by_cases hp : p = s.made
    · rw [hp, s.make_self, hfresh s.made (Nat.le_refl _)]
      exact hzero k List.mem_cons_self
    · rw [s.make_other k hp]

theorem Exact.submit {s : Server n} (h : Exact s) {func : task_func} {conn : Nat} {p : ctx_id}
    (hpc : s.main = .task_ref func conn p) (hidle : (s.pool.clients ()).pc = .idle) :
    Exact { (s.set_link p (add_ref 1 (s.ctxs p).link)).goto (.task_submit func conn p)
      with pool := s.pool.goto () (.submit_alloc ⟨func, p⟩ false) } := by
  intro q
  refine Or.inr ?_
  have hcount := (h q).resolve_left (by rw [hpc]; nofun)
  show ((s.set_link p (add_ref 1 (s.ctxs p).link)).ctxs q).link.ctx.ref_count =
    ((unreleased q s + pledge q (.submit_alloc ⟨func, p⟩ false) : Nat) : Int)
  have hwas := promised_of_idle hidle q
  have hrefs := s.submit_refs func p q
  omega

theorem Exact.main_step {res : Int} {s s' : Server n} (h : Exact s) (hloop : InLoop s)
    (hmove : MainMove res s s') (hin : s'.main.inCleanup = false) : Exact s' := by
  have hwalk : ∀ {pc : main_pc}, Walk s pc → pc.inCleanup = false → ∀ p,
      s.main.refused (s.pool.clients ()) = some p → pc.refused (s.pool.clients ()) = some p := by
    intro pc hw hpc p hp
    rcases hw.refused p hp with hclean | href
    · rw [hpc] at hclean
      cases hclean
    · exact href
  cases hmove with
  | go pc revents hw => exact h.frame (hwalk hw hin) (fun _ => rfl) fun _ => rfl
  | lock pc conn p hw => exact h.frame (hwalk hw hin) (s.set_mutex_refs p _) fun _ => rfl
  | unlock pc p hw => exact h.frame (hwalk hw hin) (s.set_mutex_refs p _) fun _ => rfl
  | mark pc conn p hw => exact h.frame (hwalk hw hin) (s.mark_refs p) fun _ => rfl
  | submit func conn p hpc hidle => exact h.submit hpc hidle
  | make pc links hzero hw hwas =>
    obtain ⟨hpool, htask, -, -⟩ := foldl_make_kept links s
    refine h.frame (not_refused (refused_of_unlocked hwas))
      (foldl_make_refs hzero s hloop.fresh) fun p => ?_
    unfold unreleased load promised Server.hands Server.goto
    simp only [hpool, htask]
  | close conn p hpc =>
    refine h.frame (not_refused (by rw [hpc]; rfl)) (fun q => ?_) fun _ => rfl
    exact congrArg (fun k => k.ctx.ref_count) (s.destroy_keeps p q).1
  | update hpc => exact h.frame (not_refused (by rw [hpc]; rfl)) (fun _ => rfl) fun _ => rfl
  | lose => cases hin
  | wait hlocks hclean hidle =>
    refine h.frame (not_refused (refused_of_unlocked hlocks)) (fun _ => rfl) fun p => ?_
    show unreleased p s + pledge p .wait_lock_active = _
    rw [promised_of_idle hidle]
    rfl
  | free pc p conns new_conns hwas hlocks hout hpc =>
    have hin : pc.inCleanup = false := hin
    rw [hpc] at hin
    cases hin
  | stop => cases hin

/-! ## The steps of the workers and of the calls -/

theorem Exact.worker_step {s : Server n} {pool : Pool n Unit io_task} {w : Fin n} {res : Int}
    {x : Worker io_task} (h : Exact s) (hl : Linked s)
    (hret : (s.pool.workers w).pc = .run → s.task w = .returned)
    (hw : WorkerStep w res (s.pool.workers w) x s.pool pool) :
    Exact ({ s with pool := pool }.set_task w .lock) := by
  have hclients : pool.clients = s.pool.clients := hw.clients
  refine h.frame (fun p hp => ?_) (fun _ => rfl) fun p => ?_
  · show s.main.refused (pool.clients ()) = some p
    rw [hclients]
    exact hp
  · have hload : unreleased p ({ s with pool := pool }.set_task w .lock) = unreleased p s :=
      load_of_worker_step spans_owes hl hret hw rfl
    rw [hload]
    show unreleased p s + pledge p (pool.clients ()).pc = _
    rw [hclients]
    rfl

theorem Exact.task_step {s s' : Server n} {w : Fin n} {t : coin_task_t io_task} (h : Exact s)
    (hrun : (s.pool.workers w).pc = .run) (ht : (s.pool.workers w).p_task = some t)
    (hmove : TaskMove w t.work.coin_task_arg 0 s s') : Exact s' := by
  obtain ⟨hpool, hmain, -⟩ := hmove.stays
  obtain ⟨y, htask, -, -, hcount⟩ := hmove.effect
  intro p
  have hload := load_of_task_step (f := task_pc.owes) (p := p) hpool htask
  rw [share_of_task ht hrun, share_of_task ht hrun] at hload
  rw [hmain, hpool, promised_congr hpool]
  unfold unreleased
  refine (h p).imp_right fun heq => ?_
  unfold unreleased at heq
  by_cases hp : t.work.coin_task_arg = p
  · rw [if_pos hp, if_pos hp] at hload
    rw [hp] at hcount
    omega
  · rw [if_neg hp, if_neg hp] at hload
    rw [hmove.ctxs_other (Ne.symm hp)]
    omega

/-- Main submits the task of a POLLOUT event. -/
def main_pc.sends : main_pc → Bool
  | .task_submit .task_io_send _ _ => true
  | _ => false

/-- In the POLLOUT branch no call of `coin_tpool_submit` is refused. -/
def SendsAccepted (s : Server n) : ServerLabel n → Prop
  | .call o => s.main.sends = true → ¬ Refuses o (s.pool.clients ()).pc
  | _ => True

/-- A step in a call that submits nothing leaves the queue alone, unless it destroys it. -/
theorem queue_kept {o : Outcome n} {s s' : Pool n Unit io_task}
    (h : client_step () o s = some s') (hnone : (s.clients ()).pc.submits = none)
    (hdestroy : (s.clients ()).pc.inDestroy = false) :
    (s'.clients ()).pc.submits = none ∧ s'.p_work_queue = s.p_work_queue := by
  obtain ⟨y, hc⟩ := client_step_cases h
  refine ⟨?_, ?_⟩
  · rw [hc.self]
    by_contra hsome
    obtain ⟨t, ht⟩ := Option.ne_none_iff_exists'.mp hsome
    have hwas := (hc.submits t ht).resolve_right (client_open h)
    rw [hnone] at hwas
    cases hwas
  · refine (hc.tasks.queue hnone).resolve_right ?_
    rintro ⟨hpc, -⟩
    rw [hpc] at hdestroy
    cases hdestroy

theorem Exact.call_step {s : Server n} {pool : Pool n Unit io_task} {o : Outcome n} (h : Exact s)
    (hl : Linked s) (hin : s.main.inCleanup = false)
    (hpool : client_step () o s.pool = some pool) (hsends : SendsAccepted s (.call o)) :
    Exact { s with pool := pool } := by
  obtain ⟨y, hc⟩ := client_step_cases hpool
  have hkept : ∀ p, s.main.refused (s.pool.clients ()) = some p →
      s.main.refused (pool.clients ()) = some p := fun p hp => refused_kept hpool hp
  have hload : ∀ p, unreleased p { s with pool := pool } =
      pool.p_work_queue.countP (onCtx p) + total (share task_pc.owes p) s.hands := by
    intro p
    unfold unreleased load Server.hands
    rw [hc.workers]
  cases hw : (s.pool.clients ()).pc.submits with
  | none =>
    have hdestroy : (s.pool.clients ()).pc.inDestroy = false := by
      by_contra hd
      rw [hl.destroys (Bool.eq_true_of_not_eq_false hd)] at hin
      cases hin
    obtain ⟨hnone, hqueue⟩ := queue_kept hpool hw hdestroy
    refine h.frame hkept (fun _ => rfl) fun p => ?_
    unfold promised
    rw [hload, hqueue, pledge_of_none hw, pledge_of_none hnone]
    rfl
  | some work =>
    rcases submit_step_cases hpool hw with ⟨hsame, hqueue⟩ | ⟨hnone, t, rfl, hqueue⟩ |
      ⟨hrefuses, hnone, hqueue, hend⟩
    · refine h.frame hkept (fun _ => rfl) fun p => ?_
      unfold promised
      rw [hload, hqueue, pledge_of_some hw, pledge_of_some hsame]
      rfl
    · -- the promised task is in the queue now
      refine h.frame hkept (fun _ => rfl) fun p => ?_
      unfold promised
      rw [hload, hqueue, pledge_of_some hw, pledge_of_none hnone, List.countP_append,
        List.countP_singleton]
      unfold unreleased load onCtx
      simp only [decide_eq_true_eq]
      omega
    · obtain ⟨conn, hmain⟩ := hl.submits work hw
      obtain ⟨func, q⟩ := work
      cases func with
      | task_io_send =>
        refine absurd hrefuses (hsends ?_)
        rw [hmain]
        rfl
      | task_io_read =>
        intro p
        by_cases hp : q = p
        · refine Or.inl ?_
          show s.main.refused (pool.clients ()) = some p
          rw [hmain, ← hp]
          unfold main_pc.refused
          rcases hend with hpc | ⟨hpc, hfail⟩
          · simp only [hpc]
          · simp only [hpc, hfail, if_false]
        · refine (h p).imp (hkept p) fun heq => ?_
          unfold promised at heq ⊢
          rw [pledge_of_some hw, if_neg hp] at heq
          rw [hload, hqueue, pledge_of_none hnone]
          exact heq

/-! ## The law -/

theorem Exact.step {l : ServerLabel n} {s s' : Server n} (h : s.main.inCleanup = false → Exact s)
    (hloop : s.main.inCleanup = false → InLoop s) (hl : Linked s) (hs : ServerStep s l s')
    (hok : l.LocksSucceed) (hsends : SendsAccepted s l) (hin : s'.main.inCleanup = false) :
    Exact s' := by
  have hwas := hs.cleanup hin
  have hexact := h hwas
  cases hs with
  | main o hmove => exact hexact.main_step (hloop hwas) hmove hin
  | call o pool hpool => exact hexact.call_step hl hwas hpool hsends
  | worker w o pool hpool hret =>
    obtain ⟨x, hw⟩ := worker_step_cases hpool
    exact hexact.worker_step hl hret hw
  | task w res outs t hrun ht hmove =>
    rw [show res = 0 from hok] at hmove
    exact hexact.task_step hrun ht hmove
  | signal => exact hexact

instance (s : Server n) : DecidablePred (SendsAccepted s)
  | .call o => inferInstanceAs (Decidable (s.main.sends = true → ¬ Refuses o _))
  | .main _ | .worker _ _ | .task _ _ _ | .signal => inferInstanceAs (Decidable True)

/-- The calls on the mutexes of the contexts succeed in the tasks, and no submission of the POLLOUT
branch is refused. -/
def Accepted (s : Server n) (l : ServerLabel n) : Prop := l.LocksSucceed ∧ SendsAccepted s l

instance (s : Server n) : DecidablePred (Accepted s) := fun l =>
  inferInstanceAs (Decidable (l.LocksSucceed ∧ SendsAccepted s l))

theorem exact_of_reachable {host : ByteOrder} {s : Server n} (h : Reachable host Accepted s) :
    s.main.inCleanup = false → Exact s := by
  obtain ⟨sfd, sigpipe_fd, hr⟩ := h
  have hall : Linked s ∧ (s.main.inCleanup = false → InLoop s) ∧
      (s.main.inCleanup = false → Exact s) := by
    refine machine.Machine.Reach.invariant (P := fun s : Server n => Linked s ∧
      (s.main.inCleanup = false → InLoop s) ∧ (s.main.inCleanup = false → Exact s)) ?_ ?_ hr
    · rintro s rfl
      exact ⟨linked_new sfd sigpipe_fd, fun _ => inLoop_new sfd sigpipe_fd,
        fun _ => exact_new sfd sigpipe_fd⟩
    · rintro s l s' ⟨hl, hloop, hexact⟩ ⟨hok, hsends⟩ hs
      have hcases := server_step_cases hs
      exact ⟨hl.step hcases, InLoop.step hloop hl hcases hok,
        Exact.step hexact hloop hl hcases hok hsends⟩
  exact hall.2.2

/-- In every run of the loop in which no submission of the POLLOUT branch is refused, the reference
count is never negative, and whenever the mutex of a context is free it counts the tasks on the
context that are queued, or popped and have not released their reference. -/
theorem the_reference_count_is_exact {host : ByteOrder} {s : Server n}
    (h : Reachable host Accepted s) (hin : s.main.inCleanup = false) (p : ctx_id) :
    0 ≤ (s.ctxs p).link.ctx.ref_count ∧
    ((s.ctxs p).mutex = .free → (s.ctxs p).link.ctx.ref_count = unreleased p s) := by
  obtain ⟨sfd, sigpipe_fd, hr⟩ := h
  obtain ⟨hl, hloop⟩ := inLoop_of_reachable (s := s)
    ⟨sfd, sigpipe_fd, hr.mono fun _ _ hc => hc.1⟩
  have hinv := hloop hin
  refine ⟨?_, fun hfree => ?_⟩
  · have hcount := hinv.counted p
    omega
  · -- main neither submits a task on the context nor was refused one, as it would hold the mutex
    have hout : s.main.locks ≠ some p := by
      intro hlocks
      have hheld := hinv.guards p (.client ()) hlocks
      rw [hfree] at hheld
      cases hheld
    have heq := (exact_of_reachable ⟨sfd, sigpipe_fd, hr⟩ hin p).resolve_left fun href =>
      hout (locks_of_refused href)
    have hzero := hl.promised_zero fun func conn hmain => hout (by rw [hmain]; rfl)
    rw [heq, hzero, Nat.add_zero]

/-- The socket of the client is ready for writing, and main submits the task for it. -/
def submit_send_labels : List (ServerLabel 1) :=
  polled 2 { no_events with POLLOUT := true } :: main_steps 11

theorem the_count_of_a_submitted_task_is_exact :
    ∃ s : Server 1, s.main = .dispatch 3 ∧ (s.ctxs 2).mutex = .free ∧
      s.pool.p_work_queue = [⟨0, ⟨.task_io_send, 2⟩, false⟩] ∧
      (s.ctxs 2).link.ctx.ref_count = unreleased 2 s := by
  obtain ⟨s, hreach, hmain, hfree, hqueue⟩ := exists_of_run .big Accepted 3 4
    (accept_labels ++ submit_send_labels ++ List.replicate 5 (.call {}) ++ main_steps 2)
    (fun s : Server 1 => s.main = .dispatch 3 ∧ (s.ctxs 2).mutex = .free ∧
      s.pool.p_work_queue = [⟨0, ⟨.task_io_send, 2⟩, false⟩])
    (by decide +kernel) (by decide +kernel)
  have hin : s.main.inCleanup = false := by
    rw [hmain]
    rfl
  exact ⟨s, hmain, hfree, hqueue, (the_reference_count_is_exact hreach hin 2).2 hfree⟩

/-- There is no memory for the task object. Main logs this and goes on, with the reference. -/
theorem a_refused_submission_leaves_a_reference :
    ¬ ∀ s : Server 1, Reachable .big (fun _ l => l.Ok) s → s.main.inCleanup = false →
      ∀ p, (s.ctxs p).mutex = .free → (s.ctxs p).link.ctx.ref_count = unreleased p s := by
  intro h
  obtain ⟨s, hreach, hin, hfree, hone, hnone⟩ := exists_of_run .big (fun _ l => l.Ok) 3 4
    (accept_labels ++ submit_send_labels ++ [.call { alloc := false }] ++ main_steps 2)
    (fun s : Server 1 => s.main.inCleanup = false ∧ (s.ctxs 2).mutex = .free ∧
      (s.ctxs 2).link.ctx.ref_count = 1 ∧ unreleased 2 s = 0)
    (machine.Machine.meets_of_mem (by decide)) (by decide +kernel)
  have hcount := h s hreach hin 2 hfree
  rw [hone, hnone] at hcount
  cases hcount

end pingpong.server
