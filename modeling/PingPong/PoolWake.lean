-- The wake-ups of the pool: while the pthread calls succeed, no task waits in the
-- queue with all workers asleep, and no worker sleeps through the shutdown.
import PingPong.PoolPlaces

namespace pingpong.concurinc

open mutex

variable {n : Nat} {γ φ : Type}

/-! ## Who has to be woken -/

/-- A queue with a task in it has a worker that is awake, or a thread that is about to wake one.
When the flag is set all workers are awake, or a thread is about to wake them. -/
structure Wakeful (s : Pool n γ φ) : Prop where
  flag : ∀ w, (s.workers w).pc.stopping = true → s.b_shutdown = true
  queued : s.b_shutdown = false → s.p_work_queue ≠ [] →
    (∃ w, s.q_waiting w = false) ∨ ∃ c, (s.clients c).pc = .submit_signal
  told : s.b_shutdown = true →
    (∀ w, s.q_waiting w = false) ∨ ∃ c, (s.clients c).pc = .stop_broadcast

theorem wakeful_new : Wakeful (new_pool : Pool n γ φ) where
  flag _ h := nomatch h
  queued _ h := absurd rfl h
  told h := nomatch h

variable [DecidableEq γ]

/-! ## The steps of a worker -/

section Worker

variable {w : Fin n} {res : Int} {x : Worker φ} {s s' : Pool n γ φ}

theorem WorkerStep.flag_kept (h : WorkerStep w res (s.workers w) x s s')
    (hflag : s.b_shutdown = true) : s'.b_shutdown = true := by
  rcases h.shutdown with hsame | ⟨hset, -⟩
  · exact hsame.trans hflag
  · exact hset

theorem WorkerStep.queue_nil (h : WorkerStep w res (s.workers w) x s s')
    (hq : s.p_work_queue = []) : s'.p_work_queue = [] := by
  have hempty : s'.tasks.queue = [] := h.tasks.queue_nil hq
  exact hempty

theorem Wakeful.worker_step (h : Wakeful s) (hw : WorkerStep w 0 (s.workers w) x s s') :
    Wakeful s' := by
  refine ⟨?_, fun hflag hqueue => ?_, fun hflag => ?_⟩
  · apply hw.forall_workers (P := fun x => x.pc.stopping = true → s'.b_shutdown = true)
    · intro v hv
      exact hw.flag_kept (h.flag v hv)
    · intro hx
      rcases hw.stops rfl hx with hwas | hset
      · exact hw.flag_kept (h.flag w hwas)
      · exact hset
  · have hflag' : s.b_shutdown = false := by
      apply Bool.eq_false_iff.mpr
      intro hset
      rw [hw.flag_kept hset] at hflag
      cases hflag
    rw [hw.clients]
    rcases h.queued hflag' (fun hempty => hqueue (hw.queue_nil hempty)) with ⟨v, hv⟩ | hc
    · -- a worker that goes to sleep has seen an empty queue
      rcases hw.sleeps with hawake | ⟨-, -, hempty⟩
      · exact Or.inl ⟨v, hawake v hv⟩
      · exact absurd hempty hqueue
    · exact Or.inr hc
  · rw [hw.clients]
    rcases hw.shutdown with hsame | ⟨-, -, hall⟩
    · rw [hsame] at hflag
      rcases h.told hflag with hall | hc
      · rcases hw.sleeps with hawake | ⟨hunset, -⟩
        · exact Or.inl fun v => hawake v (hall v)
        · rw [hflag] at hunset
          cases hunset
      · exact Or.inr hc
    · exact Or.inl (hall rfl)

end Worker

/-! ## The steps of a client -/

section Client

variable {c : γ} {res : Int} {y : Client φ} {s s' : Pool n γ φ}

theorem ClientStep.flag_kept (h : ClientStep c res (s.clients c) y s s')
    (hflag : s.b_shutdown = true) : s'.b_shutdown = true := by
  rcases h.shutdown with hsame | ⟨hset, -⟩
  · exact hsame.trans hflag
  · exact hset

/-- A client at a point of its code is there after the step, or it is the one that steps. -/
theorem ClientStep.still (h : ClientStep c res (s.clients c) y s s') {pc : client_pc φ}
    (hpc : ∃ d, (s.clients d).pc = pc) : (s.clients c).pc = pc ∨ ∃ d, (s'.clients d).pc = pc := by
  obtain ⟨d, hd⟩ := hpc
  by_cases hdc : d = c
  · rw [hdc] at hd
    exact Or.inl hd
  · rw [← h.other hdc] at hd
    exact Or.inr ⟨d, hd⟩

theorem Wakeful.client_step (hn : 0 < n) (h : Wakeful s)
    (hc : ClientStep c 0 (s.clients c) y s s') : Wakeful s' := by
  refine ⟨fun v hv => ?_, fun hflag hqueue => ?_, fun hflag => ?_⟩
  · rw [hc.workers] at hv
    exact hc.flag_kept (h.flag v hv)
  · have hflag' : s.b_shutdown = false := by
      apply Bool.eq_false_iff.mpr
      intro hset
      rw [hc.flag_kept hset] at hflag
      cases hflag
    by_cases hempty : s.p_work_queue = []
    · -- the task is new, and its signal comes next
      rcases hc.tasks.queue_nil hempty with hstill | hsignal
      · exact absurd hstill hqueue
      · refine Or.inr ⟨c, ?_⟩
        rw [hc.self]
        exact hsignal
    · rcases h.queued hflag' hempty with ⟨v, hv⟩ | hsignal
      · exact Or.inl ⟨v, hc.awake v hv⟩
      · rcases hc.still hsignal with hpc | hother
        · exact Or.inl (hc.signals hpc rfl hn)
        · exact Or.inr hother
  · rcases hc.shutdown with hsame | ⟨-, -, hnext⟩
    · rw [hsame] at hflag
      rcases h.told hflag with hall | hbroadcast
      · exact Or.inl fun v => hc.awake v (hall v)
      · rcases hc.still hbroadcast with hpc | hother
        · exact Or.inl (hc.broadcasts hpc rfl)
        · exact Or.inr hother
    · refine Or.inr ⟨c, ?_⟩
      rw [hc.self]
      exact hnext

end Client

/-! ## The law -/

theorem wakeful_of_reachable (hn : 0 < n) {s : Pool n γ φ} (h : OkReachable s) : Wakeful s := by
  refine machine.Machine.Reach.invariant (P := Wakeful) (fun s hs => hs ▸ wakeful_new) ?_ h
  intro s l s' hwake hok hs
  rcases pool_step_cases hs with ⟨w, o, x, rfl, hw⟩ | ⟨c, res, y, -, hres, hc⟩
  · rw [show o.res = 0 from hok] at hw
    exact hwake.worker_step hw
  · rw [hres hok] at hc
    exact hwake.client_step hn hc

omit [DecidableEq γ] in
/-- No client is at a point under the mutex while it is free. -/
theorem Sound.not_at {s : Pool n γ φ} (h : Sound s) (hfree : s.tpool_queue_mutex = .free)
    {pc : client_pc φ} (hpc : pc.inQueue = true) : ¬ ∃ c, (s.clients c).pc = pc := by
  rintro ⟨c, hc⟩
  have hheld := h.queue (.client c) (by rw [← hc] at hpc; exact hpc)
  rw [hfree] at hheld
  cases hheld

/-- While the pthread calls succeed: whenever `tpool_queue_mutex` is free and there is work in the
queue, some worker that has not left its loop is not blocked on `tpool_queue_cond`, as long as the
flag is not set. Once it is set, no worker is blocked. -/
theorem no_wake_up_is_lost (hn : 0 < n) {s : Pool n γ φ} (h : OkReachable s)
    (hfree : s.tpool_queue_mutex = .free) :
    (s.p_work_queue ≠ [] → s.b_shutdown = false →
      ∃ w, s.q_waiting w = false ∧ (s.workers w).pc.stopping = false) ∧
    (s.b_shutdown = true → ∀ w, s.q_waiting w = false) := by
  have hwake := wakeful_of_reachable hn h
  have hsound := (placed_of_reachable h).toSound
  constructor
  · intro hqueue hflag
    rcases hwake.queued hflag hqueue with ⟨w, hw⟩ | hc
    · refine ⟨w, hw, ?_⟩
      by_contra hstop
      rw [hwake.flag w (Bool.eq_true_of_not_eq_false hstop)] at hflag
      cases hflag
    · exact absurd hc (hsound.not_at hfree rfl)
  · intro hflag
    exact (hwake.told hflag).resolve_right (hsound.not_at hfree rfl)

/-- The worker goes to sleep on an empty queue, and the submission wakes it. -/
def wake_labels : List (PoolLabel 1 Unit Unit) :=
  [.worker only_worker {}, .worker only_worker {}, .call () (.submit () false), .client () {},
    .client () {}, .client () {}, .client () { wake := some only_worker }, .client () {}]

theorem the_submission_wakes_the_only_worker :
    ∃ s : Pool 1 Unit Unit, OkReachable s ∧ s.tpool_queue_mutex = .free ∧
      s.p_work_queue = [⟨0, (), false⟩] ∧ (s.workers 0).pc = .cond_wait ∧
      ∃ w, s.q_waiting w = false ∧ (s.workers w).pc.stopping = false := by
  obtain ⟨s, hreach, hfree, hqueue, hpc, hflag⟩ := machine.Machine.exists_reach pool_machine
    (fun s => s = new_pool) (fun _ l => l.Ok)
    (fun s : Pool 1 Unit Unit => s.tpool_queue_mutex = .free ∧
      s.p_work_queue = [⟨0, (), false⟩] ∧ (s.workers 0).pc = .cond_wait ∧ s.b_shutdown = false)
    new_pool wake_labels rfl (machine.Machine.meets_of_mem (by decide)) (by decide +kernel)
  have hwork : s.p_work_queue ≠ [] := by
    rw [hqueue]
    exact nofun
  exact ⟨s, hreach, hfree, hqueue, hpc,
    (no_wake_up_is_lost Nat.one_pos hreach hfree).1 hwork hflag⟩

end pingpong.concurinc
