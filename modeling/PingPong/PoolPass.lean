-- What a step does when its pthread calls succeed: who falls asleep and who is woken, and
-- how many steps the threads have left before they rest.
import PingPong.PoolDestroy
import PingPong.PoolStart

namespace pingpong.concurinc

open mutex tally

variable {n : Nat} {γ φ : Type}

/-! ## The steps that are left -/

/-- The steps of a worker to its sleep or to its exit, when it pops no other task. The signal for
more work can wake a worker, which has 8 steps then. -/
def worker_pc.left : worker_pc → Nat
  | .exited => 0
  | .exit_unlock _ => 1
  | .exit_flag _ => 2
  | .exit_lock => 3
  | .unlock_shutdown | .pop_failed | .bail_queue | .bail_active => 4
  | .pop => 5
  | .check_shutdown => 6
  | .check_queue => 7
  | .lock_queue | .cond_wait => 8
  | .unlock_dec => 9
  | .broadcast_dec => 10
  | .dec => 11
  | .lock_dec => 12
  | .free => 13
  | .run => 14
  | .unlock_inc => 15
  | .broadcast_inc => 16
  | .inc => 17
  | .lock_inc => 18
  | .unlock_queue => 19
  | .signal_more => 28

/-- The points of `coin_tpool_wait`, less that of a failed `pthread_cond_wait`. -/
def client_pc.inWait : client_pc φ → Bool
  | .wait_lock_active | .wait_check_active | .wait_blocked | .wait_check_size
  | .wait_unlock_again | .wait_unlock_active | .wait_lock_queue | .wait_read_size
  | .wait_unlock_queue _ => true
  | _ => false

/-- The steps of a client to its return, with those of the workers that it wakes, `n` of them at
most. A call of `coin_tpool_wait` has no such bound. -/
def client_pc.left (n : Nat) : client_pc φ → Nat
  | .submit_alloc .. => 37
  | .submit_lock .. => 36
  | .submit_push .. => 35
  | .submit_signal => 10
  | .submit_push_failed | .submit_signal_failed | .submit_unlock => 1
  | .stop_lock => 9 * n + 10
  | .stop_flag => 9 * n + 9
  | .stop_broadcast => 9 * n + 8
  | .stop_unlock => n + 7
  | .stop_join i _ => n - i + 6
  | .destroy_queue_cond => 5
  | .destroy_queue_mutex => 4
  | .destroy_queue => 3
  | .destroy_active_cond => 2
  | .destroy_active_mutex | .stop_broadcast_failed | .wait_cond_failed => 1
  | _ => 0

/-- The 8 steps of each worker that is not asleep. -/
def awake (waiting : Fin n → Bool) : Nat := total (fun b => if b then 0 else 8) waiting

/-- A task in the queue is 24 steps of the worker that pops it. -/
def Pool.left [Fintype γ] (s : Pool n γ φ) : Nat :=
  24 * s.p_work_queue.length + total (fun x => x.pc.left) s.workers + awake s.q_waiting +
    total (fun y => y.pc.left n) s.clients

theorem awake_sleep {waiting : Fin n → Bool} {w : Fin n} (h : waiting w = false) :
    awake (Function.update waiting w true) + 8 = awake waiting := by
  obtain ⟨rest, hold, hnew⟩ := total_split (fun b => if b then 0 else 8) waiting w
  unfold awake
  rw [hold, hnew, h]
  simp

theorem awake_wake (waiting : Fin n → Bool) (w : Fin n) :
    awake (Function.update waiting w false) ≤ awake waiting + 8 := by
  obtain ⟨rest, hold, hnew⟩ := total_split (fun b => if b then 0 else 8) waiting w
  unfold awake
  rw [hold, hnew]
  simp only [Bool.false_eq_true, if_false]
  omega

theorem awake_signal {o : Outcome n} {waiting waiting' : Fin n → Bool}
    (h : signal o waiting = some waiting') : awake waiting' ≤ awake waiting + 8 := by
  unfold signal at h
  split at h
  · cases h
    exact Nat.le_add_right _ _
  · split at h
    · split at h
      · cases h
        exact awake_wake waiting _
      · cases h
    · split at h
      · cases h
        exact Nat.le_add_right _ _
      · cases h

theorem awake_le (waiting : Fin n → Bool) : awake waiting ≤ 8 * n := by
  have hle : awake waiting ≤ Fintype.card (Fin n) * 8 := by
    apply total_le
    intro w
    split <;> omega
  rw [Fintype.card_fin] at hle
  omega

/-! ## The steps of a worker -/

/-- A step of worker `w` whose pthread call succeeds, that makes its record `x` to `x'`. -/
structure WorkerPass (w : Fin n) (o : Outcome n) (x x' : Worker φ) (s s' : Pool n γ φ) :
    Prop where
  asleep : ∀ v, s'.q_waiting v = true →
      (v = w ∧ x'.pc = .cond_wait) ∨ (s.q_waiting v = true ∧ (v = w → x.pc ≠ .cond_wait)) := by
    refine fun v hv => Or.inr ⟨hv, fun _ hpc => ?_⟩
    cases hpc
  checked : x'.pc = .check_shutdown → s.b_shutdown = true ∨ s.p_work_queue ≠ [] := by
    intro hpc
    cases hpc
  popping : x'.pc = .pop → x.pc = .check_shutdown := by
    intro hpc
    cases hpc
  starved : x'.pc = .pop_failed → x.pc = .pop ∧ s.p_work_queue = [] := by
    intro hpc
    cases hpc
  told : (∀ c, s'.a_waiting c = false) ∨ s'.a_waiting = s.a_waiting ∧ x.pc ≠ .broadcast_dec := by
    refine Or.inr ⟨rfl, fun hpc => ?_⟩
    cases hpc
  finished : s'.active_tasks = 0 → s.active_tasks = 0 ∨ x'.pc = .broadcast_dec := by
    exact Or.inl
  flag : s'.b_shutdown = s.b_shutdown ∨ x.pc = .pop_failed ∨ x.pc.stopping = true := by
    exact Or.inl rfl
  gone : (s'.tpool_queue_mutex = .destroyed → s.tpool_queue_mutex = .destroyed) ∧
      (s'.active_tasks_mutex = .destroyed → s.active_tasks_mutex = .destroyed) := by
    exact ⟨id, id⟩
  left : o.spurious = false → (x.pc ≠ .cond_wait → s.q_waiting w = false) → x.pc ≠ .pop_failed →
    (x.pc.stopping = true → s.b_shutdown = true) →
    24 * s'.p_work_queue.length + x'.pc.left + awake s'.q_waiting <
      24 * s.p_work_queue.length + x.pc.left + awake s.q_waiting

/-- A step that wakes nobody and leaves the queue and the count alone. -/
theorem WorkerPass.quiet {w : Fin n} {o : Outcome n} {x x' : Worker φ} {s s' : Pool n γ φ}
    (hgone : (s'.tpool_queue_mutex = .destroyed → s.tpool_queue_mutex = .destroyed) ∧
      (s'.active_tasks_mutex = .destroyed → s.active_tasks_mutex = .destroyed))
    (hchecked : x'.pc = .check_shutdown → s.b_shutdown = true ∨ s.p_work_queue ≠ [])
    (hpopping : x'.pc = .pop → x.pc = .check_shutdown)
    (hleft : x'.pc.left < x.pc.left := by simp [worker_pc.left])
    (hq : s'.q_waiting = s.q_waiting := by exact rfl)
    (ha : s'.a_waiting = s.a_waiting := by exact rfl)
    (hqueue : s'.p_work_queue = s.p_work_queue := by exact rfl)
    (hactive : s'.active_tasks = s.active_tasks := by exact rfl)
    (hflag : s'.b_shutdown = s.b_shutdown := by exact rfl)
    (hpc : x.pc ≠ .cond_wait ∧ x.pc ≠ .broadcast_dec ∧ x'.pc ≠ .pop_failed := by
      exact ⟨nofun, nofun, nofun⟩) :
    WorkerPass w o x x' s s' where
  asleep v hv := Or.inr ⟨hq ▸ hv, fun _ => hpc.1⟩
  checked := hchecked
  popping := hpopping
  starved h := absurd h hpc.2.2
  told := Or.inr ⟨ha, hpc.2.1⟩
  finished h := Or.inl (hactive ▸ h)
  flag := Or.inl hflag
  gone := hgone
  left _ _ _ _ := by
    rw [hq, hqueue]
    omega

/-- No thread is asleep behind a broadcast. -/
theorem none_asleep {τ : Type} (waiting : τ → Bool) (v : τ) {P : Prop}
    (h : broadcast 0 waiting v = true) : P := by
  rw [broadcast_ok rfl] at h
  cases h

variable [DecidableEq γ]

/-- Everything that a step of a worker whose call succeeds does to sleep and to the work left. -/
theorem worker_pass_cases {w : Fin n} {o : Outcome n} {s s' : Pool n γ φ}
    (h : worker_step w o s = some s') (hr : o.res = 0) :
    ∃ x, s'.workers = Function.update s.workers w x ∧
      WorkerPass w o (s.workers w) x s s' := by
  unfold worker_step at h
  generalize s.workers w = x at h ⊢
  obtain ⟨pc, p_task, err⟩ := x
  simp only [hr, if_true] at h
  cases pc with
  | lock_queue | exit_lock =>
    obtain ⟨m, hm, rfl⟩ := Option.map_eq_some_iff.mp h
    exact ⟨_, rfl, .quiet ⟨Mutex.destroyed_of_lock hm, id⟩ nofun nofun⟩
  | lock_inc | lock_dec =>
    obtain ⟨m, hm, rfl⟩ := Option.map_eq_some_iff.mp h
    exact ⟨_, rfl, .quiet ⟨id, Mutex.destroyed_of_lock hm⟩ nofun nofun⟩
  | check_queue =>
    simp only at h
    split at h
    · rename_i hempty
      cases h
      refine ⟨_, rfl, { asleep := fun v hv => ?_, gone := ⟨Mutex.destroyed_of_unlock, id⟩,
                        left := fun _ hawake _ _ => ?_ }⟩
      · by_cases hvw : v = w
        · exact Or.inl ⟨hvw, rfl⟩
        · simp only [Pool.put, Function.update_of_ne hvw] at hv
          exact Or.inr ⟨hv, fun h => absurd h hvw⟩
      · have hsleep := awake_sleep (hawake nofun)
        simp only [Pool.put, worker_pc.left]
        omega
    · rename_i hwork
      cases h
      refine ⟨_, rfl, .quiet ⟨id, id⟩ (fun _ => ?_) nofun⟩
      by_cases hflag : s.b_shutdown = true
      · exact Or.inl hflag
      · refine Or.inr fun hnil => hwork ⟨Bool.eq_false_iff.mpr hflag, ?_⟩
        rw [hnil]
        rfl
  | cond_wait =>
    simp only at h
    split at h
    · cases h
    · rename_i hsleeps
      obtain ⟨m, hm, rfl⟩ := Option.map_eq_some_iff.mp h
      refine ⟨_, rfl, { asleep := fun v hv => ?_, gone := ⟨Mutex.destroyed_of_lock hm, id⟩,
                        left := fun hcalm _ _ _ => ?_ }⟩
      · by_cases hvw : v = w
        · simp [Pool.put, hvw] at hv
        · simp only [Pool.put, Function.update_of_ne hvw] at hv
          exact Or.inr ⟨hv, fun h => absurd h hvw⟩
      · have hwoken : s.q_waiting w = false := Bool.eq_false_iff.mpr fun h => hsleeps ⟨h, hcalm⟩
        have hsame : Function.update s.q_waiting w false = s.q_waiting := by
          rw [← hwoken, Function.update_eq_self]
        simp only [Pool.put, worker_pc.left, hsame]
        omega
  | check_shutdown =>
    cases h
    split
    · exact ⟨_, rfl, .quiet ⟨id, id⟩ nofun nofun⟩
    · exact ⟨_, rfl, .quiet ⟨id, id⟩ nofun fun _ => rfl⟩
  | pop =>
    simp only at h
    split at h
    · rename_i hnil
      cases h
      refine ⟨_, rfl, { starved := fun _ => ⟨rfl, hnil⟩, left := fun _ _ _ _ => ?_ }⟩
      simp [Pool.put, worker_pc.left]
    · rename_i t q hq
      cases h
      refine ⟨_, rfl, { left := fun _ _ _ _ => ?_ }⟩
      simp only [Pool.put, worker_pc.left, hq, List.length_cons]
      omega
  | pop_failed =>
    cases h
    exact ⟨_, rfl, { asleep := fun v => none_asleep s.q_waiting v, flag := .inr (.inl rfl),
                     left := fun _ _ h => absurd rfl h }⟩
  | signal_more =>
    simp only at h
    split at h
    · cases h
      exact ⟨_, rfl, .quiet ⟨id, id⟩ nofun nofun⟩
    · obtain ⟨m, hm, rfl⟩ := Option.map_eq_some_iff.mp h
      have hawake := (signal_some hm).1
      refine ⟨_, rfl, { asleep := fun v hv => .inr ⟨?_, fun _ hpc => ?_⟩,
                        left := fun _ _ _ _ => ?_ }⟩
      · have hv : m v = true := hv
        by_contra hv'
        rw [hawake v (Bool.eq_false_iff.mpr hv')] at hv
        cases hv
      · cases hpc
      · have hle := awake_signal hm
        simp only [Pool.put, worker_pc.left]
        omega
  | inc =>
    cases h
    refine ⟨_, rfl, { finished := fun h => absurd h (Nat.succ_ne_zero _),
                      left := fun _ _ _ _ => ?_ }⟩
    simp [Pool.put, worker_pc.left]
  | dec =>
    cases h
    refine ⟨_, rfl, { finished := fun _ => .inr rfl, left := fun _ _ _ _ => ?_ }⟩
    simp [Pool.put, worker_pc.left]
  | broadcast_inc | broadcast_dec =>
    cases h
    refine ⟨_, rfl, { told := .inl fun c => ?_, left := fun _ _ _ _ => ?_ }⟩
    · show broadcast 0 s.a_waiting c = false
      exact broadcast_ok rfl c
    · simp [Pool.put, worker_pc.left]
  | exit_flag locked =>
    cases h
    split
    · exact ⟨_, rfl, .quiet ⟨id, id⟩ nofun nofun⟩
    · rename_i hflag
      exact ⟨_, rfl, { asleep := fun v => none_asleep s.q_waiting v, flag := .inr (.inr rfl),
                       left := fun _ _ _ hset => absurd (hset rfl) hflag }⟩
  | run | free =>
    cases h
    exact ⟨_, rfl, .quiet ⟨id, id⟩ nofun nofun⟩
  | exited => cases h
  | unlock_inc | unlock_dec | bail_active =>
    cases h
    exact ⟨_, rfl, .quiet ⟨id, Mutex.destroyed_of_unlock⟩ nofun nofun⟩
  | _ =>
    cases h
    exact ⟨_, rfl, .quiet ⟨Mutex.destroyed_of_unlock, id⟩ nofun nofun⟩

/-! ## The steps of a client -/

/-- A step of a client whose pthread call succeeds, that makes its record `y` to `y'`. -/
structure ClientPass (y y' : Client φ) (s s' : Pool n γ φ) : Prop where
  waits : ∀ d, s'.a_waiting d = true → s.a_waiting d = true ∨ 0 < s.active_tasks := by
    exact fun _ => Or.inl
  joins : ∀ i, y'.pc = .stop_join i .COIN_PTHREAD_JOIN_ERROR →
      ∃ j, y.pc = .stop_join j .COIN_PTHREAD_JOIN_ERROR := by
    intro i hpc
    cases hpc
  gone : s'.tpool_queue_mutex = .destroyed →
      s.tpool_queue_mutex = .destroyed ∨ y.pc = .destroy_queue_mutex := by
    exact Or.inl
  gone_active : s'.active_tasks_mutex = .destroyed →
      s.active_tasks_mutex = .destroyed ∨ y.pc = .destroy_active_mutex := by
    exact Or.inl
  goes_on : y.pc.inWait = true → s'.q_waiting = s.q_waiting ∧
      (y'.pc.inWait = true ∨ y'.pc = .idle ∧ y'.status = .COIN_SUCCESS) := by
    intro hin
    cases hin
  left : y.pc.inWait = false → y'.pc.inWait = false ∧
    24 * s'.p_work_queue.length + y'.pc.left n + awake s'.q_waiting <
      24 * s.p_work_queue.length + y.pc.left n + awake s.q_waiting

omit [DecidableEq γ] in
/-- A step out of `coin_tpool_wait` that wakes nobody and leaves the queue alone. -/
theorem ClientPass.quiet {y y' : Client φ} {s s' : Pool n γ φ}
    (hq : s'.tpool_queue_mutex = .destroyed → s.tpool_queue_mutex = .destroyed)
    (hactive : s'.active_tasks_mutex = .destroyed → s.active_tasks_mutex = .destroyed)
    (hjoin : ∀ i, y'.pc = .stop_join i .COIN_PTHREAD_JOIN_ERROR →
      ∃ j, y.pc = .stop_join j .COIN_PTHREAD_JOIN_ERROR := by exact nofun)
    (hleft : y'.pc.left n < y.pc.left n := by simp [client_pc.left])
    (hwait : y.pc.inWait = false ∧ y'.pc.inWait = false := by exact ⟨rfl, rfl⟩)
    (hwaiting : s'.q_waiting = s.q_waiting := by exact rfl)
    (ha : s'.a_waiting = s.a_waiting := by exact rfl)
    (hqueue : s'.p_work_queue = s.p_work_queue := by exact rfl) :
    ClientPass y y' s s' where
  waits d hd := Or.inl (ha ▸ hd)
  joins := hjoin
  gone h := Or.inl (hq h)
  gone_active h := Or.inl (hactive h)
  goes_on h := by
    rw [hwait.1] at h
    cases h
  left _ := by
    refine ⟨hwait.2, ?_⟩
    rw [hwaiting, hqueue]
    omega

omit [DecidableEq γ] in
/-- A step of `coin_tpool_wait` that puts nobody to sleep. -/
theorem ClientPass.inside {y y' : Client φ} {s s' : Pool n γ φ}
    (hq : s'.tpool_queue_mutex = .destroyed → s.tpool_queue_mutex = .destroyed)
    (hactive : s'.active_tasks_mutex = .destroyed → s.active_tasks_mutex = .destroyed)
    (hto : y'.pc.inWait = true ∨ y'.pc = .idle ∧ y'.status = .COIN_SUCCESS)
    (hjoin : ∀ i, y'.pc = .stop_join i .COIN_PTHREAD_JOIN_ERROR →
      ∃ j, y.pc = .stop_join j .COIN_PTHREAD_JOIN_ERROR := by exact nofun)
    (hwait : y.pc.inWait = true := by exact rfl)
    (hwaiting : s'.q_waiting = s.q_waiting := by exact rfl)
    (ha : ∀ d, s'.a_waiting d = true → s.a_waiting d = true := by exact fun _ => id) :
    ClientPass y y' s s' where
  waits d hd := Or.inl (ha d hd)
  joins := hjoin
  gone h := Or.inl (hq h)
  gone_active h := Or.inl (hactive h)
  goes_on _ := ⟨hwaiting, hto⟩
  left h := by
    rw [hwait] at h
    cases h

/-- Everything that a step of a client whose call succeeds does to sleep and to the work left. -/
theorem client_pass_cases {c : γ} {o : Outcome n} {s s' : Pool n γ φ}
    (h : client_step c o s = some s') (hr : o.res = 0) :
    ∃ y, s'.clients = Function.update s.clients c y ∧ ClientPass (s.clients c) y s s' := by
  unfold client_step at h
  generalize hy : s.clients c = y at h ⊢
  obtain ⟨pc, status⟩ := y
  simp only [hr, if_true] at h
  cases pc with
  | idle => cases h
  | submit_alloc work free_arg =>
    simp only at h
    split at h <;> cases h
    · exact ⟨_, rfl, .quiet id id⟩
    · exact ⟨_, rfl, .quiet id id⟩
  | submit_lock work free_arg | stop_lock =>
    obtain ⟨m, hm, rfl⟩ := Option.map_eq_some_iff.mp h
    exact ⟨_, rfl, .quiet (Mutex.destroyed_of_lock hm) id⟩
  | submit_push work free_arg =>
    simp only at h
    split at h <;> cases h
    · refine ⟨_, rfl, { left := fun _ => ⟨rfl, ?_⟩ }⟩
      simp only [Pool.goto, client_pc.left, List.length_append, List.length_singleton]
      omega
    · exact ⟨_, rfl, .quiet id id⟩
  | submit_push_failed | submit_signal_failed | submit_unlock | stop_broadcast_failed
  | stop_unlock =>
    cases h
    exact ⟨_, rfl, .quiet Mutex.destroyed_of_unlock id⟩
  | submit_signal =>
    obtain ⟨m, hm, rfl⟩ := Option.map_eq_some_iff.mp h
    refine ⟨_, rfl, { left := fun _ => ⟨rfl, ?_⟩ }⟩
    have hle := awake_signal hm
    simp only [Pool.goto, client_pc.left]
    omega
  | wait_lock_active =>
    obtain ⟨m, hm, rfl⟩ := Option.map_eq_some_iff.mp h
    exact ⟨_, rfl, .inside id (Mutex.destroyed_of_lock hm) (.inl rfl)⟩
  | wait_check_active =>
    simp only at h
    split at h
    · rename_i hactive
      cases h
      refine ⟨_, rfl, { waits := fun _ _ => .inr hactive,
                        gone_active := fun h => .inl (Mutex.destroyed_of_unlock h),
                        goes_on := fun _ => ⟨rfl, .inl rfl⟩, left := fun hout => ?_ }⟩
      cases hout
    · cases h
      exact ⟨_, rfl, .inside id id (.inl rfl)⟩
  | wait_blocked =>
    simp only at h
    split at h
    · cases h
    · obtain ⟨m, hm, rfl⟩ := Option.map_eq_some_iff.mp h
      refine ⟨_, rfl, .inside id (Mutex.destroyed_of_lock hm) (.inl rfl) nofun rfl rfl ?_⟩
      intro d hd
      by_cases hdc : d = c
      · simp [Pool.goto, hdc] at hd
      · simpa only [Pool.goto, Function.update_of_ne hdc] using hd
  | wait_cond_failed =>
    cases h
    exact ⟨_, rfl, .quiet id Mutex.destroyed_of_unlock⟩
  | wait_check_size =>
    cases h
    split
    · exact ⟨_, rfl, .inside id id (.inl rfl)⟩
    · exact ⟨_, rfl, .inside id id (.inl rfl)⟩
  | wait_unlock_again | wait_unlock_active =>
    cases h
    exact ⟨_, rfl, .inside id Mutex.destroyed_of_unlock (.inl rfl)⟩
  | wait_lock_queue =>
    obtain ⟨m, hm, rfl⟩ := Option.map_eq_some_iff.mp h
    exact ⟨_, rfl, .inside (Mutex.destroyed_of_lock hm) id (.inl rfl)⟩
  | wait_read_size =>
    cases h
    exact ⟨_, rfl, .inside id id (.inl rfl)⟩
  | wait_unlock_queue b_isempty =>
    simp only at h
    split at h <;> cases h
    · exact ⟨_, rfl, .inside Mutex.destroyed_of_unlock id (.inr ⟨rfl, rfl⟩)⟩
    · exact ⟨_, rfl, .inside Mutex.destroyed_of_unlock id (.inl rfl)⟩
  | stop_flag =>
    cases h
    exact ⟨_, rfl, .quiet id id⟩
  | stop_broadcast =>
    cases h
    refine ⟨_, rfl, { left := fun _ => ⟨rfl, ?_⟩ }⟩
    have hle := awake_le (broadcast 0 s.q_waiting)
    simp only [Pool.goto, client_pc.left]
    omega
  | stop_join i st =>
    simp only [ne_eq, not_true_eq_false, if_false] at h
    split at h
    · rename_i hi
      split at h <;> cases h
      refine ⟨_, rfl, .quiet id id ?_ ?_⟩
      · rintro j hj
        cases hj
        exact ⟨i, rfl⟩
      · simp only [client_pc.left]
        omega
    · split at h <;> cases h
      · exact ⟨_, rfl, .quiet id id⟩
      · exact ⟨_, rfl, .quiet id id⟩
  | destroy_queue_cond | destroy_active_cond =>
    cases h
    exact ⟨_, rfl, .quiet id id⟩
  | destroy_queue_mutex =>
    obtain ⟨m, hm, rfl⟩ := Option.map_eq_some_iff.mp h
    refine ⟨_, rfl, { gone := fun _ => .inr rfl, left := fun _ => ⟨rfl, ?_⟩ }⟩
    simp [Pool.goto, client_pc.left]
  | destroy_queue =>
    cases h
    refine ⟨_, rfl, { left := fun _ => ⟨rfl, ?_⟩ }⟩
    simp only [Pool.goto, client_pc.left, List.length_nil]
    omega
  | destroy_active_mutex =>
    obtain ⟨m, hm, rfl⟩ := Option.map_eq_some_iff.mp h
    refine ⟨_, rfl, { gone_active := fun _ => .inr rfl, left := fun _ => ⟨rfl, ?_⟩ }⟩
    simp [Pool.give, client_pc.left]

/-! ## Both views of a step -/

/-- The new record of the worker is the same in both views. -/
theorem worker_ok_cases {w : Fin n} {o : Outcome n} {s s' : Pool n γ φ}
    (h : worker_step w o s = some s') (hr : o.res = 0) :
    ∃ x, WorkerStep w 0 (s.workers w) x s s' ∧ WorkerPass w o (s.workers w) x s s' := by
  obtain ⟨x, hw⟩ := worker_step_cases h
  obtain ⟨x', hx', hpass⟩ := worker_pass_cases h hr
  rw [hr] at hw
  have hsame : x' = x := by
    have hself := hw.self
    rw [hx', Function.update_self] at hself
    exact hself
  rw [hsame] at hpass
  exact ⟨x, hw, hpass⟩

theorem client_ok_cases {c : γ} {o : Outcome n} {s s' : Pool n γ φ}
    (h : client_step c o s = some s') (hr : o.res = 0) :
    ∃ y, ClientStep c 0 (s.clients c) y s s' ∧ ClientPass (s.clients c) y s s' := by
  obtain ⟨y, hc⟩ := client_step_cases h
  obtain ⟨y', hy', hpass⟩ := client_pass_cases h hr
  rw [hr] at hc
  have hsame : y' = y := by
    have hself := hc.self
    rw [hy', Function.update_self] at hself
    exact hself
  rw [hsame] at hpass
  exact ⟨y, hc, hpass⟩

end pingpong.concurinc
