-- What one step of a worker or of a client does: to its own record, to the two
-- mutexes, to the shutdown flag and to the task objects.
import PingPong.Pool

namespace pingpong.concurinc

open mutex

variable {n : Nat} {γ φ : Type}

/-! ## Where a worker is with its task -/

/-- `idle` is before the pop, `taken` from there to the count up of the active tasks, `counted`
from there to the call of the task, `ran` to the free, and `done` to the count down. A worker
that is `leaving` never comes back to the loop. -/
inductive Phase
  | idle
  | taken
  | counted
  | ran
  | done
  | leaving
  deriving DecidableEq, Repr

def worker_pc.phase : worker_pc → Phase
  | .lock_queue | .check_queue | .cond_wait | .check_shutdown | .unlock_shutdown | .pop
  | .pop_failed | .broadcast_dec | .unlock_dec => .idle
  | .signal_more | .unlock_queue | .lock_inc | .inc => .taken
  | .broadcast_inc | .unlock_inc | .run => .counted
  | .free => .ran
  | .lock_dec | .dec => .done
  | .bail_queue | .bail_active | .exit_lock | .exit_flag _ | .exit_unlock _ | .exited => .leaving

/-- The points of a worker under `tpool_queue_mutex`. -/
def worker_pc.inQueue : worker_pc → Bool
  | .check_queue | .check_shutdown | .unlock_shutdown | .pop | .pop_failed | .signal_more
  | .unlock_queue | .bail_queue => true
  | .exit_flag locked | .exit_unlock locked => locked
  | _ => false

/-- The points of a worker that has seen the shutdown flag, or is behind its loop. -/
def worker_pc.stopping : worker_pc → Bool
  | .unlock_shutdown | .bail_queue | .bail_active | .exit_lock | .exit_flag _ | .exit_unlock _
  | .exited => true
  | _ => false

/-- The points of a worker under `active_tasks_mutex`. -/
def worker_pc.inActive : worker_pc → Bool
  | .inc | .broadcast_inc | .unlock_inc | .dec | .broadcast_dec | .unlock_dec
  | .bail_active => true
  | _ => false

def client_pc.inQueue : client_pc φ → Bool
  | .submit_push .. | .submit_push_failed | .submit_signal | .submit_signal_failed
  | .submit_unlock | .wait_read_size | .wait_unlock_queue _ | .stop_flag | .stop_broadcast
  | .stop_broadcast_failed | .stop_unlock => true
  | _ => false

def client_pc.inActive : client_pc φ → Bool
  | .wait_check_active | .wait_check_size | .wait_unlock_again | .wait_unlock_active
  | .wait_cond_failed => true
  | _ => false

/-- The points of `coin_tpool_ctx_destroy` after `tpool_queue_mutex` is destroyed. -/
def client_pc.pastMutex : client_pc φ → Bool
  | .destroy_queue | .destroy_active_cond | .destroy_active_mutex => true
  | _ => false

/-- The points of `coin_tpool_destroy`. -/
def client_pc.inDestroy : client_pc φ → Bool
  | .stop_lock | .stop_flag | .stop_broadcast | .stop_broadcast_failed | .stop_unlock
  | .stop_join .. | .destroy_queue_cond | .destroy_queue_mutex | .destroy_queue
  | .destroy_active_cond | .destroy_active_mutex => true
  | _ => false

/-- The points of `coin_tpool_stop_workers` behind its store to `b_shutdown`. -/
def client_pc.toldToStop : client_pc φ → Bool
  | .stop_broadcast | .stop_broadcast_failed | .stop_unlock | .stop_join .. => true
  | _ => false

/-- The points of `coin_tpool_stop_workers` behind its broadcast. -/
def client_pc.wokeAll : client_pc φ → Bool
  | .stop_unlock | .stop_join .. => true
  | _ => false

/-- The work of a call of `coin_tpool_submit` that has not put it in the queue. -/
def client_pc.submits : client_pc φ → Option φ
  | .submit_alloc work _ | .submit_lock work _ | .submit_push work _ => some work
  | _ => none

/-- The threads that are under `tpool_queue_mutex`. -/
def Pool.inQueue (s : Pool n γ φ) : Thread n γ → Prop
  | .worker w => (s.workers w).pc.inQueue = true
  | .client c => (s.clients c).pc.inQueue = true

/-- The threads that are under `active_tasks_mutex`. -/
def Pool.inActive (s : Pool n γ φ) : Thread n γ → Prop
  | .worker w => (s.workers w).pc.inActive = true
  | .client c => (s.clients c).pc.inActive = true

/-! ## The task objects -/

/-- The fields of a pool that say where the task objects are. -/
structure Tasks (φ : Type) where
  queue : List (coin_task_t φ)
  active : Nat
  pushed : List (coin_task_t φ)
  popped : List (coin_task_t φ)
  ran : List (coin_task_t φ)
  freed : List (coin_task_t φ)
  dropped : List (coin_task_t φ)

def Pool.tasks (s : Pool n γ φ) : Tasks φ :=
  ⟨s.p_work_queue, s.active_tasks, s.pushed, s.popped, s.ran, s.freed, s.dropped⟩

/-- What a step of a worker, with record `x` before and `x'` after, does to the task objects. -/
inductive WorkerMove (res : Int) (x x' : Worker φ) (d : Tasks φ) : Tasks φ → Prop
  | quiet (hphase : x'.pc.phase = x.pc.phase ∨ x'.pc.phase = .leaving)
      (htask : x'.p_task = x.p_task ∨ (x.pc = .pop ∧ x'.p_task = none))
      (hleave : x'.pc.phase = .leaving → res = 0 → x.pc.phase = .idle ∨ x.pc.phase = .leaving)
      (hpc : x.pc ≠ .run ∧ x.pc ≠ .free := by exact ⟨nofun, nofun⟩) :
      WorkerMove res x x' d d
  | pop (t : coin_task_t φ) (q : List (coin_task_t φ)) (hpc : x.pc = .pop)
      (hphase : x'.pc.phase = .taken) (hq : d.queue = t :: q) (htask : x'.p_task = some t) :
      WorkerMove res x x' d { d with queue := q, popped := d.popped ++ [t] }
  | inc (hpc : x.pc = .inc) (hphase : x'.pc.phase = .counted) (htask : x'.p_task = x.p_task) :
      WorkerMove res x x' d { d with active := d.active + 1 }
  | run (hpc : x.pc = .run) (hphase : x'.pc.phase = .ran) (htask : x'.p_task = x.p_task) :
      WorkerMove res x x' d { d with ran := d.ran ++ x.p_task.toList }
  | free (hpc : x.pc = .free) (hphase : x'.pc.phase = .done) (htask : x'.p_task = none) :
      WorkerMove res x x' d { d with freed := d.freed ++ x.p_task.toList }
  | dec (hpc : x.pc = .dec) (hphase : x'.pc.phase = .idle) (htask : x'.p_task = x.p_task) :
      WorkerMove res x x' d { d with active := size_sub d.active 1 }

/-- What a step of a client, from point `pc` to `pc'`, does to the task objects. -/
inductive ClientMove (pc pc' : client_pc φ) (d : Tasks φ) : Tasks φ → Prop
  | quiet : ClientMove pc pc' d d
  | push (work : φ) (free_arg : Bool) (hpc : pc = .submit_push work free_arg)
      (hsignal : pc' = .submit_signal) :
      ClientMove pc pc' d { d with
        queue := d.queue ++ [⟨d.pushed.length, work, free_arg⟩]
        pushed := d.pushed ++ [⟨d.pushed.length, work, free_arg⟩] }
  | drop (hpc : pc = .destroy_queue) :
      ClientMove pc pc' d { d with queue := [], dropped := d.dropped ++ d.queue }

/-! ## What the moves leave alone -/

section Worker

variable {res : Int} {x x' : Worker φ} {d d' : Tasks φ}

theorem WorkerMove.pushed (h : WorkerMove res x x' d d') : d'.pushed = d.pushed := by
  cases h <;> rfl

theorem WorkerMove.dropped (h : WorkerMove res x x' d d') : d'.dropped = d.dropped := by
  cases h <;> rfl

theorem WorkerMove.popped (h : WorkerMove res x x' d d') (hpc : x.pc ≠ .pop) :
    d'.popped = d.popped := by
  cases h with
  | pop t q hpop => exact absurd hpop hpc
  | _ => rfl

theorem WorkerMove.active (h : WorkerMove res x x' d d') (hpc : x.pc.inActive ≠ true) :
    d'.active = d.active := by
  cases h with
  | inc hinc =>
    rw [hinc] at hpc
    exact absurd rfl hpc
  | dec hdec =>
    rw [hdec] at hpc
    exact absurd rfl hpc
  | _ => rfl

/-- A step of a worker puts nothing into the queue. -/
theorem WorkerMove.mem_queue (h : WorkerMove res x x' d d') {t : coin_task_t φ}
    (ht : t ∈ d'.queue) : t ∈ d.queue := by
  cases h with
  | pop u q hpc hphase hq =>
    rw [hq]
    exact List.mem_cons_of_mem u ht
  | _ => exact ht

/-- A task that a worker has was its task before, or comes from the queue. -/
theorem WorkerMove.took (h : WorkerMove res x x' d d') {t : coin_task_t φ}
    (ht : x'.p_task = some t) : x.p_task = some t ∨ t ∈ d.queue := by
  cases h with
  | quiet hphase htask =>
    rcases htask with hsame | ⟨-, hnone⟩
    · exact Or.inl (hsame ▸ ht)
    · rw [hnone] at ht
      cases ht
  | pop u q hpc hphase hq htask =>
    rw [htask] at ht
    cases ht
    rw [hq]
    exact Or.inr List.mem_cons_self
  | free hpc hphase htask =>
    rw [htask] at ht
    cases ht
  | inc hpc hphase htask => exact Or.inl (htask ▸ ht)
  | run hpc hphase htask => exact Or.inl (htask ▸ ht)
  | dec hpc hphase htask => exact Or.inl (htask ▸ ht)

theorem WorkerMove.mem_ran (h : WorkerMove res x x' d d') {t : coin_task_t φ}
    (ht : t ∈ d'.ran) : t ∈ d.ran ∨ x.p_task = some t := by
  cases h with
  | run => exact (List.mem_append.mp ht).imp_right Option.mem_toList.mp
  | _ => exact Or.inl ht

theorem WorkerMove.queue_nil (h : WorkerMove res x x' d d') (hq : d.queue = []) :
    d'.queue = [] := by
  refine List.eq_nil_iff_forall_not_mem.mpr fun t ht => ?_
  have hmem := h.mem_queue ht
  rw [hq] at hmem
  cases hmem

end Worker

section Client

variable {pc pc' : client_pc φ} {d d' : Tasks φ}

theorem ClientMove.active (h : ClientMove pc pc' d d') : d'.active = d.active := by
  cases h <;> rfl

theorem ClientMove.popped (h : ClientMove pc pc' d d') : d'.popped = d.popped := by
  cases h <;> rfl

theorem ClientMove.ran (h : ClientMove pc pc' d d') : d'.ran = d.ran := by
  cases h <;> rfl

theorem ClientMove.dropped (h : ClientMove pc pc' d d') (hpc : pc ≠ .destroy_queue) :
    d'.dropped = d.dropped := by
  cases h with
  | drop hdrop => exact absurd hdrop hpc
  | _ => rfl

/-- Only a push puts a task into the queue. -/
theorem ClientMove.queue (h : ClientMove pc pc' d d') (hpc : pc.submits = none) :
    d'.queue = d.queue ∨ pc = .destroy_queue ∧ d'.queue = [] := by
  cases h with
  | quiet => exact Or.inl rfl
  | push work free_arg hpush =>
    rw [hpush] at hpc
    cases hpc
  | drop hdrop => exact Or.inr ⟨hdrop, rfl⟩

theorem ClientMove.mem_queue (h : ClientMove pc pc' d d') {t : coin_task_t φ}
    (ht : t ∈ d'.queue) : t ∈ d.queue ∨ pc.submits = some t.work := by
  cases h with
  | quiet => exact Or.inl ht
  | push work free_arg hpc =>
    rcases List.mem_append.mp ht with hold | hnew
    · exact Or.inl hold
    · rw [List.mem_singleton.mp hnew, hpc]
      exact Or.inr rfl
  | drop => cases ht

theorem ClientMove.queue_nil (h : ClientMove pc pc' d d') (hq : d.queue = []) :
    d'.queue = [] ∨ pc' = .submit_signal := by
  cases h with
  | quiet => exact Or.inl hq
  | push work free_arg hpc hsignal => exact Or.inr hsignal
  | drop hpc => exact Or.inl rfl

end Client

/-! ## The steps of a worker -/

variable [DecidableEq γ]

/-- A step of worker `w` that makes its record `x` to `x'`. -/
structure WorkerStep (w : Fin n) (res : Int) (x x' : Worker φ) (s s' : Pool n γ φ) : Prop where
  workers : s'.workers = Function.update s.workers w x'
  clients : s'.clients = s.clients
  queue : Mutex.Move res (.worker w) (x.pc.inQueue = true) (x'.pc.inQueue = true)
    s.tpool_queue_mutex s'.tpool_queue_mutex
  active : Mutex.Move res (.worker w) (x.pc.inActive = true) (x'.pc.inActive = true)
    s.active_tasks_mutex s'.active_tasks_mutex
  shutdown : s'.b_shutdown = s.b_shutdown ∨
    (s'.b_shutdown = true ∧ (x.pc.inQueue = true ∨ x.pc = .exit_flag false) ∧
      (res = 0 → ∀ v, s'.q_waiting v = false))
  sleeps : (∀ v, s.q_waiting v = false → s'.q_waiting v = false) ∨
    (s.b_shutdown = false ∧ s.p_work_queue = [] ∧ s'.p_work_queue = [])
  stops : res = 0 → x'.pc.stopping = true → x.pc.stopping = true ∨ s'.b_shutdown = true
  to_pop : x'.pc = .pop → s'.b_shutdown = false
  unlocked : x'.pc = .exit_flag false → res ≠ 0 ∨ x.pc = .exit_flag false
  tasks : WorkerMove res x x' s.tasks s'.tasks

/-- A step that leaves the flag alone. -/
theorem WorkerStep.calm {w : Fin n} {res : Int} {x x' : Worker φ} {s s' : Pool n γ φ}
    (hw : s'.workers = Function.update s.workers w x')
    (hq : Mutex.Move res (.worker w) (x.pc.inQueue = true) (x'.pc.inQueue = true)
      s.tpool_queue_mutex s'.tpool_queue_mutex)
    (ha : Mutex.Move res (.worker w) (x.pc.inActive = true) (x'.pc.inActive = true)
      s.active_tasks_mutex s'.active_tasks_mutex)
    (hpop : x'.pc = .pop → s'.b_shutdown = false)
    (hflag : x'.pc = .exit_flag false → res ≠ 0 ∨ x.pc = .exit_flag false)
    (hd : WorkerMove res x x' s.tasks s'.tasks)
    (hsleep : (∀ v, s.q_waiting v = false → s'.q_waiting v = false) ∨
      (s.b_shutdown = false ∧ s.p_work_queue = [] ∧ s'.p_work_queue = []) := by
        exact .inl fun _ => id)
    (hstop : res = 0 → x'.pc.stopping = true → x.pc.stopping = true ∨ s'.b_shutdown = true := by
        intro h0 hp
        first | exact .inl rfl | exact absurd h0 (by assumption) | cases hp)
    (hc : s'.clients = s.clients := by exact rfl) (hs : s'.b_shutdown = s.b_shutdown := by exact rfl) :
    WorkerStep w res x x' s s' where
  workers := hw
  clients := hc
  queue := hq
  active := ha
  shutdown := Or.inl hs
  sleeps := hsleep
  stops := hstop
  to_pop := hpop
  unlocked := hflag
  tasks := hd

/-- A step that leaves the flag and the task objects alone. -/
theorem WorkerStep.quiet {w : Fin n} {res : Int} {x x' : Worker φ} {s s' : Pool n γ φ}
    (hw : s'.workers = Function.update s.workers w x')
    (hq : Mutex.Move res (.worker w) (x.pc.inQueue = true) (x'.pc.inQueue = true)
      s.tpool_queue_mutex s'.tpool_queue_mutex)
    (ha : Mutex.Move res (.worker w) (x.pc.inActive = true) (x'.pc.inActive = true)
      s.active_tasks_mutex s'.active_tasks_mutex)
    (hphase : x'.pc.phase = x.pc.phase ∨ x'.pc.phase = .leaving)
    (hleave : x'.pc.phase = .leaving → res = 0 → x.pc.phase = .idle ∨ x.pc.phase = .leaving)
    (hsleep : (∀ v, s.q_waiting v = false → s'.q_waiting v = false) ∨
      (s.b_shutdown = false ∧ s.p_work_queue = [] ∧ s'.p_work_queue = []) := by
        exact .inl fun _ => id)
    (hstop : res = 0 → x'.pc.stopping = true → x.pc.stopping = true ∨ s'.b_shutdown = true := by
        intro h0 hp
        first | exact .inl rfl | exact absurd h0 (by assumption) | cases hp)
    (hc : s'.clients = s.clients := by exact rfl) (hs : s'.b_shutdown = s.b_shutdown := by exact rfl)
    (hd : s'.tasks = s.tasks := by exact rfl) (htask : x'.p_task = x.p_task := by exact rfl)
    (hpc : x.pc ≠ .run ∧ x.pc ≠ .free := by exact ⟨nofun, nofun⟩)
    (hpop : x'.pc ≠ .pop := by exact nofun) (hflag : x'.pc ≠ .exit_flag false := by exact nofun) :
    WorkerStep w res x x' s s' :=
  .calm hw hq ha (fun h => absurd h hpop) (fun h => absurd h hflag)
    (hd ▸ .quiet hphase (Or.inl htask) hleave hpc) hsleep hstop hc hs

/-- A signal leaves no more threads waiting. -/
theorem signal_some {o : Outcome n} {waiting waiting' : Fin n → Bool}
    (h : signal o waiting = some waiting') :
    (∀ v, waiting v = false → waiting' v = false) ∧
      (o.res = 0 → 0 < n → ∃ v, waiting' v = false) := by
  unfold signal at h
  split at h
  · rename_i hr
    cases h
    exact ⟨fun _ => id, fun h0 => absurd h0 hr⟩
  · split at h
    · rename_i v _
      split at h
      · cases h
        refine ⟨fun u hu => ?_, fun _ _ => ⟨v, Function.update_self ..⟩⟩
        by_cases huv : u = v
        · rw [huv, Function.update_self]
        · rw [Function.update_of_ne huv]
          exact hu
      · cases h
    · split at h
      · rename_i hnone
        cases h
        exact ⟨fun _ => id, fun _ hn => ⟨⟨0, hn⟩, hnone _⟩⟩
      · cases h

theorem broadcast_ok {τ : Type} {res : Int} {waiting : τ → Bool} (h : res = 0) (v : τ) :
    broadcast res waiting v = false := by
  simp [broadcast, h]

theorem broadcast_awake {τ : Type} {res : Int} {waiting : τ → Bool} (v : τ)
    (h : waiting v = false) : broadcast res waiting v = false := by
  unfold broadcast
  split
  · exact h
  · rfl

/-- The thread that wakes up waits no more, and the others as before. -/
theorem update_awake {waiting : Fin n → Bool} {w v : Fin n} (h : waiting v = false) :
    Function.update waiting w false v = false := by
  by_cases hv : v = w
  · rw [hv, Function.update_self]
  · rw [Function.update_of_ne hv]
    exact h

/-- Everything that a step of a worker can do. -/
theorem worker_step_cases {w : Fin n} {o : Outcome n} {s s' : Pool n γ φ}
    (h : worker_step w o s = some s') : ∃ x, WorkerStep w o.res (s.workers w) x s s' := by
  unfold worker_step at h
  generalize s.workers w = x at h ⊢
  obtain ⟨pc, p_task, err⟩ := x
  cases pc with
  | lock_queue =>
    obtain ⟨m, hm, rfl⟩ := Option.map_eq_some_iff.mp h
    rcases Mutex.lock_eq_some.mp hm with ⟨hr, hf, rfl⟩ | ⟨hr, rfl⟩
    · simp only [hr, if_true]
      exact ⟨_, .quiet rfl (.take hf) (.stay nofun) (.inl rfl) nofun⟩
    · simp only [hr, if_false]
      exact ⟨_, .quiet rfl (.stay nofun) (.stay nofun) (.inr rfl) fun _ h0 => absurd h0 hr⟩
  | check_queue =>
    simp only at h
    split at h
    · split at h
      · rename_i hempty hr
        cases h
        have hqueue : s.p_work_queue = [] := List.length_eq_zero_iff.mp hempty.2
        exact ⟨_, .quiet rfl (.leave 0 nofun) (.stay nofun) (.inl rfl) nofun
          (.inr ⟨hempty.1, hqueue, hqueue⟩)⟩
      · cases h
        exact ⟨_, .quiet rfl (.stay id) (.stay nofun) (.inl rfl) nofun⟩
    · cases h
      exact ⟨_, .quiet rfl (.stay id) (.stay nofun) (.inl rfl) nofun⟩
  | cond_wait =>
    simp only at h
    split at h
    · cases h
    · obtain ⟨m, hm, rfl⟩ := Option.map_eq_some_iff.mp h
      rcases Mutex.lock_eq_some.mp hm with ⟨-, hf, rfl⟩ | ⟨hr, -⟩
      · by_cases hr : o.res = 0
        · simp only [hr, if_true]
          exact ⟨_, .quiet rfl (.take hf) (.stay nofun) (.inl rfl) nofun
            (.inl fun _ => update_awake)⟩
        · simp only [hr, if_false]
          exact ⟨_, .quiet rfl (.take hf) (.stay nofun) (.inl rfl) nofun
            (.inl fun _ => update_awake)⟩
      · exact absurd rfl hr
  | check_shutdown =>
    cases h
    by_cases hs : s.b_shutdown = true
    · simp only [hs, if_true]
      exact ⟨_, .quiet rfl (.stay id) (.stay nofun) (.inl rfl) nofun (.inl fun _ => id)
        fun _ _ => .inr hs⟩
    · simp only [hs, Bool.false_eq_true, if_false]
      exact ⟨_, .calm rfl (.stay id) (.stay nofun) (fun _ => Bool.eq_false_iff.mpr hs) nofun
        (.quiet (.inl rfl) (.inl rfl) nofun)⟩
  | unlock_shutdown =>
    cases h
    exact ⟨_, .quiet rfl (.leave _ nofun) (.stay nofun) (.inr rfl) fun _ _ => .inl rfl⟩
  | pop =>
    simp only at h
    split at h
    · cases h
      exact ⟨_, .calm rfl (.stay id) (.stay nofun) nofun nofun
        (.quiet (.inl rfl) (.inr ⟨rfl, rfl⟩) nofun)⟩
    · rename_i t q hq
      cases h
      exact ⟨_, .calm rfl (.stay id) (.stay nofun) nofun nofun (.pop t q rfl rfl hq rfl)⟩
  | pop_failed =>
    cases h
    refine ⟨_, rfl, rfl, .stay id, .stay nofun, .inr ⟨rfl, .inl rfl, fun h0 v => ?_⟩, .inl ?_,
      fun _ _ => .inr rfl, nofun, nofun, .quiet (.inr rfl) (.inl rfl) fun _ _ => .inl rfl⟩
    · exact broadcast_ok h0 v
    · exact broadcast_awake
  | signal_more =>
    simp only at h
    split at h
    · cases h
      exact ⟨_, .quiet rfl (.stay id) (.stay nofun) (.inl rfl) nofun⟩
    · obtain ⟨m, hm, rfl⟩ := Option.map_eq_some_iff.mp h
      have hawake := (signal_some hm).1
      by_cases hr : o.res = 0
      · simp only [hr, if_true]
        exact ⟨_, .quiet rfl (.stay id) (.stay nofun) (.inl rfl) nofun (.inl hawake)⟩
      · simp only [hr, if_false]
        exact ⟨_, .quiet rfl (.stay id) (.stay nofun) (.inr rfl) (fun _ h0 => absurd h0 hr)
          (.inl hawake)⟩
  | unlock_queue =>
    cases h
    by_cases hr : o.res = 0
    · simp only [hr, if_true]
      exact ⟨_, .quiet rfl (.leave _ nofun) (.stay nofun) (.inl rfl) nofun⟩
    · simp only [hr, if_false]
      exact ⟨_, .quiet rfl (.leave _ nofun) (.stay nofun) (.inr rfl) fun _ h0 => absurd h0 hr⟩
  | lock_inc | lock_dec =>
    obtain ⟨m, hm, rfl⟩ := Option.map_eq_some_iff.mp h
    rcases Mutex.lock_eq_some.mp hm with ⟨hr, hf, rfl⟩ | ⟨hr, rfl⟩
    · simp only [hr, if_true]
      exact ⟨_, .quiet rfl (.stay nofun) (.take hf) (.inl rfl) nofun⟩
    · simp only [hr, if_false]
      exact ⟨_, .quiet rfl (.stay nofun) (.stay nofun) (.inr rfl) fun _ h0 => absurd h0 hr⟩
  | inc =>
    cases h
    exact ⟨_, .calm rfl (.stay nofun) (.stay id) nofun nofun (.inc rfl rfl rfl)⟩
  | broadcast_inc | broadcast_dec =>
    cases h
    by_cases hr : o.res = 0
    · simp only [hr, if_true]
      exact ⟨_, .quiet rfl (.stay nofun) (.stay id) (.inl rfl) nofun⟩
    · simp only [hr, if_false]
      exact ⟨_, .quiet rfl (.stay nofun) (.stay id) (.inr rfl) fun _ h0 => absurd h0 hr⟩
  | unlock_inc | unlock_dec =>
    cases h
    by_cases hr : o.res = 0
    · simp only [hr, if_true]
      exact ⟨_, .quiet rfl (.stay nofun) (.leave _ nofun) (.inl rfl) nofun⟩
    · simp only [hr, if_false]
      exact ⟨_, .quiet rfl (.stay nofun) (.leave _ nofun) (.inr rfl) fun _ h0 => absurd h0 hr⟩
  | run =>
    cases h
    exact ⟨_, .calm rfl (.stay nofun) (.stay nofun) nofun nofun (.run rfl rfl rfl)⟩
  | free =>
    cases h
    exact ⟨_, .calm rfl (.stay nofun) (.stay nofun) nofun nofun (.free rfl rfl rfl)⟩
  | dec =>
    cases h
    exact ⟨_, .calm rfl (.stay nofun) (.stay id) nofun nofun (.dec rfl rfl rfl)⟩
  | bail_queue =>
    cases h
    exact ⟨_, .quiet rfl (.leave _ nofun) (.stay nofun) (.inr rfl) fun _ _ => .inr rfl⟩
  | bail_active =>
    cases h
    exact ⟨_, .quiet rfl (.stay nofun) (.leave _ nofun) (.inr rfl) fun _ _ => .inr rfl⟩
  | exit_lock =>
    obtain ⟨m, hm, rfl⟩ := Option.map_eq_some_iff.mp h
    rcases Mutex.lock_eq_some.mp hm with ⟨hr, hf, rfl⟩ | ⟨hr, rfl⟩
    · simp only [hr, decide_true]
      exact ⟨_, .quiet rfl (.take hf) (.stay nofun) (.inr rfl) fun _ _ => .inr rfl⟩
    · simp only [hr, decide_false]
      exact ⟨_, .calm rfl (.stay nofun) (.stay nofun) nofun (fun _ => .inl hr)
        (.quiet (.inr rfl) (.inl rfl) fun _ _ => .inr rfl)⟩
  | exit_flag locked =>
    cases h
    split
    · exact ⟨_, .quiet rfl (.stay id) (.stay nofun) (.inr rfl) fun _ _ => .inr rfl⟩
    · refine ⟨_, rfl, rfl, .stay id, .stay nofun, .inr ⟨rfl, ?_, fun h0 v => ?_⟩, .inl ?_,
        fun _ _ => .inl rfl, nofun, nofun, .quiet (.inr rfl) (.inl rfl) fun _ _ => .inr rfl⟩
      · cases locked with
        | true => exact .inl rfl
        | false => exact .inr rfl
      · exact broadcast_ok h0 v
      · exact broadcast_awake
  | exit_unlock locked =>
    cases h
    exact ⟨_, .quiet rfl (.leave _ nofun) (.stay nofun) (.inr rfl) fun _ _ => .inr rfl⟩
  | exited => cases h

/-! ## The steps of a client -/

/-- A step of client `c` that makes its record `y` to `y'`. -/
structure ClientStep (c : γ) (res : Int) (y y' : Client φ) (s s' : Pool n γ φ) : Prop where
  clients : s'.clients = Function.update s.clients c y'
  workers : s'.workers = s.workers
  queue : Mutex.Move res (.client c) (y.pc.inQueue = true) (y'.pc.inQueue = true)
    s.tpool_queue_mutex s'.tpool_queue_mutex
  active : Mutex.Move res (.client c) (y.pc.inActive = true) (y'.pc.inActive = true)
    s.active_tasks_mutex s'.active_tasks_mutex
  shutdown : s'.b_shutdown = s.b_shutdown ∨
    (s'.b_shutdown = true ∧ y.pc.inQueue = true ∧ y'.pc = .stop_broadcast)
  awake : ∀ v, s.q_waiting v = false → s'.q_waiting v = false
  signals : y.pc = .submit_signal → res = 0 → 0 < n → ∃ v, s'.q_waiting v = false
  broadcasts : y.pc = .stop_broadcast → res = 0 → ∀ v, s'.q_waiting v = false
  tells : y'.pc.toldToStop = true → y.pc.toldToStop = true ∨ s'.b_shutdown = true
  wakes : y'.pc.wokeAll = true → y.pc.wokeAll = true ∨ ∀ v, s'.q_waiting v = false
  past : y'.pc.pastMutex = true → y.pc.pastMutex = true ∨ s'.tpool_queue_mutex = .destroyed
  destroys : y'.pc.inDestroy = true → y.pc.inDestroy = true ∨ y.pc = .idle
  succeeds : y'.pc = .idle → y'.status = .COIN_SUCCESS →
    y.pc.inQueue = true ∨ y.pc.inDestroy = true
  submits : ∀ work, y'.pc.submits = some work → y.pc.submits = some work ∨ y.pc = .idle
  tasks : ClientMove y.pc y'.pc s.tasks s'.tasks

/-- A step that leaves the flag and the task objects alone, and is not in the destruction. -/
theorem ClientStep.quiet {c : γ} {res : Int} {y y' : Client φ} {s s' : Pool n γ φ}
    (hc : s'.clients = Function.update s.clients c y')
    (hq : Mutex.Move res (.client c) (y.pc.inQueue = true) (y'.pc.inQueue = true)
      s.tpool_queue_mutex s'.tpool_queue_mutex)
    (ha : Mutex.Move res (.client c) (y.pc.inActive = true) (y'.pc.inActive = true)
      s.active_tasks_mutex s'.active_tasks_mutex)
    (hpast : y'.pc.pastMutex = true → y.pc.pastMutex = true)
    (hdestroy : y'.pc.inDestroy = true → y.pc.inDestroy = true ∨ y.pc = .idle)
    (hsucceeds : y'.pc = .idle → y'.status = .COIN_SUCCESS →
      y.pc.inQueue = true ∨ y.pc.inDestroy = true)
    (hsubmits : ∀ work, y'.pc.submits = some work → y.pc.submits = some work ∨ y.pc = .idle)
    (hawake : ∀ v, s.q_waiting v = false → s'.q_waiting v = false := by exact fun _ => id)
    (hsignal : y.pc = .submit_signal → res = 0 → 0 < n → ∃ v, s'.q_waiting v = false := by
      exact nofun)
    (hbroadcast : y.pc = .stop_broadcast → res = 0 → ∀ v, s'.q_waiting v = false := by
      exact nofun)
    (htells : y'.pc.toldToStop = true → y.pc.toldToStop = true ∨ s'.b_shutdown = true := by
      first | exact fun _ => .inl rfl | exact nofun)
    (hwakes : y'.pc.wokeAll = true → y.pc.wokeAll = true ∨ ∀ v, s'.q_waiting v = false := by
      first | exact fun _ => .inl rfl | exact nofun)
    (hw : s'.workers = s.workers := by exact rfl) (hs : s'.b_shutdown = s.b_shutdown := by exact rfl)
    (hd : s'.tasks = s.tasks := by exact rfl) :
    ClientStep c res y y' s s' where
  clients := hc
  workers := hw
  queue := hq
  active := ha
  shutdown := Or.inl hs
  awake := hawake
  signals := hsignal
  broadcasts := hbroadcast
  tells := htells
  wakes := hwakes
  past h := Or.inl (hpast h)
  destroys := hdestroy
  succeeds := hsucceeds
  submits := hsubmits
  tasks := hd ▸ .quiet

/-- Everything that a step of a client can do. -/
theorem client_step_cases {c : γ} {o : Outcome n} {s s' : Pool n γ φ}
    (h : client_step c o s = some s') : ∃ y, ClientStep c o.res (s.clients c) y s s' := by
  unfold client_step at h
  generalize hy : s.clients c = y at h ⊢
  obtain ⟨pc, status⟩ := y
  cases pc with
  | idle => cases h
  | submit_alloc work free_arg =>
    simp only at h
    split at h <;> cases h
    · exact ⟨_, .quiet rfl (.stay nofun) (.stay nofun) nofun nofun nofun fun _ => .inl⟩
    · exact ⟨_, .quiet rfl (.stay nofun) (.stay nofun) nofun nofun nofun nofun⟩
  | submit_lock work free_arg =>
    obtain ⟨m, hm, rfl⟩ := Option.map_eq_some_iff.mp h
    rcases Mutex.lock_eq_some.mp hm with ⟨hr, hf, rfl⟩ | ⟨hr, rfl⟩
    · simp only [hr, if_true]
      exact ⟨_, .quiet rfl (.take hf) (.stay nofun) nofun nofun nofun fun _ => .inl⟩
    · simp only [hr, if_false]
      exact ⟨_, .quiet rfl (.stay nofun) (.stay nofun) nofun nofun nofun nofun⟩
  | submit_push work free_arg =>
    simp only at h
    split at h <;> cases h
    · exact ⟨_, rfl, rfl, .stay id, .stay nofun, .inl rfl, fun _ => id, nofun, nofun, nofun, nofun,
        nofun, nofun, nofun, nofun, .push work free_arg rfl rfl⟩
    · exact ⟨_, .quiet rfl (.stay id) (.stay nofun) nofun nofun nofun nofun⟩
  | submit_push_failed | submit_signal_failed =>
    cases h
    exact ⟨_, .quiet rfl (.leave _ nofun) (.stay nofun) nofun nofun nofun nofun⟩
  | submit_signal =>
    obtain ⟨m, hm, rfl⟩ := Option.map_eq_some_iff.mp h
    obtain ⟨hawake, hsome⟩ := signal_some hm
    split
    · exact ⟨_, .quiet rfl (.stay id) (.stay nofun) nofun nofun nofun nofun hawake fun _ => hsome⟩
    · exact ⟨_, .quiet rfl (.stay id) (.stay nofun) nofun nofun nofun nofun hawake fun _ => hsome⟩
  | submit_unlock =>
    cases h
    exact ⟨_, .quiet rfl (.leave _ nofun) (.stay nofun) nofun nofun (fun _ _ => .inl rfl) nofun⟩
  | wait_lock_active =>
    obtain ⟨m, hm, rfl⟩ := Option.map_eq_some_iff.mp h
    rcases Mutex.lock_eq_some.mp hm with ⟨hr, hf, rfl⟩ | ⟨hr, rfl⟩
    · simp only [hr, if_true]
      exact ⟨_, .quiet rfl (.stay nofun) (.take hf) nofun nofun nofun nofun⟩
    · simp only [hr, if_false]
      exact ⟨_, .quiet rfl (.stay nofun) (.stay nofun) nofun nofun nofun nofun⟩
  | wait_check_active =>
    simp only at h
    split at h
    · split at h <;> cases h
      · exact ⟨_, .quiet rfl (.stay nofun) (.leave 0 nofun) nofun nofun nofun nofun⟩
      · exact ⟨_, .quiet rfl (.stay nofun) (.stay id) nofun nofun nofun nofun⟩
    · cases h
      exact ⟨_, .quiet rfl (.stay nofun) (.stay id) nofun nofun nofun nofun⟩
  | wait_blocked =>
    simp only at h
    split at h
    · cases h
    · obtain ⟨m, hm, rfl⟩ := Option.map_eq_some_iff.mp h
      rcases Mutex.lock_eq_some.mp hm with ⟨-, hf, rfl⟩ | ⟨hr, -⟩
      · split
        · exact ⟨_, .quiet rfl (.stay nofun) (.take hf) nofun nofun nofun nofun⟩
        · exact ⟨_, .quiet rfl (.stay nofun) (.take hf) nofun nofun nofun nofun⟩
      · exact absurd rfl hr
  | wait_cond_failed =>
    cases h
    exact ⟨_, .quiet rfl (.stay nofun) (.leave _ nofun) nofun nofun nofun nofun⟩
  | wait_check_size =>
    cases h
    split
    · exact ⟨_, .quiet rfl (.stay nofun) (.stay id) nofun nofun nofun nofun⟩
    · exact ⟨_, .quiet rfl (.stay nofun) (.stay id) nofun nofun nofun nofun⟩
  | wait_unlock_again | wait_unlock_active =>
    simp only at h
    split at h <;> cases h
    · exact ⟨_, .quiet rfl (.stay nofun) (.leave _ nofun) nofun nofun nofun nofun⟩
    · exact ⟨_, .quiet rfl (.stay nofun) (.leave _ nofun) nofun nofun nofun nofun⟩
  | wait_lock_queue =>
    obtain ⟨m, hm, rfl⟩ := Option.map_eq_some_iff.mp h
    rcases Mutex.lock_eq_some.mp hm with ⟨hr, hf, rfl⟩ | ⟨hr, rfl⟩
    · simp only [hr, if_true]
      exact ⟨_, .quiet rfl (.take hf) (.stay nofun) nofun nofun nofun nofun⟩
    · simp only [hr, if_false]
      exact ⟨_, .quiet rfl (.stay nofun) (.stay nofun) nofun nofun nofun nofun⟩
  | wait_read_size =>
    cases h
    exact ⟨_, .quiet rfl (.stay id) (.stay nofun) nofun nofun nofun nofun⟩
  | wait_unlock_queue b_isempty =>
    simp only at h
    split at h
    · cases h
      exact ⟨_, .quiet rfl (.leave _ nofun) (.stay nofun) nofun nofun (fun _ _ => .inl rfl) nofun⟩
    · split at h <;> cases h
      · exact ⟨_, .quiet rfl (.leave _ nofun) (.stay nofun) nofun nofun nofun nofun⟩
      · exact ⟨_, .quiet rfl (.leave _ nofun) (.stay nofun) nofun nofun nofun nofun⟩
  | stop_lock =>
    obtain ⟨m, hm, rfl⟩ := Option.map_eq_some_iff.mp h
    rcases Mutex.lock_eq_some.mp hm with ⟨hr, hf, rfl⟩ | ⟨hr, rfl⟩
    · simp only [hr, if_true]
      exact ⟨_, .quiet rfl (.take hf) (.stay nofun) nofun (fun _ => .inl rfl) nofun nofun⟩
    · simp only [hr, if_false]
      exact ⟨_, .quiet rfl (.stay nofun) (.stay nofun) nofun (fun _ => .inl rfl) nofun nofun⟩
  | stop_flag =>
    cases h
    exact ⟨_, rfl, rfl, .stay id, .stay nofun, .inr ⟨rfl, rfl, rfl⟩, fun _ => id, nofun, nofun,
      fun _ => .inr rfl, nofun, nofun, fun _ => .inl rfl, nofun, nofun, .quiet⟩
  | stop_broadcast =>
    cases h
    split
    · rename_i hr
      exact ⟨_, .quiet rfl (.stay id) (.stay nofun) nofun (fun _ => .inl rfl) nofun nofun
        broadcast_awake nofun (fun _ => broadcast_ok) (fun _ => .inl rfl)
        fun _ => .inr (broadcast_ok hr)⟩
    · exact ⟨_, .quiet rfl (.stay id) (.stay nofun) nofun (fun _ => .inl rfl) nofun nofun
        broadcast_awake nofun fun _ => broadcast_ok⟩
  | stop_broadcast_failed =>
    cases h
    exact ⟨_, .quiet rfl (.leave _ nofun) (.stay nofun) nofun (fun _ => .inl rfl) nofun nofun⟩
  | stop_unlock =>
    simp only at h
    split at h <;> cases h
    · exact ⟨_, .quiet rfl (.leave _ nofun) (.stay nofun) nofun (fun _ => .inl rfl) nofun nofun⟩
    · exact ⟨_, .quiet rfl (.leave _ nofun) (.stay nofun) nofun (fun _ => .inl rfl) nofun nofun⟩
  | stop_join i st =>
    simp only at h
    split at h
    · split at h
      · cases h
        exact ⟨_, .quiet rfl (.stay nofun) (.stay nofun) nofun (fun _ => .inl rfl) nofun nofun⟩
      · split at h <;> cases h
        exact ⟨_, .quiet rfl (.stay nofun) (.stay nofun) nofun (fun _ => .inl rfl) nofun nofun⟩
    · split at h <;> cases h
      · exact ⟨_, .quiet rfl (.stay nofun) (.stay nofun) nofun (fun _ => .inl rfl)
          (fun _ _ => .inr rfl) nofun⟩
      · exact ⟨_, .quiet rfl (.stay nofun) (.stay nofun) nofun (fun _ => .inl rfl) nofun nofun⟩
  | destroy_queue_cond =>
    simp only at h
    split at h <;> cases h
    · exact ⟨_, .quiet rfl (.stay nofun) (.stay nofun) nofun (fun _ => .inl rfl) nofun nofun⟩
    · exact ⟨_, .quiet rfl (.stay nofun) (.stay nofun) nofun (fun _ => .inl rfl) nofun nofun⟩
  | destroy_queue_mutex =>
    obtain ⟨m, hm, rfl⟩ := Option.map_eq_some_iff.mp h
    rcases Mutex.destroy_eq_some.mp hm with ⟨hr, hf, rfl⟩ | ⟨hr, rfl⟩
    · simp only [hr, if_true]
      exact ⟨_, rfl, rfl, .destroy hf nofun, .stay nofun, .inl rfl, fun _ => id, nofun, nofun,
        nofun, nofun, fun _ => .inr rfl, fun _ => .inl rfl, nofun, nofun, .quiet⟩
    · simp only [hr, if_false]
      exact ⟨_, .quiet rfl (.stay nofun) (.stay nofun) nofun (fun _ => .inl rfl) nofun nofun⟩
  | destroy_queue =>
    cases h
    exact ⟨_, rfl, rfl, .stay nofun, .stay nofun, .inl rfl, fun _ => id, nofun, nofun, nofun, nofun,
      fun _ => .inl rfl, fun _ => .inl rfl, nofun, nofun, .drop rfl⟩
  | destroy_active_cond =>
    simp only at h
    split at h <;> cases h
    · exact ⟨_, .quiet rfl (.stay nofun) (.stay nofun) (fun _ => rfl) (fun _ => .inl rfl)
        nofun nofun⟩
    · exact ⟨_, .quiet rfl (.stay nofun) (.stay nofun) nofun (fun _ => .inl rfl) nofun nofun⟩
  | destroy_active_mutex =>
    obtain ⟨m, hm, rfl⟩ := Option.map_eq_some_iff.mp h
    rcases Mutex.destroy_eq_some.mp hm with ⟨hr, hf, rfl⟩ | ⟨hr, rfl⟩
    · exact ⟨_, .quiet rfl (.stay nofun) (.destroy hf nofun) nofun (fun _ => .inl rfl)
        (fun _ _ => .inr rfl) nofun⟩
    · exact ⟨_, .quiet rfl (.stay nofun) (.stay nofun) nofun (fun _ => .inl rfl)
        (fun _ _ => .inr rfl) nofun⟩

/-- A step in a call is one of a client that is in it. -/
theorem client_open {c : γ} {o : Outcome n} {s s' : Pool n γ φ}
    (h : client_step c o s = some s') : (s.clients c).pc ≠ .idle := by
  intro hidle
  unfold client_step at h
  rw [hidle] at h
  cases h

/-- A call starts where no other is under way. -/
theorem call_step_cases {c : γ} {call : Call φ} {s s' : Pool n γ φ}
    (h : pool_step s (.call c call) = some s') :
    (s.clients c).pc = .idle ∧ s' = s.goto c call.start := by
  unfold pool_step at h
  simp only at h
  split at h
  · rename_i hidle
    cases h
    exact ⟨hidle, rfl⟩
  · cases h

end pingpong.concurinc
