-- How the pool starts: the owner in `coin_tpool_init` creates the workers one by
-- one, next to those that run already, and joins them when it fails.
import PingPong.PoolWake

namespace pingpong.concurinc

open mutex

variable {n : Nat} {γ φ : Type}

/-! ## The owner -/

/-- The results of the calls in `coin_tpool_ctx_init`. -/
structure ctx_outs where
  p_ctx : Bool := true
  queue_mutex : Int := 0
  queue_cond : Int := 0
  p_queue : Bool := true
  tasks_mutex : Int := 0
  tasks_cond : Int := 0

def coin_tpool_ctx_init (o : ctx_outs) : coin_status_t :=
  if o.p_ctx = false then .COIN_ALLOCATION_FAILURE
  else if o.queue_mutex ≠ 0 then .COIN_PTHREAD_MUTEX_ERROR
  else if o.queue_cond ≠ 0 then .COIN_PTHREAD_COND_ERROR
  else if o.p_queue = false then .COIN_ALLOCATION_FAILURE
  else if o.tasks_mutex ≠ 0 then .COIN_PTHREAD_MUTEX_ERROR
  else if o.tasks_cond ≠ 0 then .COIN_PTHREAD_COND_ERROR
  else .COIN_SUCCESS

/-- The points of `coin_tpool_init`, and in it those of `coin_initialize_workers`. -/
inductive init_pc
  | check_input
  | alloc_container
  | ctx_init
  | attr_init
  | fill_set
  | block_signals
  | alloc_threads
  | create (i : Nat)
  | restore_mask
  | cleanup_threads (i : Nat) (status : coin_status_t)
  | cleanup_ctx (status : coin_status_t)
  | returned (status : coin_status_t)
  deriving DecidableEq, Repr

/-- The owner with the pool that it makes for `n` workers. -/
structure Owner (n : Nat) (γ φ : Type) where
  pc : init_pc
  num_created : Nat
  pool : Pool n γ φ

/-- What the environment decides in a step of the owner. -/
structure init_outs where
  res : Int := 0
  alloc : Bool := true
  ctx : ctx_outs := {}

namespace Owner

def goto (s : Owner n γ φ) (pc : init_pc) : Owner n γ φ := { s with pc := pc }

/-- The owner, as client `me` of the pool, calls `coin_tpool_ctx_destroy`. -/
def destroy_ctx [DecidableEq γ] (s : Owner n γ φ) (me : γ) (status : coin_status_t) :
    Owner n γ φ :=
  { s with pc := .cleanup_ctx status, pool := s.pool.goto me .destroy_queue_cond }

end Owner

section Start

variable [DecidableEq γ]

/-- One step of `coin_tpool_init` by thread `me`. -/
def init_step (me : γ) (o : init_outs) (s : Owner n γ φ) : Option (Owner n γ φ) :=
  match s.pc with
  | .check_input => some (s.goto (if n = 0 then .returned .COIN_INVALID_INPUT
      else .alloc_container))
  | .alloc_container => some (s.goto (if o.alloc then .ctx_init
      else .returned .COIN_ALLOCATION_FAILURE))
  | .ctx_init =>
      let status := coin_tpool_ctx_init o.ctx
      some (s.goto (if status = .COIN_SUCCESS then .attr_init else .returned status))
  -- coin_initialize_workers
  | .attr_init =>
      if o.res = 0 then some (s.goto .fill_set)
      else some (s.destroy_ctx me .COIN_PTHREAD_SIGMASK_ERROR)
  | .fill_set =>
      if o.res = 0 then some (s.goto .block_signals)
      else some (s.destroy_ctx me .COIN_PTHREAD_SIGMASK_ERROR)
  | .block_signals =>
      if o.res = 0 then some (s.goto .alloc_threads)
      else some (s.destroy_ctx me .COIN_PTHREAD_SIGMASK_ERROR)
  | .alloc_threads =>
      if o.alloc then some (s.goto (.create 0))
      else some (s.destroy_ctx me .COIN_ALLOCATION_FAILURE)
  | .create i =>
      if i < n then
        if o.res = 0 then some { s with pc := .create (i + 1), num_created := s.num_created + 1 }
        else some (s.goto (.cleanup_threads 0 .COIN_PTHREAD_CREATE_ERROR))
      else some (s.goto .restore_mask)
  | .restore_mask => some (s.goto (if o.res = 0 then .returned .COIN_SUCCESS
      else .cleanup_threads 0 .COIN_PTHREAD_SIGMASK_ERROR))
  | .cleanup_threads i status =>
      if i < s.num_created then
        if hi : i < n then
          -- `pthread_join` waits for the worker, or fails at once
          if o.res ≠ 0 ∨ (s.pool.workers ⟨i, hi⟩).pc = .exited then
            some (s.goto (.cleanup_threads (i + 1) status))
          else none
        else none
      else some (s.destroy_ctx me status)
  -- back in coin_tpool_init
  | .cleanup_ctx status => match (s.pool.clients me).pc with
      | .idle => some (s.goto (.returned status))
      | _ => none
  | .returned _ => none

inductive StartLabel (n : Nat) (γ φ : Type)
  | init (o : init_outs)
  | pool (l : PoolLabel n γ φ)

/-- A worker runs when it is created. Other threads use the pool when `coin_tpool_init` has
returned it, and the owner is in a call of its own while it cleans up. -/
def Owner.runs (me : γ) (s : Owner n γ φ) : PoolLabel n γ φ → Bool
  | .worker w _ => w.val < s.num_created
  | .client c _ => s.pc = .returned .COIN_SUCCESS ∨ c = me
  | .call _ _ => s.pc = .returned .COIN_SUCCESS

def start_step (me : γ) (s : Owner n γ φ) : StartLabel n γ φ → Option (Owner n γ φ)
  | .init o => init_step me o s
  | .pool l =>
      if s.runs me l then (pool_step s.pool l).map fun pool => { s with pool := pool } else none

def start_machine (me : γ) : machine.Machine (Owner n γ φ) (StartLabel n γ φ) := ⟨start_step me⟩

end Start

/-- The owner calls `coin_tpool_init`. -/
def new_owner : Owner n γ φ := ⟨.check_input, 0, new_pool⟩

/-! ## Who has been told to stop -/

/-- A thread behind its store in `coin_tpool_stop_workers` has set the flag, and behind its
broadcast no worker is asleep. -/
structure Told (s : Pool n γ φ) : Prop where
  flag : ∀ c, (s.clients c).pc.toldToStop = true → s.b_shutdown = true
  awake : ∀ c, (s.clients c).pc.wokeAll = true → ∀ v, s.q_waiting v = false

theorem told_of_woke {pc : client_pc φ} (h : pc.wokeAll = true) : pc.toldToStop = true := by
  cases pc with
  | stop_unlock | stop_join => rfl
  | _ => cases h

theorem told_new : Told (new_pool : Pool n γ φ) where
  flag _ h := nomatch h
  awake _ h := nomatch h

variable [DecidableEq γ]

theorem Told.worker_step {w : Fin n} {res : Int} {x : Worker φ} {s s' : Pool n γ φ} (h : Told s)
    (hw : WorkerStep w res (s.workers w) x s s') : Told s' := by
  refine ⟨fun c hc => ?_, fun c hc v => ?_⟩
  · rw [hw.clients] at hc
    exact hw.flag_kept (h.flag c hc)
  · rw [hw.clients] at hc
    -- nobody goes to sleep once the flag is set
    rcases hw.sleeps with hawake | ⟨hunset, -⟩
    · exact hawake v (h.awake c hc v)
    · rw [h.flag c (told_of_woke hc)] at hunset
      cases hunset

theorem Told.client_step {c : γ} {res : Int} {y : Client φ} {s s' : Pool n γ φ} (h : Told s)
    (hc : ClientStep c res (s.clients c) y s s') : Told s' := by
  refine ⟨fun d hd => ?_, fun d hd v => ?_⟩
  · by_cases hdc : d = c
    · rw [hdc, hc.self] at hd
      rcases hc.tells hd with hwas | hset
      · exact hc.flag_kept (h.flag c hwas)
      · exact hset
    · rw [hc.other hdc] at hd
      exact hc.flag_kept (h.flag d hd)
  · by_cases hdc : d = c
    · rw [hdc, hc.self] at hd
      rcases hc.wakes hd with hwas | hall
      · exact hc.awake v (h.awake c hwas v)
      · exact hall v
    · rw [hc.other hdc] at hd
      exact hc.awake v (h.awake d hd v)

theorem Told.step {l : PoolLabel n γ φ} {s s' : Pool n γ φ} (h : Told s)
    (hs : pool_step s l = some s') : Told s' := by
  rcases pool_step_cases hs with ⟨w, o, x, -, hw⟩ | ⟨c, res, y, -, -, hc⟩
  · exact h.worker_step hw
  · exact h.client_step hc

theorem Told.goto {s : Pool n γ φ} (h : Told s) (c : γ) {pc : client_pc φ}
    (hpc : pc.toldToStop = false) : Told (s.goto c pc) := by
  have hself : ∀ d, d = c → ((s.goto c pc).clients d).pc.toldToStop = false := by
    rintro d rfl
    rw [Pool.goto_self]
    exact hpc
  have hother : ∀ d, d ≠ c → (s.goto c pc).clients d = s.clients d := fun d hd =>
    s.goto_other hd pc
  refine ⟨fun d hd => ?_, fun d hd => ?_⟩
  · by_cases hdc : d = c
    · rw [hself d hdc] at hd
      cases hd
    · rw [hother d hdc] at hd
      exact h.flag d hd
  · by_cases hdc : d = c
    · have htold := told_of_woke hd
      rw [hself d hdc] at htold
      cases htold
    · rw [hother d hdc] at hd
      exact h.awake d hd

/-! ## The start -/

/-- How many workers are created at the point, as long as the creation goes on. -/
def init_pc.created : init_pc → Option Nat
  | .create i => some i
  | .restore_mask | .cleanup_threads .. | .cleanup_ctx _ | .returned _ => none
  | _ => some 0

/-- The calls of `coin_initialize_workers` after the first worker is created. -/
def init_pc.hasWorkers (n : Nat) : init_pc → Bool
  | .create i => 0 < i && i < n
  | .restore_mask => true
  | _ => false

/-- After the first worker is created, neither `pthread_create` nor `pthread_sigmask` fails. -/
def StartsWell (s : Owner n γ φ) : StartLabel n γ φ → Prop
  | .init o => s.pc.hasWorkers n = true → o.res = 0
  | .pool _ => True

instance (s : Owner n γ φ) : DecidablePred (StartsWell s)
  | .init o => inferInstanceAs (Decidable (s.pc.hasWorkers n = true → o.res = 0))
  | .pool _ => inferInstanceAs (Decidable True)

structure Starting (s : Owner n γ φ) : Prop where
  told : Told s.pool
  created : ∀ k, s.pc.created = some k → s.num_created = k
  clean : ∀ i status, s.pc = .cleanup_threads i status → s.num_created = 0

omit [DecidableEq γ] in
theorem starting_new : Starting (new_owner : Owner n γ φ) where
  told := told_new
  created _ h := Option.some.inj h
  clean _ _ h := nomatch h

omit [DecidableEq γ] in
/-- The owner goes on without a join. -/
theorem Starting.goto {s : Owner n γ φ} (h : Starting s) {pc : init_pc}
    (hpc : ∀ k, pc.created = some k → s.num_created = k)
    (hclean : ∀ i status, pc = .cleanup_threads i status → s.num_created = 0) :
    Starting (s.goto pc) where
  told := h.told
  created := hpc
  clean := hclean

theorem Starting.destroy_ctx {s : Owner n γ φ} (h : Starting s) (me : γ)
    (status : coin_status_t) : Starting (s.destroy_ctx me status) where
  told := h.told.goto me rfl
  created _ hk := nomatch hk
  clean _ _ hpc := nomatch hpc

theorem Starting.init_step {me : γ} {o : init_outs} {s s' : Owner n γ φ} (h : Starting s)
    (hwell : StartsWell s (.init o)) (hs : init_step me o s = some s') : Starting s' := by
  have hcount := h.created
  unfold StartsWell at hwell
  unfold concurinc.init_step at hs
  generalize hpc : s.pc = pc at hs hcount hwell
  cases pc with
  | check_input | alloc_container | ctx_init =>
    cases hs
    have hzero : s.num_created = 0 := hcount 0 rfl
    split
    · exact h.goto (fun k hk => by cases hk <;> exact hzero) nofun
    · exact h.goto (fun k hk => by cases hk <;> exact hzero) nofun
  | attr_init | fill_set | block_signals | alloc_threads =>
    have hzero : s.num_created = 0 := hcount 0 rfl
    simp only at hs
    split at hs <;> cases hs
    · exact h.goto (fun k hk => by cases hk; exact hzero) nofun
    · exact h.destroy_ctx me _
  | create i =>
    have hi : s.num_created = i := hcount i rfl
    simp only at hs
    split at hs
    · rename_i hlt
      split at hs <;> cases hs
      · refine ⟨h.told, fun k hk => ?_, nofun⟩
        cases hk
        exact congrArg (· + 1) hi
      · rename_i hres
        refine h.goto nofun fun _ _ _ => ?_
        -- it was the first worker
        by_contra hpos
        apply hres
        apply hwell
        unfold init_pc.hasWorkers
        simp only [Bool.and_eq_true, decide_eq_true_eq]
        omega
    · cases hs
      exact h.goto nofun nofun
  | restore_mask =>
    cases hs
    rw [if_pos (hwell rfl)]
    exact h.goto nofun nofun
  | cleanup_threads i status =>
    have hzero := h.clean i status hpc
    simp only [hzero, Nat.not_lt_zero, if_false] at hs
    cases hs
    exact h.destroy_ctx me _
  | cleanup_ctx status =>
    simp only at hs
    split at hs
    · cases hs
      exact h.goto nofun nofun
    · cases hs
  | returned status => cases hs

theorem Starting.step {me : γ} {l : StartLabel n γ φ} {s s' : Owner n γ φ} (h : Starting s)
    (hwell : StartsWell s l) (hs : start_step me s l = some s') : Starting s' := by
  cases l with
  | init o => exact h.init_step hwell hs
  | pool l =>
    unfold start_step at hs
    simp only at hs
    split at hs
    · obtain ⟨pool, hpool, rfl⟩ := Option.map_eq_some_iff.mp hs
      exact ⟨h.told.step hpool, h.created, h.clean⟩
    · cases hs

/-! ## The law -/

/-- A thread is at a `pthread_join` for worker `i`, and joins the workers up to `m`: the owner that
cleans up, or a thread in `coin_tpool_stop_workers`. -/
inductive Joining (s : Owner n γ φ) : Nat → Nat → Prop
  | cleanup (i : Nat) (status : coin_status_t) (hpc : s.pc = .cleanup_threads i status)
      (hi : i < s.num_created) : Joining s i s.num_created
  | stop (c : γ) (i : Nat) (status : coin_status_t)
      (hpc : (s.pool.clients c).pc = .stop_join i status) (hi : i < n) : Joining s i n

/-- The worker that is joined has left its loop, or the flag is set, and not all workers that the
thread waits for are asleep. -/
def JoinsWell (s : Owner n γ φ) : Prop :=
  ∀ i m, Joining s i m →
    (∀ w : Fin n, w.val = i →
      s.pool.b_shutdown = true ∨ (s.pool.workers w).pc.phase = .leaving) ∧
    ¬ ∀ w : Fin n, i ≤ w.val → w.val < m → s.pool.q_waiting w = true

/-- The states of the owner and its pool, in the runs whose steps meet `C`. -/
def StartReachable (me : γ) (C : Owner n γ φ → StartLabel n γ φ → Prop) (s : Owner n γ φ) : Prop :=
  (start_machine me).Reach (fun s => s = new_owner) C s

/-- Every join comes after the flag is set and the workers are woken, in every run in which the
creation of the workers fails at the first one or not at all. -/
theorem a_worker_is_joined_after_it_is_told {me : γ} {s : Owner n γ φ}
    (h : StartReachable me StartsWell s) : JoinsWell s := by
  have hstart : Starting s := machine.Machine.Reach.invariant (P := Starting)
    (fun s hs => hs ▸ starting_new) (fun s l s' hP hC hs => hP.step hC hs) h
  intro i m hj
  cases hj with
  | cleanup i status hpc hi =>
    rw [hstart.clean i status hpc] at hi
    exact absurd hi (Nat.not_lt_zero i)
  | stop c i status hpc hi =>
    have hflag := hstart.told.flag c (by rw [hpc]; rfl)
    have hawake := hstart.told.awake c (by rw [hpc]; rfl)
    refine ⟨fun _ _ => Or.inl hflag, fun hall => ?_⟩
    have hasleep := hall ⟨i, hi⟩ (Nat.le_refl i) hi
    rw [hawake ⟨i, hi⟩] at hasleep
    cases hasleep

/-- The owner is at the creation of the first worker. -/
def init_labels (steps : Nat) : List (StartLabel 2 Unit Unit) :=
  List.replicate steps (.init {})

/-- Worker 0 goes to sleep on the empty queue. -/
def sleep_labels : List (StartLabel 2 Unit Unit) :=
  [.pool (.worker 0 {}), .pool (.worker 0 {})]

/-- The owner destroys the pool while a worker sleeps, and comes to the join. -/
def stop_labels : List (StartLabel 2 Unit Unit) :=
  .pool (.call () .destroy) :: List.replicate 4 (.pool (.client () {}))

theorem a_sleeping_worker_is_told_before_the_join :
    ∃ s : Owner 2 Unit Unit, (s.pool.workers 0).pc = .cond_wait ∧ Joining s 0 2 ∧ JoinsWell s := by
  obtain ⟨s, hreach, hwait, hpc⟩ := machine.Machine.exists_reach (start_machine ())
    (fun s => s = new_owner) StartsWell
    (fun s : Owner 2 Unit Unit => (s.pool.workers 0).pc = .cond_wait ∧
      (s.pool.clients ()).pc = .stop_join 0 .COIN_GENERIC_FAILURE)
    new_owner (init_labels 11 ++ sleep_labels ++ stop_labels) rfl (by decide +kernel)
    (by decide +kernel)
  exact ⟨s, hwait, .stop () 0 _ hpc (by decide), a_worker_is_joined_after_it_is_told hreach⟩

/-- While the owner cleans up next to workers that all sleep, no thread goes on, as long as no
worker wakes up by itself and the join does not fail. -/
theorem nothing_wakes_the_workers_that_the_owner_joins {me : γ} {s : Owner n γ φ} {i : Nat}
    {status : coin_status_t} (hpc : s.pc = .cleanup_threads i status) (hi : i < s.num_created)
    (hidle : (s.pool.clients me).pc = .idle)
    (hasleep : ∀ w : Fin n, w.val < s.num_created →
      (s.pool.workers w).pc = .cond_wait ∧ s.pool.q_waiting w = true) :
    (∀ o, o.res = 0 → start_step me s (.init o) = none) ∧
    (∀ w o, o.spurious = false → start_step me s (.pool (.worker w o)) = none) ∧
    (∀ c o, start_step me s (.pool (.client c o)) = none) ∧
    ∀ c call, start_step me s (.pool (.call c call)) = none := by
  have hnot : s.pc ≠ .returned .COIN_SUCCESS := by
    rw [hpc]
    exact nofun
  refine ⟨fun o hres => ?_, fun w o hspurious => ?_, fun c o => ?_, fun c call => ?_⟩
  · unfold start_step init_step
    simp only [hpc, hi, if_true]
    split
    · rename_i hn
      have hwait := (hasleep ⟨i, hn⟩ hi).1
      simp [hres, hwait]
    · rfl
  · unfold start_step
    simp only
    split
    · rename_i hruns
      obtain ⟨hwait, hq⟩ := hasleep w (of_decide_eq_true hruns)
      unfold pool_step worker_step
      simp [hwait, hq, hspurious]
    · rfl
  · unfold start_step Owner.runs
    by_cases hc : c = me
    · subst hc
      unfold pool_step client_step
      simp [hidle]
    · simp [hnot, hc]
  · unfold start_step Owner.runs
    simp [hnot]

/-- The second `pthread_create` fails while the first worker sleeps on the empty queue. The owner
joins it, with the flag not set. -/
theorem a_worker_is_joined_that_was_not_told :
    ¬ ∀ s : Owner 2 Unit Unit, StartReachable () (fun _ _ => True) s → JoinsWell s := by
  intro h
  obtain ⟨s, hreach, hpc, hcount, hflag, hwait⟩ := machine.Machine.exists_reach (start_machine ())
    (fun s => s = new_owner) (fun _ _ => True)
    (fun s : Owner 2 Unit Unit => s.pc = .cleanup_threads 0 .COIN_PTHREAD_CREATE_ERROR ∧
      s.num_created = 1 ∧ s.pool.b_shutdown = false ∧ (s.pool.workers 0).pc = .cond_wait)
    new_owner (init_labels 8 ++ sleep_labels ++ [.init { res := 11 }]) rfl
    (machine.Machine.meets_of_all (fun _ _ => trivial) _ _) (by decide +kernel)
  have hj : Joining s 0 s.num_created := .cleanup 0 _ hpc (by rw [hcount]; decide)
  rcases (h s hreach 0 s.num_created hj).1 0 rfl with hset | hleft
  · rw [hflag] at hset
    cases hset
  · rw [hwait] at hleft
    cases hleft

end pingpong.concurinc
