-- The thread pool of `concurinc.c`. Every worker and every thread that uses the
-- pool is at a point of its code, and the threads step one at a time.
import PingPong.Common
import PingPong.Lib.Machine
import PingPong.Lib.Mutex
import Mathlib.Logic.Function.Basic

namespace pingpong.concurinc

open mutex

inductive coin_status_t
  | COIN_SUCCESS
  | COIN_GENERIC_FAILURE
  | COIN_INVALID_INPUT
  | COIN_ALLOCATION_FAILURE
  | COIN_THREAD_CREATION_FAILURE
  | COIN_PTHREAD_MUTEX_ERROR
  | COIN_PTHREAD_COND_ERROR
  | COIN_PTHREAD_JOIN_ERROR
  | COIN_PTHREAD_CREATE_ERROR
  | COIN_PTHREAD_SIGMASK_ERROR
  | COIN_EMPTY_QUEUE_ERROR
  deriving DecidableEq, Repr

/-- A task object. `work` is the function and its argument, `free_arg` says if there is a
function that frees the argument, and `id` counts the objects that the queue has taken. -/
structure coin_task_t (φ : Type) where
  id : Nat
  work : φ
  free_arg : Bool
  deriving DecidableEq, Repr

/-! ## The threads -/

/-- The points of `coin_thread_worker`, each named after the call or the test that comes next.
The last ones are behind the loop. `locked` says if the lock there has succeeded. -/
inductive worker_pc
  | lock_queue
  | check_queue
  | cond_wait
  | check_shutdown
  | unlock_shutdown
  | pop
  | pop_failed
  | signal_more
  | unlock_queue
  | lock_inc
  | inc
  | broadcast_inc
  | unlock_inc
  | run
  | free
  | lock_dec
  | dec
  | broadcast_dec
  | unlock_dec
  | bail_queue
  | bail_active
  | exit_lock
  | exit_flag (locked : Bool)
  | exit_unlock (locked : Bool)
  | exited
  deriving DecidableEq, Repr

structure Worker (φ : Type) where
  pc : worker_pc
  p_task : Option (coin_task_t φ)
  err : Int

/-- The points of the calls that use the pool: of `coin_tpool_submit`, `coin_tpool_wait`,
`coin_tpool_stop_workers` and `coin_tpool_ctx_destroy`. -/
inductive client_pc (φ : Type)
  | idle
  | submit_alloc (work : φ) (free_arg : Bool)
  | submit_lock (work : φ) (free_arg : Bool)
  | submit_push (work : φ) (free_arg : Bool)
  | submit_push_failed
  | submit_signal
  | submit_signal_failed
  | submit_unlock
  | wait_lock_active
  | wait_check_active
  | wait_blocked
  | wait_cond_failed
  | wait_check_size
  | wait_unlock_again
  | wait_unlock_active
  | wait_lock_queue
  | wait_read_size
  | wait_unlock_queue (b_isempty : Bool)
  | stop_lock
  | stop_flag
  | stop_broadcast
  | stop_broadcast_failed
  | stop_unlock
  | stop_join (i : Nat) (status : coin_status_t)
  | destroy_queue_cond
  | destroy_queue_mutex
  | destroy_queue
  | destroy_active_cond
  | destroy_active_mutex
  deriving DecidableEq, Repr

/-- A thread that uses the pool, and what its last call has returned. -/
structure Client (φ : Type) where
  pc : client_pc φ
  status : coin_status_t

inductive Thread (n : Nat) (γ : Type)
  | worker (w : Fin n)
  | client (c : γ)
  deriving DecidableEq, Repr

/-! ## The pool -/

/-- The context of the pool and its threads. `q_waiting` and `a_waiting` are the threads that
no signal has woken on `tpool_queue_cond` and `active_tasks_cond`. The last five fields record
what has happened to the task objects: put in the queue, popped, executed, freed by a worker,
and freed by `coin_queue_destroy`. -/
structure Pool (n : Nat) (γ φ : Type) where
  b_shutdown : Bool
  p_work_queue : List (coin_task_t φ)
  tpool_queue_mutex : Mutex (Thread n γ)
  active_tasks : Nat
  active_tasks_mutex : Mutex (Thread n γ)
  workers : Fin n → Worker φ
  q_waiting : Fin n → Bool
  clients : γ → Client φ
  a_waiting : γ → Bool
  pushed : List (coin_task_t φ)
  popped : List (coin_task_t φ)
  ran : List (coin_task_t φ)
  freed : List (coin_task_t φ)
  dropped : List (coin_task_t φ)

/-- What the environment decides in one step: the result of the pthread call, the thread that
a signal wakes, a wake-up without a signal, and the result of an allocation. -/
structure Outcome (n : Nat) where
  res : Int := 0
  wake : Option (Fin n) := none
  spurious : Bool := false
  alloc : Bool := true

variable {n : Nat} {γ φ : Type} [DecidableEq γ]

namespace Pool

/-- The worker goes on with a new record. -/
def put (s : Pool n γ φ) (w : Fin n) (x : Worker φ) : Pool n γ φ :=
  { s with workers := Function.update s.workers w x }

/-- The client goes on at a point. -/
def goto (s : Pool n γ φ) (c : γ) (pc : client_pc φ) : Pool n γ φ :=
  { s with clients := Function.update s.clients c ⟨pc, (s.clients c).status⟩ }

@[simp] theorem goto_self (s : Pool n γ φ) (c : γ) (pc : client_pc φ) :
    (s.goto c pc).clients c = ⟨pc, (s.clients c).status⟩ := Function.update_self ..

theorem goto_other (s : Pool n γ φ) {c d : γ} (h : d ≠ c) (pc : client_pc φ) :
    (s.goto c pc).clients d = s.clients d := Function.update_of_ne h ..

/-- The call of the client returns. -/
def give (s : Pool n γ φ) (c : γ) (status : coin_status_t) : Pool n γ φ :=
  { s with clients := Function.update s.clients c ⟨.idle, status⟩ }

@[simp] theorem give_self (s : Pool n γ φ) (c : γ) (status : coin_status_t) :
    (s.give c status).clients c = ⟨.idle, status⟩ := Function.update_self ..

end Pool

/-- `pthread_cond_signal` on `tpool_queue_cond`: it wakes some thread that waits, if there
is one. -/
def signal (o : Outcome n) (waiting : Fin n → Bool) : Option (Fin n → Bool) :=
  if o.res ≠ 0 then some waiting
  else match o.wake with
    | some v => if waiting v then some (Function.update waiting v false) else none
    | none => if ∀ v, waiting v = false then some waiting else none

/-- `pthread_cond_broadcast`. -/
def broadcast {τ : Type} (res : Int) (waiting : τ → Bool) : τ → Bool :=
  if res ≠ 0 then waiting else fun _ => false

/-- One step of `coin_thread_worker`. -/
def worker_step (w : Fin n) (o : Outcome n) (s : Pool n γ φ) : Option (Pool n γ φ) :=
  let x := s.workers w
  let me : Thread n γ := .worker w
  let unlock_queue := { s with tpool_queue_mutex := s.tpool_queue_mutex.unlock me o.res }
  let unlock_active := { s with active_tasks_mutex := s.active_tasks_mutex.unlock me o.res }
  let broadcast_active := { s with a_waiting := broadcast o.res s.a_waiting }
  match x.pc with
  | .lock_queue => (s.tpool_queue_mutex.lock me o.res).map fun m =>
      { s with tpool_queue_mutex := m }.put w
        { x with pc := if o.res = 0 then .check_queue else .exit_lock, err := o.res }
  | .check_queue =>
      if s.b_shutdown = false ∧ s.p_work_queue.length = 0 then
        -- `pthread_cond_wait` gives back the mutex, or fails at once
        if o.res = 0 then
          some ({ s with
            tpool_queue_mutex := s.tpool_queue_mutex.unlock me 0
            q_waiting := Function.update s.q_waiting w true }.put w { x with pc := .cond_wait })
        else some (s.put w { x with pc := .check_shutdown, err := o.res })
      else some (s.put w { x with pc := .check_shutdown })
  | .cond_wait =>
      if s.q_waiting w = true ∧ o.spurious = false then none
      else (s.tpool_queue_mutex.lock me 0).map fun m =>
        { s with
          tpool_queue_mutex := m
          q_waiting := Function.update s.q_waiting w false }.put w
          { x with pc := if o.res = 0 then .check_queue else .check_shutdown, err := o.res }
  | .check_shutdown =>
      some (s.put w { x with pc := if s.b_shutdown then .unlock_shutdown else .pop })
  | .unlock_shutdown => some (unlock_queue.put w { x with pc := .exit_lock, err := o.res })
  | .pop =>
      match s.p_work_queue with
      | [] => some (s.put w { x with pc := .pop_failed, p_task := none })
      | t :: q => some ({ s with p_work_queue := q, popped := s.popped ++ [t] }.put w
          { x with pc := .signal_more, p_task := some t })
  | .pop_failed =>
      some ({ s with b_shutdown := true, q_waiting := broadcast o.res s.q_waiting }.put w
        { x with pc := .bail_queue, err := 1 })
  | .signal_more =>
      if s.p_work_queue.length = 0 then some (s.put w { x with pc := .unlock_queue })
      else (signal o s.q_waiting).map fun waiting =>
        { s with q_waiting := waiting }.put w
          { x with pc := if o.res = 0 then .unlock_queue else .bail_queue, err := o.res }
  | .unlock_queue => some (unlock_queue.put w
      { x with pc := if o.res = 0 then .lock_inc else .exit_lock, err := o.res })
  | .lock_inc => (s.active_tasks_mutex.lock me o.res).map fun m =>
      { s with active_tasks_mutex := m }.put w
        { x with pc := if o.res = 0 then .inc else .exit_lock, err := o.res }
  | .inc => some ({ s with active_tasks := s.active_tasks + 1 }.put w
      { x with pc := .broadcast_inc })
  | .broadcast_inc => some (broadcast_active.put w
      { x with pc := if o.res = 0 then .unlock_inc else .bail_active, err := o.res })
  | .unlock_inc => some (unlock_active.put w
      { x with pc := if o.res = 0 then .run else .exit_lock, err := o.res })
  | .run => some ({ s with ran := s.ran ++ x.p_task.toList }.put w { x with pc := .free })
  | .free => some ({ s with freed := s.freed ++ x.p_task.toList }.put w
      { x with pc := .lock_dec, p_task := none })
  | .lock_dec => (s.active_tasks_mutex.lock me o.res).map fun m =>
      { s with active_tasks_mutex := m }.put w
        { x with pc := if o.res = 0 then .dec else .exit_lock, err := o.res }
  | .dec => some ({ s with active_tasks := size_sub s.active_tasks 1 }.put w
      { x with pc := .broadcast_dec })
  | .broadcast_dec => some (broadcast_active.put w
      { x with pc := if o.res = 0 then .unlock_dec else .bail_active, err := o.res })
  | .unlock_dec => some (unlock_active.put w
      { x with pc := if o.res = 0 then .lock_queue else .exit_lock, err := o.res })
  | .bail_queue => some (unlock_queue.put w { x with pc := .exit_lock })
  | .bail_active => some (unlock_active.put w { x with pc := .exit_lock })
  | .exit_lock => (s.tpool_queue_mutex.lock me o.res).map fun m =>
      { s with tpool_queue_mutex := m }.put w { x with pc := .exit_flag (o.res = 0) }
  | .exit_flag locked =>
      some ((if s.b_shutdown then s
        else { s with b_shutdown := true, q_waiting := broadcast o.res s.q_waiting }).put w
        { x with pc := .exit_unlock locked })
  | .exit_unlock _ => some (unlock_queue.put w { x with pc := .exited })
  | .exited => none

/-- The task object that `coin_queue_push` puts at the end of the queue. -/
def new_task (s : Pool n γ φ) (work : φ) (free_arg : Bool) : coin_task_t φ :=
  ⟨s.pushed.length, work, free_arg⟩

/-- One step of a thread that uses the pool, inside of a call. -/
def client_step (c : γ) (o : Outcome n) (s : Pool n γ φ) : Option (Pool n γ φ) :=
  let me : Thread n γ := .client c
  let unlock_queue := { s with tpool_queue_mutex := s.tpool_queue_mutex.unlock me o.res }
  let unlock_active := { s with active_tasks_mutex := s.active_tasks_mutex.unlock me o.res }
  match (s.clients c).pc with
  | .idle => none
  -- coin_tpool_submit
  | .submit_alloc work free_arg =>
      if o.alloc then some (s.goto c (.submit_lock work free_arg))
      else some (s.give c .COIN_ALLOCATION_FAILURE)
  | .submit_lock work free_arg => (s.tpool_queue_mutex.lock me o.res).map fun m =>
      if o.res = 0 then { s with tpool_queue_mutex := m }.goto c (.submit_push work free_arg)
      else { s with tpool_queue_mutex := m }.give c .COIN_PTHREAD_MUTEX_ERROR
  | .submit_push work free_arg =>
      if o.alloc then
        some ({ s with
          p_work_queue := s.p_work_queue ++ [new_task s work free_arg]
          pushed := s.pushed ++ [new_task s work free_arg] }.goto c .submit_signal)
      else some (s.goto c .submit_push_failed)
  | .submit_push_failed => some (unlock_queue.give c .COIN_ALLOCATION_FAILURE)
  | .submit_signal => (signal o s.q_waiting).map fun waiting =>
      { s with q_waiting := waiting }.goto c
        (if o.res = 0 then .submit_unlock else .submit_signal_failed)
  | .submit_signal_failed => some (unlock_queue.give c .COIN_PTHREAD_COND_ERROR)
  | .submit_unlock => some (unlock_queue.give c
      (if o.res = 0 then .COIN_SUCCESS else .COIN_PTHREAD_MUTEX_ERROR))
  -- coin_tpool_wait
  | .wait_lock_active => (s.active_tasks_mutex.lock me o.res).map fun m =>
      if o.res = 0 then { s with active_tasks_mutex := m }.goto c .wait_check_active
      else { s with active_tasks_mutex := m }.give c .COIN_PTHREAD_MUTEX_ERROR
  | .wait_check_active =>
      if 0 < s.active_tasks then
        -- `pthread_cond_wait` gives back the mutex, or fails at once
        if o.res = 0 then
          some ({ s with
            active_tasks_mutex := s.active_tasks_mutex.unlock me 0
            a_waiting := Function.update s.a_waiting c true }.goto c .wait_blocked)
        else some (s.goto c .wait_cond_failed)
      else some (s.goto c .wait_check_size)
  | .wait_blocked =>
      if s.a_waiting c = true ∧ o.spurious = false then none
      else (s.active_tasks_mutex.lock me 0).map fun m =>
        { s with
          active_tasks_mutex := m
          a_waiting := Function.update s.a_waiting c false }.goto c
          (if o.res = 0 then .wait_check_active else .wait_cond_failed)
  | .wait_cond_failed => some (unlock_active.give c .COIN_PTHREAD_COND_ERROR)
  -- this read of the size is not under `tpool_queue_mutex`
  | .wait_check_size => some (s.goto c
      (if 0 < s.p_work_queue.length then .wait_unlock_again else .wait_unlock_active))
  | .wait_unlock_again =>
      if o.res = 0 then some (unlock_active.goto c .wait_lock_active)
      else some (unlock_active.give c .COIN_PTHREAD_MUTEX_ERROR)
  | .wait_unlock_active =>
      if o.res = 0 then some (unlock_active.goto c .wait_lock_queue)
      else some (unlock_active.give c .COIN_PTHREAD_MUTEX_ERROR)
  | .wait_lock_queue => (s.tpool_queue_mutex.lock me o.res).map fun m =>
      if o.res = 0 then { s with tpool_queue_mutex := m }.goto c .wait_read_size
      else { s with tpool_queue_mutex := m }.give c .COIN_PTHREAD_MUTEX_ERROR
  | .wait_read_size => some (s.goto c (.wait_unlock_queue (s.p_work_queue.length = 0)))
  -- with an empty queue the status is that of success, whatever the unlock has returned
  | .wait_unlock_queue b_isempty =>
      if b_isempty then some (unlock_queue.give c .COIN_SUCCESS)
      else if o.res = 0 then some (unlock_queue.goto c .wait_lock_active)
      else some (unlock_queue.give c .COIN_PTHREAD_MUTEX_ERROR)
  -- coin_tpool_stop_workers
  | .stop_lock => (s.tpool_queue_mutex.lock me o.res).map fun m =>
      if o.res = 0 then { s with tpool_queue_mutex := m }.goto c .stop_flag
      else { s with tpool_queue_mutex := m }.give c .COIN_PTHREAD_MUTEX_ERROR
  | .stop_flag => some ({ s with b_shutdown := true }.goto c .stop_broadcast)
  | .stop_broadcast => some ({ s with q_waiting := broadcast o.res s.q_waiting }.goto c
      (if o.res = 0 then .stop_unlock else .stop_broadcast_failed))
  | .stop_broadcast_failed => some (unlock_queue.give c .COIN_PTHREAD_COND_ERROR)
  | .stop_unlock =>
      if o.res = 0 then some (unlock_queue.goto c (.stop_join 0 .COIN_GENERIC_FAILURE))
      else some (unlock_queue.give c .COIN_PTHREAD_MUTEX_ERROR)
  | .stop_join i status =>
      if hi : i < n then
        if o.res ≠ 0 then some (s.goto c (.stop_join (i + 1) .COIN_PTHREAD_JOIN_ERROR))
        else if (s.workers ⟨i, hi⟩).pc = .exited then some (s.goto c (.stop_join (i + 1) status))
        else none
      else if status = .COIN_PTHREAD_JOIN_ERROR then some (s.give c status)
      else some (s.goto c .destroy_queue_cond)
  -- coin_tpool_ctx_destroy
  | .destroy_queue_cond =>
      if o.res = 0 then some (s.goto c .destroy_queue_mutex)
      else some (s.give c .COIN_PTHREAD_COND_ERROR)
  | .destroy_queue_mutex => (s.tpool_queue_mutex.destroy o.res).map fun m =>
      if o.res = 0 then { s with tpool_queue_mutex := m }.goto c .destroy_queue
      else { s with tpool_queue_mutex := m }.give c .COIN_PTHREAD_MUTEX_ERROR
  | .destroy_queue =>
      some ({ s with
        p_work_queue := []
        dropped := s.dropped ++ s.p_work_queue }.goto c .destroy_active_cond)
  | .destroy_active_cond =>
      if o.res = 0 then some (s.goto c .destroy_active_mutex)
      else some (s.give c .COIN_PTHREAD_COND_ERROR)
  | .destroy_active_mutex => (s.active_tasks_mutex.destroy o.res).map fun m =>
      { s with active_tasks_mutex := m }.give c
        (if o.res = 0 then .COIN_SUCCESS else .COIN_PTHREAD_MUTEX_ERROR)

/-! ## The pool as a machine -/

/-- The calls that a client can start. The checks for NULL arguments are left out. -/
inductive Call (φ : Type)
  | submit (work : φ) (free_arg : Bool)
  | wait
  | destroy

def Call.start : Call φ → client_pc φ
  | .submit work free_arg => .submit_alloc work free_arg
  | .wait => .wait_lock_active
  | .destroy => .stop_lock

inductive PoolLabel (n : Nat) (γ φ : Type)
  | worker (w : Fin n) (o : Outcome n)
  | client (c : γ) (o : Outcome n)
  | call (c : γ) (call : Call φ)

def pool_step (s : Pool n γ φ) : PoolLabel n γ φ → Option (Pool n γ φ)
  | .worker w o => worker_step w o s
  | .client c o => client_step c o s
  | .call c call => match (s.clients c).pc with
    | .idle => some (s.goto c call.start)
    | _ => none

def pool_machine : machine.Machine (Pool n γ φ) (PoolLabel n γ φ) := ⟨pool_step⟩

/-- The pool when `coin_tpool_init` has returned: no worker has taken a step. -/
def new_pool : Pool n γ φ where
  b_shutdown := false
  p_work_queue := []
  tpool_queue_mutex := .free
  active_tasks := 0
  active_tasks_mutex := .free
  workers := fun _ => ⟨.lock_queue, none, 0⟩
  q_waiting := fun _ => false
  clients := fun _ => ⟨.idle, .COIN_GENERIC_FAILURE⟩
  a_waiting := fun _ => false
  pushed := []
  popped := []
  ran := []
  freed := []
  dropped := []

/-- The worker of a pool of one. -/
def only_worker : Fin 1 := ⟨0, Nat.one_pos⟩

/-- The pthread calls of the step succeed. -/
def PoolLabel.Ok : PoolLabel n γ φ → Prop
  | .worker _ o => o.res = 0
  | .client _ o => o.res = 0
  | .call _ _ => True

instance : DecidablePred (PoolLabel.Ok (n := n) (γ := γ) (φ := φ))
  | .worker _ o => inferInstanceAs (Decidable (o.res = 0))
  | .client _ o => inferInstanceAs (Decidable (o.res = 0))
  | .call _ _ => inferInstanceAs (Decidable True)

end pingpong.concurinc
