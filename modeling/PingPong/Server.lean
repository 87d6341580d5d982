-- The server of `main.c`: the main thread with its loop and its exits, the
-- workers of the pool in their tasks, and the contexts that they share.
import PingPong.ConnMgr
import PingPong.Pool
import PingPong.Tasks

namespace pingpong.server

open connmgr concurinc mutex netio tasks

/-- A context is named by the number of contexts that were made before it, so no
two have the same name, also when `malloc` gives an address again. -/
abbrev ctx_id := Nat

inductive task_func
  | task_io_read
  | task_io_send
  deriving DecidableEq, Repr

/-- The function of a task, and the context that it is called with. -/
structure io_task where
  coin_task_func : task_func
  coin_task_arg : ctx_id
  deriving DecidableEq, Repr

/-- The points of the two task functions. At `handle` the function looks at the state of
the connection and does its I/O. -/
inductive task_pc
  | lock
  | handle
  | release
  | unlock
  | returned
  deriving DecidableEq, Repr

/-- A context, its mutex, and whether `connmgr_destroy_conn` has freed it. What a step
does to a context that is freed has no meaning. -/
structure Context (n : Nat) where
  link : Link
  mutex : Mutex (Thread n Unit)
  destroyed : Bool

/-- The points of `main`, from the first context on. `conn` is the index of the loop, `p` is
`p_cur_ctx`, and what comes after `update` and before `wait` is the event dispatch. -/
inductive main_pc
  | reg_listener
  | reg_sigpipe
  | loop_head
  | close_check (conn : Nat)
  | close_lock (conn : Nat) (p : ctx_id)
  | close_read (conn : Nat) (p : ctx_id)
  | close_unlock (conn : Nat) (p : ctx_id) (cur_refs : Int) (cur_state : conn_state_t)
  | close_destroy (conn : Nat) (p : ctx_id)
  | update
  | poll
  | dispatch (conn : Nat)
  | accept (conn : Nat) (p : ctx_id)
  | task_lock (func : task_func) (conn : Nat) (p : ctx_id)
  | task_ref (func : task_func) (conn : Nat) (p : ctx_id)
  | task_submit (func : task_func) (conn : Nat) (p : ctx_id)
  | task_unlock (func : task_func) (conn : Nat) (p : ctx_id)
  | failed_unlock (conn : Nat) (p : ctx_id)
  | hup (conn : Nat) (p : ctx_id)
  | hup_lock (conn : Nat) (p : ctx_id)
  | hup_mark (conn : Nat) (p : ctx_id)
  | hup_unlock (conn : Nat) (p : ctx_id)
  | out (conn : Nat) (p : ctx_id)
  | wait
  | destroy_all (idx : Nat)
  | destroy_queue
  | destroy_tpool
  | finished
  deriving DecidableEq, Repr

/-- The server with `n` workers. `task` is where a worker is in the function of its task.
Main's pool calls are those of the one client. `made` counts the contexts, and an entry of
`p_conns` is `none` when main has set it to NULL. -/
structure Server (n : Nat) where
  pool : Pool n Unit io_task
  task : Fin n → task_pc
  ctxs : ctx_id → Context n
  made : Nat
  p_conns : List (Option ctx_id)
  p_new_conns : List ctx_id
  revents : Nat → poll_events
  main : main_pc
  g_should_shutdown : Bool
  sfd : Int
  sigpipe_fd : Int

/-- A client that `accept` has given: its descriptor, what `malloc` has left in the two
buffers, and what the peer will send. -/
structure new_client where
  clifd : Int
  recv_buf : io_buf
  send_buf : io_buf
  stream : List UInt8

/-- What the environment decides in a step of main: the result of the pthread mutex call, if
the call of the step succeeds, what `malloc` has left in an internal context, the clients that
`nl_accept` has made contexts for, how many contexts `connmgr_update_connections` has added
when it fails, and the events of `poll`. -/
structure main_outs where
  res : Int := 0
  ok : Bool := true
  mem : conn_ctx_t := inbound_ctx 0 io_buf.zero io_buf.zero
  clients : List new_client := []
  added : Nat := 0
  revents : Nat → poll_events := fun _ => no_events

variable {n : Nat}

namespace Server

def goto (s : Server n) (pc : main_pc) : Server n := { s with main := pc }

/-- The context gets another link. -/
def set_link (s : Server n) (p : ctx_id) (k : Link) : Server n :=
  { s with ctxs := Function.update s.ctxs p { s.ctxs p with link := k } }

def set_mutex (s : Server n) (p : ctx_id) (m : Mutex (Thread n Unit)) : Server n :=
  { s with ctxs := Function.update s.ctxs p { s.ctxs p with mutex := m } }

/-- `pthread_mutex_lock(&p->mutex)` by thread `t`. -/
def lock (s : Server n) (t : Thread n Unit) (p : ctx_id) (res : Int) : Option (Server n) :=
  ((s.ctxs p).mutex.lock t res).map (s.set_mutex p)

def unlock (s : Server n) (t : Thread n Unit) (p : ctx_id) (res : Int) : Server n :=
  s.set_mutex p ((s.ctxs p).mutex.unlock t res)

theorem set_link_self (s : Server n) (p : ctx_id) (k : Link) :
    (s.set_link p k).ctxs p = { s.ctxs p with link := k } := Function.update_self ..

theorem set_link_other (s : Server n) {p q : ctx_id} (k : Link) (h : q ≠ p) :
    (s.set_link p k).ctxs q = s.ctxs q := Function.update_of_ne h ..

theorem set_mutex_self (s : Server n) (p : ctx_id) (m : Mutex (Thread n Unit)) :
    (s.set_mutex p m).ctxs p = { s.ctxs p with mutex := m } := Function.update_self ..

theorem set_mutex_other (s : Server n) {p q : ctx_id} (m : Mutex (Thread n Unit)) (h : q ≠ p) :
    (s.set_mutex p m).ctxs q = s.ctxs q := Function.update_of_ne h ..

theorem set_link_keeps (s : Server n) (p : ctx_id) (k : Link) (q : ctx_id) :
    ((s.set_link p k).ctxs q).mutex = (s.ctxs q).mutex ∧
    ((s.set_link p k).ctxs q).destroyed = (s.ctxs q).destroyed := by
  by_cases h : q = p
  · rw [h, set_link_self]
    exact ⟨rfl, rfl⟩
  · rw [set_link_other s k h]
    exact ⟨rfl, rfl⟩

theorem set_mutex_keeps (s : Server n) (p : ctx_id) (m : Mutex (Thread n Unit)) (q : ctx_id) :
    ((s.set_mutex p m).ctxs q).link = (s.ctxs q).link ∧
    ((s.set_mutex p m).ctxs q).destroyed = (s.ctxs q).destroyed := by
  by_cases h : q = p
  · rw [h, set_mutex_self]
    exact ⟨rfl, rfl⟩
  · rw [set_mutex_other s m h]
    exact ⟨rfl, rfl⟩

/-- Worker `w` goes on in the function of its task. -/
def set_task (s : Server n) (w : Fin n) (pc : task_pc) : Server n :=
  { s with task := Function.update s.task w pc }

/-- `connmgr_create_new_conn`, when it succeeds. -/
def make (s : Server n) (k : Link) : Server n :=
  { s with
    ctxs := Function.update s.ctxs s.made ⟨k, .free, false⟩
    made := s.made + 1
    p_new_conns := s.p_new_conns ++ [s.made] }

theorem make_self (s : Server n) (k : Link) : (s.make k).ctxs s.made = ⟨k, .free, false⟩ :=
  Function.update_self ..

theorem make_other (s : Server n) (k : Link) {p : ctx_id} (h : p ≠ s.made) :
    (s.make k).ctxs p = s.ctxs p := Function.update_of_ne h ..

/-- `connmgr_destroy_conn`. -/
def destroy (s : Server n) (p : ctx_id) : Server n :=
  { s with ctxs := Function.update s.ctxs p { s.ctxs p with destroyed := true } }

theorem destroy_self (s : Server n) (p : ctx_id) :
    (s.destroy p).ctxs p = { s.ctxs p with destroyed := true } := Function.update_self ..

theorem destroy_other (s : Server n) {p q : ctx_id} (h : q ≠ p) :
    (s.destroy p).ctxs q = s.ctxs q := Function.update_of_ne h ..

theorem destroy_keeps (s : Server n) (p q : ctx_id) :
    ((s.destroy p).ctxs q).link = (s.ctxs q).link ∧
    ((s.destroy p).ctxs q).mutex = (s.ctxs q).mutex := by
  by_cases h : q = p
  · rw [h, destroy_self]
    exact ⟨rfl, rfl⟩
  · rw [destroy_other s h]
    exact ⟨rfl, rfl⟩

/-- `ezarr_set_at(p_conns, conn, NULL)`. -/
def set_null (s : Server n) (conn : Nat) : Server n :=
  { s with p_conns := s.p_conns.set conn none }

/-- Main begins a call of the pool. -/
def start (s : Server n) (call : Call io_task) : Option (Server n) :=
  (pool_step s.pool (.call () call)).map fun pool => { s with pool := pool }

/-- Main's last call of the pool has returned, with this status. -/
def returned (s : Server n) : Option coin_status_t :=
  match (s.pool.clients ()).pc with
  | .idle => some (s.pool.clients ()).status
  | _ => none

end Server

/-- A context for the listener or the self-pipe, which no peer sends to. -/
def internal_link (fd : Int) (mem : conn_ctx_t) : Link :=
  ⟨internal_ctx fd mem, ⟨[], [], []⟩, [], [], []⟩

def client_link (c : new_client) : Link :=
  ⟨inbound_ctx c.clifd c.recv_buf c.send_buf, ⟨c.stream, [], []⟩, [], [], []⟩

/-- One step of main, outside of the calls of the pool. A context that is NULL there has no
meaning. -/
def main_step (o : main_outs) (s : Server n) : Option (Server n) :=
  let me : Thread n Unit := .client ()
  match s.main with
  | .reg_listener =>
      if o.ok then some ((s.make (internal_link s.sfd o.mem)).goto .reg_sigpipe)
      else some (s.goto (.destroy_all 0))
  | .reg_sigpipe =>
      if o.ok then some ((s.make (internal_link s.sigpipe_fd o.mem)).goto .loop_head)
      else some (s.goto (.destroy_all 0))
  | .loop_head =>
      if s.g_should_shutdown then (s.start .wait).map fun s => s.goto .wait
      else some (s.goto (.close_check 0))
  -- the closing pass
  | .close_check conn =>
      match s.p_conns[conn]? with
      | none => some (s.goto .update)
      | some none => none
      | some (some p) =>
        if (s.ctxs p).link.ctx.type = .INTERNAL_CONN then some (s.goto (.close_check (conn + 1)))
        else some (s.goto (.close_lock conn p))
  | .close_lock conn p => (s.lock me p o.res).map fun s =>
      s.goto (if o.res = 0 then .close_read conn p else .close_check (conn + 1))
  | .close_read conn p =>
      let c := (s.ctxs p).link.ctx
      some (s.goto (.close_unlock conn p c.ref_count c.state))
  | .close_unlock conn p cur_refs cur_state =>
      some ((s.unlock me p o.res).goto
        (if o.res = 0 ∧ cur_state = .PENDING_CLOSE ∧ cur_refs = 0 then .close_destroy conn p
        else .close_check (conn + 1)))
  -- only main looks at `p_conns`, so the entry is set in the same step
  | .close_destroy conn p =>
      some (((s.destroy p).set_null conn).goto (.close_check (conn + 1)))
  -- what `connmgr_update_connections` does to its arrays when no spare slot holds an old value and
  -- no descriptor is 0; a context that cannot be added is in no list anymore
  | .update =>
      let kept := s.p_conns.filter Option.isSome
      if o.ok then
        some ({ s with
          p_conns := kept ++ s.p_new_conns.map some
          p_new_conns := [] }.goto .poll)
      else
        some ({ s with
          p_conns := kept ++ (s.p_new_conns.take o.added).map some
          p_new_conns := s.p_new_conns.drop (o.added + 1) }.goto (.destroy_all 0))
  | .poll =>
      if o.ok then some ({ s with revents := o.revents }.goto (.dispatch 0))
      else (s.start .wait).map fun s => s.goto .wait
  -- the events of one connection
  | .dispatch conn =>
      match s.p_conns[conn]? with
      | none => some (s.goto .loop_head)
      | some none => none
      | some (some p) =>
        if (s.revents conn).POLLIN then
          if (s.ctxs p).link.ctx.fd = s.sfd then some (s.goto (.accept conn p))
          else if (s.ctxs p).link.ctx.fd = s.sigpipe_fd then some (s.goto .loop_head)
          else some (s.goto (.task_lock .task_io_read conn p))
        else some (s.goto (.hup conn p))
  | .accept conn p =>
      some ((o.clients.foldl (fun s c => s.make (client_link c)) s).goto
        (if o.ok then .hup conn p else .destroy_all 0))
  | .task_lock func conn p => (s.lock me p o.res).map fun s => s.goto
      (if o.res = 0 then .task_ref func conn p
      else match func with
        | .task_io_read => .destroy_all 0
        | .task_io_send => .dispatch (conn + 1))
  | .task_ref func conn p =>
      ((s.set_link p (add_ref 1 (s.ctxs p).link)).start (.submit ⟨func, p⟩ false)).map fun s =>
        s.goto (.task_submit func conn p)
  | .task_submit func conn p => s.returned.map fun tp_status => s.goto
      (if tp_status ≠ .COIN_SUCCESS ∧ func = .task_io_read then .failed_unlock conn p
      else .task_unlock func conn p)
  | .task_unlock func conn p => some ((s.unlock me p o.res).goto
      (match func with
        | .task_io_read => if o.res = 0 then .hup conn p else .destroy_all 0
        | .task_io_send => .dispatch (conn + 1)))
  | .failed_unlock _ p => some ((s.unlock me p o.res).goto (.destroy_all 0))
  | .hup conn p =>
      let e := s.revents conn
      some (s.goto (if e.POLLHUP ∨ e.POLLERR ∨ e.POLLNVAL then .hup_lock conn p else .out conn p))
  | .hup_lock conn p => (s.lock me p o.res).map fun s =>
      s.goto (if o.res = 0 then .hup_mark conn p else .destroy_all 0)
  | .hup_mark conn p =>
      some ((s.set_link p (mark_close (s.ctxs p).link)).goto (.hup_unlock conn p))
  | .hup_unlock conn p =>
      some ((s.unlock me p o.res).goto (if o.res = 0 then .out conn p else .destroy_all 0))
  | .out conn p =>
      some (s.goto (if (s.revents conn).POLLOUT then .task_lock .task_io_send conn p
        else .dispatch (conn + 1)))
  -- behind the loop; a failure of `coin_tpool_wait` is only logged
  | .wait => s.returned.map fun _ => s.goto (.destroy_all 0)
  | .destroy_all idx =>
      match s.p_conns[idx]? with
      | none => some (s.goto .destroy_queue)
      | some none => some (s.goto (.destroy_all (idx + 1)))
      | some (some p) => some (((s.destroy p).set_null idx).goto (.destroy_all (idx + 1)))
  | .destroy_queue =>
      match s.p_new_conns with
      | [] => (s.start .destroy).map fun s => s.goto .destroy_tpool
      | p :: rest => some { s.destroy p with p_new_conns := rest }
  | .destroy_tpool => s.returned.map fun _ => s.goto .finished
  | .finished => none

/-- One step of worker `w` in `task_io_read` or `task_io_send`. It goes on when the lock or the
unlock fails. -/
def task_step (host : ByteOrder) (w : Fin n) (t : io_task) (res : Int) (outs : List sys_result)
    (s : Server n) : Option (Server n) :=
  let p := t.coin_task_arg
  let k := (s.ctxs p).link
  match s.task w with
  | .lock => (s.lock (.worker w) p res).map fun s => s.set_task w .handle
  | .handle =>
      (match t.coin_task_func with
        | .task_io_read => io_read_body host s.g_should_shutdown outs k
        | .task_io_send => io_send_body s.g_should_shutdown outs k).map fun k =>
          (s.set_link p k).set_task w .release
  | .release => some ((s.set_link p (add_ref (-1) k)).set_task w .unlock)
  | .unlock => some ((s.unlock (.worker w) p res).set_task w .returned)
  | .returned => none

/-! ## The server as a machine -/

/-- A step of main outside and inside of a pool call, of a worker outside and inside of a task
function, and the signal. -/
inductive ServerLabel (n : Nat)
  | main (o : main_outs)
  | call (o : Outcome n)
  | worker (w : Fin n) (o : Outcome n)
  | task (w : Fin n) (res : Int) (outs : List sys_result)
  | signal

/-- The pthread calls of the step succeed. -/
def ServerLabel.Ok : ServerLabel n → Prop
  | .main o => o.res = 0
  | .call o => o.res = 0
  | .worker _ o => o.res = 0
  | .task _ res _ => res = 0
  | .signal => True

instance : DecidablePred (ServerLabel.Ok (n := n))
  | .main o => inferInstanceAs (Decidable (o.res = 0))
  | .call o | .worker _ o => inferInstanceAs (Decidable (o.res = 0))
  | .task _ res _ => inferInstanceAs (Decidable (res = 0))
  | .signal => inferInstanceAs (Decidable True)

def server_step (host : ByteOrder) (s : Server n) : ServerLabel n → Option (Server n)
  | .main o => main_step o s
  | .call o => (pool_step s.pool (.client () o)).map fun pool => { s with pool := pool }
  | .worker w o =>
      if (s.pool.workers w).pc = .run ∧ s.task w ≠ .returned then none
      else (pool_step s.pool (.worker w o)).map fun pool =>
        { s with pool := pool }.set_task w .lock
  | .task w res outs =>
      if (s.pool.workers w).pc = .run then
        (s.pool.workers w).p_task.bind fun t => task_step host w t.work res outs s
      else none
  | .signal => some { s with g_should_shutdown := true }

def server_machine (host : ByteOrder) : machine.Machine (Server n) (ServerLabel n) :=
  ⟨server_step host⟩

/-- What stands for the contexts that are not made yet. -/
def no_context : Context n :=
  ⟨internal_link 0 (inbound_ctx 0 io_buf.zero io_buf.zero), .free, false⟩

/-- The server when the pool runs and the listener is open. -/
def new_server (sfd sigpipe_fd : Int) : Server n where
  pool := new_pool
  task := fun _ => .lock
  ctxs := fun _ => no_context
  made := 0
  p_conns := []
  p_new_conns := []
  revents := fun _ => no_events
  main := .reg_listener
  g_should_shutdown := false
  sfd := sfd
  sigpipe_fd := sigpipe_fd

end pingpong.server
