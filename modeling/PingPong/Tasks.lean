-- The two tasks of `main.c`, and one connection as a machine. A task holds the
-- mutex of its connection from its first access to its last, so a run of a
-- task is one step, between the steps of the main thread.
import PingPong.Lib.Machine
import PingPong.NetIo

namespace pingpong.tasks

open netio

/-- `task_io_read` before it releases its reference. -/
def io_read_body (host : ByteOrder) (g_should_shutdown : Bool) (outs : List sys_result)
    (k : Link) : Option Link :=
  if (k.ctx.state = .READ_CONTENT ∨ k.ctx.state = .READ_HEADER) ∧ g_should_shutdown = false then
    (nl_handle_sock_data_in host outs k).map Prod.snd
  else
    stop outs k

/-- `task_io_send` before it releases its reference. -/
def io_send_body (g_should_shutdown : Bool) (outs : List sys_result) (k : Link) : Option Link :=
  if k.ctx.state = .WRITE_RESPONSE ∧ g_should_shutdown = false then
    (nl_handle_sock_data_out outs k).map Prod.snd
  else
    stop outs k

/-- `p_ctx->ref_count += by`. -/
def add_ref (by' : Int) (k : Link) : Link :=
  { k with ctx := { k.ctx with ref_count := k.ctx.ref_count + by' } }

/-- `p_ctx->state = PENDING_CLOSE`, in the branch for `POLLHUP`. -/
def mark_close (k : Link) : Link := { k with ctx := { k.ctx with state := .PENDING_CLOSE } }

def task_io_read (host : ByteOrder) (g_should_shutdown : Bool) (outs : List sys_result)
    (k : Link) : Option Link :=
  (io_read_body host g_should_shutdown outs k).map (add_ref (-1))

def task_io_send (g_should_shutdown : Bool) (outs : List sys_result) (k : Link) : Option Link :=
  (io_send_body g_should_shutdown outs k).map (add_ref (-1))

/-! ## The machine of one connection -/

/-- A connection, and the flag that the signal thread sets. -/
structure Conn where
  link : Link
  g_should_shutdown : Bool

/-- What can happen to a connection. `hold` is the reference that the main
thread takes before it submits a task. -/
inductive ConnLabel
  | read (outs : List sys_result)
  | send (outs : List sys_result)
  | hold
  | mark
  | shutdown
  deriving Repr

def conn_step (host : ByteOrder) (c : Conn) : ConnLabel → Option Conn
  | .read outs => (task_io_read host c.g_should_shutdown outs c.link).map fun k =>
      { c with link := k }
  | .send outs => (task_io_send c.g_should_shutdown outs c.link).map fun k =>
      { c with link := k }
  | .hold => some { c with link := add_ref 1 c.link }
  | .mark => some { c with link := mark_close c.link }
  | .shutdown => some { c with g_should_shutdown := true }

def conn_machine (host : ByteOrder) : machine.Machine Conn ConnLabel := ⟨conn_step host⟩

/-- A new connection, to a peer that sends the bytes of `stream`. -/
def Fresh (stream : List UInt8) (c : Conn) : Prop :=
  ∃ fd recv_buf send_buf, c.link =
    ⟨inbound_ctx fd recv_buf send_buf, ⟨stream, [], []⟩, [], [], []⟩

/-- The states of a connection in any run, with any results of the calls. -/
def Reachable (host : ByteOrder) (stream : List UInt8) (c : Conn) : Prop :=
  (conn_machine host).Reach (Fresh stream) (fun _ _ => True) c

/-- A new connection whose buffers hold zeros. -/
def fresh_conn (fd : Int) (stream : List UInt8) : Conn :=
  ⟨⟨inbound_ctx fd io_buf.zero io_buf.zero, ⟨stream, [], []⟩, [], [], []⟩, false⟩

theorem reachable_of_run {host : ByteOrder} {fd : Int} {stream : List UInt8}
    {ls : List ConnLabel} {c : Conn}
    (h : (conn_machine host).run (fresh_conn fd stream) ls = some c) : Reachable host stream c :=
  ⟨_, ls, ⟨fd, io_buf.zero, io_buf.zero, rfl⟩,
    machine.Machine.meets_of_all (fun _ _ => trivial) _ _, h⟩

end pingpong.tasks
