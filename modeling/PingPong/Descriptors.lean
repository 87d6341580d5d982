-- The descriptors of the server: what `nl_start_listener` and `nl_accept` obtain and close, and
-- `main` from the moment when the connection manager and the pool are set up.
import PingPong.ConnMgr
import PingPong.NetIo
import PingPong.Lib.Handles

namespace pingpong.descriptors

open connmgr handles netio

def INITIAL_MAX_CONNS : Nat := 16

/-- Each descriptor that is obtained, and each call of `close`. -/
abbrev fd_event := Event Int

/-! ## The listener -/

/-- What the two `fcntl` calls give back. -/
structure fcntl_outs where
  getfl : Int
  setfl : Int

def nl_set_nonblocking (o : fcntl_outs) : Int := if o.getfl ≠ -1 then o.setfl else -1

/-- What `socket` and `bind` give back for one address. -/
structure addr_outs where
  socket : Int
  bind : Int

structure listener_outs where
  getaddrinfo : Int
  addrs : List addr_outs
  fcntl : fcntl_outs
  listen : Int

/-- The loop over the addresses. The descriptor is -1 when none of them is bound. -/
def bind_addrs : List addr_outs → Int × List fd_event
  | [] => (-1, [])
  | a :: rest =>
    if a.socket = -1 then bind_addrs rest
    else if a.bind = 0 then (a.socket, [.obtained a.socket])
    else
      let (fd, es) := bind_addrs rest
      (fd, .obtained a.socket :: .closed a.socket :: es)

def nl_start_listener (o : listener_outs) : Int × List fd_event :=
  if o.getaddrinfo ≠ 0 then (-1, [])
  else
    let (fd, es) := bind_addrs o.addrs
    if fd = -1 then (-1, es)
    else if nl_set_nonblocking o.fcntl = -1 then (-1, es ++ [.closed fd])
    else if o.listen = -1 then (-1, es ++ [.closed fd])
    else (fd, es)

/-! ## New connections -/

/-- The test of `nl_accept`, which the machine makes on `int`. -/
def at_limit (m : conn_mgr_t) : Bool :=
  (MAX_CONNECTIONS : Int) - m.num_active_conns - m.p_new_conns.num_items + 1 = 0

/-- What the calls of a turn of the loop do. -/
structure accept_outs where
  clifd : Int
  fcntl : fcntl_outs
  create : create_outs

/-- After a turn the loop goes on, or is left by the `break`, or the call has failed. -/
inductive turn_end
  | next
  | left
  | failed
  deriving DecidableEq, Repr

/-- The descriptor that a turn obtains. -/
def accepted (o : accept_outs) (m : conn_mgr_t) : List Int :=
  if at_limit m ∨ o.clifd = -1 then [] else [o.clifd]

/-- A turn of the loop of `nl_accept`. A descriptor that cannot be set up is not closed. -/
def accept_turn (o : accept_outs) (s : Manager) : Option (turn_end × Manager) :=
  if at_limit s.mgr then some (.left, s)
  else if o.clifd = -1 then some (.left, s)
  else if nl_set_nonblocking o.fcntl = -1 then some (.failed, s)
  else (connmgr_create_new_conn o.clifd .INBOUND_CONN o.create s).map fun r =>
    if r.res ≠ 0 then (.failed, { r.state with closed := r.state.closed ++ [o.clifd] })
    else (.next, r.state)

/-! ## The main thread -/

/-- The points of `main` where it calls a function that works on descriptors. -/
inductive main_pc
  | start_listener
  | reg_listener
  | reg_sigpipe
  | closing
  | dispatch
  | accepting
  | cleanup_connections
  | close_pipefds
  | returned
  deriving DecidableEq, Repr

/-- `sigpipe_taken` says that the manager has taken the read end of the pipe, and `events` is all
that happened to descriptors. -/
structure Main where
  pc : main_pc
  conns : Manager
  sfd : Int
  sigpipe_fds : Int × Int
  sigpipe_taken : Bool
  events : List fd_event

/-- `leave` is every way out of the loop that is not a failed call of the other labels: the loop
ends, `poll` fails, or a mutex or the pool fails. -/
inductive MainLabel
  | start_listener (o : listener_outs)
  | reg_listener (o : create_outs)
  | reg_sigpipe (o : create_outs)
  | close_conn (conn : Nat)
  | update (o : Nat → grow_outs)
  | nl_accept
  | accept (o : accept_outs) (errno : errno_t)
  | next_round
  | leave
  | destroy_all
  | close_pipefds

def Main.goto (pc : main_pc) (t : Main) : Main := { t with pc := pc }

/-- A call of the manager: some descriptors are obtained, and then those closed that it closed. -/
def Main.after (obtained : List Int) (s : Manager) (t : Main) : Main :=
  { t with
    conns := s
    events := t.events ++ obtained.map .obtained ++
      (s.closed.drop t.conns.closed.length).map .closed }

/-- One step of `main`. From `destroy_tpool` to `join_sig_thread` it closes nothing. -/
def main_step (t : Main) : MainLabel → Option Main
  | .start_listener o =>
    if t.pc = .start_listener then
      let r := nl_start_listener o
      some ({ t with sfd := r.1, events := t.events ++ r.2 }.goto
        (if r.1 = -1 then .close_pipefds else .reg_listener))
    else none
  | .reg_listener o =>
    if t.pc = .reg_listener then
      (connmgr_create_new_conn t.sfd .INTERNAL_CONN o t.conns).map fun r =>
        (t.after [] r.state).goto (if r.res ≠ 0 then .cleanup_connections else .reg_sigpipe)
    else none
  | .reg_sigpipe o =>
    if t.pc = .reg_sigpipe then
      (connmgr_create_new_conn t.sigpipe_fds.1 .INTERNAL_CONN o t.conns).map fun r =>
        if r.res ≠ 0 then (t.after [] r.state).goto .cleanup_connections
        else { (t.after [] r.state).goto .closing with sigpipe_taken := true }
    else none
  | .close_conn conn =>
    if t.pc = .closing then (close_conn conn t.conns).map fun s => t.after [] s else none
  | .update o =>
    if t.pc = .closing then
      (connmgr_update_connections t.conns.ctxs o t.conns.mgr).map fun (res, m) =>
        (t.after [] { t.conns with mgr := m }).goto
          (if res ≠ 0 then .cleanup_connections else .dispatch)
    else none
  | .nl_accept => if t.pc = .dispatch then some (t.goto .accepting) else none
  | .accept o errno =>
    if t.pc = .accepting then
      (accept_turn o t.conns).map fun (e, s) =>
        (t.after (accepted o t.conns.mgr) s).goto (match e with
          | .next => .accepting
          | .left => if errno = .EAGAIN ∨ errno = .EWOULDBLOCK then .dispatch
              else .cleanup_connections
          | .failed => .cleanup_connections)
    else none
  | .next_round => if t.pc = .dispatch then some (t.goto .closing) else none
  | .leave =>
    if t.pc = .closing ∨ t.pc = .dispatch then some (t.goto .cleanup_connections) else none
  | .destroy_all =>
    if t.pc = .cleanup_connections then
      (connmgr_destroy_all_conns t.conns).map fun (_, s) => (t.after [] s).goto .close_pipefds
    else none
  | .close_pipefds =>
    if t.pc = .close_pipefds then
      some { t with
        pc := .returned
        events := t.events ++ [.closed t.sigpipe_fds.1, .closed t.sigpipe_fds.2] }
    else none

def main_machine : machine.Machine Main MainLabel := ⟨main_step⟩

/-- The manager is set up, and of all descriptors `main` has the two of the pipe. -/
def Start (t : Main) : Prop :=
  ∃ o m fds, connmgr_init INITIAL_MAX_CONNS o = (0, some m) ∧ fds.1 ≠ fds.2 ∧
    t = ⟨.start_listener, ⟨m, ∅, []⟩, -1, fds, false, [.obtained fds.1, .obtained fds.2]⟩

/-- The descriptors that are open, of those that `main` obtained. -/
def Main.still_open (t : Main) : List Int := openAfter [] t.events

/-- The memory that a `realloc` adds reads as zero. -/
def zeroed : grow_outs := ⟨some fun _ => NULL, some fun _ => zero_pollfd⟩

/-- All the calls of `connmgr_create_new_conn` succeed, and `malloc` gives `p`. -/
def made_at (p : ptr) : create_outs :=
  ⟨some p, inbound_ctx 0 io_buf.zero io_buf.zero, 0, some io_buf.zero, some io_buf.zero,
    some fun _ => NULL⟩

/-- `main` when the pipe has the descriptors 3 and 4. -/
def set_up : Main where
  pc := .start_listener
  conns := ⟨⟨⟨List.replicate 16 NULL, 0, 16⟩, List.replicate 16 zero_pollfd,
    ⟨List.replicate 16 NULL, 0, 16, UINT16_MAX, UINT16_MAX⟩, 16, 0⟩, ∅, []⟩
  sfd := -1
  sigpipe_fds := (3, 4)
  sigpipe_taken := false
  events := [.obtained 3, .obtained 4]

theorem start_set_up : Start set_up :=
  ⟨⟨true, true, true, true, some fun _ => NULL⟩, _, (3, 4), rfl, by decide, rfl⟩

/-- The listener gets the descriptor 5. -/
def listening : MainLabel := .start_listener ⟨0, [⟨5, 0⟩], ⟨0, 0⟩, 0⟩

end pingpong.descriptors
