-- The connection manager of `connmgr.c`: contexts wait in a queue, then live at
-- the same index of the context array and of the poll array.
import PingPong.ConnCtx
import PingPong.EzArray
import PingPong.EzQueue
import PingPong.Lib.Machine
import Mathlib.Data.List.AList

namespace pingpong.connmgr

open blocks ezarray ezqueue

/-- The address of a context. The other addresses are those that `malloc` gives. -/
abbrev ptr := Nat

def NULL : ptr := 0

/-- The bits of `poll` that the server asks for and looks at. -/
structure poll_events where
  POLLIN : Bool
  POLLOUT : Bool
  POLLHUP : Bool
  POLLERR : Bool
  POLLNVAL : Bool
  deriving DecidableEq, Repr

structure pollfd where
  fd : Int
  events : poll_events
  revents : poll_events
  deriving DecidableEq, Repr

def no_events : poll_events := ⟨false, false, false, false, false⟩
def all_events : poll_events := ⟨true, true, true, true, true⟩

/-- `memset(p_pfd, 0, sizeof(struct pollfd))`. -/
def zero_pollfd : pollfd := ⟨0, no_events, no_events⟩

structure conn_mgr_t where
  p_conns : ezarray_t ptr
  p_pfds : List pollfd
  p_new_conns : ezqueue_t ptr
  max_conns : Nat
  num_active_conns : Nat

/-- The contexts that are allocated, each at its own address. -/
abbrev heap := AList fun _ : ptr => conn_ctx_t

/-- A manager, the contexts that are allocated, and the descriptors closed. -/
structure Manager where
  mgr : conn_mgr_t
  ctxs : heap
  closed : List Int

/-! ## Set up -/

/-- What the allocations of `connmgr_init` do, in the order of the calls. -/
structure init_outs where
  p_conns : Bool
  pp_buf : Bool
  p_pfds : Bool
  p_new_conns : Bool
  slots : Option (Nat → ptr)

def connmgr_init (initial_max_conns : Nat) (o : init_outs) : Int × Option conn_mgr_t :=
  if initial_max_conns = 0 ∨ !o.p_conns then (-1, none)
  else match ezarr_init NULL initial_max_conns o.pp_buf with
    | (0, some conns) =>
      if !o.p_pfds ∨ !o.p_new_conns then (-1, none)
      else match ezq_init initial_max_conns o.slots with
        | (0, some new_conns) =>
          (0, some ⟨conns, List.replicate initial_max_conns zero_pollfd, new_conns,
            initial_max_conns, 0⟩)
        | _ => (-1, none)
    | _ => (-1, none)

/-! ## Contexts are made and destroyed -/

/-- What `connmgr_create_new_conn` allocates or sets up, and takes back. -/
inductive resource_t
  | ctx
  | mutex
  | recv_buf
  | send_buf
  deriving DecidableEq, Repr

/-- What the calls of `connmgr_create_new_conn` do: the address of the context
and what `malloc` left there, the result of `pthread_mutex_init`, the two
buffers, and the new block of the queue when it grows. -/
structure create_outs where
  p_conn : Option ptr
  mem : conn_ctx_t
  mutex_init : Int
  p_recv_buf : Option io_buf
  p_send_buf : Option io_buf
  grow : Option (Nat → ptr)

structure create_result where
  res : Int
  state : Manager
  acquired : List resource_t
  released : List resource_t

/-- The end of `connmgr_create_new_conn`. When the queue does not take the
context, all that an inbound context has is taken back, for either type. -/
def enqueue_conn (p : ptr) (ctx : conn_ctx_t) (acquired : List resource_t) (o : create_outs)
    (s : Manager) : Option create_result :=
  (ezq_enqueue o.grow p s.mgr.p_new_conns).map fun (res, q) =>
    let s := { s with mgr := { s.mgr with p_new_conns := q } }
    if res ≠ 0 then ⟨res, s, acquired, [.send_buf, .recv_buf, .mutex, .ctx]⟩
    else ⟨res, { s with ctxs := s.ctxs.insert p ctx }, acquired, []⟩

/-- `malloc` gives no address that is in use. When a buffer is missing, `res`
is still the 0 of `pthread_mutex_init`. -/
def connmgr_create_new_conn (fd : Int) (type : conn_type_t) (o : create_outs) (s : Manager) :
    Option create_result :=
  if fd < 0 then some ⟨-1, s, [], []⟩
  else match o.p_conn with
    | none => some ⟨-1, s, [], []⟩
    | some p =>
      if p = NULL ∨ p ∈ s.ctxs then none
      else match type with
        | .INBOUND_CONN =>
          if o.mutex_init ≠ 0 then some ⟨o.mutex_init, s, [.ctx], [.ctx]⟩
          else match o.p_recv_buf with
            | none => some ⟨o.mutex_init, s, [.ctx, .mutex], [.mutex, .ctx]⟩
            | some recv_buf =>
              match o.p_send_buf with
              | none =>
                some ⟨o.mutex_init, s, [.ctx, .mutex, .recv_buf], [.recv_buf, .mutex, .ctx]⟩
              | some send_buf =>
                enqueue_conn p (inbound_ctx fd recv_buf send_buf)
                  [.ctx, .mutex, .recv_buf, .send_buf] o s
        | .INTERNAL_CONN => enqueue_conn p (internal_ctx fd o.mem) [.ctx] o s

/-- To destroy a context that is not allocated has no meaning. -/
def connmgr_destroy_conn (p_conn : ptr) (s : Manager) : Option Manager :=
  if p_conn = NULL then some s
  else (s.ctxs.lookup p_conn).map fun c =>
    { s with ctxs := s.ctxs.erase p_conn, closed := s.closed ++ [c.fd] }

/-- What main's closing pass does at the index of a context that it closes.
It skips the internal ones. -/
def close_conn (conn : Nat) (s : Manager) : Option Manager :=
  if s.mgr.num_active_conns ≤ conn then none
  else (ezarr_get_at conn s.mgr.p_conns).bind fun (_, p) =>
    p.bind fun p => (s.ctxs.lookup p).bind fun c =>
      if c.type = .INTERNAL_CONN then none
      else (connmgr_destroy_conn p s).bind fun s =>
        (ezarr_set_at conn NULL s.mgr.p_conns).bind fun (err, conns) =>
          if err = 0 then (store s.mgr.p_pfds conn zero_pollfd).map fun pfds =>
            { s with mgr := { s.mgr with p_conns := conns, p_pfds := pfds } }
          else some { s with mgr := { s.mgr with p_conns := conns } }

/-- The pass, for the indices of the contexts that it closes. -/
def closing_pass : List Nat → Manager → Option Manager
  | [], s => some s
  | conn :: rest, s => (close_conn conn s).bind (closing_pass rest)

/-! ## Updates -/

/-- What the `realloc` of each of the two arrays does. -/
structure grow_outs where
  conns : Option (Nat → ptr)
  pfds : Option (Nat → pollfd)

def add_to_pollfd (fd : Int) (grow : Option (Nat → pollfd)) (p_pfds : List pollfd)
    (cur_size max_size : Nat) : Option (Int × List pollfd) :=
  match (if cur_size = max_size then
      (match new_max cur_size, grow with
        | some n, some fill => some (realloc p_pfds n fill)
        | _, _ => none)
    else some p_pfds) with
  | none => some (-1, p_pfds)
  | some pfds => (store pfds cur_size ⟨fd, all_events, no_events⟩).map fun pfds => (0, pfds)

/-- The loop over the queue. `o` is what the arrays' reallocs do, by the turns
that are left. -/
def add_each (ctxs : heap) (o : Nat → grow_outs) : Nat → conn_mgr_t → Option (Int × conn_mgr_t)
  | 0, _ => none
  | turns + 1, m =>
    if m.p_new_conns.num_items = 0 then some (0, m)
    else (ezq_dequeue m.p_new_conns).bind fun (res, item, q) =>
      let m := { m with p_new_conns := q }
      match item with
      | none => some (res, m)
      | some p => (ezarr_push (o turns).conns p m.p_conns).bind fun (res, conns) =>
        let m := { m with p_conns := conns }
        if res ≠ 0 then some (res, m)
        else (ctxs.lookup p).bind fun c =>
          (add_to_pollfd c.fd (o turns).pfds m.p_pfds m.num_active_conns m.max_conns).bind
            fun (res, pfds) =>
              let m := { m with p_pfds := pfds }
              if res ≠ 0 then some (res, m)
              else add_each ctxs o turns { m with
                max_conns := m.p_conns.max_items
                num_active_conns := u16 (m.num_active_conns + 1) }

def connmgr_add_new_connections (ctxs : heap) (o : Nat → grow_outs) (m : conn_mgr_t) :
    Option (Int × conn_mgr_t) :=
  add_each ctxs o (m.p_new_conns.num_items + 1) m

/-- The filter of the poll array reads `max_conns` slots. -/
def connmgr_remove_closed_connections (m : conn_mgr_t) : Option (Int × conn_mgr_t) :=
  (ezarr_compact NULL m.p_conns).bind fun (res, conns) =>
    let m := { m with p_conns := conns }
    if res ≠ 0 then some (res, m)
    else (squeeze (fun i => i + 1) (fun f => f.fd != 0) zero_pollfd m.max_conns
        (m.max_conns + 1) 0 0 m.p_pfds).map fun (pfds, write_idx) =>
      (0, { m with p_pfds := pfds, num_active_conns := u16 write_idx })

def connmgr_update_connections (ctxs : heap) (o : Nat → grow_outs) (m : conn_mgr_t) :
    Option (Int × conn_mgr_t) :=
  (connmgr_remove_closed_connections m).bind fun (res, m) =>
    if res ≠ 0 then some (res, m) else connmgr_add_new_connections ctxs o m

/-! ## The end -/

/-- The loop over the slots in use. The pointer stays NULL when there is no such slot, and an
index that cannot be set is left. -/
def destroy_each : List Nat → Manager → Option Manager
  | [], s => some s
  | idx :: rest, s => (ezarr_get_at idx s.mgr.p_conns).bind fun (_, item) =>
      if item.getD NULL = NULL then destroy_each rest s
      else (connmgr_destroy_conn (item.getD NULL) s).bind fun s =>
        (ezarr_set_at idx NULL s.mgr.p_conns).bind fun (_, conns) =>
          destroy_each rest { s with mgr := { s.mgr with p_conns := conns } }

def connmgr_destroy_all_conns (s : Manager) : Option (Int × Manager) :=
  (destroy_each (List.range s.mgr.num_active_conns) s).bind fun s =>
    (ezq_clear NULL (some connmgr_destroy_conn) s.mgr.p_new_conns s).map fun (res, q, s) =>
      (res, { s with mgr := { s.mgr with p_new_conns := q } })

/-! ## The manager as a machine -/

inductive MgrLabel
  | create (fd : Int) (type : conn_type_t) (o : create_outs)
  | close (conns : List Nat)
  | update (o : Nat → grow_outs)

/-- One call, and its result. -/
def mgr_call (s : Manager) : MgrLabel → Option (Int × Manager)
  | .create fd type o => (connmgr_create_new_conn fd type o s).map fun r => (r.res, r.state)
  | .close conns => (closing_pass conns s).map fun s => (0, s)
  | .update o => (connmgr_update_connections s.ctxs o s.mgr).map fun (res, m) =>
      (res, { s with mgr := m })

def mgr_machine : machine.Machine Manager MgrLabel := ⟨fun s l => (mgr_call s l).map Prod.snd⟩

/-- A manager that `connmgr_init` has set up. -/
def Started (s : Manager) : Prop :=
  ∃ initial_max_conns o m, initial_max_conns ≤ UINT16_MAX ∧
    connmgr_init initial_max_conns o = (0, some m) ∧ s = ⟨m, ∅, []⟩

/-- A manager of one slot, with room for one context in its queue. -/
def one_slot : Manager :=
  ⟨⟨⟨[NULL], 0, 1⟩, [zero_pollfd], ⟨[NULL], 0, 1, UINT16_MAX, UINT16_MAX⟩, 1, 0⟩, ∅, []⟩

end pingpong.connmgr
