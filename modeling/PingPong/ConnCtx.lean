-- The connection context of `connmgr.h`, and the values that
-- `connmgr_create_new_conn` gives a new one.
import PingPong.Common

namespace pingpong

inductive conn_type_t
  | INTERNAL_CONN
  | INBOUND_CONN
  deriving DecidableEq, Repr

inductive conn_state_t
  | READ_HEADER
  | READ_CONTENT
  | WRITE_RESPONSE
  | PENDING_CLOSE
  | SPECIAL_CONN
  deriving DecidableEq, Repr

/-- The context of a connection. The mutex is a part of the models that
interleave threads, and `addr` is never used. -/
structure conn_ctx_t where
  type : conn_type_t
  ref_count : Int
  fd : Int
  p_recv_buf : io_buf
  bytes_read : Nat
  bytes_to_read : Nat
  p_send_buf : io_buf
  bytes_sent : Nat
  bytes_to_send : Nat
  state : conn_state_t

/-- A new inbound context. `malloc` leaves any bytes in the two buffers. -/
def inbound_ctx (fd : Int) (recv_buf send_buf : io_buf) : conn_ctx_t where
  type := .INBOUND_CONN
  ref_count := 0
  fd := fd
  p_recv_buf := recv_buf
  bytes_read := 0
  bytes_to_read := HEADER_SIZE
  p_send_buf := send_buf
  bytes_sent := 0
  bytes_to_send := 0
  state := .READ_HEADER

/-- A new internal context, for the listener and the self-pipe. Only the type,
the state, the descriptor and the count are set: `m` is what `malloc` left. -/
def internal_ctx (fd : Int) (m : conn_ctx_t) : conn_ctx_t :=
  { m with type := .INTERNAL_CONN, state := .SPECIAL_CONN, fd := fd, ref_count := 0 }

end pingpong
