-- The socket I/O of `netio.c`: the loops that call `recv` and `send`, the two
-- readers, the sender, and what one call of a loop moves.
import PingPong.ConnCtx
import PingPong.Pong

namespace pingpong.netio

inductive errno_t
  | EINTR
  | EWOULDBLOCK
  | EAGAIN
  | other
  deriving DecidableEq, Repr

/-- What one `recv` or `send` gives back: a count of bytes, or -1 and `errno`. -/
inductive sys_result
  | ret (n : Nat)
  | fail (e : errno_t)
  deriving DecidableEq, Repr

inductive nl_internal_err_t
  | NL_IO_GENERIC_ERROR
  | NL_IO_SUCCESS
  | NL_IO_EOF
  | NL_IO_EWOULDBLOCK
  | NL_RECV_ERR
  | NL_SEND_ERR
  deriving DecidableEq, Repr

/-- The socket of a connection: the bytes of the peer that no `recv` has taken
yet, those taken, and the bytes handed to the socket by `send`. -/
structure Sock where
  unread : List UInt8
  taken : List UInt8
  sent : List UInt8

/-- A connection and its socket. The last three fields record the calls that
were made: of `recv` and `send`, the offset in the buffer and the length asked
for, and of `proto_pingpong_create_response`, the input buffer and its length. -/
structure Link where
  ctx : conn_ctx_t
  sock : Sock
  recvs : List (Nat × Nat)
  sends : List (Nat × Nat)
  calls : List (io_buf × Nat)

/-! ## The system calls -/

/-- `recv(fd, p_recv_buf + base + off, len, 0)`. The kernel writes `n` bytes
of the peer to the buffer. A write past the block has no meaning. -/
def recv (base off len : Nat) (r : sys_result) (k : Link) : Option Link :=
  let k := { k with recvs := k.recvs ++ [(base + off, len)] }
  match r with
  | .fail _ => some k
  | .ret n =>
    if n ≤ len ∧ n ≤ k.sock.unread.length ∧ base + off + n ≤ IO_BUF_SIZE then
      some { k with
        ctx := { k.ctx with
          p_recv_buf := k.ctx.p_recv_buf.write (base + off) (k.sock.unread.take n) }
        sock := { k.sock with
          unread := k.sock.unread.drop n
          taken := k.sock.taken ++ k.sock.unread.take n } }
    else none

/-- `send(fd, p_send_buf + off, len, 0)`. A read past the block has no meaning. -/
def send (off len : Nat) (r : sys_result) (k : Link) : Option Link :=
  let k := { k with sends := k.sends ++ [(off, len)] }
  match r with
  | .fail _ => some k
  | .ret n =>
    if n ≤ len ∧ off + n ≤ IO_BUF_SIZE then
      some { k with sock := { k.sock with
        sent := k.sock.sent ++ (k.ctx.p_send_buf.bytes.drop off).take n } }
    else none

/-! ## The loops -/

/-- A loop that stops has no result left that a call gave. -/
def stop {α : Type} (rest : List sys_result) (x : α) : Option α :=
  if rest = [] then some x else none

/-- The loop of `nl_sendall` and `nl_recvall`, with the results of its calls in
order. It is `none` when the loop needs more results than the list has, or
fewer. Only `recv` ends the loop with a 0. -/
def io_loop (call : Nat → Nat → sys_result → Link → Option Link) (on_err : nl_internal_err_t)
    (zero_ends : Bool) (len : Nat) :
    List sys_result → Nat → Link → Option (nl_internal_err_t × Nat × Link)
  | [], total, k => if total < len then none else some (.NL_IO_SUCCESS, total, k)
  | r :: rest, total, k =>
    if total < len then
      (call total (size_sub len total) r k).bind fun k =>
        match r with
        | .fail .EINTR => io_loop call on_err zero_ends len rest total k
        | .fail .EWOULDBLOCK => stop rest (.NL_IO_EWOULDBLOCK, total, k)
        | .fail .EAGAIN => stop rest (.NL_IO_EWOULDBLOCK, total, k)
        | .fail .other => stop rest (on_err, total, k)
        | .ret n =>
          if zero_ends ∧ n = 0 then stop rest (.NL_IO_EOF, total, k)
          else io_loop call on_err zero_ends len rest (total + n) k
    else none

/-- `nl_recvall(fd, p_recv_buf + base, len, &bytes_read)`. -/
def nl_recvall (base len : Nat) (outs : List sys_result) (k : Link) :
    Option (nl_internal_err_t × Nat × Link) :=
  io_loop (recv base) .NL_RECV_ERR true len outs 0 k

/-- `nl_sendall(fd, p_send_buf, len, &bytes_sent)`. -/
def nl_sendall (len : Nat) (outs : List sys_result) (k : Link) :
    Option (nl_internal_err_t × Nat × Link) :=
  io_loop send .NL_SEND_ERR false len outs 0 k

/-! ## The readers -/

/-- The length that `read_header` gets out of the two length bytes. -/
def incoming_len (host : ByteOrder) (b1 b2 : UInt8) : Nat :=
  ntohs host (size_t_of_two_bytes host b1 b2)

/-- `read_header` and `read_content`: they read on from `bytes_read`, and
differ in what they do when the read is complete. -/
def read_more (on_success : Link → Link) (outs : List sys_result) (k : Link) :
    Option (Int × Link) :=
  (nl_recvall k.ctx.bytes_read k.ctx.bytes_to_read outs k).map fun (err, bytes_read, k) =>
    let k := { k with ctx := { k.ctx with
      bytes_read := k.ctx.bytes_read + bytes_read
      bytes_to_read := size_sub k.ctx.bytes_to_read bytes_read } }
    match err with
    | .NL_IO_SUCCESS => (0, on_success k)
    | .NL_IO_EWOULDBLOCK => (0, k)
    | .NL_IO_EOF => (0, { k with ctx := { k.ctx with state := .PENDING_CLOSE } })
    | .NL_RECV_ERR => (-1, k)
    | _ => (-1, k)

/-- The success branch of `read_header`. -/
def header_done (host : ByteOrder) (k : Link) : Link :=
  if k.ctx.bytes_read = HEADER_SIZE then
    let b := k.ctx.p_recv_buf.bytes
    { k with ctx := { k.ctx with
      bytes_to_read := incoming_len host (b.getD 1 0) (b.getD 2 0)
      state := .READ_CONTENT } }
  else k

/-- The call of the protocol with the complete message. The length of the
response is stored through a `uint16_t *` to the `size_t` field. -/
def answer (host : ByteOrder) (k : Link) : Link :=
  let inbuf_len := u16 k.ctx.bytes_read
  let r := pong.proto_pingpong_create_response host k.ctx.p_recv_buf k.ctx.p_send_buf inbuf_len
  { k with
    ctx := { k.ctx with
      p_send_buf := r.out_buf
      bytes_to_send := size_t_store_u16 host k.ctx.bytes_to_send r.out_len
      bytes_to_read := 0
      bytes_read := 0
      state := .WRITE_RESPONSE
      p_recv_buf := io_buf.zero }
    calls := k.calls ++ [(k.ctx.p_recv_buf, inbuf_len)] }

/-- The success branch of `read_content`. -/
def content_done (host : ByteOrder) (k : Link) : Link :=
  if 0 = k.ctx.bytes_to_read then answer host k else k

def read_header (host : ByteOrder) (outs : List sys_result) (k : Link) : Option (Int × Link) :=
  read_more (header_done host) outs k

def read_content (host : ByteOrder) (outs : List sys_result) (k : Link) : Option (Int × Link) :=
  read_more (content_done host) outs k

/-- `nl_handle_sock_data_in`. In another state no `recv` is called. -/
def nl_handle_sock_data_in (host : ByteOrder) (outs : List sys_result) (k : Link) :
    Option (Int × Link) :=
  match k.ctx.state with
  | .READ_HEADER => read_header host outs k
  | .READ_CONTENT => read_content host outs k
  | _ => stop outs (-1, k)

/-! ## The sender -/

/-- The connection after a whole response: ready for the next header. -/
def rearm (k : Link) : Link :=
  { k with ctx := { k.ctx with
    bytes_to_send := 0
    bytes_sent := 0
    state := .READ_HEADER
    bytes_to_read := HEADER_SIZE
    p_send_buf := io_buf.zero } }

/-- The success branch of `nl_handle_sock_data_out`. -/
def response_done (k : Link) : Link := if 0 = k.ctx.bytes_to_send then rearm k else k

/-- `nl_handle_sock_data_out`. The call of `nl_sendall` passes `p_send_buf`
itself, also when `bytes_sent` bytes of it were sent before. -/
def nl_handle_sock_data_out (outs : List sys_result) (k : Link) : Option (Int × Link) :=
  (nl_sendall k.ctx.bytes_to_send outs k).map fun (err, bytes_sent, k) =>
    let k := { k with ctx := { k.ctx with
      bytes_to_send := size_sub k.ctx.bytes_to_send bytes_sent
      bytes_sent := k.ctx.bytes_sent + bytes_sent } }
    match err with
    | .NL_IO_SUCCESS => (0, response_done k)
    | .NL_IO_EWOULDBLOCK => (0, k)
    | .NL_SEND_ERR => (-1, k)
    | _ => (-1, k)

end pingpong.netio
