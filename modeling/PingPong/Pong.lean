-- The ping-pong protocol of `pong.c`: the packed message in memory, and the
-- response that the server writes for a message of a client.
import PingPong.Common

namespace pingpong.pong

def PING_PONG_LEN : Nat := 5

def PING_TYPE : UInt8 := 0
def PONG_TYPE : UInt8 := 1
def PING_PONG_ERR : UInt8 := 2

/-- The string literals "ping" and "pong", with the zero byte at their end. -/
def ping_str : List UInt8 := [112, 105, 110, 103, 0]
def pong_str : List UInt8 := [112, 111, 110, 103, 0]

/-- The packed struct. `len` and `cli_id` are the `uint16_t` values that the
host reads from the fields, so a value on the wire went through `htons`. -/
structure ping_pong_t where
  type : UInt8
  len : Nat
  cli_id : Nat
  volley : UInt8
  buf : List UInt8
  buf_len : buf.length = PING_PONG_LEN

/-- `sizeof(ping_pong_t)`: the struct is packed. -/
def sizeof_ping_pong_t : Nat := 1 + 2 + 2 + 1 + PING_PONG_LEN

namespace ping_pong_t

/-- The struct as it lies in memory. -/
def bytes (host : ByteOrder) (p : ping_pong_t) : List UInt8 :=
  [p.type] ++ u16_bytes host p.len ++ u16_bytes host p.cli_id ++ [p.volley] ++ p.buf

/-- The struct that a cast of a buffer to `ping_pong_t *` reads. -/
def of_buf (host : ByteOrder) (b : io_buf) : ping_pong_t where
  type := b.bytes.getD 0 0
  len := u16_load host (b.bytes.getD 1 0) (b.bytes.getD 2 0)
  cli_id := u16_load host (b.bytes.getD 3 0) (b.bytes.getD 4 0)
  volley := b.bytes.getD 5 0
  buf := (b.bytes.drop 6).take PING_PONG_LEN
  buf_len := by simp [IO_BUF_SIZE, PING_PONG_LEN]

@[simp] theorem length_bytes (host : ByteOrder) (p : ping_pong_t) :
    (p.bytes host).length = sizeof_ping_pong_t := by
  simp [bytes, p.buf_len, sizeof_ping_pong_t, PING_PONG_LEN]

end ping_pong_t

/-- `strncmp`: the first difference in the first `n` bytes, up to a zero byte. -/
def strncmp : List UInt8 → List UInt8 → Nat → Int
  | a :: as, b :: bs, n + 1 =>
    if a ≠ b then (a.toNat : Int) - b.toNat else if a = 0 then 0 else strncmp as bs n
  | _, _, _ => 0

/-- The message with the error code, as both error branches fill it. -/
def error_response (host : ByteOrder) (cli_id : Nat) : ping_pong_t where
  type := PING_PONG_ERR
  len := htons host sizeof_ping_pong_t
  cli_id := htons host cli_id
  volley := 0
  buf := List.replicate PING_PONG_LEN 0
  buf_len := List.length_replicate ..

/-- `pong_response` at the `memcpy` of its branch. -/
def pong_response (host : ByteOrder) (p_in_buf : io_buf) (inbuf_len : Nat) : ping_pong_t :=
  if sizeof_ping_pong_t ≠ inbuf_len then
    error_response host 0
  else
    let p_in := ping_pong_t.of_buf host p_in_buf
    let cli_id := ntohs host p_in.cli_id
    if PING_TYPE ≠ p_in.type ∨ strncmp p_in.buf ping_str 4 ≠ 0 then
      error_response host cli_id
    else
      { type := PONG_TYPE
        len := htons host sizeof_ping_pong_t
        cli_id := htons host cli_id
        volley := p_in.volley + 1
        buf := pong_str
        buf_len := rfl }

/-- What a call gives back: its result, `*p_out_buf` and `*p_out_len`. -/
structure Response where
  res : Int
  out_buf : io_buf
  out_len : Nat

/-- `proto_pingpong_create_response`, for buffers that are not `NULL`. Every
branch copies its message and reports its size. -/
def proto_pingpong_create_response (host : ByteOrder) (p_in_buf p_out_buf : io_buf)
    (inbuf_len : Nat) : Response :=
  let pong := pong_response host p_in_buf inbuf_len
  { res := 0
    out_buf := p_out_buf.write 0 (pong.bytes host)
    out_len := sizeof_ping_pong_t }

/-- The bytes that the server sends for a request. -/
def response_bytes (host : ByteOrder) (p_in_buf p_out_buf : io_buf) (inbuf_len : Nat) :
    List UInt8 :=
  let r := proto_pingpong_create_response host p_in_buf p_out_buf inbuf_len
  r.out_buf.bytes.take r.out_len

/-! ## What a response holds -/

theorem response_bytes_eq (host : ByteOrder) (p_in_buf p_out_buf : io_buf) (inbuf_len : Nat) :
    response_bytes host p_in_buf p_out_buf inbuf_len =
      (pong_response host p_in_buf inbuf_len).bytes host := by
  have h := io_buf.take_write p_out_buf 0 ((pong_response host p_in_buf inbuf_len).bytes host)
    (by simp [sizeof_ping_pong_t, PING_PONG_LEN, IO_BUF_SIZE])
  simpa [response_bytes, proto_pingpong_create_response] using h

/-- Every branch writes the size of the whole message to the length field. -/
theorem pong_response_len (host : ByteOrder) (p_in_buf : io_buf) (inbuf_len : Nat) :
    (pong_response host p_in_buf inbuf_len).len = htons host sizeof_ping_pong_t := by
  unfold pong_response
  split
  · rfl
  · simp only
    split <;> rfl

/-- A response on the wire: its type, the length 11 in network order, and the
8 bytes after the header. -/
theorem response_bytes_shape (host : ByteOrder) (p_in_buf p_out_buf : io_buf) (inbuf_len : Nat) :
    ∃ t body, response_bytes host p_in_buf p_out_buf inbuf_len = t :: 0 :: 11 :: body ∧
      body.length = 8 := by
  rw [response_bytes_eq]
  generalize hp : pong_response host p_in_buf inbuf_len = p
  have hl : u16_bytes host p.len = [0, 11] := by
    rw [← hp, pong_response_len, u16_bytes_htons]
    rfl
  refine ⟨p.type, u16_bytes host p.cli_id ++ [p.volley] ++ p.buf, ?_, ?_⟩
  · simp [ping_pong_t.bytes, hl]
  · simp [p.buf_len, PING_PONG_LEN]

end pingpong.pong
