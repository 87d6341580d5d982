-- The reader keeps its place: the invariant of one connection, and that each
-- of the steps of a connection keeps it. It holds for every stream of the
-- peer, every result of the calls and every order of the tasks.
import PingPong.Framing

namespace pingpong.framing

open netio tasks

/-! ## The invariant -/

/-- The bytes of the receive buffer that the reader holds. -/
def inBuffer (k : Link) : List UInt8 := k.ctx.p_recv_buf.bytes.take k.ctx.bytes_read

/-- The input of a call of `proto_pingpong_create_response`. -/
def inputOf (c : io_buf × Nat) : List UInt8 := c.1.bytes.take c.2

/-- The inputs of the calls so far, in order. -/
def framesRead (k : Link) : List (List UInt8) := k.calls.map inputOf

/-- What the bytes taken from the peer are, in every state. -/
structure Taken (host : ByteOrder) (stream : List UInt8) (k : Link) : Prop where
  stream_eq : k.sock.taken ++ k.sock.unread = stream
  taken_eq : k.sock.taken = (framesRead k).flatten ++ inBuffer k
  frames : ∀ f ∈ framesRead k, Frame host f
  lengths : ∀ c ∈ k.calls, c.2 = (inputOf c).length
  room : k.ctx.bytes_read ≤ IO_BUF_SIZE

/-- How far the reader is, state by state. -/
def Phase (host : ByteOrder) (k : Link) : Prop :=
  match k.ctx.state with
  | .READ_HEADER =>
    k.ctx.bytes_read < HEADER_SIZE ∧ k.ctx.bytes_read + k.ctx.bytes_to_read = HEADER_SIZE
  | .READ_CONTENT =>
    ∃ t b1 b2 got, inBuffer k = t :: b1 :: b2 :: got ∧
      k.ctx.bytes_read + k.ctx.bytes_to_read = HEADER_SIZE + incoming_len host b1 b2
  | .WRITE_RESPONSE => k.ctx.bytes_read = 0 ∧ k.ctx.bytes_to_read = 0
  | .PENDING_CLOSE => Begins host (inBuffer k)
  | .SPECIAL_CONN => False

structure Reading (host : ByteOrder) (stream : List UInt8) (k : Link) : Prop where
  taken : Taken host stream k
  phase : Phase host k

theorem framesRead_answer (host : ByteOrder) (k : Link) (h : k.ctx.bytes_read ≤ IO_BUF_SIZE) :
    framesRead (answer host k) = framesRead k ++ [inBuffer k] := by
  have hu : u16 k.ctx.bytes_read = k.ctx.bytes_read := u16_of_le (Nat.le_trans h (by decide))
  simp [framesRead, answer, inputOf, inBuffer, hu]

theorem Taken.length_inBuffer {host : ByteOrder} {stream : List UInt8} {k : Link}
    (h : Taken host stream k) : (inBuffer k).length = k.ctx.bytes_read := by
  have := h.room
  simp [inBuffer]
  omega

theorem Reading.begins {host : ByteOrder} {stream : List UInt8} {k : Link}
    (h : Reading host stream k) : Begins host (inBuffer k) := by
  have hlen := h.taken.length_inBuffer
  have hp := h.phase
  unfold Phase at hp
  cases hs : k.ctx.state
  all_goals rw [hs] at hp
  · exact Or.inl (by simp only at hp; omega)
  · obtain ⟨t, b1, b2, got, he, hsum⟩ := hp
    refine Or.inr ⟨t, b1, b2, got, he, ?_⟩
    rw [he] at hlen
    simp only [List.length_cons, HEADER_SIZE] at hlen hsum
    omega
  · exact Or.inl (by simp only [HEADER_SIZE] at hp ⊢; omega)
  · exact hp
  · exact hp.elim

/-! ## A reader moves on -/

section Advance

variable {host : ByteOrder} {stream : List UInt8} {k : Link} {n : Nat} {log : List (Nat × Nat)}

theorem inBuffer_advance (hav : n ≤ k.sock.unread.length)
    (hroom : n = 0 ∨ k.ctx.bytes_read + n ≤ IO_BUF_SIZE) :
    inBuffer (advance k n log) = inBuffer k ++ k.sock.unread.take n := by
  have hlen : (k.sock.unread.take n).length = n := by simp; omega
  rcases hroom with hn | hroom
  · simp [hn, advance, received, inBuffer]
  · have hw := io_buf.take_write k.ctx.p_recv_buf k.ctx.bytes_read (k.sock.unread.take n)
      (by omega)
    rw [hlen] at hw
    exact hw

theorem Taken.advance (h : Taken host stream k) (hav : n ≤ k.sock.unread.length)
    (hroom : n = 0 ∨ k.ctx.bytes_read + n ≤ IO_BUF_SIZE) :
    Taken host stream (advance k n log) where
  stream_eq := by
    rw [← h.stream_eq]
    simp [framing.advance, received]
  taken_eq := by
    show k.sock.taken ++ k.sock.unread.take n = (framesRead k).flatten ++ _
    rw [inBuffer_advance hav hroom, h.taken_eq, List.append_assoc]
  frames := h.frames
  lengths := h.lengths
  room := by
    have := h.room
    simp only [framing.advance, received]
    omega

end Advance

/-! ## The steps keep the invariant -/

section Steps

variable {host : ByteOrder} {stream : List UInt8} {k k' : Link} {outs : List sys_result}
  {res : Int}

theorem Reading.mark_close (h : Reading host stream k) : Reading host stream (mark_close k) :=
  ⟨⟨h.taken.stream_eq, h.taken.taken_eq, h.taken.frames, h.taken.lengths, h.taken.room⟩, h.begins⟩

theorem Reading.add_ref (h : Reading host stream k) (by' : Int) :
    Reading host stream (add_ref by' k) :=
  ⟨⟨h.taken.stream_eq, h.taken.taken_eq, h.taken.frames, h.taken.lengths, h.taken.room⟩, h.phase⟩

/-- The three bytes of a complete header, and the length that it announces. -/
theorem header_bytes (k : Link) (h : k.ctx.bytes_read = HEADER_SIZE) :
    ∃ t, inBuffer k = [t, k.ctx.p_recv_buf.bytes.getD 1 0, k.ctx.p_recv_buf.bytes.getD 2 0] := by
  have hlen := k.ctx.p_recv_buf.length_bytes
  unfold inBuffer
  rw [h]
  match hb : k.ctx.p_recv_buf.bytes, hlen with
  | [], hl => simp [IO_BUF_SIZE] at hl
  | [_], hl => simp [IO_BUF_SIZE] at hl
  | [_, _], hl => simp [IO_BUF_SIZE] at hl
  | t :: b1 :: b2 :: rest, _ => exact ⟨t, by simp [HEADER_SIZE]⟩

theorem Reading.read_header (h : Reading host stream k) (hs : k.ctx.state = .READ_HEADER)
    (hr : read_header host outs k = some (res, k')) : Reading host stream k' := by
  have hp := h.phase
  simp only [Phase, hs] at hp
  obtain ⟨n, log, hn, hav, hroom, -, ⟨hall, rfl⟩ | ⟨hlt, hk⟩⟩ := read_more_cases hr
  · have ht : Taken host stream (advance k n log) := h.taken.advance hav hroom
    have hread : (advance k n log).ctx.bytes_read = HEADER_SIZE := by
      rw [← hp.2, ← hall]
      rfl
    obtain ⟨t, hb⟩ := header_bytes _ hread
    simp only [header_done, if_pos hread]
    refine ⟨⟨ht.stream_eq, ht.taken_eq, ht.frames, ht.lengths, ht.room⟩, ?_⟩
    exact ⟨t, _, _, [], hb, congrArg (· + _) hread⟩
  · have ht : Taken host stream (advance k n log) := h.taken.advance hav hroom
    have hmore : Reading host stream (advance k n log) := by
      refine ⟨ht, ?_⟩
      have hst : (advance k n log).ctx.state = .READ_HEADER := hs
      simp only [Phase, hst]
      simp only [advance, received]
      omega
    rcases hk with rfl | rfl
    · exact hmore
    · exact hmore.mark_close

theorem Reading.read_content (h : Reading host stream k) (hs : k.ctx.state = .READ_CONTENT)
    (hr : read_content host outs k = some (res, k')) : Reading host stream k' := by
  have hp := h.phase
  simp only [Phase, hs] at hp
  obtain ⟨t, b1, b2, got, hb, hsum⟩ := hp
  obtain ⟨n, log, hn, hav, hroom, -, hk⟩ := read_more_cases hr
  have ht : Taken host stream (advance k n log) := h.taken.advance hav hroom
  have hb' : inBuffer (advance k n log) = t :: b1 :: b2 :: (got ++ k.sock.unread.take n) := by
    rw [inBuffer_advance hav hroom, hb]
    rfl
  rcases hk with ⟨hall, rfl⟩ | ⟨hlt, hk⟩
  · have hlen := ht.length_inBuffer
    have hread : (advance k n log).ctx.bytes_read = HEADER_SIZE + incoming_len host b1 b2 := by
      rw [← hsum, hall]
      rfl
    -- the buffer now holds exactly one frame, and the call gets all of it
    have hframe : Frame host (inBuffer (advance k n log)) := by
      refine ⟨t, b1, b2, _, hb', ?_⟩
      rw [hb', hread] at hlen
      simp only [List.length_cons, HEADER_SIZE] at hlen
      omega
    have hzero : 0 = (advance k n log).ctx.bytes_to_read := by
      show 0 = k.ctx.bytes_to_read - n
      omega
    have hcalls := framesRead_answer host (advance k n log) ht.room
    simp only [content_done, if_pos hzero]
    refine ⟨⟨ht.stream_eq, ?_, ?_, ?_, Nat.zero_le _⟩, ⟨rfl, rfl⟩⟩
    · rw [hcalls, show inBuffer (answer host (advance k n log)) = [] from rfl,
        show (answer host (advance k n log)).sock = (advance k n log).sock from rfl]
      simpa using ht.taken_eq
    · intro f hf
      rw [hcalls, List.mem_append, List.mem_singleton] at hf
      rcases hf with hf | rfl
      · exact ht.frames f hf
      · exact hframe
    · intro c hc
      rcases List.mem_append.mp hc with hc | hc
      · exact ht.lengths c hc
      · rw [List.mem_singleton.mp hc]
        have hu := u16_of_le (Nat.le_trans ht.room (show IO_BUF_SIZE ≤ UINT16_MAX by decide))
        rw [inputOf, hu]
        exact hlen.symm
  · have hmore : Reading host stream (advance k n log) := by
      refine ⟨ht, ?_⟩
      have hst : (advance k n log).ctx.state = .READ_CONTENT := hs
      simp only [Phase, hst]
      refine ⟨t, b1, b2, _, hb', ?_⟩
      rw [← hsum]
      simp only [advance, received]
      omega
    rcases hk with rfl | rfl
    · exact hmore
    · exact hmore.mark_close

theorem Reading.data_out (h : Reading host stream k) (hs : k.ctx.state = .WRITE_RESPONSE)
    (hr : nl_handle_sock_data_out outs k = some (res, k')) : Reading host stream k' := by
  have hp := h.phase
  simp only [Phase, hs] at hp
  obtain ⟨ht, _⟩ := h
  obtain ⟨n, log, -, hn, ⟨hall, rfl⟩ | ⟨hlt, rfl⟩⟩ := data_out_cases hr
  · have hz : 0 = (sent_more k n log).ctx.bytes_to_send := by
      show 0 = k.ctx.bytes_to_send - n
      omega
    simp only [response_done, if_pos hz]
    refine ⟨⟨ht.stream_eq, ht.taken_eq, ht.frames, ht.lengths, ht.room⟩, ?_⟩
    simp [Phase, rearm, sent_more, handed, hp.1, HEADER_SIZE]
  · refine ⟨⟨ht.stream_eq, ht.taken_eq, ht.frames, ht.lengths, ht.room⟩, ?_⟩
    have hst : (sent_more k n log).ctx.state = .WRITE_RESPONSE := hs
    simp only [Phase, hst]
    exact hp

end Steps

/-- Every state of every run keeps the invariant. -/
theorem reading_of_reachable {host : ByteOrder} {stream : List UInt8} {c : Conn}
    (hc : Reachable host stream c) : Reading host stream c.link := by
  refine link_invariant (fun fd rb sb => ?_) (fun by' k h => h.add_ref by')
    (fun k h => h.mark_close) (fun outs res k k' h hs hr => h.read_header hs hr)
    (fun outs res k k' h hs hr => h.read_content hs hr)
    (fun outs res k k' h hs hr => h.data_out hs hr) hc
  exact ⟨⟨rfl, rfl, by simp [framesRead], by simp, by simp [inbound_ctx]⟩,
    by simp [Phase, inbound_ctx, HEADER_SIZE]⟩

end pingpong.framing
