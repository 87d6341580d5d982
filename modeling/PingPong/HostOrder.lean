-- The law of the byte order: what a connection does on the wire is the same on all hosts for the
-- responses alone. The two length counters are right on a little-endian host only.
import PingPong.ConnLaws
import PingPong.PongLaws

namespace pingpong.framing

open netio tasks

/-- What a host should do with a peer that sends these frames: the header gives the length in
network order, the response has 11 bytes to send, and its bytes are those of any other host. -/
structure WireRight (host : ByteOrder) (frames : List WireFrame) : Prop where
  header : ∀ c outs res k, Reachable host (frames.map WireFrame.bytes).flatten c →
    c.link.ctx.state = .READ_HEADER → read_header host outs c.link = some (res, k) →
    k.ctx.state = .READ_CONTENT →
    ∃ t b1 b2, inBuffer k = [t, b1, b2] ∧ k.ctx.bytes_to_read = 256 * b1.toNat + b2.toNat
  content : ∀ c outs res k, Reachable host (frames.map WireFrame.bytes).flatten c →
    c.link.ctx.state = .READ_CONTENT → read_content host outs c.link = some (res, k) →
    k.ctx.state = .WRITE_RESPONSE → k.ctx.bytes_to_send = 11
  response : ∀ other p_in_buf p_out_buf inbuf_len,
    pong.response_bytes host p_in_buf p_out_buf inbuf_len =
      pong.response_bytes other p_in_buf p_out_buf inbuf_len

theorem response_bytes_host (host other : ByteOrder) (p_in_buf p_out_buf : io_buf)
    (inbuf_len : Nat) : pong.response_bytes host p_in_buf p_out_buf inbuf_len =
      pong.response_bytes other p_in_buf p_out_buf inbuf_len := by
  rw [pong.response_bytes_eq, pong.response_bytes_eq, pong.bytes_pong_response,
    pong.bytes_pong_response]

/-! ## The two counters -/

/-- A header that is complete sets the counter to the length that the host gets out of it. -/
theorem header_counter {host : ByteOrder} {k k' : Link} {outs : List sys_result} {res : Int}
    (hs : k.ctx.state = .READ_HEADER) (hr : read_header host outs k = some (res, k'))
    (hs' : k'.ctx.state = .READ_CONTENT) :
    ∃ t b1 b2, inBuffer k' = [t, b1, b2] ∧ k'.ctx.bytes_to_read = incoming_len host b1 b2 := by
  obtain ⟨n, log, -, -, -, -, ⟨-, rfl⟩ | ⟨-, rfl | rfl⟩⟩ := read_more_cases hr
  · unfold header_done at hs' ⊢
    split at hs'
    · rename_i hread
      obtain ⟨t, hb⟩ := header_bytes _ hread
      rw [if_pos hread]
      exact ⟨t, _, _, hb, rfl⟩
    · rw [show (advance k n log).ctx.state = k.ctx.state from rfl, hs] at hs'
      cases hs'
  · rw [show (advance k n log).ctx.state = k.ctx.state from rfl, hs] at hs'
    cases hs'
  · cases hs'

/-- A response stores its size over what the counter was. -/
theorem content_counter {host : ByteOrder} {k k' : Link} {outs : List sys_result} {res : Int}
    (hs : k.ctx.state = .READ_CONTENT) (hr : read_content host outs k = some (res, k'))
    (hs' : k'.ctx.state = .WRITE_RESPONSE) :
    k'.ctx.bytes_to_send = size_t_store_u16 host k.ctx.bytes_to_send 11 := by
  obtain ⟨n, log, -, -, -, -, ⟨-, rfl⟩ | ⟨-, rfl | rfl⟩⟩ := read_more_cases hr
  · unfold content_done at hs' ⊢
    split at hs'
    · rename_i hzero
      rw [if_pos hzero]
      rfl
    · rw [show (advance k n log).ctx.state = k.ctx.state from rfl, hs] at hs'
      cases hs'
  · rw [show (advance k n log).ctx.state = k.ctx.state from rfl, hs] at hs'
    cases hs'
  · cases hs'

/-- On a little-endian host the counter is 0 before the response, and then 11. -/
theorem content_little {k k' : Link} {outs : List sys_result} {res : Int} (h : Sending k)
    (hs : k.ctx.state = .READ_CONTENT) (hr : read_content .little outs k = some (res, k'))
    (hs' : k'.ctx.state = .WRITE_RESPONSE) : k'.ctx.bytes_to_send = 11 := by
  simp only [Sending, hs] at h
  rw [content_counter hs hr hs', h.2]
  rfl

theorem wireRight_little (frames : List WireFrame) : WireRight .little frames where
  header c outs res k _ hs hr hs' := by
    obtain ⟨t, b1, b2, hb, hto⟩ := header_counter hs hr hs'
    exact ⟨t, b1, b2, hb, hto.trans (incoming_len_little b1 b2)⟩
  content _ _ _ _ hc hs hr hs' := content_little (sending_of_reachable hc) hs hr hs'
  response _ _ _ _ := response_bytes_host ..

/-- On a big-endian host the two bytes come to the high end of the `size_t`, and `ntohs` cuts them
off. -/
theorem incoming_len_big (b1 b2 : UInt8) : incoming_len .big b1 b2 = 0 := by
  simp only [incoming_len, ntohs, size_t_of_two_bytes, u16]
  omega

/-- The 11 comes to the high end of the counter. -/
theorem size_t_store_big (old : Nat) : size_t_store_u16 .big old 11 ≠ 11 := by
  simp only [size_t_store_u16, u16]
  omega

/-! ## A run on a big-endian host -/

/-- A connection that has got the header of its first frame and nothing else. -/
def headed (stream : List UInt8) : Link :=
  header_done .big (advance (fresh_conn 5 stream).link 3 [(0, 3)])

theorem read_headed {stream : List UInt8} (h : 3 ≤ stream.length) :
    read_header .big [.ret 3] (fresh_conn 5 stream).link = some (0, headed stream) := by
  have hroom : 3 ≤ 3 ∧ 3 ≤ (fresh_conn 5 stream).link.sock.unread.length ∧
      0 + 0 + 3 ≤ IO_BUF_SIZE := ⟨by decide, h, by decide⟩
  have hcall : recv 0 0 (size_sub 3 0) (.ret 3) (fresh_conn 5 stream).link =
      some (received (fresh_conn 5 stream).link 0 3 [(0, 3)]) := if_pos hroom
  have hrecv : nl_recvall 0 3 [.ret 3] (fresh_conn 5 stream).link =
      some (.NL_IO_SUCCESS, 3, received (fresh_conn 5 stream).link 0 3 [(0, 3)]) := by
    unfold nl_recvall io_loop
    rw [if_pos (by decide), hcall]
    rfl
  show (nl_recvall 0 3 [.ret 3] (fresh_conn 5 stream).link).map _ = _
  rw [hrecv]
  rfl

theorem headed_reachable {stream : List UInt8} (h : 3 ≤ stream.length) :
    Reachable .big stream ⟨add_ref (-1) (headed stream), false⟩ := by
  have hstep : conn_step .big (fresh_conn 5 stream) (.read [.ret 3]) =
      some ⟨add_ref (-1) (headed stream), false⟩ := by
    show Option.map _ (Option.map _ (Option.map _ (read_header .big [.ret 3]
      (fresh_conn 5 stream).link))) = _
    rw [read_headed h]
    rfl
  have hrun : (conn_machine .big).run (fresh_conn 5 stream) [.read [.ret 3]] = some _ :=
    (conn_machine .big).run_cons.mpr ⟨_, hstep, rfl⟩
  exact reachable_of_run hrun

/-- The content of a header with the length 0 is read without a call of `recv`. -/
theorem read_headed_content (stream : List UInt8) :
    ∃ k, read_content .big [] (add_ref (-1) (headed stream)) = some (0, k) ∧
      k.ctx.state = .WRITE_RESPONSE := by
  have hzero : (add_ref (-1) (headed stream)).ctx.bytes_to_read = 0 := incoming_len_big _ _
  have hrecv : nl_recvall (add_ref (-1) (headed stream)).ctx.bytes_read
      (add_ref (-1) (headed stream)).ctx.bytes_to_read [] (add_ref (-1) (headed stream)) =
      some (.NL_IO_SUCCESS, 0, add_ref (-1) (headed stream)) := by
    rw [hzero]
    rfl
  unfold read_content read_more
  rw [hrecv]
  refine ⟨_, rfl, ?_⟩
  unfold content_done
  rw [if_pos (by simp [hzero, size_sub])]
  rfl

theorem not_wireRight_big (f : WireFrame) (frames : List WireFrame) :
    ¬ WireRight .big (f :: frames) := by
  intro h
  have hlen : 3 ≤ ((f :: frames).map WireFrame.bytes).flatten.length := by
    simp [WireFrame.bytes]
  obtain ⟨k, hr, hs⟩ := read_headed_content ((f :: frames).map WireFrame.bytes).flatten
  have hcontent := h.content _ _ _ k (headed_reachable hlen) rfl hr hs
  rw [content_counter rfl hr hs] at hcontent
  exact size_t_store_big _ hcontent

/-! ## The law -/

/-- Whatever the peer sends, be it one frame or more, the host is right on the wire if and only if
it is little-endian. -/
theorem the_wire_is_right_iff_the_host_is_little_endian (host : ByteOrder) (f : WireFrame)
    (frames : List WireFrame) : WireRight host (f :: frames) ↔ host = .little := by
  cases host with
  | little => exact iff_of_true (wireRight_little _) rfl
  | big => exact iff_of_false (not_wireRight_big f frames) nofun

/-- The frame with the content [7] announces one byte, and a big-endian host waits for none. -/
theorem a_big_endian_host_reads_one_as_none : ¬ WireRight .big [⟨0, [7], by decide⟩] := by
  intro h
  have hread : read_header .big [.ret 3] (fresh_conn 5 [0, 0, 1, 7]).link =
      some (0, headed [0, 0, 1, 7]) := read_headed (by decide)
  obtain ⟨t, b1, b2, hb, hto⟩ := h.header _ _ _ _
    (machine.Machine.Reach.start ⟨5, io_buf.zero, io_buf.zero, rfl⟩) rfl hread rfl
  have hgot : inBuffer (headed [0, 0, 1, 7]) = [0, 0, 1] := rfl
  rw [hgot] at hb
  simp only [List.cons.injEq] at hb
  obtain ⟨-, rfl, rfl, -⟩ := hb
  exact absurd ((incoming_len_big _ _).symm.trans hto) (by decide)

end pingpong.framing
