-- The laws of one connection: where the reader writes, what the protocol is
-- called with, how the states and counters move, and whether the responses
-- are frames themselves.
import PingPong.Reader

namespace pingpong.framing

open netio tasks

/-! ## The receive buffer -/

/-- Every header of the stream announces a message that fits in the buffer
behind the header. -/
def AnnouncesFit (host : ByteOrder) (stream : List UInt8) : Prop :=
  ∀ n ∈ announced host stream, n ≤ IO_BUF_SIZE - HEADER_SIZE

/-- The reader is inside the buffer, and so was each `recv` so far: it asked
for bytes up to the end of the buffer at most. -/
def InBounds (k : Link) : Prop :=
  ((k.ctx.state = .READ_HEADER ∨ k.ctx.state = .READ_CONTENT) →
    k.ctx.bytes_read + k.ctx.bytes_to_read ≤ IO_BUF_SIZE) ∧
  ∀ r ∈ k.recvs, r.1 + r.2 ≤ IO_BUF_SIZE

/-- The header in the buffer is one of the stream. -/
theorem Reading.mem_announced {host : ByteOrder} {stream : List UInt8} {k : Link}
    (h : Reading host stream k) {t b1 b2 : UInt8} {got : List UInt8}
    (hb : inBuffer k = t :: b1 :: b2 :: got) :
    incoming_len host b1 b2 ∈ announced host stream := by
  rw [← h.taken.stream_eq, h.taken.taken_eq, List.append_assoc]
  apply mem_announced_of_flatten h.taken.frames
  rw [hb]
  simp only [List.cons_append]
  rw [announced]
  exact List.mem_cons_self

/-- While the reader waits for bytes, those that it holds and those that it waits for fit. -/
theorem Reading.bound {host : ByteOrder} {stream : List UInt8} {k : Link}
    (h : Reading host stream k) (hfit : AnnouncesFit host stream)
    (hs : k.ctx.state = .READ_HEADER ∨ k.ctx.state = .READ_CONTENT) :
    k.ctx.bytes_read + k.ctx.bytes_to_read ≤ IO_BUF_SIZE := by
  have hp := h.phase
  rcases hs with hs | hs
  · simp only [Phase, hs] at hp
    simp [hp.2, HEADER_SIZE, IO_BUF_SIZE]
  · simp only [Phase, hs] at hp
    obtain ⟨t, b1, b2, got, hb, hsum⟩ := hp
    have := hfit _ (h.mem_announced hb)
    rw [hsum]
    simp only [HEADER_SIZE, IO_BUF_SIZE] at this ⊢
    omega

theorem recvs_read_more {f : Link → Link} (hf : ∀ k, (f k).recvs = k.recvs)
    {outs : List sys_result} {k k' : Link} {res : Int} (h : read_more f outs k = some (res, k')) :
    ∃ log, k'.recvs = k.recvs ++ log ∧
      ∀ c ∈ log, c.1 + c.2 = k.ctx.bytes_read + k.ctx.bytes_to_read := by
  obtain ⟨n, log, -, -, -, hlog, ⟨-, rfl⟩ | ⟨-, rfl | rfl⟩⟩ := read_more_cases h
  · exact ⟨log, hf _, hlog⟩
  · exact ⟨log, rfl, hlog⟩
  · exact ⟨log, rfl, hlog⟩

/-- When every header of the stream announces a message that fits, the reader
stays inside the receive buffer in every run. -/
theorem the_reader_stays_in_the_buffer (host : ByteOrder) (stream : List UInt8) (c : Conn)
    (hfit : AnnouncesFit host stream) (hc : Reachable host stream c) : InBounds c.link := by
  have hlog : ∀ {f : Link → Link} {outs res k k'}, (∀ k, (f k).recvs = k.recvs) →
      (k.ctx.state = .READ_HEADER ∨ k.ctx.state = .READ_CONTENT) → Reading host stream k →
      (∀ r ∈ k.recvs, r.1 + r.2 ≤ IO_BUF_SIZE) → read_more f outs k = some (res, k') →
      ∀ r ∈ k'.recvs, r.1 + r.2 ≤ IO_BUF_SIZE := by
    intro f outs res k k' hf hs hread hold hr r hrk
    obtain ⟨log, he, hl⟩ := recvs_read_more hf hr
    rw [he] at hrk
    rcases List.mem_append.mp hrk with hrk | hrk
    · exact hold r hrk
    · rw [hl r hrk]
      exact hread.bound hfit hs
  have hheader : ∀ k, (header_done host k).recvs = k.recvs := fun k => by
    unfold header_done; split <;> rfl
  have hcontent : ∀ k, (content_done host k).recvs = k.recvs := fun k => by
    unfold content_done; split <;> rfl
  have hout : ∀ {outs res k k'}, nl_handle_sock_data_out outs k = some (res, k') →
      k'.recvs = k.recvs := by
    intro outs res k k' h
    obtain ⟨n, log, -, -, ⟨-, rfl⟩ | ⟨-, rfl⟩⟩ := data_out_cases h
    · unfold response_done; split <;> rfl
    · rfl
  have hinv : Reading host stream c.link ∧ ∀ r ∈ c.link.recvs, r.1 + r.2 ≤ IO_BUF_SIZE := by
    refine link_invariant
      (P := fun k => Reading host stream k ∧ ∀ r ∈ k.recvs, r.1 + r.2 ≤ IO_BUF_SIZE)
      (fun fd rb sb => ⟨?_, by simp⟩) (fun by' k h => ⟨h.1.add_ref by', h.2⟩)
      (fun k h => ⟨h.1.mark_close, h.2⟩)
      (fun outs res k k' h hs hr =>
        ⟨h.1.read_header hs hr, hlog hheader (Or.inl hs) h.1 h.2 hr⟩)
      (fun outs res k k' h hs hr =>
        ⟨h.1.read_content hs hr, hlog hcontent (Or.inr hs) h.1 h.2 hr⟩)
      (fun outs res k k' h hs hr => ⟨h.1.data_out hs hr, by rw [hout hr]; exact h.2⟩) hc
    exact (reading_of_reachable (c := ⟨_, false⟩)
      (machine.Machine.Reach.start ⟨fd, rb, sb, rfl⟩))
  exact ⟨fun hs => hinv.1.bound hfit hs, hinv.2⟩

/-- One frame with a content of one byte, its header read in two cuts. -/
theorem the_reader_stays_in_the_buffer_for_one_byte :
    ∃ c, Reachable .little [0, 0, 1, 7] c ∧ InBounds c.link := by
  obtain ⟨c, hc⟩ : ∃ c, (conn_machine .little).run (fresh_conn 5 [0, 0, 1, 7])
    [.hold, .read [.ret 2, .fail .EAGAIN], .hold, .read [.ret 1]] = some c := ⟨_, rfl⟩
  refine ⟨c, reachable_of_run hc,
    the_reader_stays_in_the_buffer .little [0, 0, 1, 7] c ?_ (reachable_of_run hc)⟩
  simp [AnnouncesFit, announced, incoming_len, ntohs, size_t_of_two_bytes, u16_load, u16,
    IO_BUF_SIZE, HEADER_SIZE]

/-- A peer that announces 65535 bytes gets the reader past the buffer. -/
theorem a_long_message_leaves_the_buffer :
    ∃ c, Reachable .little [0, 255, 255] c ∧ ¬ InBounds c.link := by
  obtain ⟨c, hc, hs, hsum⟩ : ∃ c, (conn_machine .little).run (fresh_conn 5 [0, 255, 255])
      [.hold, .read [.ret 3]] = some c ∧ c.link.ctx.state = .READ_CONTENT ∧
      c.link.ctx.bytes_read + c.link.ctx.bytes_to_read = 65538 := ⟨_, rfl, rfl, rfl⟩
  refine ⟨c, reachable_of_run hc, fun h => ?_⟩
  have := h.1 (Or.inr hs)
  rw [hsum] at this
  exact absurd this (by decide)

/-! ## The calls of the protocol -/

/-- A frame on the wire, with a content that fits in the receive buffer. -/
structure WireFrame where
  type : UInt8
  content : List UInt8
  fits : content.length ≤ IO_BUF_SIZE - HEADER_SIZE

/-- The type byte, the length in network order, and the content. -/
def WireFrame.bytes (f : WireFrame) : List UInt8 :=
  f.type :: UInt8.ofNat (f.content.length / 256) :: UInt8.ofNat f.content.length :: f.content

theorem incoming_len_little (b1 b2 : UInt8) : incoming_len .little b1 b2 = be16 b1 b2 :=
  ntohs_u16_load .little b1 b2

theorem WireFrame.frame (f : WireFrame) : Frame .little f.bytes := by
  refine ⟨_, _, _, _, rfl, ?_⟩
  have hfits := f.fits
  simp only [IO_BUF_SIZE, HEADER_SIZE] at hfits
  rw [incoming_len_little]
  simp only [be16, UInt8.toNat_ofNat']
  omega

/-- However the bytes of a stream of frames arrive, and in whatever order the
tasks run, the protocol is called once for each of the first `n` frames, with
the whole frame and its length, and the bytes taken from the socket are these
frames and the start of the next one. -/
theorem framing_does_not_depend_on_arrival (frames : List WireFrame) (c : Conn)
    (hc : Reachable .little (frames.map WireFrame.bytes).flatten c) :
    ∃ n ≤ frames.length,
      c.link.calls.map inputOf = (frames.take n).map WireFrame.bytes ∧
      (∀ call ∈ c.link.calls, call.2 = (inputOf call).length) ∧
      c.link.sock.taken = ((frames.take n).map WireFrame.bytes).flatten ++ inBuffer c.link ∧
      (inBuffer c.link).length = c.link.ctx.bytes_read ∧
      inBuffer c.link <+: ((frames.drop n).map WireFrame.bytes).headD [] := by
  have h := reading_of_reachable hc
  have hstream := h.taken.stream_eq
  rw [h.taken.taken_eq, List.append_assoc] at hstream
  have hwire : ∀ g ∈ frames.map WireFrame.bytes, Frame .little g := by
    intro g hg
    obtain ⟨f, -, rfl⟩ := List.mem_map.mp hg
    exact f.frame
  obtain ⟨htake, hrest⟩ := (frame_code .little).take_of_flatten h.taken.frames hwire hstream
  have hlen : (framesRead c.link).length ≤ frames.length := by
    have := congrArg List.length htake
    simp only [List.length_take, List.length_map] at this
    omega
  rw [← List.map_take] at htake
  rw [← List.map_drop] at hrest
  refine ⟨(framesRead c.link).length, hlen, htake, h.taken.lengths, ?_, h.taken.length_inBuffer,
    ?_⟩
  · rw [← htake]
    exact h.taken.taken_eq
  · cases hd : frames.drop (framesRead c.link).length with
    | nil =>
      rw [hd] at hrest
      simp only [List.map_nil, List.flatten_nil, List.append_eq_nil_iff] at hrest
      rw [hrest.1]
      exact List.nil_prefix
    | cons f fs =>
      rw [hd] at hrest
      simp only [List.map_cons, List.flatten_cons] at hrest
      exact h.begins.start_of_frame f.frame hrest

/-- Two frames, the first one cut in its header and its response delayed. -/
theorem framing_of_two_frames :
    ∃ c, Reachable .little ([⟨0, [7], by decide⟩, ⟨0, [8, 9], by decide⟩].map
        WireFrame.bytes).flatten c ∧
      ∃ n ≤ 2, c.link.calls.map inputOf =
        ([⟨0, [7], by decide⟩, ⟨0, [8, 9], by decide⟩].take n).map WireFrame.bytes := by
  obtain ⟨c, hc⟩ : ∃ c, (conn_machine .little).run
      (fresh_conn 5 ([⟨0, [7], by decide⟩, ⟨0, [8, 9], by decide⟩].map WireFrame.bytes).flatten)
      [.hold, .read [.ret 2, .fail .EAGAIN], .hold, .send [], .hold, .read [.ret 1],
        .hold, .read [.fail .EINTR, .ret 1], .hold, .send [.ret 11], .hold,
        .read [.ret 3]] = some c := ⟨_, rfl⟩
  obtain ⟨n, hn, hcalls, -⟩ := framing_does_not_depend_on_arrival _ c (reachable_of_run hc)
  exact ⟨c, reachable_of_run hc, n, hn, hcalls⟩

/-! ## The states and the counters -/

/-- What the counters of a connection are in each of its states. -/
def Counters (k : Link) : Prop :=
  match k.ctx.state with
  | .READ_HEADER =>
    k.ctx.bytes_read + k.ctx.bytes_to_read = HEADER_SIZE ∧ k.ctx.bytes_read < HEADER_SIZE ∧
      k.ctx.bytes_to_send = 0
  | .READ_CONTENT =>
    k.ctx.bytes_read + k.ctx.bytes_to_read = HEADER_SIZE +
        be16 (k.ctx.p_recv_buf.bytes.getD 1 0) (k.ctx.p_recv_buf.bytes.getD 2 0) ∧
      HEADER_SIZE ≤ k.ctx.bytes_read ∧ k.ctx.bytes_to_send = 0
  | .WRITE_RESPONSE =>
    k.ctx.bytes_read = 0 ∧ k.ctx.bytes_to_read = 0 ∧ 0 < k.ctx.bytes_to_send ∧
      k.ctx.bytes_sent + k.ctx.bytes_to_send = pong.sizeof_ping_pong_t
  | .PENDING_CLOSE => True
  | .SPECIAL_CONN => False

/-- The transitions of an inbound connection. -/
inductive Moves : conn_state_t → conn_state_t → Prop
  | stay (s : conn_state_t) : Moves s s
  | header : Moves .READ_HEADER .READ_CONTENT
  | content : Moves .READ_CONTENT .WRITE_RESPONSE
  | response : Moves .WRITE_RESPONSE .READ_HEADER
  | close_header : Moves .READ_HEADER .PENDING_CLOSE
  | close_content : Moves .READ_CONTENT .PENDING_CLOSE
  | close_response : Moves .WRITE_RESPONSE .PENDING_CLOSE

/-- No subtraction on `size_t` wraps: a loop moves at most what is left, and
each of its calls asks for exactly what is left to move. -/
def NoUnderflow (k : Link) : Prop :=
  (∀ outs err n k', nl_recvall k.ctx.bytes_read k.ctx.bytes_to_read outs k = some (err, n, k') →
    n ≤ k.ctx.bytes_to_read ∧ ∃ log, k'.recvs = k.recvs ++ log ∧
      ∀ c ∈ log, c.1 + c.2 = k.ctx.bytes_read + k.ctx.bytes_to_read) ∧
  ∀ outs err n k', nl_sendall k.ctx.bytes_to_send outs k = some (err, n, k') →
    n ≤ k.ctx.bytes_to_send ∧ ∃ log, k'.sends = k.sends ++ log ∧
      ∀ c ∈ log, c.1 + c.2 = k.ctx.bytes_to_send

theorem noUnderflow (k : Link) : NoUnderflow k := by
  refine ⟨fun outs err n k' h => ?_, fun outs err n k' h => ?_⟩
  · obtain ⟨-, hn, ⟨-, -, log, hlog, rfl⟩, -⟩ := nl_recvall_spec h
    exact ⟨hn, log, rfl, hlog⟩
  · obtain ⟨-, hn, ⟨log, hlog, rfl⟩, -⟩ := nl_sendall_spec h
    exact ⟨hn, log, rfl, hlog⟩

/-- What is left to send, state by state: a response is always the size of one
message, and it is stored over a 0. -/
def Sending (k : Link) : Prop :=
  match k.ctx.state with
  | .READ_HEADER | .READ_CONTENT => k.ctx.bytes_sent = 0 ∧ k.ctx.bytes_to_send = 0
  | .WRITE_RESPONSE =>
    0 < k.ctx.bytes_to_send ∧
      k.ctx.bytes_sent + k.ctx.bytes_to_send = pong.sizeof_ping_pong_t
  | _ => True

theorem Sending.header {k k' : Link} {outs : List sys_result} {res : Int} (h : Sending k)
    (hs : k.ctx.state = .READ_HEADER) (hr : read_header .little outs k = some (res, k')) :
    Sending k' ∧ Moves k.ctx.state k'.ctx.state := by
  simp only [Sending, hs] at h
  obtain ⟨n, log, -, -, -, -, ⟨-, rfl⟩ | ⟨-, rfl | rfl⟩⟩ := read_more_cases hr
  · unfold header_done
    split
    · exact ⟨h, hs ▸ Moves.header⟩
    · have hst : (advance k n log).ctx.state = .READ_HEADER := hs
      exact ⟨by simp only [Sending, hst]; exact h, by rw [hst, hs]; exact Moves.stay _⟩
  · have hst : (advance k n log).ctx.state = .READ_HEADER := hs
    exact ⟨by simp only [Sending, hst]; exact h, by rw [hst, hs]; exact Moves.stay _⟩
  · exact ⟨trivial, hs ▸ Moves.close_header⟩

theorem Sending.content {k k' : Link} {outs : List sys_result} {res : Int} (h : Sending k)
    (hs : k.ctx.state = .READ_CONTENT) (hr : read_content .little outs k = some (res, k')) :
    Sending k' ∧ Moves k.ctx.state k'.ctx.state := by
  simp only [Sending, hs] at h
  obtain ⟨n, log, -, -, -, -, ⟨-, rfl⟩ | ⟨-, rfl | rfl⟩⟩ := read_more_cases hr
  · unfold content_done
    split
    · -- the 11 goes to the low bytes of a field that is 0
      have hto : (answer .little (advance k n log)).ctx.bytes_to_send = 11 := by
        show size_t_store_u16 .little k.ctx.bytes_to_send 11 = 11
        rw [h.2]
        rfl
      have hsent : (answer .little (advance k n log)).ctx.bytes_sent = 0 := h.1
      refine ⟨?_, hs ▸ Moves.content⟩
      show 0 < (answer .little (advance k n log)).ctx.bytes_to_send ∧ _
      rw [hto, hsent]
      decide
    · have hst : (advance k n log).ctx.state = .READ_CONTENT := hs
      exact ⟨by simp only [Sending, hst]; exact h, by rw [hst, hs]; exact Moves.stay _⟩
  · have hst : (advance k n log).ctx.state = .READ_CONTENT := hs
    exact ⟨by simp only [Sending, hst]; exact h, by rw [hst, hs]; exact Moves.stay _⟩
  · exact ⟨trivial, hs ▸ Moves.close_content⟩

theorem Sending.out {k k' : Link} {outs : List sys_result} {res : Int} (h : Sending k)
    (hs : k.ctx.state = .WRITE_RESPONSE)
    (hr : nl_handle_sock_data_out outs k = some (res, k')) :
    Sending k' ∧ Moves k.ctx.state k'.ctx.state := by
  simp only [Sending, hs] at h
  obtain ⟨n, log, -, hn, ⟨hall, rfl⟩ | ⟨hlt, rfl⟩⟩ := data_out_cases hr
  · have hz : 0 = (sent_more k n log).ctx.bytes_to_send := by
      show 0 = k.ctx.bytes_to_send - n
      omega
    rw [response_done, if_pos hz]
    exact ⟨⟨rfl, rfl⟩, hs ▸ Moves.response⟩
  · have hst : (sent_more k n log).ctx.state = .WRITE_RESPONSE := hs
    refine ⟨?_, by rw [hst, hs]; exact Moves.stay _⟩
    simp only [Sending, hst]
    simp only [sent_more, handed]
    omega

theorem sending_of_reachable {stream : List UInt8} {c : Conn} (hc : Reachable .little stream c) :
    Sending c.link :=
  link_invariant (fun _ _ _ => ⟨rfl, rfl⟩) (fun _ _ h => h) (fun _ _ => trivial)
    (fun _ _ _ _ h hs hr => (h.header hs hr).1) (fun _ _ _ _ h hs hr => (h.content hs hr).1)
    (fun _ _ _ _ h hs hr => (h.out hs hr).1) hc

/-- The counters of the reader and of the sender fit together in every state,
whatever the announced lengths. -/
theorem counters_of_reachable {stream : List UInt8} {c : Conn}
    (hc : Reachable .little stream c) : Counters c.link := by
  have hread := reading_of_reachable hc
  have hsend := sending_of_reachable hc
  have hp := hread.phase
  unfold Counters
  cases hs : c.link.ctx.state
  all_goals simp only [Phase, Sending, hs] at hp hsend ⊢
  · exact ⟨hp.2, hp.1, hsend.2⟩
  · obtain ⟨t, b1, b2, got, hb, hsum⟩ := hp
    have hlen := hread.taken.length_inBuffer
    have hget : ∀ i, i < c.link.ctx.bytes_read →
        c.link.ctx.p_recv_buf.bytes.getD i 0 = (inBuffer c.link).getD i 0 := fun i hi => by
      simp [inBuffer, List.getD, hi]
    rw [hb] at hlen
    simp only [List.length_cons] at hlen
    rw [hget 1 (by omega), hget 2 (by omega), hb]
    refine ⟨?_, by simp only [HEADER_SIZE]; omega, hsend.2⟩
    rw [hsum, incoming_len_little]
    rfl
  · exact ⟨hp.1, hp.2, hsend.1, hsend.2⟩

theorem moves_of_step {stream : List UInt8} {c c' : Conn} {l : ConnLabel}
    (hc : Reachable .little stream c) (hstep : conn_step .little c l = some c') :
    Moves c.link.ctx.state c'.link.ctx.state := by
  have hsend := sending_of_reachable hc
  rcases conn_step_cases hstep with ⟨hs, outs, res, k, hr, he⟩ | ⟨hs, outs, res, k, hr, he⟩ |
    ⟨hs, outs, res, k, hr, he⟩ | ⟨by', he⟩ | he | he
  · rw [he]
    exact (hsend.header hs hr).2
  · rw [he]
    exact (hsend.content hs hr).2
  · rw [he]
    exact (hsend.out hs hr).2
  · rw [he]
    exact Moves.stay _
  · rw [he]
    have hphase := (reading_of_reachable hc).phase
    show Moves c.link.ctx.state .PENDING_CLOSE
    cases hs : c.link.ctx.state
    · exact Moves.close_header
    · exact Moves.close_content
    · exact Moves.close_response
    · exact Moves.stay _
    · simp only [Phase, hs] at hphase
  · rw [he]
    exact Moves.stay _

/-- The state machine of an inbound connection: its counters in every state,
no subtraction that wraps, and the transitions of every step. -/
theorem the_connection_is_a_state_machine (stream : List UInt8) (c : Conn)
    (hc : Reachable .little stream c) :
    Counters c.link ∧ NoUnderflow c.link ∧
      ∀ l c', conn_step .little c l = some c' →
        Moves c.link.ctx.state c'.link.ctx.state :=
  ⟨counters_of_reachable hc, noUnderflow c.link, fun _ _ hstep => moves_of_step hc hstep⟩

/-- The header and a part of the content are read, and the rest has not come. -/
theorem the_state_machine_of_a_cut_message :
    ∃ c, Reachable .little [0, 0, 2, 7] c ∧ c.link.ctx.state = .READ_CONTENT ∧
      Counters c.link ∧ NoUnderflow c.link := by
  obtain ⟨c, hc, hstate⟩ : ∃ c, (conn_machine .little).run (fresh_conn 5 [0, 0, 2, 7])
      [.hold, .read [.ret 3], .hold, .send [], .hold, .read [.ret 1, .fail .EAGAIN]] = some c ∧
      c.link.ctx.state = .READ_CONTENT := ⟨_, rfl, rfl⟩
  obtain ⟨h1, h2, -⟩ := the_connection_is_a_state_machine _ c (reachable_of_run hc)
  exact ⟨c, reachable_of_run hc, hstate, h1, h2⟩

/-! ## The responses as frames -/

/-- A frame under the convention of the reader: the length field is the number
of bytes behind the header. -/
def WellFormed (r : List UInt8) : Prop :=
  ∃ t b1 b2 body, r = t :: b1 :: b2 :: body ∧ be16 b1 b2 = body.length

/-- A request as `read_content` passes it, and the buffer for the response. -/
structure Request where
  in_buf : io_buf
  out_buf : io_buf
  len : Nat

def Request.response (host : ByteOrder) (q : Request) : List UInt8 :=
  pong.response_bytes host q.in_buf q.out_buf q.len

/-- A connection that gets the messages of a list, one behind the other, hands
exactly these messages to the protocol in some run. -/
def SplitsBack (host : ByteOrder) (msgs : List (List UInt8)) : Prop :=
  ∃ c, Reachable host msgs.flatten c ∧ framesRead c.link = msgs

/-- A response is never a frame of the reader, and no list of responses but the
empty one is split back: each response announces 11 bytes and has 8. -/
theorem no_response_is_a_frame (host : ByteOrder) :
    (∀ q : Request, ¬ WellFormed (q.response host)) ∧
      ∀ qs : List Request, SplitsBack host (qs.map (Request.response host)) ↔ qs = [] := by
  have hshape : ∀ q : Request, ∃ t body, q.response host = t :: 0 :: 11 :: body ∧
      body.length = 8 := fun q => pong.response_bytes_shape host q.in_buf q.out_buf q.len
  refine ⟨?_, ?_⟩
  · rintro q ⟨t, b1, b2, body, he, hlen⟩
    obtain ⟨t', body', he', hlen'⟩ := hshape q
    rw [he'] at he
    simp only [List.cons.injEq] at he
    obtain ⟨-, rfl, rfl, rfl⟩ := he
    rw [hlen'] at hlen
    exact absurd hlen (by decide)
  · intro qs
    constructor
    · rintro ⟨c, hc, hframes⟩
      cases qs with
      | nil => rfl
      | cons q qs =>
        exfalso
        have hf := (reading_of_reachable hc).taken.frames (q.response host) (by
          rw [hframes]
          exact List.mem_cons_self)
        obtain ⟨t, b1, b2, body, he, hlen⟩ := hf
        obtain ⟨t', body', he', hlen'⟩ := hshape q
        rw [he'] at he
        simp only [List.cons.injEq] at he
        obtain ⟨-, rfl, rfl, rfl⟩ := he
        rw [hlen'] at hlen
        cases host <;> exact absurd hlen (by decide)
    · rintro rfl
      have hrun : (conn_machine host).run (fresh_conn 5 []) [] = some (fresh_conn 5 []) := rfl
      exact ⟨fresh_conn 5 [], reachable_of_run hrun, rfl⟩

/-- The request of the test client: `make_ping(1, 0)`. -/
def clientPing : io_buf :=
  io_buf.zero.write 0 [0, 0, 8, 0, 1, 0, 112, 105, 110, 103, 0]

/-- The pong for the first ping of a client announces 11 bytes and carries 8. -/
theorem the_first_pong_is_no_frame :
    ¬ WellFormed (Request.response .little ⟨clientPing, io_buf.zero, 11⟩) ∧
      ¬ SplitsBack .little [Request.response .little ⟨clientPing, io_buf.zero, 11⟩] := by
  have he : Request.response .little ⟨clientPing, io_buf.zero, 11⟩ =
    [1, 0, 11, 0, 1, 1, 112, 111, 110, 103, 0] := by decide
  rw [he]
  refine ⟨?_, ?_⟩
  · rintro ⟨t, b1, b2, body, h, hlen⟩
    simp only [List.cons.injEq] at h
    obtain ⟨-, rfl, rfl, rfl⟩ := h
    exact absurd hlen (by decide)
  · rintro ⟨c, hc, hframes⟩
    obtain ⟨t, b1, b2, body, h, hlen⟩ := (reading_of_reachable hc).taken.frames _ (by
      rw [hframes]
      exact List.mem_cons_self)
    simp only [List.cons.injEq] at h
    obtain ⟨-, rfl, rfl, rfl⟩ := h
    exact absurd hlen (by decide)

end pingpong.framing
