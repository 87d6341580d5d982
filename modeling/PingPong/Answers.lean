-- The response of a connection in `WRITE_RESPONSE` is the reply to the last frame that it
-- has read, in every run of the connection and of the server.
import PingPong.ConnLaws
import PingPong.PongLaws
import PingPong.ServerConns

namespace pingpong.framing

open netio tasks

/-! ## One connection -/

/-- The send buffer starts with the reply to the last frame. -/
def Answering (k : Link) : Prop :=
  k.ctx.state = .WRITE_RESPONSE → ∃ f, (framesRead k).getLast? = some f ∧
    k.ctx.p_send_buf.bytes.take pong.sizeof_ping_pong_t = pong.reply f f.length

theorem answering_of_state {k : Link} (h : k.ctx.state ≠ .WRITE_RESPONSE) : Answering k :=
  fun hs => absurd hs h

/-- The protocol gets the frame that lies in the receive buffer. -/
theorem answering_answer (host : ByteOrder) {k : Link} (hroom : k.ctx.bytes_read ≤ IO_BUF_SIZE) :
    Answering (answer host k) := by
  intro _
  have hlen : (inBuffer k).length = k.ctx.bytes_read := by simp [inBuffer, hroom]
  have hu : u16 k.ctx.bytes_read = u16 (inBuffer k).length := by rw [hlen]
  have hholds : pong.Holds k.ctx.p_recv_buf (inBuffer k) := by
    unfold pong.Holds
    rw [List.take_of_length_le (show (inBuffer k).length ≤ IO_BUF_SIZE by rwa [hlen]), hlen]
    rfl
  refine ⟨inBuffer k, by rw [framesRead_answer host k hroom]; simp, ?_⟩
  have hbytes := pong.response_bytes_eq host k.ctx.p_recv_buf k.ctx.p_send_buf
    (u16 k.ctx.bytes_read)
  rw [pong.bytes_pong_response, hu, pong.reply_of_holds (by rw [hlen]; exact hroom.trans (by decide))
    hholds] at hbytes
  rw [← hbytes, ← hu]
  rfl

section Steps

variable {host : ByteOrder} {stream : List UInt8} {k k' : Link} {outs : List sys_result} {res : Int}

theorem answering_header (hs : k.ctx.state = .READ_HEADER)
    (hr : read_header host outs k = some (res, k')) : Answering k' := by
  apply answering_of_state
  obtain ⟨n, log, -, -, -, -, ⟨-, rfl⟩ | ⟨-, rfl | rfl⟩⟩ := read_more_cases hr
  · unfold header_done
    split
    · nofun
    · rw [show (advance k n log).ctx.state = k.ctx.state from rfl, hs]
      nofun
  · rw [show (advance k n log).ctx.state = k.ctx.state from rfl, hs]
    nofun
  · nofun

theorem answering_content (h : Reading host stream k) (hs : k.ctx.state = .READ_CONTENT)
    (hr : read_content host outs k = some (res, k')) : Answering k' := by
  obtain ⟨n, log, -, hav, hroom, -, ⟨-, rfl⟩ | ⟨-, rfl | rfl⟩⟩ := read_more_cases hr
  · unfold content_done
    split
    · exact answering_answer host (h.taken.advance hav hroom).room
    · apply answering_of_state
      rw [show (advance k n log).ctx.state = k.ctx.state from rfl, hs]
      nofun
  · apply answering_of_state
    rw [show (advance k n log).ctx.state = k.ctx.state from rfl, hs]
    nofun
  · exact answering_of_state nofun

/-- What is left of a response is in the same buffer. -/
theorem answering_data_out (h : Answering k) (hs : k.ctx.state = .WRITE_RESPONSE)
    (hr : nl_handle_sock_data_out outs k = some (res, k')) : Answering k' := by
  obtain ⟨n, log, -, -, ⟨-, rfl⟩ | ⟨-, rfl⟩⟩ := data_out_cases hr
  · unfold response_done
    split
    · exact answering_of_state nofun
    · exact fun _ => h hs
  · exact fun _ => h hs

end Steps

/-! ## What the socket gets -/

/-- The bytes `out` went out for the frames `fs`: for each frame in order pieces of its own reply,
each from the start of the reply, 11 bytes in all for a frame but the last one, which has got `b`. -/
inductive Served : List (List UInt8) → Nat → List UInt8 → Prop
  | none : Served [] pong.sizeof_ping_pong_t []
  | next {fs : List (List UInt8)} {out : List UInt8} (f : List UInt8)
      (h : Served fs pong.sizeof_ping_pong_t out) : Served (fs ++ [f]) 0 out
  | piece {fs : List (List UInt8)} {b : Nat} {out : List UInt8} (f : List UInt8) (m : Nat)
      (h : Served (fs ++ [f]) b out) (hm : b + m ≤ pong.sizeof_ping_pong_t) :
      Served (fs ++ [f]) (b + m) (out ++ (pong.reply f f.length).take m)

/-- No byte is sent but for a reply, and a frame whose reply is out has got as many bytes as the
reply has. -/
theorem Served.length {fs : List (List UInt8)} {b : Nat} {out : List UInt8} (h : Served fs b out) :
    out.length + pong.sizeof_ping_pong_t = fs.length * pong.sizeof_ping_pong_t + b := by
  induction h with
  | none => rfl
  | next f h ih =>
    rw [List.length_append, List.length_singleton, Nat.add_mul, Nat.one_mul, ih]
    rfl
  | piece f m h hm ih =>
    have hreply : (pong.reply f f.length).length = pong.sizeof_ping_pong_t := pong.length_reply _ _
    rw [List.length_append, List.length_take, hreply]
    omega

/-- Where the sender is, state by state. -/
structure Serving (k : Link) (b : Nat) : Prop where
  served : Served (framesRead k) b k.sock.sent
  whole : k.ctx.state = .READ_HEADER ∨ k.ctx.state = .READ_CONTENT → b = pong.sizeof_ping_pong_t
  part : k.ctx.state = .WRITE_RESPONSE → b = k.ctx.bytes_sent

section Serves

variable {stream : List UInt8} {k k' : Link} {b : Nat} {outs : List sys_result} {res : Int}

theorem Serving.mark_close (h : Serving k b) : Serving (mark_close k) b := by
  refine ⟨h.served, fun hs => ?_, nofun⟩
  rcases hs with hs | hs
  · cases hs
  · cases hs

theorem Serving.header (h : Serving k b) (hs : k.ctx.state = .READ_HEADER)
    (hr : read_header .little outs k = some (res, k')) : Serving k' b := by
  have hb := h.whole (Or.inl hs)
  obtain ⟨n, log, -, -, -, -, ⟨-, rfl⟩ | ⟨-, rfl | rfl⟩⟩ := read_more_cases hr
  · unfold header_done
    split
    · exact ⟨h.served, fun _ => hb, nofun⟩
    · exact ⟨h.served, fun _ => hb, h.part⟩
  · exact ⟨h.served, fun _ => hb, h.part⟩
  · exact Serving.mark_close ⟨h.served, fun _ => hb, h.part⟩

/-- A frame that is complete is the next one to be served. -/
theorem Serving.content (h : Serving k b) (hread : Reading .little stream k) (hsend : Sending k)
    (hs : k.ctx.state = .READ_CONTENT) (hr : read_content .little outs k = some (res, k')) :
    ∃ b', Serving k' b' := by
  have hb := h.whole (Or.inr hs)
  simp only [Sending, hs] at hsend
  obtain ⟨n, log, -, hav, hroom, -, ⟨-, rfl⟩ | ⟨-, rfl | rfl⟩⟩ := read_more_cases hr
  · unfold content_done
    split
    · have hcalls := framesRead_answer .little (advance k n log) (hread.taken.advance hav hroom).room
      have hserved : Served (framesRead k) pong.sizeof_ping_pong_t k.sock.sent := hb ▸ h.served
      refine ⟨0, ?_, fun hst => ?_, fun _ => hsend.1.symm⟩
      · rw [hcalls]
        exact hserved.next _
      · rcases hst with hst | hst
        · cases hst
        · cases hst
    · exact ⟨b, h.served, fun _ => hb, h.part⟩
  · exact ⟨b, h.served, fun _ => hb, h.part⟩
  · exact ⟨b, Serving.mark_close ⟨h.served, fun _ => hb, h.part⟩⟩

/-- The call hands out the first bytes of the buffer, and there the reply starts. -/
theorem Serving.data_out (h : Serving k b) (hans : Answering k) (hsend : Sending k)
    (hs : k.ctx.state = .WRITE_RESPONSE)
    (hr : nl_handle_sock_data_out outs k = some (res, k')) : ∃ b', Serving k' b' := by
  obtain ⟨f, hf, hreply⟩ := hans hs
  simp only [Sending, hs] at hsend
  obtain ⟨n, log, -, hn, hk⟩ := data_out_cases hr
  have hle : k.ctx.bytes_sent + n ≤ pong.sizeof_ping_pong_t := by omega
  have hpiece : k.ctx.p_send_buf.bytes.take n = (pong.reply f f.length).take n := by
    rw [← hreply, List.take_take, Nat.min_eq_left (by omega)]
  -- the frame that is served is the last one
  have hlast := List.dropLast_append_getLast? f hf
  have hserved : Served (framesRead k) (k.ctx.bytes_sent + n)
      (k.sock.sent ++ k.ctx.p_send_buf.bytes.take n) := by
    have hnow := h.served
    rw [h.part hs, ← hlast] at hnow
    rw [hpiece, ← hlast]
    exact hnow.piece f n hle
  have hsent : (k.ctx.p_send_buf.bytes.drop 0).take n = k.ctx.p_send_buf.bytes.take n := rfl
  rcases hk with ⟨hall, rfl⟩ | ⟨hlt, rfl⟩
  · have hz : 0 = (sent_more k n log).ctx.bytes_to_send := by
      show 0 = k.ctx.bytes_to_send - n
      omega
    rw [response_done, if_pos hz]
    exact ⟨k.ctx.bytes_sent + n, hserved, fun _ => by omega, fun hst => by cases hst⟩
  · refine ⟨k.ctx.bytes_sent + n, hserved, fun hst => ?_, fun _ => rfl⟩
    have hwrite : (sent_more k n log).ctx.state = .WRITE_RESPONSE := hs
    rw [hwrite] at hst
    rcases hst with hst | hst
    · cases hst
    · cases hst

end Serves

/-! ## Any run of a connection -/

/-- What every step of a connection keeps. -/
structure Replying (stream : List UInt8) (k : Link) : Prop where
  reading : Reading .little stream k
  sending : Sending k
  answering : Answering k
  serving : ∃ b, Serving k b

section Replies

variable {stream : List UInt8} {k k' : Link} {outs : List sys_result} {res : Int}

theorem replying_fresh (fd : Int) (recv_buf send_buf : io_buf) (stream : List UInt8) :
    Replying stream ⟨inbound_ctx fd recv_buf send_buf, ⟨stream, [], []⟩, [], [], []⟩ where
  reading := reading_of_reachable (c := ⟨_, false⟩)
    (machine.Machine.Reach.start ⟨fd, recv_buf, send_buf, rfl⟩)
  sending := ⟨rfl, rfl⟩
  answering := answering_of_state nofun
  serving := ⟨_, .none, fun _ => rfl, nofun⟩

theorem Replying.add_ref (h : Replying stream k) (by' : Int) : Replying stream (add_ref by' k) := by
  obtain ⟨b, hb⟩ := h.serving
  exact ⟨h.reading.add_ref by', h.sending, h.answering, b, hb.served, hb.whole, hb.part⟩

theorem Replying.mark_close (h : Replying stream k) : Replying stream (mark_close k) := by
  obtain ⟨b, hb⟩ := h.serving
  exact ⟨h.reading.mark_close, trivial, answering_of_state nofun, b, hb.mark_close⟩

theorem Replying.header (h : Replying stream k) (hs : k.ctx.state = .READ_HEADER)
    (hr : read_header .little outs k = some (res, k')) : Replying stream k' := by
  obtain ⟨b, hb⟩ := h.serving
  exact ⟨h.reading.read_header hs hr, (h.sending.header hs hr).1, answering_header hs hr, b,
    hb.header hs hr⟩

theorem Replying.content (h : Replying stream k) (hs : k.ctx.state = .READ_CONTENT)
    (hr : read_content .little outs k = some (res, k')) : Replying stream k' := by
  obtain ⟨b, hb⟩ := h.serving
  exact ⟨h.reading.read_content hs hr, (h.sending.content hs hr).1,
    answering_content h.reading hs hr, hb.content h.reading h.sending hs hr⟩

theorem Replying.data_out (h : Replying stream k) (hs : k.ctx.state = .WRITE_RESPONSE)
    (hr : nl_handle_sock_data_out outs k = some (res, k')) : Replying stream k' := by
  obtain ⟨b, hb⟩ := h.serving
  exact ⟨h.reading.data_out hs hr, (h.sending.out hs hr).1, answering_data_out h.answering hs hr,
    hb.data_out h.answering h.sending hs hr⟩

end Replies

theorem replying_of_reachable {stream : List UInt8} {c : Conn} (hc : Reachable .little stream c) :
    Replying stream c.link :=
  link_invariant (fun fd rb sb => replying_fresh fd rb sb stream) (fun by' _ h => h.add_ref by')
    (fun _ h => h.mark_close) (fun _ _ _ _ h hs hr => h.header hs hr)
    (fun _ _ _ _ h hs hr => h.content hs hr) (fun _ _ _ _ h hs hr => h.data_out hs hr) hc

end pingpong.framing

namespace pingpong.server

open concurinc connmgr framing netio tasks

variable {n : Nat}

/-! ## The server -/

/-- What the connection has taken from its socket is whole frames and the start of the next one,
and what its client gets is made of the replies to these frames, in their order. -/
structure ServesItsClient (k : Link) : Prop where
  taken : k.sock.taken = (framesRead k).flatten ++ inBuffer k
  frames : ∀ f ∈ framesRead k, Frame .little f
  begins : framing.Begins .little (inBuffer k)
  served : ∃ b, Served (framesRead k) b k.sock.sent

/-- In every run of the server on a little-endian host, with any number of workers and of clients
whose messages fit in the receive buffer, each client gets the replies to its own frames: none that
belongs to another client, none out of order, and no byte more. -/
theorem every_client_gets_its_own_replies {s : Server n}
    (h : Reachable .little (fun _ l => l.Sound .little) s) (p : ctx_id) (hp : s.Inbound p) :
    ServesItsClient (s.ctxs p).link := by
  obtain ⟨stream, c, r, -, hc, -, hk⟩ := alone_of_reachable h.fits p hp
  have hreply := replying_of_reachable hc
  obtain ⟨b, hb⟩ := hreply.serving
  rw [hk]
  exact ⟨hreply.reading.taken.taken_eq, hreply.reading.taken.frames, hreply.reading.begins, b,
    hb.served⟩

/-- The client that main accepts sends a ping. -/
def accept_ping_labels : List (ServerLabel 1) :=
  main_steps 5 ++ [polled 0 { no_events with POLLIN := true }] ++ main_steps 1 ++
    [.main { clients := [⟨5, io_buf.zero, io_buf.zero, pong.first_ping⟩] }] ++ main_steps 11

theorem first_ping_fits : AnnouncesFit .little pong.first_ping := by
  simp [AnnouncesFit, pong.first_ping, announced, incoming_len, ntohs, size_t_of_two_bytes,
    u16_load, u16, IO_BUF_SIZE, HEADER_SIZE]

/-- The worker has read the header of the ping. -/
def read_ping_labels : List (ServerLabel 1) :=
  accept_ping_labels ++ submit_read_labels ++ take_labels ++
    [.task only_worker 0 [], .task only_worker 0 [.ret 3]]

theorem the_client_of_a_ping_gets_its_own_replies :
    ∃ s : Server 1, Reachable .little (fun _ l => l.Sound .little) s ∧
      (s.ctxs 2).link.sock.taken = [0, 0, 8] ∧ ServesItsClient (s.ctxs 2).link := by
  have hsound : ∀ l ∈ read_ping_labels, l.Sound .little := by
    have hall : ∀ l ∈ read_ping_labels,
        l.Ok ∧ ∀ stream ∈ l.streams, stream = pong.first_ping := by decide
    refine fun l hl => ⟨(hall l hl).1, fun stream hstream => ?_⟩
    rw [(hall l hl).2 stream hstream]
    exact first_ping_fits
  obtain ⟨s, hreach, hmade, hty, htaken⟩ := exists_of_run .little (fun _ l => l.Sound .little) 3 4
    read_ping_labels
    (fun s : Server 1 => s.made = 3 ∧ (s.ctxs 2).link.ctx.type = .INBOUND_CONN ∧
      (s.ctxs 2).link.sock.taken = [0, 0, 8])
    (machine.Machine.meets_of_mem hsound) (by decide +kernel)
  exact ⟨s, hreach, htaken,
    every_client_gets_its_own_replies hreach 2 ⟨by rw [hmade]; decide, hty⟩⟩

end pingpong.server
