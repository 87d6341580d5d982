-- The law of the quiet connection: when nothing is left to read and no task is left to run, each
-- frame that has come whole is answered, unless a frame has no content.
import PingPong.ConnLaws

namespace pingpong.framing

open netio tasks

/-! ## What should hold -/

/-- `poll` reports no `POLLIN`, no task has a reference, and the connection is not to be closed. -/
structure GoneQuiet (k : Link) : Prop where
  unread : k.sock.unread = []
  no_task : k.ctx.ref_count = 0
  kept : k.ctx.state ≠ .PENDING_CLOSE

/-- The reader does not wait for the rest of a content of which nothing is left, and the protocol
was called for each frame that has come whole. -/
structure AllAnswered (host : ByteOrder) (stream : List UInt8) (k : Link) : Prop where
  not_idle : ¬ (k.ctx.state = .READ_CONTENT ∧ k.ctx.bytes_to_read = 0)
  answered : ∀ fs r, (∀ f ∈ fs, Frame host f) → stream = fs.flatten ++ r → fs <+: framesRead k

/-! ## The reader is never idle -/

/-- In `READ_CONTENT` some bytes of the content are still to come. -/
def Waits (k : Link) : Prop := k.ctx.state = .READ_CONTENT → 0 < k.ctx.bytes_to_read

theorem waits_of_state {k : Link} (h : k.ctx.state ≠ .READ_CONTENT) : Waits k :=
  fun hs => absurd hs h

section Steps

variable {host : ByteOrder} {stream : List UInt8} {k k' : Link} {outs : List sys_result} {res : Int}

/-- A header that is complete announces a content. -/
theorem waits_header (h : Reading host stream k) (hsome : 0 ∉ announced host stream)
    (hs : k.ctx.state = .READ_HEADER) (hr : read_header host outs k = some (res, k')) :
    Waits k' := by
  have h' := h.read_header hs hr
  obtain ⟨n, log, -, -, -, -, ⟨-, rfl⟩ | ⟨-, rfl | rfl⟩⟩ := read_more_cases hr
  · unfold header_done at h' ⊢
    split
    · rename_i hread
      rw [if_pos hread] at h'
      obtain ⟨t, hb⟩ := header_bytes _ hread
      intro _
      refine Nat.pos_of_ne_zero fun hzero => hsome ?_
      rw [← hzero]
      exact h'.mem_announced hb
    · refine waits_of_state ?_
      rw [show (advance k n log).ctx.state = k.ctx.state from rfl, hs]
      nofun
  · refine waits_of_state ?_
    rw [show (advance k n log).ctx.state = k.ctx.state from rfl, hs]
    nofun
  · exact waits_of_state nofun

/-- The content that is complete is answered in the same call. -/
theorem waits_content (hr : read_content host outs k = some (res, k')) : Waits k' := by
  obtain ⟨n, log, -, -, -, -, ⟨hall, rfl⟩ | ⟨hlt, rfl | rfl⟩⟩ := read_more_cases hr
  · have hzero : 0 = (advance k n log).ctx.bytes_to_read := by
      show 0 = k.ctx.bytes_to_read - n
      omega
    unfold content_done
    rw [if_pos hzero]
    exact waits_of_state nofun
  · intro _
    show 0 < k.ctx.bytes_to_read - n
    omega
  · exact waits_of_state nofun

theorem waits_data_out (hs : k.ctx.state = .WRITE_RESPONSE)
    (hr : nl_handle_sock_data_out outs k = some (res, k')) : Waits k' := by
  refine waits_of_state ?_
  obtain ⟨n, log, -, -, ⟨-, rfl⟩ | ⟨-, rfl⟩⟩ := data_out_cases hr
  · unfold response_done
    split
    · nofun
    · rw [show (sent_more k n log).ctx.state = k.ctx.state from rfl, hs]
      nofun
  · rw [show (sent_more k n log).ctx.state = k.ctx.state from rfl, hs]
    nofun

end Steps

/-- When no header announces 0, the reader waits for bytes in every run. -/
theorem waits_of_reachable {host : ByteOrder} {stream : List UInt8} {c : Conn}
    (hsome : 0 ∉ announced host stream) (hc : Reachable host stream c) : Waits c.link := by
  have hinv : Reading host stream c.link ∧ Waits c.link := by
    refine link_invariant (P := fun k => Reading host stream k ∧ Waits k)
      (fun fd rb sb => ⟨?_, waits_of_state nofun⟩) (fun by' k h => ⟨h.1.add_ref by', h.2⟩)
      (fun k h => ⟨h.1.mark_close, waits_of_state nofun⟩)
      (fun outs res k k' h hs hr => ⟨h.1.read_header hs hr, waits_header h.1 hsome hs hr⟩)
      (fun outs res k k' h hs hr => ⟨h.1.read_content hs hr, waits_content hr⟩)
      (fun outs res k k' h hs hr => ⟨h.1.data_out hs hr, waits_data_out hs hr⟩) hc
    exact (reading_of_reachable (c := ⟨_, false⟩)
      (machine.Machine.Reach.start ⟨fd, rb, sb, rfl⟩))
  exact hinv.2

/-! ## The law -/

/-- The buffer of a reader that waits holds no whole frame. -/
theorem Reading.no_frame {host : ByteOrder} {stream : List UInt8} {k : Link}
    (h : Reading host stream k) (hw : Waits k) (hkept : k.ctx.state ≠ .PENDING_CLOSE) :
    ¬ Frame host (inBuffer k) := by
  rintro ⟨t, b1, b2, body, hb, hbody⟩
  have hlen := h.taken.length_inBuffer
  rw [hb] at hlen
  simp only [List.length_cons] at hlen
  have hp := h.phase
  unfold Phase at hp
  cases hs : k.ctx.state with
  | READ_HEADER =>
    simp only [hs, HEADER_SIZE] at hp
    omega
  | READ_CONTENT =>
    simp only [hs, HEADER_SIZE] at hp
    obtain ⟨t', b1', b2', got, hb', hsum⟩ := hp
    rw [hb] at hb'
    simp only [List.cons.injEq] at hb'
    obtain ⟨-, rfl, rfl, -⟩ := hb'
    have := hw hs
    omega
  | WRITE_RESPONSE =>
    simp only [hs] at hp
    omega
  | PENDING_CLOSE => exact hkept hs
  | SPECIAL_CONN => simp only [hs] at hp

/-- In every run in which no header of the peer announces a content of 0 bytes, a connection that
has gone quiet has answered each frame that has come whole. -/
theorem a_quiet_connection_has_answered_all {host : ByteOrder} {stream : List UInt8} {c : Conn}
    (hsome : 0 ∉ announced host stream) (hc : Reachable host stream c) (hq : GoneQuiet c.link) :
    AllAnswered host stream c.link := by
  have hread := reading_of_reachable hc
  have hwaits := waits_of_reachable hsome hc
  refine ⟨fun h => absurd h.2 (Nat.ne_of_gt (hwaits h.1)), fun fs r hfs hstream => ?_⟩
  have htaken := hread.taken.stream_eq
  rw [hq.unread, List.append_nil, hread.taken.taken_eq, hstream] at htaken
  refine (frame_code host).prefix_of_flatten hfs hread.taken.frames htaken.symm ?_
  -- a frame at the start of the buffer would be all of it
  rintro f hf ⟨u, hu⟩
  have hstart := hread.begins.start_of_frame hf (u := []) (s := u)
    ((List.append_nil _).trans hu.symm)
  have hall : inBuffer c.link = f := hstart.eq_of_length_le (by rw [← hu]; simp)
  exact hread.no_frame hwaits hq.kept (hall ▸ hf)

/-- A frame with a content of one byte is read by two tasks, and waits to be sent. -/
theorem a_quiet_connection_has_answered_one_frame :
    ∃ c, Reachable .little [0, 0, 1, 7] c ∧ GoneQuiet c.link ∧
      AllAnswered .little [0, 0, 1, 7] c.link := by
  obtain ⟨c, hc, hunread, href, hs⟩ : ∃ c, (conn_machine .little).run (fresh_conn 5 [0, 0, 1, 7])
      [.hold, .read [.ret 3], .hold, .read [.ret 1]] = some c ∧ c.link.sock.unread = [] ∧
      c.link.ctx.ref_count = 0 ∧ c.link.ctx.state = .WRITE_RESPONSE := ⟨_, rfl, rfl, rfl, rfl⟩
  have hq : GoneQuiet c.link := ⟨hunread, href, by rw [hs]; nofun⟩
  refine ⟨c, reachable_of_run hc, hq,
    a_quiet_connection_has_answered_all ?_ (reachable_of_run hc) hq⟩
  simp [announced, incoming_len, ntohs, size_t_of_two_bytes, u16_load, u16]

/-- A header that announces 0 bytes is all that the peer sends. The reader goes on to
`READ_CONTENT`, and no `POLLIN` comes. -/
theorem a_frame_without_content_is_not_answered :
    ¬ ∀ (stream : List UInt8) (c : Conn), Reachable .little stream c → GoneQuiet c.link →
      AllAnswered .little stream c.link := by
  intro h
  obtain ⟨c, hc, hunread, href, hs, hzero⟩ : ∃ c, (conn_machine .little).run
      (fresh_conn 5 [0, 0, 0]) [.hold, .read [.ret 3]] = some c ∧ c.link.sock.unread = [] ∧
      c.link.ctx.ref_count = 0 ∧ c.link.ctx.state = .READ_CONTENT ∧
      c.link.ctx.bytes_to_read = 0 := ⟨_, rfl, rfl, rfl, rfl, rfl⟩
  exact (h _ c (reachable_of_run hc) ⟨hunread, href, by rw [hs]; nofun⟩).not_idle ⟨hs, hzero⟩

end pingpong.framing
