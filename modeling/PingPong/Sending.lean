-- The sending of one response over several calls. A call always hands out the
-- bytes from the start of the send buffer, so the peer gets the response only
-- when what a later call sends repeats what it should go on with.
import PingPong.ConnLaws

namespace pingpong.sending

open netio tasks framing

/-- The calls of `nl_handle_sock_data_out` on one response: `task_io_send` makes
them in `WRITE_RESPONSE` only. A label holds what the calls of `send` give. -/
def sender : machine.Machine Link (List sys_result) where
  step k outs :=
    if k.ctx.state = .WRITE_RESPONSE then (nl_handle_sock_data_out outs k).map Prod.snd else none

/-- A connection that has just entered `WRITE_RESPONSE`. -/
structure Entered (k : Link) : Prop where
  state : k.ctx.state = .WRITE_RESPONSE
  fresh : k.ctx.bytes_sent = 0
  room : k.ctx.bytes_to_send ≤ IO_BUF_SIZE

/-- The socket got the first `bytes_sent` bytes of the response of `k0` and no
others, and the whole response when the connection is back in `READ_HEADER`. -/
def Delivered (k0 k : Link) : Prop :=
  (k.ctx.state = .WRITE_RESPONSE →
    k.sock.sent = k0.sock.sent ++ k0.ctx.p_send_buf.bytes.take k.ctx.bytes_sent) ∧
  (k.ctx.state = .READ_HEADER →
    k.sock.sent = k0.sock.sent ++ k0.ctx.p_send_buf.bytes.take k0.ctx.bytes_to_send)

/-- The bytes that the call hands out, from the start of the buffer, are those
that come after the bytes sent before. -/
def Resumes (k : Link) (outs : List sys_result) : Prop :=
  k.ctx.p_send_buf.bytes.take (total_moved outs) =
    (k.ctx.p_send_buf.bytes.drop k.ctx.bytes_sent).take (total_moved outs)

/-- A call that starts the response, and one that sends nothing, is right. -/
theorem resumes_of_start {k : Link} {outs : List sys_result}
    (h : k.ctx.bytes_sent = 0 ∨ total_moved outs = 0) : Resumes k outs := by
  unfold Resumes
  rcases h with h | h <;> simp [h]

/-- On a little-endian host every connection that comes to `WRITE_RESPONSE` has
entered it in this sense: it has sent nothing of the response yet. -/
theorem entered_of_step {stream : List UInt8} {c c' : Conn} {l : ConnLabel}
    (hc : Reachable .little stream c) (hstep : conn_step .little c l = some c')
    (hs : c.link.ctx.state ≠ .WRITE_RESPONSE) (hs' : c'.link.ctx.state = .WRITE_RESPONSE) :
    Entered c'.link := by
  have hsend := sending_of_reachable hc
  have hsend' := sending_of_reachable (hc.step trivial hstep)
  simp only [framing.Sending, hs'] at hsend'
  have hfresh : c'.link.ctx.bytes_sent = 0 := by
    rcases conn_step_cases hstep with ⟨h, outs, res, k, hr, he⟩ | ⟨h, outs, res, k, hr, he⟩ |
      ⟨h, _⟩ | ⟨by', he⟩ | he | he
    · have hmove := (hsend.header h hr).2
      rw [h, ← show c'.link.ctx.state = k.ctx.state by rw [he]; rfl, hs'] at hmove
      cases hmove
    · simp only [framing.Sending, h] at hsend
      rw [he]
      show k.ctx.bytes_sent = 0
      obtain ⟨n, log, -, -, -, -, ⟨-, rfl⟩ | ⟨-, rfl | rfl⟩⟩ := read_more_cases hr
      · unfold content_done
        split <;> exact hsend.1
      · exact hsend.1
      · exact hsend.1
    · exact absurd h hs
    · rw [he] at hs'
      exact absurd hs' hs
    · rw [he] at hs'
      cases hs'
    · rw [he] at hs'
      exact absurd hs' hs
  refine ⟨hs', hfresh, ?_⟩
  have := hsend'.2
  simp only [pong.sizeof_ping_pong_t, pong.PING_PONG_LEN, IO_BUF_SIZE] at this ⊢
  omega

/-! ## One call -/

/-- The response of `k0` is under way, and its first `bytes_sent` bytes went out. -/
structure UnderWay (k0 k : Link) : Prop where
  state : k.ctx.state = .WRITE_RESPONSE
  buf : k.ctx.p_send_buf = k0.ctx.p_send_buf
  sum : k.ctx.bytes_sent + k.ctx.bytes_to_send = k0.ctx.bytes_to_send
  sent : k.sock.sent = k0.sock.sent ++ k0.ctx.p_send_buf.bytes.take k.ctx.bytes_sent

theorem UnderWay.delivered {k0 k : Link} (h : UnderWay k0 k) : Delivered k0 k :=
  ⟨fun _ => h.sent, fun hs => by rw [h.state] at hs; cases hs⟩

/-- One call keeps the response right exactly when it resumes it. After it the
response is under way or complete. -/
theorem delivered_step {k0 k k' : Link} {outs : List sys_result} (h : UnderWay k0 k)
    (hstep : sender.step k outs = some k') :
    (Delivered k0 k' ↔ Resumes k outs) ∧
      (Delivered k0 k' → UnderWay k0 k' ∨ k'.ctx.state = .READ_HEADER) := by
  simp only [sender, h.state, if_true] at hstep
  obtain ⟨⟨res, k1⟩, hout, rfl⟩ := Option.map_eq_some_iff.mp hstep
  obtain ⟨n, log, hn, hle, hk⟩ := data_out_cases hout
  have hsent : k.sock.sent ++ k.ctx.p_send_buf.bytes.take n =
      k0.sock.sent ++ k0.ctx.p_send_buf.bytes.take (k.ctx.bytes_sent + n) ↔ Resumes k outs := by
    rw [h.sent, h.buf, List.take_add, List.append_assoc, List.append_right_inj,
      List.append_right_inj, Resumes, hn, h.buf]
  rcases hk with ⟨hall, rfl⟩ | ⟨hlt, rfl⟩
  · have hz : 0 = (sent_more k n log).ctx.bytes_to_send := by
      show 0 = k.ctx.bytes_to_send - n
      omega
    have hsum : k0.ctx.bytes_to_send = k.ctx.bytes_sent + n := by
      have := h.sum
      omega
    rw [response_done, if_pos hz]
    refine ⟨?_, fun _ => Or.inr rfl⟩
    rw [← hsent, ← hsum]
    exact ⟨fun hd => hd.2 rfl, fun hd => ⟨fun hs => (by cases hs), fun _ => hd⟩⟩
  · have hst : (sent_more k n log).ctx.state = .WRITE_RESPONSE := h.state
    refine ⟨?_, fun hd => Or.inl ⟨h.state, h.buf, ?_, hd.1 hst⟩⟩
    · rw [← hsent]
      exact ⟨fun hd => hd.1 hst, fun hd => ⟨fun _ => hd, fun hs => by rw [hst] at hs; cases hs⟩⟩
    · have := h.sum
      simp only [sent_more, handed]
      omega

/-! ## Every sequence of calls -/

/-- For every sequence of calls and every result of each `send`: the peer has
got the right bytes in every state exactly when every call resumes the response
where the calls before it stopped. The induction is on the calls. -/
theorem a_response_is_delivered_iff_every_call_resumes_it (k0 k' : Link)
    (calls : List (List sys_result)) (h : Entered k0) (hr : sender.run k0 calls = some k') :
    sender.Always (Delivered k0) k0 calls ↔ sender.Meets Resumes k0 calls := by
  have hgen : ∀ calls k, UnderWay k0 k → sender.run k calls = some k' →
      (sender.Always (Delivered k0) k calls ↔ sender.Meets Resumes k calls) := by
    intro calls
    induction calls with
    | nil => exact fun k hk _ => ⟨fun _ => trivial, fun _ => hk.delivered⟩
    | cons outs calls ih =>
      intro k hk hrun
      obtain ⟨k1, hstep, hrun⟩ := sender.run_cons.mp hrun
      obtain ⟨hiff, hnext⟩ := delivered_step hk hstep
      have hrest : Delivered k0 k1 →
          (sender.Always (Delivered k0) k1 calls ↔ sender.Meets Resumes k1 calls) := by
        intro hd
        rcases hnext hd with hk1 | hdone
        · exact ih k1 hk1 hrun
        · -- the response is complete, so no call is left
          cases calls with
          | nil => exact ⟨fun _ => trivial, fun _ => hd⟩
          | cons o os =>
            obtain ⟨k2, hk2, -⟩ := sender.run_cons.mp hrun
            simp [sender, hdone] at hk2
      constructor
      · rintro ⟨-, hall⟩
        have ha := hall k1 hstep
        refine ⟨hiff.mp ha.head, fun s hs => ?_⟩
        rw [hstep] at hs
        cases hs
        exact (hrest ha.head).mp ha
      · rintro ⟨hres, hall⟩
        refine ⟨hk.delivered, fun s hs => ?_⟩
        rw [hstep] at hs
        cases hs
        exact (hrest (hiff.mpr hres)).mpr (hall k1 hstep)
  exact hgen calls k0 ⟨h.state, rfl, by simp [h.fresh], by simp [h.fresh]⟩ hr

/-- A pong of 11 bytes that is ready to be sent. -/
def pong_ready : Link :=
  ⟨{ inbound_ctx 5 io_buf.zero
        (io_buf.zero.write 0 [1, 0, 11, 0, 1, 1, 112, 111, 110, 103, 0]) with
      state := .WRITE_RESPONSE, bytes_to_read := 0, bytes_to_send := 11 },
    ⟨[], [], []⟩, [], [], []⟩

/-- The pong goes out whole by a call that first finds the socket full. -/
theorem a_pong_is_delivered_after_a_full_socket :
    sender.Always (Delivered pong_ready) pong_ready [[.fail .EAGAIN], [.ret 4, .ret 7]] := by
  obtain ⟨k', hr⟩ : ∃ k', sender.run pong_ready [[.fail .EAGAIN], [.ret 4, .ret 7]] = some k' :=
    ⟨_, rfl⟩
  refine (a_response_is_delivered_iff_every_call_resumes_it pong_ready k' _
    ⟨rfl, rfl, by decide⟩ hr).mpr ⟨resumes_of_start (Or.inl rfl), fun s hs => ?_⟩
  cases hs
  exact ⟨resumes_of_start (Or.inl rfl), fun _ _ => trivial⟩

/-- After 4 bytes the socket is full. The next call starts the pong again, and
the peer gets its first 4 bytes twice and its last 4 bytes never. -/
theorem a_pong_cut_in_two_is_not_delivered :
    Entered pong_ready ∧
      ∃ k', sender.run pong_ready [[.ret 4, .fail .EAGAIN], [.ret 7]] = some k' ∧
        k'.ctx.state = .READ_HEADER ∧ k'.sock.sent = [1, 0, 11, 0, 1, 0, 11, 0, 1, 1, 112] ∧
        ¬ Delivered pong_ready k' := by
  refine ⟨⟨rfl, rfl, by decide⟩, ?_⟩
  obtain ⟨k', hr, hs, hsent⟩ : ∃ k',
      sender.run pong_ready [[.ret 4, .fail .EAGAIN], [.ret 7]] = some k' ∧
      k'.ctx.state = .READ_HEADER ∧ k'.sock.sent = [1, 0, 11, 0, 1, 0, 11, 0, 1, 1, 112] :=
    ⟨_, rfl, rfl, rfl⟩
  refine ⟨k', hr, hs, hsent, fun hd => ?_⟩
  have := hd.2 hs
  rw [hsent] at this
  exact absurd this (by decide)

end pingpong.sending
