-- The invariant of the reader. At every moment the bytes taken from the peer
-- are whole frames, each handed to the protocol once, and the start of the
-- next frame, which lies in the receive buffer.
import PingPong.Lib.Codewords
import PingPong.Tasks
import PingPong.Transfers

namespace pingpong.framing

open netio tasks

/-! ## Frames -/

/-- A frame as the host reads it: a type byte, two length bytes, and as many
bytes as the host gets out of these two. -/
def Frame (host : ByteOrder) (f : List UInt8) : Prop :=
  ∃ t b1 b2 body, f = t :: b1 :: b2 :: body ∧ body.length = incoming_len host b1 b2

/-- The start of a frame, or all of it. -/
def Begins (host : ByteOrder) (r : List UInt8) : Prop :=
  r.length < HEADER_SIZE ∨
    ∃ t b1 b2 got, r = t :: b1 :: b2 :: got ∧ got.length ≤ incoming_len host b1 b2

theorem frame_code (host : ByteOrder) : codewords.Code (Frame host) where
  ne_nil := by
    rintro _ ⟨t, b1, b2, body, rfl, -⟩
    simp
  eq_of_start := by
    rintro _ _ ⟨t, b1, b2, body, rfl, hl⟩ ⟨t', b1', b2', body', rfl, hl'⟩ ⟨s, hs⟩
    simp only [List.cons_append, List.cons.injEq] at hs
    obtain ⟨rfl, rfl, rfl, hs⟩ := hs
    have hlen := congrArg List.length hs
    simp only [List.length_append] at hlen
    have hnil : s = [] := List.length_eq_zero_iff.mp (by omega)
    simp_all

/-- What begins a frame is the start of the frame that a longer list begins with. -/
theorem Begins.start_of_frame {host : ByteOrder} {r u f s : List UInt8} (hr : Begins host r)
    (hf : Frame host f) (h : r ++ u = f ++ s) : r <+: f := by
  obtain ⟨t, b1, b2, body, rfl, hl⟩ := hf
  have hle : r.length ≤ (t :: b1 :: b2 :: body).length := by
    rcases hr with hr | ⟨t', b1', b2', got, rfl, hgot⟩
    · simp only [HEADER_SIZE] at hr
      simp only [List.length_cons]
      omega
    · simp only [List.cons_append, List.cons.injEq] at h
      obtain ⟨rfl, rfl, rfl, -⟩ := h
      simp only [List.length_cons]
      omega
  exact List.prefix_of_prefix_length_le (List.prefix_append r u) ⟨s, h.symm⟩ hle

/-- The lengths that the headers of a stream announce, as the host reads them:
each header starts where the frame before it ends. -/
def announced (host : ByteOrder) : List UInt8 → List Nat
  | _ :: b1 :: b2 :: rest =>
    incoming_len host b1 b2 :: announced host (rest.drop (incoming_len host b1 b2))
  | _ => []
termination_by s => s.length
decreasing_by simp only [List.length_drop, List.length_cons]; omega

theorem announced_frame {host : ByteOrder} {f : List UInt8} (hf : Frame host f)
    (s : List UInt8) : ∃ n, announced host (f ++ s) = n :: announced host s := by
  obtain ⟨t, b1, b2, body, rfl, hl⟩ := hf
  refine ⟨incoming_len host b1 b2, ?_⟩
  simp only [List.cons_append]
  rw [announced, ← hl, List.drop_left]

theorem mem_announced_of_flatten {host : ByteOrder} {fs : List (List UInt8)} {s : List UInt8}
    {n : Nat} (hf : ∀ f ∈ fs, Frame host f) (h : n ∈ announced host s) :
    n ∈ announced host (fs.flatten ++ s) := by
  induction fs with
  | nil => exact h
  | cons f fs ih =>
    rw [List.flatten_cons, List.append_assoc]
    obtain ⟨m, hm⟩ := announced_frame (hf f (by simp)) (fs.flatten ++ s)
    rw [hm]
    exact List.mem_cons_of_mem _ (ih fun g hg => hf g (by simp [hg]))

/-! ## What a reader and the sender do in one call -/

/-- `k` after a reader has moved `n` bytes behind those it had. -/
def advance (k : Link) (n : Nat) (log : List (Nat × Nat)) : Link :=
  let k := received k k.ctx.bytes_read n log
  { k with ctx := { k.ctx with
    bytes_read := k.ctx.bytes_read + n
    bytes_to_read := k.ctx.bytes_to_read - n } }

/-- `k` after the sender has handed `n` bytes to the socket. -/
def sent_more (k : Link) (n : Nat) (log : List (Nat × Nat)) : Link :=
  let k := handed k 0 n log
  { k with ctx := { k.ctx with
    bytes_to_send := k.ctx.bytes_to_send - n
    bytes_sent := k.ctx.bytes_sent + n } }

/-- A call of a reader moves `n` bytes into the block. It is complete, or the
connection waits for more, or the peer has closed it. -/
theorem read_more_cases {f : Link → Link} {outs : List sys_result} {k k' : Link} {res : Int}
    (h : read_more f outs k = some (res, k')) :
    ∃ n log, n ≤ k.ctx.bytes_to_read ∧ n ≤ k.sock.unread.length ∧
      (n = 0 ∨ k.ctx.bytes_read + n ≤ IO_BUF_SIZE) ∧
      (∀ c ∈ log, c.1 + c.2 = k.ctx.bytes_read + k.ctx.bytes_to_read) ∧
      ((n = k.ctx.bytes_to_read ∧ k' = f (advance k n log)) ∨
        (n < k.ctx.bytes_to_read ∧
          (k' = advance k n log ∨ k' = mark_close (advance k n log)))) := by
  unfold read_more at h
  obtain ⟨⟨err, n, k1⟩, hrecv, h⟩ := Option.map_eq_some_iff.mp h
  obtain ⟨-, hn, ⟨havail, hroom, log, hlog, rfl⟩, hok⟩ := nl_recvall_spec hrecv
  refine ⟨n, log, hn, havail, hroom, hlog, ?_⟩
  have hsub : size_sub (received k k.ctx.bytes_read n log).ctx.bytes_to_read n =
      k.ctx.bytes_to_read - n := size_sub_of_le hn
  simp only [hsub] at h
  by_cases he : err = .NL_IO_SUCCESS
  · subst he
    cases h
    exact Or.inl ⟨hok.mp rfl, rfl⟩
  · have hlt : n < k.ctx.bytes_to_read := by
      have := mt hok.mpr he
      omega
    refine Or.inr ⟨hlt, ?_⟩
    cases err <;> cases h <;> first | exact Or.inl rfl | exact Or.inr rfl | exact absurd rfl he

/-- A call of the sender hands `n` bytes of the send buffer to the socket. -/
theorem data_out_cases {outs : List sys_result} {k k' : Link} {res : Int}
    (h : nl_handle_sock_data_out outs k = some (res, k')) :
    ∃ n log, n = total_moved outs ∧ n ≤ k.ctx.bytes_to_send ∧
      ((n = k.ctx.bytes_to_send ∧ k' = response_done (sent_more k n log)) ∨
        (n < k.ctx.bytes_to_send ∧ k' = sent_more k n log)) := by
  unfold nl_handle_sock_data_out at h
  obtain ⟨⟨err, n, k1⟩, hsend, h⟩ := Option.map_eq_some_iff.mp h
  obtain ⟨hmv, hn, ⟨log, -, rfl⟩, hok⟩ := nl_sendall_spec hsend
  refine ⟨n, log, hmv, hn, ?_⟩
  have hsub : size_sub (handed k 0 n log).ctx.bytes_to_send n = k.ctx.bytes_to_send - n :=
    size_sub_of_le hn
  simp only [hsub] at h
  by_cases he : err = .NL_IO_SUCCESS
  · subst he
    cases h
    exact Or.inl ⟨hok.mp rfl, rfl⟩
  · have hlt : n < k.ctx.bytes_to_send := by
      have := mt hok.mpr he
      omega
    refine Or.inr ⟨hlt, ?_⟩
    cases err <;> cases h <;> first | rfl | exact absurd rfl he

/-! ## The steps of a connection -/

/-- What a step does to the link: a reader or the sender in its state, a change
of the reference count, the mark, or nothing. -/
theorem conn_step_cases {host : ByteOrder} {c c' : Conn} {l : ConnLabel}
    (h : conn_step host c l = some c') :
    (c.link.ctx.state = .READ_HEADER ∧ ∃ outs res k,
      read_header host outs c.link = some (res, k) ∧ c'.link = add_ref (-1) k) ∨
    (c.link.ctx.state = .READ_CONTENT ∧ ∃ outs res k,
      read_content host outs c.link = some (res, k) ∧ c'.link = add_ref (-1) k) ∨
    (c.link.ctx.state = .WRITE_RESPONSE ∧ ∃ outs res k,
      nl_handle_sock_data_out outs c.link = some (res, k) ∧ c'.link = add_ref (-1) k) ∨
    (∃ by', c'.link = add_ref by' c.link) ∨ c'.link = mark_close c.link ∨
    c'.link = c.link := by
  have hidle : ∀ {outs k}, stop outs c.link = some k → k = c.link := fun hs =>
    (stop_some.mp hs).2.symm
  cases l with
  | read outs =>
    obtain ⟨k1, hk1, rfl⟩ := Option.map_eq_some_iff.mp h
    obtain ⟨k2, hbody, rfl⟩ := Option.map_eq_some_iff.mp hk1
    unfold io_read_body at hbody
    split at hbody
    next hst =>
      obtain ⟨⟨res, k⟩, hin, rfl⟩ := Option.map_eq_some_iff.mp hbody
      unfold nl_handle_sock_data_in at hin
      rcases hst.1 with hs | hs
      · rw [hs] at hin
        exact Or.inr (Or.inl ⟨hs, outs, res, k, hin, rfl⟩)
      · rw [hs] at hin
        exact Or.inl ⟨hs, outs, res, k, hin, rfl⟩
    next => exact Or.inr (Or.inr (Or.inr (Or.inl ⟨-1, by simp [hidle hbody]⟩)))
  | send outs =>
    obtain ⟨k1, hk1, rfl⟩ := Option.map_eq_some_iff.mp h
    obtain ⟨k2, hbody, rfl⟩ := Option.map_eq_some_iff.mp hk1
    unfold io_send_body at hbody
    split at hbody
    next hst =>
      obtain ⟨⟨res, k⟩, hout, rfl⟩ := Option.map_eq_some_iff.mp hbody
      exact Or.inr (Or.inr (Or.inl ⟨hst.1, outs, res, k, hout, rfl⟩))
    next => exact Or.inr (Or.inr (Or.inr (Or.inl ⟨-1, by simp [hidle hbody]⟩)))
  | hold =>
    cases h
    exact Or.inr (Or.inr (Or.inr (Or.inl ⟨1, rfl⟩)))
  | mark =>
    cases h
    exact Or.inr (Or.inr (Or.inr (Or.inr (Or.inl rfl))))
  | shutdown =>
    cases h
    exact Or.inr (Or.inr (Or.inr (Or.inr (Or.inr rfl))))

/-- The rule for an invariant of the link: the two readers and the sender keep
it in their states, and neither the reference count nor the mark breaks it. -/
theorem link_invariant {host : ByteOrder} {stream : List UInt8} {P : Link → Prop}
    (hfresh : ∀ fd rb sb, P ⟨inbound_ctx fd rb sb, ⟨stream, [], []⟩, [], [], []⟩)
    (href : ∀ by' k, P k → P (add_ref by' k)) (hmark : ∀ k, P k → P (mark_close k))
    (hheader : ∀ outs res k k', P k → k.ctx.state = .READ_HEADER →
      read_header host outs k = some (res, k') → P k')
    (hcontent : ∀ outs res k k', P k → k.ctx.state = .READ_CONTENT →
      read_content host outs k = some (res, k') → P k')
    (hsend : ∀ outs res k k', P k → k.ctx.state = .WRITE_RESPONSE →
      nl_handle_sock_data_out outs k = some (res, k') → P k')
    {c : Conn} (hc : Reachable host stream c) : P c.link := by
  refine machine.Machine.Reach.invariant (P := fun c : Conn => P c.link) ?_ ?_ hc
  · rintro c ⟨fd, rb, sb, he⟩
    rw [he]
    exact hfresh fd rb sb
  · intro c l c' hP _ hstep
    rcases conn_step_cases hstep with ⟨hs, outs, res, k, hr, he⟩ | ⟨hs, outs, res, k, hr, he⟩ |
      ⟨hs, outs, res, k, hr, he⟩ | ⟨by', he⟩ | he | he
    · rw [he]
      exact href _ _ (hheader outs res _ k hP hs hr)
    · rw [he]
      exact href _ _ (hcontent outs res _ k hP hs hr)
    · rw [he]
      exact href _ _ (hsend outs res _ k hP hs hr)
    · rw [he]
      exact href _ _ hP
    · rw [he]
      exact hmark _ hP
    · rw [he]
      exact hP

end pingpong.framing
