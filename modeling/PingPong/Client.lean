-- The test client of `tests/client.py`, and its dialog with a connection of the
-- server: each pong answers the last ping, and the volleys count up by two.
import PingPong.Answers

namespace pingpong.client

open netio tasks

/-! ## The messages -/

/-- `struct.pack("!H", v)`, which raises when `v` does not fit. -/
def pack_H (v : Nat) : Option (List UInt8) :=
  if v ≤ UINT16_MAX then some [UInt8.ofNat (v / 256), UInt8.ofNat v] else none

/-- `struct.pack("!B", v)`. -/
def pack_B (v : Nat) : Option (List UInt8) := if v ≤ 255 then some [UInt8.ofNat v] else none

/-- `struct.calcsize` of `TOTAL_FMT` and of `PINGPONG_FMT`. -/
def TOTAL_SIZE : Nat := 1 + 2 + 2 + 1 + 5
def PINGPONG_SIZE : Nat := 2 + 1 + 5

/-- The bytes of a ping: the header with the length of what follows it, and the id, the volley and
"ping", which the format fills up with a zero byte. -/
def make_ping (id volley : Nat) : Option (List UInt8) := do
  let len ← pack_H PINGPONG_SIZE
  let cli_id ← pack_H id
  let msg_volley ← pack_B volley
  return [pong.PING_TYPE] ++ len ++ cli_id ++ msg_volley ++ pong.ping_str

structure pong_msg where
  msg_type : UInt8
  msg_len : Nat
  cli_id : Nat
  msg_volley : UInt8
  msg_payload : List UInt8
  deriving DecidableEq

/-- `parse_pong`. It gets what one `recv` of at most `TOTAL_SIZE` bytes has given. -/
def parse_pong (data : List UInt8) : Option pong_msg :=
  if data.length < TOTAL_SIZE then none
  else some {
    msg_type := data.getD 0 0
    msg_len := be16 (data.getD 1 0) (data.getD 2 0)
    cli_id := be16 (data.getD 3 0) (data.getD 4 0)
    msg_volley := data.getD 5 0
    msg_payload := (data.drop 6).take 5 }

/-! ## The client -/

/-- The points of `main`: the head of its loop, its `recv`, and its ends: behind the loop, by the
`break` for a bad message or a timeout, and by an exception. -/
inductive cli_pc
  | loop
  | recv
  | finished
  | failed
  | timed_out
  | raised
  deriving DecidableEq, Repr

structure Cli where
  id : Nat
  max_volleys : Nat
  volley : Nat
  pc : cli_pc

/-- The head of the loop: the client after it, and what it sends. -/
def cli_send (c : Cli) : Cli × List UInt8 :=
  if c.volley < c.max_volleys then
    match make_ping c.id c.volley with
    | some ping_msg => ({ c with pc := .recv }, ping_msg)
    | none => ({ c with pc := .raised }, [])
  else ({ c with pc := .finished }, [])

/-- The rest of the turn. A `None` of `parse_pong` cannot be unpacked. -/
def cli_recv (data : List UInt8) (c : Cli) : Cli :=
  match parse_pong data with
  | none => { c with pc := .raised }
  | some m =>
    if m.msg_type ≠ pong.PONG_TYPE ∨ m.msg_payload ≠ pong.pong_str ∨
        m.msg_volley.toNat ≠ c.volley + 1 ∨ m.cli_id ≠ c.id then
      { c with pc := .failed }
    else { c with volley := m.msg_volley.toNat + 1, pc := .loop }

/-! ## The dialog -/

/-- A client and its connection in the server. The bytes that the client has sent and the server
has not read are `unread`, and of the bytes that the server has sent the client has `got` many. -/
structure Dialog where
  cli : Cli
  conn : Conn
  got : Nat

/-- What the server has sent and the client has not read. -/
def Dialog.pending (d : Dialog) : List UInt8 := d.conn.link.sock.sent.drop d.got

inductive DialogLabel
  | send
  | recv (n : Nat)
  | timeout
  | conn (l : ConnLabel)

/-- The peer of a socket sends more bytes. -/
def push (more : List UInt8) (k : Link) : Link :=
  { k with sock := { k.sock with unread := k.sock.unread ++ more } }

/-- A `recv` of the client gives some bytes of those that are pending. When it gives none, the
server has closed the connection. -/
def dialog_step (host : ByteOrder) (d : Dialog) : DialogLabel → Option Dialog
  | .send =>
      if d.cli.pc = .loop then
        some { d with
          cli := (cli_send d.cli).1
          conn := { d.conn with link := push (cli_send d.cli).2 d.conn.link } }
      else none
  | .recv n =>
      if d.cli.pc = .recv ∧ n ≤ TOTAL_SIZE ∧ n ≤ d.pending.length then
        some { d with cli := cli_recv (d.pending.take n) d.cli, got := d.got + n }
      else none
  | .timeout =>
      if d.cli.pc = .recv then some { d with cli := { d.cli with pc := .timed_out } } else none
  | .conn l => (conn_step host d.conn l).map fun c => { d with conn := c }

def dialog_machine (host : ByteOrder) : machine.Machine Dialog DialogLabel := ⟨dialog_step host⟩

/-- `main` refuses more volleys, and an id is the number of a client. -/
def Started (d : Dialog) : Prop :=
  d.cli.id ≤ UINT16_MAX ∧ d.cli.max_volleys < 128 ∧ d.cli.volley = 0 ∧ d.cli.pc = .loop ∧
    Fresh [] d.conn ∧ d.got = 0

/-- A call of the sender hands out all of the response or nothing, and a `recv` of the client gives
a whole message. -/
def Uncut (d : Dialog) : DialogLabel → Prop
  | .recv n => n = TOTAL_SIZE
  | .conn (.send outs) => total_moved outs = 0 ∨ total_moved outs = d.conn.link.ctx.bytes_to_send
  | _ => True

instance (d : Dialog) : DecidablePred (Uncut d)
  | .recv n => inferInstanceAs (Decidable (n = TOTAL_SIZE))
  | .conn (.send outs) => inferInstanceAs (Decidable
      (total_moved outs = 0 ∨ total_moved outs = d.conn.link.ctx.bytes_to_send))
  | .send | .timeout | .conn (.read _) | .conn .hold | .conn .mark | .conn .shutdown =>
    inferInstanceAs (Decidable True)

/-! ## The pings and the pongs -/

/-- The ping with this volley, as the client sends it. -/
def ping (id volley : Nat) : List UInt8 :=
  [pong.PING_TYPE, 0, 8, UInt8.ofNat (id / 256), UInt8.ofNat id, UInt8.ofNat volley] ++
    pong.ping_str

/-- The pong with this volley. -/
def pong_bytes (id volley : Nat) : List UInt8 :=
  [pong.PONG_TYPE, 0, 11, UInt8.ofNat (id / 256), UInt8.ofNat id, UInt8.ofNat volley] ++
    pong.pong_str

/-- The first `m` pings of a client. -/
def pings (id m : Nat) : List (List UInt8) := (List.range m).map fun i => ping id (2 * i)

theorem make_ping_eq {id volley : Nat} (hid : id ≤ UINT16_MAX) (hv : volley ≤ 255) :
    make_ping id volley = some (ping id volley) := by
  unfold make_ping pack_H pack_B
  rw [if_pos (by decide), if_pos hid, if_pos hv]
  rfl

theorem pings_succ (id m : Nat) : pings id (m + 1) = pings id m ++ [ping id (2 * m)] := by
  simp [pings, List.range_succ]

theorem frame_ping (id volley : Nat) : framing.Frame .little (ping id volley) :=
  ⟨_, _, _, _, rfl, rfl⟩

theorem reply_ping (id volley : Nat) :
    pong.reply (ping id volley) (ping id volley).length = pong_bytes id (volley + 1) := by
  have hping : pong.IsPing (ping id volley) (ping id volley).length := ⟨rfl, rfl, rfl⟩
  unfold pong.reply
  rw [if_pos hping]
  simp [pong.id_bytes, ping, pong_bytes, pong.ping_str, pong.pong_str]

theorem be16_of_u16 {v : Nat} (h : v ≤ UINT16_MAX) :
    be16 (UInt8.ofNat (v / 256)) (UInt8.ofNat v) = v := by
  unfold UINT16_MAX at h
  simp only [be16, UInt8.toNat_ofNat']
  omega

@[simp] theorem length_pong_bytes (id volley : Nat) :
    (pong_bytes id volley).length = TOTAL_SIZE := rfl

/-- The client takes the pong for its ping. -/
theorem cli_recv_pong {c : Cli} (hid : c.id ≤ UINT16_MAX) (hv : c.volley < 255) :
    cli_recv (pong_bytes c.id (c.volley + 1)) c =
      { c with volley := c.volley + 2, pc := .loop } := by
  have hvolley : (UInt8.ofNat (c.volley + 1)).toNat = c.volley + 1 := by
    rw [UInt8.toNat_ofNat']
    omega
  have hparse : parse_pong (pong_bytes c.id (c.volley + 1)) = some {
      msg_type := pong.PONG_TYPE
      msg_len := 11
      cli_id := c.id
      msg_volley := UInt8.ofNat (c.volley + 1)
      msg_payload := pong.pong_str } := by
    unfold parse_pong
    rw [if_neg (by rw [length_pong_bytes]; exact Nat.lt_irrefl _)]
    simp [pong_bytes, pong.pong_str, be16_of_u16 hid]
    rfl
  unfold cli_recv
  simp only [hparse, hvolley]
  rw [if_neg]
  simp

/-! ## Whole responses -/

open framing

/-- The replies to some frames, one after the other. -/
def replies (fs : List (List UInt8)) : List UInt8 := fs.flatMap fun f => pong.reply f f.length

theorem replies_append (fs : List (List UInt8)) (f : List UInt8) :
    replies (fs ++ [f]) = replies fs ++ pong.reply f f.length := by
  simp [replies]

theorem length_replies (fs : List (List UInt8)) :
    (replies fs).length = fs.length * TOTAL_SIZE := by
  induction fs with
  | nil => simp [replies]
  | cons f fs ih =>
    have hreply : (pong.reply f f.length).length = TOTAL_SIZE := pong.length_reply _ _
    simp only [replies, List.flatMap_cons, List.length_append, List.length_cons] at ih ⊢
    rw [ih, hreply, Nat.add_mul, Nat.one_mul, Nat.add_comm]

/-- Each frame has got its whole reply, but for the last one while its response waits. -/
structure Whole (k : Link) : Prop where
  sent : k.sock.sent = replies (framesRead k) ∨ k.sock.sent = replies (framesRead k).dropLast
  reads : k.ctx.state = .READ_HEADER ∨ k.ctx.state = .READ_CONTENT →
    k.sock.sent = replies (framesRead k)
  writes : k.ctx.state = .WRITE_RESPONSE →
    k.sock.sent = replies (framesRead k).dropLast ∧ k.ctx.bytes_sent = 0

section Steps

variable {stream : List UInt8} {k k' : Link} {outs : List sys_result} {res : Int}

/-- A step that sends nothing and answers nothing. -/
theorem Whole.frame (h : Whole k) (hsent : k'.sock.sent = k.sock.sent)
    (hframes : framesRead k' = framesRead k)
    (hreads : k'.ctx.state = .READ_HEADER ∨ k'.ctx.state = .READ_CONTENT →
      k.ctx.state = .READ_HEADER ∨ k.ctx.state = .READ_CONTENT)
    (hwrites : k'.ctx.state = .WRITE_RESPONSE →
      k.ctx.state = .WRITE_RESPONSE ∧ k'.ctx.bytes_sent = k.ctx.bytes_sent) : Whole k' where
  sent := by
    rw [hsent, hframes]
    exact h.sent
  reads hs := by
    rw [hsent, hframes]
    exact h.reads (hreads hs)
  writes hs := by
    obtain ⟨hs, hb⟩ := hwrites hs
    rw [hsent, hframes, hb]
    exact h.writes hs

theorem Whole.header (h : Whole k) (hs : k.ctx.state = .READ_HEADER)
    (hr : read_header .little outs k = some (res, k')) : Whole k' := by
  obtain ⟨n, log, -, -, -, -, ⟨-, rfl⟩ | ⟨-, rfl | rfl⟩⟩ := read_more_cases hr
  · unfold header_done
    split
    · exact h.frame rfl rfl (fun _ => Or.inl hs) nofun
    · exact h.frame rfl rfl (fun _ => Or.inl hs) fun hw => ⟨hw, rfl⟩
  · exact h.frame rfl rfl (fun _ => Or.inl hs) fun hw => ⟨hw, rfl⟩
  · exact h.frame rfl rfl (fun _ => Or.inl hs) nofun

theorem Whole.content (h : Whole k) (hread : Reading .little stream k) (hsend : framing.Sending k)
    (hs : k.ctx.state = .READ_CONTENT) (hr : read_content .little outs k = some (res, k')) :
    Whole k' := by
  simp only [framing.Sending, hs] at hsend
  obtain ⟨n, log, -, hav, hroom, -, ⟨-, rfl⟩ | ⟨-, rfl | rfl⟩⟩ := read_more_cases hr
  · unfold content_done
    split
    · have hcalls := framesRead_answer .little (advance k n log) (hread.taken.advance hav hroom).room
      have hsent : k.sock.sent = replies (framesRead (answer .little (advance k n log))).dropLast := by
        rw [hcalls, List.dropLast_concat]
        exact h.reads (Or.inr hs)
      refine ⟨Or.inr hsent, fun hst => ?_, fun _ => ⟨hsent, hsend.1⟩⟩
      rcases hst with hst | hst
      · cases hst
      · cases hst
    · exact h.frame rfl rfl (fun _ => Or.inr hs) fun hw => ⟨hw, rfl⟩
  · exact h.frame rfl rfl (fun _ => Or.inr hs) fun hw => ⟨hw, rfl⟩
  · exact h.frame rfl rfl (fun _ => Or.inr hs) fun hw => by cases hw

/-- A call that hands out all of a response or nothing. -/
theorem Whole.data_out (h : Whole k) (hans : Answering k) (hsend : framing.Sending k)
    (hs : k.ctx.state = .WRITE_RESPONSE)
    (huncut : total_moved outs = 0 ∨ total_moved outs = k.ctx.bytes_to_send)
    (hr : nl_handle_sock_data_out outs k = some (res, k')) : Whole k' := by
  obtain ⟨f, hf, hreply⟩ := hans hs
  obtain ⟨hsent, hzero⟩ := h.writes hs
  simp only [framing.Sending, hs, hzero, Nat.zero_add] at hsend
  obtain ⟨n, log, hn, hle, ⟨hall, rfl⟩ | ⟨hlt, rfl⟩⟩ := data_out_cases hr
  · have hz : 0 = (sent_more k n log).ctx.bytes_to_send := by
      show 0 = k.ctx.bytes_to_send - n
      omega
    have hout : k.sock.sent ++ k.ctx.p_send_buf.bytes.take n = replies (framesRead k) := by
      have hlast := List.dropLast_append_getLast? f hf
      rw [hsent, hall, hsend.2, hreply, ← replies_append, hlast]
    rw [response_done, if_pos hz]
    exact ⟨Or.inl hout, fun _ => hout, fun hst => by cases hst⟩
  · have hnone : n = 0 := by omega
    subst hnone
    have hout : (sent_more k 0 log).sock.sent = k.sock.sent := by
      simp [sent_more, handed]
    exact h.frame hout rfl (fun hst => hst) fun hw => ⟨hw, rfl⟩

end Steps

/-! ## The steps of a dialog -/

theorem conn_read_cases {host : ByteOrder} {outs : List sys_result} {c c' : Conn}
    (h : conn_step host c (.read outs) = some c') :
    (c.link.ctx.state = .READ_HEADER ∧ ∃ res k, read_header host outs c.link = some (res, k) ∧
      c'.link = add_ref (-1) k) ∨
    (c.link.ctx.state = .READ_CONTENT ∧ ∃ res k, read_content host outs c.link = some (res, k) ∧
      c'.link = add_ref (-1) k) ∨
    c'.link = add_ref (-1) c.link := by
  obtain ⟨k1, hk1, rfl⟩ := Option.map_eq_some_iff.mp h
  obtain ⟨k2, hbody, rfl⟩ := Option.map_eq_some_iff.mp hk1
  unfold io_read_body at hbody
  split at hbody
  next hst =>
    obtain ⟨⟨res, k⟩, hin, rfl⟩ := Option.map_eq_some_iff.mp hbody
    unfold nl_handle_sock_data_in at hin
    rcases hst.1 with hs | hs
    · rw [hs] at hin
      exact Or.inr (Or.inl ⟨hs, res, k, hin, rfl⟩)
    · rw [hs] at hin
      exact Or.inl ⟨hs, res, k, hin, rfl⟩
  next =>
    rw [(stop_some.mp hbody).2]
    exact Or.inr (Or.inr rfl)

theorem conn_send_cases {host : ByteOrder} {outs : List sys_result} {c c' : Conn}
    (h : conn_step host c (.send outs) = some c') :
    (c.link.ctx.state = .WRITE_RESPONSE ∧ ∃ res k,
      nl_handle_sock_data_out outs c.link = some (res, k) ∧ c'.link = add_ref (-1) k) ∨
    c'.link = add_ref (-1) c.link := by
  obtain ⟨k1, hk1, rfl⟩ := Option.map_eq_some_iff.mp h
  obtain ⟨k2, hbody, rfl⟩ := Option.map_eq_some_iff.mp hk1
  unfold io_send_body at hbody
  split at hbody
  next hst =>
    obtain ⟨⟨res, k⟩, hout, rfl⟩ := Option.map_eq_some_iff.mp hbody
    exact Or.inl ⟨hst.1, res, k, hout, rfl⟩
  next =>
    rw [(stop_some.mp hbody).2]
    exact Or.inr rfl

/-- A connection that replies with whole responses. -/
structure Serves (stream : List UInt8) (k : Link) : Prop where
  replying : Replying stream k
  whole : Whole k

theorem Serves.add_ref {stream : List UInt8} {k : Link} (h : Serves stream k) (by' : Int) :
    Serves stream (add_ref by' k) :=
  ⟨h.replying.add_ref by', h.whole.sent, h.whole.reads, h.whole.writes⟩

theorem Serves.mark_close {stream : List UInt8} {k : Link} (h : Serves stream k) :
    Serves stream (mark_close k) := by
  refine ⟨h.replying.mark_close, h.whole.frame rfl rfl (fun hs => ?_) nofun⟩
  rcases hs with hs | hs
  · cases hs
  · cases hs

theorem Serves.push {stream more : List UInt8} {k : Link} (h : Serves stream k) :
    Serves (stream ++ more) (push more k) := by
  obtain ⟨⟨⟨htaken, hphase⟩, hsend, hans, hserve⟩, hwhole⟩ := h
  have hstream : k.sock.taken ++ (k.sock.unread ++ more) = stream ++ more := by
    rw [← List.append_assoc, htaken.stream_eq]
  obtain ⟨b, hb⟩ := hserve
  exact ⟨⟨⟨⟨hstream, htaken.taken_eq, htaken.frames, htaken.lengths, htaken.room⟩, hphase⟩, hsend,
    hans, b, hb.served, hb.whole, hb.part⟩, hwhole.sent, hwhole.reads, hwhole.writes⟩

/-- Every step of the connection that sends no part of a response keeps it. -/
theorem Serves.conn_step {stream : List UInt8} {d : Dialog} {c' : Conn} {l : ConnLabel}
    (h : Serves stream d.conn.link) (huncut : Uncut d (.conn l))
    (hs : tasks.conn_step .little d.conn l = some c') : Serves stream c'.link := by
  have hread := h.replying.reading
  cases l with
  | read outs =>
    rcases conn_read_cases hs with ⟨hst, res, k, hr, he⟩ | ⟨hst, res, k, hr, he⟩ | he
    · rw [he]
      exact Serves.add_ref ⟨h.replying.header hst hr, h.whole.header hst hr⟩ (-1)
    · rw [he]
      exact Serves.add_ref ⟨h.replying.content hst hr,
        h.whole.content hread h.replying.sending hst hr⟩ (-1)
    · rw [he]
      exact h.add_ref (-1)
  | send outs =>
    rcases conn_send_cases hs with ⟨hst, res, k, hr, he⟩ | he
    · rw [he]
      exact Serves.add_ref ⟨h.replying.data_out hst hr,
        h.whole.data_out h.replying.answering h.replying.sending hst huncut hr⟩ (-1)
    · rw [he]
      exact h.add_ref (-1)
  | hold =>
    cases hs
    exact h.add_ref 1
  | mark =>
    cases hs
    exact h.mark_close
  | shutdown =>
    cases hs
    exact h

/-- What the server has sent stays sent. -/
theorem sent_grows {host : ByteOrder} {c c' : Conn} {l : ConnLabel}
    (h : tasks.conn_step host c l = some c') : c.link.sock.sent <+: c'.link.sock.sent := by
  have hread : ∀ {f : Link → Link} {outs : List sys_result} {res : Int} {k k' : Link},
      (∀ k, (f k).sock.sent = k.sock.sent) → read_more f outs k = some (res, k') →
      k'.sock.sent = k.sock.sent := by
    intro f outs res k k' hf hr
    obtain ⟨n, log, -, -, -, -, ⟨-, rfl⟩ | ⟨-, rfl | rfl⟩⟩ := read_more_cases hr
    · exact hf _
    · rfl
    · rfl
  have hheader : ∀ k, (header_done host k).sock.sent = k.sock.sent := fun k => by
    unfold header_done
    split <;> rfl
  have hcontent : ∀ k, (content_done host k).sock.sent = k.sock.sent := fun k => by
    unfold content_done
    split <;> rfl
  rcases conn_step_cases h with ⟨-, outs, res, k, hr, he⟩ | ⟨-, outs, res, k, hr, he⟩ |
    ⟨-, outs, res, k, hr, he⟩ | ⟨by', he⟩ | he | he
  · rw [he, ← hread hheader hr]
    exact List.prefix_rfl
  · rw [he, ← hread hcontent hr]
    exact List.prefix_rfl
  · rw [he]
    obtain ⟨n, log, -, -, ⟨-, rfl⟩ | ⟨-, rfl⟩⟩ := data_out_cases hr
    · unfold response_done
      split
      · exact List.prefix_append _ _
      · exact List.prefix_append _ _
    · exact List.prefix_append _ _
  · rw [he]
    exact List.prefix_rfl
  · rw [he]
    exact List.prefix_rfl
  · rw [he]

/-! ## Where a dialog is -/

theorem take_pings (id : Nat) {i m : Nat} (h : i ≤ m) : (pings id m).take i = pings id i := by
  rw [pings, ← List.map_take, List.take_range, Nat.min_eq_left h, pings]

@[simp] theorem length_pings (id m : Nat) : (pings id m).length = m := by simp [pings]

theorem length_flatten_pings (id m : Nat) : (pings id m).flatten.length = m * TOTAL_SIZE := by
  induction m with
  | zero => rfl
  | succ m ih =>
    have hlast : [ping id (2 * m)].flatten.length = TOTAL_SIZE := rfl
    rw [pings_succ, List.flatten_append, List.length_append, ih, hlast, Nat.succ_mul]

/-- The server has read the first `i` pings, and has sent the pongs for the first `w` of them. -/
structure At (k : Link) (id m i w : Nat) : Prop where
  frames : framesRead k = pings id i
  sent : k.sock.sent = replies (pings id w)
  unread : k.sock.unread.length + (inBuffer k).length = (m - i) * TOTAL_SIZE
  read : i ≤ m
  replied : w ≤ i
  waits : i ≤ w + 1

theorem Serves.at {k : Link} {id m : Nat} (h : Serves (pings id m).flatten k) :
    ∃ i w, At k id m i w := by
  have hread := h.replying.reading
  have hstream := hread.taken.stream_eq
  rw [hread.taken.taken_eq, List.append_assoc] at hstream
  have hwire : ∀ f ∈ pings id m, Frame .little f := by
    intro f hf
    obtain ⟨i, -, rfl⟩ := List.mem_map.mp hf
    exact frame_ping id _
  obtain ⟨htake, -⟩ := (frame_code .little).take_of_flatten hread.taken.frames hwire hstream
  obtain ⟨i, hi, hframes⟩ : ∃ i ≤ m, framesRead k = pings id i := by
    have hlen : (framesRead k).length ≤ m := by
      have hall := congrArg List.length htake
      simp only [List.length_take, length_pings] at hall
      omega
    exact ⟨_, hlen, by rw [← take_pings id hlen]; exact htake⟩
  have hunread : k.sock.unread.length + (inBuffer k).length = (m - i) * TOTAL_SIZE := by
    have hall := congrArg List.length hstream
    rw [hframes, List.length_append, List.length_append, length_flatten_pings,
      length_flatten_pings] at hall
    rw [Nat.sub_mul]
    omega
  rcases h.whole.sent with hsent | hsent
  · rw [hframes] at hsent
    exact ⟨i, i, hframes, hsent, hunread, hi, Nat.le_refl _, Nat.le_succ _⟩
  · rw [hframes, List.dropLast_eq_take, length_pings, take_pings id (Nat.sub_le i 1)] at hsent
    exact ⟨i, i - 1, hframes, hsent, hunread, hi, Nat.sub_le _ _, by omega⟩

/-! ## Any dialog -/

/-- The pings that the client has sent and not got a pong for. -/
def Cli.open_pings (c : Cli) : Nat :=
  match c.pc with
  | .recv | .timed_out => 1
  | _ => 0

theorem Cli.open_pings_le (c : Cli) : c.open_pings ≤ 1 := by
  unfold Cli.open_pings
  split
  · exact Nat.le_refl _
  · exact Nat.le_refl _
  · exact Nat.zero_le _

/-- The client has taken `j` pongs. -/
structure Volleying (d : Dialog) (j : Nat) : Prop where
  id : d.cli.id ≤ UINT16_MAX
  max : d.cli.max_volleys < 128
  volley : d.cli.volley = 2 * j
  upto : 2 * j ≤ d.cli.max_volleys + 1
  serves : Serves (pings d.cli.id (j + d.cli.open_pings)).flatten d.conn.link
  got : d.got = j * TOTAL_SIZE
  reached : d.got ≤ d.conn.link.sock.sent.length
  more : d.cli.pc = .recv → 2 * j < d.cli.max_volleys
  finished : d.cli.pc = .finished → d.cli.max_volleys ≤ 2 * j
  good : d.cli.pc ≠ .failed ∧ d.cli.pc ≠ .raised

theorem volleying_of_started {d : Dialog} (h : Started d) : Volleying d 0 := by
  obtain ⟨hid, hmax, hvolley, hpc, ⟨fd, recv_buf, send_buf, hlink⟩, hgot⟩ := h
  refine ⟨hid, hmax, hvolley, Nat.zero_le _, ?_, ?_, ?_, ?_, ?_, ?_⟩
  · have hopen : d.cli.open_pings = 0 := by
      unfold Cli.open_pings
      rw [hpc]
    rw [hopen, hlink]
    exact ⟨replying_fresh fd recv_buf send_buf [], Or.inl rfl, fun _ => rfl, nofun⟩
  · rw [hgot, Nat.zero_mul]
  · rw [hgot]
    exact Nat.zero_le _
  · rw [hpc]
    nofun
  · rw [hpc]
    nofun
  · rw [hpc]
    exact ⟨nofun, nofun⟩

/-- The client sends its next ping, or it has had all its volleys. -/
theorem Volleying.send {d d' : Dialog} {j : Nat} (h : Volleying d j)
    (hs : dialog_step .little d .send = some d') : Volleying d' j := by
  unfold dialog_step at hs
  simp only at hs
  split at hs
  · rename_i hpc
    have hopen : d.cli.open_pings = 0 := by
      unfold Cli.open_pings
      rw [hpc]
    have hserves := h.serves
    rw [hopen] at hserves
    cases hs
    have hmax := h.max
    have hvolley := h.volley
    unfold cli_send
    by_cases hlt : d.cli.volley < d.cli.max_volleys
    · have hmore : 2 * j < d.cli.max_volleys := by omega
      rw [if_pos hlt, make_ping_eq h.id (by omega)]
      refine ⟨h.id, hmax, hvolley, h.upto, ?_, h.got, h.reached, fun _ => hmore, nofun, nofun,
        nofun⟩
      show Serves (pings d.cli.id (j + 1)).flatten (push (ping d.cli.id d.cli.volley) d.conn.link)
      rw [pings_succ, List.flatten_append, hvolley]
      exact hserves.push
    · have hall : d.cli.max_volleys ≤ 2 * j := by omega
      rw [if_neg hlt]
      refine ⟨h.id, hmax, hvolley, h.upto, ?_, h.got, h.reached, nofun, fun _ => hall, nofun,
        nofun⟩
      have hnone : Serves ((pings d.cli.id j).flatten ++ []) (push [] d.conn.link) :=
        hserves.push
      rw [List.append_nil] at hnone
      exact hnone
  · cases hs

/-- When a whole message is there, it is the pong for the last ping. -/
theorem Volleying.pong {d : Dialog} {j : Nat} (h : Volleying d j)
    (hlen : TOTAL_SIZE ≤ d.pending.length) :
    d.pending = pong_bytes d.cli.id (2 * j + 1) ∧ d.cli.open_pings = 1 := by
  obtain ⟨i, w, hat⟩ := h.serves.at
  have hgot := h.got
  unfold Dialog.pending at hlen ⊢
  rw [List.length_drop, hat.sent, length_replies, length_pings, hgot] at hlen
  have hopen := d.cli.open_pings_le
  have hw : w = j + 1 := by
    have hreplied := hat.replied
    have hread := hat.read
    have hlt : j < w := by
      by_contra hle
      have hmul := Nat.mul_le_mul_right TOTAL_SIZE (Nat.le_of_not_lt hle)
      simp only [TOTAL_SIZE] at hlen hmul
      omega
    omega
  refine ⟨?_, ?_⟩
  · have hdone : (replies (pings d.cli.id j)).length = j * TOTAL_SIZE := by
      rw [length_replies, length_pings]
    rw [hat.sent, hw, hgot, pings_succ, replies_append, reply_ping, ← hdone, List.drop_left]
  · have hreplied := hat.replied
    have hread := hat.read
    omega

theorem Volleying.recv {d d' : Dialog} {j k : Nat} (h : Volleying d j)
    (huncut : Uncut d (.recv k)) (hs : dialog_step .little d (.recv k) = some d') :
    Volleying d' (j + 1) := by
  rw [show k = TOTAL_SIZE from huncut] at hs
  unfold dialog_step at hs
  simp only at hs
  split at hs
  · rename_i hpc
    obtain ⟨hpending, hopen⟩ := h.pong hpc.2.2
    have hmore := h.more hpc.1
    have hmax := h.max
    have hvolley := h.volley
    have hgot := h.got
    have hserves := h.serves
    rw [hopen] at hserves
    have hreached : d.got + TOTAL_SIZE ≤ d.conn.link.sock.sent.length := by
      have hlen := hpc.2.2
      have hle := h.reached
      unfold Dialog.pending at hlen
      rw [List.length_drop] at hlen
      omega
    rw [hpending, List.take_of_length_le (Nat.le_of_eq (length_pong_bytes _ _)), ← hvolley,
      cli_recv_pong h.id (by omega)] at hs
    cases hs
    refine ⟨h.id, hmax, ?_, ?_, hserves, ?_, hreached, nofun, nofun, nofun, nofun⟩
    · show d.cli.volley + 2 = 2 * (j + 1)
      omega
    · show 2 * (j + 1) ≤ d.cli.max_volleys + 1
      omega
    · show d.got + TOTAL_SIZE = (j + 1) * TOTAL_SIZE
      rw [hgot, Nat.succ_mul]
  · cases hs

theorem Volleying.step {d d' : Dialog} {l : DialogLabel} (h : ∃ j, Volleying d j)
    (huncut : Uncut d l) (hs : dialog_step .little d l = some d') : ∃ j, Volleying d' j := by
  obtain ⟨j, h⟩ := h
  cases l with
  | send => exact ⟨j, h.send hs⟩
  | recv k => exact ⟨j + 1, h.recv huncut hs⟩
  | timeout =>
    unfold dialog_step at hs
    simp only at hs
    split at hs
    · rename_i hpc
      have hserves := h.serves
      have hopen : d.cli.open_pings = 1 := by
        unfold Cli.open_pings
        rw [hpc]
      rw [hopen] at hserves
      cases hs
      exact ⟨j, h.id, h.max, h.volley, h.upto, hserves, h.got, h.reached, nofun, nofun, nofun,
        nofun⟩
    · cases hs
  | conn l =>
    obtain ⟨c', hc, rfl⟩ := Option.map_eq_some_iff.mp hs
    exact ⟨j, h.id, h.max, h.volley, h.upto, h.serves.conn_step huncut hc, h.got,
      Nat.le_trans h.reached (sent_grows hc).length_le, h.more, h.finished, h.good⟩

theorem volleying_of_reachable {d : Dialog}
    (h : (dialog_machine .little).Reach Started Uncut d) : ∃ j, Volleying d j :=
  machine.Machine.Reach.invariant (P := fun d => ∃ j, Volleying d j)
    (fun _ hd => ⟨0, volleying_of_started hd⟩) (fun _ _ _ hd hu hs => Volleying.step hd hu hs) h

/-- Where a dialog is, as the client and the server see it: the client has taken `j` pongs, no
message was bad, at most one message is under way, and the server has got at most one ping more
than the client has pongs. -/
structure InOrder (d : Dialog) : Prop where
  good : d.cli.pc ≠ .failed ∧ d.cli.pc ≠ .raised
  volley : d.cli.volley % 2 = 0 ∧ d.cli.volley ≤ d.cli.max_volleys + 1
  one : d.conn.link.sock.unread.length + (inBuffer d.conn.link).length + d.pending.length ≤
    TOTAL_SIZE
  frames : framesRead d.conn.link = pings d.cli.id (d.cli.volley / 2) ∨
    framesRead d.conn.link = pings d.cli.id (d.cli.volley / 2 + 1)
  finished : d.cli.pc = .finished → d.cli.max_volleys ≤ d.cli.volley ∧
    framesRead d.conn.link = pings d.cli.id (d.cli.volley / 2) ∧
    d.conn.link.sock.sent = replies (pings d.cli.id (d.cli.volley / 2)) ∧ d.pending = []

/-- The pongs that the client has taken are among those that the server has sent. -/
theorem Volleying.taken_le {d : Dialog} {j i w : Nat} (h : Volleying d j)
    (hat : At d.conn.link d.cli.id (j + d.cli.open_pings) i w) :
    j ≤ w ∧ d.pending.length = (w - j) * TOTAL_SIZE := by
  have hreached := h.reached
  rw [h.got, hat.sent, length_replies, length_pings] at hreached
  refine ⟨Nat.le_of_mul_le_mul_right hreached (by decide), ?_⟩
  unfold Dialog.pending
  rw [List.length_drop, hat.sent, length_replies, length_pings, h.got, Nat.sub_mul]

theorem Volleying.inOrder {d : Dialog} {j : Nat} (h : Volleying d j) : InOrder d := by
  obtain ⟨i, w, hat⟩ := h.serves.at
  obtain ⟨hle, hpending⟩ := h.taken_le hat
  have hopen := d.cli.open_pings_le
  have hread := hat.read
  have hreplied := hat.replied
  have hupto := h.upto
  have hvolley := h.volley
  have hhalf : d.cli.volley / 2 = j := by omega
  refine ⟨h.good, by omega, ?_, ?_, fun hpc => ?_⟩
  · rw [hat.unread, hpending, ← Nat.add_mul]
    calc (j + d.cli.open_pings - i + (w - j)) * TOTAL_SIZE ≤ 1 * TOTAL_SIZE :=
          Nat.mul_le_mul_right _ (by omega)
      _ = TOTAL_SIZE := Nat.one_mul _
  · rw [hhalf, hat.frames]
    rcases (by omega : i = j ∨ i = j + 1) with rfl | rfl
    · exact Or.inl rfl
    · exact Or.inr rfl
  · have hnone : d.cli.open_pings = 0 := by
      unfold Cli.open_pings
      rw [hpc]
    have hall : i = j ∧ w = j := by omega
    rw [hhalf, hat.frames, hat.sent, hall.1, hall.2]
    refine ⟨hvolley ▸ h.finished hpc, rfl, rfl, ?_⟩
    rw [hall.2, Nat.sub_self, Nat.zero_mul] at hpending
    exact List.length_eq_zero_iff.mp hpending

/-- However the bytes of the pings arrive, and whatever the tasks and main do in between: as long as
no response is cut, the client never gets a bad message. -/
theorem the_client_gets_the_pong_for_each_ping {d : Dialog}
    (h : (dialog_machine .little).Reach Started Uncut d) : InOrder d := by
  obtain ⟨j, hj⟩ := volleying_of_reachable h
  exact hj.inOrder

/-- A client with one ping, and a connection whose buffers hold zeros. -/
def first_dialog : Dialog := ⟨⟨1, 2, 0, .loop⟩, fresh_conn 5 [], 0⟩

/-- The ping arrives in two pieces, and the first `send` finds the socket full. Main submits each
task before it runs. -/
def one_volley : List DialogLabel :=
  [.send, .conn .hold, .conn (.read [.ret 2, .fail .EAGAIN]), .conn .hold, .conn (.read [.ret 1]),
    .conn .hold, .conn (.read [.ret 8]), .conn .hold, .conn (.send [.fail .EAGAIN]), .conn .hold,
    .conn (.send [.ret 4, .ret 7]), .recv 11, .send]

theorem a_client_gets_its_pong :
    ∃ d, (dialog_machine .little).Reach Started Uncut d ∧ d.cli.pc = .finished ∧ InOrder d := by
  have hstart : Started first_dialog :=
    ⟨by decide, by decide, rfl, rfl, ⟨5, io_buf.zero, io_buf.zero, rfl⟩, rfl⟩
  obtain ⟨d, hreach, hpc⟩ := machine.Machine.exists_reach (dialog_machine .little) Started Uncut
    (fun d => d.cli.pc = .finished) first_dialog one_volley hstart (by decide +kernel)
    (by decide +kernel)
  exact ⟨d, hreach, hpc, the_client_gets_the_pong_for_each_ping hreach⟩

end pingpong.client
