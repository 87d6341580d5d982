-- A dialog of the test client is never stuck: as long as the connection is not closed,
-- the client can get all of its volleys.
import PingPong.Client
import PingPong.Lib.Progress

namespace pingpong.client

open framing netio tasks

/-! ## Calls that move all there is to move -/

/-- The results of a loop that moves `n` bytes at once. -/
def at_once (n : Nat) : List sys_result := if n = 0 then [] else [.ret n]

theorem total_moved_at_once (n : Nat) : total_moved (at_once n) = n := by
  unfold at_once
  split
  · rename_i hn
    rw [hn]
    rfl
  · simp [total_moved, moved]

theorem recvall_at_once {base len : Nat} {k : Link} (hav : len ≤ k.sock.unread.length)
    (hroom : base + len ≤ IO_BUF_SIZE) :
    ∃ k', nl_recvall base len (at_once len) k = some (.NL_IO_SUCCESS, len, k') := by
  unfold nl_recvall at_once
  by_cases hn : len = 0
  · rw [if_pos hn, hn]
    exact ⟨k, rfl⟩
  · rw [if_neg hn]
    have hpos : 0 < len := Nat.pos_of_ne_zero hn
    simp only [io_loop, if_pos hpos, size_sub_of_le (Nat.zero_le len), recv, Nat.add_zero,
      Nat.sub_zero, Nat.le_refl, true_and, if_pos (And.intro hav hroom), Option.bind_some, hn,
      and_false, if_false, Nat.zero_add, Nat.lt_irrefl]
    exact ⟨_, rfl⟩

theorem sendall_at_once {len : Nat} {k : Link} (hroom : len ≤ IO_BUF_SIZE) :
    ∃ k', nl_sendall len (at_once len) k = some (.NL_IO_SUCCESS, len, k') := by
  unfold nl_sendall at_once
  by_cases hn : len = 0
  · rw [if_pos hn, hn]
    exact ⟨k, rfl⟩
  · rw [if_neg hn]
    have hpos : 0 < len := Nat.pos_of_ne_zero hn
    simp only [io_loop, if_pos hpos, size_sub_of_le (Nat.zero_le len), send, Nat.sub_zero,
      Nat.le_refl, true_and, Nat.zero_add, hroom, if_true, Option.bind_some, Nat.lt_irrefl,
      if_false, Bool.false_eq_true, false_and]
    exact ⟨_, rfl⟩

theorem read_more_at_once {f : Link → Link} {k : Link}
    (hav : k.ctx.bytes_to_read ≤ k.sock.unread.length)
    (hroom : k.ctx.bytes_read + k.ctx.bytes_to_read ≤ IO_BUF_SIZE) :
    ∃ log, read_more f (at_once k.ctx.bytes_to_read) k =
      some (0, f (advance k k.ctx.bytes_to_read log)) := by
  obtain ⟨k', hk'⟩ := recvall_at_once hav hroom
  obtain ⟨-, -, ⟨-, -, log, -, rfl⟩, -⟩ := nl_recvall_spec hk'
  refine ⟨log, ?_⟩
  have hsub : size_sub k.ctx.bytes_to_read k.ctx.bytes_to_read =
      k.ctx.bytes_to_read - k.ctx.bytes_to_read := size_sub_of_le (Nat.le_refl _)
  simp only [read_more, hk', Option.map_some]
  rw [show (received k k.ctx.bytes_read k.ctx.bytes_to_read log).ctx.bytes_to_read =
    k.ctx.bytes_to_read from rfl, hsub]
  rfl

theorem data_out_at_once {k : Link} (hroom : k.ctx.bytes_to_send ≤ IO_BUF_SIZE) :
    ∃ log, nl_handle_sock_data_out (at_once k.ctx.bytes_to_send) k =
      some (0, response_done (sent_more k k.ctx.bytes_to_send log)) := by
  obtain ⟨k', hk'⟩ := sendall_at_once (k := k) hroom
  obtain ⟨-, -, ⟨log, -, rfl⟩, -⟩ := nl_sendall_spec hk'
  refine ⟨log, ?_⟩
  have hsub : size_sub k.ctx.bytes_to_send k.ctx.bytes_to_send =
      k.ctx.bytes_to_send - k.ctx.bytes_to_send := size_sub_of_le (Nat.le_refl _)
  simp only [nl_handle_sock_data_out, hk', Option.map_some]
  rw [show (handed k 0 k.ctx.bytes_to_send log).ctx.bytes_to_send =
    k.ctx.bytes_to_send from rfl, hsub]
  rfl

/-! ## The steps that lead to the end -/

/-- The server still serves the client, and the client still waits. -/
structure Open (d : Dialog) : Prop where
  volleying : ∃ j, Volleying d j
  runs : d.conn.g_should_shutdown = false
  kept : d.conn.link.ctx.state ≠ .PENDING_CLOSE
  waits : d.cli.pc ≠ .timed_out

/-- The steps of the connection up to its response, and the `recv` of the client. -/
def conn_steps : conn_state_t → Nat
  | .READ_HEADER => 4
  | .READ_CONTENT => 3
  | _ => 2

/-- The steps of a turn that are still to come. -/
def steps_left (d : Dialog) : Nat :=
  match d.cli.pc with
  | .loop => 5
  | .recv => if TOTAL_SIZE ≤ d.pending.length then 1 else conn_steps d.conn.link.ctx.state
  | _ => 0

theorem steps_left_recv {d : Dialog} (hpc : d.cli.pc = .recv)
    (hpending : ¬ TOTAL_SIZE ≤ d.pending.length) :
    steps_left d = conn_steps d.conn.link.ctx.state := by
  unfold steps_left
  simp only [hpc]
  rw [if_neg hpending]

/-- The connection has gone on, and sent nothing. -/
theorem steps_left_lt {d : Dialog} {c' : Conn} (hpc : d.cli.pc = .recv)
    (hpending : ¬ TOTAL_SIZE ≤ d.pending.length)
    (hsent : c'.link.sock.sent = d.conn.link.sock.sent)
    (hlt : conn_steps c'.link.ctx.state < conn_steps d.conn.link.ctx.state) :
    steps_left { d with conn := c' } < steps_left d := by
  have hsame : ({ d with conn := c' } : Dialog).pending = d.pending := by
    unfold Dialog.pending
    rw [hsent]
  have hpending' : ¬ TOTAL_SIZE ≤ ({ d with conn := c' } : Dialog).pending.length := by
    rw [hsame]
    exact hpending
  have hnow := steps_left_recv (d := { d with conn := c' }) hpc hpending'
  rw [steps_left_recv hpc hpending, hnow]
  exact hlt

/-- The steps of all turns that are still to come. -/
def volleys_left (d : Dialog) : Nat := (d.cli.max_volleys + 2 - d.cli.volley) * 8 + steps_left d

/-- When no task is submitted, main has to submit one first. -/
def rank (d : Dialog) : Nat := 2 * volleys_left d + (1 - d.conn.link.ctx.ref_count).toNat

/-- A task runs only when main has submitted one and has counted it. Which of the two tasks it has
submitted is left open until one runs. -/
def Submitted (d : Dialog) : DialogLabel → Prop
  | .conn (.read _) | .conn (.send _) => 0 < d.conn.link.ctx.ref_count
  | _ => True

/-- A step in the server, without a cut response. -/
def Served (d : Dialog) (l : DialogLabel) : Prop := Uncut d l ∧ Submitted d l

/-- While the reader waits, the rest of the ping has not been read. -/
theorem Volleying.under_way {d : Dialog} {j : Nat} (h : Volleying d j) (hpc : d.cli.pc = .recv)
    (hpending : d.pending.length < TOTAL_SIZE)
    (hs : d.conn.link.ctx.state = .READ_HEADER ∨ d.conn.link.ctx.state = .READ_CONTENT) :
    inBuffer d.conn.link ++ d.conn.link.sock.unread = ping d.cli.id (2 * j) := by
  have hopen : d.cli.open_pings = 1 := by
    unfold Cli.open_pings
    rw [hpc]
  obtain ⟨i, w, hat⟩ := h.serves.at
  obtain ⟨hle, hlen⟩ := h.taken_le hat
  have hread := h.serves.replying.reading.taken
  have hall : i = j := by
    have hsent := h.serves.whole.reads hs
    rw [hat.frames, hat.sent] at hsent
    have hsame := congrArg List.length hsent
    rw [length_replies, length_replies, length_pings, length_pings] at hsame
    rw [hlen] at hpending
    simp only [TOTAL_SIZE] at hsame hpending
    omega
  have hstream := hread.stream_eq
  rw [hread.taken_eq, hat.frames, hall, hopen, pings_succ, List.flatten_append, List.append_assoc,
    List.append_right_inj] at hstream
  rw [hstream]
  rfl

/-- A step of the dialog that leads on. -/
def LeadsOn (d : Dialog) : Prop :=
  ∃ l d', Served d l ∧ dialog_step .little d l = some d' ∧ Open d' ∧ rank d' < rank d

/-- A step of the client leads on. -/
theorem rank_of_cli {d d' : Dialog} (hconn : d'.conn.link.ctx.ref_count =
    d.conn.link.ctx.ref_count) (hlt : volleys_left d' < volleys_left d) : rank d' < rank d := by
  unfold rank
  rw [hconn]
  omega

/-- The client is at the head of its loop. -/
theorem Open.send {d : Dialog} (h : Open d) (hpc : d.cli.pc = .loop) : LeadsOn d := by
  obtain ⟨j, hj⟩ := h.volleying
  have hmax := hj.max
  have hleft : steps_left d = 5 := by
    unfold steps_left
    rw [hpc]
  have hstep : dialog_step .little d .send = some { d with
      cli := (cli_send d.cli).1
      conn := { d.conn with link := push (cli_send d.cli).2 d.conn.link } } := if_pos hpc
  have hnext := Volleying.step (l := .send) h.volleying trivial hstep
  have hwait : ∀ d' : Dialog, d'.cli.pc = .recv → steps_left d' < 5 := by
    intro d' hpc'
    unfold steps_left
    rw [hpc']
    simp only
    split
    · decide
    · unfold conn_steps
      split <;> decide
  by_cases hlt : d.cli.volley < d.cli.max_volleys
  · have hsend : cli_send d.cli = ({ d.cli with pc := .recv }, ping d.cli.id d.cli.volley) := by
      unfold cli_send
      rw [if_pos hlt, make_ping_eq hj.id (by omega)]
    rw [hsend] at hstep hnext
    refine ⟨.send, _, ⟨trivial, trivial⟩, hstep, ⟨hnext, h.runs, h.kept, nofun⟩,
      rank_of_cli rfl ?_⟩
    unfold volleys_left
    rw [hleft]
    exact Nat.add_lt_add_left (hwait _ rfl) _
  · have hsend : cli_send d.cli = ({ d.cli with pc := .finished }, []) := by
      unfold cli_send
      rw [if_neg hlt]
    rw [hsend] at hstep hnext
    refine ⟨.send, _, ⟨trivial, trivial⟩, hstep, ⟨hnext, h.runs, h.kept, nofun⟩,
      rank_of_cli rfl ?_⟩
    unfold volleys_left
    rw [hleft]
    exact Nat.add_lt_add_left (show 0 < 5 by decide) _

/-- The client takes the pong. -/
theorem Open.recv {d : Dialog} (h : Open d) (hpc : d.cli.pc = .recv)
    (hpending : TOTAL_SIZE ≤ d.pending.length) : LeadsOn d := by
  obtain ⟨j, hj⟩ := h.volleying
  have hvolley := hj.volley
  have hmax := hj.max
  have hmore := hj.more hpc
  have hstep : dialog_step .little d (.recv TOTAL_SIZE) = some { d with
      cli := cli_recv (d.pending.take TOTAL_SIZE) d.cli
      got := d.got + TOTAL_SIZE } := if_pos ⟨hpc, Nat.le_refl _, hpending⟩
  have hcli : cli_recv (d.pending.take TOTAL_SIZE) d.cli =
      { d.cli with volley := d.cli.volley + 2, pc := .loop } := by
    rw [(hj.pong hpending).1, List.take_of_length_le (Nat.le_of_eq (length_pong_bytes _ _)),
      ← hvolley, cli_recv_pong hj.id (by omega)]
  rw [hcli] at hstep
  refine ⟨.recv TOTAL_SIZE, _, ⟨rfl, trivial⟩, hstep,
    ⟨Volleying.step h.volleying (l := .recv TOTAL_SIZE) rfl hstep, h.runs, h.kept, nofun⟩,
    rank_of_cli rfl ?_⟩
  show (d.cli.max_volleys + 2 - (d.cli.volley + 2)) * 8 + 5 <
    (d.cli.max_volleys + 2 - d.cli.volley) * 8 + steps_left d
  omega

/-- Main submits a task. -/
theorem Open.hold {d : Dialog} (h : Open d) (href : d.conn.link.ctx.ref_count ≤ 0) :
    LeadsOn d := by
  have hstep : dialog_step .little d (.conn .hold) = some { d with
      conn := { d.conn with link := add_ref 1 d.conn.link } } := rfl
  refine ⟨.conn .hold, _, ⟨trivial, trivial⟩, hstep,
    ⟨Volleying.step h.volleying (l := .conn .hold) trivial hstep, h.runs, h.kept, h.waits⟩, ?_⟩
  show 2 * volleys_left d + (1 - (d.conn.link.ctx.ref_count + 1)).toNat <
    2 * volleys_left d + (1 - d.conn.link.ctx.ref_count).toNat
  omega

/-- A task takes the connection on, while the client waits. -/
theorem Open.conn {d : Dialog} {l : ConnLabel} {c' : Conn} (h : Open d)
    (hserved : Served d (.conn l)) (hs : conn_step .little d.conn l = some c')
    (href : 0 < d.conn.link.ctx.ref_count)
    (hdone : c'.link.ctx.ref_count = d.conn.link.ctx.ref_count + -1)
    (hflag : c'.g_should_shutdown = false) (hkept : c'.link.ctx.state ≠ .PENDING_CLOSE)
    (hlt : steps_left { d with conn := c' } < steps_left d) : LeadsOn d := by
  have hstep : dialog_step .little d (.conn l) = some { d with conn := c' } := by
    simp only [dialog_step, hs, Option.map_some]
  refine ⟨.conn l, _, hserved, hstep,
    ⟨Volleying.step h.volleying hserved.1 hstep, hflag, hkept, h.waits⟩, ?_⟩
  have hleft : volleys_left { d with conn := c' } < volleys_left d := Nat.add_lt_add_left hlt _
  unfold rank
  simp only [hdone]
  omega

/-- The reader gets all that it waits for. -/
theorem read_at_once {c : Conn} (hflag : c.g_should_shutdown = false)
    (hs : c.link.ctx.state = .READ_HEADER ∨ c.link.ctx.state = .READ_CONTENT)
    (hav : c.link.ctx.bytes_to_read ≤ c.link.sock.unread.length)
    (hroom : c.link.ctx.bytes_read + c.link.ctx.bytes_to_read ≤ IO_BUF_SIZE) :
    ∃ log, conn_step .little c (.read (at_once c.link.ctx.bytes_to_read)) = some { c with
      link := add_ref (-1) ((if c.link.ctx.state = .READ_HEADER then header_done .little
        else content_done .little) (advance c.link c.link.ctx.bytes_to_read log)) } := by
  rcases hs with hs | hs
  · obtain ⟨log, hread⟩ := read_more_at_once (f := header_done .little) hav hroom
    refine ⟨log, ?_⟩
    simp only [conn_step, task_io_read, io_read_body, hs, hflag, or_true, true_and, if_true,
      nl_handle_sock_data_in, read_header, hread, Option.map_some]
  · obtain ⟨log, hread⟩ := read_more_at_once (f := content_done .little) hav hroom
    refine ⟨log, ?_⟩
    simp only [conn_step, task_io_read, io_read_body, hs, hflag, true_or, true_and, if_true,
      nl_handle_sock_data_in, read_content, hread, Option.map_some, reduceCtorEq, if_false]

/-- The reader gets the rest of the header, or of the content. -/
theorem Open.read {d : Dialog} (h : Open d) (href : 0 < d.conn.link.ctx.ref_count)
    (hpc : d.cli.pc = .recv) (hpending : d.pending.length < TOTAL_SIZE)
    (hs : d.conn.link.ctx.state = .READ_HEADER ∨ d.conn.link.ctx.state = .READ_CONTENT) :
    LeadsOn d := by
  obtain ⟨j, hj⟩ := h.volleying
  have hping := hj.under_way hpc hpending hs
  have hread := hj.serves.replying.reading
  have hphase := hread.phase
  have hbuf := hread.taken.length_inBuffer
  have hsum : (inBuffer d.conn.link).length + d.conn.link.sock.unread.length = TOTAL_SIZE := by
    have hall := congrArg List.length hping
    rw [List.length_append] at hall
    exact hall
  have hnot : ¬ TOTAL_SIZE ≤ d.pending.length := Nat.not_le_of_lt hpending
  simp only [TOTAL_SIZE] at hsum
  rcases hs with hs | hs
  · simp only [Phase, hs, HEADER_SIZE] at hphase
    obtain ⟨log, hstep⟩ := read_at_once h.runs (Or.inl hs) (by omega)
      (by simp only [IO_BUF_SIZE]; omega)
    have hdone : (advance d.conn.link d.conn.link.ctx.bytes_to_read log).ctx.bytes_read =
        HEADER_SIZE := hphase.2
    rw [if_pos hs, header_done, if_pos hdone] at hstep
    refine h.conn (l := .read _) ⟨trivial, href⟩ hstep href rfl h.runs (fun hst => by cases hst) ?_
    refine steps_left_lt hpc hnot ?_ ?_
    · rfl
    · rw [hs]
      exact (show 3 < 4 by decide)
  · simp only [Phase, hs, HEADER_SIZE] at hphase
    obtain ⟨t, b1, b2, got, hb, hall⟩ := hphase
    have hlen : incoming_len .little b1 b2 = 8 := by
      rw [hb] at hping
      simp only [ping, pong.ping_str, List.cons_append, List.cons.injEq] at hping
      rw [hping.2.1, hping.2.2.1]
      rfl
    rw [hlen] at hall
    obtain ⟨log, hstep⟩ := read_at_once h.runs (Or.inr hs) (by omega)
      (by simp only [IO_BUF_SIZE]; omega)
    have hzero : 0 = (advance d.conn.link d.conn.link.ctx.bytes_to_read log).ctx.bytes_to_read :=
      (Nat.sub_self _).symm
    rw [if_neg (by rw [hs]; decide), content_done, if_pos hzero] at hstep
    refine h.conn (l := .read _) ⟨trivial, href⟩ hstep href rfl h.runs (fun hst => by cases hst) ?_
    refine steps_left_lt hpc hnot ?_ ?_
    · rfl
    · rw [hs]
      exact (show 2 < 3 by decide)

/-- The whole response goes out. -/
theorem Open.out {d : Dialog} (h : Open d) (href : 0 < d.conn.link.ctx.ref_count)
    (hpc : d.cli.pc = .recv) (hpending : d.pending.length < TOTAL_SIZE)
    (hs : d.conn.link.ctx.state = .WRITE_RESPONSE) : LeadsOn d := by
  obtain ⟨j, hj⟩ := h.volleying
  have hnot : ¬ TOTAL_SIZE ≤ d.pending.length := Nat.not_le_of_lt hpending
  have hsend := hj.serves.replying.sending
  have hzero := (hj.serves.whole.writes hs).2
  have hreached := hj.reached
  simp only [framing.Sending, hs, hzero, pong.sizeof_ping_pong_t, pong.PING_PONG_LEN] at hsend
  have hall : d.conn.link.ctx.bytes_to_send = TOTAL_SIZE := by
    simp only [TOTAL_SIZE]
    omega
  obtain ⟨log, hout⟩ := data_out_at_once (k := d.conn.link) (by rw [hall]; decide)
  have hdone : 0 = (sent_more d.conn.link d.conn.link.ctx.bytes_to_send log).ctx.bytes_to_send :=
    (Nat.sub_self _).symm
  rw [response_done, if_pos hdone] at hout
  have hstep : conn_step .little d.conn (.send (at_once d.conn.link.ctx.bytes_to_send)) =
      some { d.conn with
        link := add_ref (-1)
          (rearm (sent_more d.conn.link d.conn.link.ctx.bytes_to_send log)) } := by
    simp only [conn_step, task_io_send, io_send_body, hs, h.runs, true_and, if_true, hout,
      Option.map_some]
  refine h.conn (l := .send _) ⟨Or.inr (total_moved_at_once _), href⟩ hstep href rfl h.runs
    (fun hst => by cases hst) ?_
  -- the pong is pending now
  rw [steps_left_recv hpc hnot, hs]
  unfold steps_left Dialog.pending
  simp only [hpc]
  rw [if_pos]
  · exact (show 1 < 2 by decide)
  · show TOTAL_SIZE ≤ ((d.conn.link.sock.sent ++
      d.conn.link.ctx.p_send_buf.bytes.take d.conn.link.ctx.bytes_to_send).drop d.got).length
    rw [hall, List.length_drop, List.length_append, List.length_take, io_buf.length_bytes]
    simp only [TOTAL_SIZE, IO_BUF_SIZE]
    omega

/-- As long as the client waits for a pong, the dialog can go on. -/
theorem Open.leadsOn {d : Dialog} (h : Open d) : d.cli.pc = .finished ∨ LeadsOn d := by
  obtain ⟨j, hj⟩ := h.volleying
  cases hpc : d.cli.pc with
  | finished => exact Or.inl rfl
  | loop => exact Or.inr (h.send hpc)
  | failed => exact absurd hpc hj.good.1
  | raised => exact absurd hpc hj.good.2
  | timed_out => exact absurd hpc h.waits
  | recv =>
    refine Or.inr ?_
    rcases Nat.lt_or_ge d.pending.length TOTAL_SIZE with hpending | hpending
    · rcases Int.lt_or_le 0 d.conn.link.ctx.ref_count with href | href
      swap
      · exact h.hold href
      cases hs : d.conn.link.ctx.state with
      | READ_HEADER => exact h.read href hpc hpending (Or.inl hs)
      | READ_CONTENT => exact h.read href hpc hpending (Or.inr hs)
      | WRITE_RESPONSE => exact h.out href hpc hpending hs
      | PENDING_CLOSE => exact absurd hs h.kept
      | SPECIAL_CONN =>
        have hphase := hj.serves.replying.reading.phase
        simp only [Phase, hs] at hphase
    · exact h.recv hpc hpending

/-- A dialog can always go on: as long as the server runs and keeps the connection, and no timeout
has ended the client, some run without a cut, in which main submits each task before it runs, gives
the client all of its volleys. -/
theorem a_dialog_can_always_be_finished {d : Dialog}
    (h : (dialog_machine .little).Reach Started Uncut d)
    (hruns : d.conn.g_should_shutdown = false) (hkept : d.conn.link.ctx.state ≠ .PENDING_CLOSE)
    (hwaits : d.cli.pc ≠ .timed_out) :
    ∃ ls d', (dialog_machine .little).Meets Served d ls ∧
      (dialog_machine .little).run d ls = some d' ∧ d'.cli.pc = .finished := by
  have hleads : ∀ d, Open d → d.cli.pc = .finished ∨ ∃ l d', Served d l ∧
      (dialog_machine .little).step d l = some d' ∧ Open d' ∧ rank d' < rank d :=
    fun _ hd => hd.leadsOn
  obtain ⟨ls, d', hM, hrun, -, hfinished⟩ := machine.Machine.exists_run_of_rank hleads
    (Open.mk (volleying_of_reachable h) hruns hkept hwaits)
  exact ⟨ls, d', hM, hrun, hfinished⟩

/-- The ping has arrived in part. -/
theorem a_dialog_with_half_a_ping_can_be_finished :
    ∃ d, (dialog_machine .little).Reach Started Uncut d ∧
      d.conn.link.sock.taken = [0, 0] ∧
      ∃ ls d', (dialog_machine .little).Meets Served d ls ∧
        (dialog_machine .little).run d ls = some d' ∧ d'.cli.pc = .finished := by
  have hstart : Started first_dialog :=
    ⟨by decide, by decide, rfl, rfl, ⟨5, io_buf.zero, io_buf.zero, rfl⟩, rfl⟩
  obtain ⟨d, hreach, htaken, hruns, hs, hpc⟩ := machine.Machine.exists_reach
    (dialog_machine .little) Started Uncut
    (fun d => d.conn.link.sock.taken = [0, 0] ∧ d.conn.g_should_shutdown = false ∧
      d.conn.link.ctx.state = .READ_HEADER ∧ d.cli.pc = .recv)
    first_dialog (one_volley.take 3) hstart (by decide +kernel) (by decide +kernel)
  exact ⟨d, hreach, htaken, a_dialog_can_always_be_finished hreach hruns (by rw [hs]; nofun)
    (by rw [hpc]; nofun)⟩

end pingpong.client
