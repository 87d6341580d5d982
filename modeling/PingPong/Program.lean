-- The whole process: the server and the signal thread. They share `g_should_shutdown` and the
-- self-pipe, which main polls, and in the end main joins the thread.
import PingPong.ServerPipe
import PingPong.ServerStop
import PingPong.SignalSteps

namespace pingpong.program

open connmgr server

variable {n : Nat} {host : ByteOrder}

/-! ## The process -/

/-- Main is in `server` up to the return of `coin_tpool_destroy`, and from there on in `signals`,
which has the signal thread. `res` is the `res` of `main`. `in_pipe` counts the bytes that the
signal thread has got into the self-pipe, which nobody reads. -/
structure Program (n : Nat) where
  server : Server n
  signals : signals.Process
  res : Int
  in_pipe : Nat

inductive ProgramLabel (n : Nat)
  | server (l : ServerLabel n)
  | signals (l : signals.Label)

/-- The process has ended, by a signal or by the return of `main`. -/
def Program.over (p : Program n) : Bool :=
  p.signals.ended.isSome || match p.signals.main with
    | .returned _ => true
    | _ => false

/-- The read end of the self-pipe is closed with its context, which `connmgr_destroy_all_conns`
destroys before the join, and again behind the join. -/
def Program.read_closed (p : Program n) : Bool :=
  (p.server.ctxs pipe_ctx).destroyed || p.signals.read_closed

/-- The entry of `p_conns` is for the read end of the self-pipe. -/
def pipe_at (s : Server n) (conn : Nat) : Bool :=
  match s.p_conns[conn]? with
  | some (some p) => (s.ctxs p).link.ctx.fd = s.sigpipe_fd
  | _ => false

/-- A `poll` that succeeds has waited for an event of an entry. -/
def Polls (p : Program n) (o : main_outs) : Prop :=
  o.ok = true → ∃ conn, conn < p.server.p_conns.length ∧ o.revents conn ≠ no_events

instance (p : Program n) (o : main_outs) : Decidable (Polls p o) :=
  inferInstanceAs (Decidable (o.ok = true → _))

/-- What one part asks of the other. The flag is set by the signal thread, and main joins it
behind `coin_tpool_destroy`. -/
def May (p : Program n) : ProgramLabel n → Prop
  | .server (.main o) => p.server.main = .poll → Polls p o
  | .server .signal => False
  | .signals (.leave res) => p.server.main = .finished ∧ res = p.res
  | _ => True

instance (p : Program n) : DecidablePred (May p)
  | .server (.main o) => inferInstanceAs (Decidable (_ → Polls p o))
  | .server .signal => inferInstanceAs (Decidable False)
  | .signals (.leave res) => inferInstanceAs (Decidable (_ ∧ res = p.res))
  | .server (.call _) | .server (.worker _ _) | .server (.task _ _ _) | .signals (.arrives _)
  | .signals (.sigwait _) | .signals .sigwait_fails | .signals .thread | .signals .main =>
    inferInstanceAs (Decidable True)

/-- `res` is 0 from the return of `coin_tpool_wait` on. A `write` into a pipe whose read end is
closed fails with EPIPE, for SIGPIPE is blocked. -/
def program_step (host : ByteOrder) (p : Program n) (l : ProgramLabel n) : Option (Program n) :=
  if p.over = true ∨ ¬ May p l then none
  else match l with
    | .server l => (server_step host p.server l).map fun s =>
      { p with server := s, res := if p.server.main = .wait ∧ s.main ≠ .wait then 0 else p.res }
    | .signals l => (signals.step p.signals l).map fun q =>
      { p with
        server := { p.server with g_should_shutdown := q.g_should_shutdown }
        signals := q
        in_pipe := if p.read_closed then p.in_pipe
          else p.in_pipe + (q.pipe_bytes - p.signals.pipe_bytes) }

def program_machine (host : ByteOrder) : machine.Machine (Program n) (ProgramLabel n) :=
  ⟨program_step host⟩

/-- The pool runs and the listener is open. Since its set up the signal thread may have gone on. -/
def Starts (p : Program n) : Prop :=
  ∃ (o : signals.setup_outs) (mask : List signals.signal_t) (ls : List signals.Label)
    (sfd sigpipe_fd : Int),
    (signals.setup_signal_handler_thread o mask).err = 0 ∧
    signals.signal_machine.run (signals.after_setup o mask) ls = some p.signals ∧
    p.signals.main = .serving ∧
    p.server = { new_server sfd sigpipe_fd with
      g_should_shutdown := p.signals.g_should_shutdown } ∧
    p.res = -1 ∧ p.in_pipe = p.signals.pipe_bytes

/-- Where main polls, the entry of the self-pipe is at its place and reports the byte: `p_pfds` is in
step with `p_conns`, and the read end is not descriptor 0, which `connmgr_update_connections` takes
for an empty entry and drops. -/
def PipePolled (p : Program n) : ProgramLabel n → Prop
  | .server (.main o) => p.server.main = .poll → o.ok = true → p.server.sigpipe_fd ≠ 0 ∧
    ∀ conn, conn < p.server.p_conns.length → pipe_at p.server conn = true →
      (o.revents conn).POLLIN = decide (0 < p.in_pipe)
  | _ => True

instance (p : Program n) : DecidablePred (PipePolled p)
  | .server (.main o) => inferInstanceAs (Decidable (_ → o.ok = true → _ ∧ _))
  | .server .signal | .server (.call _) | .server (.worker _ _) | .server (.task _ _ _)
  | .signals _ => inferInstanceAs (Decidable True)

/-- The states of the process in the runs whose steps meet `C`. -/
def Reachable (host : ByteOrder) (C : Program n → ProgramLabel n → Prop) (p : Program n) : Prop :=
  (program_machine host).Reach Starts C p

theorem server_some {p p' : Program n} {l : ServerLabel n}
    (h : program_step host p (.server l) = some p') :
    p.over = false ∧ May p (.server l) ∧ server_step host p.server l = some p'.server ∧
      p'.signals = p.signals ∧ (p.server.main ≠ .wait → p'.res = p.res) ∧
      p'.in_pipe = p.in_pipe := by
  unfold program_step at h
  split at h
  · cases h
  · rename_i hgo
    obtain ⟨s, hs, rfl⟩ := Option.map_eq_some_iff.mp h
    rw [not_or, not_not, Bool.not_eq_true] at hgo
    exact ⟨hgo.1, hgo.2, hs, rfl, fun hwait => if_neg fun hpc => hwait hpc.1, rfl⟩

theorem signals_some {p p' : Program n} {l : signals.Label}
    (h : program_step host p (.signals l) = some p') :
    p.over = false ∧ May p (.signals l) ∧ signals.step p.signals l = some p'.signals ∧
      p'.server = { p.server with g_should_shutdown := p'.signals.g_should_shutdown } ∧
      p'.res = p.res ∧ p'.in_pipe = if p.read_closed then p.in_pipe
        else p.in_pipe + (p'.signals.pipe_bytes - p.signals.pipe_bytes) := by
  unfold program_step at h
  split at h
  · cases h
  · rename_i hgo
    obtain ⟨q, hq, rfl⟩ := Option.map_eq_some_iff.mp h
    rw [not_or, not_not, Bool.not_eq_true] at hgo
    exact ⟨hgo.1, hgo.2, hq, rfl, rfl, rfl⟩

theorem signals_of_server {p p' : Program n} {l : ServerLabel n}
    (h : program_step host p (.server l) = some p') : p'.signals = p.signals :=
  (server_some h).2.2.2.1

theorem move_of_signals {p p' : Program n} {l : signals.Label}
    (h : program_step host p (.signals l) = some p') : signals.Move p.signals l p'.signals :=
  (signals.step_cases (signals_some h).2.2.1).2

/-- A step of the server can be taken in the process, while the process goes on. -/
theorem enabled_of_server {C : Program n → ProgramLabel n → Prop} {p : Program n}
    {l : ServerLabel n} {s : Server n} (hgo : p.over = false) (hmay : May p (.server l))
    (hl : C p (.server l)) (hs : server_step host p.server l = some s) :
    (program_machine host).Enabled C p := by
  refine ⟨.server l, ?_⟩
  simp only [program_machine, program_step, hgo, Bool.false_eq_true, hmay, not_true_eq_false,
    or_self, if_false, hs, Option.map_some]
  exact ⟨_, hl, rfl⟩

theorem enabled_of_signals {C : Program n → ProgramLabel n → Prop} {p : Program n}
    {l : signals.Label} {q : signals.Process} (hgo : p.over = false) (hmay : May p (.signals l))
    (hl : C p (.signals l)) (hs : signals.step p.signals l = some q) :
    (program_machine host).Enabled C p := by
  refine ⟨.signals l, ?_⟩
  simp only [program_machine, program_step, hgo, Bool.false_eq_true, hmay, not_true_eq_false,
    or_self, if_false, hs, Option.map_some]
  exact ⟨_, hl, rfl⟩

/-! ## What the two parts share -/

structure Shared (p : Program n) : Prop where
  threaded : signals.Threaded p.signals
  flag : p.server.g_should_shutdown = p.signals.g_should_shutdown
  finished : p.signals.main ≠ .serving → p.server.main = .finished
  result : ∀ res, p.signals.main.result = some res → res = p.res
  piped : Piped p.server
  pipe_open : PipeOpen p.server
  in_pipe : p.in_pipe ≤ p.signals.pipe_bytes
  in_loop : p.server.main.inCleanup = false → p.in_pipe = p.signals.pipe_bytes

/-- The read end is open until main cleans up. -/
theorem Shared.read_open {p : Program n} (h : Shared p) (hin : p.server.main.inCleanup = false) :
    p.read_closed = false := by
  have hserving : p.signals.main = .serving := by
    by_contra hout
    rw [h.finished hout] at hin
    cases hin
  have hclosed := h.threaded.closed
  rw [hserving] at hclosed
  unfold Program.read_closed
  rw [h.pipe_open hin, (Prod.mk.inj hclosed).1]
  rfl

theorem shared_of_starts {p : Program n} (h : Starts p) : Shared p := by
  obtain ⟨o, mask, ls, sfd, sigpipe_fd, herr, hrun, hpc, hserver, -, hpipe⟩ := h
  refine ⟨(signals.threaded_after_setup herr).run hrun, by rw [hserver],
    fun hout => absurd hpc hout, fun res hres => ?_, ?_, ?_, hpipe.le, fun _ => hpipe⟩
  · rw [hpc] at hres
    cases hres
  · rw [hserver]
    exact (piped_new sfd sigpipe_fd).frame (.of_ctxs rfl (fun _ => rfl) rfl rfl) rfl rfl rfl rfl
  · rw [hserver]
    exact fun _ => rfl

theorem pipe_at_iff {s : Server n} {conn : Nat} : pipe_at s conn = true ↔
    ∃ p, s.p_conns[conn]? = some (some p) ∧ (s.ctxs p).link.ctx.fd = s.sigpipe_fd := by
  unfold pipe_at
  split
  · rename_i p hp
    simp [hp]
  · rename_i hnot
    constructor
    · intro h
      cases h
    · rintro ⟨p, hp, -⟩
      exact absurd hp (hnot p)

theorem pipe_at_of_kept {s s' : Server n} {conn : Nat} (h : Piped s) (hfds : SameFds s s')
    (hconns : s'.p_conns = s.p_conns) (hat : pipe_at s' conn = true) : pipe_at s conn = true := by
  rw [pipe_at_iff, hconns, hfds.sigpipe_fd] at hat
  rw [pipe_at_iff]
  obtain ⟨p, hp, hfd⟩ := hat
  have hkept := hfds.kept p (h.listed p (Or.inl (List.mem_of_getElem? hp)))
  exact ⟨p, hp, (congrArg Prod.snd hkept).symm.trans hfd⟩

/-- No step of the server but the signal touches the flag. -/
theorem flag_of_server {l : ServerLabel n} {s s' : Server n} (h : server_step host s l = some s')
    (hl : l ≠ .signal) : s'.g_should_shutdown = s.g_should_shutdown := by
  cases server_step_cases h with
  | main o hmove =>
    cases hmove with
    | make pc links => exact (foldl_make_pass links s).2
    | _ => rfl
  | call | worker => rfl
  | task w res outs t hrun ht hmove => cases hmove <;> rfl
  | signal => exact absurd rfl hl

/-- Only main takes events and changes `p_conns`. -/
theorem events_of_server {l : ServerLabel n} {s s' : Server n}
    (h : server_step host s l = some s') (hl : ∀ o, l ≠ .main o) :
    s'.p_conns = s.p_conns ∧ s'.revents = s.revents := by
  cases server_step_cases h with
  | main o => exact absurd rfl (hl o)
  | call | worker | signal => exact ⟨rfl, rfl⟩
  | task w res outs t hrun ht hmove => cases hmove <;> exact ⟨rfl, rfl⟩

theorem Shared.of_server {p p' : Program n} {l : ServerLabel n} (h : Shared p)
    (hs : program_step host p (.server l) = some p') : Shared p' := by
  obtain ⟨-, hmay, hserver, hsignals, hres, hpipe⟩ := server_some hs
  have hl : l ≠ .signal := by
    rintro rfl
    exact hmay
  constructor
  · rw [hsignals]
    exact h.threaded
  · rw [hsignals, flag_of_server hserver hl]
    exact h.flag
  · rw [hsignals]
    intro hout
    have hpc := h.finished hout
    rw [main_kept hserver ?_, hpc]
    rintro o rfl
    have hnone : main_step o p.server = some p'.server := hserver
    unfold main_step at hnone
    simp [hpc] at hnone
  · rw [hsignals]
    intro res hin
    have hout : p.signals.main ≠ .serving := by
      intro hpc
      rw [hpc] at hin
      cases hin
    rw [hres (by simp [h.finished hout])]
    exact h.result res hin
  · exact h.piped.step hserver
  · exact h.pipe_open.step h.piped hserver
  · rw [hsignals, hpipe]
    exact h.in_pipe
  · rw [hsignals, hpipe]
    exact fun hin => h.in_loop ((server_step_cases hserver).cleanup hin)

theorem Shared.of_signals {p p' : Program n} {l : signals.Label} (h : Shared p)
    (hs : program_step host p (.signals l) = some p') : Shared p' := by
  obtain ⟨-, hmay, hsignals, hserver, hres, hpipe⟩ := signals_some hs
  obtain ⟨s, q, r, bytes⟩ := p'
  simp only at hsignals hserver hres hpipe
  subst hserver hres hpipe
  have hmove := move_of_signals hs
  have hle := hmove.pipe_bytes
  have hwas := h.in_pipe
  refine ⟨h.threaded.step hsignals, rfl, fun hout => ?_, fun res hin => ?_, ?_, h.pipe_open, ?_,
    fun hin => ?_⟩
  · by_cases hpc : p.signals.main = .serving
    · cases hmove with
      | leave res => exact hmay.1
      | asks res hpc' | kills res hpc' | joins res hpc' | closes_read res hpc'
      | closes_write res hpc' =>
        rw [hpc] at hpc'
        cases hpc'
      | _ => exact absurd hpc hout
    · exact h.finished hpc
  · by_cases hleave : ∃ r, l = .leave r
    · obtain ⟨r, rfl⟩ := hleave
      cases hmove
      cases hin
      exact hmay.2
    · rw [hmove.result fun r hl => hleave ⟨r, hl⟩] at hin
      exact h.result res hin
  · exact h.piped.frame (.of_ctxs rfl (fun _ => rfl) rfl rfl) rfl rfl rfl rfl
  · simp only at hle ⊢
    split <;> omega
  · have hin : p.server.main.inCleanup = false := hin
    have hall := h.in_loop hin
    simp only [h.read_open hin, Bool.false_eq_true, if_false] at hle ⊢
    omega

theorem Shared.step {p p' : Program n} {l : ProgramLabel n} (h : Shared p)
    (hs : program_step host p l = some p') : Shared p' := by
  cases l with
  | server l => exact h.of_server hs
  | signals l => exact h.of_signals hs

theorem shared_of_reachable {p : Program n} {C : Program n → ProgramLabel n → Prop}
    (h : Reachable host C p) : Shared p :=
  machine.Machine.Reach.invariant (P := Shared) (fun _ => shared_of_starts)
    (fun _ _ _ hp _ hs => hp.step hs) h

/-! ## The self-pipe -/

/-- What main has seen of the self-pipe is the byte. -/
def Seen (p : Program n) : Prop :=
  p.server.main.dispatches = true → ∀ conn, pipe_at p.server conn = true →
    (p.server.revents conn).POLLIN = true → p.signals.g_should_shutdown = true

theorem Seen.of_server {p p' : Program n} {l : ServerLabel n} (h : Seen p) (hp : Shared p)
    (hpolled : PipePolled p (.server l)) (hs : program_step host p (.server l) = some p') :
    Seen p' := by
  obtain ⟨-, -, hserver, hsignals, -⟩ := server_some hs
  have hfds := same_fds_of_step hserver
  intro hin conn hat hev
  rw [hsignals]
  cases l with
  | main o =>
    obtain ⟨⟨hpc, hok, hrev⟩ | ⟨hwas, hrev⟩, hconns⟩ := dispatch_of_main hserver hin
    · -- `poll` has found the byte
      have hat := pipe_at_of_kept hp.piped hfds hconns hat
      obtain ⟨q, hq, -⟩ := pipe_at_iff.mp hat
      rw [hrev, (hpolled hpc hok).2 conn (List.getElem?_eq_some_iff.mp hq).1 hat] at hev
      exact hp.threaded.flag ((of_decide_eq_true hev).trans_le hp.in_pipe)
    · rw [hrev] at hev
      exact h hwas conn (pipe_at_of_kept hp.piped hfds hconns hat) hev
  | _ =>
    obtain ⟨hconns, hrev⟩ := events_of_server hserver (by simp)
    rw [main_kept hserver (by simp)] at hin
    rw [hrev] at hev
    exact h hin conn (pipe_at_of_kept hp.piped hfds hconns hat) hev

theorem Seen.of_signals {p p' : Program n} {l : signals.Label} (h : Seen p)
    (hs : program_step host p (.signals l) = some p') : Seen p' := by
  intro hin conn hat hev
  refine (move_of_signals hs).flag (h ?_ conn ?_ ?_)
  all_goals rw [(signals_some hs).2.2.2.1] at hin hat hev
  · exact hin
  · exact hat
  · exact hev

theorem seen_of_reachable {p : Program n} (h : Reachable host PipePolled p) : Seen p := by
  have hboth : Shared p ∧ Seen p := by
    refine machine.Machine.Reach.invariant (P := fun p : Program n => Shared p ∧ Seen p) ?_ ?_ h
    · intro p hstart
      refine ⟨shared_of_starts hstart, fun hin => ?_⟩
      obtain ⟨-, -, -, sfd, sigpipe_fd, -, -, -, hserver, -⟩ := hstart
      rw [hserver] at hin
      cases hin
    · rintro p l p' ⟨hp, hseen⟩ hpolled hs
      have hs : program_step host p l = some p' := hs
      refine ⟨hp.step hs, ?_⟩
      cases l with
      | server l => exact hseen.of_server hp hpolled hs
      | signals l => exact hseen.of_signals hs
  exact hboth.2

/-- The signal thread writes one byte at most, into a pipe that is open as long as main has not
cleaned up. A `poll` that comes back reports the byte, and at the byte main leaves its loop. -/
structure WakesOnce (host : ByteOrder) (p : Program n) : Prop where
  open_before : signals.has_returned p.signals.thread = false →
    p.in_pipe = 0 ∧ p.signals.write_closed = false
  one_byte : p.in_pipe ≤ p.signals.pipe_bytes ∧ p.signals.pipe_bytes ≤ 1
  behind_the_flag : 0 < p.signals.pipe_bytes → p.server.g_should_shutdown = true
  read_open : p.server.main.inCleanup = false →
    p.read_closed = false ∧ p.in_pipe = p.signals.pipe_bytes
  reported : 0 < p.in_pipe → p.server.main = .poll → ∀ o p', o.ok = true →
    PipePolled p (.server (.main o)) → program_step host p (.server (.main o)) = some p' →
      ∃ conn, pipe_at p'.server conn = true ∧ (p'.server.revents conn).POLLIN = true
  leaves : ∀ conn, p.server.main = .dispatch conn → pipe_at p.server conn = true →
    (p.server.revents conn).POLLIN = true → p.server.sigpipe_fd ≠ p.server.sfd → ∀ o p',
      program_step host p (.server (.main o)) = some p' →
        p'.server.main = .loop_head ∧ p'.server.g_should_shutdown = true

/-- In every run of the process in which the read end is not descriptor 0 and the arrays of the
connection manager are in step whenever main polls, whatever the calls return and however main, the
workers and the signal thread interleave: the thread writes one byte at most, behind the flag and
before main closes the write end. The byte gets into the pipe while main has not begun to clean up,
for the read end is open up to there. Main polls the pipe whenever it polls, and leaves its loop when
it finds the byte. -/
theorem the_self_pipe_wakes_main_once {p : Program n} (h : Reachable host PipePolled p) :
    WakesOnce host p := by
  have hp := shared_of_reachable h
  refine ⟨fun hgo => ?_, ⟨hp.in_pipe, hp.threaded.one_byte⟩, fun hbyte => ?_,
    fun hin => ⟨hp.read_open hin, hp.in_loop hin⟩, fun hbyte hpc o p' hok hpolled hs => ?_,
    fun conn hpc hat hev hne o p' hs => ?_⟩
  · obtain ⟨hbytes, -, hwrite⟩ := hp.threaded.empty hgo
    have hle := hp.in_pipe
    exact ⟨by omega, hwrite⟩
  · rw [hp.flag]
    exact hp.threaded.flag hbyte
  · obtain ⟨conn, q, hq, hfd⟩ := hp.piped.exists_polled hpc
    have hat : pipe_at p.server conn = true := pipe_at_iff.mpr ⟨q, hq, hfd⟩
    have hin := (hpolled hpc hok).2 conn (List.getElem?_eq_some_iff.mp hq).1 hat
    rw [decide_eq_true hbyte] at hin
    have hstep : main_step o p.server = some p'.server := (server_some hs).2.2.1
    unfold main_step at hstep
    simp only [hpc, hok, if_true, Option.some.injEq] at hstep
    rw [← hstep]
    exact ⟨conn, hat, hin⟩
  · have hflag : p.server.g_should_shutdown = true := by
      rw [hp.flag]
      exact seen_of_reachable h (by rw [hpc]; rfl) conn hat hev
    obtain ⟨q, hq, hfd⟩ := pipe_at_iff.mp hat
    have hstep : main_step o p.server = some p'.server := (server_some hs).2.2.1
    unfold main_step at hstep
    simp only [hpc, hq, hev, if_true, hfd, hne, if_false, Option.some.injEq] at hstep
    rw [← hstep]
    exact ⟨rfl, hflag⟩

/-- All calls of the set up succeed, and the listener is open. -/
def new_program (sfd sigpipe_fd : Int) : Program n :=
  ⟨new_server sfd sigpipe_fd, signals.after_setup signals.no_failure [], -1, 0⟩

theorem starts_new (sfd sigpipe_fd : Int) : Starts (new_program sfd sigpipe_fd : Program n) :=
  ⟨signals.no_failure, [], [], sfd, sigpipe_fd, rfl, rfl, rfl, rfl, rfl, rfl⟩

/-- SIGINT is sent, and the signal thread takes it and returns. -/
def interrupted : List (ProgramLabel n) :=
  [.signals (.arrives .SIGINT), .signals (.sigwait .SIGINT), .signals .thread, .signals .thread]

/-- Main is at its first `poll`, is woken by the signal thread, and comes to the self-pipe. -/
def woken_labels : List (ProgramLabel 1) :=
  (main_steps 5).map .server ++ interrupted ++
    [.server (polled 1 { no_events with POLLIN := true })] ++ (main_steps 3).map .server

theorem main_finds_the_byte :
    ∃ p : Program 1, Reachable .big PipePolled p ∧ p.server.main = .dispatch 1 ∧
      pipe_at p.server 1 = true ∧ (p.server.revents 1).POLLIN = true ∧ WakesOnce .big p := by
  obtain ⟨p, hrun, hpc, hat, hev⟩ := (program_machine .big).exists_run
    (fun p : Program 1 => p.server.main = .dispatch 1 ∧ pipe_at p.server 1 = true ∧
      (p.server.revents 1).POLLIN = true) (new_program 3 4) woken_labels (by decide +kernel)
  have hmeets : (program_machine .big).Meets PipePolled (new_program 3 4) woken_labels := by
    decide +kernel
  have hreach : Reachable .big PipePolled p := ⟨_, woken_labels, starts_new 3 4, hmeets, hrun⟩
  exact ⟨p, hreach, hpc, hat, hev, the_self_pipe_wakes_main_once hreach⟩

end pingpong.program
