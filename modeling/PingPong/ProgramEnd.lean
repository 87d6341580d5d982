-- The end of the process: SIGINT or SIGTERM leads main out of its `poll`, out of its loop and to
-- its return, under a fair scheduler.
import PingPong.Program

namespace pingpong.program

open concurinc connmgr machine server Filter

variable {n : Nat} {host : ByteOrder}

/-! ## Steps -/

/-- The pthread calls of the step succeed, and so does `sigwait`. -/
def ProgramLabel.Ok : ProgramLabel n → Prop
  | .server l => l.Ok
  | .signals l => l ≠ .sigwait_fails

instance : DecidablePred (ProgramLabel.Ok (n := n))
  | .server l => inferInstanceAs (Decidable l.Ok)
  | .signals l => inferInstanceAs (Decidable (l ≠ .sigwait_fails))

/-- No thread wakes up without a signal in the step. -/
def ProgramLabel.Calm : ProgramLabel n → Prop
  | .server l => l.Calm
  | .signals _ => True

instance : DecidablePred (ProgramLabel.Calm (n := n))
  | .server l => inferInstanceAs (Decidable l.Calm)
  | .signals _ => inferInstanceAs (Decidable True)

/-- What takes steps of its own: a worker, main up to the end of the pool, main behind it, the
signal thread, and `sigwait` with one signal. -/
inductive Part (n : Nat)
  | worker (w : Fin n)
  | main
  | rest
  | thread
  | sigwait (signal : signals.signal_t)

/-- Main does not wait in `poll`, or the self-pipe is readable. -/
def Woken (s : Server n) : ServerLabel n → Prop
  | .main o => s.main = .poll →
    o.ok = true ∧ ∃ conn, pipe_at s conn = true ∧ (o.revents conn).POLLIN = true
  | _ => True

/-- The steps of a part. No client owes main a step: a `poll` counts when the self-pipe ends it. -/
def Part.Steps : Part n → Program n → ProgramLabel n → Prop
  | .worker w, _, l => ∃ k, l = .server k ∧ k.Of (.worker w)
  | .main, p, l => ∃ k, l = .server k ∧ k.Of (.client ()) ∧ Woken p.server k ∧ PipePolled p l
  | .rest, _, l => l = .signals .main ∨ ∃ res, l = .signals (.leave res)
  | .thread, _, l => l = .signals .thread
  | .sigwait signal, _, l => l = .signals (.sigwait signal)

/-- The calls succeed, and `poll` sees the self-pipe. -/
def Good (p : Program n) (l : ProgramLabel n) : Prop := l.Ok ∧ PipePolled p l

instance (p : Program n) : DecidablePred (Good p) :=
  fun l => inferInstanceAs (Decidable (l.Ok ∧ PipePolled p l))

/-- An execution of the process in which the pthread calls and `sigwait` succeed, the arrays of the
connection manager are in step whenever main polls, and the read end of the self-pipe is not
descriptor 0. In the end no thread wakes up without a signal, and each part that can take a step
again and again takes steps again and again. -/
structure FairProgram (host : ByteOrder) (e : Execution (program_machine (n := n) host)) :
    Prop where
  reachable : Reachable host Good (e.state 0)
  steps : ∀ i l, e.label i = some l → Good (e.state i) l
  read_end : (e.state 0).server.sigpipe_fd ≠ 0
  calm : ∀ᶠ i in atTop, ∀ l, e.label i = some l → l.Calm
  fair : ∀ part : Part n, e.Fair part.Steps

/-! ## The server in the process -/

/-- The server makes a step of its own, the step of the signal, or none. -/
theorem server_of_signals {p p' : Program n} {l : signals.Label} (h : Shared p)
    (hs : program_step host p (.signals l) = some p') :
    p'.server = p.server ∨ server_step host p.server .signal = some p'.server := by
  obtain ⟨-, -, -, hserver, -⟩ := signals_some hs
  rw [hserver]
  cases hflag : p'.signals.g_should_shutdown with
  | true => exact Or.inr rfl
  | false =>
    have hwas : p.server.g_should_shutdown = false := by
      rw [h.flag, ← Bool.not_eq_true]
      intro hset
      rw [(move_of_signals hs).flag hset] at hflag
      cases hflag
    exact Or.inl (by rw [← hwas])

theorem server_reachable {p : Program n} (h : Reachable host Good p) :
    server.Reachable host (fun _ l => l.Ok) p.server := by
  have hboth : Shared p ∧ server.Reachable host (fun _ l => l.Ok) p.server := by
    refine Machine.Reach.invariant
      (P := fun p : Program n => Shared p ∧ server.Reachable host (fun _ l => l.Ok) p.server)
      ?_ ?_ h
    · intro p hstart
      refine ⟨shared_of_starts hstart, ?_⟩
      obtain ⟨-, -, -, sfd, sigpipe_fd, -, -, -, hserver, -⟩ := hstart
      have hnew : server.Reachable host (fun _ l => l.Ok) (new_server sfd sigpipe_fd : Server n) :=
        ⟨sfd, sigpipe_fd, .start rfl⟩
      rw [hserver]
      cases p.signals.g_should_shutdown with
      | false => exact hnew
      | true =>
        -- the signal came before main was in the loop
        obtain ⟨sfd', sigpipe_fd', hr⟩ := hnew
        exact ⟨sfd', sigpipe_fd', hr.step (l := .signal) trivial rfl⟩
    · rintro p l p' ⟨hp, sfd, sigpipe_fd, hr⟩ hok hs
      have hs : program_step host p l = some p' := hs
      refine ⟨hp.step hs, ?_⟩
      cases l with
      | server l => exact ⟨sfd, sigpipe_fd, hr.step hok.1 (server_some hs).2.2.1⟩
      | signals l =>
        rcases server_of_signals hp hs with hsame | hsignal
        · rw [hsame]
          exact ⟨sfd, sigpipe_fd, hr⟩
        · exact ⟨sfd, sigpipe_fd, hr.step (l := .signal) trivial hsignal⟩
  exact hboth.2

/-- Once the flag is set, the steps of the other part leave the server as it is. -/
theorem server_kept {p p' : Program n} {l : signals.Label} (h : Shared p)
    (hs : program_step host p (.signals l) = some p')
    (hflag : p.server.g_should_shutdown = true) : p'.server = p.server := by
  obtain ⟨-, -, -, hserver, -⟩ := signals_some hs
  rw [hserver, (move_of_signals hs).flag (h.flag.symm.trans hflag), ← hflag]

/-! ## Once the flag is set -/

/-- The flag is set before main looks at it behind the pool, so main will not send SIGUSR1. -/
structure Asked (p : Program n) : Prop where
  shared : Shared p
  flag : p.server.g_should_shutdown = true
  alive : p.signals.ended = none
  no_kill : ∀ res, p.signals.main ≠ .pthread_kill res

theorem Asked.step {p p' : Program n} {l : ProgramLabel n} (h : Asked p)
    (hs : program_step host p l = some p') : Asked p' := by
  have hshared := h.shared.step hs
  cases l with
  | server l =>
    obtain ⟨-, hmay, hserver, hsignals, -⟩ := server_some hs
    refine ⟨hshared, ?_, by rw [hsignals]; exact h.alive, by rw [hsignals]; exact h.no_kill⟩
    rw [flag_of_server hserver ?_]
    · exact h.flag
    · rintro rfl
      exact hmay
  | signals l =>
    have hsame := server_kept h.shared hs h.flag
    have hset : p.signals.g_should_shutdown = true := h.shared.flag.symm.trans h.flag
    obtain ⟨hended, hkill⟩ := (move_of_signals hs).no_kill hset h.no_kill
    exact ⟨hshared, by rw [hsame]; exact h.flag, hended.trans h.alive, hkill⟩

/-- The process goes on until main has returned. -/
theorem Asked.goes_on {p : Program n} (h : Asked p) :
    p.over = false ↔ ∀ res, p.signals.main ≠ .returned res := by
  unfold Program.over
  rw [h.alive]
  cases p.signals.main <;> simp

namespace FairProgram

variable {e : Execution (program_machine (n := n) host)}

theorem step_at {i : Nat} {l : ProgramLabel n} (hl : e.label i = some l) :
    program_step host (e.state i) l = some (e.state (i + 1)) := e.steps i l hl

theorem reachable_at (h : FairProgram host e) (i : Nat) :
    Reachable host Good (e.state i) :=
  Execution.invariant (P := Reachable host Good) h.reachable
    (fun i l hl hr => hr.step (h.steps i l hl) (e.steps i l hl)) i

theorem ordered (hn : 0 < n) (h : FairProgram host e) (i : Nat) : Ordered host (e.state i).server :=
  ordered_of_reachable hn (server_reachable (h.reachable_at i))

/-- Main keeps the descriptor of the read end. -/
theorem read_end_at (h : FairProgram host e) (i : Nat) : (e.state i).server.sigpipe_fd ≠ 0 := by
  refine Execution.invariant (P := fun p : Program n => p.server.sigpipe_fd ≠ 0) h.read_end ?_ i
  intro i l hl hfd
  cases l with
  | server l =>
    rw [(same_fds_of_step (server_some (step_at hl)).2.2.1).sigpipe_fd]
    exact hfd
  | signals l =>
    rw [(signals_some (step_at hl)).2.2.2.1]
    exact hfd

theorem asked {k i : Nat} (hk : Asked (e.state k)) (hi : k ≤ i) : Asked (e.state i) :=
  Execution.invariant_from (P := Asked) hk (fun i l _ hl ha => ha.step (e.steps i l hl)) hi

/-! ## The signal thread -/

theorem thread_step_of_write {p : Program n} {signal : signals.signal_t} (h : Asked p)
    (hpc : p.signals.thread = .write signal) :
    (program_machine host).Enabled (Part.thread.Steps) p := by
  have hgo : p.over = false := by
    refine h.goes_on.mpr fun res hret => ?_
    have hin := h.shared.threaded.joined (by rw [hret]; rfl)
    rw [hpc] at hin
    cases hin
  refine enabled_of_signals (l := .thread) hgo trivial rfl
    (q := { p.signals with
      thread := .returned (some signal), pipe_bytes := p.signals.pipe_bytes + 1 }) ?_
  simp [signals.step, signals.thread_step, h.alive, hpc]

/-- The signal thread writes its byte, which stays in the pipe. -/
theorem byte_written (h : FairProgram host e) {k : Nat} (hk : Asked (e.state k)) :
    ∀ᶠ i in atTop, 0 < (e.state i).signals.pipe_bytes := by
  let S : Program n → Prop := fun p => Asked p ∧ ∃ signal, p.signals.thread = .write signal
  have hleaves : ∃ᶠ i in atTop, ¬ S (e.state i) := by
    refine Execution.leaves_of_step (h.fair .thread) ?_ fun i hS => ?_
    · rintro i l hl ⟨-, signal, hpc⟩ rfl ⟨-, signal', hpc'⟩
      have hmove := move_of_signals (step_at hl)
      generalize (e.state (i + 1)).signals = q at hmove hpc'
      cases hmove with
      | writes => cases hpc'
      | stops signal'' hwas | breaks hwas | again signal'' hwas =>
        rw [hpc] at hwas
        cases hwas
    · obtain ⟨hasked, signal, hpc⟩ := hS
      exact thread_step_of_write hasked hpc
  obtain ⟨j, hnot, hj⟩ := (hleaves.and_eventually (eventually_ge_atTop k)).exists
  have hret : ∀ i, k ≤ i → signals.has_returned (e.state i).signals.thread = true →
      0 < (e.state i).signals.pipe_bytes := by
    intro i hi hret
    have hasked := asked hk hi
    rcases hasked.shared.threaded.behind_flag (hasked.shared.flag.symm.trans hasked.flag) with
      ⟨signal, hpc⟩ | ⟨-, hbyte⟩
    · rw [hpc] at hret
      cases hret
    · exact hbyte
  have hdone : signals.has_returned (e.state j).signals.thread = true := by
    have hasked := asked hk hj
    rcases hasked.shared.threaded.behind_flag (hasked.shared.flag.symm.trans hasked.flag) with
      hwrite | ⟨⟨signal, hpc⟩, -⟩
    · exact absurd ⟨hasked, hwrite⟩ hnot
    · rw [hpc]
      rfl
  refine eventually_atTop.mpr ⟨j, fun i hi => hret i (hj.trans hi) ?_⟩
  refine Execution.invariant_from
    (P := fun p : Program n => signals.has_returned p.signals.thread = true) hdone ?_ hi
  intro i l _ hl hwas
  cases l with
  | server l =>
    rw [signals_of_server (step_at hl)]
    exact hwas
  | signals l => exact (move_of_signals (step_at hl)).has_returned hwas

/-! ## Main and the workers -/

/-- The step of the server in a step of the process. -/
def inServer : ProgramLabel n → Option (ServerLabel n)
  | .server l => some l
  | .signals _ => none

/-- While a thread of the server can go on, the process goes on. -/
theorem goes_on_of_ready {p : Program n} {t : Thread n Unit} (h : Asked p)
    (ho : Ordered host p.server) (hready : p.server.Ready host t) : p.over = false := by
  refine h.goes_on.mpr fun res hret => ?_
  exact ho.still_of_finished (h.shared.finished (by simp [hret])) t hready

/-- What `poll` reports when only the self-pipe is readable. -/
def byte_revents (s : Server n) (conn : Nat) : poll_events :=
  if pipe_at s conn then { no_events with POLLIN := true } else no_events

/-- Main can go on when it can go on in the server: the byte in the pipe ends its `poll`. -/
theorem main_enabled {p : Program n} (h : Asked p) (ho : Ordered host p.server)
    (hfd : p.server.sigpipe_fd ≠ 0) (hbyte : 0 < p.signals.pipe_bytes)
    (hready : p.server.Ready host (.client ())) :
    (program_machine host).Enabled Part.main.Steps p := by
  have hgo := goes_on_of_ready h ho hready
  have hstep : ∀ {l : ServerLabel n} {s}, l.Of (.client ()) → Woken p.server l →
      PipePolled p (.server l) → May p (.server l) → server_step host p.server l = some s →
      (program_machine host).Enabled Part.main.Steps p := by
    intro l s hof hwoken hpolled hmay hs
    exact enabled_of_server hgo hmay ⟨l, rfl, hof, hwoken, hpolled⟩ hs
  obtain ⟨l, s, hof, hs⟩ := hready
  by_cases hpoll : p.server.main = .poll
  · obtain ⟨conn, q, hq, hpipe⟩ := h.shared.piped.exists_polled hpoll
    have hat : pipe_at p.server conn = true := pipe_at_iff.mpr ⟨q, hq, hpipe⟩
    have hin : 0 < p.in_pipe := by
      rw [h.shared.in_loop (by rw [hpoll]; rfl)]
      exact hbyte
    have hev : ∀ i, pipe_at p.server i = true → byte_revents p.server i ≠ no_events ∧
        (byte_revents p.server i).POLLIN = true := by
      intro i hi
      simp [byte_revents, hi, no_events]
    let s : Server n := { p.server with revents := byte_revents p.server }
    have hs : main_step { revents := s.revents } p.server = some (s.goto (.dispatch 0)) := by
      unfold main_step
      rw [hpoll]
      rfl
    refine hstep (l := .main { revents := byte_revents p.server }) ⟨rfl, rfl, trivial⟩
      (fun _ => ⟨rfl, conn, hat, (hev conn hat).2⟩) (fun _ _ => ⟨hfd, fun i _ hi => ?_⟩)
      (fun _ _ => ⟨conn, (List.getElem?_eq_some_iff.mp hq).1, (hev conn hat).1⟩) hs
    rw [(hev i hi).2, decide_eq_true hin]
  · cases l with
    | main o =>
      exact hstep hof (fun hpc => absurd hpc hpoll) (fun hpc => absurd hpc hpoll)
        (fun hpc => absurd hpc hpoll) hs
    | call o => exact hstep hof trivial trivial trivial hs
    | worker w o => cases hof.1
    | task w res outs => cases hof.1
    | signal => cases hof.1

theorem worker_enabled {p : Program n} (h : Asked p) (ho : Ordered host p.server) {w : Fin n}
    (hready : p.server.Ready host (.worker w)) :
    (program_machine host).Enabled (Part.worker w).Steps p := by
  have hgo := goes_on_of_ready h ho hready
  obtain ⟨l, s, hof, hs⟩ := hready
  have hmay : May p (.server l) := by
    cases l with
    | main o => cases hof.1
    | signal => cases hof.1
    | call | worker | task => trivial
  exact enabled_of_server hgo hmay ⟨l, rfl, hof⟩ hs

/-- Once the byte is in the pipe, the server runs under a fair scheduler, though it polls. -/
theorem server_run (hn : 0 < n) (h : FairProgram host e) {k : Nat} (hk : Asked (e.state k))
    (hbyte : ∀ i, k ≤ i → 0 < (e.state i).signals.pipe_bytes) :
    ∃ se : Execution (server_machine (n := n) host), FairServer host se ∧
      ∀ i, se.state i = (e.state (i + k)).server := by
  have hasked : ∀ i, Asked (e.state (i + k)) := fun i => asked hk (Nat.le_add_left k i)
  let se : Execution (server_machine (n := n) host) :=
    (e.tail k).project Program.server inServer
      (fun i l hl hnone => by
        cases l with
        | server l => cases hnone
        | signals l => exact server_kept (hasked i).shared (step_at hl) (hasked i).flag)
      (fun i l j hl hsome => by
        cases l with
        | server l =>
          cases hsome
          exact (server_some (step_at hl)).2.2.1
        | signals l => cases hsome)
  have hlabel : ∀ {i l}, se.label i = some l ↔ e.label (i + k) = some (.server l) := by
    intro i l
    constructor
    · intro hl
      obtain ⟨l', hl', hin⟩ := Option.bind_eq_some_iff.mp hl
      cases l' with
      | server l' =>
        cases hin
        exact hl'
      | signals l' => cases hin
    · intro hl
      show (e.label (i + k)).bind inServer = some l
      rw [hl]
      rfl
  refine ⟨se, ⟨?_, fun i l hl => ?_, ?_, fun t hoften => ?_⟩, fun i => rfl⟩
  · exact (h.ordered hn (0 + k)).reachable
  · exact (h.steps _ _ (hlabel.mp hl)).1
  · have hcalm := (Execution.eventually_add
      (P := fun i => ∀ l, e.label i = some l → l.Calm) k).mpr h.calm
    filter_upwards [hcalm] with i hi l hl
    exact hi _ (hlabel.mp hl)
  · cases t with
    | worker w =>
      refine ((h.fair (.worker w)).tail k (hoften.mono fun i hready => ?_)).mono fun i => ?_
      · exact worker_enabled (hasked i) (h.ordered hn (i + k)) hready
      · rintro ⟨l, hl, j, rfl, hof⟩
        exact ⟨j, hlabel.mpr hl, hof⟩
    | client c =>
      refine ((h.fair .main).tail k (hoften.mono fun i hready => ?_)).mono fun i => ?_
      · exact main_enabled (hasked i) (h.ordered hn (i + k)) (h.read_end_at (i + k))
          (hbyte _ (Nat.le_add_left k i)) hready
      · rintro ⟨l, hl, j, rfl, hof, -⟩
        exact ⟨j, hlabel.mpr hl, hof⟩

theorem server_finishes (hn : 0 < n) (h : FairProgram host e) {k : Nat} (hk : Asked (e.state k)) :
    ∀ᶠ i in atTop, (e.state i).server.main = .finished := by
  obtain ⟨j, hj⟩ := eventually_atTop.mp ((byte_written h hk).and (eventually_ge_atTop k))
  have hjk : Asked (e.state j) := asked hk (hj j le_rfl).2
  obtain ⟨se, hfair, hstate⟩ := server_run hn h hjk fun i hi => (hj i hi).1
  have hflag : (se.state 0).g_should_shutdown = true := by
    rw [hstate 0, Nat.zero_add]
    exact hjk.flag
  have hends := hfair.finishes hn (hfair.comes_to_cleanup hn (hfair.leaves_loop hn hflag))
  refine (Execution.eventually_add (P := fun i => (e.state i).server.main = .finished) j).mp ?_
  filter_upwards [hends] with i hi
  rw [← hstate i]
  exact hi

/-! ## Behind the pool -/

/-- The steps of main that are left behind its loop. -/
def rest_left : signals.main_pc → Nat
  | .serving => 6
  | .join_sig_thread _ => 5
  | .pthread_kill _ => 4
  | .pthread_join _ => 3
  | .close_read _ => 2
  | .close_write _ => 1
  | .returned _ => 0

theorem rest_left_of_move {q q' : signals.Process} {l : signals.Label} (h : signals.Move q l q') :
    rest_left q'.main ≤ rest_left q.main ∧
      (l.ends = true → rest_left q'.main < rest_left q.main) := by
  cases h with
  | leave res hpc | kills res hpc | joins res hpc | closes_read res hpc | closes_write res hpc =>
    rw [hpc]
    simp [rest_left]
  | asks res hpc =>
    rw [hpc]
    split <;> simp [rest_left]
  | _ => exact ⟨le_rfl, fun hl => by cases hl⟩

/-- Main joins a thread that has returned, so nothing holds it up. -/
theorem rest_enabled {p : Program n} (h : Asked p) (hpc : p.server.main = .finished)
    (hret : signals.has_returned p.signals.thread = true)
    (hgo : ∀ res, p.signals.main ≠ .returned res) :
    (program_machine host).Enabled Part.rest.Steps p := by
  have hover := h.goes_on.mpr hgo
  have hmain : ∀ {q}, signals.main_step p.signals = some q →
      (program_machine host).Enabled Part.rest.Steps p := by
    intro q hs
    refine enabled_of_signals (l := .main) hover trivial (Or.inl rfl) (q := q) ?_
    simp [signals.step, h.alive, hs]
  cases hm : p.signals.main with
  | serving =>
    refine enabled_of_signals (l := .leave p.res) hover ⟨hpc, rfl⟩ (Or.inr ⟨p.res, rfl⟩)
      (q := { p.signals with main := .join_sig_thread p.res }) ?_
    simp [signals.step, h.alive, hm]
  | pthread_kill res => exact absurd hm (h.no_kill res)
  | returned res => exact absurd hm (hgo res)
  | pthread_join res =>
    refine hmain (q := { p.signals with main := .close_read res }) ?_
    simp [signals.main_step, hm, hret]
  | _ => exact hmain (by unfold signals.main_step; rw [hm])

theorem main_returns (hn : 0 < n) (h : FairProgram host e) {k : Nat} (hk : Asked (e.state k)) :
    ∀ᶠ i in atTop, ∃ res, (e.state i).signals.main = .returned res := by
  let S : Program n → Prop := fun p => Asked p ∧ p.server.main = .finished ∧
    signals.has_returned p.signals.thread = true ∧ ∀ res, p.signals.main ≠ .returned res
  have hleaves : ∃ᶠ i in atTop, ¬ S (e.state i) := by
    refine Execution.leaves_of_rank (D := fun _ : Unit => Part.rest.Steps)
      (fun p => rest_left p.signals.main) (fun _ => h.fair .rest) ?_ ?_
    · refine Eventually.of_forall fun i l hl hS _ => ?_
      cases l with
      | server l =>
        rw [signals_of_server (step_at hl)]
        refine ⟨le_rfl, ?_⟩
        rintro ⟨-, hrest | ⟨res, hrest⟩⟩ <;> cases hrest
      | signals l =>
        have hrank := rest_left_of_move (move_of_signals (step_at hl))
        refine ⟨hrank.1, ?_⟩
        rintro ⟨-, hrest | ⟨res, hrest⟩⟩
        · cases hrest
          exact hrank.2 rfl
        · cases hrest
          exact hrank.2 rfl
    · rintro i ⟨hasked, hpc, hret, hgo⟩
      exact ⟨(), rest_enabled hasked hpc hret hgo⟩
  have hall : ∀ᶠ i in atTop, Asked (e.state i) ∧ (e.state i).server.main = .finished ∧
      signals.has_returned (e.state i).signals.thread = true := by
    filter_upwards [eventually_ge_atTop k, h.server_finishes hn hk, h.byte_written hk] with i hi hpc
      hbyte
    have hasked := asked hk hi
    obtain ⟨signal, hthread⟩ := hasked.shared.threaded.returned hbyte
    exact ⟨hasked, hpc, by rw [hthread]; rfl⟩
  obtain ⟨j, hnot, hasked, hpc, hret⟩ := (hleaves.and_eventually hall).exists
  have hdone : ∃ res, (e.state j).signals.main = .returned res := by
    by_contra hgo
    push Not at hgo
    exact hnot ⟨hasked, hpc, hret, hgo⟩
  -- when main has returned, nothing goes on
  refine eventually_atTop.mpr ⟨j, fun i hi => ?_⟩
  refine Execution.invariant_from
    (P := fun p : Program n => ∃ res, p.signals.main = .returned res) hdone ?_ hi
  rintro i l - hl ⟨res, hres⟩
  have hs := step_at hl
  have hover : (e.state i).over = true := by
    unfold Program.over
    rw [hres]
    simp
  unfold program_step at hs
  simp [hover] at hs

end FairProgram

/-! ## Before the flag is set -/

/-- The signal thread looks for a signal, and main is before the join. -/
structure Looking (p : Program n) : Prop where
  shared : Shared p
  serving : p.signals.main = .serving
  thread : p.signals.thread = .sigwait ∨ ∃ signal, p.signals.thread = .check signal

theorem Looking.goes_on {p : Program n} (h : Looking p) :
    p.over = false ∧ p.signals.ended = none := by
  have halive := h.shared.threaded.alive h.serving
  unfold Program.over
  rw [halive, h.serving]
  exact ⟨rfl, rfl⟩

/-- The thread goes on from a signal that it has taken. -/
theorem Looking.check {p : Program n} (h : Looking p) {signal : signals.signal_t}
    (hpc : p.signals.thread = .check signal) :
    (program_machine host).Enabled Part.thread.Steps p := by
  obtain ⟨hgo, halive⟩ := h.goes_on
  have hs : ∃ q, signals.thread_step p.signals = some q := by
    unfold signals.thread_step
    rw [hpc]
    simp only
    repeat' split
    all_goals exact ⟨_, rfl⟩
  obtain ⟨q, hs⟩ := hs
  refine enabled_of_signals (l := .thread) hgo trivial rfl (q := q) ?_
  simp [signals.step, halive, hs]

theorem Looking.sigwait {p : Program n} (h : Looking p) {signal : signals.signal_t}
    (hpc : p.signals.thread = .sigwait) (hset : signal ∈ p.signals.sigset)
    (hpend : signal ∈ p.signals.pending) :
    (program_machine host).Enabled (Part.sigwait signal).Steps p := by
  obtain ⟨hgo, halive⟩ := h.goes_on
  refine enabled_of_signals (l := .sigwait signal) hgo trivial rfl (q := { p.signals with
    pending := p.signals.pending.erase signal, thread := .check signal }) ?_
  simp [signals.step, halive, hpc, hset, hpend]

/-- A signal that no `sigwait` takes stays pending. -/
theorem pending_of_move {q q' : signals.Process} {l : signals.Label} {signal : signals.signal_t}
    (h : signals.Move q l q') (hl : l ≠ .sigwait signal) (hpend : signal ∈ q.pending) :
    signal ∈ q'.pending := by
  cases h with
  | arrives other => exact List.mem_insert_of_mem hpend
  | sigwait other hpc =>
    refine (List.mem_erase_of_ne ?_).mpr hpend
    rintro rfl
    exact hl rfl
  | kills res hpc =>
    show signal ∈ (signals.deliver .SIGUSR1 q).pending
    unfold signals.deliver
    split
    · exact hpend
    · split
      · exact List.mem_insert_of_mem hpend
      · exact hpend
  | _ => exact hpend

theorem Looking.step {p p' : Program n} {l : ProgramLabel n} (h : Looking p) (hok : l.Ok)
    (hs : program_step host p l = some p') (hflag : p'.server.g_should_shutdown = false)
    (hserving : p'.signals.main = .serving) : Looking p' := by
  have hshared := h.shared.step hs
  refine ⟨hshared, hserving, ?_⟩
  cases l with
  | server l =>
    rw [signals_of_server hs]
    exact h.thread
  | signals l =>
    have hmove := move_of_signals hs
    obtain ⟨mask, hset⟩ := h.shared.threaded.set_up
    have hthread := hset.thread
    rw [hshared.flag] at hflag
    generalize p'.signals = q at hmove hflag hserving
    cases hmove with
    | arrives => exact h.thread
    | sigwait signal => exact Or.inr ⟨signal, rfl⟩
    | sigwait_fails => exact absurd rfl hok
    | again => exact Or.inl rfl
    | stops => cases hflag
    | breaks hpc =>
      rw [hpc] at hthread
      exact absurd rfl hthread
    | writes signal hpc =>
      have hwas := h.thread
      rw [hpc] at hwas
      rcases hwas with hwas | ⟨other, hwas⟩ <;> cases hwas
    | leave => cases hserving
    | asks res hpc | kills res hpc | joins res hpc | closes_read res hpc | closes_write res hpc =>
      rw [h.serving] at hpc
      cases hpc

namespace FairProgram

variable {e : Execution (program_machine (n := n) host)}

/-- The step behind the check of SIGINT or SIGTERM sets the flag. -/
theorem flag_of_check {q q' : signals.Process} {signal : signals.signal_t}
    (h : signals.Move q .thread q') (hpc : q.thread = .check signal)
    (hstop : signal = .SIGINT ∨ signal = .SIGTERM) : q'.g_should_shutdown = true := by
  cases h with
  | stops => rfl
  | breaks hpc' =>
    rw [hpc'] at hpc
    cases hpc
    rcases hstop with hstop | hstop <;> cases hstop
  | again other hpc' hgo =>
    rw [hpc'] at hpc
    cases hpc
    exact absurd hstop hgo
  | writes other hpc' =>
    rw [hpc'] at hpc
    cases hpc

/-- The signal thread does not stay behind `sigwait`. -/
theorem leaves_check (h : FairProgram host e) :
    ∃ᶠ i in atTop, ¬ (Looking (e.state i) ∧
      ∃ signal, (e.state i).signals.thread = .check signal) := by
  refine Execution.leaves_of_step (h.fair .thread)
    (S := fun p : Program n => Looking p ∧ ∃ signal, p.signals.thread = .check signal) ?_ ?_
  · rintro i l hl - rfl ⟨-, other, hpc⟩
    have hmove := move_of_signals (step_at hl)
    generalize (e.state (i + 1)).signals = q at hmove hpc
    cases hmove with
    | stops | breaks | again | writes => cases hpc
  · rintro i ⟨hlooking, signal, hpc⟩
    exact hlooking.check hpc

section Looking

variable {k : Nat} {signal : signals.signal_t}

/-- As long as the flag is not set, the thread looks for a signal. -/
theorem looking_at (h : FairProgram host e) (hk : Looking (e.state k))
    (hserving : ∀ i, k ≤ i → (e.state i).server.g_should_shutdown = false →
      (e.state i).signals.main = .serving)
    (hflag : ∀ i, k ≤ i → (e.state i).server.g_should_shutdown = false) {i : Nat} (hi : k ≤ i) :
    Looking (e.state i) := by
  refine Execution.invariant_from (P := Looking) hk ?_ hi
  intro i l hi hl hwas
  have hnot := hflag (i + 1) (by omega)
  exact hwas.step (h.steps i l hl).1 (step_at hl) hnot (hserving (i + 1) (by omega) hnot)

/-- The flag would be set behind the check. -/
theorem not_checked (h : FairProgram host e) (hstop : signal = .SIGINT ∨ signal = .SIGTERM)
    (hlooking : ∀ i, k ≤ i → Looking (e.state i))
    (hflag : ∀ i, k ≤ i → (e.state i).server.g_should_shutdown = false) {i : Nat} (hi : k ≤ i) :
    (e.state i).signals.thread ≠ .check signal := by
  intro hpc
  obtain ⟨j, hnot, hj⟩ := (h.leaves_check.and_eventually (eventually_ge_atTop i)).exists
  refine hnot ⟨hlooking j (hi.trans hj), signal, ?_⟩
  refine Execution.invariant_from
    (P := fun p : Program n => p.signals.thread = .check signal) hpc ?_ hj
  intro j l hj hl hwas
  cases l with
  | server l =>
    rw [signals_of_server (step_at hl)]
    exact hwas
  | signals l =>
    have hmove := move_of_signals (step_at hl)
    by_cases hthread : l = .thread
    · subst hthread
      have hset := flag_of_check hmove hwas hstop
      rw [← (hlooking (j + 1) (by omega)).shared.flag, hflag (j + 1) (by omega)] at hset
      cases hset
    · exact (hmove.thread hthread (by rw [hwas]; simp)).trans hwas

/-- A thread that looks for a signal comes back to `sigwait`. -/
theorem waits_again (h : FairProgram host e) (hlooking : ∀ i, k ≤ i → Looking (e.state i)) :
    ∃ᶠ i in atTop, (e.state i).signals.thread = .sigwait := by
  refine (h.leaves_check.and_eventually (eventually_ge_atTop k)).mono ?_
  rintro i ⟨hnot, hi⟩
  exact (hlooking i hi).thread.resolve_right fun hcheck => hnot ⟨hlooking i hi, hcheck⟩

/-- A signal that no `sigwait` takes stays pending. -/
theorem pending_at (hpend : signal ∈ (e.state k).signals.pending)
    (htakes : ∀ i, k ≤ i → e.label i ≠ some (.signals (.sigwait signal))) {i : Nat} (hi : k ≤ i) :
    signal ∈ (e.state i).signals.pending := by
  refine Execution.invariant_from
    (P := fun p : Program n => signal ∈ p.signals.pending) hpend ?_ hi
  intro i l hi hl hwas
  cases l with
  | server l =>
    rw [signals_of_server (step_at hl)]
    exact hwas
  | signals l =>
    refine pending_of_move (move_of_signals (step_at hl)) ?_ hwas
    rintro rfl
    exact htakes i hi hl

/-- A SIGINT or SIGTERM that is pending is taken, and leads to the flag. -/
theorem flag_set (h : FairProgram host e) (hstop : signal = .SIGINT ∨ signal = .SIGTERM)
    (hpend : signal ∈ (e.state k).signals.pending) (hk : Looking (e.state k))
    (hserving : ∀ i, k ≤ i → (e.state i).server.g_should_shutdown = false →
      (e.state i).signals.main = .serving) :
    ∃ i, k ≤ i ∧ (e.state i).server.g_should_shutdown = true := by
  by_contra hnever
  have hflag : ∀ i, k ≤ i → (e.state i).server.g_should_shutdown = false := by
    intro i hi
    rw [← Bool.not_eq_true]
    exact fun hset => hnever ⟨i, hi, hset⟩
  have hlooking : ∀ i, k ≤ i → Looking (e.state i) := fun i => h.looking_at hk hserving hflag
  have htakes : ∀ i, k ≤ i → e.label i ≠ some (.signals (.sigwait signal)) := by
    intro i hi hl
    refine h.not_checked hstop hlooking hflag (i := i + 1) (by omega) ?_
    have hmove := move_of_signals (step_at hl)
    generalize (e.state (i + 1)).signals = q at hmove
    cases hmove
    rfl
  have hready : ∃ᶠ i in atTop,
      (program_machine host).Enabled (Part.sigwait signal).Steps (e.state i) := by
    refine ((h.waits_again hlooking).and_eventually (eventually_ge_atTop k)).mono ?_
    rintro i ⟨hpc, hi⟩
    obtain ⟨mask, hset⟩ := (hlooking i hi).shared.threaded.set_up
    refine (hlooking i hi).sigwait hpc ?_ (pending_at hpend htakes hi)
    rw [hset.sigset]
    rcases hstop with rfl | rfl <;> simp
  obtain ⟨i, ⟨l, hl, rfl⟩, hi⟩ :=
    ((h.fair (.sigwait signal) hready).and_eventually (eventually_ge_atTop k)).exists
  exact htakes i hi hl

end Looking

end FairProgram

/-! ## The law -/

/-- The process has ended well: main has returned `res`, behind the destruction of the pool, the
join of the signal thread and the two `close` calls, and no signal has killed it. -/
structure Ended (p : Program n) : Prop where
  returned : p.signals.main = .returned p.res
  alive : p.signals.ended = none
  pool : p.server.main = .finished ∧ (p.server.pool.clients ()).status = .COIN_SUCCESS ∧
    AllExited p.server.pool
  thread : ∃ signal, p.signals.thread = .returned (some signal)
  pipe : p.signals.pipe_bytes = 1 ∧ p.signals.read_closed = true ∧ p.signals.write_closed = true

namespace FairProgram

variable {e : Execution (program_machine (n := n) host)}

theorem ends (hn : 0 < n) (h : FairProgram host e) {k : Nat} (hk : Asked (e.state k)) :
    ∀ᶠ i in atTop, Ended (e.state i) := by
  filter_upwards [eventually_ge_atTop k, h.server_finishes hn hk, h.byte_written hk,
    h.main_returns hn hk] with i hi hpc hbyte ⟨res, hres⟩
  have hasked := asked hk hi
  have hthreaded := hasked.shared.threaded
  have hclosed := hthreaded.closed
  rw [hres] at hclosed
  refine ⟨?_, hasked.alive, ⟨hpc, ((h.ordered hn i).destroyed_of_finished hpc).2⟩,
    hthreaded.returned hbyte, le_antisymm hthreaded.one_byte hbyte, Prod.mk.inj hclosed⟩
  rw [hres, hasked.shared.result res (by rw [hres]; rfl)]

/-- The flag finds main before the join. -/
theorem asked_of_flag (h : FairProgram host e) {k i : Nat} (hi : k ≤ i)
    (hk : (e.state k).signals.main = .serving)
    (hserving : ∀ i, k ≤ i → (e.state i).server.g_should_shutdown = false →
      (e.state i).signals.main = .serving)
    (hflag : (e.state i).server.g_should_shutdown = true) : Asked (e.state i) := by
  have hshared : ∀ i, Shared (e.state i) := fun i => shared_of_reachable (h.reachable_at i)
  have hnow : ∀ i, (e.state i).signals.main = .serving →
      (e.state i).server.g_should_shutdown = true → Asked (e.state i) := by
    intro i hpc hset
    exact ⟨hshared i, hset, (hshared i).threaded.alive hpc, by simp [hpc]⟩
  have hall : Asked (e.state i) ∨ (e.state i).server.g_should_shutdown = false := by
    refine Execution.invariant_from
      (P := fun p : Program n => Asked p ∨ p.server.g_should_shutdown = false) ?_ ?_ hi
    · cases hflag : (e.state k).server.g_should_shutdown with
      | true => exact Or.inl (hnow k hk hflag)
      | false => exact Or.inr rfl
    · rintro i l hi hl (hasked | hwas)
      · exact Or.inl (hasked.step (step_at hl))
      · cases hflag : (e.state (i + 1)).server.g_should_shutdown with
        | false => exact Or.inr rfl
        | true =>
          refine Or.inl (hnow (i + 1) ?_ hflag)
          cases l with
          | server l =>
            obtain ⟨-, hmay, hserver, -, -⟩ := server_some (step_at hl)
            rw [flag_of_server hserver ?_, hwas] at hflag
            · cases hflag
            · rintro rfl
              exact hmay
          | signals l =>
            have hmove := move_of_signals (step_at hl)
            have hsame := hmove.main_of_flag ((hshared i).flag.symm.trans hwas)
              ((hshared (i + 1)).flag.symm.trans hflag)
            exact hsame.trans (hserving i hi hwas)
  exact hall.resolve_right (by simp [hflag])

end FairProgram

/-- In every fair execution of the process, in which the pthread calls and `sigwait` succeed, the
arrays of the connection manager are in step and the read end is not descriptor 0: SIGINT or SIGTERM
leads to the return of `main`, although `poll` waits for ever when no client sends
anything. Main comes out of its `poll` and its loop, waits for the pool and destroys it, joins the
signal thread and closes the pipe, and no SIGUSR1 kills the process. The exception is that main has
left its loop on its own before the signal is taken. -/
theorem a_signal_ends_the_process (hn : 0 < n) {e : Execution (program_machine (n := n) host)}
    (h : FairProgram host e) {k : Nat} (hserving : (e.state k).signals.main = .serving)
    (hsignal : (e.state k).server.g_should_shutdown = true ∨
      (signals.has_returned (e.state k).signals.thread = false ∧
        ∃ signal ∈ (e.state k).signals.pending, signal = .SIGINT ∨ signal = .SIGTERM)) :
    (∀ᶠ i in atTop, Ended (e.state i)) ∨
      ∃ i, k ≤ i ∧ (e.state i).signals.main ≠ .serving ∧
        (e.state i).server.g_should_shutdown = false := by
  by_cases hleft : ∃ i, k ≤ i ∧ (e.state i).signals.main ≠ .serving ∧
      (e.state i).server.g_should_shutdown = false
  · exact Or.inr hleft
  · have hstays : ∀ i, k ≤ i → (e.state i).server.g_should_shutdown = false →
        (e.state i).signals.main = .serving := by
      intro i hi hflag
      by_contra hout
      exact hleft ⟨i, hi, hout, hflag⟩
    have hshared := shared_of_reachable (h.reachable_at k)
    have hset : ∃ i, k ≤ i ∧ (e.state i).server.g_should_shutdown = true := by
      rcases hsignal with hflag | ⟨hgo, signal, hpend, hstop⟩
      · exact ⟨k, le_rfl, hflag⟩
      · by_cases hflag : (e.state k).server.g_should_shutdown = true
        · exact ⟨k, le_rfl, hflag⟩
        · refine h.flag_set hstop hpend ⟨hshared, hserving, ?_⟩ hstays
          rw [Bool.not_eq_true, hshared.flag] at hflag
          exact hshared.threaded.before_flag hflag hgo
    obtain ⟨i, hi, hflag⟩ := hset
    exact Or.inl (h.ends hn (h.asked_of_flag hi hserving hstays hflag))

/-- Main leaves its loop, waits for the pool, and destroys the contexts and the pool, whose worker
exits. -/
def cleanup_labels : List (ServerLabel 1) :=
  main_steps 2 ++ List.replicate 7 (.call {}) ++ main_steps 5 ++ List.replicate 4 (.call {}) ++
    List.replicate 7 (.worker only_worker {}) ++ List.replicate 7 (.call {}) ++ main_steps 1

/-- The signal thread wakes main in its first `poll`, and main goes to its return. -/
def stop_labels : List (ProgramLabel 1) :=
  woken_labels ++ cleanup_labels.map .server ++ [.signals (.leave 0)] ++
    List.replicate 4 (.signals .main)

/-- SIGINT comes in the 6th step, while main waits in `poll`. -/
theorem an_interrupted_process_returns :
    ∃ e : Execution (program_machine (n := 1) .big), FairProgram .big e ∧
      (e.state 6).server.main = .poll ∧ (e.state 6).server.g_should_shutdown = false ∧
      ((∀ᶠ i in atTop, Ended (e.state i)) ∨
        ∃ i, 6 ≤ i ∧ (e.state i).signals.main ≠ .serving ∧
          (e.state i).server.g_should_shutdown = false) := by
  obtain ⟨p, hr, hover⟩ := (program_machine .big).exists_run (fun p : Program 1 => p.over = true)
    (new_program 3 4) stop_labels (by decide +kernel)
  let e := Execution.ofRun hr
  have hgood : (program_machine .big).Meets Good (new_program 3 4) stop_labels := by
    decide +kernel
  have hcalm : ∀ l ∈ stop_labels, l.Calm := by decide
  have hends : ∀ part : Part 1, ¬ (program_machine .big).Enabled part.Steps p := by
    rintro part ⟨l, p', -, hs⟩
    have hs : program_step .big p l = some p' := hs
    unfold program_step at hs
    simp [hover] at hs
  have hfair : FairProgram .big e := by
    refine ⟨⟨_, [], starts_new 3 4, trivial, rfl⟩, fun i l hl => ?_, show (4 : Int) ≠ 0 by decide,
      ?_, fun part => Execution.fair_ofRun hr (hends part)⟩
    · exact Execution.meets_ofRun hr hgood hl
    exact Eventually.of_forall fun i l hl => hcalm l (List.mem_of_getElem? hl)
  have hat : (e.state 6).server.main = .poll ∧ (e.state 6).server.g_should_shutdown = false ∧
      (e.state 6).signals.main = .serving ∧ (e.state 6).signals.thread = .sigwait ∧
      (e.state 6).signals.pending = [.SIGINT] := by
    have hstate : e.state 6 = ((program_machine .big).run (new_program 3 4)
        (stop_labels.take 6)).getD (new_program 3 4) := rfl
    rw [hstate]
    decide +kernel
  obtain ⟨hpoll, hflag, hserving, hthread, hpending⟩ := hat
  refine ⟨e, hfair, hpoll, hflag, a_signal_ends_the_process Nat.one_pos hfair hserving (Or.inr ?_)⟩
  rw [hthread, hpending]
  exact ⟨rfl, .SIGINT, List.mem_singleton_self _, Or.inl rfl⟩

end pingpong.program
