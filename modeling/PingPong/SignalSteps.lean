-- What one step of the signal thread, or of main behind its loop, does, and what every run keeps
-- of the flag, of the self-pipe and of the join.
import PingPong.Signals

namespace pingpong.signals

open signal_t

variable {p q : Process}

/-! ## The steps -/

/-- Everything that one step does, while no signal has ended the process. -/
inductive Move (p : Process) : Label → Process → Prop
  | arrives (signal : signal_t) :
      Move p (.arrives signal) { p with pending := p.pending.insert signal }
  | sigwait (signal : signal_t) (hpc : p.thread = .sigwait) :
      Move p (.sigwait signal)
        { p with pending := p.pending.erase signal, thread := .check signal }
  | sigwait_fails (hpc : p.thread = .sigwait) :
      Move p .sigwait_fails { p with thread := .returned none }
  | stops (signal : signal_t) (hpc : p.thread = .check signal)
      (hstop : signal = SIGINT ∨ signal = SIGTERM) :
      Move p .thread { p with g_should_shutdown := true, thread := .write signal }
  | breaks (hpc : p.thread = .check SIGUSR1) :
      Move p .thread { p with thread := .returned (some SIGUSR1) }
  | again (signal : signal_t) (hpc : p.thread = .check signal)
      (hgo : ¬ (signal = SIGINT ∨ signal = SIGTERM)) : Move p .thread { p with thread := .sigwait }
  | writes (signal : signal_t) (hpc : p.thread = .write signal) :
      Move p .thread
        { p with pipe_bytes := p.pipe_bytes + 1, thread := .returned (some signal) }
  | leave (res : Int) (hpc : p.main = .serving) :
      Move p (.leave res) { p with main := .join_sig_thread res }
  | asks (res : Int) (hpc : p.main = .join_sig_thread res) :
      Move p .main
        { p with main := if p.g_should_shutdown then .pthread_join res else .pthread_kill res }
  | kills (res : Int) (hpc : p.main = .pthread_kill res) :
      Move p .main { deliver SIGUSR1 p with main := .pthread_join res }
  | joins (res : Int) (hpc : p.main = .pthread_join res) (hret : has_returned p.thread = true) :
      Move p .main { p with main := .close_read res }
  | closes_read (res : Int) (hpc : p.main = .close_read res) :
      Move p .main { p with read_closed := true, main := .close_write res }
  | closes_write (res : Int) (hpc : p.main = .close_write res) :
      Move p .main { p with write_closed := true, main := .returned res }

theorem step_cases {l : Label} (h : step p l = some q) : p.ended = none ∧ Move p l q := by
  unfold step at h
  split at h
  · cases h
  · rename_i halive
    refine ⟨not_not.mp halive, ?_⟩
    cases l with
    | arrives signal =>
      simp only [Option.ite_none_right_eq_some, Option.some.injEq] at h
      rw [← h.2]
      exact .arrives signal
    | sigwait signal =>
      simp only [Option.ite_none_right_eq_some, Option.some.injEq] at h
      rw [← h.2]
      exact .sigwait signal h.1.1
    | sigwait_fails =>
      simp only [Option.ite_none_right_eq_some, Option.some.injEq] at h
      rw [← h.2]
      exact .sigwait_fails h.1
    | thread =>
      simp only [thread_step] at h
      split at h
      next signal hpc =>
        split at h
        · cases h
          exact .stops signal hpc ‹_›
        · split at h
          · rename_i husr
            cases h
            subst husr
            exact .breaks hpc
          · cases h
            exact .again signal hpc ‹_›
      next signal hpc =>
        cases h
        exact .writes signal hpc
      next => cases h
      next => cases h
    | leave res =>
      simp only [Option.ite_none_right_eq_some, Option.some.injEq] at h
      rw [← h.2]
      exact .leave res h.1
    | main =>
      simp only [main_step] at h
      split at h
      next res hpc =>
        cases h
        exact .asks res hpc
      next res hpc =>
        cases h
        exact .kills res hpc
      next res hpc =>
        split at h
        · cases h
          exact .joins res hpc ‹_›
        · cases h
      next res hpc =>
        cases h
        exact .closes_read res hpc
      next res hpc =>
        cases h
        exact .closes_write res hpc
      next => cases h
      next => cases h

theorem deliver_keeps (signal : signal_t) (p : Process) :
    (deliver signal p).g_should_shutdown = p.g_should_shutdown ∧
    (deliver signal p).pipe_bytes = p.pipe_bytes ∧
    (deliver signal p).read_closed = p.read_closed ∧
    (deliver signal p).write_closed = p.write_closed := by
  unfold deliver
  split
  · exact ⟨rfl, rfl, rfl, rfl⟩
  · split <;> exact ⟨rfl, rfl, rfl, rfl⟩

/-- The flag stays set. -/
theorem Move.flag {l : Label} (h : Move p l q) (hflag : p.g_should_shutdown = true) :
    q.g_should_shutdown = true := by
  cases h with
  | stops => rfl
  | kills => exact (deliver_keeps _ p).1.trans hflag
  | _ => exact hflag

/-- The step that sets the flag is one of the thread. -/
theorem Move.main_of_flag {l : Label} (h : Move p l q) (hwas : p.g_should_shutdown = false)
    (hnow : q.g_should_shutdown = true) : q.main = p.main := by
  cases h with
  | stops => rfl
  | kills =>
    have hsame := (deliver_keeps SIGUSR1 p).1
    rw [hwas] at hsame
    exact absurd hnow (by simp [hsame])
  | _ => exact absurd hnow (by simp [hwas])

/-- The signal thread stays where it has returned. -/
theorem Move.has_returned {l : Label} (h : Move p l q) (hret : has_returned p.thread = true) :
    has_returned q.thread = true := by
  cases h with
  | sigwait signal hpc | sigwait_fails hpc | stops signal hpc | breaks hpc | again signal hpc
  | writes signal hpc =>
    rw [hpc] at hret
    cases hret
  | kills =>
    rw [← hret]
    exact congrArg signals.has_returned (deliver_thread SIGUSR1 p)
  | _ => exact hret

/-- The thread moves in its own steps, and when `sigwait` ends. -/
theorem Move.thread {l : Label} (h : Move p l q) (hl : l ≠ .thread) (hpc : p.thread ≠ .sigwait) :
    q.thread = p.thread := by
  cases h with
  | stops | breaks | again | writes => exact absurd rfl hl
  | sigwait signal hwait => exact absurd hwait hpc
  | sigwait_fails hwait => exact absurd hwait hpc
  | kills => exact deliver_thread SIGUSR1 p
  | _ => rfl

/-- A step writes a byte, or it leaves the pipe alone. -/
theorem Move.pipe_bytes {l : Label} (h : Move p l q) : p.pipe_bytes ≤ q.pipe_bytes := by
  cases h with
  | writes => exact Nat.le_succ _
  | kills => exact Nat.le_of_eq (deliver_keeps _ p).2.1.symm
  | _ => exact Nat.le_refl _

/-- The steps of main behind its loop. -/
def Label.ends : Label → Bool
  | .leave _ | .main => true
  | _ => false

/-- What `main` will return, once it has left its loop. -/
def main_pc.result : main_pc → Option Int
  | .serving => none
  | .join_sig_thread res | .pthread_kill res | .pthread_join res | .close_read res
  | .close_write res | .returned res => some res

theorem Move.result {l : Label} (h : Move p l q) (hl : ∀ res, l ≠ .leave res) :
    q.main.result = p.main.result := by
  cases h with
  | leave res => exact absurd rfl (hl res)
  | asks res hpc =>
    rw [hpc]
    split <;> rfl
  | kills res hpc | joins res hpc | closes_read res hpc | closes_write res hpc =>
    rw [hpc]
    rfl
  | _ => rfl

/-- Main does not send SIGUSR1 when it finds the flag set. -/
theorem Move.no_kill {l : Label} (h : Move p l q) (hflag : p.g_should_shutdown = true)
    (hkill : ∀ res, p.main ≠ .pthread_kill res) :
    q.ended = p.ended ∧ ∀ res, q.main ≠ .pthread_kill res := by
  cases h with
  | kills res hpc => exact absurd hpc (hkill res)
  | asks => simp [hflag]
  | leave | joins | closes_read | closes_write => simp
  | _ => exact ⟨rfl, hkill⟩

/-! ## What every run keeps -/

/-- What the signal thread has done: it sets the flag, writes a byte, and returns. -/
def Wrote (p : Process) : Prop :=
  match p.thread with
  | .sigwait | .check _ | .returned none => p.g_should_shutdown = false ∧ p.pipe_bytes = 0
  | .write _ => p.g_should_shutdown = true ∧ p.pipe_bytes = 0
  | .returned (some _) => p.g_should_shutdown = true ∧ p.pipe_bytes = 1

/-- The points of main behind the join. -/
def main_pc.joined : main_pc → Bool
  | .close_read _ | .close_write _ | .returned _ => true
  | _ => false

/-- The ends of the pipe that main has closed. -/
def main_pc.closed : main_pc → Bool × Bool
  | .close_write _ => (true, false)
  | .returned _ => (true, true)
  | _ => (false, false)

theorem closed_of_joined {pc : main_pc} (h : pc.joined = false) : pc.closed = (false, false) := by
  cases pc with
  | close_read | close_write | returned => cases h
  | _ => rfl

/-- What holds of the signal thread, of the pipe and of main's way to its end. -/
structure Threaded (p : Process) : Prop where
  set_up : ∃ mask, SetUp mask p
  wrote : Wrote p
  closed : (p.read_closed, p.write_closed) = p.main.closed
  joined : p.main.joined = true → has_returned p.thread = true
  alive : p.main = .serving → p.ended = none

theorem threaded_after_setup {o : setup_outs} {mask : List signal_t}
    (h : (setup_signal_handler_thread o mask).err = 0) : Threaded (after_setup o mask) where
  set_up := ⟨mask, after_setup_spec h⟩
  wrote := ⟨rfl, rfl⟩
  closed := rfl
  joined h := by cases h
  alive _ := rfl

/-- A step of the thread. -/
theorem Threaded.of_thread (h : Threaded p) (hset : ∃ mask, SetUp mask q) (hwrote : Wrote q)
    (hgo : has_returned p.thread = false) (hmain : q.main = p.main := by exact rfl)
    (hread : q.read_closed = p.read_closed := by exact rfl)
    (hwrite : q.write_closed = p.write_closed := by exact rfl)
    (hended : q.ended = p.ended := by exact rfl) : Threaded q := by
  refine ⟨hset, hwrote, ?_, ?_, ?_⟩
  · rw [hmain, hread, hwrite]
    exact h.closed
  · rw [hmain]
    intro hin
    rw [h.joined hin] at hgo
    cases hgo
  · rw [hmain, hended]
    exact h.alive

/-- A step of main, which leaves the thread alone. -/
theorem Threaded.of_main (h : Threaded p) (hset : ∃ mask, SetUp mask q)
    (hclosed : (q.read_closed, q.write_closed) = q.main.closed)
    (hjoined : q.main.joined = true → has_returned p.thread = true) (hmain : q.main ≠ .serving)
    (hthread : q.thread = p.thread := by exact rfl)
    (hflag : q.g_should_shutdown = p.g_should_shutdown := by exact rfl)
    (hbytes : q.pipe_bytes = p.pipe_bytes := by exact rfl) : Threaded q := by
  refine ⟨hset, ?_, hclosed, ?_, fun hpc => absurd hpc hmain⟩
  · unfold Wrote
    rw [hthread, hflag, hbytes]
    exact h.wrote
  · rw [hthread]
    exact hjoined

theorem Threaded.step {l : Label} (h : Threaded p) (hs : step p l = some q) : Threaded q := by
  have hwrote := h.wrote
  obtain ⟨mask, hin⟩ := h.set_up
  have hset : ∃ mask, SetUp mask q := ⟨mask, hin.step hs⟩
  have hthread := hin.thread
  unfold Wrote at hwrote
  cases (step_cases hs).2 with
  | arrives => exact ⟨hset, h.wrote, h.closed, h.joined, h.alive⟩
  | sigwait signal hpc | sigwait_fails hpc | again signal hpc =>
    rw [hpc] at hwrote
    exact h.of_thread hset hwrote (by rw [hpc]; rfl)
  | stops signal hpc =>
    rw [hpc] at hwrote
    exact h.of_thread hset ⟨rfl, hwrote.2⟩ (by rw [hpc]; rfl)
  | breaks hpc =>
    -- SIGUSR1 is not in the set
    rw [hpc] at hthread
    exact absurd rfl hthread
  | writes signal hpc =>
    rw [hpc] at hwrote
    exact h.of_thread hset ⟨hwrote.1, congrArg Nat.succ hwrote.2⟩ (by rw [hpc]; rfl)
  | leave res hpc =>
    have hclosed := h.closed
    rw [hpc] at hclosed
    exact h.of_main hset hclosed (fun hj => by cases hj) (by simp)
  | asks res hpc =>
    have hclosed := h.closed
    rw [hpc] at hclosed
    refine h.of_main hset (hclosed.trans ?_) (fun hj => ?_) ?_
    · split <;> rfl
    · split at hj <;> cases hj
    · split <;> simp
  | kills res hpc =>
    have hclosed := h.closed
    rw [hpc] at hclosed
    obtain ⟨hflag, hbytes, hread, hwrite⟩ := deliver_keeps SIGUSR1 p
    refine h.of_main hset ?_ (fun hj => by cases hj) (by simp) (deliver_thread SIGUSR1 p) hflag
      hbytes
    simp only [hread, hwrite]
    exact hclosed
  | joins res hpc hret =>
    have hclosed := h.closed
    rw [hpc] at hclosed
    exact h.of_main hset hclosed (fun _ => hret) (by simp)
  | closes_read res hpc | closes_write res hpc =>
    have hret := h.joined (by rw [hpc]; rfl)
    have hclosed := h.closed
    rw [hpc] at hclosed
    simp only [main_pc.closed, Prod.mk.injEq] at hclosed
    exact h.of_main hset (by simp [main_pc.closed, hclosed]) (fun _ => hret) (by simp)

theorem Threaded.run {ls : List Label} (h : Threaded p)
    (hr : signal_machine.run p ls = some q) : Threaded q :=
  machine.Machine.run_invariant (C := fun _ _ => True) (fun _ _ _ hp _ hs => hp.step hs) h
    (machine.Machine.meets_of_all (fun _ _ => trivial) _ _) hr

/-- A byte in the pipe is there because of the flag. -/
theorem Threaded.flag (h : Threaded p) (hbyte : 0 < p.pipe_bytes) : p.g_should_shutdown = true := by
  have hwrote := h.wrote
  unfold Wrote at hwrote
  split at hwrote
  case h_5 => exact hwrote.1
  all_goals omega

theorem Threaded.returned (h : Threaded p) (hbyte : 0 < p.pipe_bytes) :
    ∃ signal, p.thread = .returned (some signal) := by
  have hwrote := h.wrote
  unfold Wrote at hwrote
  split at hwrote
  case h_5 signal hpc => exact ⟨signal, hpc⟩
  all_goals omega

theorem Threaded.one_byte (h : Threaded p) : p.pipe_bytes ≤ 1 := by
  have hwrote := h.wrote
  unfold Wrote at hwrote
  split at hwrote
  all_goals omega

/-- Until the thread has returned, the pipe is empty and both ends are open. -/
theorem Threaded.empty (h : Threaded p) (hgo : has_returned p.thread = false) :
    p.pipe_bytes = 0 ∧ p.read_closed = false ∧ p.write_closed = false := by
  have hnot : p.main.joined = false := by
    rw [← Bool.not_eq_true]
    intro hin
    rw [h.joined hin] at hgo
    cases hgo
  refine ⟨?_, Prod.mk.inj (h.closed.trans (closed_of_joined hnot))⟩
  have hwrote := h.wrote
  unfold Wrote at hwrote
  split at hwrote
  case h_5 hpc =>
    rw [hpc] at hgo
    cases hgo
  all_goals exact hwrote.2

/-- Behind the flag, the thread is about to write its byte, or it has returned. -/
theorem Threaded.behind_flag (h : Threaded p) (hflag : p.g_should_shutdown = true) :
    (∃ signal, p.thread = .write signal) ∨
      ((∃ signal, p.thread = .returned (some signal)) ∧ 0 < p.pipe_bytes) := by
  have hwrote := h.wrote
  unfold Wrote at hwrote
  split at hwrote
  case h_4 signal hpc => exact Or.inl ⟨signal, hpc⟩
  case h_5 signal hpc => exact Or.inr ⟨⟨signal, hpc⟩, by omega⟩
  all_goals simp [hflag] at hwrote

/-- Before the flag, the thread waits for a signal, or it looks at one. -/
theorem Threaded.before_flag (h : Threaded p) (hflag : p.g_should_shutdown = false)
    (hgo : has_returned p.thread = false) :
    p.thread = .sigwait ∨ ∃ signal, p.thread = .check signal := by
  have hwrote := h.wrote
  unfold Wrote at hwrote
  split at hwrote
  case h_1 hpc => exact Or.inl hpc
  case h_2 signal hpc => exact Or.inr ⟨signal, hpc⟩
  case h_3 hpc =>
    rw [hpc] at hgo
    cases hgo
  all_goals simp [hflag] at hwrote

end pingpong.signals
