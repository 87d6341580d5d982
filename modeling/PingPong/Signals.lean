-- The signals of `main.c`: the set that the signal thread waits for, the loop of
-- that thread, and how main stops it when no signal has ended the server.
import PingPong.Lib.Machine

namespace pingpong.signals

inductive signal_t
  | SIGPIPE
  | SIGINT
  | SIGTERM
  | SIGUSR1
  deriving DecidableEq, Repr

open signal_t

/-! ## The set up -/

/-- The results of the calls of `setup_signal_handler_thread`. -/
structure setup_outs where
  sigemptyset : Int
  add_SIGPIPE : Int
  add_SIGINT : Int
  add_SIGTERM : Int
  pthread_sigmask : Int
  pthread_create : Int
  deriving DecidableEq, Repr

/-- `thread_mask` is the mask that the new thread inherits, if there is one. -/
structure setup_result where
  err : Int
  sigset : List signal_t
  mask : List signal_t
  thread_mask : Option (List signal_t)
  deriving DecidableEq, Repr

/-- `mask` is the mask of main, with all that was blocked before. -/
def setup_signal_handler_thread (o : setup_outs) (mask : List signal_t) : setup_result :=
  if o.sigemptyset ≠ 0 then ⟨o.sigemptyset, [], mask, none⟩
  else if o.add_SIGPIPE ≠ 0 then ⟨o.add_SIGPIPE, [], mask, none⟩
  else if o.add_SIGINT ≠ 0 then ⟨o.add_SIGINT, [SIGPIPE], mask, none⟩
  else if o.add_SIGTERM ≠ 0 then ⟨o.add_SIGTERM, [SIGPIPE, SIGINT], mask, none⟩
  else
    let sigset := [SIGPIPE, SIGINT, SIGTERM]
    if o.pthread_sigmask ≠ 0 then ⟨o.pthread_sigmask, sigset, mask, none⟩
    else
      let mask := mask ++ sigset
      if o.pthread_create ≠ 0 then ⟨o.pthread_create, sigset, mask, none⟩
      else ⟨0, sigset, mask, some mask⟩

theorem setup_spec {o : setup_outs} {mask : List signal_t}
    (h : (setup_signal_handler_thread o mask).err = 0) :
    setup_signal_handler_thread o mask =
      ⟨0, [SIGPIPE, SIGINT, SIGTERM], mask ++ [SIGPIPE, SIGINT, SIGTERM],
        some (mask ++ [SIGPIPE, SIGINT, SIGTERM])⟩ := by
  unfold setup_signal_handler_thread at h ⊢
  repeat' split at h
  all_goals simp_all

/-! ## The process -/

/-- The points of `signal_thread_fn`. It has returned through the branch of a signal, or after a
`sigwait` that failed. -/
inductive thread_pc
  | sigwait
  | check (signal : signal_t)
  | write (signal : signal_t)
  | returned (last : Option signal_t)
  deriving DecidableEq, Repr

/-- The points of main from `join_sig_thread` on, with its result. Before that it serves. -/
inductive main_pc
  | serving
  | join_sig_thread (res : Int)
  | pthread_kill (res : Int)
  | pthread_join (res : Int)
  | close_read (res : Int)
  | close_write (res : Int)
  | returned (res : Int)
  deriving DecidableEq, Repr

/-- `pending` are the signals that a thread blocks and no `sigwait` has taken. `ended` is the
signal whose default action has ended the process. -/
structure Process where
  sigset : List signal_t
  thread_mask : List signal_t
  pending : List signal_t
  thread : thread_pc
  main : main_pc
  g_should_shutdown : Bool
  pipe_bytes : Nat
  read_closed : Bool
  write_closed : Bool
  ended : Option signal_t
  deriving DecidableEq, Repr

/-- The process after the set up. -/
def after_setup (o : setup_outs) (mask : List signal_t) : Process :=
  let r := setup_signal_handler_thread o mask
  ⟨r.sigset, r.thread_mask.getD [], [], .sigwait, .serving, false, 0, false, false, none⟩

def has_returned : thread_pc → Bool
  | .returned _ => true
  | _ => false

/-- A signal that is sent to the signal thread. No handler is installed for any signal, so one
that the thread does not block takes its default action: it ends the process. -/
def deliver (signal : signal_t) (p : Process) : Process :=
  if has_returned p.thread then p
  else if signal ∈ p.thread_mask then { p with pending := p.pending.insert signal }
  else { p with ended := some signal }

/-- One step of `signal_thread_fn` behind its `sigwait`. -/
def thread_step (p : Process) : Option Process :=
  match p.thread with
  | .check signal =>
    if signal = SIGINT ∨ signal = SIGTERM then
      some { p with g_should_shutdown := true, thread := .write signal }
    else if signal = SIGUSR1 then some { p with thread := .returned (some signal) }
    else some { p with thread := .sigwait }
  | .write signal =>
    some { p with pipe_bytes := p.pipe_bytes + 1, thread := .returned (some signal) }
  | .sigwait | .returned _ => none

/-- One step of main behind its loop. The join waits for the thread. -/
def main_step (p : Process) : Option Process :=
  match p.main with
  | .join_sig_thread res =>
    some { p with main := if p.g_should_shutdown then .pthread_join res else .pthread_kill res }
  | .pthread_kill res => some { deliver SIGUSR1 p with main := .pthread_join res }
  | .pthread_join res =>
    if has_returned p.thread then some { p with main := .close_read res } else none
  | .close_read res => some { p with read_closed := true, main := .close_write res }
  | .close_write res => some { p with write_closed := true, main := .returned res }
  | .serving | .returned _ => none

/-- A signal comes from outside, `sigwait` takes a signal of its set or fails, the signal thread
goes on, main leaves with a result from any point, or main goes on. -/
inductive Label
  | arrives (signal : signal_t)
  | sigwait (signal : signal_t)
  | sigwait_fails
  | thread
  | leave (res : Int)
  | main
  deriving DecidableEq, Repr

/-- From outside come the signals that every thread blocks. -/
def step (p : Process) (l : Label) : Option Process :=
  if p.ended ≠ none then none
  else match l with
    | .arrives signal =>
      if signal ∈ p.sigset then some { p with pending := p.pending.insert signal } else none
    | .sigwait signal =>
      if p.thread = .sigwait ∧ signal ∈ p.sigset ∧ signal ∈ p.pending then
        some { p with pending := p.pending.erase signal, thread := .check signal }
      else none
    | .sigwait_fails =>
      if p.thread = .sigwait then some { p with thread := .returned none } else none
    | .thread => thread_step p
    | .leave res =>
      if p.main = .serving then some { p with main := .join_sig_thread res } else none
    | .main => main_step p

def signal_machine : machine.Machine Process Label := ⟨step⟩

/-! ## The way out -/

/-- The signal thread has taken SIGUSR1, through its branch, and main has closed both ends of the
pipe and returned `res`. -/
structure HandedOver (res : Int) (p : Process) : Prop where
  alive : p.ended = none
  taken : p.thread = .returned (some SIGUSR1)
  returned : p.main = .returned res
  closed : p.read_closed = true ∧ p.write_closed = true

/-- Some run from `p` hands over. -/
def MayHandOver (res : Int) (p : Process) : Prop :=
  ∃ ls q, signal_machine.run p ls = some q ∧ HandedOver res q

/-- The signals that the signal thread may have taken. -/
def InTheSet : thread_pc → Prop
  | .sigwait | .returned none => True
  | .check signal | .write signal | .returned (some signal) => signal ≠ SIGUSR1

/-- The set is that of the set up, and the mask of the thread has it and what was blocked
before. -/
structure SetUp (mask : List signal_t) (p : Process) : Prop where
  sigset : p.sigset = [SIGPIPE, SIGINT, SIGTERM]
  thread_mask : p.thread_mask = mask ++ [SIGPIPE, SIGINT, SIGTERM]
  thread : InTheSet p.thread

theorem after_setup_spec {o : setup_outs} {mask : List signal_t}
    (h : (setup_signal_handler_thread o mask).err = 0) : SetUp mask (after_setup o mask) := by
  unfold after_setup
  rw [setup_spec h]
  exact ⟨rfl, rfl, trivial⟩

variable {mask : List signal_t} {p q : Process}

@[simp] theorem deliver_sigset (signal : signal_t) (p : Process) :
    (deliver signal p).sigset = p.sigset := by
  unfold deliver
  split
  · rfl
  · split <;> rfl

@[simp] theorem deliver_thread_mask (signal : signal_t) (p : Process) :
    (deliver signal p).thread_mask = p.thread_mask := by
  unfold deliver
  split
  · rfl
  · split <;> rfl

@[simp] theorem deliver_thread (signal : signal_t) (p : Process) :
    (deliver signal p).thread = p.thread := by
  unfold deliver
  split
  · rfl
  · split <;> rfl

/-- Main leaves the signal thread alone but for the signal. -/
theorem main_step_spec (h : main_step p = some q) :
    q.sigset = p.sigset ∧ q.thread_mask = p.thread_mask ∧ q.thread = p.thread := by
  unfold main_step at h
  split at h
  case h_3 =>
    split at h
    · cases h
      exact ⟨rfl, rfl, rfl⟩
    · cases h
  all_goals cases h
  all_goals simp

theorem SetUp.thread_step (hp : SetUp mask p) (h : thread_step p = some q) : SetUp mask q := by
  have hthread := hp.thread
  unfold signals.thread_step at h
  split at h
  next signal hpc =>
    rw [hpc] at hthread
    split at h
    · cases h
      exact ⟨hp.sigset, hp.thread_mask, hthread⟩
    · split at h
      · cases h
        exact ⟨hp.sigset, hp.thread_mask, hthread⟩
      · cases h
        exact ⟨hp.sigset, hp.thread_mask, trivial⟩
  next signal hpc =>
    rw [hpc] at hthread
    cases h
    exact ⟨hp.sigset, hp.thread_mask, hthread⟩
  next => cases h
  next => cases h

/-- What `sigwait` takes is in the set, and SIGUSR1 is not. -/
theorem SetUp.step {l : Label} (hp : SetUp mask p) (h : step p l = some q) : SetUp mask q := by
  unfold signals.step at h
  split at h
  · cases h
  · cases l with
    | arrives signal =>
      simp only [Option.ite_none_right_eq_some, Option.some.injEq] at h
      rw [← h.2]
      exact ⟨hp.sigset, hp.thread_mask, hp.thread⟩
    | sigwait signal =>
      simp only [Option.ite_none_right_eq_some, Option.some.injEq] at h
      obtain ⟨⟨-, hset, -⟩, rfl⟩ := h
      refine ⟨hp.sigset, hp.thread_mask, ?_⟩
      intro he
      rw [hp.sigset, he] at hset
      simp at hset
    | sigwait_fails =>
      simp only [Option.ite_none_right_eq_some, Option.some.injEq] at h
      rw [← h.2]
      exact ⟨hp.sigset, hp.thread_mask, trivial⟩
    | thread => exact hp.thread_step h
    | leave res =>
      simp only [Option.ite_none_right_eq_some, Option.some.injEq] at h
      rw [← h.2]
      exact ⟨hp.sigset, hp.thread_mask, hp.thread⟩
    | main =>
      obtain ⟨hsigset, hmask, hthread⟩ := main_step_spec h
      exact ⟨hsigset.trans hp.sigset, hmask.trans hp.thread_mask, by rw [hthread]; exact hp.thread⟩

theorem SetUp.run {ls : List Label} (hp : SetUp mask p) (h : signal_machine.run p ls = some q) :
    SetUp mask q :=
  machine.Machine.run_invariant (C := fun _ _ => True) (fun _ _ _ hp _ hs => hp.step hs) hp
    (machine.Machine.meets_of_all (fun _ _ => trivial) _ _) h

theorem SetUp.not_handedOver (hp : SetUp mask p) (res : Int) : ¬ MayHandOver res p := by
  rintro ⟨ls, q, hrun, hq⟩
  have hthread := (hp.run hrun).thread
  rw [hq.taken] at hthread
  exact hthread rfl

/-- In every run after the set up, when main is about to send SIGUSR1, the signal thread will
never take it. Where the process did not start with SIGUSR1 blocked, and the thread still waits,
the signal ends the process. -/
theorem the_signal_thread_never_takes_sigusr1 {o : setup_outs} {ls : List Label} {res : Int}
    (hsetup : (setup_signal_handler_thread o mask).err = 0)
    (hrun : signal_machine.run (after_setup o mask) ls = some p)
    (hkill : p.main = .pthread_kill res) :
    ¬ MayHandOver res p ∧
    (SIGUSR1 ∉ mask → has_returned p.thread = false → p.ended = none →
      ∃ q, signal_machine.step p .main = some q ∧ q.ended = some SIGUSR1 ∧
        ∀ l, signal_machine.step q l = none) := by
  have hp : SetUp mask p := (after_setup_spec hsetup).run hrun
  refine ⟨hp.not_handedOver res, fun hmask hwaits halive => ?_⟩
  have hopen : SIGUSR1 ∉ p.thread_mask := by
    simp [hp.thread_mask, hmask]
  refine ⟨{ p with ended := some SIGUSR1, main := .pthread_join res }, ?_, rfl, ?_⟩
  · simp [signal_machine, step, main_step, hkill, deliver, halive, hwaits, hopen]
  · intro l
    simp [signal_machine, step]

/-- All calls of the set up succeed. -/
def no_failure : setup_outs := ⟨0, 0, 0, 0, 0, 0⟩

/-- A SIGPIPE is taken, and then main leaves with -1, as when `connmgr_init` fails. -/
def leaves_early : List Label :=
  [.arrives SIGPIPE, .sigwait SIGPIPE, .thread, .leave (-1), .main]

theorem an_early_leave_ends_the_process :
    ∃ p, signal_machine.run (after_setup no_failure []) leaves_early = some p ∧
      ¬ MayHandOver (-1) p := by
  have hrun : signal_machine.run (after_setup no_failure []) leaves_early =
      some { after_setup no_failure [] with main := .pthread_kill (-1) } := by decide
  exact ⟨_, hrun, (the_signal_thread_never_takes_sigusr1 (by decide) hrun rfl).1⟩

/-- Nothing is blocked at the start, no signal comes, and main leaves at once. -/
theorem sigusr1_is_not_handed_over :
    ¬ ∀ (o : setup_outs) (mask : List signal_t) (ls : List Label) (p : Process) (res : Int),
      (setup_signal_handler_thread o mask).err = 0 →
      signal_machine.run (after_setup o mask) ls = some p → p.main = .pthread_kill res →
        MayHandOver res p := by
  intro h
  have hrun : signal_machine.run (after_setup no_failure []) [.leave (-1), .main] =
      some { after_setup no_failure [] with main := .pthread_kill (-1) } := by decide
  have hp : SetUp [] { after_setup no_failure [] with main := .pthread_kill (-1) } :=
    (after_setup_spec (o := no_failure) (by decide)).run hrun
  exact hp.not_handedOver (-1) (h no_failure [] _ _ (-1) (by decide) hrun rfl)

end pingpong.signals
