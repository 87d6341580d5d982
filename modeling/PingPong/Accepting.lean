-- A whole call of `nl_accept`: the turns of its loop one by one, its result, and what becomes of
-- the descriptors that `accept` gives.
import PingPong.Creating
import PingPong.Descriptors

namespace pingpong.descriptors

open connmgr ezqueue netio

/-! ## The loop -/

/-- What the calls of a turn do, and the `errno` of an `accept` that fails. -/
structure turn_outs where
  outs : accept_outs
  errno : errno_t

/-- Why the loop is left: the limit, an `accept` that has failed, or a client that cannot be
set up. -/
inductive stop_reason
  | limit
  | accept (errno : errno_t)
  | failed
  deriving DecidableEq, Repr

/-- `nl_accept` at the head of its loop, or behind it. `accepted` are the descriptors that
`accept` has given, in order. -/
structure Accepting where
  conns : Manager
  errno : errno_t
  accepted : List Int
  stop : Option stop_reason

/-- Calls that succeed leave `errno` as it is, and a `malloc` that fails leaves `ENOMEM`. In a turn
that fails nobody reads it again. -/
def errno_after (o : turn_outs) (m : conn_mgr_t) (errno : errno_t) : errno_t :=
  if at_limit m then errno
  else if o.outs.clifd = -1 then o.errno
  else if BufferMissing o.outs.clifd .INBOUND_CONN o.outs.create then .other
  else errno

def nl_accept_turn (a : Accepting) (o : turn_outs) : Option Accepting :=
  if a.stop ≠ none then none
  else (accept_turn o.outs a.conns).map fun (e, s) =>
    { conns := s
      errno := errno_after o a.conns.mgr a.errno
      accepted := a.accepted ++ accepted o.outs a.conns.mgr
      stop := match e with
        | .next => none
        | .left => some (if at_limit a.conns.mgr then .limit else .accept o.errno)
        | .failed => some .failed }

def accept_machine : machine.Machine Accepting turn_outs := ⟨nl_accept_turn⟩

/-- `nl_accept` when it is called. -/
def entered (s : Manager) (errno : errno_t) : Accepting := ⟨s, errno, [], none⟩

/-- The test of `errno`. -/
def drained (errno : errno_t) : Prop := errno = .EAGAIN ∨ errno = .EWOULDBLOCK

instance : DecidablePred drained := fun errno =>
  inferInstanceAs (Decidable (errno = .EAGAIN ∨ errno = .EWOULDBLOCK))

/-- What `nl_accept` returns: behind the loop it looks at `errno`, whatever has left the loop. -/
def Accepting.res (a : Accepting) : Int :=
  if a.stop ≠ some .failed ∧ drained a.errno then 0 else -1

theorem turn_some {a a' : Accepting} {o : turn_outs} (h : nl_accept_turn a o = some a') :
    a.stop = none ∧ ∃ e, accept_turn o.outs a.conns = some (e, a'.conns) ∧
      a'.errno = errno_after o a.conns.mgr a.errno ∧
      a'.accepted = a.accepted ++ accepted o.outs a.conns.mgr ∧
      a'.stop = match e with
        | .next => none
        | .left => some (if at_limit a.conns.mgr then .limit else .accept o.errno)
        | .failed => some .failed := by
  unfold nl_accept_turn at h
  split at h
  · cases h
  · rename_i hstop
    obtain ⟨⟨e, s⟩, ht, rfl⟩ := Option.map_eq_some_iff.mp h
    exact ⟨not_not.mp hstop, e, ht, rfl, rfl, rfl⟩

/-- A call that is behind its loop takes no turn more. -/
theorem run_stopped {a a' : Accepting} {os : List turn_outs} (hstop : a.stop ≠ none)
    (h : accept_machine.run a os = some a') : os = [] ∧ a' = a := by
  cases os with
  | nil =>
    cases h
    exact ⟨rfl, rfl⟩
  | cons o os =>
    obtain ⟨b, hb, -⟩ := (accept_machine.run_cons).mp h
    exact absurd (turn_some hb).1 hstop

/-! ## The descriptors -/

/-- The descriptors of some contexts. -/
def fds_of (ctxs : heap) (ps : List ptr) : List Int :=
  ps.filterMap fun p => (ctxs.lookup p).map fun c => c.fd

/-- From `s` on the call has appended the contexts `ps` to the queue, and closed the descriptors
of `closed`. -/
structure Did (s : Manager) (a : Accepting) (ps : List ptr) (closed : List Int) : Prop where
  appended : content a.conns.mgr.p_new_conns = content s.mgr.p_new_conns ++ ps
  closings : a.conns.closed = s.closed ++ closed

/-- As often as `accept` has given a descriptor, it is the descriptor of an appended context or
it was closed: a descriptor that was given once is one of the two, once. -/
def NoneLeaked (s : Manager) (a : Accepting) : Prop :=
  ∃ ps closed, Did s a ps closed ∧
    ∀ fd, (fds_of a.conns.ctxs ps).count fd + closed.count fd = a.accepted.count fd

/-- The same with the descriptors that the call has lost so far. -/
structure Ledger (s : Manager) (a : Accepting) (ps : List ptr) (closed leaked : List Int) : Prop
    extends Did s a ps closed where
  ring : Ring a.conns.mgr.p_new_conns
  live : ∀ p ∈ ps, p ∈ a.conns.ctxs
  counts : ∀ fd, (fds_of a.conns.ctxs ps).count fd + closed.count fd + leaked.count fd =
    a.accepted.count fd

/-- No descriptor is lost in the turn: neither a `fcntl` of `nl_set_nonblocking` fails, nor is a
buffer missing. -/
def SetUp (a : Accepting) (o : turn_outs) : Prop :=
  at_limit a.conns.mgr = false → o.outs.clifd ≠ -1 →
    nl_set_nonblocking o.outs.fcntl ≠ -1 ∧
      ¬ BufferMissing o.outs.clifd .INBOUND_CONN o.outs.create

theorem fds_of_insert {ctxs : heap} {p : ptr} {c : conn_ctx_t} {ps : List ptr}
    (hps : ∀ p ∈ ps, p ∈ ctxs) (hp : p ∉ ctxs) :
    fds_of (ctxs.insert p c) (ps ++ [p]) = fds_of ctxs ps ++ [c.fd] := by
  unfold fds_of
  rw [List.filterMap_append]
  congr 1
  · apply List.filterMap_congr
    intro q hq
    have hne : q ≠ p := by
      rintro rfl
      exact hp (hps q hq)
    rw [AList.lookup_insert_ne hne]
  · simp [AList.lookup_insert]

section Turn

variable {s : Manager} {a a' : Accepting} {ps : List ptr} {closed leaked : List Int}

/-- Nothing has changed but the descriptors that `accept` has given. -/
theorem Ledger.same (h : Ledger s a ps closed leaked) {more : List Int}
    (hconns : a'.conns = a.conns) (hacc : a'.accepted = a.accepted ++ more) :
    Ledger s a' ps closed (leaked ++ more) := by
  refine ⟨⟨hconns ▸ h.appended, hconns ▸ h.closings⟩, hconns ▸ h.ring, hconns ▸ h.live, ?_⟩
  intro fd
  have hcount := h.counts fd
  rw [hconns, hacc, List.count_append, List.count_append]
  omega

/-- The descriptor of a client without a context is closed. -/
theorem Ledger.closes (h : Ledger s a ps closed leaked) {clifd : Int}
    (hconns : { a.conns with closed := a.conns.closed ++ [clifd] } = a'.conns)
    (hacc : a'.accepted = a.accepted ++ [clifd]) :
    Ledger s a' ps (closed ++ [clifd]) leaked := by
  refine ⟨⟨?_, ?_⟩, ?_, ?_, fun fd => ?_⟩
  · rw [← hconns]
    exact h.appended
  · rw [← hconns, ← List.append_assoc, ← h.closings]
  · rw [← hconns]
    exact h.ring
  · rw [← hconns]
    exact h.live
  · have hcount := h.counts fd
    rw [← hconns, hacc, List.count_append, List.count_append]
    simp only
    omega

theorem Ledger.appends (h : Ledger s a ps closed leaked) {clifd : Int} {type : conn_type_t}
    (hreg : Registered clifd type a.conns a'.conns)
    (hacc : a'.accepted = a.accepted ++ [clifd]) :
    ∃ p, Ledger s a' (ps ++ [p]) closed leaked := by
  obtain ⟨p, c, q, hnew, hfd, -, hring, hcont, hconns⟩ := hreg
  refine ⟨p, ⟨?_, ?_⟩, ?_, fun p' hp' => ?_, fun fd => ?_⟩
  · rw [hconns, ← List.append_assoc, ← h.appended]
    exact hcont
  · rw [hconns]
    exact h.closings
  · rw [hconns]
    exact hring
  · rw [hconns]
    rcases List.mem_append.mp hp' with hp' | hp'
    · exact (AList.mem_insert _).mpr (Or.inr (h.live p' hp'))
    · exact (AList.mem_insert _).mpr (Or.inl (List.mem_singleton.mp hp'))
  · have hcount := h.counts fd
    rw [hconns, hacc, List.count_append]
    simp only [fds_of_insert h.live hnew, hfd, List.count_append]
    omega

/-- A turn loses the descriptor that it got exactly when it is not set up. -/
theorem Ledger.turn {o : turn_outs} (h : Ledger s a ps closed leaked)
    (ht : nl_accept_turn a o = some a') :
    ∃ ps' closed' more, Ledger s a' ps' closed' (leaked ++ more) ∧ (more = [] ↔ SetUp a o) := by
  obtain ⟨-, e, he, -, hacc, -⟩ := turn_some ht
  unfold accept_turn at he
  unfold accepted at hacc
  by_cases hlimit : at_limit a.conns.mgr = true
  · rw [if_pos hlimit] at he
    rw [if_pos (Or.inl hlimit)] at hacc
    obtain ⟨-, hconns⟩ := Prod.mk.inj (Option.some.inj he)
    exact ⟨ps, closed, [], h.same hconns.symm hacc,
      iff_of_true rfl fun hl => by simp [hl] at hlimit⟩
  rw [if_neg hlimit] at he
  by_cases hfd : o.outs.clifd = -1
  · rw [if_pos hfd] at he
    rw [if_pos (Or.inr hfd)] at hacc
    obtain ⟨-, hconns⟩ := Prod.mk.inj (Option.some.inj he)
    exact ⟨ps, closed, [], h.same hconns.symm hacc, iff_of_true rfl fun _ hne => absurd hfd hne⟩
  rw [if_neg hfd] at he
  rw [if_neg (not_or.mpr ⟨hlimit, hfd⟩)] at hacc
  have hlimit : at_limit a.conns.mgr = false := Bool.eq_false_iff.mpr hlimit
  by_cases hblock : nl_set_nonblocking o.outs.fcntl = -1
  · rw [if_pos hblock] at he
    obtain ⟨-, hconns⟩ := Prod.mk.inj (Option.some.inj he)
    exact ⟨ps, closed, [o.outs.clifd], h.same hconns.symm hacc,
      iff_of_false (by simp) fun hset => (hset hlimit hfd).1 hblock⟩
  rw [if_neg hblock] at he
  obtain ⟨r, hr, he⟩ := Option.map_eq_some_iff.mp he
  have hclose : r.state = a.conns → r.res ≠ 0 →
      Ledger s a' ps (closed ++ [o.outs.clifd]) (leaked ++ []) := by
    intro hstate hres
    rw [if_pos hres, hstate] at he
    rw [List.append_nil]
    exact h.closes (Prod.mk.inj he).2 hacc
  cases CreateEnd.of_some h.ring hr with
  | unfinished state res back buffers =>
    exact ⟨ps, _, [], hclose state res, iff_of_true rfl fun _ _ => ⟨hblock, buffers⟩⟩
  | missing state res back some_back buffers =>
    rw [if_neg (not_not.mpr res), state] at he
    exact ⟨ps, closed, [o.outs.clifd], h.same (Prod.mk.inj he).2.symm hacc,
      iff_of_false (by simp) fun hset => (hset hlimit hfd).2 buffers⟩
  | refused state res released acquired buffers =>
    exact ⟨ps, _, [], hclose state res, iff_of_true rfl fun _ _ => ⟨hblock, buffers⟩⟩
  | registered state res released buffers =>
    rw [if_neg (not_not.mpr res)] at he
    rw [(Prod.mk.inj he).2] at state
    obtain ⟨p, hl⟩ := h.appends state hacc
    exact ⟨ps ++ [p], closed, [], by rwa [List.append_nil],
      iff_of_true rfl fun _ _ => ⟨hblock, buffers⟩⟩

end Turn

theorem Ledger.run {s : Manager} {os : List turn_outs} : ∀ {a a' : Accepting} {ps : List ptr}
    {closed leaked : List Int}, Ledger s a ps closed leaked →
    accept_machine.run a os = some a' →
    ∃ ps' closed' more, Ledger s a' ps' closed' (leaked ++ more) ∧
      (more = [] ↔ accept_machine.Meets SetUp a os) := by
  induction os with
  | nil =>
    intro a a' ps closed leaked h hr
    cases hr
    exact ⟨ps, closed, [], by rwa [List.append_nil], iff_of_true rfl trivial⟩
  | cons o os ih =>
    intro a a' ps closed leaked h hr
    obtain ⟨b, hb, hr⟩ := accept_machine.run_cons.mp hr
    obtain ⟨ps1, closed1, lost, h1, hset⟩ := h.turn hb
    obtain ⟨ps2, closed2, more, h2, hmeets⟩ := ih h1 hr
    refine ⟨ps2, closed2, lost ++ more, by rwa [← List.append_assoc], ?_⟩
    rw [machine.Machine.meets_cons_of_step hb, List.append_eq_nil_iff, hset, hmeets]

theorem ledger_entered {s : Manager} (hq : Ring s.mgr.p_new_conns) (errno : errno_t) :
    Ledger s (entered s errno) [] [] [] :=
  ⟨⟨(List.append_nil _).symm, (List.append_nil _).symm⟩, hq, nofun, fun _ => rfl⟩

/-- After any turns of a call, and so when it returns, no descriptor is lost if and only if in each
turn that got one `nl_set_nonblocking` has succeeded and no buffer was missing. -/
theorem no_descriptor_is_lost_iff_every_client_is_set_up {s : Manager} {errno : errno_t}
    {os : List turn_outs} {a : Accepting} (hq : Ring s.mgr.p_new_conns)
    (hrun : accept_machine.run (entered s errno) os = some a) :
    NoneLeaked s a ↔ accept_machine.Meets SetUp (entered s errno) os := by
  obtain ⟨ps, closed, leaked, h, hmeets⟩ := (ledger_entered hq errno).run hrun
  rw [← hmeets]
  rw [List.nil_append] at h
  constructor
  · rintro ⟨ps', closed', hdid, hcounts⟩
    have hps : ps' = ps := by
      have := h.appended
      rw [hdid.appended] at this
      exact List.append_cancel_left this
    have hclosed : closed' = closed := by
      have := h.closings
      rw [hdid.closings] at this
      exact List.append_cancel_left this
    rw [hps, hclosed] at hcounts
    rw [List.eq_nil_iff_forall_not_mem]
    intro fd hfd
    have hpos := List.count_pos_iff.mpr hfd
    have := h.counts fd
    have := hcounts fd
    omega
  · rintro rfl
    exact ⟨ps, closed, h.toDid, fun fd => by simpa using h.counts fd⟩

/-- A client with the descriptor 5, and all calls of its turn succeed. -/
def one_client : turn_outs := ⟨⟨5, ⟨0, 0⟩, all_succeed⟩, .other⟩

/-- There is no client. -/
def no_client : turn_outs := ⟨⟨-1, ⟨0, 0⟩, all_succeed⟩, .EAGAIN⟩

theorem the_descriptor_of_one_client_is_kept :
    ∃ a, accept_machine.run (entered one_slot .other) [one_client, no_client] = some a ∧
      a.stop = some (.accept .EAGAIN) ∧ a.accepted = [5] ∧ NoneLeaked one_slot a := by
  have hrun : accept_machine.run (entered one_slot .other) [one_client, no_client] = some _ := rfl
  refine ⟨_, hrun, rfl, rfl, ?_⟩
  refine (no_descriptor_is_lost_iff_every_client_is_set_up one_slot_ring hrun).mpr ?_
  refine ⟨fun _ _ => by decide, ?_⟩
  rintro b hb
  refine ⟨fun _ hne => absurd rfl hne, fun _ _ => trivial⟩

/-- The second `fcntl` of `nl_set_nonblocking` fails, and the descriptor is neither kept nor
closed. -/
theorem a_descriptor_that_blocks_is_lost :
    ¬ ∀ (s : Manager) (errno : errno_t) (os : List turn_outs) (a : Accepting),
      Ring s.mgr.p_new_conns → accept_machine.run (entered s errno) os = some a →
      a.stop ≠ none → NoneLeaked s a := by
  intro h
  obtain ⟨ps, closed, hdid, hcount⟩ := h one_slot .EAGAIN
    [⟨⟨5, ⟨0, -1⟩, all_succeed⟩, .other⟩] _ one_slot_ring rfl (by decide)
  have hps : ps = [] := (List.self_eq_append_right.mp hdid.appended)
  have hclosed : closed = [] := (List.self_eq_append_right.mp hdid.closings)
  have hfive := hcount 5
  rw [hps, hclosed] at hfive
  exact absurd hfive (by decide)

/-! ## The result -/

/-- What the call should return: neither the limit nor an empty backlog is an error. -/
def stop_reason.due : stop_reason → Int
  | .limit => 0
  | .accept errno => if drained errno then 0 else -1
  | .failed => -1

/-- The context of a client that a turn has got does not lack a buffer. -/
def BuffersGiven (a : Accepting) (o : turn_outs) : Prop :=
  at_limit a.conns.mgr = false → o.outs.clifd ≠ -1 →
    ¬ BufferMissing o.outs.clifd .INBOUND_CONN o.outs.create

/-- The loop is left at the limit, or when `accept` fails. -/
theorem left_iff {o : accept_outs} {s s' : Manager} {e : turn_end}
    (h : accept_turn o s = some (e, s')) : e = .left ↔ at_limit s.mgr = true ∨ o.clifd = -1 := by
  unfold accept_turn at h
  by_cases hlimit : at_limit s.mgr = true
  · rw [if_pos hlimit] at h
    cases h
    exact iff_of_true rfl (Or.inl hlimit)
  rw [if_neg hlimit] at h
  by_cases hfd : o.clifd = -1
  · rw [if_pos hfd] at h
    cases h
    exact iff_of_true rfl (Or.inr hfd)
  rw [if_neg hfd] at h
  refine iff_of_false ?_ (not_or.mpr ⟨hlimit, hfd⟩)
  split at h
  · cases h
    nofun
  · obtain ⟨r, -, h⟩ := Option.map_eq_some_iff.mp h
    split at h
    · cases h
      nofun
    · cases h
      nofun

/-- Unless `accept` fails, a turn leaves `errno` as it was, or leaves `ENOMEM`. -/
theorem errno_turn {a a' : Accepting} {o : turn_outs} (h : nl_accept_turn a o = some a')
    (hstop : a'.stop = none ∨ a'.stop = some .limit) :
    (BuffersGiven a o → a'.errno = a.errno) ∧ (¬ BuffersGiven a o → a'.errno = .other) := by
  obtain ⟨-, e, he, herrno, -, hs⟩ := turn_some h
  rw [herrno, errno_after]
  by_cases hlimit : at_limit a.conns.mgr = true
  · rw [if_pos hlimit]
    exact ⟨fun _ => rfl, fun hn => absurd (fun hl => by simp [hl] at hlimit) hn⟩
  rw [if_neg hlimit]
  by_cases hfd : o.outs.clifd = -1
  · rw [(left_iff he).mpr (Or.inr hfd), if_neg hlimit] at hs
    rw [hs] at hstop
    rcases hstop with hstop | hstop <;> cases hstop
  rw [if_neg hfd]
  have hlimit : at_limit a.conns.mgr = false := Bool.eq_false_iff.mpr hlimit
  by_cases hbuf : BufferMissing o.outs.clifd .INBOUND_CONN o.outs.create
  · rw [if_pos hbuf]
    exact ⟨fun hgiven => absurd hbuf (hgiven hlimit hfd), fun _ => rfl⟩
  · rw [if_neg hbuf]
    exact ⟨fun _ => rfl, fun hn => absurd (fun _ _ => hbuf) hn⟩

theorem errno_run {os : List turn_outs} : ∀ {a a' : Accepting},
    accept_machine.run a os = some a' → (a'.stop = none ∨ a'.stop = some .limit) →
    (accept_machine.Meets BuffersGiven a os → a'.errno = a.errno) ∧
      (¬ accept_machine.Meets BuffersGiven a os → a'.errno = .other) := by
  induction os with
  | nil =>
    intro a a' hr _
    cases hr
    exact ⟨fun _ => rfl, fun hn => absurd trivial hn⟩
  | cons o os ih =>
    intro a a' hr hstop
    obtain ⟨b, hb, hr⟩ := accept_machine.run_cons.mp hr
    rw [machine.Machine.meets_cons_of_step hb]
    by_cases hbstop : b.stop = none
    · obtain ⟨hgiven, hmissing⟩ := errno_turn hb (Or.inl hbstop)
      obtain ⟨hmeets, hnot⟩ := ih hr hstop
      refine ⟨fun h => (hmeets h.2).trans (hgiven h.1), fun h => ?_⟩
      by_cases hrest : accept_machine.Meets BuffersGiven b os
      · exact (hmeets hrest).trans (hmissing fun hg => h ⟨hg, hrest⟩)
      · exact hnot hrest
    · obtain ⟨rfl, rfl⟩ := run_stopped hbstop hr
      obtain ⟨hgiven, hmissing⟩ := errno_turn hb hstop
      exact ⟨fun h => hgiven h.1, fun h => hmissing fun hg => h ⟨hg, trivial⟩⟩

/-- The `errno` of an `accept` that fails is still there at the test. -/
theorem errno_of_accept {os : List turn_outs} {errno : errno_t} : ∀ {a a' : Accepting},
    a.stop = none → accept_machine.run a os = some a' → a'.stop = some (.accept errno) →
    a'.errno = errno := by
  induction os with
  | nil =>
    intro a a' hnone hr hstop
    cases hr
    rw [hnone] at hstop
    cases hstop
  | cons o os ih =>
    intro a a' hnone hr hstop
    obtain ⟨b, hb, hr⟩ := accept_machine.run_cons.mp hr
    by_cases hbstop : b.stop = none
    · exact ih hbstop hr hstop
    · obtain ⟨rfl, rfl⟩ := run_stopped hbstop hr
      obtain ⟨-, e, he, herrno, -, hs⟩ := turn_some hb
      rw [hstop] at hs
      cases e with
      | next => cases hs
      | failed => cases hs
      | left =>
        by_cases hlimit : at_limit a.conns.mgr = true
        · rw [if_pos hlimit] at hs
          cases hs
        · rw [if_neg hlimit] at hs
          cases hs
          rw [herrno, errno_after, if_neg hlimit]
          rw [if_pos (((left_iff he).mp rfl).resolve_left hlimit)]

/-! ## The call in `main` -/

/-- Where `main` is after some turns of a call. -/
def Accepting.main_pc (a : Accepting) : main_pc :=
  if a.stop = none then .accepting
  else if a.res = 0 then .dispatch else .cleanup_connections

theorem main_turn {a a' : Accepting} {o : turn_outs} {t : Main} (hpc : t.pc = .accepting)
    (hconns : t.conns = a.conns) (h : nl_accept_turn a o = some a') :
    ∃ t', main_step t (.accept o.outs a'.errno) = some t' ∧ t'.conns = a'.conns ∧
      t'.pc = a'.main_pc := by
  obtain ⟨-, e, he, -, -, hs⟩ := turn_some h
  unfold main_step
  simp only [if_pos hpc, hconns, he, Option.map_some]
  refine ⟨_, rfl, rfl, ?_⟩
  unfold Accepting.main_pc Accepting.res
  cases e with
  | next => simp [Main.goto, hs]
  | left =>
    simp only [Main.goto, hs, drained]
    by_cases hdrained : a'.errno = .EAGAIN ∨ a'.errno = .EWOULDBLOCK
    · rw [if_pos hdrained]
      split <;> simp [hdrained]
    · rw [if_neg hdrained]
      split <;> simp [hdrained]
  | failed => simp [Main.goto, hs]

/-- The turns of a call are steps of `main`, and `main` leaves its loop when the result is
not 0. -/
theorem main_run {os : List turn_outs} : ∀ {a a' : Accepting} {t : Main},
    t.pc = a.main_pc → t.conns = a.conns → accept_machine.run a os = some a' →
    ∃ ls t', main_machine.run t ls = some t' ∧ t'.conns = a'.conns ∧ t'.pc = a'.main_pc := by
  induction os with
  | nil =>
    intro a a' t hpc hconns hr
    cases hr
    exact ⟨[], t, rfl, hconns, hpc⟩
  | cons o os ih =>
    intro a a' t hpc hconns hr
    obtain ⟨b, hb, hr⟩ := accept_machine.run_cons.mp hr
    rw [Accepting.main_pc, if_pos (turn_some hb).1] at hpc
    obtain ⟨u, hu, huconns, hupc⟩ := main_turn hpc hconns hb
    obtain ⟨ls, t', hrun, hend⟩ := ih hupc huconns hr
    exact ⟨.accept o.outs b.errno :: ls, t', main_machine.run_cons.mpr ⟨u, hu, hrun⟩, hend⟩

/-- The result is the one that is due to the way in which the loop was left, if and only if at the
limit `errno` was that of an empty backlog when `nl_accept` was called, and no buffer was missing
since. `main` goes on with its loop when the result is 0, and only then. -/
theorem the_result_is_due_iff_the_limit_meets_an_empty_backlog {s : Manager} {errno : errno_t}
    {os : List turn_outs} {a : Accepting} {why : stop_reason}
    (hrun : accept_machine.run (entered s errno) os = some a) (hstop : a.stop = some why) :
    (a.res = why.due ↔ (why = .limit →
      drained errno ∧ accept_machine.Meets BuffersGiven (entered s errno) os)) ∧
    ∀ t : Main, t.pc = .accepting → t.conns = s → ∃ ls t', main_machine.run t ls = some t' ∧
      t'.conns = a.conns ∧ t'.pc = if a.res = 0 then .dispatch else .cleanup_connections := by
  refine ⟨?_, fun t hpc hconns => ?_⟩
  · unfold Accepting.res
    rw [hstop]
    cases why with
    | accept e =>
      rw [errno_of_accept rfl hrun hstop]
      exact iff_of_true (by simp [stop_reason.due]) nofun
    | failed => exact iff_of_true (by simp [stop_reason.due]) nofun
    | limit =>
      obtain ⟨hmeets, hnot⟩ := errno_run hrun (Or.inr hstop)
      have hdue : (if some stop_reason.limit ≠ some .failed ∧ drained a.errno then (0 : Int) else -1)
          = stop_reason.limit.due ↔ drained a.errno := by
        by_cases hd : drained a.errno
        · simp [hd, stop_reason.due]
        · simp [hd, stop_reason.due]
      rw [hdue, imp_iff_right rfl]
      by_cases hm : accept_machine.Meets BuffersGiven (entered s errno) os
      · rw [hmeets hm]
        exact (and_iff_left hm).symm
      · rw [hnot hm]
        exact iff_of_false (by decide) fun h => hm h.2
  · obtain ⟨ls, t', hr, hc, hp⟩ := main_run (t := t) (by simpa [Accepting.main_pc, entered]) hconns
      hrun
    refine ⟨ls, t', hr, hc, ?_⟩
    rw [hp, Accepting.main_pc, if_neg (by simp [hstop])]

/-- The `i`th connection of a server that is full. -/
def served (i : Nat) : Sigma fun _ : ptr => conn_ctx_t :=
  ⟨i + 1, inbound_ctx (i + 5) io_buf.zero io_buf.zero⟩

theorem served_nodupKeys (n : Nat) : ((List.range n).map served).NodupKeys := by
  unfold List.NodupKeys List.keys
  rw [List.map_map]
  exact List.nodup_range.map fun i j h => Nat.succ.inj h

/-- As many connections as the limit admits, all of them active. -/
def full_server : Manager where
  mgr :=
    { p_conns := ⟨(List.range 1025).map (fun i => i + 1), 1025, 1025⟩
      p_pfds := (List.range 1025).map fun i => ⟨i + 5, all_events, no_events⟩
      p_new_conns := ⟨[NULL], 0, 1, UINT16_MAX, UINT16_MAX⟩
      max_conns := 1025
      num_active_conns := 1025 }
  ctxs := ⟨(List.range 1025).map served, served_nodupKeys 1025⟩
  closed := []

/-- The last call before was an `accept` that found the backlog empty. -/
theorem a_full_server_goes_on_after_an_empty_backlog :
    ∃ a, accept_machine.run (entered full_server .EAGAIN) [one_client] = some a ∧
      a.stop = some .limit ∧ a.res = 0 := by
  have hlimit : at_limit full_server.mgr = true := by decide
  have hrun : accept_machine.run (entered full_server .EAGAIN) [one_client] = some _ := rfl
  refine ⟨_, hrun, rfl, ?_⟩
  refine (the_result_is_due_iff_the_limit_meets_an_empty_backlog hrun rfl).1.mpr
    fun _ => ⟨Or.inl rfl, ?_⟩
  exact ⟨fun hfree => absurd (hfree.symm.trans hlimit) (by decide), fun _ _ => trivial⟩

/-- A full server leaves its loop when an earlier call has left another `errno`. -/
theorem a_full_server_stops_after_another_error :
    ¬ ∀ (s : Manager) (errno : errno_t) (os : List turn_outs) (a : Accepting) (why : stop_reason),
      accept_machine.run (entered s errno) os = some a → a.stop = some why → a.res = why.due := by
  intro h
  exact absurd (h full_server .other [one_client] _ _ rfl rfl) (by decide)

end pingpong.descriptors
