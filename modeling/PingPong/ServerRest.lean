-- The server goes on until main has finished: its threads do not block each other, no wake-up is
-- lost, and main joins no worker that does not exit.
import PingPong.ServerPass

namespace pingpong.server

open concurinc connmgr mutex netio tally tasks

variable {n : Nat}

/-! ## Who can go on -/

/-- No thread wakes up without a signal in the step. -/
def ServerLabel.Calm : ServerLabel n → Prop
  | .call o | .worker _ o => o.spurious = false
  | .main _ | .task _ _ _ | .signal => True

instance : DecidablePred (ServerLabel.Calm (n := n))
  | .call o | .worker _ o => inferInstanceAs (Decidable (o.spurious = false))
  | .main _ | .task _ _ _ | .signal => inferInstanceAs (Decidable True)

/-- The steps of a thread whose pthread calls succeed. Only a signal wakes it. -/
def ServerLabel.Of (t : Thread n Unit) (l : ServerLabel n) : Prop :=
  l.thread = some t ∧ l.Ok ∧ l.Calm

/-- The thread can take a step. -/
def Server.Ready (host : ByteOrder) (s : Server n) (t : Thread n Unit) : Prop :=
  (server_machine host).Enabled (fun _ l => l.Of t) s

/-! ## What main keeps to -/

/-- Main destroys the pool, or it has. -/
def main_pc.ends : main_pc → Bool
  | .destroy_tpool | .finished => true
  | _ => false

/-- What holds all along, while the pthread calls succeed. -/
structure Ordered (host : ByteOrder) (s : Server n) : Prop where
  reachable : Reachable host (fun _ l => l.Ok) s
  holes : NoHoles s
  waits : (s.pool.clients ()).pc.inWait = true → s.main = .wait
  runs : s.main.ends = false → Running s.pool
  ending : s.main.ends = true → concurinc.Ending () s.pool

theorem main_pc.cur_in_loop {pc : main_pc} {conn : Nat} {p : ctx_id}
    (h : pc.cur = some (conn, p)) : pc.inCleanup = false := by
  cases pc with
  | destroy_all | destroy_queue | destroy_tpool | finished => cases h
  | _ => rfl

theorem ends_iff {pc : main_pc} : pc.ends = true ↔ pc = .destroy_tpool ∨ pc = .finished := by
  cases pc <;> simp [main_pc.ends]

namespace Ordered

variable {host : ByteOrder} {s s' : Server n}

theorem cur (h : Ordered host s) (conn : Nat) (p : ctx_id) (hcur : s.main.cur = some (conn, p)) :
    s.p_conns[conn]? = some (some p) := by
  obtain ⟨sfd, sigpipe_fd, hr⟩ := h.reachable
  have hlocks : Reachable host (fun _ l => l.LocksSucceed) s :=
    ⟨sfd, sigpipe_fd, hr.mono fun _ _ hok => hok.locks⟩
  exact ((inLoop_of_reachable hlocks).2 (main_pc.cur_in_loop hcur)).cur conn p hcur

theorem linked (h : Ordered host s) : Linked s := (kept_ctx_of_reachable h.reachable).1

theorem pass (h : Ordered host s) {o : main_outs} (hres : o.res = 0)
    (hs : main_step o s = some s') : MainPass s s' :=
  main_pass_cases hres h.holes h.cur hs

/-- Main begins and ends the calls of the pool. -/
theorem of_main (hn : 0 < n) (h : Ordered host s) {o : main_outs}
    (hreach : Reachable host (fun _ l => l.Ok) s') (hres : o.res = 0)
    (hs : main_step o s = some s') : Ordered host s' := by
  have hpass := h.pass hres hs
  have hgo : s.main ≠ .finished := by
    intro hpc
    unfold main_step at hs
    simp [hpc] at hs
  have hwaits : (s'.pool.clients ()).pc.inWait = true → s'.main = .wait := by
    refine fun hin => (hpass.waits hin).resolve_left fun hin => ?_
    -- main does not go on while a call of it is open
    have hopen : (s.pool.clients ()).pc ≠ .idle := by
      intro hidle
      rw [hidle] at hin
      cases hin
    rw [main_blocked (h.linked.in_call hopen) hopen o] at hs
    cases hs
  obtain ⟨-, ⟨hpool, hout, -⟩ | ⟨call, hidle, hpool, hbegins⟩⟩ := (main_step_cases hs).pool_cases
  · have hends : s'.main.ends = s.main.ends := by
      rw [Bool.eq_iff_iff, ends_iff, ends_iff]
      constructor
      · rintro (hpc | hpc)
        · rw [hpc] at hout
          cases hout
        · exact Or.inl (hpass.last.mp hpc)
      · exact fun hpc => Or.inr (hpass.last.mpr (hpc.resolve_right hgo))
    refine ⟨hreach, hpass.holes, hwaits, ?_, ?_⟩
    · rw [hends, hpool]
      exact h.runs
    · rw [hends, hpool]
      exact h.ending
  · have hrun : Running s.pool := by
      refine h.runs (Bool.eq_false_iff.mpr fun hends => ?_)
      have hin := hbegins.in_call
      rw [hpass.last.mpr ((ends_iff.mp hends).resolve_right hgo)] at hin
      cases hin
    have hends : s'.main.ends = true ↔ call = .destroy := by
      cases call with
      | submit t free_arg =>
        obtain ⟨conn, hpc⟩ := hbegins
        simp [hpc, main_pc.ends]
      | wait => simp [hbegins.1, main_pc.ends]
      | destroy => simp [hbegins.1, main_pc.ends]
    refine ⟨hreach, hpass.holes, hwaits, fun hnot => ?_, fun hin => ?_⟩
    · rw [hpool]
      refine hrun.goto hidle fun hcall => ?_
      rw [hends.mpr hcall] at hnot
      cases hnot
    · rw [hpool, hends.mp hin]
      exact .start () hrun.reachable (fun _ => hidle) (hrun.live hn).1

/-- A step that leaves main and `p_conns` alone, and is one of a thread in the pool, or none. -/
theorem of_pool (hn : 0 < n) (h : Ordered host s) (hreach : Reachable host (fun _ l => l.Ok) s')
    (hmain : s'.main = s.main) (hconns : s'.p_conns = s.p_conns)
    (hpool : s'.pool = s.pool ∨
      ∃ k : PoolLabel n Unit io_task, k.Ok ∧ (∃ t, k.thread = some t) ∧
        pool_step s.pool k = some s'.pool) : Ordered host s' := by
  have hholes : NoHoles s' := by
    unfold NoHoles
    rw [hmain, hconns]
    exact h.holes
  rcases hpool with hpool | ⟨k, hok, hthread, hs⟩
  · exact ⟨hreach, hholes, by rw [hpool, hmain]; exact h.waits, by rw [hpool, hmain]; exact h.runs,
      by rw [hpool, hmain]; exact h.ending⟩
  · have hpool := pool_of_reachable h.reachable
    refine ⟨hreach, hholes, fun hin => ?_, fun hnot => ?_, fun hin => ?_⟩
    · rw [hmain]
      by_contra hout
      have hwait := Bool.eq_false_iff.mpr fun hin => hout (h.waits hin)
      rw [no_wait_of_step hok hthread hwait hs] at hin
      cases hin
    · rw [hmain] at hnot
      exact (h.runs hnot).step hn hok hthread hs
    · rw [hmain] at hin
      exact (h.ending hin).step (tended_of_reachable hpool) hok hthread hs

theorem step (hn : 0 < n) {l : ServerLabel n} (h : Ordered host s) (hok : l.Ok)
    (hs : server_step host s l = some s') : Ordered host s' := by
  have hreach : Reachable host (fun _ l => l.Ok) s' := by
    obtain ⟨sfd, sigpipe_fd, hr⟩ := h.reachable
    exact ⟨sfd, sigpipe_fd, hr.step hok hs⟩
  cases l with
  | main o => exact h.of_main hn hreach hok hs
  | call o =>
    obtain ⟨pool, hpool, rfl⟩ := Option.map_eq_some_iff.mp hs
    exact h.of_pool hn hreach rfl rfl (Or.inr ⟨.client () o, hok, ⟨_, rfl⟩, hpool⟩)
  | worker w o =>
    cases server_step_cases hs with
    | worker _ _ pool hpool hrun =>
      exact h.of_pool hn hreach rfl rfl (Or.inr ⟨.worker w o, hok, ⟨_, rfl⟩, hpool⟩)
  | task w res outs =>
    cases server_step_cases hs with
    | task _ _ _ t hrun ht hmove =>
      obtain ⟨hpool, hmain, hconns, -⟩ := hmove.stays
      exact h.of_pool hn hreach hmain hconns (Or.inl hpool)
  | signal =>
    cases hs
    exact h.of_pool hn hreach rfl rfl (Or.inl rfl)

end Ordered

theorem ordered_new (host : ByteOrder) (sfd sigpipe_fd : Int) :
    Ordered host (new_server sfd sigpipe_fd : Server n) where
  reachable := ⟨sfd, sigpipe_fd, .start rfl⟩
  holes _ _ _ _ h := nomatch h
  waits h := nomatch h
  runs _ := ⟨.start rfl, rfl, fun _ => rfl⟩
  ending h := nomatch h

theorem ordered_of_reachable (hn : 0 < n) {host : ByteOrder} {s : Server n}
    (h : Reachable host (fun _ l => l.Ok) s) : Ordered host s := by
  obtain ⟨sfd, sigpipe_fd, hr⟩ := h
  refine machine.Machine.Reach.invariant (P := Ordered host) ?_ ?_ hr
  · rintro s rfl
    exact ordered_new host sfd sigpipe_fd
  · exact fun s l s' h hok hs => h.step hn hok hs

/-! ## The mutexes of the contexts -/

/-- No step destroys the mutex of a context. -/
theorem ServerStep.undestroyed {l : ServerLabel n} {s s' : Server n} (h : ServerStep s l s')
    {p : ctx_id} (hp : (s.ctxs p).mutex ≠ .destroyed) : (s'.ctxs p).mutex ≠ .destroyed := by
  have hunlock : ∀ t q res, ((s.unlock t q res).ctxs p).mutex ≠ .destroyed := by
    intro t q res
    unfold Server.unlock
    by_cases hpq : p = q
    · subst hpq
      rw [s.set_mutex_self]
      exact fun hgone => hp (Mutex.destroyed_of_unlock hgone)
    · rw [s.set_mutex_other _ hpq]
      exact hp
  have hlock : ∀ t q, ((s.set_mutex q (.held t)).ctxs p).mutex ≠ .destroyed := by
    intro t q
    by_cases hpq : p = q
    · subst hpq
      rw [s.set_mutex_self]
      nofun
    · rw [s.set_mutex_other _ hpq]
      exact hp
  have hlink : ∀ q k, ((s.set_link q k).ctxs p).mutex ≠ .destroyed := by
    intro q k
    rw [(s.set_link_keeps q k p).1]
    exact hp
  have hdestroy : ∀ q, ((s.destroy q).ctxs p).mutex ≠ .destroyed := by
    intro q
    rw [(s.destroy_keeps q p).2]
    exact hp
  cases h with
  | main o hmove =>
    cases hmove with
    | go | update | lose | wait | stop => exact hp
    | lock pc conn q => exact hlock _ q
    | unlock pc q => exact hunlock _ q _
    | mark pc conn q => exact hlink q _
    | submit func conn q => exact hlink q _
    | make pc links =>
      rcases foldl_make_mutex links s p with hmutex | ⟨-, hfree⟩
      · exact hmutex ▸ hp
      · exact hfree ▸ nofun
    | close conn q => exact hdestroy q
    | free pc q => exact hdestroy q
  | call | worker | signal => exact hp
  | task w res outs t hrun ht hmove =>
    cases hmove with
    | lock => exact hlock _ _
    | lock_failed => exact hp
    | handle k => exact hlink _ k
    | release => exact hlink _ _
    | unlock => exact hunlock _ _ _

theorem Reachable.undestroyed {host : ByteOrder} {C : Server n → ServerLabel n → Prop}
    {s : Server n} (h : Reachable host C s) (p : ctx_id) : (s.ctxs p).mutex ≠ .destroyed := by
  obtain ⟨sfd, sigpipe_fd, hr⟩ := h
  refine machine.Machine.Reach.invariant
    (P := fun s : Server n => (s.ctxs p).mutex ≠ .destroyed) ?_ ?_ hr
  · rintro s rfl
    nofun
  · exact fun s l s' hp _ hs => (server_step_cases hs).undestroyed hp

/-! ## The tasks -/

/-- A loop whose first call would block ends there. -/
theorem exists_io_loop {call : Nat → Nat → sys_result → Link → Option Link}
    {on_err : nl_internal_err_t} {zero_ends : Bool}
    (hcall : ∀ total len k, ∃ k', call total len (.fail .EAGAIN) k = some k') (len : Nat)
    (k : Link) : ∃ outs r, io_loop call on_err zero_ends len outs 0 k = some r := by
  by_cases hlen : 0 < len
  · obtain ⟨k', hk⟩ := hcall 0 (size_sub len 0) k
    exact ⟨[.fail .EAGAIN], (.NL_IO_EWOULDBLOCK, 0, k'), by simp [io_loop, hlen, hk, stop]⟩
  · exact ⟨[], (.NL_IO_SUCCESS, 0, k), by simp [io_loop, hlen]⟩

theorem exists_read_more (f : Link → Link) (k : Link) : ∃ outs r, read_more f outs k = some r := by
  have hloop : ∃ outs r, nl_recvall k.ctx.bytes_read k.ctx.bytes_to_read outs k = some r :=
    exists_io_loop (fun _ _ _ => ⟨_, rfl⟩) _ k
  obtain ⟨outs, r, hr⟩ := hloop
  exact ⟨outs, _, Option.map_eq_some_iff.mpr ⟨r, hr, rfl⟩⟩

/-- The body of a task always has an end. -/
theorem exists_io_read_body (host : ByteOrder) (flag : Bool) (k : Link) :
    ∃ outs k', io_read_body host flag outs k = some k' := by
  unfold io_read_body
  split
  · have hin : ∃ outs r, nl_handle_sock_data_in host outs k = some r := by
      unfold nl_handle_sock_data_in
      split
      · exact exists_read_more _ k
      · exact exists_read_more _ k
      · exact ⟨[], _, rfl⟩
    obtain ⟨outs, r, hr⟩ := hin
    exact ⟨outs, _, Option.map_eq_some_iff.mpr ⟨r, hr, rfl⟩⟩
  · exact ⟨[], k, rfl⟩

theorem exists_io_send_body (flag : Bool) (k : Link) :
    ∃ outs k', io_send_body flag outs k = some k' := by
  unfold io_send_body
  split
  · have hloop : ∃ outs r, nl_sendall k.ctx.bytes_to_send outs k = some r :=
      exists_io_loop (fun _ _ _ => ⟨_, rfl⟩) _ k
    obtain ⟨outs, r, hr⟩ := hloop
    have hout : ∃ r, nl_handle_sock_data_out outs k = some r :=
      ⟨_, Option.map_eq_some_iff.mpr ⟨r, hr, rfl⟩⟩
    obtain ⟨r, hr⟩ := hout
    exact ⟨outs, _, Option.map_eq_some_iff.mpr ⟨r, hr, rfl⟩⟩
  · exact ⟨[], k, rfl⟩

/-! ## The threads -/

/-- A worker in its task waits for nothing in the pool. -/
theorem ready_at_run {s : Pool n Unit io_task} {w : Fin n} (hrun : (s.workers w).pc = .run) :
    concurinc.Ready s (.worker w) := by
  refine worker_ready ?_ ?_ ?_ ?_
  · simp [hrun]
  · unfold Asleep
    simp [hrun]
  · simp [hrun, worker_pc.locksQueue]
  · simp [hrun, worker_pc.locksActive]

/-- A worker that can go on in the pool can go on in the server, unless it is in a task. -/
theorem ready_of_worker {host : ByteOrder} {s : Server n} {w : Fin n}
    (h : concurinc.Ready s.pool (.worker w))
    (hrun : (s.pool.workers w).pc = .run → s.task w = .returned) : s.Ready host (.worker w) := by
  obtain ⟨l, pool, ⟨hthread, hok, hcalm⟩, hs⟩ := h
  cases l with
  | worker v o =>
    cases hthread
    exact ⟨.worker w o, _, ⟨rfl, hok, hcalm⟩, (if_neg fun hbusy => hbusy.2 (hrun hbusy.1)).trans
      (Option.map_eq_some_iff.mpr ⟨pool, hs, rfl⟩)⟩
  | client c o => cases hthread
  | call c call => cases hthread

/-- Main can go on in its call of the pool. -/
theorem ready_of_client {host : ByteOrder} {s : Server n}
    (h : concurinc.Ready s.pool (.client ())) : s.Ready host (.client ()) := by
  obtain ⟨l, pool, ⟨hthread, hok, hcalm⟩, hs⟩ := h
  cases l with
  | worker w o => cases hthread
  | client c o =>
    exact ⟨.call o, _, ⟨rfl, hok, hcalm⟩, Option.map_eq_some_iff.mpr ⟨pool, hs, rfl⟩⟩
  | call c call => cases hthread

namespace Ordered

variable {host : ByteOrder} {s : Server n}

/-- A worker in the function of its task waits for the mutex of its context only. -/
theorem task_ready (h : Ordered host s) {w : Fin n} (hrun : (s.pool.workers w).pc = .run)
    (hfree : ∀ t, (s.pool.workers w).p_task = some t → s.task w = .lock →
      (s.ctxs t.work.coin_task_arg).mutex = .free) : s.Ready host (.worker w) := by
  have hfit := h.linked.sound.fits w
  unfold TaskFits at hfit
  rw [hrun] at hfit
  obtain ⟨t, ht⟩ := Option.ne_none_iff_exists'.mp hfit
  have hgo : s.task w = .returned ∨ ∃ outs s', task_step host w t.work 0 outs s = some s' := by
    unfold task_step
    cases hpc : s.task w with
    | lock =>
      refine Or.inr ⟨[], ?_⟩
      simp [Server.lock, Mutex.lock, hfree t ht hpc]
    | handle =>
      refine Or.inr ?_
      cases t.work.coin_task_func with
      | task_io_read =>
        obtain ⟨outs, k, hk⟩ := exists_io_read_body host s.g_should_shutdown
          (s.ctxs t.work.coin_task_arg).link
        exact ⟨outs, _, Option.map_eq_some_iff.mpr ⟨k, hk, rfl⟩⟩
      | task_io_send =>
        obtain ⟨outs, k, hk⟩ := exists_io_send_body s.g_should_shutdown
          (s.ctxs t.work.coin_task_arg).link
        exact ⟨outs, _, Option.map_eq_some_iff.mpr ⟨k, hk, rfl⟩⟩
    | release => exact Or.inr ⟨[], _, rfl⟩
    | unlock => exact Or.inr ⟨[], _, rfl⟩
    | returned => exact Or.inl rfl
  rcases hgo with hret | ⟨outs, s', hs⟩
  · exact ready_of_worker (ready_at_run hrun) fun _ => hret
  · refine ⟨.task w 0 outs, s', ⟨rfl, rfl, trivial⟩, ?_⟩
    show server_step host s (.task w 0 outs) = some s'
    unfold server_step
    simp only [hrun, if_true, ht, Option.bind_some]
    exact hs

/-- Who is under the mutex of the queue can go on. -/
theorem queue_holder_ready (h : Ordered host s) {t : Thread n Unit}
    (ht : s.pool.tpool_queue_mutex = .held t) : s.Ready host t := by
  have hin := (kept_of_reachable (pool_of_reachable h.reachable)).1 t ht
  have hgo := ready_inside (Or.inl hin)
  cases t with
  | worker w =>
    refine ready_of_worker hgo fun hrun => ?_
    unfold Pool.inQueue at hin
    simp [hrun, worker_pc.inQueue] at hin
  | client c => exact ready_of_client hgo

/-- Main goes on when no call is open and the mutex that it takes next is free. -/
theorem main_ready (h : Ordered host s) (hidle : (s.pool.clients ()).pc = .idle)
    (hfree : ∀ p, main_wants s.main = some p → (s.ctxs p).mutex = .free)
    (hgo : s.main ≠ .finished) : s.Ready host (.client ()) := by
  have hret : s.returned = some (s.pool.clients ()).status := by
    unfold Server.returned
    rw [hidle]
  have hstart : ∀ (u : Server n) call, u.pool = s.pool → ∃ u', u.start call = some u' := by
    intro u call hpool
    unfold Server.start
    rw [hpool, pool_call hidle]
    exact ⟨_, rfl⟩
  have hlock : ∀ p, (s.ctxs p).mutex = .free → ∃ u', s.lock (.client ()) p 0 = some u' := by
    intro p hp
    simp [Server.lock, Mutex.lock, hp]
  have hstep : ∃ s', main_step {} s = some s' := by
    have hholes := h.holes
    unfold NoHoles at hholes
    unfold main_step
    generalize s.main = pc at hfree hgo hholes
    cases pc with
    | loop_head =>
      simp only
      split
      · obtain ⟨u, hu⟩ := hstart s .wait rfl
        simp [hu]
      · exact ⟨_, rfl⟩
    | close_check conn =>
      simp only
      split
      · exact ⟨_, rfl⟩
      · rename_i hnull
        exact absurd hnull (hholes conn rfl conn (Nat.le_refl conn))
      · split
        · exact ⟨_, rfl⟩
        · exact ⟨_, rfl⟩
    | dispatch conn =>
      simp only
      split
      · exact ⟨_, rfl⟩
      · rename_i hnull
        exact absurd hnull (hholes 0 rfl conn (Nat.zero_le conn))
      · repeat' split
        all_goals exact ⟨_, rfl⟩
    | close_lock conn p | task_lock func conn p | hup_lock conn p =>
      obtain ⟨u, hu⟩ := hlock p (hfree p rfl)
      simp [hu]
    | task_ref func conn p =>
      obtain ⟨u, hu⟩ := hstart (s.set_link p (add_ref 1 (s.ctxs p).link))
        (.submit ⟨func, p⟩ false) rfl
      simp [hu]
    | task_submit func conn p | wait | destroy_tpool =>
      simp [hret]
    | destroy_all idx =>
      simp only
      split
      · exact ⟨_, rfl⟩
      · exact ⟨_, rfl⟩
      · exact ⟨_, rfl⟩
    | destroy_queue =>
      simp only
      split
      · obtain ⟨u, hu⟩ := hstart s .destroy rfl
        simp [hu]
      · exact ⟨_, rfl⟩
    | finished => exact absurd rfl hgo
    | _ => exact ⟨_, rfl⟩
  obtain ⟨s', hs⟩ := hstep
  exact ⟨.main {}, s', ⟨rfl, rfl, trivial⟩, hs⟩

/-- A worker under the mutex of a context goes on. -/
theorem holder_ready (h : Ordered host s) {p : ctx_id} {w : Fin n}
    (hm : (s.ctxs p).mutex = .held (.worker w)) : s.Ready host (.worker w) := by
  obtain ⟨hl, hkept⟩ := kept_ctx_of_reachable h.reachable
  obtain ⟨-, hin⟩ := inside_worker.mp (hkept p _ hm)
  have hlock : s.task w ≠ .lock := by
    intro hpc
    rw [hpc] at hin
    cases hin
  refine h.task_ready ?_ fun _ _ hpc => absurd hpc hlock
  by_contra hrun
  exact hlock (hl.at_lock w hrun)

/-- While main submits a task, main goes on or who is under the mutex of the queue. -/
theorem submit_ready (hn : 0 < n) (h : Ordered host s) (hends : s.main.ends = false)
    (hwait : s.main ≠ .wait) (hopen : (s.pool.clients ()).pc ≠ .idle) :
    ∃ t, s.Ready host t := by
  have hrun := h.runs hends
  have hout : (s.pool.clients ()).pc.inWait = false := by
    refine Bool.eq_false_iff.mpr fun hin => hwait (h.waits hin)
  cases hm : s.pool.tpool_queue_mutex with
  | held t => exact ⟨t, h.queue_holder_ready hm⟩
  | destroyed => exact absurd hm (hrun.live hn).1
  | free =>
    refine ⟨.client (), ready_of_client (client_ready hopen ?_ ?_ (fun _ => hm) ?_)⟩
    · rintro ⟨hpc, -⟩
      rw [hpc] at hout
      cases hout
    · intro i status hi hpc
      have hkept := hrun.kept ()
      rw [hpc] at hkept
      cases hkept
    · intro hlock
      rw [not_locksActive hout (hrun.kept ())] at hlock
      cases hlock

section Still

variable (hn : 0 < n) (h : Ordered host s) (hstill : ∀ t, ¬ s.Ready host t)

include hn h hstill

theorem ctx_free (p : ctx_id) : (s.ctxs p).mutex = .free := by
  cases hm : (s.ctxs p).mutex with
  | free => rfl
  | destroyed => exact absurd hm (h.reachable.undestroyed p)
  | held t =>
    cases t with
    | worker w => exact absurd (h.holder_ready hm) (hstill _)
    | client c =>
      -- main is at a point under the mutex
      have hlocks := inside_client.mp ((kept_ctx_of_reachable h.reachable).2 p _ hm)
      have hpc : s.main.ends = false ∧ s.main ≠ .wait ∧ s.main ≠ .finished ∧
          main_wants s.main = none := by
        generalize s.main = pc at hlocks
        cases pc
        all_goals cases hlocks
        all_goals exact ⟨rfl, nofun, nofun, rfl⟩
      obtain ⟨hends, hwait, hgo, hwants⟩ := hpc
      by_cases hidle : (s.pool.clients ()).pc = .idle
      · refine absurd (h.main_ready hidle (fun q hq => ?_) hgo) (hstill _)
        rw [hwants] at hq
        cases hq
      · obtain ⟨t, ht⟩ := h.submit_ready hn hends hwait hidle
        exact absurd ht (hstill t)

theorem pool_still : Still s.pool := by
  intro t ht
  cases t with
  | worker w =>
    by_cases hrun : (s.pool.workers w).pc = .run
    · exact hstill _ (h.task_ready hrun fun t _ _ => h.ctx_free hn hstill t.work.coin_task_arg)
    · exact hstill _ (ready_of_worker ht fun hpc => absurd hpc hrun)
  | client c => exact hstill _ (ready_of_client ht)

theorem finished_of_still : s.main = .finished := by
  by_contra hgo
  have hpool := pool_of_reachable h.reachable
  have hrest := h.pool_still hn hstill
  have hidle : (s.pool.clients ()).pc = .idle := by
    cases hends : s.main.ends with
    | true => exact ((h.ending hends).returned hn hpool hrest).1
    | false => exact (at_rest_of_still hn hpool ((h.runs hends).live hn).1 hrest).idle ()
  exact hstill _ (h.main_ready hidle (fun p _ => h.ctx_free hn hstill p) hgo)

end Still

/-- The pool that main has destroyed. -/
theorem destroyed_of_finished (h : Ordered host s) (hpc : s.main = .finished) :
    (s.pool.clients ()).pc = .idle ∧ (s.pool.clients ()).status = .COIN_SUCCESS ∧
      AllExited s.pool := by
  have hidle := h.linked.idle_of_outside (by rw [hpc]; rfl)
  have htended := tended_of_reachable (pool_of_reachable h.reachable)
  rcases (h.ending (by rw [hpc]; rfl)).call with ⟨hin, -⟩ | ⟨-, hsuccess, hgone⟩
  · rw [hidle] at hin
    cases hin
  · exact ⟨hidle, hsuccess, htended.gone (htended.gone_active hgone)⟩

theorem still_of_finished (h : Ordered host s) (hpc : s.main = .finished) (t : Thread n Unit) :
    ¬ s.Ready host t := by
  obtain ⟨hidle, -, hexited⟩ := h.destroyed_of_finished hpc
  rintro ⟨l, s', ⟨hthread, -⟩, hs⟩
  cases server_step_cases hs with
  | main o =>
    have hs : main_step o s = some s' := hs
    unfold main_step at hs
    simp [hpc] at hs
  | call o pool hpool => exact client_open hpool hidle
  | worker w o pool hpool =>
    unfold worker_step at hpool
    simp [hexited w] at hpool
  | task w res outs t hrun =>
    rw [hexited w] at hrun
    cases hrun
  | signal => cases hthread

end Ordered

/-- While the pthread calls succeed, some thread of the server can take a step until main has
finished, also without a signal to come, where `poll` may return at any time. Then
`coin_tpool_destroy` has returned `COIN_SUCCESS`, and all workers have exited. -/
theorem the_server_stands_still_iff_it_has_finished {host : ByteOrder} {s : Server n} (hn : 0 < n)
    (h : Reachable host (fun _ l => l.Ok) s) :
    (∀ t, ¬ s.Ready host t) ↔ s.main = .finished ∧
      (s.pool.clients ()).status = .COIN_SUCCESS ∧ AllExited s.pool := by
  have ho := ordered_of_reachable hn h
  constructor
  · intro hstill
    have hpc := ho.finished_of_still hn hstill
    exact ⟨hpc, (ho.destroyed_of_finished hpc).2⟩
  · exact fun hend => ho.still_of_finished hend.1

/-- A client is served once, then the signal comes. Main destroys the contexts and the pool, whose
worker exits. -/
def whole_labels : List (ServerLabel 1) :=
  accept_labels ++ submit_read_labels ++ take_labels ++ finish_labels ++ main_steps 2 ++
    List.replicate 4 (.call {}) ++ List.replicate 7 (.worker only_worker {}) ++
    List.replicate 7 (.call {}) ++ main_steps 1

theorem a_server_that_was_signalled_stands_still :
    ∃ s : Server 1, Reachable .big (fun _ l => l.Ok) s ∧
      s.pool.ran = [⟨0, ⟨.task_io_read, 2⟩, false⟩] ∧
      ((∀ t, ¬ s.Ready .big t) ↔ s.main = .finished ∧
        (s.pool.clients ()).status = .COIN_SUCCESS ∧ AllExited s.pool) ∧
      ∀ t, ¬ s.Ready .big t := by
  obtain ⟨s, hreach, hran, hpc, hsuccess, hexited⟩ := exists_of_run .big (fun _ l => l.Ok) 3 4
    whole_labels
    (fun s : Server 1 => s.pool.ran = [⟨0, ⟨.task_io_read, 2⟩, false⟩] ∧ s.main = .finished ∧
      (s.pool.clients ()).status = .COIN_SUCCESS ∧ (s.pool.workers only_worker).pc = .exited)
    (machine.Machine.meets_of_mem (by decide)) (by decide +kernel)
  have hiff := the_server_stands_still_iff_it_has_finished Nat.one_pos hreach
  refine ⟨s, hreach, hran, hiff, hiff.mpr ⟨hpc, hsuccess, fun w => ?_⟩⟩
  rw [Subsingleton.elim w only_worker]
  exact hexited

end pingpong.server
