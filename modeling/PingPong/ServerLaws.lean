-- The laws of the server: a connection that main closes is not used after that,
-- and when no task outlives its connection at the end.
import PingPong.ServerEnd
import PingPong.ServerInv

namespace pingpong.server

open concurinc connmgr mutex netio tasks

variable {n : Nat}

/-- The states of the server, in the runs whose steps meet `C`. -/
def Reachable (host : ByteOrder) (C : Server n → ServerLabel n → Prop) (s : Server n) : Prop :=
  ∃ sfd sigpipe_fd, (server_machine host).Reach (fun s => s = new_server sfd sigpipe_fd) C s

/-- The step looks at context `p` or works on it: a worker in the function of a task on `p`, main
when `p` is its `p_cur_ctx`, or when it takes `p` out of a list. -/
def Accesses (s : Server n) (p : ctx_id) : ServerLabel n → Prop
  | .task w _ _ => ∃ t, (s.pool.workers w).p_task = some t ∧ t.work.coin_task_arg = p
  | .main _ => (∃ conn, s.main.cur = some (conn, p)) ∨
      (∃ conn, s.p_conns[conn]? = some (some p) ∧
        (s.main = .close_check conn ∨ s.main = .dispatch conn ∨ s.main = .destroy_all conn)) ∨
      (p ∈ s.p_new_conns ∧ (s.main = .update ∨ s.main = .destroy_queue))
  | _ => False

/-- A run that is evaluated to its end. -/
theorem exists_of_run (host : ByteOrder) (C : Server n → ServerLabel n → Prop)
    (sfd sigpipe_fd : Int) (ls : List (ServerLabel n)) (P : Server n → Prop) [DecidablePred P]
    (hC : (server_machine host).Meets C (new_server sfd sigpipe_fd) ls)
    (hP : ((server_machine host).run (new_server sfd sigpipe_fd) ls).any P = true) :
    ∃ s, Reachable host C s ∧ P s := by
  obtain ⟨s, hreach, hs⟩ := machine.Machine.exists_reach (server_machine host)
    (fun s => s = new_server sfd sigpipe_fd) C P _ ls rfl hC hP
  exact ⟨s, ⟨sfd, sigpipe_fd, hreach⟩, hs⟩

/-- The next steps of main, when nothing fails and no descriptor is ready. -/
def main_steps (steps : Nat) : List (ServerLabel 1) := List.replicate steps (.main {})

/-- `poll` reports these events for one entry. -/
def polled (conn : Nat) (e : poll_events) : ServerLabel 1 :=
  .main { revents := fun i => if i = conn then e else no_events }

/-- Main accepts one client, and gets back to its `poll`. -/
def accept_labels : List (ServerLabel 1) :=
  main_steps 5 ++ [polled 0 { no_events with POLLIN := true }] ++ main_steps 1 ++
    [.main { clients := [⟨5, io_buf.zero, io_buf.zero, []⟩] }] ++ main_steps 11

/-- The client sends something, and main submits the task and gets back to its loop head. -/
def submit_read_labels : List (ServerLabel 1) :=
  [polled 2 { no_events with POLLIN := true }] ++ main_steps 9 ++ List.replicate 5 (.call {}) ++
    main_steps 5

/-- The worker, up to the call of the task. -/
def take_labels : List (ServerLabel 1) := List.replicate 10 (.worker only_worker {})

/-! ## The closing pass -/

theorem inLoop_of_reachable {host : ByteOrder} {s : Server n}
    (h : Reachable host (fun _ l => l.LocksSucceed) s) :
    Linked s ∧ (s.main.inCleanup = false → InLoop s) := by
  obtain ⟨sfd, sigpipe_fd, hr⟩ := h
  refine machine.Machine.Reach.invariant
    (P := fun s : Server n => Linked s ∧ (s.main.inCleanup = false → InLoop s)) ?_ ?_ hr
  · rintro s rfl
    exact ⟨linked_new sfd sigpipe_fd, fun _ => inLoop_new sfd sigpipe_fd⟩
  · rintro s l s' ⟨hl, hin⟩ hok hs
    have hcases := server_step_cases hs
    exact ⟨hl.step hcases, InLoop.step hin hl hcases hok⟩

/-- A context without a task is not accessed by a worker. -/
theorem no_access_of_noTask {host : ByteOrder} {s s' : Server n} {p : ctx_id} (h : NoTask p s)
    {w : Fin n} {res : Int} {outs : List sys_result}
    (hs : server_step host s (.task w res outs) = some s') : ¬ Accesses s p (.task w res outs) := by
  rintro ⟨t, ht, hon⟩
  cases server_step_cases hs with
  | task _ _ _ t' hrun ht' hmove =>
    rcases h.2 w t ht hon with hran | hret
    · rw [hrun] at hran
      cases hran
    · cases hmove with
      | lock hpc | lock_failed hpc | handle _ hpc | release hpc | unlock hpc =>
        rw [hret] at hpc
        cases hpc

/-- While the calls on the mutexes of the contexts succeed in the tasks: when the closing pass
destroys a context, no task on it is queued or under way. As long as main has not left its loop,
no such task comes again and no thread accesses the context, and it is in no list of main. -/
theorem a_closed_connection_is_not_used_again {host : ByteOrder} {s : Server n}
    (h : Reachable host (fun _ l => l.LocksSucceed) s) :
    (∀ conn p, s.main = .close_destroy conn p → NoTask p s) ∧
    (s.main.inCleanup = false → ∀ p, (s.ctxs p).destroyed = true →
      NoTask p s ∧ some p ∉ s.p_conns ∧
      (∀ t, (s.pool.clients ()).pc.submits = some t → t.coin_task_arg ≠ p) ∧
      ∀ l s', server_step host s l = some s' → ¬ Accesses s p l) := by
  obtain ⟨hl, hin⟩ := inLoop_of_reachable h
  refine ⟨fun conn p hpc => ?_, fun hloop p hp => ?_⟩
  · exact (hin (by rw [hpc]; rfl)).closes p (by rw [hpc]; rfl)
  · have hinv := hin hloop
    have hgone : ∀ q ∈ s.live, q ≠ p := by
      rintro q hq rfl
      rw [(hinv.alive q hq).2] at hp
      cases hp
    have hconns : some p ∉ s.p_conns := fun hmem =>
      hgone p (List.mem_append_left _ (List.reduceOption_mem_iff.mpr hmem)) rfl
    refine ⟨hinv.closed p hp, hconns, fun t ht => ?_, fun l s' hs => ?_⟩
    · obtain ⟨conn, hmain⟩ := hl.submits t ht
      refine hgone _ (mem_live (hinv.cur conn t.coin_task_arg ?_))
      rw [hmain]
      rfl
    · cases l with
      | task w res outs => exact no_access_of_noTask (hinv.closed p hp) hs
      | main o =>
        rintro (⟨conn, hcur⟩ | ⟨conn, hmem, -⟩ | ⟨hmem, -⟩)
        · exact hgone p (mem_live (hinv.cur conn p hcur)) rfl
        · exact hconns (List.mem_of_getElem? hmem)
        · exact hgone p (List.mem_append_right _ hmem) rfl
      | _ => exact id

/-- The client hangs up, and the next closing pass destroys its context. -/
def hang_up_labels : List (ServerLabel 1) :=
  polled 2 { no_events with POLLHUP := true } :: main_steps 21

theorem a_connection_that_hangs_up_is_closed :
    ∃ s : Server 1, Reachable .big (fun _ l => l.LocksSucceed) s ∧ s.made = 3 ∧
      s.main.inCleanup = false ∧ (s.ctxs 2).destroyed = true ∧ NoTask 2 s ∧
      some 2 ∉ s.p_conns := by
  obtain ⟨s, hreach, hmade, hloop, hdead⟩ := exists_of_run .big
    (fun _ l => l.LocksSucceed) 3 4 (accept_labels ++ hang_up_labels)
    (fun s : Server 1 => s.made = 3 ∧ s.main.inCleanup = false ∧ (s.ctxs 2).destroyed = true)
    (machine.Machine.meets_of_mem (by decide)) (by decide +kernel)
  obtain ⟨hnone, hconns, -⟩ := (a_closed_connection_is_not_used_again hreach).2 hloop 2 hdead
  exact ⟨s, hreach, hmade, hloop, hdead, hnone, hconns⟩

/-! ## The end -/

/-- While main waits it sees no empty queue with a worker between its pop and its count up, and
it leaves its loop with a pool that has nothing to do. -/
def EndsWell (host : ByteOrder) (s : Server n) (l : ServerLabel n) : Prop :=
  WaitsWell s l ∧ ∀ s', server_step host s l = some s' → LeavesWell s s'

instance (s s' : Server n) : Decidable (LeavesWell s s') :=
  inferInstanceAs (Decidable (_ → _ → (_ ∧ _) ∨ _))

instance (s : Server n) : DecidablePred (WaitsWell s)
  | .call o => decidable_of_iff (s.main = .wait → NoneTaken () s.pool)
      ⟨fun h _ => h, fun h => h ⟨o, rfl⟩⟩
  | .main _ | .worker _ _ | .task _ _ _ | .signal => isTrue nofun

theorem endsWell_iff {host : ByteOrder} {s : Server n} {l : ServerLabel n} :
    EndsWell host s l ↔ WaitsWell s l ∧
      (server_step host s l).all (fun s' => decide (LeavesWell s s')) = true := by
  unfold EndsWell
  rw [Option.all_eq_true]
  simp only [decide_eq_true_eq]

instance (host : ByteOrder) (s : Server n) (l : ServerLabel n) : Decidable (EndsWell host s l) :=
  decidable_of_iff _ endsWell_iff.symm

theorem ending_of_reachable {host : ByteOrder} {s : Server n}
    (h : Reachable host (EndsWell host) s) : Ending s := by
  obtain ⟨sfd, sigpipe_fd, hr⟩ := h
  refine machine.Machine.Reach.invariant (P := Ending) ?_ ?_ hr
  · rintro s rfl
    exact ending_new sfd sigpipe_fd
  · rintro s l s' h hends hs
    exact h.step (server_step_cases hs) (hends.2 s' hs) hends.1

/-- When main leaves its loop well, no worker accesses a context once it is destroyed, in a task
that was queued, popped or running. -/
theorem no_task_outlives_its_connection {host : ByteOrder} {s : Server n}
    (h : Reachable host (EndsWell host) s) (hin : s.main.inCleanup = true) :
    ∀ p, (s.ctxs p).destroyed = true →
      ∀ w res outs s', server_step host s (.task w res outs) = some s' →
        ¬ Accesses s p (.task w res outs) := by
  intro p _ w res outs s' hs
  cases server_step_cases hs with
  | task _ _ _ t hrun => exact absurd hrun ((ending_of_reachable h).no_task hin w)

/-- The worker executes the task and is back at its loop head, where the client has sent nothing
anymore. Then the signal comes, and main waits and destroys the contexts. -/
def finish_labels : List (ServerLabel 1) :=
  [[], [.fail .EWOULDBLOCK], [], []].map (.task only_worker 0) ++
    List.replicate 6 (.worker only_worker {}) ++ [.signal] ++ main_steps 1 ++
    List.replicate 7 (.call {}) ++ main_steps 4

theorem a_finished_task_does_not_outlive_its_connection :
    ∃ s : Server 1, Reachable .big (EndsWell .big) s ∧ s.main.inCleanup = true ∧
      s.pool.ran = [⟨0, ⟨.task_io_read, 2⟩, false⟩] ∧ (s.ctxs 2).destroyed = true ∧
      ∀ w res outs s', server_step .big s (.task w res outs) = some s' →
        ¬ Accesses s 2 (.task w res outs) := by
  obtain ⟨s, hreach, hin, hran, hdead⟩ := exists_of_run .big (EndsWell .big) 3 4
    (accept_labels ++ submit_read_labels ++ take_labels ++ finish_labels)
    (fun s : Server 1 => s.main.inCleanup = true ∧ s.pool.ran = [⟨0, ⟨.task_io_read, 2⟩, false⟩] ∧
      (s.ctxs 2).destroyed = true)
    (by decide +kernel) (by decide +kernel)
  exact ⟨s, hreach, hin, hran, hdead, no_task_outlives_its_connection hreach hin 2 hdead⟩

/-- In the next round `nl_accept` fails, and main destroys the contexts without a wait. -/
def failed_accept_labels : List (ServerLabel 1) :=
  main_steps 9 ++ [polled 0 { no_events with POLLIN := true }] ++ main_steps 1 ++
    [.main { ok := false }] ++ main_steps 3

/-- The task is in the queue while its context is destroyed, and the worker executes it then. -/
theorem a_queued_task_outlives_its_connection :
    ¬ ∀ s : Server 1, Reachable .big (fun _ _ => True) s → s.main.inCleanup = true →
      ∀ p, (s.ctxs p).destroyed = true →
        ∀ w res outs s', server_step .big s (.task w res outs) = some s' →
          ¬ Accesses s p (.task w res outs) := by
  intro h
  obtain ⟨s, hreach, hin, hdead, htask, hsome⟩ := exists_of_run .big (fun _ _ => True) 3 4
    (accept_labels ++ submit_read_labels ++ failed_accept_labels ++ take_labels)
    (fun s : Server 1 => s.main.inCleanup = true ∧ (s.ctxs 2).destroyed = true ∧
      (s.pool.workers 0).p_task = some ⟨0, ⟨.task_io_read, 2⟩, false⟩ ∧
      (server_step .big s (.task 0 0 [])).isSome = true)
    (machine.Machine.meets_of_all (fun _ _ => trivial) _ _) (by decide +kernel)
  obtain ⟨s', hs'⟩ := Option.isSome_iff_exists.mp hsome
  exact h s hreach hin 2 hdead 0 0 [] s' hs' ⟨_, htask, rfl⟩

end pingpong.server
