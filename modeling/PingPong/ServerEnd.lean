-- How the server ends: what main knows of the pool when it leaves its loop, and
-- what the workers do while main destroys the contexts.
import PingPong.PoolWait
import PingPong.ServerSteps

namespace pingpong.server

open concurinc mutex

variable {n : Nat}

/-! ## The exits of main -/

/-- Main has waited for the pool, or it leaves its loop while the pool is settled. -/
def LeavesWell (s s' : Server n) : Prop :=
  s.main.inCleanup = false → s'.main.inCleanup = true →
    (s.main = .wait ∧ s.returned = some .COIN_SUCCESS) ∨ Settled s.pool

/-- While main waits for the pool, it does not see an empty queue when a worker is between its
pop and its count up. -/
def WaitsWell (s : Server n) (l : ServerLabel n) : Prop :=
  (∃ o, l = .call o) → s.main = .wait → NoneTaken () s.pool

/-- What holds in a run in which main leaves its loop well. -/
structure Ending (s : Server n) : Prop where
  linked : Linked s
  waiting : s.main = .wait → Waiting () s.pool
  settled : s.main.inCleanup = true → Settled s.pool

theorem ending_new (sfd sigpipe_fd : Int) : Ending (new_server sfd sigpipe_fd : Server n) where
  linked := linked_new sfd sigpipe_fd
  waiting h := nomatch h
  settled h := nomatch h

/-- A wait that has returned `COIN_SUCCESS` leaves a pool with nothing to do. -/
theorem quiet_of_returned {s : Server n} (h : Waiting () s.pool)
    (hret : s.returned = some .COIN_SUCCESS) : Quiet s.pool := by
  unfold Server.returned at hret
  unfold Waiting at h
  split at hret
  · rename_i hpc
    rw [hpc] at h
    exact h (Option.some.inj hret)
  · cases hret

theorem Ending.main_step {o : main_outs} {s s' : Server n} (h : Ending s)
    (hmove : MainMove o.res s s') (hleaves : LeavesWell s s') : Ending s' := by
  have hsettled : s'.main.inCleanup = true → Settled s.pool := by
    intro hin
    by_cases hwas : s.main.inCleanup = true
    · exact h.settled hwas
    · rcases hleaves (Bool.eq_false_iff.mpr hwas) hin with ⟨hwait, hret⟩ | hset
      · exact (quiet_of_returned (h.waiting hwait) hret).settled
      · exact hset
  refine ⟨h.linked.step (.main o hmove), ?_, ?_⟩
  · intro hwait
    rcases hmove.pool_cases.2 with ⟨-, hout, -⟩ | ⟨call, -, hpool, hbegins⟩
    · rw [hwait] at hout
      cases hout
    · rw [hpool]
      cases call with
      | submit =>
        obtain ⟨conn, hnow⟩ := hbegins
        rw [hwait] at hnow
        cases hnow
      | wait => exact waiting_start () s.pool
      | destroy =>
        rw [hwait] at hbegins
        cases hbegins.1
  · intro hin
    rcases hmove.pool_cases.2 with ⟨hpool, -, -⟩ | ⟨call, -, hpool, -⟩
    · rw [hpool]
      exact hsettled hin
    · rw [hpool]
      exact hsettled hin

theorem Ending.step {l : ServerLabel n} {s s' : Server n} (h : Ending s)
    (hs : ServerStep s l s') (hleaves : LeavesWell s s') (hwaits : WaitsWell s l) :
    Ending s' := by
  have hlinked := h.linked.step hs
  cases hs with
  | main o hmove => exact h.main_step hmove hleaves
  | call o pool hpool =>
    obtain ⟨y, hc⟩ := client_step_cases hpool
    refine ⟨hlinked, fun hwait => ?_, fun hin => ?_⟩
    · exact (h.waiting hwait).own_step h.linked.sound (hwaits ⟨o, rfl⟩ hwait) hpool
    · refine (h.settled hin).client_step ?_ hc
      by_contra hsome
      obtain ⟨t, ht⟩ := Option.ne_none_iff_exists'.mp hsome
      obtain ⟨conn, hmain⟩ := h.linked.submits t ht
      have hin : s.main.inCleanup = true := hin
      rw [hmain] at hin
      cases hin
  | worker w o pool hpool =>
    obtain ⟨x, hw⟩ := worker_step_cases hpool
    exact ⟨hlinked, fun hwait => (h.waiting hwait).worker_step h.linked.sound hw,
      fun hin => (h.settled hin).worker_step hw⟩
  | task w res outs t hrun ht hmove =>
    have hstay : s'.pool = s.pool ∧ s'.main = s.main := by
      cases hmove <;> exact ⟨rfl, rfl⟩
    refine ⟨hlinked, ?_, ?_⟩
    · rw [hstay.1, hstay.2]
      exact h.waiting
    · rw [hstay.1, hstay.2]
      exact h.settled
  | signal => exact ⟨hlinked, h.waiting, h.settled⟩

/-- While main destroys the contexts, no worker is in a task. -/
theorem Ending.no_task {s : Server n} (h : Ending s) (hin : s.main.inCleanup = true) (w : Fin n) :
    (s.pool.workers w).pc ≠ .run := by
  intro hrun
  have hdone := (h.settled hin).1 w
  rw [hrun] at hdone
  cases hdone

end pingpong.server
