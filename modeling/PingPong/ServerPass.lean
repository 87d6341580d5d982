-- How many steps main and the workers have left while a shutdown is under way, and what a step
-- of main does to the entries of `p_conns`, when its pthread calls succeed.
import PingPong.PoolFair
import PingPong.ServerDeadlock

namespace pingpong.server

open concurinc connmgr mutex netio tally tasks

variable {n : Nat}

/-! ## The points of main -/

/-- The points before the wait for the pool. -/
def main_pc.serves : main_pc → Bool
  | .wait | .destroy_all _ | .destroy_queue | .destroy_tpool | .finished => false
  | _ => true

/-- The index from which on no entry of `p_conns` is NULL. The closing pass sets entries to NULL,
and the update behind it takes them out. -/
def main_pc.passed : main_pc → Option Nat
  | .close_check conn | .close_lock conn _ | .close_read conn _ | .close_unlock conn _ _ _
  | .close_destroy conn _ => some conn
  | .update | .destroy_all _ | .destroy_queue | .destroy_tpool | .finished => none
  | _ => some 0

/-- Main never takes a NULL out of `p_conns` in its loop. -/
def NoHoles (s : Server n) : Prop :=
  ∀ k, s.main.passed = some k → ∀ i, k ≤ i → s.p_conns[i]? ≠ some none

/-! ## The steps that are left -/

/-- The steps of a task function to its return. -/
def task_pc.left : task_pc → Nat
  | .lock => 4
  | .handle => 3
  | .release => 2
  | .unlock => 1
  | .returned => 0

/-- Only the worker at its `run` is in a task function. -/
def task_left (h : Hand) : Nat := if h.1.pc = .run then h.2.left else 0

/-- The steps of main for one entry of the dispatch, from the point on. A submission starts 37
steps of the pool, of which each stands for 6. -/
def main_pc.turn : main_pc → Nat
  | .task_lock .task_io_read _ _ => 457
  | .task_ref .task_io_read _ _ => 456
  | .task_submit .task_io_read _ _ => 233
  | .task_unlock .task_io_read _ _ | .accept _ _ => 232
  | .hup _ _ => 231
  | .hup_lock _ _ => 230
  | .hup_mark _ _ => 229
  | .hup_unlock _ _ => 228
  | .out _ _ => 227
  | .task_lock .task_io_send _ _ => 226
  | .task_ref .task_io_send _ _ => 225
  | .task_submit .task_io_send _ _ => 2
  | .task_unlock .task_io_send _ _ => 1
  | _ => 0

/-- The steps of main to its wait for the pool, once the shutdown is asked for, and from
`cleanup_connections` to its end. The closing pass comes before a dispatch of all entries, also of
those that the update adds. -/
def main_pc.left (n conns new_conns : Nat) : main_pc → Nat
  | .reg_listener => 3
  | .reg_sigpipe => 2
  | .loop_head => 1
  | .close_check conn => 5 * (conns - conn) + 458 * (conns + new_conns) + 5
  | .close_lock conn _ => 5 * (conns - (conn + 1)) + 458 * (conns + new_conns) + 9
  | .close_read conn _ => 5 * (conns - (conn + 1)) + 458 * (conns + new_conns) + 8
  | .close_unlock conn _ _ _ => 5 * (conns - (conn + 1)) + 458 * (conns + new_conns) + 7
  | .close_destroy conn _ => 5 * (conns - (conn + 1)) + 458 * (conns + new_conns) + 6
  | .update => 458 * (conns + new_conns) + 4
  | .poll => 458 * conns + 3
  | .dispatch conn => 458 * (conns - conn) + 2
  | .destroy_all idx => (conns - idx) + new_conns + 6 * (9 * n + 10) + 3
  | .destroy_queue => new_conns + 6 * (9 * n + 10) + 2
  | .destroy_tpool => 1
  | .wait | .finished => 0
  | pc => 458 * (conns - ((pc.cur.map Prod.fst).getD 0 + 1)) + 2 + pc.turn

def Server.main_left (s : Server n) : Nat :=
  s.main.left n s.p_conns.length s.p_new_conns.length

/-- A step of a worker in the pool stands for 6, of which 4 are those of the task that it may
begin. -/
def Server.left (s : Server n) : Nat :=
  6 * s.pool.left + total task_left s.hands + s.main_left

/-! ## The steps of main -/

/-- A call that begins brings the steps of its client. -/
theorem left_of_goto {s : Pool n Unit io_task} (h : (s.clients ()).pc = .idle)
    (pc : client_pc io_task) : (s.goto () pc).left = s.left + pc.left n := by
  have hnew : total (fun y : Client io_task => y.pc.left n) (s.goto () pc).clients = pc.left n := by
    rw [total_single (i := ()) fun c hc => absurd rfl hc, Pool.goto_self]
  have hold : total (fun y : Client io_task => y.pc.left n) s.clients = 0 := by
    rw [total_single (i := ()) fun c hc => absurd rfl hc, h]
    rfl
  unfold Pool.left
  rw [hnew, hold]
  rfl

theorem NoHoles.of_none {s : Server n} (h : s.main.passed = none) : NoHoles s := by
  intro k hk
  rw [h] at hk
  cases hk

/-- Nothing is said of what is left in the steps of main out of its loop. -/
theorem out_of_loop {pc pc' : main_pc} {flag : Bool} {P : Prop} (hpc : pc.inCleanup = false)
    (hpc' : pc'.serves = false) (h : pc.inCleanup = true ∨ (pc'.serves = true ∧ flag = true)) :
    P := by
  rw [hpc, hpc'] at h
  simp at h

/-- A step of main whose pthread calls succeed. -/
structure MainPass (s s' : Server n) : Prop where
  holes : NoHoles s'
  hands : s'.hands = s.hands := by exact rfl
  flag : s'.g_should_shutdown = s.g_should_shutdown := by exact rfl
  waits : (s'.pool.clients ()).pc.inWait = true →
    (s.pool.clients ()).pc.inWait = true ∨ s'.main = .wait := by exact Or.inl
  later : s.main.serves = true ∨ s'.main.inCleanup = true := by exact Or.inl rfl
  last : s'.main = .finished ↔ s.main = .destroy_tpool := by
    constructor <;> intro hpc <;> cases hpc
  left : s.main.inCleanup = true ∨ (s'.main.serves = true ∧ s.g_should_shutdown = true) →
    6 * s'.pool.left + s'.main_left < 6 * s.pool.left + s.main_left

/-- A step that leaves the pool and the lists alone. -/
theorem MainPass.walk {s s' : Server n} (hholes : NoHoles s)
    (hpassed : s'.main.passed = none ∨
      ∃ j k, s.main.passed = some j ∧ s'.main.passed = some k ∧ j ≤ k)
    (hleft : s.main.inCleanup = true ∨ (s'.main.serves = true ∧ s.g_should_shutdown = true) →
      s'.main.left n s.p_conns.length s.p_new_conns.length <
        s.main.left n s.p_conns.length s.p_new_conns.length)
    (hlater : s.main.serves = true ∨ s'.main.inCleanup = true := by exact Or.inl rfl)
    (hlast : s'.main = .finished ↔ s.main = .destroy_tpool := by
      constructor <;> intro hpc <;> cases hpc)
    (hpool : s'.pool = s.pool := by exact rfl) (htask : s'.task = s.task := by exact rfl)
    (hconns : s'.p_conns = s.p_conns := by exact rfl)
    (hnew : s'.p_new_conns = s.p_new_conns := by exact rfl)
    (hflag : s'.g_should_shutdown = s.g_should_shutdown := by exact rfl) : MainPass s s' where
  holes := by
    rcases hpassed with hnone | ⟨j, k, hwas, hnow, hle⟩
    · exact .of_none hnone
    · intro k' hk i hi
      rw [hnow] at hk
      cases hk
      rw [hconns]
      exact hholes j hwas i (hle.trans hi)
  hands := by
    unfold Server.hands
    rw [hpool, htask]
  flag := hflag
  waits hin := Or.inl (hpool ▸ hin)
  later := hlater
  last := hlast
  left h := by
    unfold Server.main_left
    rw [hpool, hconns, hnew]
    have hless := hleft h
    omega

/-- A step within the turn of one entry, or from it to the next entry. -/
theorem MainPass.in_turn {s s' : Server n} {conn : Nat} (hholes : NoHoles s)
    (hless : s'.main.turn < s.main.turn)
    (hwas : ∀ a b, s.main.left n a b = 458 * (a - (conn + 1)) + 2 + s.main.turn := by
      exact fun _ _ => rfl)
    (hnow : ∀ a b, s'.main.left n a b = 458 * (a - (conn + 1)) + 2 + s'.main.turn := by
      exact fun _ _ => rfl)
    (hpassed : s.main.passed = some 0 := by exact rfl)
    (hserves : s.main.serves = true := by exact rfl)
    (hnext : s'.main.passed = some 0 := by exact rfl)
    (hlast : s'.main = .finished ↔ s.main = .destroy_tpool := by
      constructor <;> intro hpc <;> cases hpc)
    (hpool : s'.pool = s.pool := by exact rfl) (htask : s'.task = s.task := by exact rfl)
    (hconns : s'.p_conns = s.p_conns := by exact rfl)
    (hnew : s'.p_new_conns = s.p_new_conns := by exact rfl)
    (hflag : s'.g_should_shutdown = s.g_should_shutdown := by exact rfl) : MainPass s s' := by
  refine .walk hholes (Or.inr ⟨0, 0, hpassed, hnext, Nat.le_refl 0⟩) (fun _ => ?_)
    (Or.inl hserves) hlast hpool htask hconns hnew hflag
  rw [hwas, hnow]
  omega

theorem foldl_make_pass (links : List Link) (s : Server n) :
    (links.foldl Server.make s).hands = s.hands ∧
    (links.foldl Server.make s).g_should_shutdown = s.g_should_shutdown := by
  induction links generalizing s with
  | nil => exact ⟨rfl, rfl⟩
  | cons k links ih => exact ih (s.make k)

theorem main_pass_cases {o : main_outs} {s s' : Server n} (hres : o.res = 0) (hholes : NoHoles s)
    (hcur : ∀ conn p, s.main.cur = some (conn, p) → s.p_conns[conn]? = some (some p))
    (h : main_step o s = some s') : MainPass s s' := by
  have hin : ∀ conn p, s.main.cur = some (conn, p) → conn < s.p_conns.length := fun conn p hc =>
    (List.getElem?_eq_some_iff.mp (hcur conn p hc)).1
  have hnone : ∀ conn : Nat, s.p_conns[conn]? = none → s.p_conns.length ≤ conn := fun conn hc =>
    List.getElem?_eq_none_iff.mp hc
  clear hcur
  unfold main_step at h
  obtain ⟨pool, task, ctxs, made, p_conns, p_new_conns, revents, main, flag, sfd, sigpipe_fd⟩ := s
  simp only [hres, if_true, true_and] at h
  cases main with
  | reg_listener | reg_sigpipe =>
    simp only at h
    split at h
    · cases h
      refine { holes := hholes, left := fun _ => ?_ }
      simp [Server.main_left, Server.goto, Server.make, main_pc.left]
    · cases h
      exact .walk hholes (Or.inl rfl) (out_of_loop rfl rfl)
  | loop_head =>
    simp only at h
    split at h
    · obtain ⟨t, ht, rfl⟩ := Option.map_eq_some_iff.mp h
      obtain ⟨hidle, rfl⟩ := start_some ht
      exact { holes := hholes, waits := fun _ => Or.inr rfl, left := out_of_loop rfl rfl }
    · rename_i hrun
      cases h
      exact .walk hholes (Or.inr ⟨0, 0, rfl, rfl, Nat.le_refl 0⟩) fun hgo =>
        absurd (hgo.resolve_left Bool.false_ne_true).2 hrun
  | close_check conn =>
    simp only at h
    split at h
    · cases h
      refine .walk hholes (Or.inl rfl) fun _ => ?_
      simp only [Server.goto, main_pc.left]
      omega
    · cases h
    · rename_i p hp
      have hlt := (List.getElem?_eq_some_iff.mp hp).1
      split at h
      · cases h
        refine .walk hholes (Or.inr ⟨conn, conn + 1, rfl, rfl, Nat.le_succ conn⟩) fun _ => ?_
        simp only [Server.goto, main_pc.left]
        omega
      · cases h
        refine .walk hholes (Or.inr ⟨conn, conn, rfl, rfl, Nat.le_refl conn⟩) fun _ => ?_
        simp only [Server.goto, main_pc.left]
        omega
  | close_lock conn p =>
    obtain ⟨t, ht, rfl⟩ := Option.map_eq_some_iff.mp h
    clear h
    obtain ⟨-, -, rfl⟩ := (lock_some ht).resolve_right fun hfail => hfail.1 rfl
    refine .walk hholes (Or.inr ⟨conn, conn, rfl, rfl, Nat.le_refl conn⟩) fun _ => ?_
    simp [Server.goto, main_pc.left]
  | close_read conn p =>
    cases h
    exact .walk hholes (Or.inr ⟨conn, conn, rfl, rfl, Nat.le_refl conn⟩) fun _ => by
      simp [Server.goto, main_pc.left]
  | close_unlock conn p cur_refs cur_state =>
    cases h
    split
    · exact .walk hholes (Or.inr ⟨conn, conn, rfl, rfl, Nat.le_refl conn⟩) fun _ => by
        simp [Server.goto, main_pc.left]
    · refine .walk hholes (Or.inr ⟨conn, conn + 1, rfl, rfl, Nat.le_succ conn⟩) fun _ => ?_
      simp only [Server.goto, main_pc.left]
      omega
  | close_destroy conn p =>
    cases h
    refine { holes := fun k hk i hi => ?_, left := fun _ => ?_ }
    · cases hk
      have hi : conn + 1 ≤ i := hi
      simp only [Server.goto, Server.set_null, Server.destroy,
        List.getElem?_set_ne (show conn ≠ i by omega)]
      exact hholes conn rfl i (by omega)
    · have hlt := hin conn p rfl
      simp only [Server.goto, Server.set_null, Server.destroy, Server.main_left, main_pc.left,
        List.length_set]
      omega
  | update =>
    simp only at h
    split at h
    · cases h
      have hlen := List.length_filter_le Option.isSome p_conns
      refine { holes := fun k _ i _ hnull => ?_, left := fun _ => ?_ }
      · have hmem := List.mem_of_getElem? hnull
        simp [Server.goto] at hmem
      · simp only [Server.goto, Server.main_left, main_pc.left, List.length_append,
          List.length_map]
        omega
    · cases h
      exact { holes := .of_none rfl, left := out_of_loop rfl rfl }
  | poll =>
    simp only at h
    split at h
    · cases h
      exact .walk hholes (Or.inr ⟨0, 0, rfl, rfl, Nat.le_refl 0⟩) fun _ => by
        simp [Server.goto, main_pc.left]
    · obtain ⟨t, ht, rfl⟩ := Option.map_eq_some_iff.mp h
      obtain ⟨hidle, rfl⟩ := start_some ht
      exact { holes := hholes, waits := fun _ => Or.inr rfl, left := out_of_loop rfl rfl }
  | dispatch conn =>
    have hzero : ∀ pc : main_pc, pc.passed = some 0 → pc.passed = none ∨
        ∃ j k, (main_pc.dispatch conn).passed = some j ∧ pc.passed = some k ∧ j ≤ k :=
      fun _ hpc => Or.inr ⟨0, 0, rfl, hpc, Nat.le_refl 0⟩
    simp only at h
    split at h
    · cases h
      exact .walk hholes (hzero _ rfl) fun _ => by
        simp only [Server.goto, main_pc.left]
        omega
    · cases h
    · rename_i p hp
      have hlt := (List.getElem?_eq_some_iff.mp hp).1
      split at h
      · split at h
        · cases h
          exact .walk hholes (hzero _ rfl) fun _ => by
            simp only [Server.goto, main_pc.left, main_pc.cur, main_pc.turn, Option.map_some,
              Option.getD_some]
            omega
        · split at h
          · cases h
            exact .walk hholes (hzero _ rfl) fun _ => by
              simp only [Server.goto, main_pc.left]
              omega
          · cases h
            exact .walk hholes (hzero _ rfl) fun _ => by
              simp only [Server.goto, main_pc.left, main_pc.cur, main_pc.turn, Option.map_some,
                Option.getD_some]
              omega
      · cases h
        exact .walk hholes (hzero _ rfl) fun _ => by
          simp only [Server.goto, main_pc.left, main_pc.cur, main_pc.turn, Option.map_some,
            Option.getD_some]
          omega
  | accept conn p =>
    cases h
    rw [← List.foldl_map]
    set s : Server n :=
      ⟨pool, task, ctxs, made, p_conns, p_new_conns, revents, .accept conn p, flag, sfd, sigpipe_fd⟩
    obtain ⟨hpool, -, hconns, -⟩ := foldl_make_kept (o.clients.map client_link) s
    obtain ⟨hhands, hflag⟩ := foldl_make_pass (o.clients.map client_link) s
    refine ⟨fun k _ i _ => ?_, hhands, hflag, fun hwait => Or.inl (hpool ▸ hwait), Or.inl rfl, ?_,
      fun hgo => ?_⟩
    · show (List.foldl Server.make s (o.clients.map client_link)).p_conns[i]? ≠ some none
      rw [hconns]
      exact hholes 0 rfl i (Nat.zero_le i)
    · constructor
      · intro hpc
        simp only [Server.goto] at hpc
        split at hpc <;> cases hpc
      · intro hpc
        cases hpc
    · have hserves := (hgo.resolve_left Bool.false_ne_true).1
      simp only [Server.goto] at hserves
      unfold Server.main_left
      simp only [Server.goto, hpool, hconns]
      split at hserves
      · rename_i hok
        simp only [if_pos hok, main_pc.left, main_pc.cur, main_pc.turn, s]
        omega
      · cases hserves
  | task_lock func conn p =>
    obtain ⟨t, ht, rfl⟩ := Option.map_eq_some_iff.mp h
    clear h
    obtain ⟨-, -, rfl⟩ := (lock_some ht).resolve_right fun hfail => hfail.1 rfl
    cases func with
    | task_io_read => exact .in_turn hholes (by simp [Server.goto, main_pc.turn])
    | task_io_send => exact .in_turn hholes (by simp [Server.goto, main_pc.turn])
  | task_ref func conn p =>
    obtain ⟨t, ht, rfl⟩ := Option.map_eq_some_iff.mp h
    obtain ⟨hidle, rfl⟩ := start_some ht
    have hgoto := left_of_goto hidle (.submit_alloc ⟨func, p⟩ false)
    refine { holes := hholes, waits := fun hwait => ?_, left := fun _ => ?_ }
    · simp [Server.goto, Server.set_link, Call.start, client_pc.inWait] at hwait
    · simp only [Server.goto, Server.set_link, Server.main_left, Call.start] at hgoto ⊢
      rw [hgoto]
      cases func
      · simp only [main_pc.left, main_pc.cur, main_pc.turn, client_pc.left]
        omega
      · simp only [main_pc.left, main_pc.cur, main_pc.turn, client_pc.left]
        omega
  | task_submit func conn p =>
    obtain ⟨tp_status, -, rfl⟩ := Option.map_eq_some_iff.mp h
    split
    · rename_i hfail
      obtain ⟨-, rfl⟩ := hfail
      exact .in_turn hholes (by simp [Server.goto, main_pc.turn])
    · cases func with
      | task_io_read => exact .in_turn hholes (by simp [Server.goto, main_pc.turn])
      | task_io_send => exact .in_turn hholes (by simp [Server.goto, main_pc.turn])
  | task_unlock func conn p =>
    cases h
    cases func with
    | task_io_read => exact .in_turn hholes (by simp [Server.goto, main_pc.turn])
    | task_io_send => exact .in_turn hholes (by simp [Server.goto, main_pc.turn])
  | failed_unlock conn p =>
    cases h
    exact .walk hholes (Or.inl rfl) (out_of_loop rfl rfl)
  | hup conn p =>
    cases h
    split
    · exact .in_turn hholes (by simp [Server.goto, main_pc.turn])
    · exact .in_turn hholes (by simp [Server.goto, main_pc.turn])
  | hup_lock conn p =>
    obtain ⟨t, ht, rfl⟩ := Option.map_eq_some_iff.mp h
    clear h
    obtain ⟨-, -, rfl⟩ := (lock_some ht).resolve_right fun hfail => hfail.1 rfl
    exact .in_turn hholes (by simp [Server.goto, main_pc.turn])
  | hup_mark conn p =>
    cases h
    exact .in_turn hholes (by simp [Server.goto, main_pc.turn])
  | hup_unlock conn p =>
    cases h
    exact .in_turn hholes (by simp [Server.goto, main_pc.turn])
  | out conn p =>
    cases h
    split
    · exact .in_turn hholes (by simp [Server.goto, main_pc.turn])
    · exact .in_turn hholes (by simp [Server.goto, main_pc.turn])
  | wait =>
    obtain ⟨tp_status, -, rfl⟩ := Option.map_eq_some_iff.mp h
    exact .walk hholes (Or.inl rfl) (out_of_loop rfl rfl) (Or.inr rfl)
  | destroy_all idx =>
    simp only at h
    split at h
    · cases h
      refine .walk hholes (Or.inl rfl) (fun _ => ?_) (Or.inr rfl)
      simp only [Server.goto, main_pc.left]
      omega
    · rename_i hnull
      have hlt := (List.getElem?_eq_some_iff.mp hnull).1
      cases h
      refine .walk hholes (Or.inl rfl) (fun _ => ?_) (Or.inr rfl)
      simp only [Server.goto, main_pc.left]
      omega
    · rename_i p hp
      have hlt := (List.getElem?_eq_some_iff.mp hp).1
      cases h
      refine { holes := .of_none rfl, later := Or.inr rfl, left := fun _ => ?_ }
      simp only [Server.goto, Server.set_null, Server.destroy, Server.main_left, main_pc.left,
        List.length_set]
      omega
  | destroy_queue =>
    simp only at h
    split at h
    · obtain ⟨t, ht, rfl⟩ := Option.map_eq_some_iff.mp h
      obtain ⟨hidle, rfl⟩ := start_some ht
      have hgoto := left_of_goto hidle .stop_lock
      refine { holes := .of_none rfl, waits := fun hwait => ?_, later := Or.inr rfl,
               left := fun _ => ?_ }
      · simp [Server.goto, Call.start, client_pc.inWait] at hwait
      · simp only [Server.goto, Server.main_left, Call.start] at hgoto ⊢
        rw [hgoto]
        simp [main_pc.left, client_pc.left]
        omega
    · cases h
      refine { holes := .of_none rfl, later := Or.inr rfl, left := fun _ => ?_ }
      simp [Server.destroy, Server.main_left, main_pc.left]
  | destroy_tpool =>
    obtain ⟨tp_status, -, rfl⟩ := Option.map_eq_some_iff.mp h
    refine .walk hholes (Or.inl rfl) (fun _ => ?_) (Or.inr rfl) ⟨fun _ => rfl, fun _ => rfl⟩
    simp [Server.goto, main_pc.left]
  | finished => cases h

end pingpong.server
