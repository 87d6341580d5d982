-- The end of the server: once the shutdown is asked for, main comes out of its loop, its wait for
-- the pool returns, and it destroys the pool, whatever the clients and the workers do.
import PingPong.ServerRest
import Mathlib.Data.Finite.Sum

namespace pingpong.server

open concurinc connmgr machine mutex netio tally tasks Filter

variable {n : Nat} {host : ByteOrder}

theorem serves_of_cleanup {pc : main_pc} (h : pc.inCleanup = true) : pc.serves = false := by
  cases pc <;> first | rfl | cases h

section Step

variable {s s' : Server n}

/-! ## The way out -/

/-- Main moves in its own steps only. -/
theorem main_kept {l : ServerLabel n} (hs : server_step host s l = some s')
    (hl : ∀ o, l ≠ .main o) : s'.main = s.main := by
  cases server_step_cases hs with
  | main o => exact absurd rfl (hl o)
  | call | worker | signal => rfl
  | task w res outs t hrun ht hmove => exact hmove.stays.2.1

/-- Out of its loop, main waits and then cleans up. -/
theorem later {l : ServerLabel n} (h : Ordered host s) (hok : l.Ok)
    (hs : server_step host s l = some s') (hout : s.main.serves = false) :
    s'.main = s.main ∨ s'.main.inCleanup = true := by
  cases l with
  | main o => exact Or.inr ((h.pass hok hs).later.resolve_left (Bool.eq_false_iff.mp hout))
  | _ => exact Or.inl (main_kept hs nofun)

/-- The step of the pool in a step of the server, when main begins no call. -/
def inPool : ServerLabel n → Option (PoolLabel n Unit io_task)
  | .call o => some (.client () o)
  | .worker w o => some (.worker w o)
  | .main _ | .task _ _ _ | .signal => none

theorem pool_of_inPool {l : ServerLabel n} {k : PoolLabel n Unit io_task} (hk : inPool l = some k)
    (hs : server_step host s l = some s') : pool_step s.pool k = some s'.pool := by
  cases server_step_cases hs with
  | call o pool hpool =>
    cases hk
    exact hpool
  | worker w o pool hpool =>
    cases hk
    exact hpool
  | _ => cases hk

theorem pool_kept {l : ServerLabel n} (hl : ∀ o, l ≠ .main o) (hk : inPool l = none)
    (hs : server_step host s l = some s') : s'.pool = s.pool := by
  cases server_step_cases hs with
  | main o => exact absurd rfl (hl o)
  | call => cases hk
  | worker => cases hk
  | task w res outs t hrun ht hmove => exact hmove.stays.1
  | signal => rfl

/-! ## The steps that are left -/

theorem flag_kept {l : ServerLabel n} (h : Ordered host s) (hok : l.Ok)
    (hs : server_step host s l = some s') (hflag : s.g_should_shutdown = true) :
    s'.g_should_shutdown = true := by
  cases l with
  | main o => exact (h.pass hok hs).flag.trans hflag
  | call o =>
    obtain ⟨pool, -, rfl⟩ := Option.map_eq_some_iff.mp hs
    exact hflag
  | worker w o =>
    cases server_step_cases hs
    exact hflag
  | task w res outs =>
    cases server_step_cases hs with
    | task _ _ _ t hrun ht hmove => cases hmove <;> exact hflag
  | signal =>
    cases hs
    rfl

theorem left_of_task {w : Fin n} {p : ctx_id} {res : Int} (h : TaskMove w p res s s')
    (hrun : (s.pool.workers w).pc = .run) : s'.left < s.left := by
  have hstep : ∃ y, s'.task = Function.update s.task w y ∧ y.left < (s.task w).left := by
    cases h with
    | lock hpc | lock_failed hpc | handle _ hpc | release hpc | unlock hpc =>
      exact ⟨_, rfl, by rw [hpc]; exact Nat.lt_succ_self _⟩
  obtain ⟨y, htask, hless⟩ := hstep
  obtain ⟨hpool, hmain, hconns, hnew, -⟩ := h.stays
  have hworkers : s'.pool.workers = Function.update s.pool.workers w (s.pool.workers w) := by
    rw [hpool, Function.update_eq_self]
  obtain ⟨rest, hold, hafter⟩ := total_split task_left s.hands w
  have hwas : task_left (s.hands w) = (s.task w).left := if_pos hrun
  have hnow : task_left (s.pool.workers w, y) = y.left := if_pos hrun
  unfold Server.left Server.main_left
  rw [hands_update hworkers htask, hafter, hold, hwas, hnow, hpool, hmain, hconns, hnew]
  omega

/-- The steps of a worker, in the pool and in its task. -/
theorem left_of_worker (hn : 0 < n) (h : Ordered host s) {l : ServerLabel n} {w : Fin n}
    (hl : l.Of (.worker w)) (hs : server_step host s l = some s') : s'.left < s.left := by
  obtain ⟨hthread, hok, hcalm⟩ := hl
  have hpool := pool_of_reachable h.reachable
  cases server_step_cases hs with
  | main o => cases hthread
  | call o => cases hthread
  | signal => cases hthread
  | worker v o pool hstep hrun =>
    cases hthread
    have hless := left_of_worker_step (tended_of_reachable hpool)
      (wakeful_of_reachable hn hpool).flag hok hcalm hstep
    obtain ⟨x, hw⟩ := worker_step_cases hstep
    have hhands : ({ s with pool := pool }.set_task w .lock : Server n).hands =
        Function.update s.hands w (x, .lock) := hands_update hw.workers rfl
    obtain ⟨rest, hold, hnew⟩ := total_split task_left s.hands w
    have hnext : task_left (x, .lock) ≤ 4 := by
      unfold task_left
      split
      · exact Nat.le_refl 4
      · exact Nat.zero_le 4
    unfold Server.left
    rw [hhands, hold, hnew]
    simp only [Server.set_task, Server.main_left]
    omega
  | task v res outs t hrun ht hmove =>
    cases hthread
    exact left_of_task hmove hrun

/-- The steps of main in a call of the pool. In its wait they lower nothing. -/
theorem left_of_call (h : Ordered host s) {o : Outcome n} (hok : o.res = 0)
    (hs : server_step host s (.call o) = some s') :
    s'.left ≤ s.left ∧ (s.main ≠ .wait → s'.left < s.left) := by
  obtain ⟨pool, hstep, rfl⟩ := Option.map_eq_some_iff.mp hs
  obtain ⟨y, hc⟩ := client_step_cases hstep
  have hhands : ({ s with pool := pool } : Server n).hands = s.hands := by
    unfold Server.hands
    simp only [hc.workers]
  unfold Server.left Server.main_left
  rw [hhands]
  cases hin : (s.pool.clients ()).pc.inWait with
  | true =>
    have hsame := (frozen_of_wait_step hstep hok hin).2.2.2
    exact ⟨by simp only [hsame]; omega, fun hwait => absurd (h.waits hin) hwait⟩
  | false =>
    have hless := left_of_client_step hok hin hstep
    exact ⟨by simp only; omega, fun _ => by simp only; omega⟩

/-- While the shutdown is under way, every step of a thread lowers what is left, unless main waits
for the pool. -/
theorem left_of_step (hn : 0 < n) (h : Ordered host s) {l : ServerLabel n}
    (hl : ∃ t, l.Of t) (hwait : s.main ≠ .wait)
    (hstops : s.main.inCleanup = true ∨ (s'.main.serves = true ∧ s.g_should_shutdown = true))
    (hs : server_step host s l = some s') : s'.left < s.left := by
  obtain ⟨t, hof⟩ := hl
  have hok := hof.2.1
  cases l with
  | main o =>
    have hpass := h.pass hok hs
    have hless := hpass.left hstops
    unfold Server.left
    rw [hpass.hands]
    omega
  | call o => exact (left_of_call h hok hs).2 hwait
  | worker w o =>
    cases hof.1
    exact left_of_worker hn h hof hs
  | task w res outs =>
    cases hof.1
    exact left_of_worker hn h hof hs
  | signal => cases hof.1

end Step

/-! ## Fair executions -/

instance {γ : Type} [Finite γ] : Finite (Thread n γ) := by
  refine Finite.of_injective
    (fun t : Thread n γ => match t with
      | .worker w => Sum.inl w
      | .client c => Sum.inr c) fun t u h => ?_
  cases t <;> cases u <;> cases h <;> rfl

/-- An execution of the server whose pthread calls succeed. In the end no thread wakes up without a
signal, and each thread that can take a step again and again takes steps again and again. -/
structure FairServer (host : ByteOrder) (e : Execution (server_machine (n := n) host)) : Prop where
  reachable : Reachable host (fun _ l => l.Ok) (e.state 0)
  steps : ∀ i l, e.label i = some l → l.Ok
  calm : ∀ᶠ i in atTop, ∀ l, e.label i = some l → l.Calm
  fair : ∀ t, e.Fair fun _ l => l.Of t

namespace FairServer

variable {e : Execution (server_machine (n := n) host)}

theorem ordered (hn : 0 < n) (h : FairServer host e) (i : Nat) : Ordered host (e.state i) :=
  Execution.invariant (P := Ordered host) (ordered_of_reachable hn h.reachable)
    (fun i l hl ho => ho.step hn (h.steps i l hl) (e.steps i l hl)) i

theorem tail (hn : 0 < n) (h : FairServer host e) (k : Nat) : FairServer host (e.tail k) where
  reachable := (h.ordered hn (0 + k)).reachable
  steps i := h.steps (i + k)
  calm := (Execution.eventually_add (P := fun i => ∀ l, e.label i = some l → l.Calm) k).mpr h.calm
  fair t := (h.fair t).tail k

/-- What is left does not go up while the shutdown is under way and main does not wait. -/
theorem lowers (hn : 0 < n) (h : FairServer host e) {i : Nat} {l : ServerLabel n}
    (hl : e.label i = some l) (hcalm : l.Calm) (hwait : (e.state i).main ≠ .wait)
    (hstops : (e.state i).main.inCleanup = true ∨
      ((e.state (i + 1)).main.serves = true ∧ (e.state i).g_should_shutdown = true)) :
    (e.state (i + 1)).left ≤ (e.state i).left ∧
      ((∃ t, l.Of t) → (e.state (i + 1)).left < (e.state i).left) := by
  have hs := e.steps i l hl
  have hless : (∃ t, l.Of t) → (e.state (i + 1)).left < (e.state i).left := fun ht =>
    left_of_step hn (h.ordered hn i) ht hwait hstops hs
  refine ⟨?_, hless⟩
  cases hthread : l.thread with
  | some t => exact (hless ⟨t, hthread, h.steps i l hl, hcalm⟩).le
  | none =>
    cases l with
    | signal => exact (congrArg Server.left (Option.some.inj hs)).ge
    | _ => cases hthread

/-! ## The loop -/

theorem stays_out (hn : 0 < n) (h : FairServer host e) {i : Nat} {l : ServerLabel n}
    (hl : e.label i = some l) (hout : ¬ (e.state i).main.serves = true) :
    ¬ (e.state (i + 1)).main.serves = true := by
  have hout := Bool.eq_false_iff.mpr hout
  refine Bool.eq_false_iff.mp ?_
  rcases later (h.ordered hn i) (h.steps i l hl) (e.steps i l hl) hout with hsame | hin
  · exact hsame ▸ hout
  · exact serves_of_cleanup hin

/-- Main comes out of its loop when the shutdown is asked for. -/
theorem leaves_loop (hn : 0 < n) (h : FairServer host e) {k : Nat}
    (hflag : (e.state k).g_should_shutdown = true) :
    ∀ᶠ i in atTop, ¬ (e.state i).main.serves = true := by
  have hset : ∀ i, k ≤ i → (e.state i).g_should_shutdown = true := by
    intro i hi
    refine Execution.invariant_from
      (P := fun s : Server n => s.g_should_shutdown = true) hflag ?_ hi
    exact fun i l _ hl hs => flag_kept (h.ordered hn i) (h.steps i l hl) (e.steps i l hl) hs
  have hleaves : ∃ᶠ i in atTop, ¬ (e.state i).main.serves = true := by
    refine Execution.leaves_of_rank (S := fun s : Server n => s.main.serves = true) Server.left
      h.fair ?_ ?_
    · filter_upwards [h.calm, eventually_ge_atTop k] with i hcalm hi l hl hserves hnext
      refine h.lowers hn hl (hcalm l hl) ?_ (Or.inr ⟨hnext, hset i hi⟩)
      intro hpc
      rw [hpc] at hserves
      cases hserves
    · intro i hserves
      by_contra hnone
      push Not at hnone
      rw [(h.ordered hn i).finished_of_still hn hnone] at hserves
      cases hserves
  exact Execution.left_for_good (S := fun s : Server n => s.main.serves = true) hleaves
    fun i l hl => h.stays_out hn hl

/-! ## The wait -/

section Wait

variable (hn : 0 < n) (h : FairServer host e) (hwait : ∀ i, (e.state i).main = .wait)

include hn h hwait

theorem no_main_step {i : Nat} {o : main_outs} : e.label i ≠ some (.main o) := by
  intro hl
  have hin := ((h.ordered hn i).pass (h.steps i _ hl) (e.steps i _ hl)).later
  rw [hwait i, hwait (i + 1)] at hin
  simp [main_pc.serves, main_pc.inCleanup] at hin

/-- In the end no worker can take a step. -/
theorem no_worker_ready :
    ∀ᶠ i in atTop, ∀ w, ¬ (e.state i).Ready host (.worker w) := by
  have hnever : ∀ᶠ i in atTop, ¬ e.Takes (fun _ l => ∃ w, l.Of (.worker w)) i := by
    refine Execution.never_taken_of_rank Server.left ?_
    filter_upwards [h.calm] with i hcalm l hl
    have ho := h.ordered hn i
    have hs := e.steps i l hl
    have hok := h.steps i l hl
    have hless : (∃ w, l.Of (.worker w)) → (e.state (i + 1)).left < (e.state i).left :=
      fun ⟨w, hof⟩ => left_of_worker hn ho hof hs
    refine ⟨?_, hless⟩
    cases l with
    | main o => exact absurd hl (h.no_main_step hn hwait)
    | call o => exact (left_of_call ho hok hs).1
    | worker w o => exact (hless ⟨w, rfl, hok, hcalm _ hl⟩).le
    | task w res outs => exact (hless ⟨w, rfl, hok, trivial⟩).le
    | signal => exact (congrArg Server.left (Option.some.inj hs)).ge
  refine eventually_all.mpr fun w => (h.fair (.worker w)).never_enabled ?_
  filter_upwards [hnever] with i hi
  rintro ⟨l, hl, hof⟩
  exact hi ⟨l, hl, w, hof⟩

/-- A worker that is in a task could go on, as main holds no mutex of a context. -/
theorem no_worker_runs :
    ∀ᶠ i in atTop, ∀ w, ((e.state i).pool.workers w).pc ≠ .run := by
  filter_upwards [h.no_worker_ready hn hwait] with i hnone w hrun
  have ho := h.ordered hn i
  refine hnone w (ho.task_ready hrun fun t _ _ => ?_)
  cases hm : ((e.state i).ctxs t.work.coin_task_arg).mutex with
  | free => rfl
  | destroyed => exact absurd hm (ho.reachable.undestroyed _)
  | held u =>
    cases u with
    | worker v => exact absurd (ho.holder_ready hm) (hnone v)
    | client c =>
      have hlocks := inside_client.mp ((kept_ctx_of_reachable ho.reachable).2 _ _ hm)
      rw [hwait i] at hlocks
      cases hlocks

/-- While main waits, what happens in the pool is a fair execution of it. -/
theorem pool_run : ∃ pe : Execution (pool_machine (n := n) (γ := Unit) (φ := io_task)),
    FairRun pe ∧ ∀ i, pe.state i = (e.state i).pool := by
  have hnot : ∀ {i l}, e.label i = some l → ∀ o, l ≠ .main o := fun hl o hmain =>
    h.no_main_step hn hwait (hmain ▸ hl)
  let pe : Execution (pool_machine (n := n) (γ := Unit) (φ := io_task)) :=
    e.project Server.pool inPool (fun i l hl hk => pool_kept (hnot hl) hk (e.steps i l hl))
      fun i l k hl hk => pool_of_inPool hk (e.steps i l hl)
  have hlabel : ∀ {i k}, pe.label i = some k → ∃ l, e.label i = some l ∧ inPool l = some k :=
    fun hk => Option.bind_eq_some_iff.mp hk
  have hstart := h.ordered hn 0
  have hrun := hstart.runs (by rw [hwait 0]; rfl)
  refine ⟨pe, ⟨hrun.reachable, hrun.flag, hrun.kept, fun i k hk => ?_, ?_, fun t hoften => ?_⟩,
    fun i => rfl⟩
  · obtain ⟨l, hl, hin⟩ := hlabel hk
    have hok := h.steps i l hl
    cases l with
    | call o =>
      cases hin
      exact ⟨hok, _, rfl⟩
    | worker w o =>
      cases hin
      exact ⟨hok, _, rfl⟩
    | _ => cases hin
  · filter_upwards [h.calm] with i hcalm w o hk
    obtain ⟨l, hl, hin⟩ := hlabel hk
    cases l with
    | worker v o' =>
      cases hin
      exact hcalm _ hl
    | _ => cases hin
  · cases t with
    | worker w =>
      -- no worker is ready there
      refine absurd hoften (not_frequently.mpr ?_)
      filter_upwards [h.no_worker_ready hn hwait, h.no_worker_runs hn hwait] with i hnone hruns hgo
      exact hnone w (ready_of_worker hgo fun hpc => absurd hpc (hruns w))
    | client c =>
      refine (h.fair (.client ()) (hoften.mono fun i hgo => ready_of_client hgo)).mono fun i => ?_
      rintro ⟨l, hl, hthread, hok, hcalm⟩
      cases l with
      | main o => exact absurd hl (h.no_main_step hn hwait)
      | call o =>
        refine ⟨.client () o, ?_, rfl, hok, hcalm⟩
        show (e.label i).bind inPool = _
        rw [hl]
        rfl
      | _ => cases hthread

end Wait

/-- The wait of main for the pool comes to an end. -/
theorem wait_returns (hn : 0 < n) (h : FairServer host e) : ∃ i, (e.state i).main ≠ .wait := by
  by_contra hnever
  push Not at hnever
  obtain ⟨pe, hfair, hstate⟩ := h.pool_run hn hnever
  have hrest : ∀ᶠ i in atTop, AtRest (e.state i).pool := (hfair.comes_to_rest hn).mono fun i hi =>
    hstate i ▸ hi
  have hready : ∀ᶠ i in atTop, (e.state i).Ready host (.client ()) := by
    filter_upwards [hrest] with i hi
    refine (h.ordered hn i).main_ready (hi.idle ()) (fun p hp => ?_) ?_
    · rw [hnever i] at hp
      cases hp
    · rw [hnever i]
      nofun
  obtain ⟨i, ⟨l, hl, hthread, -⟩, hi⟩ :=
    ((h.fair (.client ()) hready.frequently).and_eventually hrest).exists
  cases l with
  | main o => exact h.no_main_step hn hnever hl
  | call o =>
    obtain ⟨pool, hpool, -⟩ := Option.map_eq_some_iff.mp (e.steps i _ hl)
    exact client_open hpool (hi.idle ())
  | _ => cases hthread

/-! ## The end -/

theorem comes_to_cleanup (hn : 0 < n) (h : FairServer host e)
    (hout : ∀ᶠ i in atTop, ¬ (e.state i).main.serves = true) :
    ∀ᶠ i in atTop, (e.state i).main.inCleanup = true := by
  obtain ⟨k, hk⟩ := eventually_atTop.mp hout
  obtain ⟨i, hi⟩ := (h.tail hn k).wait_returns hn
  have hi : (e.state (i + k)).main ≠ .wait := hi
  have hin : (e.state (i + k)).main.inCleanup = true := by
    have hserves := hk (i + k) (Nat.le_add_left k i)
    generalize (e.state (i + k)).main = pc at hi hserves
    cases pc with
    | wait => exact absurd rfl hi
    | destroy_all | destroy_queue | destroy_tpool | finished => rfl
    | _ => exact absurd rfl hserves
  refine eventually_atTop.mpr ⟨i + k, fun j hj => ?_⟩
  refine Execution.invariant_from (P := fun s : Server n => s.main.inCleanup = true) hin ?_ hj
  intro j l _ hl hin
  rcases later (h.ordered hn j) (h.steps j l hl) (e.steps j l hl) (serves_of_cleanup hin) with
    hsame | hnext
  · exact hsame ▸ hin
  · exact hnext

theorem finishes (hn : 0 < n) (h : FairServer host e)
    (hclean : ∀ᶠ i in atTop, (e.state i).main.inCleanup = true) :
    ∀ᶠ i in atTop, (e.state i).main = .finished := by
  have hleaves : ∃ᶠ i in atTop, ¬ (e.state i).main ≠ .finished := by
    refine Execution.leaves_of_rank (S := fun s : Server n => s.main ≠ .finished) Server.left
      h.fair ?_ ?_
    · filter_upwards [h.calm, hclean] with i hcalm hin l hl _ _
      refine h.lowers hn hl (hcalm l hl) ?_ (Or.inl hin)
      intro hpc
      rw [hpc] at hin
      cases hin
    · intro i hgo
      by_contra hnone
      push Not at hnone
      exact hgo ((h.ordered hn i).finished_of_still hn hnone)
  have hends := Execution.left_for_good (S := fun s : Server n => s.main ≠ .finished) hleaves ?_
  · filter_upwards [hends] with i hi
    exact not_not.mp hi
  · intro i l hl hi hgo
    refine hgo ((main_kept (e.steps i l hl) ?_).trans (not_not.mp hi))
    rintro o rfl
    have hs : main_step o (e.state i) = some (e.state (i + 1)) := e.steps i _ hl
    unfold main_step at hs
    simp [not_not.mp hi] at hs

end FairServer

/-- In every fair execution of the server in which the pthread calls succeed and each `poll` returns
some time: once the shutdown is asked for, or main has left its loop, main finishes. By then
`coin_tpool_destroy` has returned `COIN_SUCCESS`, and all workers have exited. -/
theorem a_shutdown_ends_under_a_fair_scheduler (hn : 0 < n)
    {e : Execution (server_machine (n := n) host)} (h : FairServer host e) {k : Nat}
    (hstop : (e.state k).g_should_shutdown = true ∨ (e.state k).main.serves = false) :
    ∀ᶠ i in atTop, (e.state i).main = .finished ∧
      ((e.state i).pool.clients ()).status = .COIN_SUCCESS ∧ AllExited (e.state i).pool := by
  have hout : ∀ᶠ i in atTop, ¬ (e.state i).main.serves = true := by
    rcases hstop with hflag | hout
    · exact h.leaves_loop hn hflag
    · refine eventually_atTop.mpr ⟨k, fun i hi => ?_⟩
      exact Execution.invariant_from (P := fun s : Server n => ¬ s.main.serves = true)
        (Bool.eq_false_iff.mp hout) (fun i l _ hl => h.stays_out hn hl) hi
  filter_upwards [h.finishes hn (h.comes_to_cleanup hn hout)] with i hpc
  exact ⟨hpc, ((h.ordered hn i).destroyed_of_finished hpc).2⟩

/-- The signal comes in the 60th step, while main is in its loop. -/
theorem a_signalled_server_finishes :
    ∃ e : Execution (server_machine (n := 1) .big), FairServer .big e ∧
      (e.state 60).g_should_shutdown = true ∧ (e.state 60).main = .loop_head ∧
      ∀ᶠ i in atTop, (e.state i).main = .finished ∧
        ((e.state i).pool.clients ()).status = .COIN_SUCCESS ∧ AllExited (e.state i).pool := by
  obtain ⟨s, hr, hpc⟩ := (server_machine .big).exists_run (fun s : Server 1 => s.main = .finished)
    (new_server 3 4) whole_labels (by decide +kernel)
  let e := Execution.ofRun hr
  have hok : ∀ l ∈ whole_labels, l.Ok := by decide
  have hcalm : ∀ l ∈ whole_labels, l.Calm := by decide
  have hends : ∀ t, ¬ s.Ready .big t := by
    have hreach : Reachable .big (fun _ l => l.Ok) s :=
      ⟨3, 4, _, whole_labels, rfl, Machine.meets_of_mem hok, hr⟩
    exact (ordered_of_reachable Nat.one_pos hreach).still_of_finished hpc
  have hfair : FairServer .big e := by
    refine ⟨⟨3, 4, .start rfl⟩, fun i l hl => hok l (List.mem_of_getElem? hl), ?_,
      fun t => Execution.fair_ofRun hr (hends t)⟩
    exact Eventually.of_forall fun i l hl => hcalm l (List.mem_of_getElem? hl)
  have hflag : (e.state 60).g_should_shutdown = true := by
    show (((server_machine .big).run (new_server 3 4) (whole_labels.take 60)).getD
      (new_server 3 4)).g_should_shutdown = true
    decide +kernel
  have hpc : (e.state 60).main = .loop_head := by
    show (((server_machine .big).run (new_server 3 4) (whole_labels.take 60)).getD
      (new_server 3 4)).main = .loop_head
    decide +kernel
  exact ⟨e, hfair, hflag, hpc,
    a_shutdown_ends_under_a_fair_scheduler Nat.one_pos hfair (Or.inl hflag)⟩

end pingpong.server
