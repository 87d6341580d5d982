-- The mutexes of the contexts: what each step of the server does to one of them,
-- and which threads are under it.
import PingPong.ServerRefs

namespace pingpong.server

open concurinc mutex netio tasks

variable {n : Nat}

/-- The threads under the mutex of context `p`. -/
def Server.inside (s : Server n) (p : ctx_id) : Thread n Unit → Prop
  | .worker w => (s.pool.workers w).p_task.any (onCtx p) = true ∧ (s.task w).inside = true
  | .client _ => s.main.locks = some p

theorem inside_worker {s : Server n} {p : ctx_id} {w : Fin n} : s.inside p (.worker w) ↔
    (s.pool.workers w).p_task.any (onCtx p) = true ∧ (s.task w).inside = true := Iff.rfl

theorem inside_client {s : Server n} {p : ctx_id} {c : Unit} :
    s.inside p (.client c) ↔ s.main.locks = some p := Iff.rfl

/-- The calls on the mutex of a context in the task functions succeed. -/
def ServerLabel.LocksSucceed : ServerLabel n → Prop
  | .task _ res _ => res = 0
  | _ => True

instance : DecidablePred (ServerLabel.LocksSucceed (n := n))
  | .task _ res _ => inferInstanceAs (Decidable (res = 0))
  | .main _ | .call _ | .worker _ _ | .signal => inferInstanceAs (Decidable True)

theorem ServerLabel.Ok.locks {l : ServerLabel n} (h : l.Ok) : l.LocksSucceed := by
  cases l <;> first | exact h | trivial

/-! ## The steps of a task -/

theorem TaskMove.ctxs_other {w : Fin n} {p q : ctx_id} {res : Int} {s s' : Server n}
    (h : TaskMove w p res s s') (hq : q ≠ p) : s'.ctxs q = s.ctxs q := by
  cases h with
  | lock => exact s.set_mutex_other _ hq
  | lock_failed => rfl
  | handle k => exact s.set_link_other k hq
  | release => exact s.set_link_other _ hq
  | unlock => exact s.set_mutex_other _ hq

theorem TaskMove.destroyed {w : Fin n} {p : ctx_id} {res : Int} {s s' : Server n}
    (h : TaskMove w p res s s') (q : ctx_id) : (s'.ctxs q).destroyed = (s.ctxs q).destroyed := by
  cases h with
  | lock => exact (s.set_mutex_keeps p _ q).2
  | lock_failed => rfl
  | handle k => exact (s.set_link_keeps p k q).2
  | release => exact (s.set_link_keeps p _ q).2
  | unlock => exact (s.set_mutex_keeps p _ q).2

/-- The step goes to another point of the task function. It takes the mutex when it comes under
it, and lowers the count when it gives its reference back. -/
theorem TaskMove.effect {w : Fin n} {p : ctx_id} {s s' : Server n} (h : TaskMove w p 0 s s') :
    ∃ y, s'.task = Function.update s.task w y ∧ (s.task w).visits = true ∧
      Mutex.Move 0 (.worker w) ((s.task w).inside = true) (y.inside = true) (s.ctxs p).mutex
        (s'.ctxs p).mutex ∧
      (s'.ctxs p).link.ctx.ref_count + (s.task w).owes.toNat =
        (s.ctxs p).link.ctx.ref_count + y.owes.toNat := by
  cases h with
  | lock hpc hfree =>
    refine ⟨.handle, rfl, by rw [hpc]; rfl, ?_, ?_⟩
    · show Mutex.Move _ _ _ _ _ ((s.set_mutex p (.held (.worker w))).ctxs p).mutex
      rw [s.set_mutex_self]
      exact .take hfree
    · show ((s.set_mutex p _).ctxs p).link.ctx.ref_count + _ = _
      rw [(s.set_mutex_keeps p _ p).1, hpc]
      rfl
  | lock_failed hpc hres => exact absurd rfl hres
  | handle k hpc hk =>
    refine ⟨.release, rfl, by rw [hpc]; rfl, ?_, ?_⟩
    · show Mutex.Move _ _ _ _ _ ((s.set_link p k).ctxs p).mutex
      rw [(s.set_link_keeps p k p).1, hpc]
      exact .stay fun _ => rfl
    · show ((s.set_link p k).ctxs p).link.ctx.ref_count + _ = _
      rw [s.set_link_self, hpc]
      exact congrArg (· + 1) hk
  | release hpc =>
    refine ⟨.unlock, rfl, by rw [hpc]; rfl, ?_, ?_⟩
    · show Mutex.Move _ _ _ _ _ ((s.set_link p _).ctxs p).mutex
      rw [(s.set_link_keeps p _ p).1, hpc]
      exact .stay fun _ => rfl
    · show ((s.set_link p _).ctxs p).link.ctx.ref_count + _ = _
      rw [s.set_link_self, hpc]
      show (s.ctxs p).link.ctx.ref_count + -1 + 1 = (s.ctxs p).link.ctx.ref_count + 0
      omega
  | unlock hpc =>
    refine ⟨.returned, rfl, by rw [hpc]; rfl, ?_, ?_⟩
    · show Mutex.Move _ _ _ _ _ ((s.set_mutex p _).ctxs p).mutex
      rw [s.set_mutex_self]
      exact .leave 0 nofun
    · show ((s.set_mutex p _).ctxs p).link.ctx.ref_count + _ = _
      rw [(s.set_mutex_keeps p _ p).1, hpc]
      rfl

theorem TaskMove.stays {w : Fin n} {p : ctx_id} {res : Int} {s s' : Server n}
    (h : TaskMove w p res s s') :
    s'.pool = s.pool ∧ s'.main = s.main ∧ s'.p_conns = s.p_conns ∧
      s'.p_new_conns = s.p_new_conns ∧ s'.made = s.made := by
  cases h <;> exact ⟨rfl, rfl, rfl, rfl, rfl⟩

/-! ## Any step -/

theorem TaskMove.turn {s s' : Server n} {w : Fin n} {t : coin_task_t io_task}
    (ht : (s.pool.workers w).p_task = some t) (h : TaskMove w t.work.coin_task_arg 0 s s')
    (p : ctx_id) :
    Mutex.Turn 0 (.worker w) (s.inside p) (s'.inside p) (s.ctxs p).mutex (s'.ctxs p).mutex := by
  obtain ⟨hpool, hmain, -⟩ := h.stays
  obtain ⟨y, htask, -, hmutex, -⟩ := h.effect
  have hself : s'.inside p (.worker w) ↔ t.work.coin_task_arg = p ∧ y.inside = true := by
    rw [inside_worker, hpool, ht, htask, Function.update_self]
    exact and_congr_left fun _ => onCtx_iff
  have hwas : s.inside p (.worker w) ↔ t.work.coin_task_arg = p ∧ (s.task w).inside = true := by
    rw [inside_worker, ht]
    exact and_congr_left fun _ => onCtx_iff
  refine ⟨fun u hu => ?_, ?_⟩
  · cases u with
    | worker v =>
      have hv : v ≠ w := fun hv => hu (congrArg Thread.worker hv)
      rw [inside_worker, inside_worker, hpool, htask, Function.update_of_ne hv]
    | client c => rw [inside_client, inside_client, hmain]
  · rw [propext hself, propext hwas]
    by_cases hp : t.work.coin_task_arg = p
    · rw [← hp]
      simp only [true_and]
      exact hmutex
    · -- a task on another context is not under this mutex
      rw [h.ctxs_other (Ne.symm hp)]
      exact .stay (fun hin => absurd hin.1 hp) fun _ hin => absurd hin.1 hp

/-- A worker is not under the mutex of a context, before nor after a step outside of its task. -/
theorem Linked.worker_turn {s : Server n} {pool : Pool n Unit io_task} {w : Fin n} {res : Int}
    {x : Worker io_task} (h : Linked s) (hrun : (s.pool.workers w).pc = .run → s.task w = .returned)
    (hw : WorkerStep w res (s.pool.workers w) x s.pool pool) (p : ctx_id) :
    Mutex.Turn 0 (.worker w) (s.inside p) (({ s with pool := pool }.set_task w .lock).inside p)
      (s.ctxs p).mutex (s.ctxs p).mutex := by
  have houtside : (s.task w).inside = false := by
    by_cases hpc : (s.pool.workers w).pc = .run
    · rw [hrun hpc]
      rfl
    · rw [h.at_lock w hpc]
      rfl
  have hwas : ¬ s.inside p (.worker w) := by
    rintro ⟨-, hinside⟩
    rw [houtside] at hinside
    cases hinside
  have hnow : ¬ ({ s with pool := pool }.set_task w .lock).inside p (.worker w) := by
    rintro ⟨-, hinside⟩
    have htask : Function.update s.task w .lock w = .lock := Function.update_self ..
    have hinside : (Function.update s.task w .lock w).inside = true := hinside
    rw [htask] at hinside
    cases hinside
  refine ⟨fun u hu => ?_, .stay (fun hin => absurd hin hnow) fun _ hin => absurd hin hwas⟩
  cases u with
  | worker v =>
    have hv : v ≠ w := fun he => hu (congrArg Thread.worker he)
    have hworker : pool.workers v = s.pool.workers v := hw.other hv
    have htask : Function.update s.task w .lock v = s.task v := Function.update_of_ne hv ..
    rw [inside_worker, inside_worker, ← hworker, ← htask]
    exact Iff.rfl
  | client c => exact Iff.rfl

theorem foldl_make_mutex (links : List Link) (s : Server n) (p : ctx_id) :
    ((links.foldl Server.make s).ctxs p).mutex = (s.ctxs p).mutex ∨
      (s.made ≤ p ∧ ((links.foldl Server.make s).ctxs p).mutex = .free) := by
  induction links generalizing s with
  | nil => exact Or.inl rfl
  | cons k links ih =>
    have hstep : ((s.make k).ctxs p).mutex = (s.ctxs p).mutex ∨
        (s.made ≤ p ∧ ((s.make k).ctxs p).mutex = .free) := by
      by_cases hp : p = s.made
      · subst hp
        rw [s.make_self k]
        exact Or.inr ⟨Nat.le_refl _, rfl⟩
      · rw [s.make_other k hp]
        exact Or.inl rfl
    rcases ih (s.make k) with hrest | ⟨hle, hrest⟩
    · rw [List.foldl_cons, hrest]
      exact hstep
    · exact Or.inr ⟨Nat.le_of_succ_le hle, hrest⟩

/-- Main takes the mutex of a context when it comes to a point under it. The mutex of a context
that is made is free. -/
theorem MainMove.mutex {res : Int} {s s' : Server n} (h : MainMove res s s') (p : ctx_id) :
    Mutex.Move res (.client ()) (s.main.locks = some p) (s'.main.locks = some p)
        (s.ctxs p).mutex (s'.ctxs p).mutex ∨
      (s.main.locks = none ∧ s'.main.locks = none ∧ s.made ≤ p ∧ (s'.ctxs p).mutex = .free) := by
  -- most steps leave the mutex as it is, and main under the same one
  have hsame : ∀ {pc : main_pc} {m : Mutex (Thread n Unit)}, pc.locks = s.main.locks →
      m = (s.ctxs p).mutex → Mutex.Move res (Thread.client ()) (s.main.locks = some p)
        (pc.locks = some p) (s.ctxs p).mutex m := by
    intro pc m hlocks hm
    rw [hlocks, hm]
    exact .stay id
  cases h with
  | go pc revents hwalk hlocks => exact Or.inl (hsame hlocks rfl)
  | lock pc conn q hwalk hcur hfree hwas hlocks =>
    refine Or.inl ?_
    show Mutex.Move _ _ _ (pc.locks = some p) _ ((s.set_mutex q _).ctxs p).mutex
    rw [hwas, hlocks]
    by_cases hp : p = q
    · subst hp
      rw [s.set_mutex_self]
      exact .take hfree
    · rw [s.set_mutex_other _ hp]
      exact .stay (fun he => absurd (Option.some.inj he).symm hp) nofun
  | unlock pc q hwalk hwas hlocks =>
    refine Or.inl ?_
    show Mutex.Move _ _ _ (pc.locks = some p) _ ((s.set_mutex q _).ctxs p).mutex
    rw [hwas, hlocks]
    by_cases hp : p = q
    · subst hp
      rw [s.set_mutex_self]
      exact .leave res nofun
    · rw [s.set_mutex_other _ hp]
      exact .stay nofun fun _ he => absurd (Option.some.inj he).symm hp
  | mark pc conn q hwalk hcur hlocks =>
    exact Or.inl (hsame hlocks (s.set_link_keeps q _ p).1)
  | submit func conn q hpc hidle =>
    exact Or.inl (hsame (by rw [hpc]; rfl) (s.set_link_keeps q _ p).1)
  | make pc links hzero hwalk hwas hlocks =>
    rcases foldl_make_mutex links s p with hmutex | ⟨hle, hfree⟩
    · exact Or.inl (hsame (hlocks.trans hwas.symm) hmutex)
    · exact Or.inr ⟨hwas, hlocks, hle, hfree⟩
  | close conn q hpc => exact Or.inl (hsame (by rw [hpc]; rfl) (s.destroy_keeps q p).2)
  | update hpc => exact Or.inl (hsame (by rw [hpc]; rfl) rfl)
  | lose conns new_conns hpc => exact Or.inl (hsame (by rw [hpc]; rfl) rfl)
  | wait hlocks => exact Or.inl (hsame (by rw [hlocks]; rfl) rfl)
  | free pc q conns new_conns hwas hlocks hout hpc hlocks' =>
    exact Or.inl (hsame (hlocks'.trans hlocks.symm) (s.destroy_keeps q p).2)
  | stop hpc => exact Or.inl (hsame (by rw [hpc]; rfl) rfl)

theorem MainMove.inside_same {res : Int} {s s' : Server n} (h : MainMove res s s') (p : ctx_id)
    (w : Fin n) : s'.inside p (.worker w) ↔ s.inside p (.worker w) := by
  obtain ⟨htask, ⟨hpool, -⟩ | ⟨call, -, hpool, -⟩⟩ := h.pool_cases
  · rw [inside_worker, inside_worker, hpool, htask]
  · rw [inside_worker, inside_worker, hpool, htask]
    exact Iff.rfl

/-- Every step is one of a thread that takes or leaves the mutex as it comes under it or goes, or
main makes the context. -/
theorem ServerStep.turn {l : ServerLabel n} {s s' : Server n} (h : ServerStep s l s')
    (hl : Linked s) (hok : l.LocksSucceed) (p : ctx_id) :
    (∃ t res, (l.Ok → res = 0) ∧
        Mutex.Turn res t (s.inside p) (s'.inside p) (s.ctxs p).mutex (s'.ctxs p).mutex) ∨
      ((∀ u, s'.inside p u ↔ s.inside p u) ∧ s.made ≤ p ∧ (s'.ctxs p).mutex = .free) := by
  cases h with
  | main o hmove =>
    rcases hmove.mutex p with hmutex | ⟨hwas, hnow, hmade, hfree⟩
    · refine Or.inl ⟨.client (), o.res, id, fun u hu => ?_, hmutex⟩
      cases u with
      | worker w => exact hmove.inside_same p w
      | client c => exact absurd rfl hu
    · refine Or.inr ⟨fun u => ?_, hmade, hfree⟩
      cases u with
      | worker w => exact hmove.inside_same p w
      | client c => rw [inside_client, inside_client, hwas, hnow]
  | call o pool hpool =>
    obtain ⟨y, hc⟩ := client_step_cases hpool
    refine Or.inl ⟨.client (), 0, fun _ => rfl, .same fun u => ?_⟩
    cases u with
    | worker w =>
      rw [inside_worker, inside_worker, hc.workers]
    | client c => exact Iff.rfl
  | worker w o pool hpool hrun =>
    obtain ⟨x, hw⟩ := worker_step_cases hpool
    exact Or.inl ⟨.worker w, 0, fun _ => rfl, hl.worker_turn hrun hw p⟩
  | task w res outs t hrun ht hmove =>
    rw [show res = 0 from hok] at hmove
    exact Or.inl ⟨.worker w, 0, fun _ => rfl, hmove.turn ht p⟩
  | signal => exact Or.inl ⟨.client (), 0, fun _ => rfl, .same fun _ => Iff.rfl⟩

/-- Only threads under the mutex of a context hold it, and only one thread is under it. -/
theorem ServerStep.guards {l : ServerLabel n} {s s' : Server n} (h : ServerStep s l s')
    (hl : Linked s) (hok : l.LocksSucceed) {p : ctx_id}
    (hfresh : s.made ≤ p → (s.ctxs p).mutex = .free)
    (hg : Mutex.Guards (s.inside p) (s.ctxs p).mutex) :
    Mutex.Guards (s'.inside p) (s'.ctxs p).mutex := by
  rcases h.turn hl hok p with ⟨t, res, -, hturn⟩ | ⟨hsame, hmade, hfree⟩
  · exact hg.turn hturn
  · intro u hu
    rw [hfree, ← hfresh hmade]
    exact hg u ((hsame u).mp hu)

end pingpong.server
