-- The law of the task objects: while the pthread calls succeed, every object
-- that the queue has taken is in exactly one place, and the queue is in order.
import PingPong.PoolInv

namespace pingpong.concurinc

open mutex tally

variable {n : Nat} {γ φ : Type}

/-! ## What the moves keep -/

/-- The objects are numbered as they were pushed, and leave the queue in this order. -/
structure Tasks.Ordered (d : Tasks φ) : Prop where
  numbered : ∀ i (t : coin_task_t φ), d.pushed[i]? = some t → t.id = i
  order : d.pushed = d.popped ++ d.queue ++ d.dropped

theorem WorkerMove.ordered {res : Int} {x x' : Worker φ} {d d' : Tasks φ}
    (h : WorkerMove res x x' d d') (hd : d.Ordered) : d'.Ordered := by
  cases h with
  | pop t q hpc hphase hq =>
    refine ⟨hd.numbered, ?_⟩
    rw [hd.order, hq]
    simp
  | _ => exact ⟨hd.numbered, hd.order⟩

theorem ClientMove.ordered {pc pc' : client_pc φ} {d d' : Tasks φ} (h : ClientMove pc pc' d d')
    (hd : d.Ordered) (hempty : d.dropped ≠ [] → d.queue = [])
    (hpush : ∀ work free_arg, pc = .submit_push work free_arg → d.dropped = []) :
    d'.Ordered := by
  cases h with
  | quiet => exact hd
  | push work free_arg hpc =>
    refine ⟨fun i t ht => ?_, ?_⟩
    · rw [List.getElem?_append] at ht
      split at ht
      · exact hd.numbered i t ht
      · rename_i hi
        obtain ⟨hlt, he⟩ := List.getElem?_eq_some_iff.mp ht
        rw [List.length_singleton] at hlt
        rw [List.getElem_singleton] at he
        rw [← he]
        show d.pushed.length = i
        omega
    · have ho := hd.order
      rw [hpush work free_arg hpc, List.append_nil] at ho ⊢
      rw [ho, List.append_assoc]
  | drop hpc =>
    refine ⟨hd.numbered, ?_⟩
    have ho := hd.order
    by_cases hdrop : d.dropped = []
    · simpa [hdrop] using ho
    · simpa [hempty hdrop] using ho

/-- The objects that the workers have, and those freed, are the popped ones. Those executed
and not freed yet, and those freed, are the executed ones. -/
def Tasks.Shared (d : Tasks φ) (workers : Fin n → Worker φ) : Prop :=
  (↑d.popped : Multiset (coin_task_t φ)) = total holds workers + ↑d.freed ∧
  (↑d.ran : Multiset (coin_task_t φ)) = total holdsRan workers + ↑d.freed

theorem holdsRan_of_phase {x : Worker φ} (h : x.pc.phase ≠ .ran) : holdsRan x = 0 := if_neg h

theorem holds_of_none {x : Worker φ} (h : x.p_task = none) : holds x = 0 := by
  rw [holds, h]
  rfl

theorem WorkerMove.shared {x x' : Worker φ} {d d' : Tasks φ} {workers : Fin n → Worker φ}
    {w : Fin n} (h : WorkerMove 0 (workers w) x' d d') (hx : x = workers w) (hfit : TaskFits x)
    (hd : d.Shared workers) : d'.Shared (Function.update workers w x') := by
  obtain ⟨held, hheld, hheld'⟩ := total_split holds workers w
  obtain ⟨rans, hran, hran'⟩ := total_split holdsRan workers w
  obtain ⟨hd1, hd2⟩ := hd
  rw [hheld] at hd1
  rw [hran] at hd2
  rw [← hx] at h hd1 hd2
  unfold Tasks.Shared
  rw [hheld', hran']
  cases h with
  | quiet hphase htask hleave =>
    have hsame : holds x' = holds x := by
      rcases htask with ht | ⟨hpc, ht⟩
      · rw [holds, ht, holds]
      · unfold TaskFits at hfit
        rw [hpc] at hfit
        rw [holds_of_none ht, holds_of_none hfit]
    have hsameRan : holdsRan x' = holdsRan x := by
      rcases hphase with hp | hp
      · rw [holdsRan, hp, hsame, holdsRan]
      · rw [holdsRan_of_phase (by rw [hp]; nofun), holdsRan_of_phase]
        rcases hleave hp rfl with hi | hi <;> rw [hi] <;> nofun
    rw [hsame, hsameRan]
    exact ⟨hd1, hd2⟩
  | pop t q hpc hphase hq htask =>
    unfold TaskFits at hfit
    rw [hpc] at hfit
    rw [holds_of_none hfit, add_zero] at hd1
    rw [holdsRan_of_phase (by rw [hpc]; nofun), add_zero] at hd2
    rw [holdsRan_of_phase (by rw [hphase]; nofun), add_zero]
    refine ⟨?_, hd2⟩
    have ht : holds x' = {t} := by rw [holds, htask]; rfl
    show (↑(d.popped ++ [t]) : Multiset (coin_task_t φ)) = _
    rw [← Multiset.coe_add, hd1, ht, Multiset.coe_singleton, add_right_comm]
  | inc hpc hphase htask =>
    rw [holdsRan_of_phase (by rw [hpc]; nofun)] at hd2
    rw [holdsRan_of_phase (by rw [hphase]; nofun), holds, htask]
    exact ⟨hd1, hd2⟩
  | run hpc hphase htask =>
    rw [holdsRan_of_phase (by rw [hpc]; nofun), add_zero] at hd2
    have hsame : holds x' = holds x := by rw [holds, htask, holds]
    rw [holdsRan, if_pos hphase, hsame]
    refine ⟨hd1, ?_⟩
    show (↑(d.ran ++ x.p_task.toList) : Multiset (coin_task_t φ)) = _
    rw [← Multiset.coe_add, hd2, add_right_comm]
    rfl
  | free hpc hphase htask =>
    rw [holdsRan, if_pos (by rw [hpc]; rfl)] at hd2
    rw [holdsRan_of_phase (by rw [hphase]; nofun), holds_of_none htask]
    show _ = held + 0 + (↑(d.freed ++ x.p_task.toList) : Multiset (coin_task_t φ)) ∧
      _ = rans + 0 + (↑(d.freed ++ x.p_task.toList) : Multiset (coin_task_t φ))
    rw [← Multiset.coe_add, add_zero, add_zero, ← add_assoc, ← add_assoc]
    exact ⟨hd1.trans (add_right_comm ..), hd2.trans (add_right_comm ..)⟩
  | dec hpc hphase htask =>
    rw [holdsRan_of_phase (by rw [hpc]; nofun)] at hd2
    rw [holdsRan_of_phase (by rw [hphase]; nofun), holds, htask]
    exact ⟨hd1, hd2⟩

/-- A worker that leaves when its calls succeed has no task. -/
theorem WorkerMove.left {x x' : Worker φ} {d d' : Tasks φ} (h : WorkerMove 0 x x' d d')
    (hfit : TaskFits x) (hleft : x.pc.phase = .leaving → x.p_task = none) :
    x'.pc.phase = .leaving → x'.p_task = none := by
  intro hp
  cases h with
  | quiet hphase htask hleave =>
    have hnone : x.p_task = none := by
      rcases hleave hp rfl with hi | hi
      · unfold TaskFits at hfit
        rwa [hi] at hfit
      · exact hleft hi
    rcases htask with ht | ⟨-, ht⟩
    · exact ht.trans hnone
    · exact ht
  | pop t q hpc hphase => rw [hphase] at hp; cases hp
  | inc hpc hphase => rw [hphase] at hp; cases hp
  | run hpc hphase => rw [hphase] at hp; cases hp
  | free hpc hphase => rw [hphase] at hp; cases hp
  | dec hpc hphase => rw [hphase] at hp; cases hp

/-! ## Runs in which the calls succeed -/

/-- What a run keeps as long as the pthread calls succeed. -/
structure Placed (s : Pool n γ φ) : Prop extends Sound s where
  ordered : s.tasks.Ordered
  shared : s.tasks.Shared s.workers
  emptied : s.dropped ≠ [] → s.p_work_queue = [] ∧ s.tpool_queue_mutex = .destroyed
  past : ∀ c, (s.clients c).pc.pastMutex = true → s.tpool_queue_mutex = .destroyed
  left : ∀ w, (s.workers w).pc.phase = .leaving → (s.workers w).p_task = none
  to_pop : ∀ w, (s.workers w).pc = .pop → s.b_shutdown = false
  locked : ∀ w, (s.workers w).pc ≠ .exit_flag false

theorem placed_new : Placed (new_pool : Pool n γ φ) where
  toSound := sound_new
  ordered := ⟨nofun, rfl⟩
  shared := by
    constructor
    all_goals
      show (0 : Multiset (coin_task_t φ)) = Finset.univ.sum (fun _ : Fin n => 0) + 0
      simp
  emptied h := absurd rfl h
  past _ h := nomatch h
  left _ h := nomatch h
  to_pop _ h := nomatch h
  locked _ h := nomatch h

/-- The flag is set by a thread under the mutex, so no other thread is at its pop. -/
theorem Placed.flag_kept {s : Pool n γ φ} (h : Placed s) {t : Thread n γ} (ht : s.inQueue t)
    {w : Fin n} (hw : Thread.worker w ≠ t) : (s.workers w).pc ≠ .pop := by
  intro hpc
  have hin : s.inQueue (.worker w) := by
    show (s.workers w).pc.inQueue = true
    rw [hpc]
    rfl
  exact hw (h.queue.unique hin ht)

variable [DecidableEq γ]

theorem Placed.worker_step {s s' : Pool n γ φ} {w : Fin n} {x : Worker φ} (h : Placed s)
    (hsound : Sound s') (hw : WorkerStep w 0 (s.workers w) x s s') : Placed s' := by
  refine ⟨hsound, hw.tasks.ordered h.ordered, ?_, ?_, ?_, ?_, ?_, ?_⟩
  · rw [hw.workers]
    exact hw.tasks.shared rfl (h.fits w) h.shared
  · intro hdrop
    rw [show s'.dropped = s.dropped from hw.tasks.dropped] at hdrop
    obtain ⟨hempty, hgone⟩ := h.emptied hdrop
    refine ⟨hw.tasks.queue_nil hempty, ?_⟩
    have hm := hw.queue
    rw [hgone] at hm
    exact hm.of_destroyed
  · intro c hc
    rw [hw.clients] at hc
    have hm := hw.queue
    rw [h.past c hc] at hm
    exact hm.of_destroyed
  · exact hw.forall_workers (P := fun x => x.pc.phase = .leaving → x.p_task = none) h.left
      (hw.tasks.left (h.fits w) (h.left w))
  · intro v hv
    by_cases hvw : v = w
    · subst hvw
      rw [hw.self] at hv
      exact hw.to_pop hv
    · rw [hw.other hvw] at hv
      rcases hw.shutdown with hs | ⟨-, hin | hflag, -⟩
      · rw [hs]
        exact h.to_pop v hv
      · exact absurd hv (h.flag_kept (t := .worker w) hin fun he => hvw (Thread.worker.inj he))
      · exact absurd hflag (h.locked w)
  · refine hw.forall_workers (P := fun x => x.pc ≠ .exit_flag false) h.locked fun hx => ?_
    rcases hw.unlocked hx with hr | hr
    · exact hr rfl
    · exact h.locked w hr

theorem Placed.client_step {s s' : Pool n γ φ} {c : γ} {res : Int} {y : Client φ} (h : Placed s)
    (hsound : Sound s') (hc : ClientStep c res (s.clients c) y s s') : Placed s' := by
  have hmutex : s.tpool_queue_mutex = .destroyed → s'.tpool_queue_mutex = .destroyed := by
    intro hgone
    have hm := hc.queue
    rw [hgone] at hm
    exact hm.of_destroyed
  have hmove := hc.tasks
  generalize hd' : s'.tasks = d' at hmove
  -- a client that pushes holds the mutex, so nothing is dropped yet
  have hpush : ∀ work free_arg, (s.clients c).pc = .submit_push work free_arg →
      s.dropped = [] := by
    intro work free_arg hpc
    by_contra hdrop
    have hin : s.inQueue (.client c) := by
      show (s.clients c).pc.inQueue = true
      rw [hpc]
      rfl
    have hheld := h.queue _ hin
    rw [(h.emptied hdrop).2] at hheld
    cases hheld
  refine ⟨hsound, ?_, ?_, ?_, ?_, ?_, ?_, ?_⟩
  · rw [hd']
    exact hmove.ordered h.ordered (fun hdrop => (h.emptied hdrop).1) hpush
  · rw [hd', hc.workers]
    cases hmove <;> exact h.shared
  · intro hdrop
    have hdropped : s'.dropped = d'.dropped := congrArg Tasks.dropped hd'
    have hqueue : s'.p_work_queue = d'.queue := congrArg Tasks.queue hd'
    rw [hdropped] at hdrop
    rw [hqueue]
    cases hmove with
    | quiet => exact ⟨(h.emptied hdrop).1, hmutex (h.emptied hdrop).2⟩
    | push work free_arg hpc => exact absurd (hpush work free_arg hpc) hdrop
    | drop hpc => exact ⟨rfl, hmutex (h.past c (by rw [hpc]; rfl))⟩
  · intro d hd
    by_cases hdc : d = c
    · subst hdc
      rw [hc.self] at hd
      rcases hc.past hd with hp | hp
      · exact hmutex (h.past d hp)
      · exact hp
    · rw [hc.other hdc] at hd
      exact hmutex (h.past d hd)
  · rw [hc.workers]
    exact h.left
  · intro v hv
    rw [hc.workers] at hv
    rcases hc.shutdown with hs | ⟨-, hin, -⟩
    · rw [hs]
      exact h.to_pop v hv
    · exact absurd hv (h.flag_kept (t := .client c) hin nofun)
  · rw [hc.workers]
    exact h.locked

/-- The states of a pool in the runs whose pthread calls succeed. -/
def OkReachable (s : Pool n γ φ) : Prop :=
  (pool_machine (n := n) (γ := γ) (φ := φ)).Reach (fun s => s = new_pool) (fun _ l => l.Ok) s

theorem okReachable_of_run (ls : List (PoolLabel n γ φ)) {s : Pool n γ φ}
    (hok : ∀ l ∈ ls, l.Ok) (hr : pool_machine.run new_pool ls = some s) : OkReachable s :=
  ⟨new_pool, ls, rfl, machine.Machine.meets_of_mem hok, hr⟩

theorem placed_of_reachable {s : Pool n γ φ} (h : OkReachable s) : Placed s := by
  refine machine.Machine.Reach.invariant (P := Placed) (fun s hs => hs ▸ placed_new) ?_ h
  intro s l s' hp hok hs
  have hsound := hp.toSound.step hs
  rcases pool_step_cases hs with ⟨w, o, x, rfl, hw⟩ | ⟨c, res, y, -, -, hc⟩
  · have hres : o.res = 0 := hok
    rw [hres] at hw
    exact hp.worker_step hsound hw
  · exact hp.client_step hsound hc

/-- While the calls succeed, who holds a mutex of the pool is at a point under it. -/
theorem kept_of_reachable {s : Pool n γ φ} (h : OkReachable s) :
    Mutex.Kept s.inQueue s.tpool_queue_mutex ∧ Mutex.Kept s.inActive s.active_tasks_mutex := by
  refine machine.Machine.Reach.invariant (P := fun s : Pool n γ φ =>
    Mutex.Kept s.inQueue s.tpool_queue_mutex ∧ Mutex.Kept s.inActive s.active_tasks_mutex) ?_ ?_ h
  · rintro s rfl
    exact ⟨nofun, nofun⟩
  · rintro s l s' ⟨hqueue, hactive⟩ hok hs
    obtain ⟨t, r, hres, hturn, hturn'⟩ := pool_step_turns hs
    rw [hres hok] at hturn hturn'
    exact ⟨hqueue.turn hturn, hactive.turn hturn'⟩

end pingpong.concurinc
