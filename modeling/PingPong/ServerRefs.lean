-- The references of a context: each task that has not released its reference is
-- counted, so a context without one has no task left.
import PingPong.Lib.Tally
import PingPong.ServerSteps

namespace pingpong.server

open concurinc mutex netio tally tasks

variable {n : Nat}

/-! ## The tasks on a context -/

/-- The task is called with context `p`. -/
def onCtx (p : ctx_id) (t : coin_task_t io_task) : Bool := t.work.coin_task_arg = p

/-- The points of a task function before it gives its reference back. -/
def task_pc.owes : task_pc → Bool
  | .lock | .handle | .release => true
  | .unlock | .returned => false

/-- The points of a task function at which it accesses its context. -/
def task_pc.visits : task_pc → Bool
  | .lock | .handle | .release | .unlock => true
  | .returned => false

/-- The points of a task function under the mutex of its context. -/
def task_pc.inside : task_pc → Bool
  | .handle | .release | .unlock => true
  | .lock | .returned => false

/-- A worker with its point in the task function. -/
abbrev Hand := Worker io_task × task_pc

def Server.hands (s : Server n) (w : Fin n) : Hand := (s.pool.workers w, s.task w)

/-- One, when the worker has a task on `p` that has not left the points of `f`. -/
def share (f : task_pc → Bool) (p : ctx_id) (h : Hand) : Nat :=
  if h.1.p_task.any (onCtx p) = true ∧ h.1.pc.phase ≠ .ran ∧ f h.2 = true then 1 else 0

/-- The tasks on `p` that are queued, or popped and at a point of `f`. -/
def load (f : task_pc → Bool) (p : ctx_id) (s : Server n) : Nat :=
  s.pool.p_work_queue.countP (onCtx p) + total (share f p) s.hands

/-- One, when a client at the point is about to put a task on `p` in the queue. -/
def pledge (p : ctx_id) (pc : client_pc io_task) : Nat :=
  if pc.submits.any (fun t => t.coin_task_arg = p) = true then 1 else 0

def promised (p : ctx_id) (s : Server n) : Nat := pledge p (s.pool.clients ()).pc

theorem pledge_of_none {p : ctx_id} {pc : client_pc io_task} (h : pc.submits = none) :
    pledge p pc = 0 := by
  unfold pledge
  rw [h]
  rfl

theorem pledge_of_some {p : ctx_id} {pc : client_pc io_task} {t : io_task}
    (h : pc.submits = some t) : pledge p pc = if t.coin_task_arg = p then 1 else 0 := by
  unfold pledge
  rw [h]
  simp

theorem promised_congr {p : ctx_id} {s s' : Server n} (h : s'.pool = s.pool) :
    promised p s' = promised p s := by
  unfold promised
  rw [h]

theorem promised_of_idle {s : Server n} (h : (s.pool.clients ()).pc = .idle) (p : ctx_id) :
    promised p s = 0 := by
  unfold promised
  rw [h]
  exact pledge_of_none rfl

/-- Main promises no task but the one of its point. -/
theorem Linked.promised_zero {s : Server n} (h : Linked s) {p : ctx_id}
    (hout : ∀ func conn, s.main ≠ .task_submit func conn p) : promised p s = 0 := by
  unfold promised
  cases hw : (s.pool.clients ()).pc.submits with
  | none => exact pledge_of_none hw
  | some t =>
    obtain ⟨conn, hmain⟩ := h.submits t hw
    rw [pledge_of_some hw, if_neg]
    rintro rfl
    exact hout _ conn hmain

theorem share_pos {f : task_pc → Bool} {p : ctx_id} {h : Hand}
    (ht : h.1.p_task.any (onCtx p) = true) (hphase : h.1.pc.phase ≠ .ran) (hf : f h.2 = true) :
    share f p h = 1 := if_pos ⟨ht, hphase, hf⟩

theorem share_of_none {f : task_pc → Bool} {p : ctx_id} {h : Hand} (ht : h.1.p_task = none) :
    share f p h = 0 := by
  refine if_neg fun hc => ?_
  have hany := hc.1
  rw [ht] at hany
  cases hany

theorem share_of_returned {f : task_pc → Bool} {p : ctx_id} {h : Hand}
    (hf : f h.2 = false) : share f p h = 0 := by
  refine if_neg fun hc => ?_
  rw [hf] at hc
  cases hc.2.2

theorem share_of_ran {f : task_pc → Bool} {p : ctx_id} {h : Hand} (hran : h.1.pc.phase = .ran) :
    share f p h = 0 := if_neg fun hc => hc.2.1 hran

/-- The worker keeps its task, and has not executed it before or after. -/
theorem share_same {f : task_pc → Bool} {p : ctx_id} {x x' : Worker io_task} {y : task_pc}
    (htask : x'.p_task = x.p_task) (hphase : x.pc.phase ≠ .ran) (hphase' : x'.pc.phase ≠ .ran) :
    share f p (x', y) = share f p (x, y) := by
  unfold share
  simp only [htask, hphase, hphase', ne_eq, not_false_eq_true, true_and]

/-- The share of a worker in the function of task `t`. -/
theorem share_of_task {f : task_pc → Bool} {p : ctx_id} {x : Worker io_task} {y : task_pc}
    {t : coin_task_t io_task} (ht : x.p_task = some t) (hrun : x.pc = .run) :
    share f p (x, y) = if t.work.coin_task_arg = p then (f y).toNat else 0 := by
  unfold share onCtx
  rw [ht, hrun]
  by_cases hon : t.work.coin_task_arg = p
  · cases f y <;> simp [hon, worker_pc.phase]
  · simp [hon]

theorem phase_ran {pc : worker_pc} (h : pc.phase = .ran) : pc = .free := by
  cases pc <;> first | rfl | cases h

/-- The points of a task function that count from its lock on, and not when it has returned. -/
structure Spans (f : task_pc → Bool) : Prop where
  lock : f .lock = true
  returned : f .returned = false

theorem spans_owes : Spans task_pc.owes := ⟨rfl, rfl⟩

theorem spans_visits : Spans task_pc.visits := ⟨rfl, rfl⟩

/-- A step of a worker, with record `x` and at point `y` of its task function, leaves each context
its tasks. At the call the function has returned. -/
theorem load_of_move {res : Int} {x x' : Worker io_task} {d d' : Tasks io_task}
    {f : task_pc → Bool} {p : ctx_id} {y : task_pc} (hf : Spans f)
    (h : WorkerMove res x x' d d') (hfit : TaskFits x) (hlock : x.pc ≠ .run → y = .lock)
    (hret : x.pc = .run → y = .returned) :
    d'.queue.countP (onCtx p) + share f p (x', .lock) =
      d.queue.countP (onCtx p) + share f p (x, y) := by
  unfold TaskFits at hfit
  cases h with
  | quiet hphase htask hleave hpc =>
    rw [hlock hpc.1]
    have hran : x.pc.phase ≠ .ran := fun hran => hpc.2 (phase_ran hran)
    have hran' : x'.pc.phase ≠ .ran := by
      rcases hphase with hp | hp
      · rw [hp]
        exact hran
      · rw [hp]
        exact nofun
    rcases htask with ht | ⟨hpop, ht⟩
    · rw [share_same ht hran hran']
    · rw [hpop] at hfit
      rw [share_of_none (h := (x', task_pc.lock)) ht, share_of_none (h := (x, task_pc.lock)) hfit]
  | pop t q hpc hphase hq htask =>
    rw [hpc] at hfit
    have hone : share f p (x', .lock) = if onCtx p t = true then 1 else 0 := by
      unfold share
      simp [htask, hphase, hf.lock]
    rw [hone, share_of_none (h := (x, y)) hfit, hq, List.countP_cons]
    rfl
  | inc hpc hphase htask =>
    rw [hlock (by rw [hpc]; nofun)]
    rw [share_same htask (by rw [hpc]; nofun) (by rw [hphase]; nofun)]
  | run hpc hphase =>
    rw [hret hpc, share_of_ran (h := (x', task_pc.lock)) hphase,
      share_of_returned (h := (x, task_pc.returned)) hf.returned]
  | free hpc hphase htask =>
    rw [share_of_none (h := (x', task_pc.lock)) htask,
      share_of_ran (h := (x, y)) (by rw [hpc]; rfl)]
  | dec hpc hphase htask =>
    rw [hlock (by rw [hpc]; nofun)]
    rw [share_same htask (by rw [hpc]; nofun) (by rw [hphase]; nofun)]

/-! ## The steps that leave the counts alone -/

theorem Server.set_mutex_refs (s : Server n) (p : ctx_id) (m : Mutex (Thread n Unit)) (q : ctx_id) :
    ((s.set_mutex p m).ctxs q).link.ctx.ref_count = (s.ctxs q).link.ctx.ref_count :=
  congrArg (fun k => k.ctx.ref_count) (s.set_mutex_keeps p m q).1

theorem Server.mark_refs (s : Server n) (p q : ctx_id) :
    ((s.set_link p (mark_close (s.ctxs p).link)).ctxs q).link.ctx.ref_count =
      (s.ctxs q).link.ctx.ref_count := by
  by_cases hq : q = p
  · rw [hq, s.set_link_self]
    rfl
  · rw [s.set_link_other _ hq]

/-- Before it submits a task, main counts the reference that it promises. -/
theorem Server.submit_refs (s : Server n) (func : task_func) (p q : ctx_id) :
    ((s.set_link p (add_ref 1 (s.ctxs p).link)).ctxs q).link.ctx.ref_count =
      (s.ctxs q).link.ctx.ref_count + (pledge q (.submit_alloc ⟨func, p⟩ false) : Nat) := by
  rw [pledge_of_some rfl]
  by_cases hq : q = p
  · subst hq
    rw [s.set_link_self, if_pos rfl]
    rfl
  · rw [s.set_link_other _ hq, if_neg (Ne.symm hq)]
    exact (Int.add_zero _).symm

/-! ## A context without a task -/

/-- No task on `p` is queued, or popped and not past the unlock at its end. -/
def NoTask (p : ctx_id) (s : Server n) : Prop :=
  (∀ t ∈ s.pool.p_work_queue, t.work.coin_task_arg ≠ p) ∧
  ∀ w t, (s.pool.workers w).p_task = some t → t.work.coin_task_arg = p →
    (s.pool.workers w).pc.phase = .ran ∨ s.task w = .returned

theorem onCtx_iff {p : ctx_id} {t : coin_task_t io_task} :
    onCtx p t = true ↔ t.work.coin_task_arg = p := decide_eq_true_iff

/-- A task that has given its reference back is at its unlock. -/
theorem inside_of_visits {y : task_pc} (hvisits : y.visits = true) (howes : y.owes ≠ true) :
    y.inside = true := by
  cases y with
  | unlock => rfl
  | returned => cases hvisits
  | _ => exact absurd rfl howes

theorem visits_iff {y : task_pc} : y.visits = true ↔ y ≠ .returned := by cases y <;> decide

theorem noTask_iff {p : ctx_id} {s : Server n} :
    NoTask p s ↔ load task_pc.visits p s = 0 := by
  unfold load
  rw [Nat.add_eq_zero_iff, List.countP_eq_zero]
  constructor
  · rintro ⟨hqueue, hheld⟩
    refine ⟨fun t ht hon => hqueue t ht (onCtx_iff.mp hon), total_zero fun w => if_neg ?_⟩
    rintro ⟨hany, hphase, hvisits⟩
    obtain ⟨t, ht, hon⟩ := (Option.any_eq_true ..).mp hany
    rcases hheld w t ht (onCtx_iff.mp hon) with hran | hret
    · exact hphase hran
    · exact visits_iff.mp hvisits hret
  · rintro ⟨hqueue, htotal⟩
    refine ⟨fun t ht hon => hqueue t ht (onCtx_iff.mpr hon), fun w t ht hon => ?_⟩
    have hle := share_le_total (share task_pc.visits p) s.hands w
    by_contra hneither
    rw [not_or] at hneither
    have hany : (s.hands w).1.p_task.any (onCtx p) = true := by
      show (s.pool.workers w).p_task.any (onCtx p) = true
      rw [ht]
      exact onCtx_iff.mpr hon
    rw [share_pos hany hneither.1 (visits_iff.mpr hneither.2)] at hle
    omega

theorem hands_update {s s' : Server n} {w : Fin n} {x : Worker io_task} {y : task_pc}
    (hworkers : s'.pool.workers = Function.update s.pool.workers w x)
    (htask : s'.task = Function.update s.task w y) :
    s'.hands = Function.update s.hands w (x, y) := by
  funext v
  unfold Server.hands
  rw [hworkers, htask]
  by_cases hv : v = w
  · subst hv
    simp
  · simp [hv]

theorem load_of_worker_step {f : task_pc → Bool} {p : ctx_id} {s s' : Server n} {w : Fin n}
    {res : Int} {x : Worker io_task} (hf : Spans f) (hl : Linked s)
    (hret : (s.pool.workers w).pc = .run → s.task w = .returned)
    (hw : WorkerStep w res (s.pool.workers w) x s.pool s'.pool)
    (htask : s'.task = Function.update s.task w .lock) : load f p s' = load f p s := by
  obtain ⟨rest, hold, hnew⟩ := total_split (share f p) s.hands w
  have heq := load_of_move (p := p) hf hw.tasks (hl.sound.fits w) (hl.at_lock w) hret
  have hq : s'.pool.tasks.queue = s'.pool.p_work_queue := rfl
  have hq' : s.pool.tasks.queue = s.pool.p_work_queue := rfl
  rw [hq, hq'] at heq
  unfold load
  rw [hands_update hw.workers htask, hnew, hold]
  have hhand : s.hands w = (s.pool.workers w, s.task w) := rfl
  rw [hhand]
  omega

/-- A step in a task on `p'` changes only what the worker itself has open. -/
theorem load_of_task_step {f : task_pc → Bool} {p : ctx_id} {s s' : Server n} {w : Fin n}
    {y : task_pc} (hpool : s'.pool = s.pool) (htask : s'.task = Function.update s.task w y) :
    load f p s' + share f p (s.pool.workers w, s.task w) =
      load f p s + share f p (s.pool.workers w, y) := by
  obtain ⟨rest, hold, hnew⟩ := total_split (share f p) s.hands w
  have hworkers : s'.pool.workers = Function.update s.pool.workers w (s.pool.workers w) := by
    rw [hpool, Function.update_eq_self]
  unfold load
  rw [hands_update hworkers htask, hnew, hold, hpool]
  have hhand : s.hands w = (s.pool.workers w, s.task w) := rfl
  rw [hhand]
  omega

/-- What a step of a client promises was promised before. -/
theorem pledge_le {p : ctx_id} {pc pc' : client_pc io_task}
    (h : ∀ t, pc'.submits = some t → pc.submits = some t) : pledge p pc' ≤ pledge p pc := by
  unfold pledge
  by_cases hany : pc'.submits.any (fun t => decide (t.coin_task_arg = p)) = true
  · obtain ⟨t, ht, -⟩ := (Option.any_eq_true ..).mp hany
    rw [h t ht, ← ht]
  · rw [if_neg hany]
    exact Nat.zero_le _

/-- A step of main in a pool call gives a context a task that it has promised. -/
theorem load_of_client_step {f : task_pc → Bool} {p : ctx_id} {s s' : Server n} {res : Int}
    {y : Client io_task} (hpc : (s.pool.clients ()).pc ≠ .idle)
    (hc : ClientStep () res (s.pool.clients ()) y s.pool s'.pool) (htask : s'.task = s.task) :
    load f p s' + promised p s' ≤ load f p s + promised p s := by
  have hhands : s'.hands = s.hands := by
    funext w
    unfold Server.hands
    rw [hc.workers, htask]
  have hqueue : s'.pool.tasks.queue = s'.pool.p_work_queue := rfl
  have hpledge : pledge p y.pc ≤ pledge p (s.pool.clients ()).pc := pledge_le fun t ht =>
    (hc.submits t ht).resolve_right hpc
  have hmove := hc.tasks
  unfold load promised
  rw [hhands, hc.self, ← hqueue]
  generalize s'.pool.tasks = d' at hmove
  cases hmove with
  | quiet => exact Nat.add_le_add_left hpledge _
  | push work free_arg hpush hsignal =>
    rw [hpush, hsignal]
    unfold pledge
    show (s.pool.p_work_queue ++ [_]).countP (onCtx p) + _ + 0 ≤ _
    rw [List.countP_append, List.countP_singleton]
    unfold onCtx client_pc.submits
    simp only [Option.any_some]
    omega
  | drop =>
    show 0 + _ + _ ≤ _
    omega

end pingpong.server
