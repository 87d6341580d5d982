-- What holds of the pool in every run: the threads under a mutex hold it, a
-- worker has a task between the pop and the free, and no counted task is missing
-- from the count of the active ones.
import PingPong.PoolSteps
import PingPong.Lib.Tally

namespace pingpong.concurinc

open mutex tally

variable {n : Nat} {γ φ : Type}

/-! ## The shares of a worker -/

/-- The task object that a worker has. -/
def holds (x : Worker φ) : Multiset (coin_task_t φ) := ↑x.p_task.toList

/-- The task object that a worker has executed and not freed yet. -/
def holdsRan (x : Worker φ) : Multiset (coin_task_t φ) :=
  if x.pc.phase = .ran then holds x else 0

/-- The share in the count of the active tasks. -/
def Phase.share : Phase → Nat
  | .counted | .ran | .done => 1
  | .idle | .taken | .leaving => 0

def counts (x : Worker φ) : Nat := x.pc.phase.share

theorem counts_of_phase {x : Worker φ} {p : Phase} (h : x.pc.phase = p) : counts x = p.share :=
  congrArg Phase.share h

/-- A worker has a task exactly from the pop to the free, as long as it is in its loop. -/
def TaskFits (x : Worker φ) : Prop :=
  match x.pc.phase with
  | .idle | .done => x.p_task = none
  | .taken | .counted | .ran => x.p_task ≠ none
  | .leaving => True

variable [DecidableEq γ]

/-! ## One step, of either kind -/

/-- Every step is one of a worker or one of a client. -/
theorem pool_step_cases {l : PoolLabel n γ φ} {s s' : Pool n γ φ} (h : pool_step s l = some s') :
    (∃ w o x, l = .worker w o ∧ WorkerStep w o.res (s.workers w) x s s') ∨
    (∃ c res y, (∀ w o, l ≠ .worker w o) ∧ (l.Ok → res = 0) ∧
      ClientStep c res (s.clients c) y s s') := by
  cases l with
  | worker w o =>
    obtain ⟨x, hx⟩ := worker_step_cases h
    exact Or.inl ⟨w, o, x, rfl, hx⟩
  | client c o =>
    obtain ⟨y, hy⟩ := client_step_cases h
    exact Or.inr ⟨c, o.res, y, nofun, id, hy⟩
  | call c call =>
    obtain ⟨hidle, rfl⟩ := call_step_cases h
    generalize hy : s.clients c = y at hidle
    obtain ⟨pc, status⟩ := y
    cases hidle
    refine Or.inr ⟨c, 0, ⟨call.start, status⟩, nofun, fun _ => rfl, ?_⟩
    have hgo : (s.goto c call.start).clients
        = Function.update s.clients c ⟨call.start, status⟩ := by
      unfold Pool.goto
      rw [hy]
    rw [hy]
    cases call with
    | submit =>
      exact .quiet hgo (.stay nofun) (.stay nofun) nofun nofun nofun
        fun _ _ => .inr rfl
    | wait => exact .quiet hgo (.stay nofun) (.stay nofun) nofun nofun nofun nofun
    | destroy =>
      exact .quiet hgo (.stay nofun) (.stay nofun) nofun (fun _ => .inr rfl) nofun
        nofun

section Worker

variable {w : Fin n} {res : Int} {x : Worker φ} {s s' : Pool n γ φ}

theorem WorkerStep.self (h : WorkerStep w res (s.workers w) x s s') : s'.workers w = x := by
  rw [h.workers, Function.update_self]

theorem WorkerStep.other (h : WorkerStep w res (s.workers w) x s s') {v : Fin n} (hv : v ≠ w) :
    s'.workers v = s.workers v := by
  rw [h.workers, Function.update_of_ne hv]

/-- What holds of the records before, and of the new record, holds of the records after. -/
theorem WorkerStep.forall_workers (h : WorkerStep w res (s.workers w) x s s')
    {P : Worker φ → Prop} (hP : ∀ v, P (s.workers v)) (hx : P x) (v : Fin n) :
    P (s'.workers v) := by
  by_cases hv : v = w
  · subst hv
    rw [h.self]
    exact hx
  · rw [h.other hv]
    exact hP v

/-- The worker takes and leaves the two mutexes, and the other threads stay where they are. -/
theorem WorkerStep.turns (h : WorkerStep w res (s.workers w) x s s') :
    Mutex.Turn res (.worker w) s.inQueue s'.inQueue s.tpool_queue_mutex s'.tpool_queue_mutex ∧
    Mutex.Turn res (.worker w) s.inActive s'.inActive
      s.active_tasks_mutex s'.active_tasks_mutex := by
  have hqueue := h.queue
  have hactive := h.active
  rw [← h.self] at hqueue hactive
  refine ⟨⟨fun u hu => ?_, hqueue⟩, ⟨fun u hu => ?_, hactive⟩⟩
  · cases u with
    | worker v => rw [Pool.inQueue, h.other fun hv => hu (hv ▸ rfl), Pool.inQueue]
    | client c => rw [Pool.inQueue, h.clients, Pool.inQueue]
  · cases u with
    | worker v => rw [Pool.inActive, h.other fun hv => hu (hv ▸ rfl), Pool.inActive]
    | client c => rw [Pool.inActive, h.clients, Pool.inActive]

end Worker

section Client

variable {c : γ} {res : Int} {y : Client φ} {s s' : Pool n γ φ}

theorem ClientStep.self (h : ClientStep c res (s.clients c) y s s') : s'.clients c = y := by
  rw [h.clients, Function.update_self]

theorem ClientStep.other (h : ClientStep c res (s.clients c) y s s') {d : γ} (hd : d ≠ c) :
    s'.clients d = s.clients d := by
  rw [h.clients, Function.update_of_ne hd]

theorem ClientStep.turns (h : ClientStep c res (s.clients c) y s s') :
    Mutex.Turn res (.client c) s.inQueue s'.inQueue s.tpool_queue_mutex s'.tpool_queue_mutex ∧
    Mutex.Turn res (.client c) s.inActive s'.inActive
      s.active_tasks_mutex s'.active_tasks_mutex := by
  have hqueue := h.queue
  have hactive := h.active
  rw [← h.self] at hqueue hactive
  refine ⟨⟨fun u hu => ?_, hqueue⟩, ⟨fun u hu => ?_, hactive⟩⟩
  · cases u with
    | worker v => rw [Pool.inQueue, h.workers, Pool.inQueue]
    | client d => rw [Pool.inQueue, h.other fun hd => hu (hd ▸ rfl), Pool.inQueue]
  · cases u with
    | worker v => rw [Pool.inActive, h.workers, Pool.inActive]
    | client d => rw [Pool.inActive, h.other fun hd => hu (hd ▸ rfl), Pool.inActive]

end Client

/-- Every step is a turn of one thread with both mutexes. -/
theorem pool_step_turns {l : PoolLabel n γ φ} {s s' : Pool n γ φ} (h : pool_step s l = some s') :
    ∃ t res, (l.Ok → res = 0) ∧
      Mutex.Turn res t s.inQueue s'.inQueue s.tpool_queue_mutex s'.tpool_queue_mutex ∧
      Mutex.Turn res t s.inActive s'.inActive s.active_tasks_mutex s'.active_tasks_mutex := by
  rcases pool_step_cases h with ⟨w, o, x, rfl, hw⟩ | ⟨c, res, y, -, hres, hc⟩
  · exact ⟨.worker w, o.res, id, hw.turns⟩
  · exact ⟨.client c, res, hres, hc.turns⟩

/-- A step of the thread inside of a call. -/
def PoolLabel.by (c : γ) : PoolLabel n γ φ → Prop
  | .client d _ => d = c
  | _ => False

instance (c : γ) : DecidablePred (PoolLabel.by (n := n) (φ := φ) c)
  | .client d _ => inferInstanceAs (Decidable (d = c))
  | .worker _ _ => inferInstanceAs (Decidable False)
  | .call _ _ => inferInstanceAs (Decidable False)

omit [DecidableEq γ] in
theorem PoolLabel.by.label {c : γ} {l : PoolLabel n γ φ} (h : l.by c) : ∃ o, l = .client c o := by
  cases l with
  | client d o =>
    cases h
    exact ⟨o, rfl⟩
  | worker w o => exact h.elim
  | call d call => exact h.elim

/-- The steps of the other threads leave a client where it is. -/
theorem clients_of_other {c : γ} {s s' : Pool n γ φ} {l : PoolLabel n γ φ}
    (hs : pool_step s l = some s') (hby : ¬ l.by c) (hcall : ∀ call, l ≠ .call c call) :
    s'.clients c = s.clients c := by
  cases l with
  | worker w o =>
    obtain ⟨x, hw⟩ := worker_step_cases hs
    rw [hw.clients]
  | client d o =>
    obtain ⟨y, hc⟩ := client_step_cases hs
    exact hc.other fun h => hby h.symm
  | call d call =>
    have hd : c ≠ d := by
      rintro rfl
      exact hcall call rfl
    obtain ⟨-, rfl⟩ := call_step_cases hs
    exact Pool.goto_other s hd _

/-! ## Any run -/

/-- What every run keeps, also one whose calls fail. -/
structure Sound (s : Pool n γ φ) : Prop where
  queue : Mutex.Guards s.inQueue s.tpool_queue_mutex
  active : Mutex.Guards s.inActive s.active_tasks_mutex
  fits : ∀ w, TaskFits (s.workers w)
  counted : total counts s.workers ≤ s.active_tasks

theorem WorkerMove.fits {res : Int} {x x' : Worker φ} {d d' : Tasks φ}
    (h : WorkerMove res x x' d d') (hx : TaskFits x) : TaskFits x' := by
  cases h with
  | quiet hphase htask =>
    unfold TaskFits at *
    rcases hphase with hp | hp
    · rw [hp]
      rcases htask with ht | ⟨hpc, ht⟩
      · rwa [ht]
      · rw [hpc]
        exact ht
    · rw [hp]
      trivial
  | pop t q hpc hphase hq htask =>
    unfold TaskFits
    rw [hphase, htask]
    exact nofun
  | inc hpc hphase htask =>
    unfold TaskFits at *
    rw [hpc] at hx
    rw [hphase, htask]
    exact hx
  | run hpc hphase htask =>
    unfold TaskFits at *
    rw [hpc] at hx
    rw [hphase, htask]
    exact hx
  | free hpc hphase htask =>
    unfold TaskFits
    rw [hphase]
    exact htask
  | dec hpc hphase htask =>
    unfold TaskFits at *
    rw [hpc] at hx
    rw [hphase]
    exact htask.trans hx

/-- A step changes the count as it changes the worker's share, or lowers the share. -/
theorem WorkerMove.counted {res : Int} {x x' : Worker φ} {d d' : Tasks φ}
    (h : WorkerMove res x x' d d') {rest : Nat} (hc : rest + counts x ≤ d.active) :
    rest + counts x' ≤ d'.active := by
  cases h with
  | quiet hphase =>
    rcases hphase with hp | hp
    · rwa [counts_of_phase hp]
    · rw [counts_of_phase hp]
      exact Nat.le_trans (Nat.le_add_right rest _) hc
  | pop t q hpc hphase =>
    rw [counts_of_phase hphase]
    exact Nat.le_trans (Nat.le_add_right rest _) hc
  | inc hpc hphase =>
    rw [counts_of_phase hphase]
    exact Nat.succ_le_succ (Nat.le_trans (Nat.le_add_right rest _) hc)
  | run hpc hphase =>
    rw [counts, hpc] at hc
    rwa [counts_of_phase hphase]
  | free hpc hphase =>
    rw [counts, hpc] at hc
    rwa [counts_of_phase hphase]
  | dec hpc hphase =>
    rw [counts, hpc] at hc
    have hc : rest + 1 ≤ d.active := hc
    rw [counts_of_phase hphase]
    show rest ≤ size_sub d.active 1
    rw [size_sub_of_le (by omega)]
    omega

omit [DecidableEq γ] in
theorem sound_new : Sound (new_pool : Pool n γ φ) where
  queue t ht := by cases t <;> cases ht
  active t ht := by cases t <;> cases ht
  fits _ := rfl
  counted := by
    show Finset.univ.sum (fun _ : Fin n => 0) ≤ 0
    simp

theorem Sound.step {l : PoolLabel n γ φ} {s s' : Pool n γ φ} (h : Sound s)
    (hs : pool_step s l = some s') : Sound s' := by
  obtain ⟨t, r, -, hqueue, hactive⟩ := pool_step_turns hs
  rcases pool_step_cases hs with ⟨w, o, x, -, hw⟩ | ⟨c, res, y, -, -, hc⟩
  · refine ⟨h.queue.turn hqueue, h.active.turn hactive,
      hw.forall_workers h.fits (hw.tasks.fits (h.fits w)), ?_⟩
    -- the shares of the other workers stay
    obtain ⟨rest, hold, hnew⟩ := total_split counts s.workers w
    rw [hw.workers, hnew x]
    exact hw.tasks.counted (hold ▸ h.counted)
  · have hcount : s'.active_tasks = s.active_tasks := hc.tasks.active
    refine ⟨h.queue.turn hqueue, h.active.turn hactive, ?_, ?_⟩
    · rw [hc.workers]
      exact h.fits
    · rw [hc.workers, hcount]
      exact h.counted

end pingpong.concurinc
