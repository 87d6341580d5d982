-- The internal contexts of the server, for the listener and the self-pipe: which
-- events make main lock and mark them, and that they are left alone otherwise.
import PingPong.ServerLaws

namespace pingpong.server

open concurinc connmgr framing mutex netio tasks

variable {n : Nat}

/-! ## What should hold -/

/-- The context whose mutex the step locks or unlocks. -/
def mutex_call (s : Server n) : ServerLabel n → Option ctx_id
  | .main _ => match s.main with
    | .close_lock _ p | .close_unlock _ p _ _ | .task_lock _ _ p | .task_unlock _ _ p
    | .failed_unlock _ p | .hup_lock _ p | .hup_unlock _ p => some p
    | _ => none
  | .task w _ _ =>
    if (s.pool.workers w).pc = .run ∧ (s.task w = .lock ∨ s.task w = .unlock) then
      (s.pool.workers w).p_task.map fun t => t.work.coin_task_arg
    else none
  | _ => none

/-- The context is made, and has a mutex. -/
def Server.Inbound (s : Server n) (p : ctx_id) : Prop :=
  p < s.made ∧ (s.ctxs p).link.ctx.type = .INBOUND_CONN

/-- The step calls the mutex of an inbound context at most, and the internal contexts are in the
state that they were made in. -/
def LeavesInternalAlone (s : Server n) (l : ServerLabel n) : Prop :=
  (∀ p, mutex_call s l = some p → s.Inbound p) ∧
  ∀ p, p < s.made → (s.ctxs p).link.ctx.type = .INTERNAL_CONN →
    (s.ctxs p).link.ctx.state = .SPECIAL_CONN

/-- The context for which the event dispatch is about to take the branch of another event than
`POLLIN`. -/
def Server.event (s : Server n) : Option ctx_id :=
  match s.main with
  | .hup conn p =>
    let e := s.revents conn
    if e.POLLHUP ∨ e.POLLERR ∨ e.POLLNVAL then some p else none
  | .out conn p => if (s.revents conn).POLLOUT then some p else none
  | _ => none

/-- Behind its branch for `POLLIN`, the event dispatch finds no event of an internal context. -/
def OnlyPollin (s : Server n) : ServerLabel n → Prop
  | .main _ => ∀ p ∈ s.event, (s.ctxs p).link.ctx.type ≠ .INTERNAL_CONN
  | _ => True

instance (s : Server n) : DecidablePred (OnlyPollin s)
  | .main _ => inferInstanceAs (Decidable (∀ p ∈ s.event, _))
  | .call _ | .worker _ _ | .task _ _ _ | .signal => inferInstanceAs (Decidable True)

/-! ## The invariant -/

/-- The context that main has chosen to lock, up to its unlock and what follows from it. -/
def main_pc.busy : main_pc → Option ctx_id
  | .close_lock _ p | .close_read _ p | .close_unlock _ p _ _ | .close_destroy _ p
  | .task_lock _ _ p | .task_ref _ _ p | .task_submit _ _ p | .task_unlock _ _ p
  | .failed_unlock _ p | .hup_lock _ p | .hup_mark _ p | .hup_unlock _ p => some p
  | _ => none

/-- The task is in the queue or a worker has it. -/
def Queued (pool : Pool n Unit io_task) (t : coin_task_t io_task) : Prop :=
  t ∈ pool.p_work_queue ∨ ∃ w, (pool.workers w).p_task = some t

/-- The internal contexts are those of the two descriptors, as they were made, and neither main
nor a task works on one. -/
structure Apart (s : Server n) : Prop where
  listed : ∀ p, some p ∈ s.p_conns ∨ p ∈ s.p_new_conns → p < s.made
  cur : ∀ conn p, s.main.cur = some (conn, p) → p < s.made
  fds : ∀ p, p < s.made → (s.ctxs p).link.ctx.type = .INTERNAL_CONN →
    (s.ctxs p).link.ctx.fd = s.sfd ∨ (s.ctxs p).link.ctx.fd = s.sigpipe_fd
  special : ∀ p, p < s.made → (s.ctxs p).link.ctx.type = .INTERNAL_CONN →
    (s.ctxs p).link.ctx.state = .SPECIAL_CONN
  busy : ∀ p, s.main.busy = some p → s.Inbound p
  tasks : ∀ t, Queued s.pool t → s.Inbound t.work.coin_task_arg

theorem apart_new (sfd sigpipe_fd : Int) : Apart (new_server sfd sigpipe_fd : Server n) where
  listed p h := by
    rcases h with h | h <;> cases h
  cur conn p h := by cases h
  fds p h := absurd h (Nat.not_lt_zero p)
  special p h := absurd h (Nat.not_lt_zero p)
  busy p h := by cases h
  tasks t h := by
    rcases h with h | ⟨w, h⟩ <;> cases h

theorem inbound_of_not_internal {s : Server n} {p : ctx_id} (hp : p < s.made)
    (h : (s.ctxs p).link.ctx.type ≠ .INTERNAL_CONN) : s.Inbound p := by
  refine ⟨hp, ?_⟩
  cases hty : (s.ctxs p).link.ctx.type with
  | INBOUND_CONN => rfl
  | INTERNAL_CONN => exact absurd hty h

/-- A step that makes no context and leaves main where it is. What it does to an inbound context
keeps its type. -/
theorem Apart.frame {s s' : Server n} (h : Apart s) (hmain : s'.main = s.main)
    (hmade : s'.made = s.made) (hfds : s'.sfd = s.sfd ∧ s'.sigpipe_fd = s.sigpipe_fd)
    (hlisted : ∀ p, some p ∈ s'.p_conns ∨ p ∈ s'.p_new_conns →
      some p ∈ s.p_conns ∨ p ∈ s.p_new_conns)
    (htype : ∀ p, (s'.ctxs p).link.ctx.type = (s.ctxs p).link.ctx.type)
    (hctx : ∀ p, (s.ctxs p).link.ctx.type = .INTERNAL_CONN → p < s.made →
      (s'.ctxs p).link.ctx.fd = (s.ctxs p).link.ctx.fd ∧
      (s'.ctxs p).link.ctx.state = (s.ctxs p).link.ctx.state)
    (htasks : ∀ t, Queued s'.pool t → Queued s.pool t ∨ s.Inbound t.work.coin_task_arg) :
    Apart s' := by
  have hinbound : ∀ p, s.Inbound p → s'.Inbound p := by
    intro p hp
    exact ⟨hmade ▸ hp.1, (htype p).trans hp.2⟩
  refine ⟨?_, ?_, ?_, ?_, ?_, ?_⟩
  · intro p hp
    rw [hmade]
    exact h.listed p (hlisted p hp)
  · intro conn p hp
    rw [hmain] at hp
    rw [hmade]
    exact h.cur conn p hp
  · intro p hp hty
    rw [hmade] at hp
    rw [htype] at hty
    rw [hfds.1, hfds.2, (hctx p hty hp).1]
    exact h.fds p hp hty
  · intro p hp hty
    rw [hmade] at hp
    rw [htype] at hty
    rw [(hctx p hty hp).2]
    exact h.special p hp hty
  · intro p hp
    rw [hmain] at hp
    exact hinbound p (h.busy p hp)
  · intro t ht
    rcases htasks t ht with ht | ht
    · exact hinbound _ (h.tasks t ht)
    · exact hinbound _ ht

/-! ## Where main goes on -/

theorem Apart.goto {s : Server n} {pc : main_pc} (h : Apart s)
    (hcur : ∀ conn p, pc.cur = some (conn, p) → p < s.made)
    (hbusy : ∀ p, pc.busy = some p → s.Inbound p) : Apart (s.goto pc) :=
  ⟨h.listed, hcur, h.fds, h.special, hbusy, h.tasks⟩

/-- A point at which main looks at no context. -/
theorem Apart.free {s : Server n} {pc : main_pc} (h : Apart s) (hcur : pc.cur = none)
    (hbusy : pc.busy = none) : Apart (s.goto pc) := by
  apply h.goto
  · simp [hcur]
  · simp [hbusy]

/-- A point at which main only looks at a context. -/
theorem Apart.look {s : Server n} {pc : main_pc} {conn : Nat} {p : ctx_id} (h : Apart s)
    (hp : p < s.made) (hcur : pc.cur = some (conn, p)) (hbusy : pc.busy = none) :
    Apart (s.goto pc) := by
  apply h.goto
  · intro conn' p' hp'
    rw [hcur] at hp'
    cases hp'
    exact hp
  · simp [hbusy]

/-- A point at which main works on an inbound context. -/
theorem Apart.work {s : Server n} {pc : main_pc} {conn : Nat} {p : ctx_id} (h : Apart s)
    (hp : s.Inbound p) (hcur : pc.cur = some (conn, p)) (hbusy : pc.busy = some p) :
    Apart (s.goto pc) := by
  apply h.goto
  · intro conn' p' hp'
    rw [hcur] at hp'
    cases hp'
    exact hp.1
  · intro p' hp'
    rw [hbusy] at hp'
    cases hp'
    exact hp

/-! ## What main does to the contexts -/

theorem Apart.set_mutex {s : Server n} (h : Apart s) (p : ctx_id) (m : Mutex (Thread n Unit)) :
    Apart (s.set_mutex p m) := by
  have hlink : ∀ q, ((s.set_mutex p m).ctxs q).link = (s.ctxs q).link :=
    fun q => (s.set_mutex_keeps p m q).1
  refine h.frame rfl rfl ⟨rfl, rfl⟩ (fun _ => id) ?_ ?_ ?_
  · intro q
    rw [hlink]
  · intro q _ _
    rw [hlink]
    exact ⟨rfl, rfl⟩
  · exact fun _ => Or.inl

/-- The link of an inbound context changes. -/
theorem Apart.set_link {s : Server n} (h : Apart s) {p : ctx_id} (hp : s.Inbound p) {k : Link}
    (hk : k.ctx.type = .INBOUND_CONN) : Apart (s.set_link p k) := by
  refine h.frame rfl rfl ⟨rfl, rfl⟩ (fun _ => id) ?_ ?_ ?_
  · intro q
    by_cases hq : q = p
    · rw [hq, s.set_link_self, hp.2]
      exact hk
    · rw [s.set_link_other k hq]
  · intro q hty _
    have hq : q ≠ p := by
      intro hq
      rw [hq, hp.2] at hty
      cases hty
    rw [s.set_link_other k hq]
    exact ⟨rfl, rfl⟩
  · exact fun _ => Or.inl

theorem Apart.destroy {s : Server n} (h : Apart s) (p : ctx_id) : Apart (s.destroy p) := by
  have hlink : ∀ q, ((s.destroy p).ctxs q).link = (s.ctxs q).link :=
    fun q => (s.destroy_keeps p q).1
  refine h.frame rfl rfl ⟨rfl, rfl⟩ (fun _ => id) ?_ ?_ ?_
  · intro q
    rw [hlink]
  · intro q _ _
    rw [hlink]
    exact ⟨rfl, rfl⟩
  · exact fun _ => Or.inl

/-- The lists lose some contexts, or pass them on. -/
theorem Apart.lists {s : Server n} (h : Apart s) (conns : List (Option ctx_id))
    (new_conns : List ctx_id) (hsub : ∀ p, some p ∈ conns ∨ p ∈ new_conns →
      some p ∈ s.p_conns ∨ p ∈ s.p_new_conns) :
    Apart { s with p_conns := conns, p_new_conns := new_conns } := by
  refine h.frame rfl rfl ⟨rfl, rfl⟩ hsub (fun _ => rfl) ?_ ?_
  · exact fun _ _ _ => ⟨rfl, rfl⟩
  · exact fun _ => Or.inl

theorem Apart.set_null {s : Server n} (h : Apart s) (conn : Nat) : Apart (s.set_null conn) := by
  apply h.lists (s.p_conns.set conn none) s.p_new_conns
  intro p hp
  refine hp.imp_left fun hp => ?_
  rcases List.mem_or_eq_of_mem_set hp with hp | hp
  · exact hp
  · cases hp

/-- Main begins a call of the pool. -/
theorem Apart.start {s s' : Server n} {call : Call io_task} (h : Apart s)
    (hs : s.start call = some s') : Apart s' := by
  obtain ⟨-, rfl⟩ := start_some hs
  refine h.frame rfl rfl ⟨rfl, rfl⟩ (fun _ => id) (fun _ => rfl) ?_ ?_
  · exact fun _ _ _ => ⟨rfl, rfl⟩
  · exact fun _ => Or.inl

/-- A new context is inbound, or one for a descriptor of main. -/
theorem Apart.make {s : Server n} (h : Apart s) {k : Link}
    (hk : k.ctx.type = .INTERNAL_CONN →
      (k.ctx.fd = s.sfd ∨ k.ctx.fd = s.sigpipe_fd) ∧ k.ctx.state = .SPECIAL_CONN) :
    Apart (s.make k) := by
  have hmade : (s.make k).made = s.made + 1 := rfl
  have hold : ∀ p, p < s.made → (s.make k).ctxs p = s.ctxs p := fun p hp =>
    s.make_other k (Nat.ne_of_lt hp)
  have hcases : ∀ p, p < (s.make k).made → p < s.made ∨ p = s.made := fun p hp => by
    rw [hmade] at hp
    omega
  have hinbound : ∀ p, s.Inbound p → (s.make k).Inbound p := by
    intro p hp
    refine ⟨Nat.lt_succ_of_lt hp.1, ?_⟩
    rw [hold p hp.1]
    exact hp.2
  refine ⟨?_, ?_, ?_, ?_, ?_, ?_⟩
  · intro p hp
    rcases hp with hp | hp
    · exact Nat.lt_succ_of_lt (h.listed p (Or.inl hp))
    · rcases List.mem_append.mp hp with hp | hp
      · exact Nat.lt_succ_of_lt (h.listed p (Or.inr hp))
      · rw [List.mem_singleton.mp hp]
        exact Nat.lt_succ_self _
  · intro conn p hp
    exact Nat.lt_succ_of_lt (h.cur conn p hp)
  · intro p hp hty
    rcases hcases p hp with hp | hp
    · rw [hold p hp] at hty ⊢
      exact h.fds p hp hty
    · rw [hp, s.make_self] at hty ⊢
      exact (hk hty).1
  · intro p hp hty
    rcases hcases p hp with hp | hp
    · rw [hold p hp] at hty ⊢
      exact h.special p hp hty
    · rw [hp, s.make_self] at hty ⊢
      exact (hk hty).2
  · exact fun p hp => hinbound p (h.busy p hp)
  · exact fun t ht => hinbound _ (h.tasks t ht)

theorem Apart.accept {s : Server n} (h : Apart s) (clients : List new_client) :
    Apart (clients.foldl (fun s c => s.make (client_link c)) s) ∧
    s.made ≤ (clients.foldl (fun s c => s.make (client_link c)) s).made := by
  induction clients generalizing s with
  | nil => exact ⟨h, Nat.le_refl _⟩
  | cons c clients ih =>
    have hmake : Apart (s.make (client_link c)) := by
      apply h.make
      intro hty
      cases hty
    exact ⟨(ih hmake).1, Nat.le_trans (Nat.le_succ _) (ih hmake).2⟩

theorem inbound_set_mutex {s : Server n} {p q : ctx_id} {m : Mutex (Thread n Unit)}
    (h : s.Inbound q) : (s.set_mutex p m).Inbound q := by
  refine ⟨h.1, ?_⟩
  rw [(s.set_mutex_keeps p m q).1]
  exact h.2

theorem Apart.lock {s s' : Server n} {t : Thread n Unit} {p : ctx_id} {res : Int} (h : Apart s)
    (hin : s.Inbound p) (hs : s.lock t p res = some s') : Apart s' ∧ s'.Inbound p := by
  rcases lock_some hs with ⟨-, -, rfl⟩ | ⟨-, rfl⟩
  · exact ⟨h.set_mutex p _, inbound_set_mutex hin⟩
  · exact ⟨h, hin⟩

theorem Apart.unlock {s : Server n} {p : ctx_id} (h : Apart s) (hin : s.Inbound p)
    (t : Thread n Unit) (res : Int) :
    Apart (s.unlock t p res) ∧ (s.unlock t p res).Inbound p :=
  ⟨h.set_mutex p _, inbound_set_mutex hin⟩

/-! ## The steps of main -/

/-- A step of main keeps the internal contexts apart, when it meets the condition on the events. -/
theorem Apart.main_step {o : main_outs} {s s' : Server n} (h : Apart s)
    (hquiet : OnlyPollin s (.main o)) (hs : main_step o s = some s') : Apart s' := by
  unfold OnlyPollin at hquiet
  unfold server.main_step at hs
  cases hpc : s.main with
  | reg_listener =>
    simp only [hpc] at hs
    split at hs
    · cases hs
      exact (h.make fun _ => ⟨Or.inl rfl, rfl⟩).free rfl rfl
    · cases hs
      exact h.free rfl rfl
  | reg_sigpipe =>
    simp only [hpc] at hs
    split at hs
    · cases hs
      exact (h.make fun _ => ⟨Or.inr rfl, rfl⟩).free rfl rfl
    · cases hs
      exact h.free rfl rfl
  | loop_head =>
    simp only [hpc] at hs
    split at hs
    · obtain ⟨t, ht, rfl⟩ := Option.map_eq_some_iff.mp hs
      exact (h.start ht).free rfl rfl
    · cases hs
      exact h.free rfl rfl
  | close_check conn =>
    simp only [hpc] at hs
    split at hs
    · cases hs
      exact h.free rfl rfl
    · cases hs
    · rename_i p hp
      have hlt := h.listed p (Or.inl (List.mem_of_getElem? hp))
      split at hs
      · cases hs
        exact h.free rfl rfl
      · rename_i hty
        cases hs
        exact h.work (inbound_of_not_internal hlt hty) rfl rfl
  | close_lock conn p =>
    have hin := h.busy p (by rw [hpc]; rfl)
    simp only [hpc] at hs
    obtain ⟨t, ht, rfl⟩ := Option.map_eq_some_iff.mp hs
    obtain ⟨ht', hin'⟩ := h.lock hin ht
    split
    · exact ht'.work hin' rfl rfl
    · exact ht'.free rfl rfl
  | close_read conn p =>
    have hin := h.busy p (by rw [hpc]; rfl)
    simp only [hpc] at hs
    cases hs
    exact h.work hin rfl rfl
  | close_unlock conn p cur_refs cur_state =>
    have hin := h.busy p (by rw [hpc]; rfl)
    obtain ⟨hu, hin'⟩ := h.unlock hin (.client ()) o.res
    simp only [hpc] at hs
    cases hs
    split
    · exact hu.work hin' rfl rfl
    · exact hu.free rfl rfl
  | close_destroy conn p =>
    simp only [hpc] at hs
    cases hs
    exact ((h.destroy p).set_null conn).free rfl rfl
  | update =>
    simp only [hpc] at hs
    split at hs
    · cases hs
      have hall := h.lists (s.p_conns.filter Option.isSome ++ s.p_new_conns.map some) []
        (by intro p hp; simpa using hp)
      exact hall.free rfl rfl
    · cases hs
      have hsome := h.lists (s.p_conns.filter Option.isSome ++
        (s.p_new_conns.take o.added).map some) (s.p_new_conns.drop (o.added + 1)) ?_
      · exact hsome.free rfl rfl
      intro p hp
      rcases hp with hp | hp
      · rcases List.mem_append.mp hp with hp | hp
        · exact Or.inl (List.mem_of_mem_filter hp)
        · obtain ⟨q, hq, he⟩ := List.mem_map.mp hp
          cases he
          exact Or.inr (List.mem_of_mem_take hq)
      · exact Or.inr (List.mem_of_mem_drop hp)
  | poll =>
    simp only [hpc] at hs
    split at hs
    · cases hs
      refine Apart.free (s := { s with revents := o.revents }) ?_ rfl rfl
      exact ⟨h.listed, h.cur, h.fds, h.special, h.busy, h.tasks⟩
    · obtain ⟨t, ht, rfl⟩ := Option.map_eq_some_iff.mp hs
      exact (h.start ht).free rfl rfl
  | dispatch conn =>
    simp only [hpc] at hs
    split at hs
    · cases hs
      exact h.free rfl rfl
    · cases hs
    · rename_i p hp
      have hlt := h.listed p (Or.inl (List.mem_of_getElem? hp))
      split at hs
      · split at hs
        · cases hs
          exact h.look hlt rfl rfl
        · rename_i hsfd
          split at hs
          · cases hs
            exact h.free rfl rfl
          · rename_i hpipe
            cases hs
            -- neither descriptor of main: the context is inbound
            refine h.work (inbound_of_not_internal hlt fun hty => ?_) rfl rfl
            exact (h.fds p hlt hty).elim hsfd hpipe
      · cases hs
        exact h.look hlt rfl rfl
  | accept conn p =>
    have hlt := h.cur conn p (by rw [hpc]; rfl)
    obtain ⟨hmade, hle⟩ := h.accept o.clients
    simp only [hpc] at hs
    cases hs
    split
    · exact hmade.look (Nat.lt_of_lt_of_le hlt hle) rfl rfl
    · exact hmade.free rfl rfl
  | task_lock func conn p =>
    have hin := h.busy p (by rw [hpc]; rfl)
    simp only [hpc] at hs
    obtain ⟨t, ht, rfl⟩ := Option.map_eq_some_iff.mp hs
    obtain ⟨ht', hin'⟩ := h.lock hin ht
    split
    · exact ht'.work hin' rfl rfl
    · cases func with
      | task_io_read => exact ht'.free rfl rfl
      | task_io_send => exact ht'.free rfl rfl
  | task_ref func conn p =>
    have hin := h.busy p (by rw [hpc]; rfl)
    simp only [hpc] at hs
    obtain ⟨t, ht, rfl⟩ := Option.map_eq_some_iff.mp hs
    have hlink := h.set_link (k := add_ref 1 (s.ctxs p).link) hin hin.2
    refine Apart.work (hlink.start ht) ?_ rfl rfl
    obtain ⟨-, rfl⟩ := start_some ht
    refine ⟨hin.1, ?_⟩
    simp only [s.set_link_self]
    exact hin.2
  | task_submit func conn p =>
    have hin := h.busy p (by rw [hpc]; rfl)
    simp only [hpc] at hs
    obtain ⟨status, -, rfl⟩ := Option.map_eq_some_iff.mp hs
    split
    · exact h.work hin rfl rfl
    · exact h.work hin rfl rfl
  | task_unlock func conn p =>
    have hin := h.busy p (by rw [hpc]; rfl)
    obtain ⟨hu, hin'⟩ := h.unlock hin (.client ()) o.res
    simp only [hpc] at hs
    cases hs
    cases func with
    | task_io_read =>
      simp only
      split
      · exact hu.look hin'.1 rfl rfl
      · exact hu.free rfl rfl
    | task_io_send => exact hu.free rfl rfl
  | failed_unlock conn p =>
    have hin := h.busy p (by rw [hpc]; rfl)
    simp only [hpc] at hs
    cases hs
    exact (h.unlock hin (.client ()) o.res).1.free rfl rfl
  | hup conn p =>
    have hlt := h.cur conn p (by rw [hpc]; rfl)
    simp only [hpc] at hs
    cases hs
    split
    · rename_i hevent
      refine h.work (inbound_of_not_internal hlt (hquiet p ?_)) rfl rfl
      simp [Server.event, hpc, hevent]
    · exact h.look hlt rfl rfl
  | hup_lock conn p =>
    have hin := h.busy p (by rw [hpc]; rfl)
    simp only [hpc] at hs
    obtain ⟨t, ht, rfl⟩ := Option.map_eq_some_iff.mp hs
    obtain ⟨ht', hin'⟩ := h.lock hin ht
    split
    · exact ht'.work hin' rfl rfl
    · exact ht'.free rfl rfl
  | hup_mark conn p =>
    have hin := h.busy p (by rw [hpc]; rfl)
    simp only [hpc] at hs
    cases hs
    refine (h.set_link (k := mark_close (s.ctxs p).link) hin hin.2).work ⟨hin.1, ?_⟩ rfl rfl
    rw [s.set_link_self]
    exact hin.2
  | hup_unlock conn p =>
    have hin := h.busy p (by rw [hpc]; rfl)
    obtain ⟨hu, hin'⟩ := h.unlock hin (.client ()) o.res
    simp only [hpc] at hs
    cases hs
    split
    · exact hu.look hin'.1 rfl rfl
    · exact hu.free rfl rfl
  | out conn p =>
    have hlt := h.cur conn p (by rw [hpc]; rfl)
    simp only [hpc] at hs
    cases hs
    split
    · rename_i hevent
      refine h.work (inbound_of_not_internal hlt (hquiet p ?_)) rfl rfl
      simp [Server.event, hpc, hevent]
    · exact h.free rfl rfl
  | wait =>
    simp only [hpc] at hs
    obtain ⟨status, -, rfl⟩ := Option.map_eq_some_iff.mp hs
    exact h.free rfl rfl
  | destroy_all idx =>
    simp only [hpc] at hs
    split at hs
    · cases hs
      exact h.free rfl rfl
    · cases hs
      exact h.free rfl rfl
    · cases hs
      exact ((h.destroy _).set_null idx).free rfl rfl
  | destroy_queue =>
    simp only [hpc] at hs
    split at hs
    · obtain ⟨t, ht, rfl⟩ := Option.map_eq_some_iff.mp hs
      exact (h.start ht).free rfl rfl
    · rename_i p rest hnew
      cases hs
      refine (h.destroy p).lists s.p_conns rest ?_
      intro q hq
      have hmem : q ∈ rest → q ∈ s.p_new_conns := by
        intro hq
        rw [hnew]
        exact List.mem_cons_of_mem p hq
      exact hq.imp_right hmem
  | destroy_tpool =>
    simp only [hpc] at hs
    obtain ⟨status, -, rfl⟩ := Option.map_eq_some_iff.mp hs
    exact h.free rfl rfl
  | finished =>
    simp only [hpc] at hs
    cases hs

/-! ## The other steps -/

/-- A step of the pool makes no task but the one that main submits. -/
theorem Apart.pool_step {s : Server n} {pool : Pool n Unit io_task} {task : Fin n → task_pc}
    (h : Apart s) (htasks : ∀ t, Queued pool t → Queued s.pool t ∨ s.Inbound t.work.coin_task_arg) :
    Apart { s with pool := pool, task := task } :=
  h.frame rfl rfl ⟨rfl, rfl⟩ (fun _ => id) (fun _ => rfl) (fun _ _ _ => ⟨rfl, rfl⟩) htasks

theorem Apart.call_step {s : Server n} {pool : Pool n Unit io_task} {o : Outcome n} (h : Apart s)
    (hl : Linked s) (hpool : client_step () o s.pool = some pool) :
    Apart { s with pool := pool } := by
  obtain ⟨y, hc⟩ := client_step_cases hpool
  apply h.pool_step
  intro t ht
  rcases ht with ht | ⟨w, hw⟩
  · rcases hc.tasks.mem_queue ht with ht | hsubmits
    · exact Or.inl (Or.inl ht)
    · -- main is in the call for this task
      obtain ⟨conn, hmain⟩ := hl.submits t.work hsubmits
      exact Or.inr (h.busy t.work.coin_task_arg (by rw [hmain]; rfl))
  · rw [hc.workers] at hw
    exact Or.inl (Or.inr ⟨w, hw⟩)

theorem Apart.worker_step {s : Server n} {pool : Pool n Unit io_task} {w : Fin n} {o : Outcome n}
    (h : Apart s) (hpool : worker_step w o s.pool = some pool) :
    Apart ({ s with pool := pool }.set_task w .lock) := by
  obtain ⟨x, hw⟩ := worker_step_cases hpool
  apply h.pool_step
  intro t ht
  apply Or.inl
  rcases ht with ht | ⟨v, hv⟩
  · exact Or.inl (hw.tasks.mem_queue ht)
  · by_cases he : v = w
    · rw [he, hw.self] at hv
      rcases hw.tasks.took hv with hv | hv
      · exact Or.inr ⟨w, hv⟩
      · exact Or.inl hv
    · rw [hw.other he] at hv
      exact Or.inr ⟨v, hv⟩

theorem Apart.set_task {s : Server n} (h : Apart s) (w : Fin n) (pc : task_pc) :
    Apart (s.set_task w pc) := by
  have htasks : ∀ t, Queued s.pool t → Queued s.pool t ∨ s.Inbound t.work.coin_task_arg :=
    fun _ => Or.inl
  exact h.pool_step htasks

theorem Apart.task_step {host : ByteOrder} {s s' : Server n} {w : Fin n} {t : coin_task_t io_task}
    {res : Int} {outs : List sys_result} (h : Apart s) (hin : s.Inbound t.work.coin_task_arg)
    (hs : task_step host w t.work res outs s = some s') : Apart s' := by
  unfold server.task_step at hs
  cases hpc : s.task w with
  | lock =>
    simp only [hpc] at hs
    obtain ⟨u, hu, rfl⟩ := Option.map_eq_some_iff.mp hs
    exact (h.lock hin hu).1.set_task w _
  | handle =>
    simp only [hpc] at hs
    obtain ⟨k, hk, rfl⟩ := Option.map_eq_some_iff.mp hs
    refine (h.set_link hin ?_).set_task w _
    have hkept : type_and_refs k = type_and_refs (s.ctxs t.work.coin_task_arg).link := by
      split at hk
      · exact kept_io_read hk
      · exact kept_io_send hk
    exact (congrArg Prod.fst hkept).trans hin.2
  | release =>
    simp only [hpc] at hs
    cases hs
    exact (h.set_link (k := add_ref (-1) _) hin hin.2).set_task w _
  | unlock =>
    simp only [hpc] at hs
    cases hs
    exact (h.unlock hin (.worker w) res).1.set_task w _
  | returned =>
    simp only [hpc] at hs
    cases hs

theorem Apart.step {host : ByteOrder} {l : ServerLabel n} {s s' : Server n} (h : Apart s)
    (hl : Linked s) (hquiet : OnlyPollin s l) (hs : server_step host s l = some s') :
    Apart s' := by
  cases l with
  | main o => exact h.main_step hquiet hs
  | call o =>
    obtain ⟨pool, hpool, rfl⟩ := Option.map_eq_some_iff.mp hs
    exact h.call_step hl hpool
  | worker w o =>
    simp only [server_step] at hs
    split at hs
    · cases hs
    · obtain ⟨pool, hpool, rfl⟩ := Option.map_eq_some_iff.mp hs
      exact h.worker_step hpool
  | task w res outs =>
    simp only [server_step] at hs
    split at hs
    · obtain ⟨t, ht, hs⟩ := Option.bind_eq_some_iff.mp hs
      exact h.task_step (h.tasks t (Or.inr ⟨w, ht⟩)) hs
    · cases hs
  | signal =>
    cases hs
    exact h.frame rfl rfl ⟨rfl, rfl⟩ (fun _ => id) (fun _ => rfl) (fun _ _ _ => ⟨rfl, rfl⟩)
      fun _ => Or.inl

/-! ## The law -/

theorem Apart.leavesInternalAlone {s : Server n} (h : Apart s) (l : ServerLabel n) :
    LeavesInternalAlone s l := by
  refine ⟨?_, h.special⟩
  intro p hp
  cases l with
  | main o =>
    apply h.busy
    simp only [mutex_call] at hp
    split at hp
    all_goals simp_all [main_pc.busy]
  | task w res outs =>
    simp only [mutex_call, Option.ite_none_right_eq_some, Option.map_eq_some_iff] at hp
    obtain ⟨-, t, ht, rfl⟩ := hp
    exact h.tasks t (Or.inr ⟨w, ht⟩)
  | call o => simp [mutex_call] at hp
  | worker w o => simp [mutex_call] at hp
  | signal => simp [mutex_call] at hp

theorem apart_of_run {host : ByteOrder} {sfd sigpipe_fd : Int} {ls : List (ServerLabel n)}
    {s : Server n}
    (hquiet : (server_machine host).Meets OnlyPollin (new_server sfd sigpipe_fd) ls)
    (hrun : (server_machine host).run (new_server sfd sigpipe_fd) ls = some s) :
    Apart s ∧ Linked s := by
  refine machine.Machine.run_invariant (P := fun s : Server n => Apart s ∧ Linked s) ?_
    ⟨apart_new sfd sigpipe_fd, linked_new sfd sigpipe_fd⟩ hquiet hrun
  intro s l s' hs hq hstep
  exact ⟨hs.1.step hs.2 hq hstep, hs.2.step (server_step_cases hstep)⟩

/-- An event that does not meet the condition leads main to the lock of an internal context. -/
theorem locks_internal_of_event {o : main_outs} {s s' : Server n}
    (hevent : ¬ OnlyPollin s (.main o)) (hs : main_step o s = some s') (o' : main_outs) :
    ¬ LeavesInternalAlone s' (.main o') := by
  rintro ⟨hmutex, -⟩
  simp only [OnlyPollin, not_forall, not_not] at hevent
  obtain ⟨p, hp, hty⟩ := hevent
  -- main goes to the lock of `p`, whose type is as before
  suffices hin : (s.ctxs p).link.ctx.type = .INBOUND_CONN by
    rw [hty] at hin
    cases hin
  cases hpc : s.main with
  | hup conn q =>
    simp only [Server.event, hpc, Option.mem_def, Option.ite_none_right_eq_some,
      Option.some.injEq] at hp
    obtain ⟨he, rfl⟩ := hp
    simp only [main_step, hpc, if_pos he] at hs
    cases hs
    exact (hmutex q rfl).2
  | out conn q =>
    simp only [Server.event, hpc, Option.mem_def, Option.ite_none_right_eq_some,
      Option.some.injEq] at hp
    obtain ⟨he, rfl⟩ := hp
    simp only [main_step, hpc, if_pos he] at hs
    cases hs
    exact (hmutex q rfl).2
  | _ => simp [Server.event, hpc] at hp

/-- In every run in which the event dispatch finds nothing but `POLLIN` for an internal context,
every step that comes next calls the mutex of an inbound context at most, and the internal
contexts are in their first state. A step that does not meet the condition leads main to the lock
of an internal context. -/
theorem internal_contexts_are_left_alone {host : ByteOrder} {sfd sigpipe_fd : Int}
    {ls : List (ServerLabel n)} {s : Server n}
    (hquiet : (server_machine host).Meets OnlyPollin (new_server sfd sigpipe_fd) ls)
    (hrun : (server_machine host).run (new_server sfd sigpipe_fd) ls = some s) :
    (∀ l, LeavesInternalAlone s l) ∧
    ∀ o s', ¬ OnlyPollin s (.main o) → server_step host s (.main o) = some s' →
      ∀ o', ¬ LeavesInternalAlone s' (.main o') := by
  constructor
  · exact (apart_of_run hquiet hrun).1.leavesInternalAlone
  · intro o s' hevent hs o'
    exact locks_internal_of_event hevent hs o'

/-- A client is accepted and sends something, and its task is submitted. -/
theorem a_client_leaves_the_listener_alone :
    ∃ s : Server 1, (server_machine .big).run (new_server 3 4) (accept_labels ++ submit_read_labels)
      = some s ∧ s.made = 3 ∧ ∀ l, LeavesInternalAlone s l := by
  obtain ⟨s, hrun, hmade⟩ := (server_machine .big).exists_run (fun s => s.made = 3)
    (new_server 3 4 : Server 1) (accept_labels ++ submit_read_labels) (by decide +kernel)
  exact ⟨s, hrun, hmade, (internal_contexts_are_left_alone (by decide +kernel) hrun).1⟩

/-- `poll` reports `POLLERR` for the listener. -/
def listener_error_labels : List (ServerLabel 1) :=
  main_steps 5 ++ [polled 0 { no_events with POLLERR := true }] ++ main_steps 2

theorem an_error_of_the_listener_locks_its_context :
    ¬ ∀ (host : ByteOrder) (sfd sigpipe_fd : Int) (ls : List (ServerLabel 1)) (s : Server 1)
      (l : ServerLabel 1), (server_machine host).run (new_server sfd sigpipe_fd) ls = some s →
        LeavesInternalAlone s l := by
  intro h
  obtain ⟨s, hrun, hcall, hty⟩ := (server_machine .big).exists_run
    (fun s => mutex_call s (.main {}) = some 0 ∧ (s.ctxs 0).link.ctx.type = .INTERNAL_CONN)
    (new_server 3 4) listener_error_labels (by decide +kernel)
  have hin := ((h .big 3 4 _ s (.main {}) hrun).1 0 hcall).2
  rw [hty] at hin
  cases hin

end pingpong.server
