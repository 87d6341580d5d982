-- What one step of the server does: of main to the contexts and the lists, of a
-- worker in its task, and of the threads in the pool.
import PingPong.Framing
import PingPong.PoolInv
import PingPong.Server

namespace pingpong.server

open concurinc connmgr framing mutex netio tasks

variable {n : Nat}

/-! ## The points of main -/

/-- The index and the context that main looks at. -/
def main_pc.cur : main_pc → Option (Nat × ctx_id)
  | .close_lock conn p | .close_read conn p | .close_unlock conn p _ _ | .close_destroy conn p
  | .accept conn p | .task_lock _ conn p | .task_ref _ conn p | .task_submit _ conn p
  | .task_unlock _ conn p | .failed_unlock conn p | .hup conn p | .hup_lock conn p
  | .hup_mark conn p | .hup_unlock conn p | .out conn p => some (conn, p)
  | _ => none

/-- The context whose mutex main holds. -/
def main_pc.locks : main_pc → Option ctx_id
  | .close_read _ p | .close_unlock _ p _ _ | .task_ref _ _ p | .task_submit _ _ p
  | .task_unlock _ _ p | .failed_unlock _ p | .hup_mark _ p | .hup_unlock _ p => some p
  | _ => none

/-- The context that had no reference when main read its count, and that the pass may close. -/
def main_pc.closes : main_pc → Option ctx_id
  | .close_unlock _ p cur_refs _ => if cur_refs = 0 then some p else none
  | .close_destroy _ p => some p
  | _ => none

/-- The points of main in a call of the pool. -/
def main_pc.inCall : main_pc → Bool
  | .task_submit .. | .wait | .destroy_tpool => true
  | _ => false

/-- The points from `cleanup_connections` on. -/
def main_pc.inCleanup : main_pc → Bool
  | .destroy_all _ | .destroy_queue | .destroy_tpool | .finished => true
  | _ => false

/-- The context of a read task that `coin_tpool_submit` has refused, where `y` is main in the call.
Main holds its mutex, and leaves the loop next. -/
def main_pc.refused (y : Client io_task) : main_pc → Option ctx_id
  | .failed_unlock _ p => some p
  | .task_submit .task_io_read _ p => match y.pc with
    | .submit_push_failed => some p
    | .idle => if y.status = .COIN_SUCCESS then none else some p
    | _ => none
  | _ => none

/-- What holds of the next point of main, in a step that leaves the lists alone. -/
structure Walk (s : Server n) (pc : main_pc) : Prop where
  cur : ∀ conn p, pc.cur = some (conn, p) →
    s.main.cur = some (conn, p) ∨ s.p_conns[conn]? = some (some p)
  cleanup : pc.inCleanup = false → s.main.inCleanup = false
  closes : ∀ p, pc.closes = some p → s.main.closes = some p ∨
    (s.main.locks = some p ∧ (s.ctxs p).link.ctx.ref_count = 0)
  returned : s.main.inCall = true → s.returned.isSome = true
  outside : pc.inCall = false
  refused : ∀ p, s.main.refused (s.pool.clients ()) = some p →
    pc.inCleanup = true ∨ pc.refused (s.pool.clients ()) = some p

/-- A point at which main looks at no context. -/
theorem Walk.free {s : Server n} {pc : main_pc}
    (hcleanup : pc.inCleanup = false → s.main.inCleanup = false)
    (hret : s.main.inCall = true → s.returned.isSome = true)
    (hrefused : ∀ p, s.main.refused (s.pool.clients ()) = some p →
      pc.inCleanup = true ∨ pc.refused (s.pool.clients ()) = some p := by exact nofun)
    (hcur : pc.cur = none := by exact rfl) (hcloses : pc.closes = none := by exact rfl)
    (hout : pc.inCall = false := by exact rfl) :
    Walk s pc where
  cur _ _ h := by
    rw [hcur] at h
    cases h
  cleanup := hcleanup
  closes _ h := by
    rw [hcloses] at h
    cases h
  returned := hret
  outside := hout
  refused := hrefused

/-- A point at which main goes on with its context. -/
theorem Walk.along {s : Server n} {pc : main_pc}
    (hcleanup : pc.inCleanup = false → s.main.inCleanup = false)
    (hret : s.main.inCall = true → s.returned.isSome = true)
    (hrefused : ∀ p, s.main.refused (s.pool.clients ()) = some p →
      pc.inCleanup = true ∨ pc.refused (s.pool.clients ()) = some p := by exact nofun)
    (hcur : pc.cur = s.main.cur := by exact rfl) (hcloses : pc.closes = none := by exact rfl)
    (hout : pc.inCall = false := by exact rfl) :
    Walk s pc where
  cur _ _ h := Or.inl (hcur ▸ h)
  cleanup := hcleanup
  closes _ h := by
    rw [hcloses] at h
    cases h
  returned := hret
  outside := hout
  refused := hrefused

/-- A point at which main takes a context out of the list. -/
theorem Walk.found {s : Server n} {pc : main_pc} {conn : Nat} {p : ctx_id}
    (hp : s.p_conns[conn]? = some (some p))
    (hcleanup : pc.inCleanup = false → s.main.inCleanup = false)
    (hret : s.main.inCall = true → s.returned.isSome = true)
    (hrefused : ∀ p, s.main.refused (s.pool.clients ()) = some p →
      pc.inCleanup = true ∨ pc.refused (s.pool.clients ()) = some p := by exact nofun)
    (hcur : pc.cur = some (conn, p) := by exact rfl) (hcloses : pc.closes = none := by exact rfl)
    (hout : pc.inCall = false := by exact rfl) :
    Walk s pc where
  cur conn' p' h := by
    rw [hcur] at h
    cases h
    exact Or.inr hp
  cleanup := hcleanup
  closes _ h := by
    rw [hcloses] at h
    cases h
  returned := hret
  outside := hout
  refused := hrefused

/-! ## The steps of main -/

/-- Everything that a step of main does, outside of the pool calls. -/
inductive MainMove (res : Int) (s : Server n) : Server n → Prop
  | go (pc : main_pc) (revents : Nat → poll_events) (hwalk : Walk s pc)
      (hlocks : pc.locks = s.main.locks) :
      MainMove res s { s with main := pc, revents := revents }
  | lock (pc : main_pc) (conn : Nat) (p : ctx_id) (hwalk : Walk s pc)
      (hcur : s.main.cur = some (conn, p)) (hfree : (s.ctxs p).mutex = .free)
      (hwas : s.main.locks = none) (hlocks : pc.locks = some p) :
      MainMove res s ((s.set_mutex p (.held (.client ()))).goto pc)
  | unlock (pc : main_pc) (p : ctx_id) (hwalk : Walk s pc) (hwas : s.main.locks = some p)
      (hlocks : pc.locks = none) :
      MainMove res s ((s.unlock (.client ()) p res).goto pc)
  | mark (pc : main_pc) (conn : Nat) (p : ctx_id) (hwalk : Walk s pc)
      (hcur : s.main.cur = some (conn, p)) (hlocks : pc.locks = s.main.locks)
      (hwas : s.main.locks = some p) :
      MainMove res s ((s.set_link p (mark_close (s.ctxs p).link)).goto pc)
  | submit (func : task_func) (conn : Nat) (p : ctx_id) (hpc : s.main = .task_ref func conn p)
      (hidle : (s.pool.clients ()).pc = .idle) :
      MainMove res s { (s.set_link p (add_ref 1 (s.ctxs p).link)).goto (.task_submit func conn p)
        with pool := s.pool.goto () (.submit_alloc ⟨func, p⟩ false) }
  | make (pc : main_pc) (links : List Link) (hzero : ∀ k ∈ links, k.ctx.ref_count = 0)
      (hwalk : Walk s pc) (hwas : s.main.locks = none) (hlocks : pc.locks = none) :
      MainMove res s ((links.foldl Server.make s).goto pc)
  | close (conn : Nat) (p : ctx_id) (hpc : s.main = .close_destroy conn p) :
      MainMove res s (((s.destroy p).set_null conn).goto (.close_check (conn + 1)))
  | update (hpc : s.main = .update) :
      MainMove res s ({ s with
        p_conns := s.p_conns.filter Option.isSome ++ s.p_new_conns.map some
        p_new_conns := [] }.goto .poll)
  | lose (conns : List (Option ctx_id)) (new_conns : List ctx_id) (hpc : s.main = .update) :
      MainMove res s { s with
        p_conns := conns, p_new_conns := new_conns, main := .destroy_all 0 }
  | wait (hlocks : s.main.locks = none) (hloop : s.main.inCleanup = false)
      (hidle : (s.pool.clients ()).pc = .idle) :
      MainMove res s { s with pool := s.pool.goto () .wait_lock_active, main := .wait }
  | free (pc : main_pc) (p : ctx_id) (conns : List (Option ctx_id)) (new_conns : List ctx_id)
      (hwas : s.main.inCleanup = true) (hlocks : s.main.locks = none)
      (hout : s.main.inCall = false) (hpc : pc.inCleanup = true) (hlocks' : pc.locks = none)
      (hout' : pc.inCall = false) :
      MainMove res s { s.destroy p with p_conns := conns, p_new_conns := new_conns, main := pc }
  | stop (hpc : s.main = .destroy_queue) (hidle : (s.pool.clients ()).pc = .idle) :
      MainMove res s { s with pool := s.pool.goto () .stop_lock, main := .destroy_tpool }

theorem start_some {s s' : Server n} {call : Call io_task} (h : s.start call = some s') :
    (s.pool.clients ()).pc = .idle ∧ s' = { s with pool := s.pool.goto () call.start } := by
  unfold Server.start pool_step at h
  simp only at h
  split at h
  · cases h
    exact ⟨‹_›, rfl⟩
  · cases h

theorem lock_some {s s' : Server n} {t : Thread n Unit} {p : ctx_id} {res : Int}
    (h : s.lock t p res = some s') :
    (res = 0 ∧ (s.ctxs p).mutex = .free ∧ s' = s.set_mutex p (.held t)) ∨
    (res ≠ 0 ∧ s' = s) := by
  unfold Server.lock at h
  obtain ⟨m, hm, rfl⟩ := Option.map_eq_some_iff.mp h
  rcases Mutex.lock_eq_some.mp hm with ⟨hr, hf, rfl⟩ | ⟨hr, rfl⟩
  · exact Or.inl ⟨hr, hf, rfl⟩
  · refine Or.inr ⟨hr, ?_⟩
    unfold Server.set_mutex
    rw [Function.update_eq_self]

theorem internal_zero {fd : Int} {mem : conn_ctx_t} :
    ∀ k ∈ [internal_link fd mem], k.ctx.ref_count = 0 := by
  intro k hk
  rw [List.mem_singleton.mp hk]
  rfl

/-- A call that has returned was refused when it is one for a read task that has failed. -/
theorem refused_of_returned {s : Server n} {func : task_func} {conn : Nat} {p q : ctx_id}
    {status : coin_status_t} (hret : s.returned = some status)
    (h : (main_pc.task_submit func conn p).refused (s.pool.clients ()) = some q) :
    q = p ∧ status ≠ .COIN_SUCCESS ∧ func = .task_io_read := by
  unfold Server.returned at hret
  unfold main_pc.refused at h
  cases func with
  | task_io_send => cases h
  | task_io_read =>
    split at hret
    · rename_i hpc
      cases hret
      simp only [hpc] at h
      split at h
      · cases h
      · rename_i hfail
        cases h
        exact ⟨rfl, hfail, rfl⟩
    · cases hret

theorem main_step_cases {o : main_outs} {s s' : Server n} (h : main_step o s = some s') :
    MainMove o.res s s' := by
  unfold main_step at h
  obtain ⟨pool, task, ctxs, made, p_conns, p_new_conns, revents, main, flag, sfd, sigpipe_fd⟩ := s
  cases main with
  | reg_listener =>
    simp only at h
    split at h
    · cases h
      exact .make .reg_sigpipe [_] internal_zero (.free (fun _ => rfl) nofun) rfl rfl
    · cases h
      exact .go _ _ (.free nofun nofun) rfl
  | reg_sigpipe =>
    simp only at h
    split at h
    · cases h
      exact .make .loop_head [_] internal_zero (.free (fun _ => rfl) nofun) rfl rfl
    · cases h
      exact .go _ _ (.free nofun nofun) rfl
  | loop_head =>
    simp only at h
    split at h
    · obtain ⟨t, ht, rfl⟩ := Option.map_eq_some_iff.mp h
      obtain ⟨hidle, rfl⟩ := start_some ht
      exact .wait rfl rfl hidle
    · cases h
      exact .go _ _ (.free (fun _ => rfl) nofun) rfl
  | close_check conn =>
    simp only at h
    split at h
    · cases h
      exact .go _ _ (.free (fun _ => rfl) nofun) rfl
    · cases h
    · rename_i p hp
      split at h
      · cases h
        exact .go _ _ (.free (fun _ => rfl) nofun) rfl
      · cases h
        exact .go _ _ (.found hp (fun _ => rfl) nofun) rfl
  | close_lock conn p =>
    obtain ⟨t, ht, rfl⟩ := Option.map_eq_some_iff.mp h
    rcases lock_some ht with ⟨hr, hfree, rfl⟩ | ⟨hr, rfl⟩
    · simp only [hr, if_true]
      exact .lock _ conn p (.along (fun _ => rfl) nofun) rfl hfree rfl rfl
    · simp only [hr, if_false]
      exact .go _ _ (.free (fun _ => rfl) nofun) rfl
  | close_read conn p =>
    cases h
    refine .go _ _ ⟨fun _ _ hc => Or.inl hc, fun _ => rfl, fun q hq => ?_, nofun, rfl, nofun⟩ rfl
    unfold main_pc.closes at hq
    simp only at hq
    split at hq
    · rename_i hzero
      cases hq
      exact Or.inr ⟨rfl, hzero⟩
    · cases hq
  | close_unlock conn p cur_refs cur_state =>
    cases h
    split
    · rename_i hdone
      refine .unlock _ p ⟨fun _ _ hc => Or.inl hc, fun _ => rfl, fun q hq => Or.inl ?_, nofun, rfl,
        nofun⟩
        rfl rfl
      unfold main_pc.closes
      simp only [hdone.2.2, if_true]
      exact hq
    · exact .unlock _ p (.free (fun _ => rfl) nofun) rfl rfl
  | close_destroy conn p =>
    cases h
    exact .close conn p rfl
  | update =>
    simp only at h
    split at h
    · cases h
      exact .update rfl
    · cases h
      exact .lose _ _ rfl
  | poll =>
    simp only at h
    split at h
    · cases h
      exact .go _ _ (.free (fun _ => rfl) nofun) rfl
    · obtain ⟨t, ht, rfl⟩ := Option.map_eq_some_iff.mp h
      obtain ⟨hidle, rfl⟩ := start_some ht
      exact .wait rfl rfl hidle
  | dispatch conn =>
    simp only at h
    split at h
    · cases h
      exact .go _ _ (.free (fun _ => rfl) nofun) rfl
    · cases h
    · rename_i p hp
      split at h
      · split at h
        · cases h
          exact .go _ _ (.found hp (fun _ => rfl) nofun) rfl
        · split at h
          · cases h
            exact .go _ _ (.free (fun _ => rfl) nofun) rfl
          · cases h
            exact .go _ _ (.found hp (fun _ => rfl) nofun) rfl
      · cases h
        exact .go _ _ (.found hp (fun _ => rfl) nofun) rfl
  | accept conn p =>
    simp only [← List.foldl_map (f := client_link) (g := Server.make)] at h
    cases h
    have hzero : ∀ k ∈ o.clients.map client_link, k.ctx.ref_count = 0 := by
      intro k hk
      obtain ⟨c, -, rfl⟩ := List.mem_map.mp hk
      rfl
    split
    · exact .make _ _ hzero (.along (fun _ => rfl) nofun) rfl rfl
    · exact .make _ _ hzero (.free nofun nofun) rfl rfl
  | task_lock func conn p =>
    obtain ⟨t, ht, rfl⟩ := Option.map_eq_some_iff.mp h
    rcases lock_some ht with ⟨hr, hfree, rfl⟩ | ⟨hr, rfl⟩
    · simp only [hr, if_true]
      exact .lock _ conn p (.along (fun _ => rfl) nofun) rfl hfree rfl rfl
    · simp only [hr, if_false]
      cases func with
      | task_io_read => exact .go _ _ (.free nofun nofun) rfl
      | task_io_send => exact .go _ _ (.free (fun _ => rfl) nofun) rfl
  | task_ref func conn p =>
    obtain ⟨t, ht, rfl⟩ := Option.map_eq_some_iff.mp h
    obtain ⟨hidle, rfl⟩ := start_some ht
    exact .submit func conn p rfl hidle
  | task_submit func conn p =>
    obtain ⟨status, hret, rfl⟩ := Option.map_eq_some_iff.mp h
    have hsome := Option.isSome_of_mem hret
    split
    · refine .go _ _ (.along (fun _ => rfl) (fun _ => hsome) fun q hq => ?_) rfl
      rw [(refused_of_returned hret hq).1]
      exact Or.inr rfl
    · rename_i hgood
      refine .go _ _ (.along (fun _ => rfl) (fun _ => hsome) fun q hq => ?_) rfl
      exact absurd (refused_of_returned hret hq).2 hgood
  | task_unlock func conn p =>
    cases h
    cases func with
    | task_io_read =>
      by_cases hr : o.res = 0
      · simp only [hr, if_true]
        exact .unlock _ p (.along (fun _ => rfl) nofun) rfl rfl
      · simp only [hr, if_false]
        exact .unlock _ p (.free nofun nofun) rfl rfl
    | task_io_send => exact .unlock _ p (.free (fun _ => rfl) nofun) rfl rfl
  | failed_unlock conn p =>
    cases h
    exact .unlock _ p (.free nofun nofun fun _ _ => Or.inl rfl) rfl rfl
  | hup conn p =>
    cases h
    split
    · exact .go _ _ (.along (fun _ => rfl) nofun) rfl
    · exact .go _ _ (.along (fun _ => rfl) nofun) rfl
  | hup_lock conn p =>
    obtain ⟨t, ht, rfl⟩ := Option.map_eq_some_iff.mp h
    rcases lock_some ht with ⟨hr, hfree, rfl⟩ | ⟨hr, rfl⟩
    · simp only [hr, if_true]
      exact .lock _ conn p (.along (fun _ => rfl) nofun) rfl hfree rfl rfl
    · simp only [hr, if_false]
      exact .go _ _ (.free nofun nofun) rfl
  | hup_mark conn p =>
    cases h
    exact .mark _ conn p (.along (fun _ => rfl) nofun) rfl rfl rfl
  | hup_unlock conn p =>
    cases h
    by_cases hr : o.res = 0
    · simp only [hr, if_true]
      exact .unlock _ p (.along (fun _ => rfl) nofun) rfl rfl
    · simp only [hr, if_false]
      exact .unlock _ p (.free nofun nofun) rfl rfl
  | out conn p =>
    cases h
    split
    · exact .go _ _ (.along (fun _ => rfl) nofun) rfl
    · exact .go _ _ (.free (fun _ => rfl) nofun) rfl
  | wait =>
    obtain ⟨status, hret, rfl⟩ := Option.map_eq_some_iff.mp h
    exact .go _ _ (.free nofun (fun _ => Option.isSome_of_mem hret)) rfl
  | destroy_all idx =>
    simp only at h
    split at h
    · cases h
      exact .go _ _ (.free nofun nofun) rfl
    · cases h
      exact .go _ _ (.free nofun nofun) rfl
    · rename_i p hp
      cases h
      exact .free _ p _ _ rfl rfl rfl rfl rfl rfl
  | destroy_queue =>
    simp only at h
    split at h
    · obtain ⟨t, ht, rfl⟩ := Option.map_eq_some_iff.mp h
      obtain ⟨hidle, rfl⟩ := start_some ht
      exact .stop rfl hidle
    · rename_i p rest
      cases h
      exact .free _ p _ _ rfl rfl rfl rfl rfl rfl
  | destroy_tpool =>
    obtain ⟨status, hret, rfl⟩ := Option.map_eq_some_iff.mp h
    exact .go _ _ (.free nofun (fun _ => Option.isSome_of_mem hret)) rfl
  | finished => cases h

/-! ## The steps of a task -/

/-- The type of a context and the count of its references. -/
def type_and_refs (k : Link) : conn_type_t × Int := (k.ctx.type, k.ctx.ref_count)

theorem kept_read_more {f : Link → Link} (hf : ∀ k, type_and_refs (f k) = type_and_refs k)
    {outs : List sys_result} {k k' : Link} {res : Int}
    (h : read_more f outs k = some (res, k')) : type_and_refs k' = type_and_refs k := by
  obtain ⟨m, log, -, -, -, -, ⟨-, rfl⟩ | ⟨-, rfl | rfl⟩⟩ := read_more_cases h
  · exact hf _
  · rfl
  · rfl

/-- The I/O of a task leaves them alone. -/
theorem kept_io_read {host : ByteOrder} {flag : Bool} {outs : List sys_result} {k k' : Link}
    (h : io_read_body host flag outs k = some k') : type_and_refs k' = type_and_refs k := by
  unfold io_read_body at h
  split at h
  · obtain ⟨⟨res, k1⟩, hin, rfl⟩ := Option.map_eq_some_iff.mp h
    unfold nl_handle_sock_data_in at hin
    split at hin
    · refine kept_read_more (fun k => ?_) hin
      unfold header_done
      split <;> rfl
    · refine kept_read_more (fun k => ?_) hin
      unfold content_done
      split <;> rfl
    · have hk := (stop_some.mp hin).2
      cases hk
      rfl
  · rw [(stop_some.mp h).2]

theorem kept_io_send {flag : Bool} {outs : List sys_result} {k k' : Link}
    (h : io_send_body flag outs k = some k') : type_and_refs k' = type_and_refs k := by
  unfold io_send_body at h
  split at h
  · obtain ⟨⟨res, k1⟩, hout, rfl⟩ := Option.map_eq_some_iff.mp h
    obtain ⟨m, log, -, -, ⟨-, rfl⟩ | ⟨-, rfl⟩⟩ := data_out_cases hout
    · unfold response_done
      split <;> rfl
    · rfl
  · rw [(stop_some.mp h).2]

/-- Everything that a step of worker `w` in a task on `p` does. -/
inductive TaskMove (w : Fin n) (p : ctx_id) (res : Int) (s : Server n) : Server n → Prop
  | lock (hpc : s.task w = .lock) (hfree : (s.ctxs p).mutex = .free) :
      TaskMove w p res s ((s.set_mutex p (.held (.worker w))).set_task w .handle)
  | lock_failed (hpc : s.task w = .lock) (hres : res ≠ 0) :
      TaskMove w p res s (s.set_task w .handle)
  | handle (k : Link) (hpc : s.task w = .handle)
      (hk : k.ctx.ref_count = (s.ctxs p).link.ctx.ref_count) :
      TaskMove w p res s ((s.set_link p k).set_task w .release)
  | release (hpc : s.task w = .release) :
      TaskMove w p res s ((s.set_link p (add_ref (-1) (s.ctxs p).link)).set_task w .unlock)
  | unlock (hpc : s.task w = .unlock) :
      TaskMove w p res s ((s.unlock (.worker w) p res).set_task w .returned)

theorem task_step_cases {host : ByteOrder} {w : Fin n} {t : io_task} {res : Int}
    {outs : List sys_result} {s s' : Server n} (h : task_step host w t res outs s = some s') :
    TaskMove w t.coin_task_arg res s s' := by
  unfold task_step at h
  cases hpc : s.task w with
  | lock =>
    rw [hpc] at h
    obtain ⟨u, hu, rfl⟩ := Option.map_eq_some_iff.mp h
    rcases lock_some hu with ⟨hr, hfree, rfl⟩ | ⟨hr, rfl⟩
    · exact .lock hpc hfree
    · exact .lock_failed hpc hr
  | handle =>
    rw [hpc] at h
    obtain ⟨k, hk, rfl⟩ := Option.map_eq_some_iff.mp h
    refine .handle k hpc ?_
    cases hf : t.coin_task_func with
    | task_io_read =>
      rw [hf] at hk
      exact congrArg Prod.snd (kept_io_read hk)
    | task_io_send =>
      rw [hf] at hk
      exact congrArg Prod.snd (kept_io_send hk)
  | release =>
    rw [hpc] at h
    cases h
    exact .release hpc
  | unlock =>
    rw [hpc] at h
    cases h
    exact .unlock hpc
  | returned =>
    rw [hpc] at h
    cases h

/-! ## The steps of the server -/

inductive ServerStep (s : Server n) : ServerLabel n → Server n → Prop
  | main (o : main_outs) {s' : Server n} (hmove : MainMove o.res s s') : ServerStep s (.main o) s'
  | call (o : Outcome n) (pool : Pool n Unit io_task)
      (hpool : client_step () o s.pool = some pool) :
      ServerStep s (.call o) { s with pool := pool }
  | worker (w : Fin n) (o : Outcome n) (pool : Pool n Unit io_task)
      (hpool : worker_step w o s.pool = some pool)
      (hrun : (s.pool.workers w).pc = .run → s.task w = .returned) :
      ServerStep s (.worker w o) ({ s with pool := pool }.set_task w .lock)
  | task (w : Fin n) (res : Int) (outs : List sys_result) (t : coin_task_t io_task)
      (hrun : (s.pool.workers w).pc = .run) (ht : (s.pool.workers w).p_task = some t)
      {s' : Server n} (hmove : TaskMove w t.work.coin_task_arg res s s') :
      ServerStep s (.task w res outs) s'
  | signal : ServerStep s .signal { s with g_should_shutdown := true }

theorem server_step_cases {host : ByteOrder} {l : ServerLabel n} {s s' : Server n}
    (h : server_step host s l = some s') : ServerStep s l s' := by
  cases l with
  | main o => exact .main o (main_step_cases h)
  | call o =>
    obtain ⟨pool, hpool, rfl⟩ := Option.map_eq_some_iff.mp h
    exact .call o pool hpool
  | worker w o =>
    unfold server_step at h
    simp only at h
    split at h
    · cases h
    · rename_i hrun
      obtain ⟨pool, hpool, rfl⟩ := Option.map_eq_some_iff.mp h
      exact .worker w o pool hpool fun hpc => not_not.mp fun hr => hrun ⟨hpc, hr⟩
  | task w res outs =>
    unfold server_step at h
    simp only at h
    split at h
    · rename_i hrun
      obtain ⟨t, ht, hs⟩ := Option.bind_eq_some_iff.mp h
      exact .task w res outs t hrun ht (task_step_cases hs)
    · cases h
  | signal =>
    cases h
    exact .signal

/-! ## Main and its pool -/

theorem foldl_make_kept (links : List Link) (s : Server n) :
    (links.foldl Server.make s).pool = s.pool ∧ (links.foldl Server.make s).task = s.task ∧
    (links.foldl Server.make s).p_conns = s.p_conns ∧
    (links.foldl Server.make s).main = s.main := by
  induction links generalizing s with
  | nil => exact ⟨rfl, rfl, rfl, rfl⟩
  | cons k links ih => exact ih (s.make k)

/-- Main begins a call at a point of its code. -/
def Begins (was now : main_pc) : Call io_task → Prop
  | .submit t _ => ∃ conn, now = .task_submit t.coin_task_func conn t.coin_task_arg
  | .wait => now = .wait ∧ was.inCleanup = false
  | .destroy => now = .destroy_tpool ∧ was.inCleanup = true

/-- A step of main leaves the pool alone, when no call is open, or it begins a call. -/
theorem MainMove.pool_cases {res : Int} {s s' : Server n} (h : MainMove res s s') :
    s'.task = s.task ∧
    ((s'.pool = s.pool ∧ s'.main.inCall = false ∧
        (s.main.inCall = true → s.returned.isSome = true)) ∨
      ∃ call : Call io_task, (s.pool.clients ()).pc = .idle ∧
        s'.pool = s.pool.goto () call.start ∧ Begins s.main s'.main call) := by
  cases h with
  | go pc revents hwalk => exact ⟨rfl, .inl ⟨rfl, hwalk.outside, hwalk.returned⟩⟩
  | lock pc conn p hwalk => exact ⟨rfl, .inl ⟨rfl, hwalk.outside, hwalk.returned⟩⟩
  | unlock pc p hwalk => exact ⟨rfl, .inl ⟨rfl, hwalk.outside, hwalk.returned⟩⟩
  | mark pc conn p hwalk => exact ⟨rfl, .inl ⟨rfl, hwalk.outside, hwalk.returned⟩⟩
  | submit func conn p hpc hidle =>
    exact ⟨rfl, .inr ⟨.submit ⟨func, p⟩ false, hidle, rfl, conn, rfl⟩⟩
  | make pc links hzero hwalk =>
    obtain ⟨hpool, htask, -, -⟩ := foldl_make_kept links s
    exact ⟨htask, .inl ⟨hpool, hwalk.outside, hwalk.returned⟩⟩
  | close conn p hpc => exact ⟨rfl, .inl ⟨rfl, rfl, by rw [hpc]; nofun⟩⟩
  | update hpc => exact ⟨rfl, .inl ⟨rfl, rfl, by rw [hpc]; nofun⟩⟩
  | lose conns new_conns hpc => exact ⟨rfl, .inl ⟨rfl, rfl, by rw [hpc]; nofun⟩⟩
  | wait hlocks hloop hidle => exact ⟨rfl, .inr ⟨.wait, hidle, rfl, rfl, hloop⟩⟩
  | free pc p conns new_conns hwas hlocks hout hpc hlocks' hout' =>
    exact ⟨rfl, .inl ⟨rfl, hout', by rw [hout]; nofun⟩⟩
  | stop hpc hidle => exact ⟨rfl, .inr ⟨.destroy, hidle, rfl, rfl, by rw [hpc]; rfl⟩⟩

theorem pool_call {s : Server n} {call : Call io_task} (h : (s.pool.clients ()).pc = .idle) :
    pool_step s.pool (.call () call) = some (s.pool.goto () call.start) := by
  unfold pool_step
  simp only [h]

/-- The pool of the server is a pool: each step of the server is a step of it, or no step. -/
theorem pool_step_of_server_step {l : ServerLabel n} {s s' : Server n} (h : ServerStep s l s') :
    s'.pool = s.pool ∨ ∃ k, (l.Ok → k.Ok) ∧ pool_step s.pool k = some s'.pool := by
  cases h with
  | main o hmove =>
    rcases hmove.pool_cases.2 with ⟨hpool, -, -⟩ | ⟨call, hidle, hpool, -⟩
    · exact Or.inl hpool
    · exact Or.inr ⟨.call () call, fun _ => trivial, by rw [hpool, pool_call hidle]⟩
  | call o pool hpool => exact Or.inr ⟨.client () o, id, hpool⟩
  | worker w o pool hpool => exact Or.inr ⟨.worker w o, id, hpool⟩
  | task w res outs t hrun ht hmove =>
    refine Or.inl ?_
    cases hmove <;> rfl
  | signal => exact Or.inl rfl

/-! ## Any run -/

/-- What every run of the server keeps: the pool is sound, main is in a call of it when its client
is, which it destroys at the end only, main submits the task of its point, and a worker is at the
start of its task function until it calls it. -/
structure Linked (s : Server n) : Prop where
  sound : Sound s.pool
  in_call : (s.pool.clients ()).pc ≠ .idle → s.main.inCall = true
  destroys : (s.pool.clients ()).pc.inDestroy = true → s.main.inCleanup = true
  submits : ∀ t, (s.pool.clients ()).pc.submits = some t →
    ∃ conn, s.main = .task_submit t.coin_task_func conn t.coin_task_arg
  at_lock : ∀ w, (s.pool.workers w).pc ≠ .run → s.task w = .lock

theorem linked_new (sfd sigpipe_fd : Int) : Linked (new_server sfd sigpipe_fd : Server n) where
  sound := sound_new
  in_call h := absurd rfl h
  destroys h := nomatch h
  submits _ h := nomatch h
  at_lock _ _ := rfl

theorem idle_of_returned {s : Server n} (h : s.returned.isSome = true) :
    (s.pool.clients ()).pc = .idle := by
  unfold Server.returned at h
  split at h
  · assumption
  · cases h

/-- When main goes on behind a call, no call is open. -/
theorem Linked.idle {s : Server n} (h : Linked s)
    (hret : s.main.inCall = true → s.returned.isSome = true) : (s.pool.clients ()).pc = .idle := by
  by_contra hpc
  exact hpc (idle_of_returned (hret (h.in_call hpc)))

theorem Begins.in_call {was now : main_pc} {call : Call io_task} (h : Begins was now call) :
    now.inCall = true := by
  cases call with
  | submit t free_arg =>
    obtain ⟨conn, rfl⟩ := h
    rfl
  | wait =>
    rw [h.1]
    rfl
  | destroy =>
    rw [h.1]
    rfl

/-- A step that leaves the client and main alone. -/
theorem Linked.frame {s s' : Server n} (h : Linked s) (hsound : Sound s'.pool)
    (hclients : s'.pool.clients = s.pool.clients) (hmain : s'.main = s.main)
    (hlock : ∀ w, (s'.pool.workers w).pc ≠ .run → s'.task w = .lock) : Linked s' where
  sound := hsound
  in_call := by
    rw [hclients, hmain]
    exact h.in_call
  destroys := by
    rw [hclients, hmain]
    exact h.destroys
  submits := by
    rw [hclients, hmain]
    exact h.submits
  at_lock := hlock

theorem Linked.of_main {res : Int} {s s' : Server n} (h : Linked s) (hsound : Sound s'.pool)
    (hmove : MainMove res s s') : Linked s' := by
  obtain ⟨htask, ⟨hpool, -, hret⟩ | ⟨call, -, hpool, hbegins⟩⟩ := hmove.pool_cases
  · have hidle := h.idle hret
    refine ⟨hsound, fun hpc => ?_, fun hpc => ?_, fun t ht => ?_, ?_⟩
    · rw [hpool] at hpc
      exact absurd hidle hpc
    · rw [hpool, hidle] at hpc
      cases hpc
    · rw [hpool, hidle] at ht
      cases ht
    · rw [hpool, htask]
      exact h.at_lock
  · refine ⟨hsound, fun _ => hbegins.in_call, fun hpc => ?_, fun t ht => ?_, ?_⟩
    · rw [hpool, Pool.goto_self] at hpc
      cases call with
      | destroy =>
        rw [hbegins.1]
        rfl
      | _ => cases hpc
    · rw [hpool, Pool.goto_self] at ht
      cases call with
      | submit work free_arg =>
        cases ht
        exact hbegins
      | wait => cases ht
      | destroy => cases ht
    · rw [hpool, htask]
      exact h.at_lock

theorem Linked.of_call {s : Server n} {pool : Pool n Unit io_task} {o : Outcome n}
    (h : Linked s) (hsound : Sound pool) (hpool : client_step () o s.pool = some pool) :
    Linked { s with pool := pool } := by
  obtain ⟨y, hc⟩ := client_step_cases hpool
  have hopen := client_open hpool
  have hself : pool.clients () = y := hc.self
  refine ⟨hsound, fun _ => h.in_call hopen, fun hpc => ?_, fun t ht => ?_, ?_⟩
  · rw [hself] at hpc
    exact h.destroys ((hc.destroys hpc).resolve_right hopen)
  · rw [hself] at ht
    exact h.submits t ((hc.submits t ht).resolve_right hopen)
  · show ∀ w, (pool.workers w).pc ≠ .run → s.task w = .lock
    rw [hc.workers]
    exact h.at_lock

/-- Every step of the server keeps it. Main and its call are the only ones that change where they
are. -/
theorem Linked.step {l : ServerLabel n} {s s' : Server n} (h : Linked s)
    (hs : ServerStep s l s') : Linked s' := by
  have hsound : Sound s'.pool := by
    rcases pool_step_of_server_step hs with hpool | ⟨k, -, hk⟩
    · rw [hpool]
      exact h.sound
    · exact h.sound.step hk
  cases hs with
  | main o hmove => exact h.of_main hsound hmove
  | call o pool hpool => exact h.of_call hsound hpool
  | worker w o pool hpool =>
    obtain ⟨x, hw⟩ := worker_step_cases hpool
    refine h.frame hsound hw.clients rfl fun v hv => ?_
    show Function.update s.task w .lock v = .lock
    by_cases hvw : v = w
    · rw [hvw, Function.update_self]
    · rw [Function.update_of_ne hvw]
      have hother : pool.workers v = s.pool.workers v := hw.other hvw
      refine h.at_lock v ?_
      rwa [← hother]
  | task w res outs t hrun ht hmove =>
    have hstay : s'.pool = s.pool ∧ s'.main = s.main ∧ ∀ v, v ≠ w → s'.task v = s.task v := by
      cases hmove <;> exact ⟨rfl, rfl, fun v hv => Function.update_of_ne hv ..⟩
    refine h.frame hsound (congrArg Pool.clients hstay.1) hstay.2.1 fun v hv => ?_
    rw [hstay.1] at hv
    by_cases hvw : v = w
    · rw [hvw] at hv
      exact absurd hrun hv
    · rw [hstay.2.2 v hvw]
      exact h.at_lock v hv
  | signal => exact h.frame hsound rfl rfl h.at_lock

end pingpong.server
