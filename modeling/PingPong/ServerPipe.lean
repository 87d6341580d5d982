-- The context of the self-pipe. Main makes it second. While main is in its loop, the context is in
-- one of the two lists, and in `p_conns` whenever main polls.
import PingPong.ServerInv

namespace pingpong.server

open concurinc connmgr framing mutex netio tasks

variable {n : Nat}

/-! ## What a context keeps -/

def type_and_fd (k : Link) : conn_type_t × Int := (k.ctx.type, k.ctx.fd)

theorem fd_read_more {f : Link → Link} (hf : ∀ k, type_and_fd (f k) = type_and_fd k)
    {outs : List sys_result} {k k' : Link} {res : Int}
    (h : read_more f outs k = some (res, k')) : type_and_fd k' = type_and_fd k := by
  obtain ⟨m, log, -, -, -, -, ⟨-, rfl⟩ | ⟨-, rfl | rfl⟩⟩ := read_more_cases h
  · exact hf _
  · rfl
  · rfl

theorem fd_io_read {host : ByteOrder} {flag : Bool} {outs : List sys_result} {k k' : Link}
    (h : io_read_body host flag outs k = some k') : type_and_fd k' = type_and_fd k := by
  unfold io_read_body at h
  split at h
  · obtain ⟨⟨res, k1⟩, hin, rfl⟩ := Option.map_eq_some_iff.mp h
    unfold nl_handle_sock_data_in at hin
    split at hin
    · refine fd_read_more (fun k => ?_) hin
      unfold header_done
      split <;> rfl
    · refine fd_read_more (fun k => ?_) hin
      unfold content_done
      split <;> rfl
    · have hk := (stop_some.mp hin).2
      cases hk
      rfl
  · rw [(stop_some.mp h).2]

theorem fd_io_send {flag : Bool} {outs : List sys_result} {k k' : Link}
    (h : io_send_body flag outs k = some k') : type_and_fd k' = type_and_fd k := by
  unfold io_send_body at h
  split at h
  · obtain ⟨⟨res, k1⟩, hout, rfl⟩ := Option.map_eq_some_iff.mp h
    obtain ⟨m, log, -, -, ⟨-, rfl⟩ | ⟨-, rfl⟩⟩ := data_out_cases hout
    · unfold response_done
      split <;> rfl
    · rfl
  · rw [(stop_some.mp h).2]

/-- The contexts that are made keep their types and descriptors, and main keeps its own. -/
structure SameFds (s s' : Server n) : Prop where
  made : s.made ≤ s'.made
  kept : ∀ p, p < s.made → type_and_fd (s'.ctxs p).link = type_and_fd (s.ctxs p).link
  sfd : s'.sfd = s.sfd
  sigpipe_fd : s'.sigpipe_fd = s.sigpipe_fd

theorem SameFds.of_ctxs {s s' : Server n} (hmade : s'.made = s.made)
    (hctxs : ∀ p, type_and_fd (s'.ctxs p).link = type_and_fd (s.ctxs p).link)
    (hsfd : s'.sfd = s.sfd) (hpipe : s'.sigpipe_fd = s.sigpipe_fd) : SameFds s s' :=
  ⟨hmade.ge, fun p _ => hctxs p, hsfd, hpipe⟩

theorem SameFds.goto {s t : Server n} {pc pc' : main_pc} (h : SameFds s (t.goto pc)) :
    SameFds s (t.goto pc') :=
  ⟨h.made, h.kept, h.sfd, h.sigpipe_fd⟩

theorem fd_set_link {s : Server n} {p : ctx_id} {k : Link}
    (hk : type_and_fd k = type_and_fd (s.ctxs p).link) (q : ctx_id) :
    type_and_fd ((s.set_link p k).ctxs q).link = type_and_fd (s.ctxs q).link := by
  by_cases hq : q = p
  · rw [hq, s.set_link_self]
    exact hk
  · rw [s.set_link_other k hq]

theorem fd_set_mutex {s : Server n} {p : ctx_id} {m : Mutex (Thread n Unit)} (q : ctx_id) :
    type_and_fd ((s.set_mutex p m).ctxs q).link = type_and_fd (s.ctxs q).link := by
  rw [(s.set_mutex_keeps p m q).1]

theorem fd_destroy {s : Server n} {p : ctx_id} (q : ctx_id) :
    type_and_fd ((s.destroy p).ctxs q).link = type_and_fd (s.ctxs q).link := by
  rw [(s.destroy_keeps p q).1]

theorem same_fds_make (links : List Link) (s : Server n) :
    SameFds s (links.foldl Server.make s) := by
  induction links generalizing s with
  | nil => exact ⟨le_rfl, fun _ _ => rfl, rfl, rfl⟩
  | cons k links ih =>
    obtain ⟨hmade, hkept, hsfd, hpipe⟩ := ih (s.make k)
    refine ⟨(Nat.le_succ s.made).trans hmade, fun p hp => ?_, hsfd, hpipe⟩
    rw [List.foldl_cons, hkept p (Nat.lt_succ_of_lt hp), s.make_other k (Nat.ne_of_lt hp)]

theorem MainMove.same_fds {res : Int} {s s' : Server n} (h : MainMove res s s') : SameFds s s' := by
  cases h with
  | go | update | lose | wait | stop => exact .of_ctxs rfl (fun _ => rfl) rfl rfl
  | lock | unlock => exact .of_ctxs rfl fd_set_mutex rfl rfl
  | mark | submit => exact .of_ctxs rfl (fd_set_link rfl) rfl rfl
  | close | free => exact .of_ctxs rfl fd_destroy rfl rfl
  | make pc links =>
    obtain ⟨hmade, hkept, hsfd, hpipe⟩ := same_fds_make links s
    exact ⟨hmade, hkept, hsfd, hpipe⟩

theorem same_fds_of_task {host : ByteOrder} {w : Fin n} {t : io_task} {res : Int}
    {outs : List sys_result} {s s' : Server n} (h : task_step host w t res outs s = some s') :
    SameFds s s' := by
  unfold task_step at h
  split at h
  · obtain ⟨u, hu, rfl⟩ := Option.map_eq_some_iff.mp h
    rcases lock_some hu with ⟨-, -, rfl⟩ | ⟨-, rfl⟩
    · exact .of_ctxs rfl fd_set_mutex rfl rfl
    · exact .of_ctxs rfl (fun _ => rfl) rfl rfl
  · obtain ⟨k, hk, rfl⟩ := Option.map_eq_some_iff.mp h
    refine .of_ctxs rfl (fd_set_link ?_) rfl rfl
    cases hf : t.coin_task_func with
    | task_io_read =>
      rw [hf] at hk
      exact fd_io_read hk
    | task_io_send =>
      rw [hf] at hk
      exact fd_io_send hk
  · cases h
    exact .of_ctxs rfl (fd_set_link rfl) rfl rfl
  · cases h
    exact .of_ctxs rfl fd_set_mutex rfl rfl
  · cases h

theorem same_fds_of_step {host : ByteOrder} {l : ServerLabel n} {s s' : Server n}
    (h : server_step host s l = some s') : SameFds s s' := by
  cases l with
  | main o => exact (main_step_cases h).same_fds
  | call o =>
    obtain ⟨pool, -, rfl⟩ := Option.map_eq_some_iff.mp h
    exact .of_ctxs rfl (fun _ => rfl) rfl rfl
  | worker w o =>
    cases server_step_cases h
    exact .of_ctxs rfl (fun _ => rfl) rfl rfl
  | task w res outs =>
    simp only [server_step] at h
    split at h
    · obtain ⟨t, -, hs⟩ := Option.bind_eq_some_iff.mp h
      exact same_fds_of_task hs
    · cases h
  | signal =>
    cases h
    exact .of_ctxs rfl (fun _ => rfl) rfl rfl

/-! ## Where the context is -/

/-- The name of the context for the read end of the self-pipe. -/
def pipe_ctx : ctx_id := 1

/-- The points of the loop. -/
def main_pc.loops : main_pc → Bool
  | .reg_listener | .reg_sigpipe | .wait | .destroy_all _ | .destroy_queue | .destroy_tpool
  | .finished => false
  | _ => true

/-- The entry that the closing pass looks at, when its context is not internal. -/
def main_pc.closing : main_pc → Option (Nat × ctx_id)
  | .close_lock conn p | .close_read conn p | .close_unlock conn p _ _ | .close_destroy conn p =>
    some (conn, p)
  | _ => none

/-- The points of which the invariant says more. -/
def main_pc.special : main_pc → Bool
  | .reg_listener | .reg_sigpipe | .poll => true
  | _ => false

structure Piped (s : Server n) : Prop where
  listed : ∀ p, some p ∈ s.p_conns ∨ p ∈ s.p_new_conns → p < s.made
  first : s.main = .reg_listener → s.made = 0 := by
    intro hpc
    cases hpc
  second : s.main = .reg_sigpipe → s.made = 1 := by
    intro hpc
    cases hpc
  pipe : s.main.loops = true → pipe_ctx < s.made ∧
    type_and_fd (s.ctxs pipe_ctx).link = (.INTERNAL_CONN, s.sigpipe_fd) ∧
    (some pipe_ctx ∈ s.p_conns ∨ pipe_ctx ∈ s.p_new_conns) := by
    intro hin
    cases hin
  polled : s.main = .poll → some pipe_ctx ∈ s.p_conns := by
    intro hpc
    cases hpc
  closing : ∀ conn p, s.main.closing = some (conn, p) →
    s.p_conns[conn]? = some (some p) ∧ p ≠ pipe_ctx := by
    intro conn p hp
    cases hp

theorem piped_new (sfd sigpipe_fd : Int) : Piped (new_server sfd sigpipe_fd : Server n) where
  listed p h := by rcases h with h | h <;> cases h
  first _ := rfl

/-- Between its points with something special, main keeps the pipe where it is. -/
theorem Piped.ordinary {s : Server n} (hspecial : s.main.special = false)
    (listed : ∀ p, some p ∈ s.p_conns ∨ p ∈ s.p_new_conns → p < s.made)
    (pipe : s.main.loops = true → pipe_ctx < s.made ∧
      type_and_fd (s.ctxs pipe_ctx).link = (.INTERNAL_CONN, s.sigpipe_fd) ∧
      (some pipe_ctx ∈ s.p_conns ∨ pipe_ctx ∈ s.p_new_conns))
    (closing : ∀ conn p, s.main.closing = some (conn, p) →
      s.p_conns[conn]? = some (some p) ∧ p ≠ pipe_ctx) : Piped s := by
  have hnot : ∀ {pc : main_pc}, pc.special = true → s.main ≠ pc := by
    intro pc hpc he
    rw [he, hpc] at hspecial
    cases hspecial
  exact ⟨listed, fun hpc => absurd hpc (hnot rfl), fun hpc => absurd hpc (hnot rfl), pipe,
    fun hpc => absurd hpc (hnot rfl), closing⟩

/-- A step that leaves the lists alone and leads to a point with nothing special. -/
theorem Piped.walk {s s' : Server n} (h : Piped s) (hfds : SameFds s s')
    (hclosing : s'.main.closing = none ∨ s'.main.closing = s.main.closing ∨
      ∃ conn p, s'.main.closing = some (conn, p) ∧ s.p_conns[conn]? = some (some p) ∧
        p ≠ pipe_ctx := by exact Or.inl rfl)
    (hloops : s.main.loops = true ∨ s'.main.loops = false := by exact Or.inl rfl)
    (hspecial : s'.main.special = false := by exact rfl)
    (hconns : s'.p_conns = s.p_conns := by exact rfl)
    (hnew : s'.p_new_conns = s.p_new_conns := by exact rfl) : Piped s' := by
  refine .ordinary hspecial (fun p hp => ?_) (fun hin => ?_) fun conn p hp => ?_
  · rw [hconns, hnew] at hp
    exact (h.listed p hp).trans_le hfds.made
  · obtain ⟨hmade, hpipe, hlist⟩ := h.pipe (hloops.resolve_right (by simp [hin]))
    rw [hfds.kept pipe_ctx hmade, hfds.sigpipe_fd, hconns, hnew]
    exact ⟨hmade.trans_le hfds.made, hpipe, hlist⟩
  · rw [hconns]
    rcases hclosing with hnone | hsame | ⟨conn', p', hsome, hat⟩
    · rw [hnone] at hp
      cases hp
    · rw [hsame] at hp
      exact h.closing conn p hp
    · rw [hsome] at hp
      cases hp
      exact hat

theorem mem_make (links : List Link) (s : Server n) :
    s.made + links.length = (links.foldl Server.make s).made ∧
    ∀ p : Nat, p ∈ (links.foldl Server.make s).p_new_conns ↔
      p ∈ s.p_new_conns ∨ (s.made ≤ p ∧ p < s.made + links.length) := by
  induction links generalizing s with
  | nil => simp
  | cons k links ih =>
    obtain ⟨hmade, hmem⟩ := ih (s.make k)
    have hone : (s.make k).made = s.made + 1 := rfl
    refine ⟨?_, fun p => ?_⟩
    · rw [List.foldl_cons, ← hmade, hone, List.length_cons]
      omega
    · rw [List.foldl_cons, hmem, hone, List.length_cons]
      simp only [Server.make, List.mem_append, List.mem_singleton, or_assoc]
      refine or_congr_right ?_
      omega

theorem Piped.listed_make {s : Server n} (h : Piped s) (links : List Link) (p : ctx_id)
    (hp : some p ∈ (links.foldl Server.make s).p_conns ∨
      p ∈ (links.foldl Server.make s).p_new_conns) : p < (links.foldl Server.make s).made := by
  obtain ⟨hmade, hmem⟩ := mem_make links s
  have hle := (same_fds_make links s).made
  rw [(foldl_make_kept links s).2.2.1, hmem] at hp
  rcases hp with hp | hp | ⟨-, hlt⟩
  · exact (h.listed p (Or.inl hp)).trans_le hle
  · exact (h.listed p (Or.inr hp)).trans_le hle
  · exact hlt.trans_le hmade.le

/-- Main makes contexts, which go to the second list. -/
theorem Piped.make {s : Server n} {pc : main_pc} (h : Piped s) (links : List Link)
    (hloops : pc.loops = true → s.main.loops = true)
    (hspecial : pc.special = false) (hclosing : pc.closing = none) :
    Piped ((links.foldl Server.make s).goto pc) := by
  obtain ⟨-, hmem⟩ := mem_make links s
  obtain ⟨hle, hkept, -, hfd⟩ := same_fds_make links s
  have hconns := (foldl_make_kept links s).2.2.1
  refine .ordinary hspecial (h.listed_make links) (fun hin => ?_) fun conn p hp => ?_
  · obtain ⟨hlt, hpipe, hlist⟩ := h.pipe (hloops hin)
    refine ⟨hlt.trans_le hle, ?_, ?_⟩
    · simp only [Server.goto]
      rw [hkept pipe_ctx hlt, hfd]
      exact hpipe
    · simp only [Server.goto]
      rw [hconns, hmem]
      exact hlist.imp_right Or.inl
  · have hp : pc.closing = some (conn, p) := hp
    rw [hclosing] at hp
    cases hp

/-- What `connmgr_update_connections` takes over is listed, and what it loses is gone. -/
theorem Piped.lists {s s' : Server n} (h : Piped s) (hfds : SameFds s s')
    (hsub : ∀ p, some p ∈ s'.p_conns ∨ p ∈ s'.p_new_conns →
      some p ∈ s.p_conns ∨ p ∈ s.p_new_conns) (hloops : s'.main.loops = false)
    (hspecial : s'.main.special = false := by exact rfl)
    (hclosing : s'.main.closing = none := by exact rfl) : Piped s' := by
  refine .ordinary hspecial (fun p hp => (h.listed p (hsub p hp)).trans_le hfds.made)
    (fun hin => ?_) fun conn p hp => ?_
  · rw [hloops] at hin
    cases hin
  · rw [hclosing] at hp
    cases hp

/-! ## The steps of main -/

theorem mem_of_set_null {l : List (Option ctx_id)} {i : Nat} {p : ctx_id}
    (h : some p ∈ l.set i none) : some p ∈ l := by
  rcases List.mem_or_eq_of_mem_set h with hmem | he
  · exact hmem
  · cases he

theorem Piped.main_step {o : main_outs} {s s' : Server n} (h : Piped s)
    (hs : main_step o s = some s') : Piped s' := by
  have hfds := (main_step_cases hs).same_fds
  unfold server.main_step at hs
  obtain ⟨pool, task, ctxs, made, p_conns, p_new_conns, revents, main, flag, sfd, sigpipe_fd⟩ := s
  cases main with
  | reg_listener =>
    simp only at hs
    split at hs
    · cases hs
      have hmade : made = 0 := h.first rfl
      refine { listed := ?_, second := fun _ => congrArg Nat.succ hmade }
      exact h.listed_make [internal_link sfd o.mem]
    · cases hs
      exact h.walk hfds (Or.inl rfl) (Or.inr rfl)
  | reg_sigpipe =>
    simp only at hs
    split at hs
    · cases hs
      have hmade : made = pipe_ctx := h.second rfl
      subst hmade
      refine { listed := ?_, pipe := fun _ => ⟨Nat.lt_succ_self _, ?_, Or.inr ?_⟩ }
      · exact h.listed_make [internal_link sigpipe_fd o.mem]
      · simp [Server.goto, Server.make, type_and_fd, internal_link, internal_ctx]
      · simp [Server.goto, Server.make]
    · cases hs
      exact h.walk hfds (Or.inl rfl) (Or.inr rfl)
  | loop_head =>
    simp only at hs
    split at hs
    · obtain ⟨t, ht, rfl⟩ := Option.map_eq_some_iff.mp hs
      obtain ⟨-, rfl⟩ := start_some ht
      exact h.walk hfds (Or.inl rfl) (Or.inr rfl)
    · cases hs
      exact h.walk hfds
  | close_check conn =>
    simp only at hs
    split at hs
    · cases hs
      exact h.walk hfds
    · cases hs
    · rename_i p hp
      split at hs
      · cases hs
        exact h.walk hfds
      · rename_i hty
        cases hs
        refine h.walk hfds (Or.inr (Or.inr ⟨conn, p, rfl, hp, fun hpipe => hty ?_⟩))
        -- the context of the self-pipe is internal
        rw [hpipe]
        exact congrArg Prod.fst (h.pipe rfl).2.1
  | close_lock conn p =>
    obtain ⟨t, ht, rfl⟩ := Option.map_eq_some_iff.mp hs
    rcases lock_some ht with ⟨hr, -, rfl⟩ | ⟨hr, rfl⟩
    · simp only [hr, if_true] at hfds ⊢
      exact h.walk hfds (Or.inr (Or.inl rfl))
    · simp only [hr, if_false] at hfds ⊢
      exact h.walk hfds
  | close_read conn p =>
    cases hs
    exact h.walk hfds (Or.inr (Or.inl rfl))
  | close_unlock conn p cur_refs cur_state =>
    cases hs
    split
    · exact h.walk hfds.goto (Or.inr (Or.inl rfl))
    · exact h.walk hfds.goto
  | close_destroy conn p =>
    cases hs
    obtain ⟨hat, hne⟩ := h.closing conn p rfl
    refine { listed := fun q hq => ?_, pipe := fun _ => ?_ }
    · exact h.listed q (hq.imp_left mem_of_set_null)
    · obtain ⟨hlt, hpipe, hlist⟩ := h.pipe rfl
      refine ⟨hlt, ?_, hlist.imp_left fun hmem => ?_⟩
      · rw [hfds.kept pipe_ctx hlt]
        exact hpipe
      · obtain ⟨i, hi⟩ := List.mem_iff_getElem?.mp hmem
        have hother : conn ≠ i := by
          rintro rfl
          rw [hat] at hi
          exact hne (Option.some.inj (Option.some.inj hi))
        refine List.mem_of_getElem? (i := i) ?_
        simp only [Server.goto, Server.set_null, Server.destroy, List.getElem?_set_ne hother]
        exact hi
  | update =>
    simp only at hs
    split at hs
    · cases hs
      have hmem : ∀ p, some p ∈ p_conns.filter Option.isSome ++ p_new_conns.map some ↔
          some p ∈ p_conns ∨ p ∈ p_new_conns := by
        intro p
        simp
      refine { listed := fun p hp => ?_, pipe := fun _ => ?_, polled := fun _ => ?_ }
      · exact h.listed p ((hmem p).mp (hp.resolve_right List.not_mem_nil))
      · obtain ⟨hlt, hpipe, hlist⟩ := h.pipe rfl
        exact ⟨hlt, hpipe, Or.inl ((hmem pipe_ctx).mpr hlist)⟩
      · exact (hmem pipe_ctx).mpr (h.pipe rfl).2.2
    · cases hs
      refine h.lists hfds (fun p hp => ?_) rfl
      rcases hp with hp | hp
      · rcases List.mem_append.mp hp with hp | hp
        · exact Or.inl (List.mem_of_mem_filter hp)
        · obtain ⟨q, hq, he⟩ := List.mem_map.mp hp
          cases he
          exact Or.inr (List.mem_of_mem_take hq)
      · exact Or.inr (List.mem_of_mem_drop hp)
  | poll =>
    simp only at hs
    split at hs
    · cases hs
      exact h.walk hfds
    · obtain ⟨t, ht, rfl⟩ := Option.map_eq_some_iff.mp hs
      obtain ⟨-, rfl⟩ := start_some ht
      exact h.walk hfds (Or.inl rfl) (Or.inr rfl)
  | dispatch conn =>
    simp only at hs
    split at hs
    · cases hs
      exact h.walk hfds
    · cases hs
    · split at hs
      · split at hs
        · cases hs
          exact h.walk hfds
        · split at hs
          · cases hs
            exact h.walk hfds
          · cases hs
            exact h.walk hfds
      · cases hs
        exact h.walk hfds
  | accept conn p =>
    cases hs
    rw [← List.foldl_map]
    split
    · exact h.make _ (fun _ => rfl) rfl rfl
    · exact h.make _ (fun _ => rfl) rfl rfl
  | task_lock func conn p =>
    obtain ⟨t, ht, rfl⟩ := Option.map_eq_some_iff.mp hs
    rcases lock_some ht with ⟨hr, -, rfl⟩ | ⟨hr, rfl⟩
    · simp only [hr, if_true] at hfds ⊢
      exact h.walk hfds
    · simp only [hr, if_false] at hfds ⊢
      cases func with
      | task_io_read => exact h.walk hfds (Or.inl rfl) (Or.inr rfl)
      | task_io_send => exact h.walk hfds
  | task_ref func conn p =>
    obtain ⟨t, ht, rfl⟩ := Option.map_eq_some_iff.mp hs
    obtain ⟨-, rfl⟩ := start_some ht
    exact h.walk hfds
  | task_submit func conn p =>
    obtain ⟨tp_status, -, rfl⟩ := Option.map_eq_some_iff.mp hs
    split
    · exact h.walk hfds.goto
    · exact h.walk hfds.goto
  | task_unlock func conn p =>
    cases hs
    cases func with
    | task_io_read =>
      simp only
      split
      · exact h.walk hfds.goto
      · exact h.walk hfds.goto (Or.inl rfl) (Or.inr rfl)
    | task_io_send => exact h.walk hfds
  | failed_unlock conn p =>
    cases hs
    exact h.walk hfds (Or.inl rfl) (Or.inr rfl)
  | hup conn p =>
    cases hs
    split
    · exact h.walk hfds.goto
    · exact h.walk hfds.goto
  | hup_lock conn p =>
    obtain ⟨t, ht, rfl⟩ := Option.map_eq_some_iff.mp hs
    rcases lock_some ht with ⟨hr, -, rfl⟩ | ⟨hr, rfl⟩
    · simp only [hr, if_true] at hfds ⊢
      exact h.walk hfds
    · simp only [hr, if_false] at hfds ⊢
      exact h.walk hfds (Or.inl rfl) (Or.inr rfl)
  | hup_mark conn p =>
    cases hs
    exact h.walk hfds
  | hup_unlock conn p =>
    cases hs
    split
    · exact h.walk hfds.goto
    · exact h.walk hfds.goto (Or.inl rfl) (Or.inr rfl)
  | out conn p =>
    cases hs
    split
    · exact h.walk hfds.goto
    · exact h.walk hfds.goto
  | wait =>
    obtain ⟨tp_status, -, rfl⟩ := Option.map_eq_some_iff.mp hs
    exact h.walk hfds (Or.inl rfl) (Or.inr rfl)
  | destroy_all idx =>
    simp only at hs
    split at hs
    · cases hs
      exact h.walk hfds (Or.inl rfl) (Or.inr rfl)
    · cases hs
      exact h.walk hfds (Or.inl rfl) (Or.inr rfl)
    · cases hs
      exact h.lists hfds (fun p hp => hp.imp_left mem_of_set_null) rfl
  | destroy_queue =>
    simp only at hs
    split at hs
    · obtain ⟨t, ht, rfl⟩ := Option.map_eq_some_iff.mp hs
      obtain ⟨-, rfl⟩ := start_some ht
      exact h.walk hfds (Or.inl rfl) (Or.inr rfl)
    · cases hs
      exact h.lists hfds (fun p hp => hp.imp_right (List.mem_cons_of_mem _)) rfl
  | destroy_tpool =>
    obtain ⟨tp_status, -, rfl⟩ := Option.map_eq_some_iff.mp hs
    exact h.walk hfds (Or.inl rfl) (Or.inr rfl)
  | finished => cases hs

/-- A step of another thread. -/
theorem Piped.frame {s s' : Server n} (h : Piped s) (hfds : SameFds s s')
    (hmain : s'.main = s.main) (hmade : s'.made = s.made) (hconns : s'.p_conns = s.p_conns)
    (hnew : s'.p_new_conns = s.p_new_conns) : Piped s' := by
  have hpipe : ∀ hin : s.main.loops = true, type_and_fd (s'.ctxs pipe_ctx).link =
      type_and_fd (s.ctxs pipe_ctx).link := fun hin => hfds.kept pipe_ctx (h.pipe hin).1
  constructor
  · rw [hconns, hnew, hmade]
    exact h.listed
  · rw [hmain, hmade]
    exact h.first
  · rw [hmain, hmade]
    exact h.second
  · rw [hmain, hmade, hconns, hnew, hfds.sigpipe_fd]
    intro hin
    rw [hpipe hin]
    exact h.pipe hin
  · rw [hmain, hconns]
    exact h.polled
  · rw [hmain, hconns]
    exact h.closing

theorem Piped.step {host : ByteOrder} {l : ServerLabel n} {s s' : Server n} (h : Piped s)
    (hs : server_step host s l = some s') : Piped s' := by
  have hfds := same_fds_of_step hs
  cases server_step_cases hs with
  | main o => exact h.main_step hs
  | call | worker | signal => exact h.frame hfds rfl rfl rfl rfl
  | task w res outs t hrun ht hmove =>
    obtain ⟨-, hmain, hconns, hnew, hmade⟩ := hmove.stays
    exact h.frame hfds hmain hmade hconns hnew

/-- Whenever main polls, it polls the self-pipe. -/
theorem Piped.exists_polled {s : Server n} (h : Piped s) (hpc : s.main = .poll) :
    ∃ (conn : Nat) (p : ctx_id), s.p_conns[conn]? = some (some p) ∧
      (s.ctxs p).link.ctx.fd = s.sigpipe_fd := by
  obtain ⟨conn, hat⟩ := List.mem_iff_getElem?.mp (h.polled hpc)
  exact ⟨conn, pipe_ctx, hat, congrArg Prod.snd (h.pipe (by rw [hpc]; rfl)).2.1⟩

/-! ## The read end -/

theorem destroyed_make (links : List Link) {s : Server n} {p : ctx_id}
    (h : (s.ctxs p).destroyed = false) :
    ((links.foldl Server.make s).ctxs p).destroyed = false := by
  induction links generalizing s with
  | nil => exact h
  | cons k links ih =>
    refine ih ?_
    by_cases hp : p = s.made
    · rw [hp, s.make_self]
    · rw [s.make_other k hp]
      exact h

/-- Main does not destroy the context of the self-pipe, and so does not close its descriptor, before
it cleans up. -/
def PipeOpen (s : Server n) : Prop :=
  s.main.inCleanup = false → (s.ctxs pipe_ctx).destroyed = false

theorem PipeOpen.main {res : Int} {s s' : Server n} (h : PipeOpen s) (hp : Piped s)
    (hmove : MainMove res s s') : PipeOpen s' := by
  intro hin
  have hopen := h (hmove.cleanup hin)
  cases hmove with
  | go | update | wait | lose | stop => exact hopen
  | lock pc conn p | unlock pc p => exact (s.set_mutex_keeps p _ pipe_ctx).2.trans hopen
  | mark pc conn p | submit func conn p => exact (s.set_link_keeps p _ pipe_ctx).2.trans hopen
  | make pc links => exact destroyed_make links hopen
  | close conn p hpc =>
    -- the closing pass leaves the internal contexts alone
    have hne := (hp.closing conn p (by rw [hpc]; rfl)).2
    exact (congrArg Context.destroyed (s.destroy_other hne.symm)).trans hopen
  | free pc p conns new_conns hwas hlocks hout hpc =>
    have hin : pc.inCleanup = false := hin
    rw [hpc] at hin
    cases hin

theorem PipeOpen.step {host : ByteOrder} {l : ServerLabel n} {s s' : Server n} (h : PipeOpen s)
    (hp : Piped s) (hs : server_step host s l = some s') : PipeOpen s' := by
  cases server_step_cases hs with
  | main o hmove => exact h.main hp hmove
  | call | worker | signal => exact h
  | task w res outs t hrun ht hmove =>
    intro hin
    have hopen := h ((server_step_cases hs).cleanup hin)
    cases hmove with
    | lock | unlock => exact (s.set_mutex_keeps _ _ pipe_ctx).2.trans hopen
    | lock_failed => exact hopen
    | handle | release => exact (s.set_link_keeps _ _ pipe_ctx).2.trans hopen

/-! ## The events that main has seen -/

/-- The points of the event dispatch. -/
def main_pc.dispatches : main_pc → Bool
  | .dispatch _ | .accept _ _ | .task_lock .. | .task_ref .. | .task_submit .. | .task_unlock ..
  | .failed_unlock _ _ | .hup _ _ | .hup_lock _ _ | .hup_mark _ _ | .hup_unlock _ _ | .out _ _ =>
    true
  | _ => false

theorem foldl_make_revents (links : List Link) (s : Server n) :
    (links.foldl Server.make s).revents = s.revents := by
  induction links generalizing s with
  | nil => rfl
  | cons k links ih => exact ih (s.make k)

/-- Main has the events of its last `poll`, and the dispatch leaves `p_conns` alone. -/
theorem dispatch_of_main {o : main_outs} {s s' : Server n} (h : main_step o s = some s')
    (hin : s'.main.dispatches = true) :
    ((s.main = .poll ∧ o.ok = true ∧ s'.revents = o.revents) ∨
      (s.main.dispatches = true ∧ s'.revents = s.revents)) ∧ s'.p_conns = s.p_conns := by
  have hlock : ∀ {t : Server n} {p : ctx_id}, s.lock (.client ()) p o.res = some t →
      t.revents = s.revents ∧ t.p_conns = s.p_conns := by
    intro t p ht
    rcases lock_some ht with ⟨-, -, rfl⟩ | ⟨-, rfl⟩
    · exact ⟨rfl, rfl⟩
    · exact ⟨rfl, rfl⟩
  unfold main_step at h
  cases hpc : s.main with
  | poll =>
    simp only [hpc] at h
    split at h
    · cases h
      exact ⟨Or.inl ⟨rfl, ‹_›, rfl⟩, rfl⟩
    · obtain ⟨t, -, rfl⟩ := Option.map_eq_some_iff.mp h
      cases hin
  | dispatch conn =>
    simp only [hpc] at h
    repeat' split at h
    all_goals cases h
    all_goals exact ⟨Or.inr ⟨rfl, rfl⟩, rfl⟩
  | accept conn p =>
    simp only [hpc] at h
    cases h
    rw [← List.foldl_map]
    exact ⟨Or.inr ⟨rfl, foldl_make_revents _ s⟩, (foldl_make_kept _ s).2.2.1⟩
  | task_lock func conn p | hup_lock conn p =>
    simp only [hpc] at h
    obtain ⟨t, ht, rfl⟩ := Option.map_eq_some_iff.mp h
    exact ⟨Or.inr ⟨rfl, (hlock ht).1⟩, (hlock ht).2⟩
  | task_ref func conn p =>
    simp only [hpc] at h
    obtain ⟨t, ht, rfl⟩ := Option.map_eq_some_iff.mp h
    obtain ⟨-, rfl⟩ := start_some ht
    exact ⟨Or.inr ⟨rfl, rfl⟩, rfl⟩
  | task_submit func conn p =>
    simp only [hpc] at h
    obtain ⟨tp_status, -, rfl⟩ := Option.map_eq_some_iff.mp h
    exact ⟨Or.inr ⟨rfl, rfl⟩, rfl⟩
  | task_unlock | failed_unlock | hup | hup_mark | hup_unlock | out =>
    simp only [hpc] at h
    cases h
    exact ⟨Or.inr ⟨rfl, rfl⟩, rfl⟩
  -- no other point leads into the dispatch
  | close_lock conn p =>
    simp only [hpc] at h
    obtain ⟨t, -, rfl⟩ := Option.map_eq_some_iff.mp h
    simp only [Server.goto] at hin
    split at hin <;> cases hin
  | close_unlock conn p cur_refs cur_state =>
    simp only [hpc] at h
    cases h
    simp only [Server.goto] at hin
    split at hin <;> cases hin
  | wait | destroy_tpool =>
    simp only [hpc] at h
    obtain ⟨tp_status, -, rfl⟩ := Option.map_eq_some_iff.mp h
    cases hin
  | loop_head =>
    simp only [hpc] at h
    split at h
    · obtain ⟨t, -, rfl⟩ := Option.map_eq_some_iff.mp h
      cases hin
    · cases h
      cases hin
  | destroy_queue =>
    simp only [hpc] at h
    split at h
    · obtain ⟨t, -, rfl⟩ := Option.map_eq_some_iff.mp h
      cases hin
    · cases h
      have hin : s.main.dispatches = true := hin
      rw [hpc] at hin
      cases hin
  | finished => simp [hpc] at h
  | _ =>
    simp only [hpc] at h
    repeat' split at h
    all_goals cases h
    all_goals cases hin

end pingpong.server
