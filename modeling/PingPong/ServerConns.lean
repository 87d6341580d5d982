-- The server runs its connections one by one: seen through one of its contexts, a
-- run of the server is a run of that connection alone.
import PingPong.ConnLaws
import PingPong.ServerDeadlock
import PingPong.ServerInternal

namespace pingpong.server

open connmgr concurinc framing mutex netio tasks

variable {n : Nat}

/-! ## The count is not read by the I/O -/

/-- The link with another count of references. -/
def with_refs (r : Int) (k : Link) : Link := { k with ctx := { k.ctx with ref_count := r } }

section Blind

variable {host : ByteOrder} {flag : Bool} {outs : List sys_result} (r : Int) (k : Link)

theorem with_refs_recv (base off len : Nat) (res : sys_result) :
    recv base off len res (with_refs r k) = (recv base off len res k).map (with_refs r) := by
  unfold recv
  cases res with
  | fail e => rfl
  | ret n =>
    simp only [apply_ite (Option.map _)]
    rfl

theorem with_refs_send (off len : Nat) (res : sys_result) :
    send off len res (with_refs r k) = (send off len res k).map (with_refs r) := by
  unfold send
  cases res with
  | fail e => rfl
  | ret n =>
    simp only [apply_ite (Option.map _)]
    rfl

/-- What a loop gives back, with another count in its link. -/
def loop_with_refs (x : nl_internal_err_t × Nat × Link) : nl_internal_err_t × Nat × Link :=
  (x.1, x.2.1, with_refs r x.2.2)

theorem stop_with_refs (e : nl_internal_err_t) (total : Nat) :
    stop outs (e, total, with_refs r k) = (stop outs (e, total, k)).map (loop_with_refs r) := by
  unfold stop
  rw [apply_ite (Option.map _)]
  rfl

/-- The induction is on the calls of the loop. -/
theorem with_refs_loop {call : Nat → Nat → sys_result → Link → Option Link}
    (hcall : ∀ off len res k, call off len res (with_refs r k) =
      (call off len res k).map (with_refs r))
    (on_err : nl_internal_err_t) (zero_ends : Bool) (len total : Nat) :
    io_loop call on_err zero_ends len outs total (with_refs r k) =
      (io_loop call on_err zero_ends len outs total k).map (loop_with_refs r) := by
  induction outs generalizing total k with
  | nil =>
    unfold io_loop
    split
    · rfl
    · rfl
  | cons res rest ih =>
    unfold io_loop
    split
    · rw [hcall]
      cases call total (size_sub len total) res k with
      | none => rfl
      | some k1 =>
        simp only [Option.map_some, Option.bind_some]
        cases res with
        | fail e => cases e <;> first | exact ih k1 total | exact stop_with_refs r k1 _ _
        | ret m =>
          simp only
          split
          · exact stop_with_refs r k1 _ _
          · exact ih k1 _
    · rfl

theorem with_refs_recvall (base len : Nat) :
    nl_recvall base len outs (with_refs r k) =
      (nl_recvall base len outs k).map (loop_with_refs r) :=
  with_refs_loop r k (fun off len res k => with_refs_recv r k base off len res) _ _ _ _

theorem with_refs_sendall (len : Nat) :
    nl_sendall len outs (with_refs r k) = (nl_sendall len outs k).map (loop_with_refs r) :=
  with_refs_loop r k (fun off len res k => with_refs_send r k off len res) _ _ _ _

theorem with_refs_read_more {f : Link → Link} (hf : ∀ k, f (with_refs r k) = with_refs r (f k)) :
    (read_more f outs (with_refs r k)).map Prod.snd =
      ((read_more f outs k).map Prod.snd).map (with_refs r) := by
  unfold read_more
  have hloop : nl_recvall k.ctx.bytes_read k.ctx.bytes_to_read outs (with_refs r k) =
      (nl_recvall k.ctx.bytes_read k.ctx.bytes_to_read outs k).map (loop_with_refs r) :=
    with_refs_recvall r k _ _
  simp only [show (with_refs r k).ctx.bytes_read = k.ctx.bytes_read from rfl,
    show (with_refs r k).ctx.bytes_to_read = k.ctx.bytes_to_read from rfl, hloop, Option.map_map]
  congr 1
  funext ⟨err, m, k1⟩
  cases err with
  | NL_IO_SUCCESS =>
    apply hf { k1 with ctx := { k1.ctx with
      bytes_read := k1.ctx.bytes_read + m
      bytes_to_read := size_sub k1.ctx.bytes_to_read m } }
  | _ => rfl

theorem with_refs_header_done :
    header_done host (with_refs r k) = with_refs r (header_done host k) := by
  unfold header_done
  rw [apply_ite (with_refs r)]
  rfl

theorem with_refs_content_done :
    content_done host (with_refs r k) = with_refs r (content_done host k) := by
  unfold content_done
  rw [apply_ite (with_refs r)]
  rfl

theorem with_refs_response_done :
    response_done (with_refs r k) = with_refs r (response_done k) := by
  unfold response_done
  rw [apply_ite (with_refs r)]
  rfl

theorem with_refs_data_out :
    (nl_handle_sock_data_out outs (with_refs r k)).map Prod.snd =
      ((nl_handle_sock_data_out outs k).map Prod.snd).map (with_refs r) := by
  unfold nl_handle_sock_data_out
  have hloop : nl_sendall k.ctx.bytes_to_send outs (with_refs r k) =
      (nl_sendall k.ctx.bytes_to_send outs k).map (loop_with_refs r) :=
    with_refs_sendall r k _
  simp only [show (with_refs r k).ctx.bytes_to_send = k.ctx.bytes_to_send from rfl, hloop,
    Option.map_map]
  congr 1
  funext ⟨err, m, k1⟩
  cases err with
  | NL_IO_SUCCESS =>
    apply with_refs_response_done r { k1 with ctx := { k1.ctx with
      bytes_to_send := size_sub k1.ctx.bytes_to_send m
      bytes_sent := k1.ctx.bytes_sent + m } }
  | _ => rfl

theorem with_refs_stop : stop outs (with_refs r k) = (stop outs k).map (with_refs r) := by
  unfold stop
  rw [apply_ite (Option.map _)]
  rfl

theorem with_refs_io_read : io_read_body host flag outs (with_refs r k) =
    (io_read_body host flag outs k).map (with_refs r) := by
  unfold io_read_body nl_handle_sock_data_in
  simp only [show (with_refs r k).ctx.state = k.ctx.state from rfl]
  split
  · rename_i hst
    rcases hst.1 with hs | hs
    · simp only [hs]
      exact with_refs_read_more r k fun k => with_refs_content_done r k
    · simp only [hs]
      exact with_refs_read_more r k fun k => with_refs_header_done r k
  · exact with_refs_stop r k

theorem with_refs_io_send : io_send_body flag outs (with_refs r k) =
    (io_send_body flag outs k).map (with_refs r) := by
  unfold io_send_body
  simp only [show (with_refs r k).ctx.state = k.ctx.state from rfl]
  split
  · exact with_refs_data_out r k
  · exact with_refs_stop r k

end Blind

/-! ## What a step does to one link -/

/-- What a step does to the link `k` of a context, and to the flag. -/
inductive LinkMove (host : ByteOrder) (flag : Bool) (k : Link) : Bool → Link → Prop
  | stay : LinkMove host flag k flag k
  | count (by' : Int) : LinkMove host flag k flag (add_ref by' k)
  | mark : LinkMove host flag k flag (mark_close k)
  | read (outs : List sys_result) (k' : Link) (hread : io_read_body host flag outs k = some k') :
      LinkMove host flag k flag k'
  | send (outs : List sys_result) (k' : Link) (hsend : io_send_body flag outs k = some k') :
      LinkMove host flag k flag k'
  | shutdown : LinkMove host flag k true k

theorem LinkMove.type {host : ByteOrder} {flag flag' : Bool} {k k' : Link}
    (h : LinkMove host flag k flag' k') : k'.ctx.type = k.ctx.type := by
  cases h with
  | stay => rfl
  | count by' => rfl
  | mark => rfl
  | read outs _ hread => exact congrArg Prod.fst (kept_io_read hread)
  | send outs _ hsend => exact congrArg Prod.fst (kept_io_send hsend)
  | shutdown => rfl

theorem foldl_make_other (links : List Link) (s : Server n) {p : ctx_id} (hp : p < s.made) :
    (links.foldl Server.make s).ctxs p = s.ctxs p := by
  induction links generalizing s with
  | nil => rfl
  | cons k links ih =>
    rw [List.foldl_cons, ih (s.make k) (Nat.lt_succ_of_lt hp)]
    exact s.make_other k (Nat.ne_of_lt hp)

theorem foldl_make_flag (links : List Link) (s : Server n) :
    (links.foldl Server.make s).g_should_shutdown = s.g_should_shutdown := by
  induction links generalizing s with
  | nil => rfl
  | cons k links ih => exact ih (s.make k)

/-- Main counts and marks, and leaves the rest of a link alone. -/
theorem MainMove.link {host : ByteOrder} {res : Int} {s s' : Server n} (h : MainMove res s s')
    {p : ctx_id} (hp : p < s.made) :
    LinkMove host s.g_should_shutdown (s.ctxs p).link s'.g_should_shutdown (s'.ctxs p).link := by
  cases h with
  | go pc revents => exact .stay
  | lock pc conn q =>
    show LinkMove _ _ _ s.g_should_shutdown ((s.set_mutex q _).ctxs p).link
    rw [(s.set_mutex_keeps q _ p).1]
    exact .stay
  | unlock pc q =>
    show LinkMove _ _ _ s.g_should_shutdown ((s.set_mutex q _).ctxs p).link
    rw [(s.set_mutex_keeps q _ p).1]
    exact .stay
  | mark pc conn q =>
    show LinkMove _ _ _ s.g_should_shutdown ((s.set_link q _).ctxs p).link
    by_cases hq : p = q
    · rw [hq, s.set_link_self]
      exact .mark
    · rw [s.set_link_other _ hq]
      exact .stay
  | submit func conn q =>
    show LinkMove _ _ _ s.g_should_shutdown ((s.set_link q _).ctxs p).link
    by_cases hq : p = q
    · rw [hq, s.set_link_self]
      exact .count 1
    · rw [s.set_link_other _ hq]
      exact .stay
  | make pc links =>
    show LinkMove _ _ _ (links.foldl Server.make s).g_should_shutdown
      ((links.foldl Server.make s).ctxs p).link
    rw [foldl_make_flag, foldl_make_other links s hp]
    exact .stay
  | close conn q =>
    show LinkMove _ _ _ s.g_should_shutdown ((s.destroy q).ctxs p).link
    rw [(s.destroy_keeps q p).1]
    exact .stay
  | update => exact .stay
  | lose conns new_conns => exact .stay
  | wait => exact .stay
  | free pc q =>
    show LinkMove _ _ _ s.g_should_shutdown ((s.destroy q).ctxs p).link
    rw [(s.destroy_keeps q p).1]
    exact .stay
  | stop => exact .stay

/-- A task does its I/O, and gives its reference back. -/
theorem link_of_task_step {host : ByteOrder} {w : Fin n} {t : io_task} {res : Int}
    {outs : List sys_result} {s s' : Server n} (h : task_step host w t res outs s = some s')
    (p : ctx_id) :
    LinkMove host s.g_should_shutdown (s.ctxs p).link s'.g_should_shutdown (s'.ctxs p).link := by
  unfold task_step at h
  cases hpc : s.task w with
  | lock =>
    rw [hpc] at h
    obtain ⟨u, hu, rfl⟩ := Option.map_eq_some_iff.mp h
    rcases lock_some hu with ⟨-, -, rfl⟩ | ⟨-, rfl⟩
    · show LinkMove _ _ _ s.g_should_shutdown ((s.set_mutex _ _).ctxs p).link
      rw [(s.set_mutex_keeps _ _ p).1]
      exact .stay
    · exact .stay
  | handle =>
    rw [hpc] at h
    obtain ⟨k, hk, rfl⟩ := Option.map_eq_some_iff.mp h
    show LinkMove _ _ _ s.g_should_shutdown ((s.set_link _ k).ctxs p).link
    by_cases hp : p = t.coin_task_arg
    · rw [hp, s.set_link_self]
      cases hf : t.coin_task_func with
      | task_io_read =>
        rw [hf] at hk
        exact .read outs k hk
      | task_io_send =>
        rw [hf] at hk
        exact .send outs k hk
    · rw [s.set_link_other k hp]
      exact .stay
  | release =>
    rw [hpc] at h
    cases h
    show LinkMove _ _ _ s.g_should_shutdown ((s.set_link _ _).ctxs p).link
    by_cases hp : p = t.coin_task_arg
    · rw [hp, s.set_link_self]
      exact .count (-1)
    · rw [s.set_link_other _ hp]
      exact .stay
  | unlock =>
    rw [hpc] at h
    cases h
    show LinkMove _ _ _ s.g_should_shutdown ((s.set_mutex _ _).ctxs p).link
    rw [(s.set_mutex_keeps _ _ p).1]
    exact .stay
  | returned =>
    rw [hpc] at h
    cases h

theorem link_of_server_step {host : ByteOrder} {l : ServerLabel n} {s s' : Server n}
    (h : server_step host s l = some s') {p : ctx_id} (hp : p < s.made) :
    LinkMove host s.g_should_shutdown (s.ctxs p).link s'.g_should_shutdown (s'.ctxs p).link := by
  cases l with
  | main o => exact (main_step_cases h).link hp
  | call o =>
    obtain ⟨pool, -, rfl⟩ := Option.map_eq_some_iff.mp h
    exact .stay
  | worker w o =>
    cases server_step_cases h with
    | worker _ _ pool => exact .stay
  | task w res outs =>
    unfold server_step at h
    simp only at h
    split at h
    · obtain ⟨t, -, ht⟩ := Option.bind_eq_some_iff.mp h
      exact link_of_task_step ht p
    · cases h
  | signal =>
    cases h
    exact .shutdown

/-! ## The contexts that main makes -/

/-- What the clients that main accepts in the step will send. -/
def ServerLabel.streams : ServerLabel n → List (List UInt8)
  | .main o => o.clients.map new_client.stream
  | _ => []

/-- These clients announce messages that fit in the receive buffer. A longer one is written behind
it, over what is no part of the connection. -/
def ServerLabel.Fits (host : ByteOrder) (l : ServerLabel n) : Prop :=
  ∀ stream ∈ l.streams, AnnouncesFit host stream

/-- The link of a context that was made just now. -/
def New (host : ByteOrder) (k : Link) : Prop :=
  k.ctx.type = .INTERNAL_CONN ∨ ∃ c, AnnouncesFit host c.stream ∧ k = client_link c

theorem new_of_make {host : ByteOrder} {s : Server n} {k : Link} (hk : New host k) {p : ctx_id}
    (hle : s.made ≤ p) (hlt : p < (s.make k).made) : New host ((s.make k).ctxs p).link := by
  have hp : p = s.made := Nat.le_antisymm (Nat.le_of_lt_succ hlt) hle
  rw [hp, s.make_self]
  exact hk

theorem new_of_accept {host : ByteOrder} (clients : List new_client) (s : Server n)
    (hfit : ∀ c ∈ clients, AnnouncesFit host c.stream) {p : ctx_id} (hle : s.made ≤ p)
    (hlt : p < (clients.foldl (fun s c => s.make (client_link c)) s).made) :
    New host ((clients.foldl (fun s c => s.make (client_link c)) s).ctxs p).link := by
  induction clients generalizing s with
  | nil => exact absurd hle (Nat.not_le_of_lt hlt)
  | cons c clients ih =>
    by_cases hp : p < (s.make (client_link c)).made
    · have hother := foldl_make_other (clients.map client_link) (s.make (client_link c)) hp
      rw [List.foldl_map] at hother
      rw [List.foldl_cons, hother]
      exact new_of_make (Or.inr ⟨c, hfit c List.mem_cons_self, rfl⟩) hle hp
    · exact ih _ (fun d hd => hfit d (List.mem_cons_of_mem c hd)) (Nat.le_of_not_lt hp) hlt

theorem start_made {s s' : Server n} {call : Call io_task} (h : s.start call = some s') :
    s'.made = s.made := by
  obtain ⟨-, rfl⟩ := start_some h
  rfl

theorem lock_made {s s' : Server n} {t : Thread n Unit} {p : ctx_id} {res : Int}
    (h : s.lock t p res = some s') : s'.made = s.made := by
  rcases lock_some h with ⟨-, -, rfl⟩ | ⟨-, rfl⟩
  · rfl
  · rfl

theorem new_of_main_step {host : ByteOrder} {o : main_outs} {s s' : Server n}
    (h : main_step o s = some s') (hfit : ∀ c ∈ o.clients, AnnouncesFit host c.stream) {p : ctx_id}
    (hle : s.made ≤ p) (hlt : p < s'.made) : New host (s'.ctxs p).link := by
  -- three points make contexts, and at the others nothing is new
  have hsame : s'.made = s.made → New host (s'.ctxs p).link := fun he =>
    absurd hle (Nat.not_le_of_lt (he ▸ hlt))
  unfold main_step at h
  cases hpc : s.main with
  | reg_listener =>
    simp only [hpc] at h
    split at h
    · cases h
      exact new_of_make (Or.inl rfl) hle hlt
    · cases h
      exact hsame rfl
  | reg_sigpipe =>
    simp only [hpc] at h
    split at h
    · cases h
      exact new_of_make (Or.inl rfl) hle hlt
    · cases h
      exact hsame rfl
  | accept conn q =>
    simp only [hpc] at h
    cases h
    exact new_of_accept o.clients s hfit hle hlt
  | loop_head | poll =>
    simp only [hpc] at h
    split at h
    · first
        | cases h
          exact hsame rfl
        | obtain ⟨t, ht, rfl⟩ := Option.map_eq_some_iff.mp h
          exact hsame (show t.made = s.made from start_made ht)
    · first
        | cases h
          exact hsame rfl
        | obtain ⟨t, ht, rfl⟩ := Option.map_eq_some_iff.mp h
          exact hsame (show t.made = s.made from start_made ht)
  | close_lock _ _ | task_lock _ _ _ | hup_lock _ _ =>
    simp only [hpc] at h
    obtain ⟨t, ht, rfl⟩ := Option.map_eq_some_iff.mp h
    exact hsame (show t.made = s.made from lock_made ht)
  | task_ref func conn q =>
    simp only [hpc] at h
    obtain ⟨t, ht, rfl⟩ := Option.map_eq_some_iff.mp h
    have hmade : t.made = (s.set_link q (add_ref 1 (s.ctxs q).link)).made := start_made ht
    exact hsame hmade
  | task_submit _ _ _ | wait | destroy_tpool =>
    simp only [hpc] at h
    obtain ⟨status, -, rfl⟩ := Option.map_eq_some_iff.mp h
    exact hsame rfl
  | close_read _ _ | close_unlock _ _ _ _ | close_destroy _ _ | task_unlock _ _ _
  | failed_unlock _ _ | hup _ _ | hup_mark _ _ | hup_unlock _ _ | out _ _ =>
    simp only [hpc] at h
    cases h
    exact hsame rfl
  | update =>
    simp only [hpc] at h
    split at h
    · cases h
      exact hsame rfl
    · cases h
      exact hsame rfl
  | close_check conn =>
    simp only [hpc] at h
    split at h
    · cases h
      exact hsame rfl
    · cases h
    · split at h
      · cases h
        exact hsame rfl
      · cases h
        exact hsame rfl
  | dispatch conn =>
    simp only [hpc] at h
    split at h
    · cases h
      exact hsame rfl
    · cases h
    · split at h
      · split at h
        · cases h
          exact hsame rfl
        · split at h
          · cases h
            exact hsame rfl
          · cases h
            exact hsame rfl
      · cases h
        exact hsame rfl
  | destroy_all idx =>
    simp only [hpc] at h
    split at h
    · cases h
      exact hsame rfl
    · cases h
      exact hsame rfl
    · cases h
      exact hsame rfl
  | destroy_queue =>
    simp only [hpc] at h
    split at h
    · obtain ⟨t, ht, rfl⟩ := Option.map_eq_some_iff.mp h
      exact hsame (show t.made = s.made from start_made ht)
    · cases h
      exact hsame rfl
  | finished =>
    simp only [hpc] at h
    cases h

theorem new_of_server_step {host : ByteOrder} {l : ServerLabel n} {s s' : Server n}
    (h : server_step host s l = some s') (hfit : l.Fits host) {p : ctx_id} (hle : s.made ≤ p)
    (hlt : p < s'.made) : New host (s'.ctxs p).link := by
  have hsame : s'.made = s.made → New host (s'.ctxs p).link := fun he =>
    absurd hle (Nat.not_le_of_lt (he ▸ hlt))
  cases server_step_cases h with
  | main o => exact new_of_main_step h (fun c hc => hfit _ (List.mem_map_of_mem hc)) hle hlt
  | call o pool => exact hsame rfl
  | worker w o pool => exact hsame rfl
  | task w res outs t hrun ht hmove => exact hsame hmove.stays.2.2.2.2
  | signal => exact hsame rfl

/-! ## Who changes a connection -/

theorem MainMove.link_or_locks {res : Int} {s s' : Server n} (h : MainMove res s s') {p : ctx_id}
    (hp : p < s.made) : (s'.ctxs p).link = (s.ctxs p).link ∨ s.main.locks = some p := by
  have hset : ∀ (q : ctx_id) (k : Link), s.main.locks = some q →
      ((s.set_link q k).ctxs p).link = (s.ctxs p).link ∨ s.main.locks = some p := by
    intro q k hlocks
    by_cases hq : p = q
    · exact Or.inr (hq ▸ hlocks)
    · exact Or.inl (congrArg Context.link (s.set_link_other k hq))
  cases h with
  | go | update | lose | wait | stop => exact Or.inl rfl
  | lock pc conn q | unlock pc q => exact Or.inl (s.set_mutex_keeps q _ p).1
  | mark pc conn q hwalk hcur hlocks hwas => exact hset q _ hwas
  | submit func conn q hpc => exact hset q _ (by rw [hpc]; rfl)
  | make pc links => exact Or.inl (congrArg Context.link (foldl_make_other links s hp))
  | close conn q | free pc q => exact Or.inl (s.destroy_keeps q p).1

theorem TaskMove.link_or_inside {w : Fin n} {p q : ctx_id} {res : Int} {s s' : Server n}
    (h : TaskMove w p res s s') :
    (s'.ctxs q).link = (s.ctxs q).link ∨ (q = p ∧ (s.task w).inside = true) := by
  by_cases hq : q = p
  · cases h with
    | lock | unlock => exact Or.inl (s.set_mutex_keeps p _ q).1
    | lock_failed => exact Or.inl rfl
    | handle k hpc | release hpc => exact Or.inr ⟨hq, by rw [hpc]; rfl⟩
  · exact Or.inl (congrArg Context.link (h.ctxs_other hq))

/-- While the mutex calls succeed in the tasks and main has not begun to clean up, the thread that
changes a connection holds its mutex. So the I/O of a task is one step to all others. -/
theorem a_connection_is_changed_under_its_mutex {host : ByteOrder} {l : ServerLabel n}
    {s s' : Server n} (h : Reachable host (fun _ l => l.LocksSucceed) s)
    (hloop : s.main.inCleanup = false) (hs : server_step host s l = some s') {p : ctx_id}
    (hp : p < s.made) (hne : (s'.ctxs p).link ≠ (s.ctxs p).link) :
    ∃ t, l.thread = some t ∧ Holds s t (.ctx p) := by
  have hguards := ((inLoop_of_reachable h).2 hloop).guards p
  have hinside : ∃ t, l.thread = some t ∧ s.inside p t := by
    cases server_step_cases hs with
    | main o hmove =>
      exact ⟨.client (), rfl, inside_client.mpr ((hmove.link_or_locks hp).resolve_left hne)⟩
    | call | worker | signal => exact absurd rfl hne
    | task w res outs t hrun ht hmove =>
      obtain ⟨rfl, hin⟩ := hmove.link_or_inside.resolve_left hne
      refine ⟨.worker w, rfl, inside_worker.mpr ⟨?_, hin⟩⟩
      rw [ht]
      exact onCtx_iff.mpr rfl
  obtain ⟨t, ht, hin⟩ := hinside
  exact ⟨t, ht, hguards t hin⟩

/-! ## The refinement -/

/-- The context is a connection alone: its link is, but for the count, that of a state that the
machine of one connection reaches, with a peer whose messages fit, and both see the same flag. -/
def Alone (host : ByteOrder) (s : Server n) (p : ctx_id) : Prop :=
  ∃ stream c r, AnnouncesFit host stream ∧ tasks.Reachable host stream c ∧
    c.g_should_shutdown = s.g_should_shutdown ∧ (s.ctxs p).link = with_refs r c.link

/-- Each move of a link in the server is a step of the connection alone, or no step. -/
theorem conn_follows {host : ByteOrder} {stream : List UInt8} {flag' : Bool} {k' : Link} {r : Int}
    {c : Conn} (hc : tasks.Reachable host stream c)
    (h : LinkMove host c.g_should_shutdown (with_refs r c.link) flag' k') :
    ∃ c' r', tasks.Reachable host stream c' ∧ c'.g_should_shutdown = flag' ∧
      k' = with_refs r' c'.link := by
  cases h with
  | stay => exact ⟨c, r, hc, rfl, rfl⟩
  | count by' => exact ⟨c, r + by', hc, rfl, rfl⟩
  | mark => exact ⟨_, r, hc.step (l := .mark) trivial rfl, rfl, rfl⟩
  | read outs _ hread =>
    rw [with_refs_io_read] at hread
    obtain ⟨k, hk, rfl⟩ := Option.map_eq_some_iff.mp hread
    have hstep : (conn_machine host).step c (.read outs) =
        some { c with link := add_ref (-1) k } := by
      simp only [conn_machine, conn_step, task_io_read, hk, Option.map_some]
    exact ⟨_, r, hc.step trivial hstep, rfl, rfl⟩
  | send outs _ hsend =>
    rw [with_refs_io_send] at hsend
    obtain ⟨k, hk, rfl⟩ := Option.map_eq_some_iff.mp hsend
    have hstep : (conn_machine host).step c (.send outs) =
        some { c with link := add_ref (-1) k } := by
      simp only [conn_machine, conn_step, task_io_send, hk, Option.map_some]
    exact ⟨_, r, hc.step trivial hstep, rfl, rfl⟩
  | shutdown => exact ⟨_, r, hc.step (l := .shutdown) trivial rfl, rfl, rfl⟩

/-- A new inbound context is a connection at its start. -/
theorem alone_of_new {host : ByteOrder} {s : Server n} {p : ctx_id}
    (hnew : New host (s.ctxs p).link) (hty : (s.ctxs p).link.ctx.type = .INBOUND_CONN) :
    Alone host s p := by
  rcases hnew with hin | ⟨c, hfit, hc⟩
  · rw [hty] at hin
    cases hin
  · have hfresh : Fresh c.stream ⟨client_link c, s.g_should_shutdown⟩ :=
      ⟨c.clifd, c.recv_buf, c.send_buf, rfl⟩
    exact ⟨c.stream, _, 0, hfit, machine.Machine.Reach.start hfresh, rfl, hc⟩

theorem alone_of_reachable {host : ByteOrder} {s : Server n}
    (h : Reachable host (fun _ l => l.Fits host) s) : ∀ p, s.Inbound p → Alone host s p := by
  obtain ⟨sfd, sigpipe_fd, hr⟩ := h
  refine machine.Machine.Reach.invariant
    (P := fun s : Server n => ∀ p, s.Inbound p → Alone host s p) ?_ ?_ hr
  · rintro s rfl p ⟨hp, -⟩
    exact absurd hp (Nat.not_lt_zero p)
  · rintro s l s' hall hfit hs p ⟨hlt, hty⟩
    by_cases hp : p < s.made
    · have hmove := link_of_server_step hs hp
      rw [hmove.type] at hty
      obtain ⟨stream, c, r, hmsgs, hc, hflag, hk⟩ := hall p ⟨hp, hty⟩
      rw [hk, ← hflag] at hmove
      obtain ⟨c', r', hc', hflag', hk'⟩ := conn_follows hc hmove
      exact ⟨stream, c', r', hmsgs, hc', hflag', hk'⟩
    · exact alone_of_new (new_of_server_step hs hfit (Nat.le_of_not_lt hp) hlt) hty

/-- The mutex calls succeed, and the messages of the clients fit in the receive buffer. -/
def ServerLabel.Sound (host : ByteOrder) (l : ServerLabel n) : Prop := l.Ok ∧ l.Fits host

theorem Reachable.fits {host : ByteOrder} {s : Server n}
    (h : Reachable host (fun _ l => l.Sound host) s) :
    Reachable host (fun _ l => l.Fits host) s := by
  obtain ⟨sfd, sigpipe_fd, hr⟩ := h
  exact ⟨sfd, sigpipe_fd, hr.mono fun _ _ hl => hl.2⟩

/-- In every run of the server whose clients announce messages that fit in the receive buffer,
whatever main and the workers do in between and to the other connections, each inbound connection is
one alone. -/
theorem the_server_runs_its_connections_one_by_one {host : ByteOrder} {s : Server n}
    (h : Reachable host (fun _ l => l.Sound host) s) (p : ctx_id) (hp : s.Inbound p) :
    Alone host s p :=
  alone_of_reachable h.fits p hp

theorem fits_nil (host : ByteOrder) : AnnouncesFit host [] := by
  simp [AnnouncesFit, announced]

theorem an_accepted_connection_runs_alone :
    ∃ s : Server 1, Reachable .big (fun _ l => l.Sound .big) s ∧ Alone .big s 2 := by
  have hsound : ∀ l ∈ accept_labels ++ submit_read_labels, l.Sound .big := by
    have hall : ∀ l ∈ accept_labels ++ submit_read_labels,
        l.Ok ∧ ∀ stream ∈ l.streams, stream = [] := by decide
    refine fun l hl => ⟨(hall l hl).1, fun stream hstream => ?_⟩
    rw [(hall l hl).2 stream hstream]
    exact fits_nil .big
  obtain ⟨s, hreach, hmade, hty⟩ := exists_of_run .big (fun _ l => l.Sound .big) 3 4
    (accept_labels ++ submit_read_labels)
    (fun s : Server 1 => s.made = 3 ∧ (s.ctxs 2).link.ctx.type = .INBOUND_CONN)
    (machine.Machine.meets_of_mem hsound) (by decide +kernel)
  exact ⟨s, hreach,
    the_server_runs_its_connections_one_by_one hreach 2 ⟨by rw [hmade]; decide, hty⟩⟩

end pingpong.server
