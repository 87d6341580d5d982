-- The laws of `connmgr_create_new_conn`: when its status says whether it has registered the
-- connection, and when it takes back what it had.
import PingPong.MgrCalls

namespace pingpong.connmgr

open ezqueue

/-! ## What can go wrong -/

/-- The queue is full, and is at its largest size or gets no larger block. -/
def CannotGrow (grow : Option (Nat → ptr)) (q : ezqueue_t ptr) : Prop :=
  q.num_items = q.max_items ∧ (q.max_items = UINT16_MAX ∨ grow = none)

/-- An inbound context has its mutex, and lacks one of its two buffers. -/
def BufferMissing (fd : Int) (type : conn_type_t) (o : create_outs) : Prop :=
  0 ≤ fd ∧ type = .INBOUND_CONN ∧ o.p_conn ≠ none ∧ o.mutex_init = 0 ∧
    (o.p_recv_buf = none ∨ o.p_send_buf = none)

instance (fd : Int) (type : conn_type_t) (o : create_outs) : Decidable (BufferMissing fd type o) :=
  have : Decidable (o.p_recv_buf = none) := decidable_of_iff _ Option.isNone_iff_eq_none
  have : Decidable (o.p_send_buf = none) := decidable_of_iff _ Option.isNone_iff_eq_none
  inferInstanceAs (Decidable (_ ∧ _ ∧ _ ∧ _ ∧ _))

/-- An internal context has come to the queue, and the queue does not take it. -/
def InternalRefused (fd : Int) (type : conn_type_t) (o : create_outs) (s : Manager) : Prop :=
  0 ≤ fd ∧ type = .INTERNAL_CONN ∧ o.p_conn ≠ none ∧ CannotGrow o.grow s.mgr.p_new_conns

/-- `malloc` gives no address that is in use. -/
def FreshBlock (o : create_outs) (s : Manager) : Prop :=
  ∀ p, o.p_conn = some p → p ≠ NULL ∧ p ∉ s.ctxs

/-! ## How a call ends -/

/-- One new context, with the descriptor and the type, is at the tail of the queue, and nothing
else has changed. -/
def Registered (fd : Int) (type : conn_type_t) (s s' : Manager) : Prop :=
  ∃ p c q, p ∉ s.ctxs ∧ c.fd = fd ∧ c.type = type ∧
    Ring q ∧ content q = content s.mgr.p_new_conns ++ [p] ∧
    s' = ⟨{ s.mgr with p_new_conns := q }, s.ctxs.insert p c, s.closed⟩

theorem not_registered {fd : Int} {type : conn_type_t} {s s' : Manager} (h : s' = s) :
    ¬ Registered fd type s s' := by
  rintro ⟨p, c, q, -, -, -, -, hcont, he⟩
  rw [h] at he
  have hq : s.mgr.p_new_conns = q := congrArg (fun s => s.mgr.p_new_conns) he
  rw [← hq] at hcont
  simpa using congrArg List.length hcont

/-- All that an inbound context needs, in the order in which it is had. -/
def inbound_resources : List resource_t := [.ctx, .mutex, .recv_buf, .send_buf]

/-- The ways in which a call ends. -/
inductive CreateEnd (fd : Int) (type : conn_type_t) (o : create_outs) (s : Manager)
    (r : create_result) : Prop
  | unfinished (state : r.state = s) (res : r.res ≠ 0) (back : r.released.Perm r.acquired)
      (buffers : ¬ BufferMissing fd type o) (internal : ¬ InternalRefused fd type o s)
  | missing (state : r.state = s) (res : r.res = 0) (back : r.released.Perm r.acquired)
      (some_back : r.released ≠ []) (buffers : BufferMissing fd type o)
  | refused (state : r.state = s) (res : r.res ≠ 0)
      (released : r.released = inbound_resources.reverse)
      (acquired : r.acquired = if type = .INBOUND_CONN then inbound_resources else [.ctx])
      (buffers : ¬ BufferMissing fd type o)
      (internal : InternalRefused fd type o s ↔ type = .INTERNAL_CONN)
  | registered (state : Registered fd type s r.state) (res : r.res = 0)
      (released : r.released = []) (buffers : ¬ BufferMissing fd type o)
      (internal : ¬ InternalRefused fd type o s)

/-- The queue takes an item unless it is full and cannot grow. -/
theorem enqueue_iff {q : ezqueue_t ptr} (hq : Ring q) (grow : Option (Nat → ptr)) (p : ptr) :
    (CannotGrow grow q ∧ ezq_enqueue grow p q = some (-1, q)) ∨
    (¬ CannotGrow grow q ∧ ∃ q', ezq_enqueue grow p q = some (0, q') ∧ Ring q' ∧
      content q' = content q ++ [p]) := by
  rcases enqueue_spec hq grow p with ⟨he, hfull, hgrow⟩ | ⟨q', he, hring, hcont⟩
  · exact Or.inl ⟨⟨hfull, hgrow⟩, he⟩
  · refine Or.inr ⟨?_, q', he, hring, hcont⟩
    rintro ⟨hfull, hgrow⟩
    have hresize : ezq_resize grow q = some (-1, q) := by
      unfold ezq_resize
      rcases hgrow with hmax | rfl
      · rw [new_max_eq_none.mpr hmax]
      · split
        · rfl
        · rfl
    rw [ezq_enqueue, if_pos hfull, hresize] at he
    cases he

/-- What happens once a context has come to the queue. -/
theorem enqueue_conn_end {fd : Int} {type : conn_type_t} {o : create_outs} {s : Manager}
    (hq : Ring s.mgr.p_new_conns) (hfd : 0 ≤ fd) {p : ptr} (hp : o.p_conn = some p)
    (hnew : p ∉ s.ctxs) {c : conn_ctx_t} (hcfd : c.fd = fd) (htype : c.type = type)
    (hbuf : ¬ BufferMissing fd type o) :
    ∃ r, enqueue_conn p c (if type = .INBOUND_CONN then inbound_resources else [.ctx]) o s = some r ∧
      CreateEnd fd type o s r := by
  unfold enqueue_conn
  rcases enqueue_iff hq o.grow p with ⟨hfull, he⟩ | ⟨hfull, q', he, hring, hcont⟩
  · rw [he]
    refine ⟨_, rfl, .refused rfl (by simp) rfl rfl hbuf ?_⟩
    exact ⟨fun h => h.2.1, fun h => ⟨hfd, h, by simp [hp], hfull⟩⟩
  · rw [he]
    exact ⟨_, rfl, .registered ⟨p, c, q', hnew, hcfd, htype, hring, hcont, rfl⟩ rfl rfl hbuf
      fun h => hfull h.2.2.2⟩

theorem create_end (fd : Int) (type : conn_type_t) {o : create_outs} {s : Manager}
    (hq : Ring s.mgr.p_new_conns) (hfresh : FreshBlock o s) :
    ∃ r, connmgr_create_new_conn fd type o s = some r ∧ CreateEnd fd type o s r := by
  unfold connmgr_create_new_conn
  by_cases hfd : fd < 0
  · rw [if_pos hfd]
    refine ⟨_, rfl, .unfinished rfl (by simp) (.refl _) ?_ ?_⟩
    · exact fun h => absurd h.1 (by omega)
    · exact fun h => absurd h.1 (by omega)
  · rw [if_neg hfd]
    have hfd : 0 ≤ fd := by omega
    cases hp : o.p_conn with
    | none => exact ⟨_, rfl, .unfinished rfl (by simp) (.refl _) (fun h => h.2.2.1 hp)
        fun h => h.2.2.1 hp⟩
    | some p =>
      have hpn := hfresh p hp
      simp only [if_neg (not_or.mpr hpn)]
      cases type with
      | INTERNAL_CONN =>
        exact enqueue_conn_end hq hfd hp hpn.2 rfl rfl fun h => nomatch h.2.1
      | INBOUND_CONN =>
        have hint : ¬ InternalRefused fd .INBOUND_CONN o s := fun h => nomatch h.2.1
        have hctx : o.p_conn ≠ none := by simp [hp]
        by_cases hm : o.mutex_init = 0
        · simp only [hm, ne_eq, not_true_eq_false, if_false]
          cases hrecv : o.p_recv_buf with
          | none => exact ⟨_, rfl, .missing rfl rfl (.swap ..) (by simp)
              ⟨hfd, rfl, hctx, hm, Or.inl hrecv⟩⟩
          | some recv_buf =>
            cases hsend : o.p_send_buf with
            | none => exact ⟨_, rfl, .missing rfl rfl
                (List.reverse_perm [resource_t.ctx, .mutex, .recv_buf]) (by simp)
                ⟨hfd, rfl, hctx, hm, Or.inr hsend⟩⟩
            | some send_buf =>
              refine enqueue_conn_end hq hfd hp hpn.2 rfl rfl ?_
              rintro ⟨-, -, -, -, hr | hr⟩
              · rw [hrecv] at hr
                cases hr
              · rw [hsend] at hr
                cases hr
        · simp only [hm, ne_eq, not_false_eq_true, if_true]
          exact ⟨_, rfl, .unfinished rfl hm (.refl _) (fun h => hm h.2.2.2.1) hint⟩

/-- The same for a call that has returned. When it gets no block, nothing is asked of `malloc`. -/
theorem CreateEnd.of_some {fd : Int} {type : conn_type_t} {o : create_outs} {s : Manager}
    {r : create_result} (hq : Ring s.mgr.p_new_conns)
    (hr : connmgr_create_new_conn fd type o s = some r) : CreateEnd fd type o s r := by
  by_cases hfresh : FreshBlock o s
  · obtain ⟨r', hr', hend⟩ := create_end fd type hq hfresh
    rw [hr] at hr'
    cases hr'
    exact hend
  · by_cases hfd : fd < 0
    · rw [connmgr_create_new_conn, if_pos hfd] at hr
      cases hr
      refine .unfinished rfl (by simp) (.refl _) ?_ ?_
      · exact fun h => absurd h.1 (by omega)
      · exact fun h => absurd h.1 (by omega)
    · exfalso
      apply hfresh
      intro p hp
      rw [connmgr_create_new_conn, if_neg hfd, hp] at hr
      simp only at hr
      split at hr
      · cases hr
      · rename_i hpn
        exact not_or.mp hpn

/-! ## The status -/

/-- The call returns 0 when it has registered the connection. When it has not, it returns
something else, and the manager is as before. -/
def SaysWhatItDid (fd : Int) (type : conn_type_t) (s : Manager) (r : create_result) : Prop :=
  (r.res = 0 ↔ Registered fd type s r.state) ∧
    (¬ Registered fd type s r.state → r.res ≠ 0 ∧ r.state = s)

/-- The status is right unless one of the two buffers is missing: `res` is then still the 0 of
`pthread_mutex_init`. -/
theorem the_status_is_right_iff_no_buffer_is_missing (fd : Int) (type : conn_type_t)
    {o : create_outs} {s : Manager} (hq : Ring s.mgr.p_new_conns) (hfresh : FreshBlock o s) :
    ∃ r, connmgr_create_new_conn fd type o s = some r ∧
      (SaysWhatItDid fd type s r ↔ ¬ BufferMissing fd type o) := by
  obtain ⟨r, hr, hend⟩ := create_end fd type hq hfresh
  refine ⟨r, hr, ?_⟩
  cases hend with
  | unfinished state res back buffers =>
    have hnot : ¬ Registered fd type s r.state := not_registered state
    exact iff_of_true ⟨iff_of_false res hnot, fun _ => ⟨res, state⟩⟩ buffers
  | missing state res back some_back buffers =>
    have hnot : ¬ Registered fd type s r.state := not_registered state
    exact iff_of_false (fun h => hnot (h.1.mp res)) (not_not.mpr buffers)
  | refused state res released acquired buffers =>
    have hnot : ¬ Registered fd type s r.state := not_registered state
    exact iff_of_true ⟨iff_of_false res hnot, fun _ => ⟨res, state⟩⟩ buffers
  | registered state res released buffers =>
    exact iff_of_true ⟨iff_of_true res state, fun h => absurd state h⟩ buffers

theorem one_slot_ring : Ring one_slot.mgr.p_new_conns :=
  ⟨rfl, by decide, by decide, by decide, by decide, by decide⟩

/-- All the calls succeed, and `malloc` gives the address 7 for the context. -/
def all_succeed : create_outs :=
  ⟨some 7, inbound_ctx 0 io_buf.zero io_buf.zero, 0, some io_buf.zero, some io_buf.zero, none⟩

theorem fresh_seven {o : create_outs} (ho : o.p_conn = some 7) : FreshBlock o one_slot := by
  intro p hp
  rw [ho] at hp
  cases hp
  exact ⟨by decide, AList.notMem_empty _⟩

/-- With both buffers the connection is registered, and the call says so. -/
theorem the_status_of_a_complete_context_is_right :
    ∃ r, connmgr_create_new_conn 5 .INBOUND_CONN all_succeed one_slot = some r ∧
      r.res = 0 ∧ SaysWhatItDid 5 .INBOUND_CONN one_slot r := by
  obtain ⟨r, hr, hiff⟩ := the_status_is_right_iff_no_buffer_is_missing 5 .INBOUND_CONN
    one_slot_ring (fresh_seven (o := all_succeed) rfl)
  have hres : r.res = 0 := by
    cases hr
    rfl
  exact ⟨r, hr, hres, hiff.mpr (by decide)⟩

/-- There is no memory for the receive buffer: the call returns 0 and registers nothing. -/
theorem a_missing_buffer_is_reported_as_success :
    ¬ ∀ (fd : Int) (type : conn_type_t) (o : create_outs) (s : Manager) (r : create_result),
      0 ≤ fd → Ring s.mgr.p_new_conns → FreshBlock o s →
      connmgr_create_new_conn fd type o s = some r → SaysWhatItDid fd type s r := by
  intro h
  have hright := h 5 .INBOUND_CONN { all_succeed with p_recv_buf := none } one_slot _ (by decide)
    one_slot_ring (fresh_seven rfl) rfl
  exact not_registered rfl (hright.1.mp rfl)

/-! ## What is taken back -/

/-- A call that fails takes back each thing that it had, once, and nothing else. A call that
does not fail takes back nothing. The block of the queue is the queue's own. -/
def TakesBack (fails : Prop) (r : create_result) : Prop :=
  (fails → r.released.Perm r.acquired) ∧ (¬ fails → r.released = [])

/-- When to fail is to register nothing, the call is tidy unless the queue refuses an internal
context: then two buffers that were never allocated are freed, and a mutex that was never
initialised is destroyed. When to fail is to return something else than 0, a missing buffer
is an exception too, for the reason of its status. -/
theorem a_call_takes_back_what_it_had_unless_an_internal_context_is_refused (fd : Int)
    (type : conn_type_t) {o : create_outs} {s : Manager} (hq : Ring s.mgr.p_new_conns)
    (hfresh : FreshBlock o s) :
    ∃ r, connmgr_create_new_conn fd type o s = some r ∧
      (TakesBack (¬ Registered fd type s r.state) r ↔ ¬ InternalRefused fd type o s) ∧
      (TakesBack (r.res ≠ 0) r ↔ ¬ InternalRefused fd type o s ∧ ¬ BufferMissing fd type o) := by
  obtain ⟨r, hr, hend⟩ := create_end fd type hq hfresh
  refine ⟨r, hr, ?_⟩
  cases hend with
  | unfinished state res back buffers internal =>
    have hnot : ¬ Registered fd type s r.state := not_registered state
    exact ⟨iff_of_true ⟨fun _ => back, fun h => absurd hnot h⟩ internal,
      iff_of_true ⟨fun _ => back, fun h => absurd res h⟩ ⟨internal, buffers⟩⟩
  | missing state res back some_back buffers =>
    have hnot : ¬ Registered fd type s r.state := not_registered state
    have hinbound : ¬ InternalRefused fd type o s := fun h => by
      rw [buffers.2.1] at h
      cases h.2.1
    exact ⟨iff_of_true ⟨fun _ => back, fun h => absurd hnot h⟩ hinbound,
      iff_of_false (fun h => some_back (h.2 (not_not.mpr res))) fun h => h.2 buffers⟩
  | refused state res released acquired buffers internal =>
    have hnot : ¬ Registered fd type s r.state := not_registered state
    have hback : r.released.Perm r.acquired ↔ ¬ InternalRefused fd type o s := by
      rw [released, acquired, internal]
      cases type with
      | INBOUND_CONN => exact iff_of_true (List.reverse_perm _) nofun
      | INTERNAL_CONN => exact iff_of_false (fun h => nomatch h.length_eq) (not_not.mpr rfl)
    refine ⟨Iff.trans ?_ hback, Iff.trans ?_ (hback.trans (and_iff_left buffers).symm)⟩
    · exact ⟨fun h => h.1 hnot, fun h => ⟨fun _ => h, fun hr => absurd hnot hr⟩⟩
    · exact ⟨fun h => h.1 res, fun h => ⟨fun _ => h, fun hr => absurd res hr⟩⟩
  | registered state res released buffers internal =>
    exact ⟨iff_of_true ⟨fun h => absurd state h, fun _ => released⟩ internal,
      iff_of_true ⟨fun h => absurd res h, fun _ => released⟩ ⟨internal, buffers⟩⟩

/-- The queue is full, and no larger block is to be had. -/
def none_free : Manager :=
  ⟨⟨⟨[NULL], 0, 1⟩, [zero_pollfd], ⟨[4], 1, 1, 0, 0⟩, 1, 0⟩, ∅, []⟩

theorem none_free_ring : Ring none_free.mgr.p_new_conns :=
  ⟨rfl, by decide, by decide, by decide, by decide, by decide⟩

theorem fresh_in_none_free : FreshBlock all_succeed none_free := by
  rintro p ⟨⟩
  exact ⟨by decide, AList.notMem_empty _⟩

/-- An inbound context that the queue refuses is taken back whole. -/
theorem a_refused_inbound_context_is_taken_back :
    ∃ r, connmgr_create_new_conn 5 .INBOUND_CONN all_succeed none_free = some r ∧
      r.released = [.send_buf, .recv_buf, .mutex, .ctx] ∧ TakesBack (r.res ≠ 0) r := by
  obtain ⟨r, hr, -, hiff⟩ :=
    a_call_takes_back_what_it_had_unless_an_internal_context_is_refused 5
      .INBOUND_CONN none_free_ring fresh_in_none_free
  have hback : r.released = [.send_buf, .recv_buf, .mutex, .ctx] := by
    cases hr
    rfl
  exact ⟨r, hr, hback, hiff.mpr ⟨fun h => (nomatch h.2.1), by decide⟩⟩

/-- The listener's context is refused: two pointers that `malloc` left in it are freed, and what
it left in the place of the mutex is destroyed. -/
theorem a_refused_internal_context_is_overreleased :
    ¬ ∀ (fd : Int) (type : conn_type_t) (o : create_outs) (s : Manager) (r : create_result),
      0 ≤ fd → Ring s.mgr.p_new_conns → FreshBlock o s →
      connmgr_create_new_conn fd type o s = some r →
      TakesBack (¬ Registered fd type s r.state) r := by
  intro h
  have hback := h 5 .INTERNAL_CONN all_succeed none_free _ (by decide) none_free_ring
    fresh_in_none_free rfl
  exact nomatch (hback.1 (not_registered rfl)).length_eq

end pingpong.connmgr
