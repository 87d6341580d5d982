-- The loops of `netio.c` on a buffer of any size: they end for every sequence
-- of results without an endless run of EINTR, and report what they moved.
import PingPong.Transfers

namespace pingpong.io_loops

open netio nl_internal_err_t

/-! ## The loop, for any state -/

/-- The status with which a result ends the loop, if it does. -/
def stops (on_err : nl_internal_err_t) (zero_ends : Bool) : sys_result → Option nl_internal_err_t
  | .fail .EINTR => none
  | .fail .EWOULDBLOCK | .fail .EAGAIN => some NL_IO_EWOULDBLOCK
  | .fail .other => some on_err
  | .ret n => if zero_ends ∧ n = 0 then some NL_IO_EOF else none

variable {σ τ : Type}

/-- The loop of `nl_sendall` and `nl_recvall`, with the results of its calls in order. -/
def any_loop (call : Nat → Nat → sys_result → σ → Option σ) (on_err : nl_internal_err_t)
    (zero_ends : Bool) (len : Nat) :
    List sys_result → Nat → σ → Option (nl_internal_err_t × Nat × σ)
  | [], total, s => if total < len then none else some (NL_IO_SUCCESS, total, s)
  | r :: rest, total, s =>
    if total < len then
      (call total (size_sub len total) r s).bind fun s =>
        match stops on_err zero_ends r with
        | some err => stop rest (err, total, s)
        | none => any_loop call on_err zero_ends len rest (total + moved r) s
    else none

/-- The loop of a connection is this loop. -/
theorem io_loop_eq (call : Nat → Nat → sys_result → Link → Option Link)
    (on_err : nl_internal_err_t) (zero_ends : Bool) (len : Nat) (outs : List sys_result)
    (total : Nat) (k : Link) :
    io_loop call on_err zero_ends len outs total k =
      any_loop call on_err zero_ends len outs total k := by
  induction outs generalizing total k with
  | nil => rfl
  | cons r rest ih =>
    simp only [io_loop, any_loop]
    split
    · congr 1
      funext k
      cases r with
      | ret n =>
        by_cases hz : zero_ends = true ∧ n = 0
        · simp [stops, hz]
        · simp [stops, hz, moved, ih]
      | fail e =>
        cases e with
        | EINTR => simp [stops, moved, ih]
        | EWOULDBLOCK => rfl
        | EAGAIN => rfl
        | other => rfl
    · rfl

/-- A loop seen through `f` is a loop of the calls seen through `f`. -/
theorem any_loop_map {call : Nat → Nat → sys_result → σ → Option σ}
    {call' : Nat → Nat → sys_result → τ → Option τ} (f : σ → τ)
    (hcall : ∀ off len r s, (call off len r s).map f = call' off len r (f s))
    (on_err : nl_internal_err_t) (zero_ends : Bool) (len : Nat) (outs : List sys_result)
    (total : Nat) (s : σ) :
    (any_loop call on_err zero_ends len outs total s).map (fun (err, n, s) => (err, n, f s)) =
      any_loop call' on_err zero_ends len outs total (f s) := by
  induction outs generalizing total s with
  | nil =>
    simp only [any_loop]
    split <;> rfl
  | cons r rest ih =>
    simp only [any_loop, ← hcall]
    split
    · cases call total (size_sub len total) r s with
      | none => rfl
      | some s =>
        cases stops on_err zero_ends r with
        | none => exact ih _ s
        | some err =>
          simp only [Option.map_some, Option.bind_some, stop]
          split <;> rfl
    · rfl

/-- The bytes that the first `i` calls move. -/
def so_far (outs : Nat → sys_result) (i : Nat) : Nat := total_moved ((List.range i).map outs)

@[simp] theorem so_far_zero (outs : Nat → sys_result) : so_far outs 0 = 0 := rfl

theorem so_far_succ (outs : Nat → sys_result) (i : Nat) :
    so_far outs (i + 1) = so_far outs i + moved (outs i) := by
  simp [so_far, total_moved, List.range_succ]

theorem moved_of_stops {on_err err : nl_internal_err_t} {zero_ends : Bool} {r : sys_result}
    (h : stops on_err zero_ends r = some err) : moved r = 0 := by
  cases r with
  | fail e => rfl
  | ret n =>
    simp only [stops, Option.ite_none_right_eq_some] at h
    exact h.1.2

theorem stops_ne_success {on_err err : nl_internal_err_t} {zero_ends : Bool} {r : sys_result}
    (hon : on_err ≠ NL_IO_SUCCESS) (h : stops on_err zero_ends r = some err) :
    err ≠ NL_IO_SUCCESS := by
  cases r with
  | ret n =>
    simp only [stops, Option.ite_none_right_eq_some, Option.some.injEq] at h
    simp [← h.2]
  | fail e =>
    cases e with
    | EINTR => simp [stops] at h
    | other =>
      simp only [stops, Option.some.injEq] at h
      rwa [← h]
    | _ =>
      simp only [stops, Option.some.injEq] at h
      simp [← h]

/-! ## The loop ends -/

section Ends

variable {call : Nat → Nat → sys_result → σ → Option σ} {on_err : nl_internal_err_t}
  {zero_ends : Bool} {len : Nat} {outs : Nat → sys_result} {Inv : Nat → σ → Prop}

/-- From call `i` on the loop ends. It has moved `len` bytes, or a result has ended it with the
status of that result. -/
def Ends (call : Nat → Nat → sys_result → σ → Option σ) (on_err : nl_internal_err_t)
    (zero_ends : Bool) (len : Nat) (outs : Nat → sys_result) (Inv : Nat → σ → Prop) (i : Nat)
    (s : σ) : Prop :=
  ∃ m err s', any_loop call on_err zero_ends len ((List.range' i m).map outs) (so_far outs i) s =
      some (err, so_far outs (i + m), s') ∧
    Inv (i + m) s' ∧ so_far outs (i + m) ≤ len ∧
    (err = NL_IO_SUCCESS ↔ so_far outs (i + m) = len) ∧
    (err ≠ NL_IO_SUCCESS → ∃ j, i + m = j + 1 ∧ stops on_err zero_ends (outs j) = some err)

theorem ends_of_full {i : Nat} {s : σ} (hI : Inv i s) (hfull : so_far outs i = len) :
    Ends call on_err zero_ends len outs Inv i s := by
  refine ⟨0, NL_IO_SUCCESS, s, ?_, hI, Nat.le_of_eq hfull, by simp [hfull], by simp⟩
  simp [any_loop, hfull]

theorem ends_of_stop (hon : on_err ≠ NL_IO_SUCCESS) {i : Nat} {s s' : σ}
    {err : nl_internal_err_t} (hlt : so_far outs i < len)
    (hcall : call (so_far outs i) (len - so_far outs i) (outs i) s = some s')
    (hI : Inv (i + 1) s') (hstop : stops on_err zero_ends (outs i) = some err) :
    Ends call on_err zero_ends len outs Inv i s := by
  have hsame : so_far outs (i + 1) = so_far outs i := by
    rw [so_far_succ, moved_of_stops hstop, Nat.add_zero]
  have herr := stops_ne_success hon hstop
  refine ⟨1, err, s', ?_, hI, ?_, ?_, fun _ => ⟨i, rfl, hstop⟩⟩
  · simp [any_loop, hlt, size_sub_of_le (Nat.le_of_lt hlt), hcall, hstop, stop, hsame]
  · rw [hsame]
    exact Nat.le_of_lt hlt
  · rw [hsame]
    exact iff_of_false herr (Nat.ne_of_lt hlt)

theorem ends_of_more {i : Nat} {s s' : σ} (hlt : so_far outs i < len)
    (hcall : call (so_far outs i) (len - so_far outs i) (outs i) s = some s')
    (hstop : stops on_err zero_ends (outs i) = none)
    (hmore : Ends call on_err zero_ends len outs Inv (i + 1) s') :
    Ends call on_err zero_ends len outs Inv i s := by
  obtain ⟨m, err, s'', hloop, hI, hle, hsucc, hwhy⟩ := hmore
  rw [so_far_succ] at hloop
  have hidx : i + 1 + m = i + (m + 1) := by omega
  rw [hidx] at hloop hI hle hsucc hwhy
  refine ⟨m + 1, err, s'', ?_, hI, hle, hsucc, hwhy⟩
  rw [List.range'_succ, List.map_cons, any_loop, if_pos hlt, size_sub_of_le (Nat.le_of_lt hlt),
    hcall, Option.bind_some, hstop]
  exact hloop

/-- One call ends the loop, is interrupted, or moves some bytes. -/
theorem ends_or_goes_on (hon : on_err ≠ NL_IO_SUCCESS) {i : Nat} {s : σ}
    (hcall : so_far outs i < len → moved (outs i) ≤ len - so_far outs i ∧
      (outs i ≠ .fail .EINTR → stops on_err zero_ends (outs i) = none → 0 < moved (outs i)) ∧
      ∃ s', call (so_far outs i) (len - so_far outs i) (outs i) s = some s' ∧ Inv (i + 1) s')
    (hI : Inv i s) (hle : so_far outs i ≤ len) :
    Ends call on_err zero_ends len outs Inv i s ∨
    ∃ s', Inv (i + 1) s' ∧ so_far outs (i + 1) ≤ len ∧
      (outs i = .fail .EINTR ∨ so_far outs i < so_far outs (i + 1)) ∧
      (Ends call on_err zero_ends len outs Inv (i + 1) s' →
        Ends call on_err zero_ends len outs Inv i s) := by
  by_cases hlt : so_far outs i < len
  · obtain ⟨hmv, hpos, s', hs', hI'⟩ := hcall hlt
    cases hstop : stops on_err zero_ends (outs i) with
    | some err => exact Or.inl (ends_of_stop hon hlt hs' hI' hstop)
    | none =>
      refine Or.inr ⟨s', hI', ?_, ?_, ends_of_more hlt hs' hstop⟩
      · rw [so_far_succ]
        omega
      · by_cases hint : outs i = .fail .EINTR
        · exact Or.inl hint
        · have hpos := hpos hint hstop
          rw [so_far_succ]
          omega
  · exact Or.inl (ends_of_full hI (Nat.le_antisymm hle (Nat.le_of_not_lt hlt)))

/-- The rule of the loop. The outer induction is on the bytes that are left, the inner one on the
interrupted calls before the next result of another kind. -/
theorem any_loop_ends (hon : on_err ≠ NL_IO_SUCCESS)
    (hcall : ∀ i s, Inv i s → so_far outs i < len →
      moved (outs i) ≤ len - so_far outs i ∧
      (outs i ≠ .fail .EINTR → stops on_err zero_ends (outs i) = none → 0 < moved (outs i)) ∧
      ∃ s', call (so_far outs i) (len - so_far outs i) (outs i) s = some s' ∧ Inv (i + 1) s')
    (heintr : ∀ i, ∃ j, i ≤ j ∧ outs j ≠ .fail .EINTR) {i : Nat} {s : σ} (hI : Inv i s)
    (hle : so_far outs i ≤ len) : Ends call on_err zero_ends len outs Inv i s := by
  induction hleft : len - so_far outs i using Nat.strongRecOn generalizing i s with
  | ind left ih =>
    obtain ⟨j, hij, hj⟩ := heintr i
    obtain ⟨k, rfl⟩ := Nat.exists_eq_add_of_le hij
    have hless : ∀ i s, Inv i s → so_far outs i ≤ len → len - so_far outs i < left →
        Ends call on_err zero_ends len outs Inv i s :=
      fun i s hI hle hlt => ih _ hlt hI hle rfl
    clear ih hij
    induction k generalizing i s with
    | zero =>
      rcases ends_or_goes_on hon (hcall i s hI) hI hle with h | ⟨s', hI', hle', hgo, h⟩
      · exact h
      · apply h
        apply hless _ _ hI' hle'
        have hmore := hgo.resolve_left hj
        omega
    | succ k ihk =>
      have hidx : i + (k + 1) = i + 1 + k := by omega
      rw [hidx] at hj
      rcases ends_or_goes_on hon (hcall i s hI) hI hle with h | ⟨s', hI', hle', hgo, h⟩
      · exact h
      · apply h
        rcases hgo with hint | hmore
        · have hsame : so_far outs (i + 1) = so_far outs i := by
            simp [so_far_succ, hint, moved]
          exact ihk hI' hle' (by omega) hj
        · exact hless _ _ hI' hle' (by omega)

end Ends

/-! ## A buffer of any size -/

/-- The buffer of a caller, the bytes of the peer that no `recv` has taken yet, the bytes handed
to the socket by `send`, and the calls made: the offset in the buffer and the length of each. -/
structure Buffer where
  p_buf : List UInt8
  unread : List UInt8
  sent : List UInt8
  calls : List (Nat × Nat)
  deriving DecidableEq, Repr

/-- `recv(fd, p_buf + off, len, 0)`. A write past the buffer has no meaning. -/
def recv (off len : Nat) (r : sys_result) (s : Buffer) : Option Buffer :=
  let s := { s with calls := s.calls ++ [(off, len)] }
  match r with
  | .fail _ => some s
  | .ret n =>
    if n ≤ len ∧ n ≤ s.unread.length ∧ off + n ≤ s.p_buf.length then
      some { s with
        p_buf := s.p_buf.take off ++ s.unread.take n ++ s.p_buf.drop (off + n)
        unread := s.unread.drop n }
    else none

/-- `send(fd, p_buf + off, len, 0)`. A read past the buffer has no meaning. -/
def send (off len : Nat) (r : sys_result) (s : Buffer) : Option Buffer :=
  let s := { s with calls := s.calls ++ [(off, len)] }
  match r with
  | .fail _ => some s
  | .ret n =>
    if n ≤ len ∧ off + n ≤ s.p_buf.length then
      some { s with sent := s.sent ++ (s.p_buf.drop off).take n }
    else none

/-- `nl_recvall(fd, p_buf, len, &bytes_read)`. -/
def nl_recvall (len : Nat) (outs : List sys_result) (s : Buffer) :
    Option (nl_internal_err_t × Nat × Buffer) :=
  any_loop recv .NL_RECV_ERR true len outs 0 s

/-- `nl_sendall(fd, p_buf, len, &bytes_sent)`. -/
def nl_sendall (len : Nat) (outs : List sys_result) (s : Buffer) :
    Option (nl_internal_err_t × Nat × Buffer) :=
  any_loop send .NL_SEND_ERR false len outs 0 s

/-! ## The loops of a connection -/

/-- The receive buffer of a connection from offset `base` on. -/
def recv_view (base : Nat) (k : Link) : Buffer :=
  ⟨k.ctx.p_recv_buf.bytes.drop base, k.sock.unread, k.sock.sent,
    k.recvs.map fun c => (c.1 - base, c.2)⟩

def send_view (k : Link) : Buffer :=
  ⟨k.ctx.p_send_buf.bytes, k.sock.unread, k.sock.sent, k.sends⟩

theorem recv_of_link {base : Nat} (hbase : base ≤ IO_BUF_SIZE) (off len : Nat) (r : sys_result)
    (k : Link) : (netio.recv base off len r k).map (recv_view base) =
      recv off len r (recv_view base k) := by
  cases r with
  | fail e => simp [netio.recv, recv, recv_view]
  | ret n =>
    have hroom : off + n ≤ IO_BUF_SIZE - base ↔ base + off + n ≤ IO_BUF_SIZE := by omega
    simp only [netio.recv, recv, recv_view, List.length_drop, io_buf.length_bytes, hroom]
    by_cases hn : n ≤ len ∧ n ≤ k.sock.unread.length ∧ base + off + n ≤ IO_BUF_SIZE
    · have hlen : (k.sock.unread.take n).length = n := List.length_take_of_le hn.2.1
      have hbuf : (k.ctx.p_recv_buf.write (base + off) (k.sock.unread.take n)).bytes.drop base =
          (k.ctx.p_recv_buf.bytes.drop base).take off ++ k.sock.unread.take n ++
            (k.ctx.p_recv_buf.bytes.drop base).drop (off + n) := by
        have hbase : base ≤ (k.ctx.p_recv_buf.bytes.take (base + off)).length := by
          rw [List.length_take, io_buf.length_bytes]
          omega
        rw [io_buf.bytes_write _ _ _ (by rw [hlen]; exact hn.2.2), hlen, List.append_assoc,
          List.drop_append_of_le_length hbase, List.drop_take, Nat.add_sub_cancel_left,
          List.drop_drop, Nat.add_assoc, List.append_assoc]
      rw [if_pos hn, if_pos hn]
      simp [recv_view, hbuf]
    · rw [if_neg hn, if_neg hn]
      rfl

/-- `nl_recvall` of a connection, seen from its buffer. -/
theorem nl_recvall_of_link {base : Nat} (hbase : base ≤ IO_BUF_SIZE) (len : Nat)
    (outs : List sys_result) (k : Link) :
    (netio.nl_recvall base len outs k).map (fun (err, n, k) => (err, n, recv_view base k)) =
      nl_recvall len outs (recv_view base k) := by
  rw [netio.nl_recvall, io_loop_eq]
  exact any_loop_map _ (recv_of_link hbase) _ _ _ _ _ _

theorem send_of_link (off len : Nat) (r : sys_result) (k : Link) :
    (netio.send off len r k).map send_view = send off len r (send_view k) := by
  cases r with
  | fail e => rfl
  | ret n =>
    simp only [netio.send, send, send_view, io_buf.length_bytes]
    split <;> rfl

/-- `nl_sendall` of a connection, seen from its buffer. -/
theorem nl_sendall_of_link (len : Nat) (outs : List sys_result) (k : Link) :
    (netio.nl_sendall len outs k).map (fun (err, n, k) => (err, n, send_view k)) =
      nl_sendall len outs (send_view k) := by
  rw [netio.nl_sendall, io_loop_eq]
  exact any_loop_map _ send_of_link _ _ _ _ _ _

/-! ## What the loops report -/

/-- `s` after the next `n` bytes of the peer came to the start of the buffer. -/
def after_recv (s : Buffer) (n : Nat) (log : List (Nat × Nat)) : Buffer :=
  ⟨s.unread.take n ++ s.p_buf.drop n, s.unread.drop n, s.sent, s.calls ++ log⟩

/-- `s` after the first `n` bytes of the buffer went to the socket. -/
def after_send (s : Buffer) (n : Nat) (log : List (Nat × Nat)) : Buffer :=
  { s with sent := s.sent ++ s.p_buf.take n, calls := s.calls ++ log }

/-- The first `m` calls: each starts at the total so far, and asks for what is left of `len`. -/
def call_log (len : Nat) (outs : Nat → sys_result) (m : Nat) : List (Nat × Nat) :=
  (List.range m).map fun i => (so_far outs i, len - so_far outs i)

theorem call_log_succ (len : Nat) (outs : Nat → sys_result) (m : Nat) :
    call_log len outs (m + 1) = call_log len outs m ++ [(so_far outs m, len - so_far outs m)] := by
  simp [call_log, List.range_succ]

/-- `recv` gives no more bytes than it is asked for and the peer has sent. -/
def RecvGives (s : Buffer) (len : Nat) (outs : Nat → sys_result) : Prop :=
  ∀ i n, outs i = .ret n → so_far outs i < len →
    n ≤ len - so_far outs i ∧ so_far outs i + n ≤ s.unread.length

/-- `send` takes a byte at least, and no more than it is given. -/
def SendTakes (len : Nat) (outs : Nat → sys_result) : Prop :=
  ∀ i n, outs i = .ret n → so_far outs i < len → 1 ≤ n ∧ n ≤ len - so_far outs i

theorem recv_after {s : Buffer} {len : Nat} {outs : Nat → sys_result}
    (hroom : len ≤ s.p_buf.length) (hgives : RecvGives s len outs) {i : Nat}
    (hlt : so_far outs i < len) :
    recv (so_far outs i) (len - so_far outs i) (outs i)
        (after_recv s (so_far outs i) (call_log len outs i)) =
      some (after_recv s (so_far outs (i + 1)) (call_log len outs (i + 1))) := by
  rw [so_far_succ, call_log_succ]
  cases hr : outs i with
  | fail e => simp [recv, after_recv, moved]
  | ret n =>
    obtain ⟨hn, havail⟩ := hgives i n hr hlt
    have hlen : (s.unread.take (so_far outs i)).length = so_far outs i :=
      List.length_take_of_le (by omega)
    have hdrop : (s.unread.take (so_far outs i) ++ s.p_buf.drop (so_far outs i)).drop
        (so_far outs i + n) = s.p_buf.drop (so_far outs i + n) := by
      rw [List.drop_append, hlen, List.drop_of_length_le (by omega), List.nil_append,
        List.drop_drop, Nat.add_sub_cancel_left]
    have hfits : n ≤ len - so_far outs i ∧ n ≤ (s.unread.drop (so_far outs i)).length ∧
        so_far outs i + n ≤
          (s.unread.take (so_far outs i) ++ s.p_buf.drop (so_far outs i)).length := by
      simp only [List.length_append, List.length_drop, hlen]
      omega
    simp only [recv, after_recv, if_pos hfits, hdrop, moved, List.take_left' hlen, List.drop_drop,
      List.take_add, List.append_assoc]

theorem send_after {s : Buffer} {len : Nat} {outs : Nat → sys_result}
    (hroom : len ≤ s.p_buf.length) (htakes : SendTakes len outs) {i : Nat}
    (hlt : so_far outs i < len) :
    send (so_far outs i) (len - so_far outs i) (outs i)
        (after_send s (so_far outs i) (call_log len outs i)) =
      some (after_send s (so_far outs (i + 1)) (call_log len outs (i + 1))) := by
  rw [so_far_succ, call_log_succ]
  cases hr : outs i with
  | fail e => simp [send, after_send, moved]
  | ret n =>
    obtain ⟨-, hn⟩ := htakes i n hr hlt
    have hfits : n ≤ len - so_far outs i ∧ so_far outs i + n ≤ s.p_buf.length := by omega
    simp only [send, after_send, if_pos hfits, moved, List.take_add, List.append_assoc]

/-- The loop ends after some calls, with their total as its count: the bytes are those of one run
from the start, it succeeds when they are `len`, and its status names the last result when they
are not. -/
def Reports (loop : List sys_result → Buffer → Option (nl_internal_err_t × Nat × Buffer))
    (stops : sys_result → Option nl_internal_err_t) (after : Nat → List (Nat × Nat) → Buffer)
    (len : Nat) (outs : Nat → sys_result) (s : Buffer) : Prop :=
  ∃ m err, loop ((List.range m).map outs) s =
      some (err, so_far outs m, after (so_far outs m) (call_log len outs m)) ∧
    so_far outs m ≤ len ∧ (err = NL_IO_SUCCESS ↔ so_far outs m = len) ∧
    (err ≠ NL_IO_SUCCESS → ∃ i, m = i + 1 ∧ stops (outs i) = some err)

theorem reports_of_ends {call : Nat → Nat → sys_result → Buffer → Option Buffer}
    {on_err : nl_internal_err_t} {zero_ends : Bool} {len : Nat} {outs : Nat → sys_result}
    {after : Nat → List (Nat × Nat) → Buffer} {s : Buffer}
    (h : Ends call on_err zero_ends len outs
      (fun i s' => s' = after (so_far outs i) (call_log len outs i)) 0 s) :
    Reports (fun outs s => any_loop call on_err zero_ends len outs 0 s) (stops on_err zero_ends)
      after len outs s := by
  obtain ⟨m, err, s', hloop, hs', hle, hsucc, hwhy⟩ := h
  rw [Nat.zero_add] at hloop hs' hle hsucc hwhy
  rw [hs', ← List.range_eq_range'] at hloop
  exact ⟨m, err, hloop, hle, hsucc, hwhy⟩

/-- A result that does not end the loop is an interruption or a count. -/
theorem ret_of_goes_on {on_err : nl_internal_err_t} {zero_ends : Bool} {r : sys_result}
    (hint : r ≠ .fail .EINTR) (h : stops on_err zero_ends r = none) :
    ∃ n, r = .ret n ∧ (zero_ends = true → n ≠ 0) := by
  cases r with
  | ret n => exact ⟨n, rfl, by simpa [stops] using h⟩
  | fail e =>
    cases e with
    | EINTR => exact absurd rfl hint
    | _ => simp [stops] at h

theorem moved_le {r : sys_result} {bound : Nat} (h : ∀ n, r = .ret n → n ≤ bound) :
    moved r ≤ bound := by
  cases r with
  | ret n => exact h n rfl
  | fail e => exact Nat.zero_le _

/-- Without an endless run of EINTR both loops end, for every length and all results. -/
theorem the_loops_report_what_they_moved {len : Nat} {outs : Nat → sys_result} {s : Buffer}
    (hroom : len ≤ s.p_buf.length) (heintr : ∀ i, ∃ j, i ≤ j ∧ outs j ≠ .fail .EINTR) :
    (RecvGives s len outs →
      Reports (nl_recvall len) (stops NL_RECV_ERR true) (after_recv s) len outs s) ∧
    (SendTakes len outs →
      Reports (nl_sendall len) (stops NL_SEND_ERR false) (after_send s) len outs s) := by
  constructor
  · intro hgives
    apply reports_of_ends
    apply any_loop_ends (by simp) _ heintr (by simp [after_recv, call_log]) (Nat.zero_le len)
    intro i s' hs' hlt
    rw [hs']
    refine ⟨?_, ?_, _, recv_after hroom hgives hlt, rfl⟩
    · exact moved_le fun n hn => (hgives i n hn hlt).1
    · intro hint hgo
      obtain ⟨n, hn, hpos⟩ := ret_of_goes_on hint hgo
      rw [hn]
      exact Nat.pos_of_ne_zero (hpos rfl)
  · intro htakes
    apply reports_of_ends
    apply any_loop_ends (by simp) _ heintr (by simp [after_send, call_log]) (Nat.zero_le len)
    intro i s' hs' hlt
    rw [hs']
    refine ⟨?_, ?_, _, send_after hroom htakes hlt, rfl⟩
    · exact moved_le fun n hn => (htakes i n hn hlt).2
    · intro hint hgo
      obtain ⟨n, hn, -⟩ := ret_of_goes_on hint hgo
      rw [hn]
      exact (htakes i n hn hlt).1

/-- Two bytes come between interruptions, and then the call would block. -/
def two_bytes : Nat → sys_result
  | 1 => .ret 2
  | 3 => .fail .EAGAIN
  | i => if i ≤ 3 then .fail .EINTR else .fail .other

theorem two_bytes_of_three :
    Reports (nl_recvall 3) (stops NL_RECV_ERR true) (after_recv ⟨[0, 0, 0], [7, 8], [], []⟩) 3
      two_bytes ⟨[0, 0, 0], [7, 8], [], []⟩ := by
  refine (the_loops_report_what_they_moved (by decide) ?_).1 ?_
  · intro i
    exact ⟨i + 4, by omega, by simp [two_bytes]⟩
  · intro i n hn hlt
    by_cases h1 : i = 1
    · rw [h1] at hn hlt ⊢
      cases hn
      decide
    · unfold two_bytes at hn
      split at hn
      · exact absurd rfl h1
      · cases hn
      · split at hn <;> cases hn

end pingpong.io_loops
