-- What the loops of `netio.c` move. A loop moves the bytes of its calls in one
-- run from where it starts, and it succeeds when it has moved all of them.
import PingPong.NetIo

namespace pingpong.netio

open nl_internal_err_t

/-- The bytes that a call moves. -/
def moved : sys_result → Nat
  | .ret n => n
  | .fail _ => 0

/-- The bytes that the calls of a loop move. -/
def total_moved (outs : List sys_result) : Nat := (outs.map moved).sum

theorem stop_some {α : Type} {rest : List sys_result} {x y : α} :
    stop rest x = some y ↔ rest = [] ∧ x = y := by
  simp [stop]

/-! ## The rule of the loop -/

section Loop

variable {call : Nat → Nat → sys_result → Link → Option Link} {on_err : nl_internal_err_t}
  {zero_ends : Bool} {len : Nat} {R : Nat → Nat → Link → Link → Prop}

/-- `R a b k k'` says what the calls did between the counts `a` and `b`. When
each call does it, the loop does it: the induction is on the calls, and the
count grows by what each call moves. -/
theorem io_loop_rule (hrefl : ∀ a k, R a a k k)
    (htrans : ∀ a b c k k1 k2, R a b k k1 → R b c k1 k2 → R a c k k2)
    (hcall : ∀ total r k k', total < len → call total (len - total) r k = some k' →
      moved r ≤ len - total ∧ R total (total + moved r) k k')
    (herr : on_err ≠ NL_IO_SUCCESS) {outs : List sys_result} {total : Nat} {k k' : Link}
    {err : nl_internal_err_t} {n : Nat} (hle : total ≤ len)
    (h : io_loop call on_err zero_ends len outs total k = some (err, n, k')) :
    n = total + total_moved outs ∧ n ≤ len ∧ R total n k k' ∧
      (err = NL_IO_SUCCESS ↔ n = len) := by
  induction outs generalizing total k with
  | nil =>
    simp only [io_loop] at h
    split at h
    · cases h
    · cases h
      exact ⟨rfl, hle, hrefl _ _, by simp; omega⟩
  | cons r rest ih =>
    simp only [io_loop] at h
    split at h
    next hlt =>
      rw [size_sub_of_le hle] at h
      obtain ⟨k1, hk1, h⟩ := Option.bind_eq_some_iff.mp h
      obtain ⟨hmv, hR⟩ := hcall total r k k1 hlt hk1
      -- a loop that stops early has moved less than it was asked to
      have hstop : ∀ e, e ≠ NL_IO_SUCCESS → moved r = 0 →
          stop rest (e, total, k1) = some (err, n, k') →
          n = total + total_moved (r :: rest) ∧ n ≤ len ∧ R total n k k' ∧
            (err = NL_IO_SUCCESS ↔ n = len) := by
        intro e he hr hs
        obtain ⟨hrest, hx⟩ := stop_some.mp hs
        cases hx
        rw [hr] at hR
        exact ⟨by simp [total_moved, hrest, hr], hle, hR, by simp [he]; omega⟩
      have hmore : io_loop call on_err zero_ends len rest (total + moved r) k1 =
          some (err, n, k') →
          n = total + total_moved (r :: rest) ∧ n ≤ len ∧ R total n k k' ∧
            (err = NL_IO_SUCCESS ↔ n = len) := by
        intro hl
        obtain ⟨h1, h2, h3, h4⟩ := ih (by omega) hl
        refine ⟨?_, h2, htrans _ _ _ _ _ _ hR h3, h4⟩
        simp only [total_moved, List.map_cons, List.sum_cons] at h1 ⊢
        omega
      cases r with
      | ret m =>
        simp only at h
        split at h
        next hz => exact hstop _ (by simp) (by simp [moved, hz.2]) h
        next => exact hmore h
      | fail e =>
        cases e with
        | EINTR => exact hmore h
        | EWOULDBLOCK => exact hstop _ (by simp) rfl h
        | EAGAIN => exact hstop _ (by simp) rfl h
        | other => exact hstop _ herr rfl h
    next => cases h

end Loop

/-! ## `nl_recvall` -/

/-- `k` after the next `n` bytes of the peer went to offset `base` of the
receive buffer, by the calls of `log`. -/
def received (k : Link) (base n : Nat) (log : List (Nat × Nat)) : Link :=
  { k with
    ctx := { k.ctx with p_recv_buf := k.ctx.p_recv_buf.write base (k.sock.unread.take n) }
    sock := { k.sock with
      unread := k.sock.unread.drop n
      taken := k.sock.taken ++ k.sock.unread.take n }
    recvs := k.recvs ++ log }

/-- `n` bytes came to offset `base`, inside the block, and each call asked for
the bytes up to offset `lim`. -/
structure Received (lim base n : Nat) (k k' : Link) : Prop where
  avail : n ≤ k.sock.unread.length
  room : n = 0 ∨ base + n ≤ IO_BUF_SIZE
  eq : ∃ log, (∀ c ∈ log, c.1 + c.2 = lim) ∧ k' = received k base n log

theorem Received.refl (lim base : Nat) (k : Link) : Received lim base 0 k k :=
  ⟨by omega, Or.inl rfl, [], by simp, by simp [received]⟩

theorem Received.trans {lim base m n : Nat} {k k1 k2 : Link} (h1 : Received lim base m k k1)
    (h2 : Received lim (base + m) n k1 k2) : Received lim base (m + n) k k2 := by
  obtain ⟨ha1, hr1, log1, hl1, rfl⟩ := h1
  obtain ⟨ha2, hr2, log2, hl2, rfl⟩ := h2
  have hav : m + n ≤ k.sock.unread.length := by
    simp only [received, List.length_drop] at ha2
    omega
  refine ⟨hav, by omega, log1 ++ log2, ?_, ?_⟩
  · intro c hc
    rcases List.mem_append.mp hc with hc | hc
    · exact hl1 c hc
    · exact hl2 c hc
  · have hbuf : (k.ctx.p_recv_buf.write base (k.sock.unread.take m)).write (base + m)
        ((k.sock.unread.drop m).take n) =
        k.ctx.p_recv_buf.write base (k.sock.unread.take (m + n)) := by
      rcases Nat.eq_zero_or_pos n with hn | hn
      · simp [hn]
      · have hlen : (k.sock.unread.take m).length = m := by simp; omega
        have hw := io_buf.write_write k.ctx.p_recv_buf base (k.sock.unread.take m)
          ((k.sock.unread.drop m).take n) (by simp; omega)
        rw [hlen] at hw
        rw [hw, List.take_add]
    simp only [received, hbuf, List.drop_drop, List.append_assoc, List.take_add]

theorem recv_spec {base off len : Nat} {r : sys_result} {k k' : Link}
    (h : recv base off len r k = some k') :
    moved r ≤ len ∧ Received (base + off + len) (base + off) (moved r) k k' := by
  unfold recv at h
  cases r with
  | fail e =>
    cases h
    exact ⟨by simp [moved], by simp [moved], Or.inl rfl, [(base + off, len)], by simp,
      by simp [received, moved]⟩
  | ret n =>
    simp only at h
    split at h
    next hn =>
      cases h
      exact ⟨hn.1, hn.2.1, Or.inr hn.2.2, [(base + off, len)], by simp, rfl⟩
    next => cases h

/-- `nl_recvall` takes the next `n` bytes to where it starts, at most `len` of
them, and it succeeds exactly when it took them all. -/
theorem nl_recvall_spec {base len n : Nat} {outs : List sys_result} {k k' : Link}
    {err : nl_internal_err_t} (h : nl_recvall base len outs k = some (err, n, k')) :
    n = total_moved outs ∧ n ≤ len ∧ Received (base + len) base n k k' ∧
      (err = NL_IO_SUCCESS ↔ n = len) := by
  have hl := io_loop_rule
    (R := fun a b k k' => a ≤ b ∧ Received (base + len) (base + a) (b - a) k k')
    (fun a k => ⟨Nat.le_refl a, by simpa using Received.refl _ _ k⟩)
    (fun a b c k k1 k2 h1 h2 => ?_) (fun total r k k' hlt hc => ?_) (by simp)
    (Nat.zero_le len) h
  · simpa using hl
  · have ht := Received.trans h1.2 (n := c - b) (by
      have he : base + a + (b - a) = base + b := by have := h1.1; omega
      rw [he]
      exact h2.2)
    have he : b - a + (c - b) = c - a := by have := h1.1; have := h2.1; omega
    rw [he] at ht
    exact ⟨Nat.le_trans h1.1 h2.1, ht⟩
  · obtain ⟨h1, h2⟩ := recv_spec hc
    have he : base + total + (len - total) = base + len := by omega
    rw [he] at h2
    exact ⟨h1, by omega, by simpa using h2⟩

/-! ## `nl_sendall` -/

/-- `k` after the bytes of the send buffer from `off` on, `n` of them, were
handed to the socket by the calls of `log`. -/
def handed (k : Link) (off n : Nat) (log : List (Nat × Nat)) : Link :=
  { k with
    sock := { k.sock with sent := k.sock.sent ++ (k.ctx.p_send_buf.bytes.drop off).take n }
    sends := k.sends ++ log }

/-- The bytes from `a` on, `n` of them, went to the socket, and each call
asked for the bytes up to offset `lim`. -/
def Handed (lim a n : Nat) (k k' : Link) : Prop :=
  ∃ log, (∀ c ∈ log, c.1 + c.2 = lim) ∧ k' = handed k a n log

theorem Handed.trans {lim a m n : Nat} {k k1 k2 : Link} (h1 : Handed lim a m k k1)
    (h2 : Handed lim (a + m) n k1 k2) : Handed lim a (m + n) k k2 := by
  obtain ⟨log1, hl1, rfl⟩ := h1
  obtain ⟨log2, hl2, rfl⟩ := h2
  refine ⟨log1 ++ log2, ?_, by simp [handed, List.take_add, List.drop_drop]⟩
  intro c hc
  rcases List.mem_append.mp hc with hc | hc
  · exact hl1 c hc
  · exact hl2 c hc

theorem send_spec {off len : Nat} {r : sys_result} {k k' : Link}
    (h : send off len r k = some k') :
    moved r ≤ len ∧ Handed (off + len) off (moved r) k k' := by
  unfold send at h
  cases r with
  | fail e =>
    cases h
    exact ⟨by simp [moved], [(off, len)], by simp, by simp [handed, moved]⟩
  | ret n =>
    simp only at h
    split at h
    next hn =>
      cases h
      exact ⟨hn.1, [(off, len)], by simp, rfl⟩
    next => cases h

/-- `nl_sendall` hands the first `n` bytes of the send buffer to the socket, at
most `len` of them, and it succeeds exactly when it handed them all. -/
theorem nl_sendall_spec {len n : Nat} {outs : List sys_result} {k k' : Link}
    {err : nl_internal_err_t} (h : nl_sendall len outs k = some (err, n, k')) :
    n = total_moved outs ∧ n ≤ len ∧ Handed len 0 n k k' ∧ (err = NL_IO_SUCCESS ↔ n = len) := by
  have hl := io_loop_rule
    (R := fun a b k k' => a ≤ b ∧ Handed len a (b - a) k k')
    (fun a k => ⟨Nat.le_refl a, [], by simp, by simp [handed]⟩)
    (fun a b c k k1 k2 h1 h2 => ?_) (fun total r k k' hlt hc => ?_) (by simp)
    (Nat.zero_le len) h
  · simpa using hl
  · have ht := Handed.trans h1.2 (n := c - b) (by
      have he : a + (b - a) = b := by have := h1.1; omega
      rw [he]
      exact h2.2)
    have he : b - a + (c - b) = c - a := by have := h1.1; have := h2.1; omega
    rw [he] at ht
    exact ⟨Nat.le_trans h1.1 h2.1, ht⟩
  · obtain ⟨h1, h2⟩ := send_spec hc
    have he : total + (len - total) = len := by omega
    rw [he] at h2
    exact ⟨h1, by omega, by simpa using h2⟩

end pingpong.netio
