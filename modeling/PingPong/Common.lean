-- The constants of `common.h`, the `size_t` and `uint16_t` operations of the
-- server, the memory order of the host's integers, and the I/O buffers.
import Mathlib.Algebra.GroupWithZero.Nat
import Mathlib.Data.List.Basic
import Mathlib.Tactic.Common

namespace pingpong

def HEADER_SIZE : Nat := 3
def IO_BUF_SIZE : Nat := 1024
def MAX_CONNECTIONS : Nat := 1024
def UINT16_MAX : Nat := 65535

/-- The value that a `uint16_t` keeps of `n`. -/
def u16 (n : Nat) : Nat := n % 65536

/-- `a - b` on `size_t`: it wraps when `b` is larger. -/
def size_sub (a b : Nat) : Nat := if b ≤ a then a - b else 2 ^ 64 - (b - a)

theorem size_sub_of_le {a b : Nat} (h : b ≤ a) : size_sub a b = a - b := if_pos h

theorem u16_of_le {n : Nat} (h : n ≤ UINT16_MAX) : u16 n = n := by
  unfold UINT16_MAX at h
  exact Nat.mod_eq_of_lt (by omega)

/-- The size that a full block of `n` slots grows to: the double, cut at
`UINT16_MAX`. It is `none` when the block is at that size. -/
def new_max (n : Nat) : Option Nat :=
  if n = UINT16_MAX then none
  else if UINT16_MAX / 2 < n then some UINT16_MAX
  else some (u16 (n * 2))

theorem new_max_eq_none {n : Nat} : new_max n = none ↔ n = UINT16_MAX := by
  unfold new_max
  split
  · simp_all
  · split <;> simp_all

theorem new_max_spec {n m : Nat} (hn : n ≤ UINT16_MAX) (h : new_max n = some m) :
    n ≤ m ∧ m ≤ UINT16_MAX ∧ (0 < n → n < m) := by
  unfold new_max at h
  unfold UINT16_MAX at *
  split at h
  · cases h
  · split at h
    · cases h
      omega
    · have hu : u16 (n * 2) = n * 2 := u16_of_le (by unfold UINT16_MAX; omega)
      simp only [hu, Option.some.injEq] at h
      omega

/-! ## The order of the bytes of an integer in memory -/

inductive ByteOrder
  | little
  | big
  deriving DecidableEq, Repr

/-- The two bytes of a `uint16_t`, lowest address first. -/
def u16_bytes (host : ByteOrder) (v : Nat) : List UInt8 :=
  match host with
  | .little => [UInt8.ofNat v, UInt8.ofNat (v / 256)]
  | .big => [UInt8.ofNat (v / 256), UInt8.ofNat v]

@[simp] theorem length_u16_bytes (host : ByteOrder) (v : Nat) :
    (u16_bytes host v).length = 2 := by cases host <;> rfl

/-- The `uint16_t` that two bytes of memory hold. -/
def u16_load (host : ByteOrder) (b0 b1 : UInt8) : Nat :=
  match host with
  | .little => b0.toNat + 256 * b1.toNat
  | .big => 256 * b0.toNat + b1.toNat

/-- `ntohs`, and `htons`: the argument is cut to a `uint16_t`, and its bytes
are swapped when the host is little-endian. -/
def ntohs (host : ByteOrder) (v : Nat) : Nat :=
  match host with
  | .little => 256 * (v % 256) + u16 v / 256
  | .big => u16 v

def htons (host : ByteOrder) (v : Nat) : Nat := ntohs host v

/-- The `size_t` that is 0 but for a `memcpy` of two bytes to its start. -/
def size_t_of_two_bytes (host : ByteOrder) (b0 b1 : UInt8) : Nat :=
  match host with
  | .little => u16_load .little b0 b1
  | .big => u16_load .big b0 b1 * 2 ^ 48

/-- A `size_t` after a store of `v` through a `uint16_t *` to its start. -/
def size_t_store_u16 (host : ByteOrder) (old v : Nat) : Nat :=
  match host with
  | .little => old - old % 2 ^ 16 + u16 v
  | .big => old % 2 ^ 48 + u16 v * 2 ^ 48

/-- Two bytes on the wire, as a number: the network order is big-endian. -/
def be16 (b0 b1 : UInt8) : Nat := 256 * b0.toNat + b1.toNat

/-- `htons` puts the bytes of a `uint16_t` in network order, on every host. -/
theorem u16_bytes_htons (host : ByteOrder) (v : Nat) :
    u16_bytes host (htons host v) = [UInt8.ofNat (v / 256), UInt8.ofNat v] := by
  have hext : ∀ a b : Nat, a % 256 = b % 256 → UInt8.ofNat a = UInt8.ofNat b := fun a b h => by
    rw [← UInt8.toNat_inj]
    simpa using h
  have hhigh : v % 65536 / 256 = v / 256 % 256 := Nat.mod_mul_right_div_self v 256 256
  have hlow : (256 * (v % 256) + v / 256 % 256) / 256 = v % 256 := by omega
  cases host
  all_goals
    simp only [u16_bytes, htons, ntohs, u16, List.cons.injEq, and_true, hhigh, hlow]
    exact ⟨hext _ _ (by omega), hext _ _ (by omega)⟩

/-- `ntohs` reads two bytes of memory in network order, on every host. -/
theorem ntohs_u16_load (host : ByteOrder) (b0 b1 : UInt8) :
    ntohs host (u16_load host b0 b1) = be16 b0 b1 := by
  have h0 := b0.toNat_lt
  have h1 := b1.toNat_lt
  cases host
  all_goals
    simp only [ntohs, u16_load, u16, be16]
    omega

/-! ## The I/O buffers -/

/-- A block of `IO_BUF_SIZE` bytes, as `connmgr_create_new_conn` allocates it. -/
def io_buf := { bs : List UInt8 // bs.length = IO_BUF_SIZE }

namespace io_buf

/-- The bytes in order. -/
def bytes (b : io_buf) : List UInt8 := b.1

@[simp] theorem length_bytes (b : io_buf) : b.bytes.length = IO_BUF_SIZE := b.2

/-- `memset(buf, 0, IO_BUF_SIZE)`. -/
def zero : io_buf := ⟨List.replicate IO_BUF_SIZE 0, List.length_replicate ..⟩

/-- `memcpy` of `bs` to offset `off`. What would lie past the block is cut off,
so a caller checks that the bytes fit. -/
def write (b : io_buf) (off : Nat) (bs : List UInt8) : io_buf :=
  ⟨(b.bytes.take off ++ bs ++ b.bytes.drop (off + bs.length)).take IO_BUF_SIZE, by simp; omega⟩

theorem bytes_write (b : io_buf) (off : Nat) (bs : List UInt8)
    (h : off + bs.length ≤ IO_BUF_SIZE) :
    (b.write off bs).bytes = b.bytes.take off ++ bs ++ b.bytes.drop (off + bs.length) :=
  List.take_of_length_le (by simp; omega)

theorem take_write (b : io_buf) (off : Nat) (bs : List UInt8)
    (h : off + bs.length ≤ IO_BUF_SIZE) :
    (b.write off bs).bytes.take (off + bs.length) = b.bytes.take off ++ bs := by
  have hlen : (b.bytes.take off ++ bs).length = off + bs.length := by
    rw [List.length_append, List.length_take, length_bytes]
    omega
  rw [bytes_write b off bs h, List.take_append_of_le_length (Nat.le_of_eq hlen.symm), ← hlen,
    List.take_length]

@[simp] theorem write_nil (b : io_buf) (off : Nat) : b.write off [] = b := by
  apply Subtype.ext
  show (b.bytes.take off ++ [] ++ b.bytes.drop (off + 0)).take _ = b.bytes
  simp [List.take_of_length_le]

/-- Two writes, the second where the first one ends, are one write. -/
theorem write_write (b : io_buf) (off : Nat) (xs ys : List UInt8)
    (h : off + xs.length + ys.length ≤ IO_BUF_SIZE) :
    (b.write off xs).write (off + xs.length) ys = b.write off (xs ++ ys) := by
  apply Subtype.ext
  show ((b.write off xs).write (off + xs.length) ys).bytes = (b.write off (xs ++ ys)).bytes
  have hlen : (b.bytes.take off ++ xs).length = off + xs.length := by simp; omega
  have hxs : off + xs.length ≤ IO_BUF_SIZE := by omega
  have hall : off + (xs ++ ys).length ≤ IO_BUF_SIZE := by simpa [← Nat.add_assoc] using h
  rw [bytes_write _ _ _ h, take_write _ _ _ hxs, bytes_write _ _ _ hxs, bytes_write _ _ _ hall,
    List.drop_append, hlen, List.drop_of_length_le (by omega), List.nil_append, List.drop_drop]
  simp only [List.length_append, List.append_assoc]
  congr 4
  omega

end io_buf

end pingpong
