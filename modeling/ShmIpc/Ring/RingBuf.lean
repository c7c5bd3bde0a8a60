import ShmIpc.Lib.RelyGuarantee
import ShmIpc.Lib.Window

/-! # The ring buffer: `ringbuf.hpp`

One direction of a channel is a header with two 64-bit positions, a data area of `Capacity` bytes,
and the eventfd that wakes the reader (`Shm`). The functions of `RingBuf` and `BatchWriter` are
programs over single accesses to it (`Cmd`): a load or a store of a position, one byte of a
`memcpy`, one write or read of the eventfd. Positions are 64-bit and lengths 32-bit words, with the
wrap-around of the machine; offsets into the data area are numbers.

`assert`s are not part of the programs: with `NDEBUG` they are not compiled. -/

namespace ShmIpc.Ring.RingBuf

open ShmIpc.Lib.RelyGuarantee

/-! ### The shared memory -/

/-- The template argument `Capacity`, with what the `static_assert`s check of it. -/
structure Capacity where
  val : ℕ
  pow2 : val &&& (val - 1) = 0
  ge : 1024 ≤ val
  le : val ≤ 4294967295

/-- The smallest capacity. -/
def Capacity.min : Capacity where
  val := 1024
  pow2 := by decide
  ge := by decide
  le := by decide

/-- `Capacity` as the 64-bit word the position arithmetic compares with. -/
def Capacity.word (cap : Capacity) : UInt64 := UInt64.ofNat cap.val

/-- `max_write_size`. -/
def Capacity.maxWriteSize (cap : Capacity) : ℕ := cap.val / 2

/-- `RingHeader`, the data area behind it, and the eventfd the writer rings. -/
structure Shm where
  writePos : UInt64
  readPos : UInt64
  data : ℕ → UInt8
  efd : ℕ

/-- `RingBuf::Init` on a fresh channel. -/
def Shm.init : Shm where
  writePos := 0
  readPos := 0
  data := fun _ => 0
  efd := 0

/-- The accesses to the shared memory. -/
inductive Cmd : Type
  | loadWritePos
  | loadReadPos
  | storeWritePos (v : UInt64)
  | storeReadPos (v : UInt64)
  | readByte (off : ℕ)
  /-- a read through a null pointer -/
  | readNull
  | writeByte (off : ℕ) (b : UInt8)
  | notifyPeer
  | drainNotify

/-- What an access returns. -/
@[reducible] def Cmd.Res : Cmd → Type
  | .loadWritePos | .loadReadPos => UInt64
  | .readByte _ | .readNull => UInt8
  | .drainNotify => ℕ
  | .storeWritePos _ | .storeReadPos _ | .writeByte _ _ | .notifyPeer => Unit

/-- The largest value of an eventfd counter; a write that would exceed it fails with `EAGAIN`. -/
def efdMax : ℕ := 18446744073709551614

/-- The effect of an access. -/
def Shm.exec : (c : Cmd) → Shm → c.Res × Shm
  | .loadWritePos, m => (m.writePos, m)
  | .loadReadPos, m => (m.readPos, m)
  | .storeWritePos v, m => ((), { m with writePos := v })
  | .storeReadPos v, m => ((), { m with readPos := v })
  | .readByte off, m => (m.data off, m)
  | .readNull, m => (0, m)
  | .writeByte off b, m => ((), { m with data := fun x => if x = off then b else m.data x })
  | .notifyPeer, m => ((), { m with efd := if m.efd + 1 ≤ efdMax then m.efd + 1 else m.efd })
  | .drainNotify, m => (m.efd, { m with efd := 0 })

abbrev RingM : Type → Type := Prog Cmd Cmd.Res

def loadWritePos : RingM UInt64 := Prog.cmd Cmd.loadWritePos
def loadReadPos : RingM UInt64 := Prog.cmd Cmd.loadReadPos
def storeWritePos (v : UInt64) : RingM Unit := Prog.cmd (Cmd.storeWritePos v)
def storeReadPos (v : UInt64) : RingM Unit := Prog.cmd (Cmd.storeReadPos v)

/-- `memcpy` of `l` to the data area. -/
def memcpyTo : ℕ → List UInt8 → RingM Unit
  | _, [] => pure ()
  | off, b :: l => do
    Prog.cmd (Cmd.writeByte off b)
    memcpyTo (off + 1) l

/-- `memcpy` of `n` bytes from the data area. -/
def memcpyFrom : ℕ → ℕ → RingM (List UInt8)
  | _, 0 => pure []
  | off, n + 1 => do
    let b ← Prog.cmd (Cmd.readByte off)
    let l ← memcpyFrom (off + 1) n
    return b :: l

/-- `n` reads through a null pointer. -/
def memcpyNull : ℕ → RingM (List UInt8)
  | 0 => pure []
  | n + 1 => do
    let b ← Prog.cmd Cmd.readNull
    let l ← memcpyNull n
    return b :: l

/-- `memcpy` of `n` bytes from `o` bytes behind a pointer into the data area; `none` is null. -/
def memcpyPtr (ptr : Option ℕ) (o n : ℕ) : RingM (List UInt8) :=
  match ptr with
  | some base => memcpyFrom (base + o) n
  | none => memcpyNull n

/-- A non-null pointer argument with its 32-bit length. -/
structure Buf where
  bytes : List UInt8
  lt : bytes.length < 4294967296

/-- The length argument. -/
def Buf.len (b : Buf) : UInt32 := UInt32.ofNat b.bytes.length

/-! ### `detail` -/

/-- `RingPhys`. -/
def ringPhys (cap : Capacity) (pos : UInt64) : ℕ := (pos &&& UInt64.ofNat (cap.val - 1)).toNat

/-- The two-part `memcpy` of the writers, at the offset of position `w`. -/
def ringCopyIn (cap : Capacity) (w : UInt64) (src : Buf) : RingM Unit :=
  let physW := ringPhys cap w
  let tail := cap.val - physW
  if src.len.toNat ≤ tail then
    memcpyTo physW src.bytes
  else do
    memcpyTo physW (src.bytes.take tail)
    memcpyTo 0 (src.bytes.drop tail)

/-- `RingCopyOut`. -/
def ringCopyOut (cap : Capacity) (physR : ℕ) (len : UInt32) : RingM (List UInt8) :=
  let contig := cap.val - physR
  if len.toNat ≤ contig then
    memcpyFrom physR len.toNat
  else do
    let a ← memcpyFrom physR contig
    let b ← memcpyFrom 0 (len.toNat - contig)
    return a ++ b

/-! ### `BatchWriter` -/

/-- The fields of a `BatchWriter`; `hdr` is whether `hdr_` is non-null. -/
structure BatchWriter where
  w : UInt64
  r : UInt64
  wStart : UInt64
  count : ℤ
  hdr : Bool
  deriving DecidableEq, Repr

namespace BatchWriter

/-- The constructor. -/
def make : RingM BatchWriter := do
  let w ← loadWritePos
  let r ← loadReadPos
  return { w := w, r := r, wStart := w, count := 0, hdr := true }

/-- The space check of `TryWrite` and `Reserve`. -/
def Rejects (cap : Capacity) (b : BatchWriter) (len : UInt32) : Prop :=
  len = 0 ∨ cap.maxWriteSize < len.toNat ∨ cap.word < (b.w + len.toUInt64) - b.r

instance (cap : Capacity) (b : BatchWriter) (len : UInt32) : Decidable (b.Rejects cap len) := by
  unfold Rejects; infer_instance

/-- The object after `len` more bytes (`w_ += len; ++count_`). -/
def advance (b : BatchWriter) (len : UInt32) : BatchWriter :=
  { b with w := b.w + len.toUInt64, count := b.count + 1 }

/-- `TryWrite`; `none` is a null pointer. -/
def tryWrite (cap : Capacity) (b : BatchWriter) : Option Buf → RingM (ℤ × BatchWriter)
  | none => return (-1, b)
  | some src => do
    if b.Rejects cap src.len then
      return (-1, b)
    ringCopyIn cap b.w src
    return (0, b.advance src.len)

/-- `Flush`. -/
def flush (b : BatchWriter) : RingM (ℤ × BatchWriter) := do
  if b.hdr = false then
    return (0, b)
  if b.w ≠ b.wStart then
    storeWritePos b.w
    return (b.count, { b with wStart := b.w, count := 0 })
  return (b.count, { b with count := 0 })

/-- `PendingBytes`. -/
def pendingBytes (b : BatchWriter) : UInt64 := b.w - b.wStart

/-- `Cancel`. -/
def cancel (b : BatchWriter) : BatchWriter := { b with w := b.wStart, count := 0 }

/-- `RewindTo`. -/
def rewindTo (b : BatchWriter) (pending : UInt64) (count : ℤ) : BatchWriter :=
  { b with w := b.wStart + pending, count := count }

/-- `FreeBytes`. -/
def freeBytes (cap : Capacity) (b : BatchWriter) : UInt64 := cap.word - (b.w - b.r)

/-- `Reserve`: the offset of the reserved bytes, `none` for a null pointer. -/
def reserve (cap : Capacity) (b : BatchWriter) (len : UInt32) : Option ℕ :=
  if b.Rejects cap len then none
  else if cap.val - ringPhys cap b.w < len.toNat then none
  else some (ringPhys cap b.w)

/-- `CommitReserve`. -/
def commitReserve (b : BatchWriter) (len : UInt32) : BatchWriter := b.advance len

/-- `Reserve`, filling the reserved bytes with `src`, and `CommitReserve` of the same length, as a
caller has to do it; nothing when `Reserve` returns a null pointer. -/
def reserveFill (cap : Capacity) (b : BatchWriter) (src : Buf) : RingM (Bool × BatchWriter) :=
  match b.reserve cap src.len with
  | none => return (false, b)
  | some off => do
    memcpyTo off src.bytes
    return (true, b.commitReserve src.len)

end BatchWriter

/-! ### `RingBuf` -/

/-- `TryWrite`; `none` is a null pointer. -/
def tryWrite (cap : Capacity) : Option Buf → RingM ℤ
  | none => return -1
  | some src => do
    if src.len = 0 ∨ cap.maxWriteSize < src.len.toNat then
      return -1
    let w ← loadWritePos
    let r ← loadReadPos
    if cap.word < (w + src.len.toUInt64) - r then
      return -1
    ringCopyIn cap w src
    storeWritePos (w + src.len.toUInt64)
    return 0

/-- `TryRead`: the bytes read, as many as the return value says. -/
def tryRead (cap : Capacity) (maxLen : UInt32) : RingM (List UInt8) := do
  let r ← loadReadPos
  let w ← loadWritePos
  let avail := w - r
  if avail = 0 then
    return []
  let toRead := if avail < maxLen.toUInt64 then avail.toUInt32 else maxLen
  if toRead = 0 then
    return []
  let out ← ringCopyOut cap (ringPhys cap r) toRead
  storeReadPos (r + toRead.toUInt64)
  return out

/-- `ReadExact`: the bytes read, `none` for `-1`. -/
def readExact (cap : Capacity) (len : UInt32) : RingM (Option (List UInt8)) := do
  if len = 0 then
    return some []
  let r ← loadReadPos
  let w ← loadWritePos
  let avail := w - r
  if avail < len.toUInt64 then
    return none
  let out ← ringCopyOut cap (ringPhys cap r) len
  storeReadPos (r + len.toUInt64)
  return some out

/-- The segments `Peek` hands out, as offsets into the data area; a null `seg2` is `none`. -/
structure Segs where
  seg1 : ℕ
  seg1Len : UInt32
  seg2 : Option ℕ
  seg2Len : UInt32
  deriving DecidableEq, Repr

/-- The segments of the bytes from position `r` to position `w`. -/
def segsOf (cap : Capacity) (r w : UInt64) : Segs :=
  let avail := w - r
  let physR := ringPhys cap r
  let contig := cap.val - physR
  if avail.toNat ≤ contig then
    { seg1 := physR, seg1Len := avail.toUInt32, seg2 := none, seg2Len := 0 }
  else
    { seg1 := physR, seg1Len := UInt32.ofNat contig, seg2 := some 0
      seg2Len := (avail - UInt64.ofNat contig).toUInt32 }

/-- `Peek`; `none` for `-1`. -/
def peek (cap : Capacity) : RingM (Option Segs) := do
  let r ← loadReadPos
  let w ← loadWritePos
  if w - r = 0 then
    return none
  return some (segsOf cap r w)

/-- `CommitRead`. -/
def commitRead (len : UInt32) : RingM Unit := do
  let r ← loadReadPos
  storeReadPos (r + len.toUInt64)

/-- `Available`. -/
def available : RingM UInt64 := do
  let w ← loadWritePos
  let r ← loadReadPos
  return w - r

/-- `FreeSpace`. -/
def freeSpace (cap : Capacity) : RingM UInt64 := do
  let a ← available
  return cap.word - a

/-! ### Word arithmetic -/

theorem Capacity.exists_pow (cap : Capacity) : ∃ k, 10 ≤ k ∧ k ≤ 31 ∧ cap.val = 2 ^ k := by
  have h0 : cap.val ≠ 0 := by have := cap.ge; omega
  obtain ⟨k, hk⟩ := (Nat.and_sub_one_eq_zero_iff_isPowerOfTwo h0).mp cap.pow2
  refine ⟨k, ?_, ?_, hk⟩
  · by_contra h
    have := Nat.pow_le_pow_right (n := 2) (by omega) (show k ≤ 9 by omega)
    have := cap.ge
    omega
  · by_contra h
    have := Nat.pow_le_pow_right (n := 2) (by omega) (show 32 ≤ k by omega)
    have := cap.le
    omega

theorem Capacity.pos (cap : Capacity) : 0 < cap.val := by have := cap.ge; omega

theorem Capacity.lt (cap : Capacity) : cap.val ≤ 2147483648 := by
  obtain ⟨k, -, hk, he⟩ := cap.exists_pow
  rw [he]
  exact (Nat.pow_le_pow_right (by omega) hk).trans (by norm_num)

theorem Capacity.toNat_word (cap : Capacity) : cap.word.toNat = cap.val := by
  have := cap.lt
  simp only [Capacity.word, UInt64.toNat_ofNat']
  omega

theorem Buf.toNat_len (b : Buf) : b.len.toNat = b.bytes.length := by
  have := b.lt
  simp only [Buf.len, UInt32.toNat_ofNat']
  omega

/-- The offset of a position, whatever multiple of `2^64` the position has lost. -/
theorem ringPhys_ofNat (cap : Capacity) (p : ℕ) : ringPhys cap (UInt64.ofNat p) = p % cap.val := by
  obtain ⟨k, -, hk, he⟩ := cap.exists_pow
  have hle := cap.lt
  have hd : 2 ^ k ∣ 2 ^ 64 := Nat.pow_dvd_pow 2 (by omega)
  unfold ringPhys
  rw [UInt64.toNat_and, UInt64.toNat_ofNat', UInt64.toNat_ofNat',
    Nat.mod_eq_of_lt (show cap.val - 1 < 2 ^ 64 by omega), he, Nat.and_two_pow_sub_one_eq_mod,
    Nat.mod_mod_of_dvd _ hd]

/-- The distance of two positions less than `2^64` apart. -/
theorem toNat_ofNat_sub {a b : ℕ} (h : b ≤ a) (hlt : a - b < 2 ^ 64) :
    (UInt64.ofNat a - UInt64.ofNat b).toNat = a - b := by
  rw [← UInt64.ofNat_sub h, UInt64.toNat_ofNat', Nat.mod_eq_of_lt hlt]

end ShmIpc.Ring.RingBuf
