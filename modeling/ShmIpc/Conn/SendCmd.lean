import ShmIpc.Conn.DrainRing

/-! # Sending on a connection: `ShmConnection::SendCmd`

`SendCmd` lets the codec encode the package, growing the buffer on demand, and `WriteRaw` writes the
bytes to the ring in pieces of at most `max_write_size` and rings the peer once. `writeAll_spec`:
whatever the reader does meanwhile, all bytes are published, in order, or none. -/

namespace ShmIpc.Conn.SendCmd

open ShmIpc.Lib.RelyGuarantee ShmIpc.Lib.Window
open ShmIpc.Ring.RingBuf ShmIpc.Ring.History ShmIpc.Ring.Writer ShmIpc.Ring.Channel
open ShmIpc.Conn.DrainRing

/-! ### `WriteRaw` -/

/-- The first `n` bytes behind a pointer. -/
def first (l : List UInt8) (n : UInt32) : Buf where
  bytes := l.take n.toNat
  lt := by
    have := n.toNat_lt
    rw [List.length_take]
    omega

/-- The bytes behind the first `n`. -/
def rest (b : Buf) (n : UInt32) : Buf where
  bytes := b.bytes.drop n.toNat
  lt := by
    have := b.lt
    rw [List.length_drop]
    omega

/-- The length of the next piece. -/
def chunk (cap : Capacity) (left : UInt32) : UInt32 :=
  if UInt32.ofNat cap.maxWriteSize < left then UInt32.ofNat cap.maxWriteSize else left

theorem toNat_chunk (cap : Capacity) (b : Buf) :
    (chunk cap b.len).toNat = min b.bytes.length cap.maxWriteSize := by
  have hcap := cap.lt
  have hm : (UInt32.ofNat cap.maxWriteSize).toNat = cap.maxWriteSize := by
    rw [UInt32.toNat_ofNat', Nat.mod_eq_of_lt (by unfold Capacity.maxWriteSize; omega)]
  unfold chunk
  split_ifs with h <;> rw [UInt32.lt_iff_toNat_lt, hm, b.toNat_len] at h
  · rw [hm]; omega
  · rw [b.toNat_len]; omega

theorem maxWriteSize_pos (cap : Capacity) : 0 < cap.maxWriteSize := by
  have := cap.ge
  unfold Capacity.maxWriteSize
  omega

/-- The loop of `WriteRaw` and of `ShmClient::SendMessage`: `TryWrite` piece by piece. -/
def writeChunks (cap : Capacity) (data : Buf) : RingM Bool :=
  if data.bytes.length = 0 then return true
  else do
    let rc ← tryWrite cap (some (first data.bytes (chunk cap data.len)))
    if rc ≠ 0 then
      return false
    writeChunks cap (rest data (chunk cap data.len))
termination_by data.bytes.length
decreasing_by
  have := toNat_chunk cap data
  have := maxWriteSize_pos cap
  simp only [rest, List.length_drop]
  omega

/-- The common part of `WriteRaw` and `SendMessage`: check the space for all the bytes, write them,
and ring. -/
def writeAll (cap : Capacity) (data : Buf) : RingM Bool := do
  let free ← writableBytes cap
  if free < data.len.toUInt64 then
    return false
  let ok ← writeChunks cap data
  if ok = false then
    return false
  notifyPeer
  return true

/-- `WriteRaw`. -/
def writeRaw (cap : Capacity) (data : Buf) : RingM Bool :=
  if data.len = 0 then return true else writeAll cap data

/-! ### `SendCmd` -/

variable {σ M : Type}

/-- The members of the connection that `SendCmd` uses besides the ring. -/
structure Outbox (σ : Type) where
  codec : σ
  state : TcpConnStates
  encodeBuf : List UInt8
  maxBufferSize : ℕ

/-- The buffer after the codec has written to its start. -/
def overwrite (buf written : List UInt8) : List UInt8 := written ++ buf.drop written.length

/-- `encode_buf_.resize(n)` for a larger `n`. -/
def resize (buf : List UInt8) (n : ℕ) : List UInt8 := buf ++ List.replicate (n - buf.length) 0

/-- How the encoding ends. -/
inductive Encoding : Type
  /-- an access outside the buffer -/
  | fault
  | skip
  | disconnect
  /-- `return false` -/
  | failed
  | bytes (len : UInt32)
  deriving DecidableEq, Repr

/-- The loop of `SendCmd` around `Encode` and `GrowEncodeBuffer`, up to `WriteRaw`. -/
def encodeLoop (codec : Codec σ M) (pkg : M) (max : ℕ) (buf : List UInt8) (st : σ) :
    Encoding × List UInt8 × σ :=
  match codec.encode st pkg buf.length with
  | none => (.fault, buf, st)
  | some (e, st) =>
    if buf.length < e.written.length then (.fault, buf, st)
    else if e.len = kCodecSkipPackage then (.skip, overwrite buf e.written, st)
    else if e.len = kCodecDisconnect then (.disconnect, overwrite buf e.written, st)
    else if e.len = kCodecNeedMoreBuffer then
      if e.size = 0 ∨ e.size ≤ buf.length ∨ max < e.size then
        (.failed, overwrite buf e.written, st)
      else encodeLoop codec pkg max (resize (overwrite buf e.written) e.size) st
    else (.bytes e.len.toUInt32, overwrite buf e.written, st)
termination_by max - buf.length
decreasing_by
  simp only [resize, overwrite, List.length_append, List.length_drop, List.length_replicate]
  omega

/-- `Close`, as far as `SendCmd` goes on to see it. -/
def Outbox.close (o : Outbox σ) : Outbox σ :=
  if o.state.IsOpen then { o with state := .closeing } else o

/-- How a call of `SendCmd` ends. -/
inductive Sent : Type
  /-- an access outside the buffer -/
  | fault
  /-- `true`, and the bytes are in the ring -/
  | wrote
  /-- `true`, for a package that the codec drops -/
  | skipped
  /-- `false` -/
  | failed
  deriving DecidableEq, Repr

/-- `SendCmd`. -/
def sendCmd (codec : Codec σ M) (cap : Capacity) (o : Outbox σ) (pkg : M) :
    RingM (Sent × Outbox σ) :=
  if ¬ o.state.IsOpen then return (.failed, o)
  else
    let (e, buf, st) := encodeLoop codec pkg o.maxBufferSize o.encodeBuf o.codec
    let o' := { o with codec := st, encodeBuf := buf }
    match e with
    | .fault => return (.fault, o')
    | .skip => return (.skipped, o')
    | .disconnect => return (.failed, o'.close)
    | .failed => return (.failed, o')
    | .bytes len =>
      if buf.length < len.toNat then return (.fault, o')
      else do
        let ok ← writeRaw cap (first buf len)
        return (if ok then .wrote else .failed, o')

/-! ### While the reader reads -/

variable {cap : Capacity} {base : ℕ} {g g' : World}

theorem first_append_rest (b : Buf) (n : UInt32) :
    (first b.bytes n).bytes ++ (rest b n).bytes = b.bytes :=
  List.take_append_drop _ _

/-- The pieces are published one behind the other; with the space checked before, none is
refused. -/
theorem writeChunks_spec {Q : Bool → World → Prop} {data : Buf} (hi : Inv cap base g)
    (hfit : g.published.length + data.bytes.length ≤ g.consumed + cap.val)
    (h : ∀ g', Wrote cap base g g'.shm.data data.bytes g' → Q true g') :
    wpW cap base (writeChunks cap data) Q g := by
  induction hn : data.bytes.length using Nat.strongRecOn generalizing data g with
  | _ n ih =>
    have hchunk := toNat_chunk cap data
    have hpos := maxWriteSize_pos cap
    rw [writeChunks]
    split_ifs with h0
    · refine h g ?_
      rw [List.eq_nil_of_length_eq_zero h0]
      exact wrote_refl hi
    · have hfirst : (first data.bytes (chunk cap data.len)).bytes.length =
          min data.bytes.length cap.maxWriteSize := by
        show (data.bytes.take (chunk cap data.len).toNat).length = _
        rw [List.length_take, hchunk]
        omega
      rw [wpW, Prog.wp_bind]
      refine tryWrite_spec hi (fun src g₁ hsrc _ h₁ => ?_) fun g₁ _ hno => ?_
      · cases hsrc
        have hlen : (rest data (chunk cap data.len)).bytes.length =
            data.bytes.length - min data.bytes.length cap.maxWriteSize := by
          show (data.bytes.drop (chunk cap data.len).toNat).length = _
          rw [List.length_drop, hchunk]
        have hp₁ := congrArg List.length h₁.published
        have hc₁ := h₁.consumed
        rw [List.length_append, hfirst] at hp₁
        rw [if_neg (by decide)]
        refine ih _ (by omega) h₁.inv (by omega) (fun g₂ h₂ => h g₂ ?_) rfl
        have h12 := h₁.trans h₂
        rw [first_append_rest] at h12
        exact h12
      · exfalso
        rcases hno _ rfl with h1 | h1 | h1 <;> omega

/-- All the bytes are published, and the peer is rung; or nothing changes, for want of space. -/
theorem writeAll_spec {Q : Bool → World → Prop} {data : Buf} (hi : Inv cap base g)
    (hok : ∀ g', Flushed cap base g data.bytes True g' → Q true g')
    (hfail : ∀ g', Wrote cap base g g.shm.data [] g' →
      g.consumed + cap.val < g.published.length + data.bytes.length → Q false g') :
    wpW cap base (writeAll cap data) Q g := by
  unfold writeAll
  rw [wpW, Prog.wp_bind]
  refine writableBytes_spec hi fun free g₁ h₁ hfree => ?_
  have hp₁ : g₁.published = g.published := by rw [h₁.published, List.append_nil]
  have hle := h₁.inv.fit
  have hc₁ := h₁.consumed
  rw [hp₁] at hle
  split_ifs with hlt <;>
    rw [UInt64.lt_iff_toNat_lt, UInt32.toNat_toUInt64, data.toNat_len, hfree] at hlt
  · exact hfail g₁ h₁ (by omega)
  · rw [Prog.wp_bind]
    refine writeChunks_spec h₁.inv (by rw [hp₁]; omega) fun g₂ h₂ => ?_
    rw [if_neg (by simp), Prog.wp_bind]
    refine notifyPeer_spec h₂.inv fun g₃ h₃ _ => hok g₃ ?_
    have h13 := Flushed.of_wrote (h₁.trans h₂) h₃ trivial
    rw [List.append_nil, List.nil_append] at h13
    exact h13

/-- `SendCmd` publishes the encoded bytes and rings, or changes nothing in the ring. -/
theorem sendCmd_spec {codec : Codec σ M} {o : Outbox σ} {pkg : M}
    {Q : Sent × Outbox σ → World → Prop} (hi : Inv cap base g)
    (hok : ∀ len buf st g', o.state.IsOpen →
      encodeLoop codec pkg o.maxBufferSize o.encodeBuf o.codec = (.bytes len, buf, st) →
      len.toNat ≤ buf.length → 0 < len.toNat →
      Flushed cap base g (buf.take len.toNat) True g' →
      Q (.wrote, { o with codec := st, encodeBuf := buf }) g')
    (hno : ∀ sent o' g', Wrote cap base g g.shm.data [] g' →
      (sent = .fault → ∃ buf st,
        encodeLoop codec pkg o.maxBufferSize o.encodeBuf o.codec = (.fault, buf, st) ∨
        ∃ len, encodeLoop codec pkg o.maxBufferSize o.encodeBuf o.codec = (.bytes len, buf, st) ∧
          buf.length < len.toNat) →
      (sent = .wrote → ∃ buf st,
        encodeLoop codec pkg o.maxBufferSize o.encodeBuf o.codec = (.bytes 0, buf, st)) →
      Q (sent, o') g') :
    wpW cap base (sendCmd codec cap o pkg) Q g := by
  have hquiet : ∀ {sent : Sent} {o' : Outbox σ}, sent = .skipped ∨ sent = .failed →
      ∀ g', Wrote cap base g g.shm.data [] g' → Q (sent, o') g' := by
    intro sent o' hs g' hw
    refine hno sent o' g' hw (fun he => ?_) fun he => ?_
    · rcases hs with rfl | rfl <;> cases he
    · rcases hs with rfl | rfl <;> cases he
  unfold sendCmd
  by_cases hopen : o.state.IsOpen
  swap
  · rw [if_pos hopen]
    exact hquiet (Or.inr rfl) g (wrote_refl hi)
  rw [if_neg (not_not.mpr hopen)]
  rcases he : encodeLoop codec pkg o.maxBufferSize o.encodeBuf o.codec with ⟨e, buf, st⟩
  rw [he] at hok hno
  cases e with
  | fault =>
    exact hno _ _ g (wrote_refl hi) (fun _ => ⟨buf, st, Or.inl rfl⟩) fun h => by cases h
  | skip => exact hquiet (Or.inl rfl) g (wrote_refl hi)
  | disconnect => exact hquiet (Or.inr rfl) g (wrote_refl hi)
  | failed => exact hquiet (Or.inr rfl) g (wrote_refl hi)
  | bytes len =>
    simp only []
    split_ifs with hlen
    · exact hno _ _ g (wrote_refl hi) (fun _ => ⟨buf, st, Or.inr ⟨len, rfl, hlen⟩⟩)
        fun h => by cases h
    · have hbytes : (first buf len).bytes = buf.take len.toNat := rfl
      have hblen : (first buf len).bytes.length = len.toNat := by
        rw [hbytes, List.length_take_of_le (by omega)]
      rw [wpW, Prog.wp_bind]
      by_cases hz : len.toNat = 0
      · -- an encoding of no bytes: `WriteRaw` returns at once
        have hl : len = 0 := UInt32.toNat_inj.mp hz
        subst hl
        have hraw : writeRaw cap (first buf 0) = pure true := by
          unfold writeRaw
          rw [if_pos (by rw [len_eq_zero, hblen]; rfl)]
        rw [hraw]
        exact hno .wrote _ g (wrote_refl hi) (fun h => by cases h) fun _ => ⟨buf, st, rfl⟩
      · unfold writeRaw
        rw [if_neg (by rw [len_eq_zero]; omega)]
        refine writeAll_spec hi (fun g' hfl => ?_) fun g' hw _ => ?_
        · rw [hbytes] at hfl
          exact hok len buf st g' hopen rfl (by omega) (by omega) hfl
        · exact hquiet (Or.inr rfl) g' hw

end ShmIpc.Conn.SendCmd
