import ShmIpc.Lib.LittleEndian
import ShmIpc.Ring.Channel

/-! # Frames: the sending half of `codec.hpp`

A frame is an 8-byte header and a payload that a callback of the caller writes piece by piece.
`Callback` is such a callback with all its choices; `Callback.eval` says, from the batch writer
alone, which of its writes are accepted. `SendFrame` and `SendFrameBatch` look only at the number of
bytes that arrived; `send_whole_or_nothing` shows that this is enough. -/

namespace ShmIpc.Codec.Frame

open ShmIpc.Lib.RelyGuarantee ShmIpc.Lib.LittleEndian
open ShmIpc.Ring.RingBuf ShmIpc.Ring.History ShmIpc.Ring.Writer ShmIpc.Ring.Channel

/-! ### The program -/

/-- `MsgHeader`. -/
structure MsgHeader where
  len : UInt32
  seq : UInt32
  deriving DecidableEq, Repr

/-- `kMsgHeaderSize`. -/
def kMsgHeaderSize : UInt32 := 8

/-- The header in memory. -/
def MsgHeader.bytes (h : MsgHeader) : List UInt8 := le32 h.len ++ le32 h.seq

/-- The header as an argument of `TryWrite`. -/
def MsgHeader.buf (h : MsgHeader) : Buf := ⟨h.bytes, by simp [MsgHeader.bytes]⟩

/-- A `write_payload` callback: it returns, throws, writes a piece and goes on with the result of
`TryWrite`, or asks for a reservation, fills it if it got one, commits it or not, and goes on. -/
inductive Callback : Type
  | done
  | throw
  | tryWrite (data : Option Buf) (k : ℤ → Callback)
  | reserve (src : Buf) (commit : Bool) (k : Bool → Callback)

/-- The callback on a batch; the flag is whether it has thrown. -/
def Callback.exec (cap : Capacity) : Callback → ChannelBatchWriter →
    RingM (Bool × ChannelBatchWriter)
  | .done, b => return (false, b)
  | .throw, b => return (true, b)
  | .tryWrite data k, b => do
    let (rc, b') ← b.tryWrite cap data
    (k rc).exec cap b'
  | .reserve src commit k, b => do
    let (ok, batch) ← b.batch.reserveFill cap src
    (k ok).exec cap (if commit then { b with batch := batch } else b)

/-- How a send ends. -/
inductive Outcome : Type
  | ret (rc : ℤ)
  | threw
  deriving DecidableEq, Repr

/-- `SendFrame` once `WritableBytes` has returned `free`. -/
def sendFrameFrom (cap : Capacity) (payloadLen seq : UInt32) (writePayload : Callback)
    (free : UInt64) : RingM Outcome := do
  let frameSize := kMsgHeaderSize + payloadLen
  if free < frameSize.toUInt64 then
    return .ret (-1)
  let batch ← startBatch
  let (_, batch) ← batch.tryWrite cap (some (MsgHeader.buf ⟨payloadLen, seq⟩))
  let (threw, batch) ← writePayload.exec cap batch
  if threw then
    batch.cancel.destroy
    return .threw
  if batch.batch.pendingBytes ≠ frameSize.toUInt64 then
    batch.cancel.destroy
    return .ret (-1)
  let (_, batch) ← batch.flush
  batch.destroy
  return .ret 0

/-- `SendFrame`. -/
def sendFrame (cap : Capacity) (payloadLen seq : UInt32) (writePayload : Callback) :
    RingM Outcome := do
  let free ← writableBytes cap
  sendFrameFrom cap payloadLen seq writePayload free

/-- `SendFrameBatch`. -/
def sendFrameBatch (cap : Capacity) (batch : ChannelBatchWriter) (payloadLen seq : UInt32)
    (writePayload : Callback) : RingM (Outcome × ChannelBatchWriter) := do
  let frameSize := kMsgHeaderSize + payloadLen
  if batch.batch.freeBytes cap < frameSize.toUInt64 then
    return (.ret (-1), batch)
  let before := batch.batch.pendingBytes
  let beforeCount := batch.batch.count
  let (_, batch) ← batch.tryWrite cap (some (MsgHeader.buf ⟨payloadLen, seq⟩))
  let (threw, batch) ← writePayload.exec cap batch
  if threw then
    return (.threw, batch.rewindTo before beforeCount)
  if batch.batch.pendingBytes - before ≠ frameSize.toUInt64 then
    return (.ret (-1), batch.rewindTo before beforeCount)
  return (.ret 0, batch)

/-! ### The callback -/

/-- What a callback has done. -/
structure Callback.Result where
  /-- the accepted pieces, in order -/
  written : List UInt8
  /-- the batch writer at its end -/
  batch : BatchWriter
  /-- whether it has thrown -/
  threw : Bool

/-- The result with an accepted piece before it. -/
def Callback.Result.cons (src : Buf) (r : Callback.Result) : Callback.Result :=
  { r with written := src.bytes ++ r.written }

/-- The result of a callback, as the batch writer decides it. -/
def Callback.eval (cap : Capacity) : Callback → BatchWriter → Callback.Result
  | .done, b => ⟨[], b, false⟩
  | .throw, b => ⟨[], b, true⟩
  | .tryWrite none k, b => (k (-1)).eval cap b
  | .tryWrite (some src) k, b =>
    if b.Rejects cap src.len then (k (-1)).eval cap b
    else ((k 0).eval cap (b.advance src.len)).cons src
  | .reserve src commit k, b =>
    if b.reserve cap src.len = none then (k false).eval cap b
    else if commit then ((k true).eval cap (b.advance src.len)).cons src
    else (k true).eval cap b

variable {cap : Capacity} {base : ℕ} {g g' : World} {b : BatchWriter} {rc : ℕ} {l : List UInt8}
  {payloadLen seq : UInt32} {cb : Callback}

/-- Going back to the recorded counters gives back the batch writer as it was. -/
theorem rewindTo_eq {g₁ : World} {b₁ : BatchWriter} {l₁ : List UInt8}
    (hb : Pending cap base g b rc l) (hb₁ : Pending cap base g₁ b₁ rc (l ++ l₁))
    (hp : g₁.published = g.published) :
    b₁.rewindTo b.pendingBytes b.count = b ∧ Pending cap base g₁ b rc l := by
  have hle : b.pendingBytes ≤ b₁.pendingBytes := by
    rw [UInt64.le_iff_toNat_le, hb.toNat_pendingBytes, hb₁.toNat_pendingBytes, List.length_append]
    omega
  have e : b₁.rewindTo b.pendingBytes b.count = b := by
    unfold BatchWriter.rewindTo BatchWriter.pendingBytes
    have h1 : b₁.wStart = b.wStart := by rw [hb₁.wStart, hb.wStart, hp]
    have h2 : b₁.r = b.r := by rw [hb₁.r, hb.r]
    have h3 : b₁.hdr = b.hdr := by rw [hb₁.hdr, hb.hdr]
    rw [h1, h2, h3, UInt64.add_comm, UInt64.sub_add_cancel]
  have hr := hb₁.rewindTo b.count hle
  rw [e, hb.toNat_pendingBytes, List.take_left] at hr
  exact ⟨e, hr⟩

/-- The callback publishes nothing, and the batch holds what it had and the accepted pieces. -/
theorem callback_spec {Q : Bool × ChannelBatchWriter → World → Prop} :
    ∀ {c : Callback} {g : World} {b : BatchWriter} {l : List UInt8},
      Pending cap base g b rc l →
      (∀ g', Wrote cap base g g'.shm.data [] g' →
        Pending cap base g' (c.eval cap b).batch rc (l ++ (c.eval cap b).written) →
        Q ((c.eval cap b).threw, ⟨(c.eval cap b).batch, true⟩) g') →
      wpW cap base (c.exec cap ⟨b, true⟩) Q g
  | .done, g, b, l, hb, h => h g (wrote_refl hb.inv) (by rw [Callback.eval]; simpa using hb)
  | .throw, g, b, l, hb, h => h g (wrote_refl hb.inv) (by rw [Callback.eval]; simpa using hb)
  | .tryWrite none k, g, b, l, hb, h => callback_spec (c := k (-1)) hb h
  | .tryWrite (some src) k, g, b, l, hb, h => by
    rw [Callback.exec, ChannelBatchWriter.tryWrite, wpW, Prog.wp_bind, Prog.wp_bind]
    refine batchTryWrite_spec hb (fun src' g₁ hs hrej hw hp => ?_) (fun hrej => ?_)
    · cases hs
      rw [Callback.eval, if_neg hrej] at h
      refine callback_spec (c := k 0) hp fun g₂ h₂ hp₂ => h g₂ (hw.trans h₂) ?_
      rw [List.append_assoc] at hp₂
      exact hp₂
    · rw [Callback.eval, if_pos (hrej src rfl)] at h
      exact callback_spec (c := k (-1)) hb h
  | .reserve src commit k, g, b, l, hb, h => by
    rw [Callback.exec, wpW, Prog.wp_bind]
    refine reserveFill_spec hb (fun g₁ hsome hw hp => ?_) (fun hnone => ?_)
    · rw [Callback.eval, if_neg hsome] at h
      cases commit with
      | true =>
        refine callback_spec (c := k true) hp fun g₂ h₂ hp₂ => h g₂ (hw.trans h₂) ?_
        rw [List.append_assoc] at hp₂
        exact hp₂
      | false =>
        have hpub : g₁.published = g.published := by rw [hw.published, List.append_nil]
        exact callback_spec (c := k true) (rewindTo_eq hb hp hpub).2 fun g₂ h₂ hp₂ =>
          h g₂ (hw.trans h₂) hp₂
    · rw [Callback.eval, if_pos hnone] at h
      simp only [ite_self]
      exact callback_spec (c := k false) hb h

/-- What the callback leaves comes from accepted writes. -/
theorem eval_grown {b₀ : BatchWriter} {l₀ : List UInt8} (cap : Capacity) :
    ∀ (cb : Callback) {b : BatchWriter} {l : List UInt8}, Grown cap b₀ l₀ b l →
      Grown cap b₀ l₀ (cb.eval cap b).batch (l ++ (cb.eval cap b).written)
  | .done, b, l, h => by rw [Callback.eval]; simpa using h
  | .throw, b, l, h => by rw [Callback.eval]; simpa using h
  | .tryWrite none k, b, l, h => eval_grown cap (k (-1)) h
  | .tryWrite (some src) k, b, l, h => by
    rw [Callback.eval]
    split_ifs with hrej
    · exact eval_grown cap _ h
    · have ih := eval_grown cap (k 0) (h.write hrej)
      rw [List.append_assoc] at ih
      exact ih
  | .reserve src commit k, b, l, h => by
    rw [Callback.eval]
    split_ifs with hres hcommit
    · exact eval_grown cap _ h
    · have hrej : ¬ b.Rejects cap src.len := by
        intro hrej
        exact hres (if_pos hrej)
      have ih := eval_grown cap (k true) (h.write hrej)
      rw [List.append_assoc] at ih
      exact ih
    · exact eval_grown cap _ h

/-! ### `SendFrameBatch` -/

@[simp] theorem MsgHeader.length_bytes (h : MsgHeader) : h.bytes.length = 8 := rfl

@[simp] theorem MsgHeader.bytes_buf (h : MsgHeader) : h.buf.bytes = h.bytes := rfl

theorem toNat_frameSize (hlen : payloadLen.toNat ≤ 4294967287) :
    (kMsgHeaderSize + payloadLen).toUInt64.toNat = 8 + payloadLen.toNat := by
  rw [UInt32.toNat_toUInt64, UInt32.toNat_add]
  show (8 + payloadLen.toNat) % 2 ^ 32 = _
  omega

/-- The result of the callback of a frame on a batch that has just taken the header. -/
def frameResult (cap : Capacity) (cb : Callback) (b : BatchWriter) : Callback.Result :=
  cb.eval cap (b.advance kMsgHeaderSize)

/-- The send succeeds: the free space `free` is enough, and the callback writes what it said. -/
def FrameOk (free : ℕ) (payloadLen : UInt32) (r : Callback.Result) : Prop :=
  8 + payloadLen.toNat ≤ free ∧ r.threw = false ∧ r.written.length = payloadLen.toNat

/-- Where the frame fits, its header is accepted. -/
theorem header_spec {Q : ℤ × ChannelBatchWriter → World → Prop} (hdr : MsgHeader)
    (hb : Pending cap base g b rc l) (hfit : g.published.length + l.length + 8 ≤ rc + cap.val)
    (h : ∀ g', Wrote cap base g g'.shm.data [] g' →
      Pending cap base g' (b.advance kMsgHeaderSize) rc (l ++ hdr.bytes) →
      Q (0, ⟨b.advance kMsgHeaderSize, true⟩) g') :
    wpW cap base (ChannelBatchWriter.tryWrite cap ⟨b, true⟩ (some hdr.buf)) Q g := by
  have hge := cap.ge
  unfold ChannelBatchWriter.tryWrite
  rw [wpW, Prog.wp_bind]
  refine batchTryWrite_spec hb (fun src g₁ hs hrej hw hp => ?_) (fun hrej => ?_)
  · cases hs
    have hd := hw.data
    rw [← hd] at hw
    exact h g₁ hw hp
  · have hrej := hrej hdr.buf rfl
    rw [hb.rejects_iff] at hrej
    unfold Capacity.maxWriteSize at hrej
    simp only [MsgHeader.bytes_buf, MsgHeader.length_bytes] at hrej
    omega

/-- `SendFrameBatch` adds the whole frame to the batch, or gives the batch back as it was. -/
theorem sendFrameBatch_spec {Q : Outcome × ChannelBatchWriter → World → Prop}
    (hb : Pending cap base g b rc l) (hlen : payloadLen.toNat ≤ 4294967287)
    (hok : ∀ g', FrameOk (b.freeBytes cap).toNat payloadLen (frameResult cap cb b) →
      Wrote cap base g g'.shm.data [] g' →
      Pending cap base g' (frameResult cap cb b).batch rc
        (l ++ (MsgHeader.bytes ⟨payloadLen, seq⟩ ++ (frameResult cap cb b).written)) →
      Q (.ret 0, ⟨(frameResult cap cb b).batch, true⟩) g')
    (hfail : ∀ out g', ¬ FrameOk (b.freeBytes cap).toNat payloadLen (frameResult cap cb b) →
      out = .ret (-1) ∨ out = .threw → Wrote cap base g g'.shm.data [] g' →
      Pending cap base g' b rc l → Q (out, ⟨b, true⟩) g') :
    wpW cap base (sendFrameBatch cap ⟨b, true⟩ payloadLen seq cb) Q g := by
  have hsize := toNat_frameSize hlen
  have hfree := hb.toNat_freeBytes
  have hfit := hb.fit
  unfold sendFrameBatch
  simp only []
  split_ifs with hsp
  · rw [UInt64.lt_iff_toNat_lt, hsize] at hsp
    refine hfail _ g (fun hF => ?_) (Or.inl rfl) (wrote_refl hb.inv) hb
    have := hF.1
    omega
  rw [UInt64.lt_iff_toNat_lt, hsize] at hsp
  rw [wpW, Prog.wp_bind]
  refine header_spec ⟨payloadLen, seq⟩ hb (by omega) fun g₁ h₁ hp₁ => ?_
  rw [Prog.wp_bind]
  refine callback_spec hp₁ fun g₂ h₂ hp₂ => ?_
  rw [List.append_assoc] at hp₂
  have h12 := h₁.trans h₂
  have hpub : g₂.published = g.published := by rw [h12.published]; simp
  obtain ⟨hrew, hback⟩ := rewindTo_eq hb hp₂ hpub
  -- what is there beyond the old bytes, as the code counts it
  have hcount : ((frameResult cap cb b).batch.pendingBytes - b.pendingBytes).toNat =
      8 + (frameResult cap cb b).written.length := by
    have h3 := hp₂.toNat_pendingBytes
    have h4 := hb.toNat_pendingBytes
    rw [List.length_append, List.length_append, MsgHeader.length_bytes] at h3
    unfold frameResult
    rw [UInt64.toNat_sub_of_le _ _ (by rw [UInt64.le_iff_toNat_le]; omega)]
    omega
  show wpW cap base (if (frameResult cap cb b).threw = true then _ else _) Q g₂
  split_ifs with hthrew hne
  · refine (congrArg (fun x => Q (Outcome.threw, ⟨x, true⟩) g₂) hrew).mpr ?_
    refine hfail _ g₂ (fun hF => ?_) (Or.inr rfl) h12 hback
    rw [hF.2.1] at hthrew
    exact Bool.false_ne_true hthrew
  · refine (congrArg (fun x => Q (Outcome.ret (-1), ⟨x, true⟩) g₂) hrew).mpr ?_
    refine hfail _ g₂ (fun hF => hne ?_) (Or.inl rfl) h12 hback
    apply UInt64.toNat_inj.mp
    rw [hsize, ← hF.2.2]
    exact hcount
  · have heq := congrArg UInt64.toNat (not_not.mp hne)
    rw [hsize] at heq
    refine hok g₂ ⟨by omega, by simpa using hthrew, ?_⟩ h12 hp₂
    have := hcount.symm.trans heq
    omega

/-! ### `SendFrame` -/

/-- The batch writer that starts when `n` bytes are published and `rc` are released. -/
def snapshot (base n rc : ℕ) : BatchWriter where
  w := UInt64.ofNat (base + n)
  r := UInt64.ofNat (base + rc)
  wStart := UInt64.ofNat (base + n)
  count := 0
  hdr := true

theorem eq_snapshot (hb : Pending cap base g b rc []) (hc : b.count = 0) :
    b = snapshot base g.published.length rc := by
  rcases b with ⟨w, r, wStart, count, hdr⟩
  have h1 : w = _ := hb.w
  have h2 : r = _ := hb.r
  have h3 : wStart = _ := hb.wStart
  have h4 : hdr = _ := hb.hdr
  have h5 : count = 0 := hc
  rw [h1, h2, h3, h4, h5]
  rfl

/-- A batch that starts with a header has counted it. -/
theorem frameResult_count_pos (cap : Capacity) (cb : Callback) (hc : b.count = 0) :
    0 < (frameResult cap cb b).batch.count := by
  have h1 : (b.advance kMsgHeaderSize).count = b.count + 1 := rfl
  have hne : MsgHeader.bytes ⟨0, 0⟩ ≠ [] := List.ne_nil_of_length_pos (by simp)
  have h2 : Counted (b.advance kMsgHeaderSize) (MsgHeader.bytes ⟨0, 0⟩) :=
    ⟨by omega, fun _ => hne, fun _ => by omega⟩
  refine ((eval_grown cap cb .refl).counted h2).2.mpr fun he => ?_
  exact hne (List.append_eq_nil_iff.mp he).1

/-- Dropping a cancelled batch leaves no trace. -/
theorem cancel_destroy_spec {Q : Outcome → World → Prop} {out : Outcome}
    (hb : Pending cap base g b rc l)
    (h : ∀ g', Wrote cap base g g'.shm.data [] g' → Q out g') :
    wpW cap base (do
      ChannelBatchWriter.destroy (ChannelBatchWriter.cancel ⟨b, true⟩)
      pure out) Q g := by
  rw [wpW, Prog.wp_bind]
  exact destroy_nil_spec hb.cancel rfl fun g' hw => h g' hw

/-- `SendFrame`, from the free space it has seen: it publishes the whole frame and rings once, or
does neither. -/
theorem sendFrameFrom_spec {Q : Outcome → World → Prop} {free : UInt64} (hi : Inv cap base g)
    (hlen : payloadLen.toNat ≤ 4294967287)
    (hfree : free.toNat ≤ g.consumed + cap.val - g.published.length)
    (hok : ∀ rc g', g.consumed ≤ rc → rc ≤ g'.consumed →
      FrameOk free.toNat payloadLen (frameResult cap cb (snapshot base g.published.length rc)) →
      Flushed cap base g (MsgHeader.bytes ⟨payloadLen, seq⟩ ++
        (frameResult cap cb (snapshot base g.published.length rc)).written) True g' →
      Q (.ret 0) g')
    (hfail : ∀ rc out g', g.consumed ≤ rc → rc ≤ g'.consumed →
      ¬ FrameOk free.toNat payloadLen (frameResult cap cb (snapshot base g.published.length rc)) →
      out = .ret (-1) ∨ out = .threw → Wrote cap base g g'.shm.data [] g' → Q out g') :
    wpW cap base (sendFrameFrom cap payloadLen seq cb free) Q g := by
  have hsize := toNat_frameSize hlen
  unfold sendFrameFrom
  simp only []
  split_ifs with hsp
  · rw [UInt64.lt_iff_toNat_lt, hsize] at hsp
    refine hfail g.consumed _ g le_rfl le_rfl (fun hF => ?_) (Or.inl rfl) (wrote_refl hi)
    have := hF.1
    omega
  rw [UInt64.lt_iff_toNat_lt, hsize] at hsp
  rw [wpW, Prog.wp_bind]
  refine startBatch_spec hi fun b g₁ h₁ hc hp₁ => ?_
  have hpub₁ : g₁.published = g.published := by rw [h₁.published, List.append_nil]
  have hsnap := eq_snapshot hp₁ hc
  rw [hpub₁] at hsnap
  rw [h₁.data.symm] at h₁
  rw [Prog.wp_bind]
  have hc₁ := h₁.consumed
  have hle₁ := h₁.inv.le
  refine header_spec ⟨payloadLen, seq⟩ hp₁ (by rw [hpub₁, List.length_nil]; omega)
    fun g₂ h₂ hp₂ => ?_
  rw [Prog.wp_bind]
  refine callback_spec hp₂ fun g₃ h₃ hp₃ => ?_
  have h13 := (h₁.trans h₂).trans h₃
  have hc₃ : g₁.consumed ≤ g₃.consumed := h₂.consumed.trans h₃.consumed
  rw [List.nil_append] at hp₃
  -- what the code counts is the header and the accepted pieces
  have hcount : (frameResult cap cb b).batch.pendingBytes.toNat =
      8 + (frameResult cap cb b).written.length := by
    have h4 := hp₃.toNat_pendingBytes
    rw [List.length_append, MsgHeader.length_bytes] at h4
    exact h4
  have hok := fun g' => hok g₁.consumed g' hc₁
  have hfail := fun out g' => hfail g₁.consumed out g' hc₁
  rw [← hsnap] at hok hfail
  show wpW cap base (if (frameResult cap cb b).threw = true then _ else _) Q g₃
  split_ifs with hthrew hne
  · refine cancel_destroy_spec hp₃ fun g₄ h₄ => ?_
    refine hfail _ g₄ (hc₃.trans h₄.consumed) (fun hF => ?_) (Or.inr rfl) (h13.trans h₄)
    rw [hF.2.1] at hthrew
    exact Bool.false_ne_true hthrew
  · refine cancel_destroy_spec hp₃ fun g₄ h₄ => ?_
    refine hfail _ g₄ (hc₃.trans h₄.consumed) (fun hF => hne ?_) (Or.inl rfl) (h13.trans h₄)
    apply UInt64.toNat_inj.mp
    rw [hsize, ← hF.2.2]
    exact hcount
  · have heq := congrArg UInt64.toNat (not_not.mp hne)
    rw [hsize] at heq
    have hF : FrameOk free.toNat payloadLen (frameResult cap cb b) := by
      refine ⟨by omega, by simpa using hthrew, ?_⟩
      have := hcount.symm.trans heq
      omega
    have hpos := frameResult_count_pos cap cb hc
    rw [wpW, Prog.wp_bind]
    refine channelFlush_spec hp₃ fun g₄ h₄ hp₄ => ?_
    rw [Prog.wp_bind]
    refine destroy_nil_spec hp₄ rfl fun g₅ h₅ => ?_
    exact hok g₅ ((hc₃.trans h₄.consumed).trans h₅.consumed) hF
      ((Flushed.of_wrote h13 h₄ hpos).trans_wrote h₅)

/-- **`SendFrame` is all or nothing.** -/
theorem sendFrame_spec {Q : Outcome → World → Prop} (hi : Inv cap base g)
    (hlen : payloadLen.toNat ≤ 4294967287)
    (hok : ∀ rc g', g.consumed ≤ rc → rc ≤ g'.consumed → 8 + payloadLen.toNat ≤ cap.val →
      (frameResult cap cb (snapshot base g.published.length rc)).written.length =
        payloadLen.toNat →
      Flushed cap base g (MsgHeader.bytes ⟨payloadLen, seq⟩ ++
        (frameResult cap cb (snapshot base g.published.length rc)).written) True g' →
      Q (.ret 0) g')
    (hfail : ∀ out g', out = .ret (-1) ∨ out = .threw → Wrote cap base g g'.shm.data [] g' →
      Q out g') :
    wpW cap base (sendFrame cap payloadLen seq cb) Q g := by
  unfold sendFrame
  rw [wpW, Prog.wp_bind]
  refine writableBytes_spec hi fun free g₁ h₁ hfree => ?_
  have hpub₁ : g₁.published = g.published := by rw [h₁.published, List.append_nil]
  refine sendFrameFrom_spec h₁.inv hlen (by rw [hpub₁]; omega) ?_ ?_
  · intro rc g' h2 h3 hF hfl
    rw [hpub₁] at hF hfl
    have hle := h₁.inv.le
    rw [hpub₁] at hle
    have hfl' := Flushed.of_wrote h₁ hfl trivial
    exact hok rc g' (h₁.consumed.trans h2) h3 (by have := hF.1; omega) hF.2.2 hfl'
  · intro rc out g' h2 h3 hF hout hw
    exact hfail out g' hout (h₁.trans hw)

/-! ### Frames of any length -/

/-- `TryWrite` on a batch, whatever it is given. -/
theorem write_safe {Q : ℤ × ChannelBatchWriter → World → Prop} (hb : Pending cap base g b rc l)
    (data : Option Buf)
    (h : ∀ n b' l' g', Wrote cap base g g'.shm.data [] g' → Pending cap base g' b' rc (l ++ l') →
      Grown cap b l b' (l ++ l') → Q (n, ⟨b', true⟩) g') :
    wpW cap base (ChannelBatchWriter.tryWrite cap ⟨b, true⟩ data) Q g := by
  unfold ChannelBatchWriter.tryWrite
  rw [wpW, Prog.wp_bind]
  refine batchTryWrite_spec hb (fun src g₁ _ hrej hw hp => ?_) fun _ => ?_
  · have hd := hw.data
    rw [← hd] at hw
    exact h _ _ src.bytes g₁ hw hp (.write .refl hrej)
  · have hg : Grown cap b l b (l ++ []) := by rw [List.append_nil]; exact .refl
    rw [← List.append_nil l] at hb
    exact h _ _ [] g (wrote_refl hb.inv) hb hg

theorem destroy_safe {Q : Unit → World → Prop} (hb : Pending cap base g b rc l)
    (h : ∀ g', Inv cap base g' → (Counted b l → Rung g → Rung g') → Q () g') :
    wpW cap base (ChannelBatchWriter.destroy ⟨b, true⟩) Q g := by
  unfold ChannelBatchWriter.destroy
  rw [wpW, Prog.wp_bind]
  refine channelFlush_spec hb fun g₁ h₁ hp₁ => ?_
  rw [Prog.wp_bind]
  exact flush_spec hp₁ fun g₂ h₂ _ => h g₂ h₂.inv fun hc hr => (hr.flushed hc h₁).wrote h₂

/-- `SendFrame` keeps the ring well formed for every length, also where the 32-bit frame size
wraps, and rings whatever it publishes. -/
theorem sendFrame_safe {Q : Outcome → World → Prop} (hi : Inv cap base g)
    (h : ∀ out g', Inv cap base g' → (Rung g → Rung g') → Q out g') :
    wpW cap base (sendFrame cap payloadLen seq cb) Q g := by
  unfold sendFrame sendFrameFrom
  rw [wpW, Prog.wp_bind]
  refine writableBytes_spec hi fun free g₁ h₁ _ => ?_
  simp only []
  split_ifs
  · exact h _ g₁ h₁.inv fun hr => hr.wrote h₁
  rw [Prog.wp_bind]
  refine startBatch_spec h₁.inv fun b g₂ h₂ hc₂ hp₂ => ?_
  rw [Prog.wp_bind]
  refine write_safe hp₂ _ fun n b₃ l₃ g₃ h₃ hp₃ hc₃ => ?_
  rw [Prog.wp_bind]
  refine callback_spec hp₃ fun g₄ h₄ hp₄ => ?_
  have hr₄ : Rung g → Rung g₄ := fun hr => (((hr.wrote h₁).wrote h₂).wrote h₃).wrote h₄
  have hc₄ := (eval_grown cap cb hc₃).counted (counted_nil hc₂)
  simp only []
  split_ifs
  · rw [Prog.wp_bind]
    exact destroy_safe hp₄.cancel fun g₅ h₅ hr₅ =>
      h _ g₅ h₅ fun hr => hr₅ (counted_nil rfl) (hr₄ hr)
  · rw [Prog.wp_bind]
    exact destroy_safe hp₄.cancel fun g₅ h₅ hr₅ =>
      h _ g₅ h₅ fun hr => hr₅ (counted_nil rfl) (hr₄ hr)
  · rw [Prog.wp_bind]
    refine channelFlush_spec hp₄ fun g₅ h₅ hp₅ => ?_
    rw [Prog.wp_bind]
    exact destroy_safe hp₅ fun g₆ h₆ hr₆ =>
      h _ g₆ h₆ fun hr => hr₆ (counted_nil rfl) ((hr₄ hr).flushed hc₄ h₅)

/-- `SendFrameBatch` keeps the batch live for every length. -/
theorem sendFrameBatch_safe {Q : Outcome × ChannelBatchWriter → World → Prop}
    (hb : Pending cap base g b rc l)
    (h : ∀ out b' l' g', Wrote cap base g g'.shm.data [] g' → Pending cap base g' b' rc l' →
      Grown cap b l b' l' → Q (out, ⟨b', true⟩) g') :
    wpW cap base (sendFrameBatch cap ⟨b, true⟩ payloadLen seq cb) Q g := by
  unfold sendFrameBatch
  simp only []
  split_ifs
  · exact h _ _ _ g (wrote_refl hb.inv) hb .refl
  rw [wpW, Prog.wp_bind]
  refine write_safe hb _ fun n b₁ l₁ g₁ h₁ hp₁ hc₁ => ?_
  rw [Prog.wp_bind]
  refine callback_spec hp₁ fun g₂ h₂ hp₂ => ?_
  have h12 := h₁.trans h₂
  have hpub : g₂.published = g.published := by rw [h12.published]; simp
  rw [List.append_assoc] at hp₂
  obtain ⟨hrew, hback⟩ := rewindTo_eq hb hp₂ hpub
  simp only []
  split_ifs
  · refine (congrArg (fun x => Q (Outcome.threw, ⟨x, true⟩) g₂) hrew).mpr ?_
    exact h _ _ _ g₂ h12 hback .refl
  · refine (congrArg (fun x => Q (Outcome.ret (-1), ⟨x, true⟩) g₂) hrew).mpr ?_
    exact h _ _ _ g₂ h12 hback .refl
  · refine h _ _ _ g₂ h12 hp₂ ?_
    rw [← List.append_assoc]
    exact eval_grown cap cb hc₁

/-! ### Callbacks that keep their word -/

/-- The callback writes `n` bytes in pieces of `1 .. Capacity / 2` bytes and does not throw, if all
its writes are accepted; where a reservation is refused (it would cross the ring end), it writes
the piece in another way. -/
inductive Callback.Fills (cap : Capacity) : ℕ → Callback → Prop
  | done : Fills cap 0 .done
  | tryWrite {n : ℕ} {src : Buf} {k : ℤ → Callback} (hpos : 0 < src.bytes.length)
      (hmax : src.bytes.length ≤ cap.maxWriteSize) (h : Fills cap n (k 0)) :
      Fills cap (src.bytes.length + n) (.tryWrite (some src) k)
  | reserve {n : ℕ} {src : Buf} {k : Bool → Callback} (hpos : 0 < src.bytes.length)
      (hmax : src.bytes.length ≤ cap.maxWriteSize) (h : Fills cap n (k true))
      (h' : Fills cap (src.bytes.length + n) (k false)) :
      Fills cap (src.bytes.length + n) (.reserve src true k)

/-- The bytes in use, as of the snapshot, after one more piece. -/
theorem toNat_advance (src : Buf) (h : (b.w - b.r).toNat ≤ cap.val) :
    ((b.w + src.len.toUInt64) - b.r).toNat = (b.w - b.r).toNat + src.bytes.length := by
  have hcap := cap.lt
  have hsrc := src.lt
  have e : (b.w + src.len.toUInt64) - b.r = (b.w - b.r) + src.len.toUInt64 := by
    rw [UInt64.sub_eq_add_neg, UInt64.sub_eq_add_neg, UInt64.add_assoc,
      UInt64.add_comm src.len.toUInt64, UInt64.add_assoc]
  rw [e, UInt64.toNat_add, toUInt64_len, UInt64.toNat_ofNat', Nat.mod_eq_of_lt (by omega),
    Nat.mod_eq_of_lt (by omega)]

/-- A piece within the free space is accepted, and the free space shrinks by it. -/
theorem not_rejects (src : Buf) {n : ℕ} (hpos : 0 < src.bytes.length)
    (hmax : src.bytes.length ≤ cap.maxWriteSize)
    (hroom : (b.w - b.r).toNat + (src.bytes.length + n) ≤ cap.val) :
    ¬ b.Rejects cap src.len ∧
      ((b.advance src.len).w - (b.advance src.len).r).toNat + n ≤ cap.val := by
  have hused : (b.w - b.r).toNat ≤ cap.val := by omega
  have hd := toNat_advance src hused
  refine ⟨fun hrej => ?_, ?_⟩
  · rcases hrej with h | h | h
    · rw [len_eq_zero] at h; omega
    · rw [Buf.toNat_len] at h; omega
    · rw [UInt64.lt_iff_toNat_lt, hd, cap.toNat_word] at h; omega
  · show ((b.w + src.len.toUInt64) - b.r).toNat + n ≤ cap.val
    rw [hd]; omega

theorem Callback.Fills.eval {n : ℕ} {cb : Callback} (h : cb.Fills cap n) :
    ∀ {b : BatchWriter}, (b.w - b.r).toNat + n ≤ cap.val →
      (cb.eval cap b).threw = false ∧ (cb.eval cap b).written.length = n := by
  induction h with
  | done => intro b _; exact ⟨rfl, rfl⟩
  | @tryWrite n src k hpos hmax _ ih =>
    intro b hroom
    obtain ⟨hrej, hroom'⟩ := not_rejects src hpos hmax hroom
    obtain ⟨h1, h2⟩ := ih hroom'
    rw [Callback.eval, if_neg hrej]
    exact ⟨h1, by simp [Callback.Result.cons, h2]⟩
  | @reserve n src k hpos hmax _ _ ih ih' =>
    intro b hroom
    rw [Callback.eval, if_pos rfl]
    split_ifs
    · exact ih' hroom
    · obtain ⟨h1, h2⟩ := ih (not_rejects src hpos hmax hroom).2
      exact ⟨h1, by simp [Callback.Result.cons, h2]⟩

/-- With enough free space, such a callback makes the frame. -/
theorem Callback.Fills.frameOk {free : ℕ} (h : cb.Fills cap payloadLen.toNat)
    (hfree : 8 + payloadLen.toNat ≤ free) (hroom : (b.w - b.r).toNat + free ≤ cap.val) :
    FrameOk free payloadLen (frameResult cap cb b) := by
  have hge := cap.ge
  have hmax : (MsgHeader.buf ⟨0, 0⟩).bytes.length ≤ cap.maxWriteSize := by
    simp [Capacity.maxWriteSize]; omega
  have hroom' := (not_rejects (b := b) (n := payloadLen.toNat) _ (by simp) hmax (by simp; omega)).2
  exact ⟨hfree, h.eval hroom'⟩

/-! ### Whole frame or nothing -/

/-- Runs of a writer's program, with any progress of the reader before each access. -/
abbrev Runs {α : Type} (cap : Capacity) (p : RingM α) (g : World) (a : α) (g' : World) : Prop :=
  p.Exec (World.exec cap) RStep g a g'

/-- What `SendFrame` leaves: the frame with the pieces that the callback got accepted, rung once. -/
def Whole (cap : Capacity) (base : ℕ) (hdr : MsgHeader) (cb : Callback) (g g' : World) : Prop :=
  ∃ rc, g.consumed ≤ rc ∧ rc ≤ g'.consumed ∧
    (frameResult cap cb (snapshot base g.published.length rc)).written.length = hdr.len.toNat ∧
    g'.published = g.published ++
      (hdr.bytes ++ (frameResult cap cb (snapshot base g.published.length rc)).written) ∧
    g'.notified = g.notified + 1

/-- The writer has left nothing: `write_pos`, the published bytes and the eventfd are as before, up
to the reader's own draining. -/
def Nothing (g g' : World) : Prop :=
  g'.shm.writePos = g.shm.writePos ∧ g'.published = g.published ∧ g'.notified = g.notified ∧
    (g'.shm.efd = g.shm.efd ∨ g'.shm.efd = 0)

theorem nothing_of_wrote (hi : Inv cap base g) (h : Wrote cap base g g'.shm.data [] g') :
    Nothing g g' := by
  have hp : g'.published = g.published := by rw [h.published, List.append_nil]
  exact ⟨by rw [h.inv.writePos, hi.writePos, hp], hp, h.notified, h.efd⟩

theorem sendFrame_runs (hi : Inv cap base g) (hlen : payloadLen.toNat ≤ 4294967287)
    {out : Outcome} (h : Runs cap (sendFrame cap payloadLen seq cb) g out g') :
    (out = .ret 0 ∧ Whole cap base ⟨payloadLen, seq⟩ cb g g') ∨
      ((out = .ret (-1) ∨ out = .threw) ∧ Nothing g g') := by
  have hwp : wpW cap base (sendFrame cap payloadLen seq cb)
      (fun out g' => (out = .ret 0 ∧ Whole cap base ⟨payloadLen, seq⟩ cb g g') ∨
        ((out = .ret (-1) ∨ out = .threw) ∧ Nothing g g')) g := by
    refine sendFrame_spec hi hlen (fun rc g' h1 h2 _ hw hfl => ?_) fun out g' ho hw => ?_
    · exact Or.inl ⟨rfl, rc, h1, h2, hw, hfl.published, (hfl.notified trivial).1⟩
    · exact Or.inr ⟨ho, nothing_of_wrote hi hw⟩
  have hQ := Prog.wp_exec h hwp
  exact hQ

theorem sendFrameBatch_runs (hb : Pending cap base g b rc l)
    (hlen : payloadLen.toNat ≤ 4294967287) {out : Outcome} {b' : ChannelBatchWriter}
    (h : Runs cap (sendFrameBatch cap ⟨b, true⟩ payloadLen seq cb) g (out, b') g') :
    Nothing g g' ∧
      ((out = .ret 0 ∧ FrameOk (b.freeBytes cap).toNat payloadLen (frameResult cap cb b) ∧
        Pending cap base g' b'.batch rc
          (l ++ (MsgHeader.bytes ⟨payloadLen, seq⟩ ++ (frameResult cap cb b).written))) ∨
      ((out = .ret (-1) ∨ out = .threw) ∧
        ¬ FrameOk (b.freeBytes cap).toNat payloadLen (frameResult cap cb b) ∧ b' = ⟨b, true⟩ ∧
        Pending cap base g' b rc l)) := by
  have hwp : wpW cap base (sendFrameBatch cap ⟨b, true⟩ payloadLen seq cb)
      (fun p g' => Nothing g g' ∧
        ((p.1 = .ret 0 ∧ FrameOk (b.freeBytes cap).toNat payloadLen (frameResult cap cb b) ∧
          Pending cap base g' p.2.batch rc
            (l ++ (MsgHeader.bytes ⟨payloadLen, seq⟩ ++ (frameResult cap cb b).written))) ∨
        ((p.1 = .ret (-1) ∨ p.1 = .threw) ∧
          ¬ FrameOk (b.freeBytes cap).toNat payloadLen (frameResult cap cb b) ∧ p.2 = ⟨b, true⟩ ∧
          Pending cap base g' b rc l))) g := by
    refine sendFrameBatch_spec hb hlen (fun g' hF hw hp => ?_) fun out g' hF ho hw hp => ?_
    · exact ⟨nothing_of_wrote hb.inv hw, Or.inl ⟨rfl, hF, hp⟩⟩
    · exact ⟨nothing_of_wrote hb.inv hw, Or.inr ⟨ho, hF, rfl, hp⟩⟩
  have hQ := Prog.wp_exec h hwp
  exact hQ

/-- A callback that keeps its word, sent with the free space it needs, arrives. -/
theorem sendFrameFrom_ok (hi : Inv cap base g) (hlen : payloadLen.toNat ≤ 4294967287)
    {free : UInt64} {g₁ : World} {out : Outcome} (hfill : cb.Fills cap payloadLen.toNat)
    (hfree : Runs cap (writableBytes cap) g free g₁) (hsp : 8 + payloadLen.toNat ≤ free.toNat)
    (h : Runs cap (sendFrameFrom cap payloadLen seq cb free) g₁ out g') : out = .ret 0 := by
  obtain ⟨hi₁, hf⟩ : Inv cap base g₁ ∧
      free.toNat = g₁.consumed + cap.val - g₁.published.length := by
    have hwp : wpW cap base (writableBytes cap) (fun free g₁ => Inv cap base g₁ ∧
        free.toNat = g₁.consumed + cap.val - g₁.published.length) g := by
      refine writableBytes_spec hi fun free g₁ hw hf => ⟨hw.inv, ?_⟩
      rw [hw.published, List.append_nil]
      exact hf
    have hQ := Prog.wp_exec hfree hwp
    exact hQ
  have hwp : wpW cap base (sendFrameFrom cap payloadLen seq cb free)
      (fun out _ => out = .ret 0) g₁ := by
    refine sendFrameFrom_spec hi₁ hlen (le_of_eq hf) (fun _ _ _ _ _ _ => rfl) ?_
    intro rc out g' h1 h2 hF _ hw
    refine absurd (hfill.frameOk hsp ?_) hF
    have h3 := hw.inv.le
    have h4 := hi₁.fit
    have h5 := cap.lt
    rw [hw.published, List.append_nil] at h3
    have hroom : ((snapshot base g₁.published.length rc).w -
        (snapshot base g₁.published.length rc).r).toNat = g₁.published.length - rc := by
      unfold snapshot
      rw [toNat_ofNat_sub (by omega) (by omega)]
      omega
    omega
  have hQ := Prog.wp_exec h hwp
  exact hQ

/-- **Whole frame or nothing.** `SendFrame` and `SendFrameBatch` return `0` with exactly the frame
added, or return `-1` or throw with nothing changed; and they do return `0` for a callback that
keeps its word and fits the free space checked at entry. -/
theorem send_whole_or_nothing (hi : Inv cap base g) (payloadLen seq : UInt32)
    (hlen : payloadLen.toNat ≤ 4294967287) (cb : Callback) :
    (∀ out g', Runs cap (sendFrame cap payloadLen seq cb) g out g' →
      (out = .ret 0 ∧ Whole cap base ⟨payloadLen, seq⟩ cb g g') ∨
        ((out = .ret (-1) ∨ out = .threw) ∧ Nothing g g')) ∧
    (∀ b rc l, Pending cap base g b rc l → ∀ out b' g',
      Runs cap (sendFrameBatch cap ⟨b, true⟩ payloadLen seq cb) g (out, b') g' →
      Nothing g g' ∧
        ((out = .ret 0 ∧ (frameResult cap cb b).written.length = payloadLen.toNat ∧
          Pending cap base g' b'.batch rc
            (l ++ (MsgHeader.bytes ⟨payloadLen, seq⟩ ++ (frameResult cap cb b).written))) ∨
        ((out = .ret (-1) ∨ out = .threw) ∧ b' = ⟨b, true⟩ ∧ Pending cap base g' b rc l))) ∧
    (cb.Fills cap payloadLen.toNat →
      (∀ free g₁ out g', Runs cap (writableBytes cap) g free g₁ →
        8 + payloadLen.toNat ≤ free.toNat →
        Runs cap (sendFrameFrom cap payloadLen seq cb free) g₁ out g' → out = .ret 0) ∧
      ∀ b rc l, Pending cap base g b rc l → 8 + payloadLen.toNat ≤ (b.freeBytes cap).toNat →
        ∀ out b' g', Runs cap (sendFrameBatch cap ⟨b, true⟩ payloadLen seq cb) g (out, b') g' →
        out = .ret 0) := by
  refine ⟨fun out g' h => sendFrame_runs hi hlen h, fun b rc l hb out b' g' h => ?_,
    fun hfill => ⟨fun free g₁ out g' hfree hsp h => sendFrameFrom_ok hi hlen hfill hfree hsp h,
      fun b rc l hb hsp out b' g' h => ?_⟩⟩
  · obtain ⟨hn, ⟨h1, h2, h3⟩ | ⟨h1, -, h2, h3⟩⟩ := sendFrameBatch_runs hb hlen h
    · exact ⟨hn, Or.inl ⟨h1, h2.2.2, h3⟩⟩
    · exact ⟨hn, Or.inr ⟨h1, h2, h3⟩⟩
  · obtain ⟨-, ⟨h1, -, -⟩ | ⟨-, hF, -, -⟩⟩ := sendFrameBatch_runs hb hlen h
    · exact h1
    · refine absurd (hfill.frameOk hsp ?_) hF
      have h2 := hb.toNat_freeBytes
      have h3 := hb.fit
      have h4 := hb.le
      have h5 := hb.inv.le
      have h6 := cap.lt
      rw [hb.w, hb.r, toNat_ofNat_sub (by omega) (by omega)]
      omega

/-- A frame of three bytes, from a callback that writes them in two pieces. -/
theorem send_whole_or_nothing_three :
    let cb : Callback := .tryWrite (some ⟨[1, 2], by decide⟩) fun _ =>
      .reserve ⟨[3], by decide⟩ true fun _ => .done
    ∃ g', Runs .min (sendFrame .min 3 7 cb) (.empty 1020 fun _ => 0) (.ret 0) g' ∧
      g'.published = [3, 0, 0, 0, 7, 0, 0, 0, 1, 2, 3] ∧
      Whole .min 1020 ⟨3, 7⟩ cb (.empty 1020 fun _ => 0) g' := by
  intro cb
  have hrun := Prog.exec_run (World.exec .min) rStep_refl (sendFrame .min 3 7 cb)
    (.empty 1020 fun _ => 0)
  have hout : ((sendFrame .min 3 7 cb).run (World.exec .min) (.empty 1020 fun _ => 0)).1 =
      .ret 0 := by decide
  rw [hout] at hrun
  refine ⟨_, hrun, by decide, ?_⟩
  rcases (send_whole_or_nothing (inv_empty .min 1020 _) 3 7 (by decide) cb).1 _ _ hrun with
    ⟨-, h⟩ | ⟨h, -⟩
  · exact h
  · exact absurd h (by decide)

end ShmIpc.Codec.Frame
