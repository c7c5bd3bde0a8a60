import ShmIpc.Ring.Writer

/-! # The channel: `ring_channel.hpp`

A `RingChannel` writes to one ring and rings the peer's eventfd. `ChannelBatchWriter` is a
`BatchWriter` that rings it after a `Flush` that had something to report; `Flushed` says what a
flush does to the world. -/

namespace ShmIpc.Ring.Channel

open ShmIpc.Lib.RelyGuarantee ShmIpc.Lib.Window
open ShmIpc.Ring.RingBuf ShmIpc.Ring.History ShmIpc.Ring.Writer

/-- `NotifyPeer`. -/
def notifyPeer : RingM Unit := Prog.cmd Cmd.notifyPeer

/-- `DrainNotify`. -/
def drainNotify : RingM ℕ := Prog.cmd Cmd.drainNotify

/-- `WritableBytes`. -/
def writableBytes (cap : Capacity) : RingM UInt64 := freeSpace cap

/-- `ChannelBatchWriter`; `channel` is whether `channel_` is non-null. -/
structure ChannelBatchWriter where
  batch : BatchWriter
  channel : Bool
  deriving DecidableEq, Repr

namespace ChannelBatchWriter

/-- `Flush`. -/
def flush (b : ChannelBatchWriter) : RingM (ℤ × ChannelBatchWriter) := do
  let (n, batch) ← b.batch.flush
  if n > 0 ∧ b.channel = true then
    notifyPeer
  return (n, { b with batch := batch })

/-- The destructor: `Flush`, then that of `batch_`. -/
def destroy (b : ChannelBatchWriter) : RingM Unit := do
  let (_, b') ← b.flush
  let _ ← b'.batch.flush
  return ()

/-- `Cancel`. -/
def cancel (b : ChannelBatchWriter) : ChannelBatchWriter := { b with batch := b.batch.cancel }

/-- `RewindTo`. -/
def rewindTo (b : ChannelBatchWriter) (pending : UInt64) (count : ℤ) : ChannelBatchWriter :=
  { b with batch := b.batch.rewindTo pending count }

/-- `TryWrite`. -/
def tryWrite (cap : Capacity) (b : ChannelBatchWriter) (data : Option Buf) :
    RingM (ℤ × ChannelBatchWriter) := do
  let (rc, batch) ← b.batch.tryWrite cap data
  return (rc, { b with batch := batch })

end ChannelBatchWriter

/-- `StartBatch`; the moved-from `BatchWriter` has lost its `hdr_` and flushes nothing. -/
def startBatch : RingM ChannelBatchWriter := do
  let bw ← BatchWriter.make
  let _ ← { bw with hdr := false : BatchWriter }.flush
  return { batch := bw, channel := true }

variable {cap : Capacity} {base : ℕ} {g g' g'' : World} {b : BatchWriter} {rc : ℕ}
  {l : List UInt8} {α : Type}

theorem writableBytes_spec {Q : UInt64 → World → Prop} (hi : Inv cap base g)
    (h : ∀ free g', Wrote cap base g g.shm.data [] g' →
      free.toNat = g'.consumed + cap.val - g.published.length → Q free g') :
    wpW cap base (writableBytes cap) Q g := by
  unfold writableBytes freeSpace available
  rw [wpW, Prog.wp_bind, Prog.wp_bind]
  refine Writer.loadWritePos_spec hi fun g₁ h₁ => ?_
  rw [Prog.wp_bind]
  refine Writer.loadReadPos_spec h₁.inv fun g₂ h₂ => ?_
  have h12 := h₁.trans h₂
  rw [h₁.data, List.append_nil] at h12
  have hp : g₂.published = g.published := by rw [h12.published, List.append_nil]
  have h3 := h12.inv.le
  have h4 := h12.inv.fit
  have h5 := cap.lt
  rw [hp] at h3 h4
  refine h _ g₂ h12 ?_
  have hd : (UInt64.ofNat (base + g.published.length) - UInt64.ofNat (base + g₂.consumed)).toNat =
      g.published.length - g₂.consumed := by
    rw [toNat_ofNat_sub (by omega) (by omega)]
    omega
  rw [UInt64.toNat_sub_of_le _ _ (by rw [UInt64.le_iff_toNat_le, hd, cap.toNat_word]; omega), hd,
    cap.toNat_word]
  omega

/-- The writer has published `l` and rung the eventfd if `ring`. -/
structure Flushed (cap : Capacity) (base : ℕ) (g : World) (l : List UInt8) (ring : Prop)
    (g' : World) : Prop where
  inv : Inv cap base g'
  published : g'.published = g.published ++ l
  consumed : g.consumed ≤ g'.consumed
  notified : ring → g'.notified = g.notified + 1 ∧ g'.rung = g'.published.length
  silent : ¬ ring → g'.notified = g.notified ∧ g'.rung = g.rung ∧
    (g'.shm.efd = g.shm.efd ∨ g'.shm.efd = 0)

/-- Bytes published before a flush that rings are rung with it. -/
theorem Flushed.of_wrote {d : ℕ → UInt8} {l' : List UInt8} {ring : Prop} {g₁ : World}
    (h : Wrote cap base g d l g₁) (h' : Flushed cap base g₁ l' ring g') (hring : ring) :
    Flushed cap base g (l ++ l') True g' where
  inv := h'.inv
  published := by rw [h'.published, h.published, List.append_assoc]
  consumed := h.consumed.trans h'.consumed
  notified _ := by
    rw [← h.notified]
    exact h'.notified hring
  silent hn := absurd trivial hn

theorem Flushed.trans_wrote {d : ℕ → UInt8} {ring : Prop} {g₁ : World}
    (h : Flushed cap base g l ring g₁) (h' : Wrote cap base g₁ d [] g') :
    Flushed cap base g l ring g' where
  inv := h'.inv
  published := by rw [h'.published, List.append_nil, h.published]
  consumed := h.consumed.trans h'.consumed
  notified hring := by
    rw [h'.notified, h'.rung, h'.published, List.append_nil]
    exact h.notified hring
  silent hn := by
    obtain ⟨hnot, hrung, hefd⟩ := h.silent hn
    refine ⟨h'.notified.trans hnot, h'.rung.trans hrung, ?_⟩
    rcases h'.efd with he | he
    · rw [he]
      exact hefd
    · exact Or.inr he

theorem notifyPeer_spec {Q : Unit → World → Prop} (hi : Inv cap base g)
    (h : ∀ g', Flushed cap base g [] True g' → g'.shm.data = g.shm.data → Q () g') :
    wpW cap base notifyPeer Q g := by
  intro g' hr
  have hi' := hr.inv hi
  have hw := wStep_notifyPeer hi'
  refine ⟨hw, h _ ⟨hw.inv hi', ?_, hr.consumed, fun _ => ⟨?_, rfl⟩, fun hn => absurd trivial hn⟩
    hr.data⟩
  · rw [List.append_nil]; exact hr.published
  · show g'.notified + 1 = _
    rw [hr.notified]

/-- `ChannelBatchWriter::Flush` publishes the unpublished bytes and rings if it counted a write. -/
theorem channelFlush_spec {Q : ℤ × ChannelBatchWriter → World → Prop}
    (hb : Pending cap base g b rc l)
    (h : ∀ g', Flushed cap base g l (0 < b.count) g' →
      Pending cap base g' { b with wStart := b.w, count := 0 } rc [] →
      Q (b.count, ⟨{ b with wStart := b.w, count := 0 }, true⟩) g') :
    wpW cap base (ChannelBatchWriter.flush ⟨b, true⟩) Q g := by
  unfold ChannelBatchWriter.flush
  rw [wpW, Prog.wp_bind]
  refine flush_spec hb fun g₁ h₁ hp₁ => ?_
  by_cases hc : 0 < b.count
  · simp only [gt_iff_lt, hc, and_self, if_true]
    rw [Prog.wp_bind]
    refine notifyPeer_spec h₁.inv fun g₂ h₂ hd₂ => ?_
    have hp₂ : g₂.published = g₁.published := by rw [h₂.published, List.append_nil]
    refine h g₂ ⟨h₂.inv, by rw [hp₂, h₁.published], h₁.consumed.trans h₂.consumed,
      fun _ => ⟨?_, (h₂.notified trivial).2⟩, fun hn => absurd hc hn⟩ ?_
    · rw [(h₂.notified trivial).1, h₁.notified]
    · exact ⟨h₂.inv, by rw [hp₂]; exact hp₁.wStart, by rw [hp₂]; exact hp₁.w, hp₁.r,
        hp₁.le.trans h₂.consumed, by rw [hp₂]; exact hp₁.fit, rfl, hp₁.hdr⟩
  · simp only [gt_iff_lt, hc, false_and, if_false]
    exact h g₁ ⟨h₁.inv, h₁.published, h₁.consumed, fun hn => absurd hn hc,
      fun _ => ⟨h₁.notified, h₁.rung, h₁.efd⟩⟩ hp₁

/-! ### Counting and ringing -/

/-- The batch has counted a write if and only if it holds bytes. -/
def Counted (b : BatchWriter) (l : List UInt8) : Prop := 0 ≤ b.count ∧ (0 < b.count ↔ l ≠ [])

theorem counted_nil (h : b.count = 0) : Counted b [] := by
  refine ⟨by omega, fun hc => ?_, fun hn => absurd rfl hn⟩
  omega

/-- An accepted write is counted. -/
theorem Counted.advance {src : Buf} (h : Counted b l) (hrej : ¬ b.Rejects cap src.len) :
    Counted (b.advance src.len) (l ++ src.bytes) := by
  have hne : src.bytes ≠ [] := by
    intro he
    refine hrej (Or.inl ?_)
    rw [len_eq_zero, he, List.length_nil]
  have h0 := h.1
  refine ⟨?_, fun _ he => hne (List.append_eq_nil_iff.mp he).2, fun _ => ?_⟩
  · show 0 ≤ b.count + 1
    omega
  · show 0 < b.count + 1
    omega

/-- Accepted writes lead from the batch `b` with the bytes `l` to the batch and bytes after it. -/
inductive Grown (cap : Capacity) (b : BatchWriter) (l : List UInt8) :
    BatchWriter → List UInt8 → Prop
  | refl : Grown cap b l b l
  | write {b' : BatchWriter} {l' : List UInt8} {src : Buf} (h : Grown cap b l b' l')
      (hrej : ¬ b'.Rejects cap src.len) : Grown cap b l (b'.advance src.len) (l' ++ src.bytes)

theorem Grown.counted {b' : BatchWriter} {l' : List UInt8} (h : Grown cap b l b' l')
    (hc : Counted b l) : Counted b' l' := by
  induction h with
  | refl => exact hc
  | write _ hrej ih => exact ih.advance hrej

/-- All that is published has been rung. -/
def Rung (g : World) : Prop := g.rung = g.published.length

theorem Rung.wrote {d : ℕ → UInt8} (h : Rung g) (hw : Wrote cap base g d [] g') : Rung g' := by
  unfold Rung
  rw [hw.rung, hw.published, List.append_nil]
  exact h

/-- A flush of a batch that has counted its writes rings what it publishes. -/
theorem Rung.flushed (h : Rung g) (hc : Counted b l) (hf : Flushed cap base g l (0 < b.count) g') :
    Rung g' := by
  by_cases hpos : 0 < b.count
  · exact (hf.notified hpos).2
  · have hl : l = [] := not_not.mp fun hne => hpos (hc.2.mpr hne)
    unfold Rung
    rw [(hf.silent hpos).2.1, hf.published, hl, List.append_nil]
    exact h

/-- The destructor of a batch that holds nothing is silent. -/
theorem destroy_nil_spec {Q : Unit → World → Prop} (hb : Pending cap base g b rc [])
    (hc : b.count = 0) (h : ∀ g', Wrote cap base g g'.shm.data [] g' → Q () g') :
    wpW cap base (ChannelBatchWriter.destroy ⟨b, true⟩) Q g := by
  unfold ChannelBatchWriter.destroy
  rw [wpW, Prog.wp_bind]
  refine channelFlush_spec hb fun g₁ h₁ hp₁ => ?_
  rw [Prog.wp_bind]
  refine flush_spec hp₁ fun g₂ h₂ _ => h g₂ ?_
  have h12 := h₁.trans_wrote h₂
  obtain ⟨hn, hr, he⟩ := h12.silent (by omega)
  exact ⟨h12.inv, rfl, h12.published, h12.consumed, hn, hr, he⟩

theorem startBatch_spec {Q : ChannelBatchWriter → World → Prop} (hi : Inv cap base g)
    (h : ∀ b g', Wrote cap base g g.shm.data [] g' → b.count = 0 →
      Pending cap base g' b g'.consumed [] → Q ⟨b, true⟩ g') :
    wpW cap base startBatch Q g := by
  unfold startBatch
  rw [wpW, Prog.wp_bind]
  exact make_spec hi fun b g' hw _ hc _ hp => h b g' hw hc hp

end ShmIpc.Ring.Channel
