import ShmIpc.Codec.Frame

/-! # Publishing and notifying

`ChannelBatchWriter::Flush` stores `write_pos` if the byte position has moved, and notifies the peer
if the counter of writes is positive. Everything else that a batch writer does (writes, rollback in
`SendFrameBatch`, `Cancel`, moves) updates the position and the counter separately, and a moved-from
object is destroyed, and so flushed, as well. `Reach` are the states in which a program can find its
batch writer after any calls; `publish_notify` says that there the position and the counter agree,
so that each call notifies exactly if it publishes. -/

namespace ShmIpc.Codec.Notify

open ShmIpc.Lib.RelyGuarantee
open ShmIpc.Ring.RingBuf ShmIpc.Ring.History ShmIpc.Ring.Writer ShmIpc.Ring.Channel
open ShmIpc.Codec.Frame

/-! ### The program -/

/-- What the move constructor of `ChannelBatchWriter` makes of the object it moves from: `hdr_` and
`channel_` are null, the counters keep their values. The new object is the old one as it was. -/
def movedFrom (o : ChannelBatchWriter) : ChannelBatchWriter where
  batch := { o.batch with hdr := false }
  channel := false

/-- The object in use until it is destroyed, and the moved-from objects that still exist. -/
structure Objects where
  cur : Option ChannelBatchWriter
  moved : List ChannelBatchWriter

/-- The calls of a program, with the number of bytes that each has to publish. -/
inductive Call (cap : Capacity) : Objects → UInt64 → RingM Objects → Prop
  | tryWrite (b : ChannelBatchWriter) (moved : List ChannelBatchWriter) (data : Option Buf) :
      Call cap ⟨some b, moved⟩ 0 (do
        let (_, b) ← b.tryWrite cap data
        return ⟨some b, moved⟩)
  /-- `Reserve` and a fill, with or without `CommitReserve` -/
  | reserve (b : ChannelBatchWriter) (moved : List ChannelBatchWriter) (src : Buf)
      (commit : Bool) :
      Call cap ⟨some b, moved⟩ 0 (do
        let (_, batch) ← b.batch.reserveFill cap src
        return ⟨some (if commit then { b with batch := batch } else b), moved⟩)
  | flush (b : ChannelBatchWriter) (moved : List ChannelBatchWriter) :
      Call cap ⟨some b, moved⟩ b.batch.pendingBytes (do
        let (_, b) ← b.flush
        return ⟨some b, moved⟩)
  | cancel (b : ChannelBatchWriter) (moved : List ChannelBatchWriter) :
      Call cap ⟨some b, moved⟩ 0 (return ⟨some b.cancel, moved⟩)
  | sendFrameBatch (b : ChannelBatchWriter) (moved : List ChannelBatchWriter)
      (payloadLen seq : UInt32) (cb : Callback) :
      Call cap ⟨some b, moved⟩ 0 (do
        let (_, b) ← sendFrameBatch cap b payloadLen seq cb
        return ⟨some b, moved⟩)
  /-- the move constructor; the program goes on with the new object -/
  | move (b : ChannelBatchWriter) (moved : List ChannelBatchWriter) :
      Call cap ⟨some b, moved⟩ 0 (return ⟨some b, movedFrom b :: moved⟩)
  /-- the destructor of the object in use -/
  | destroy (b : ChannelBatchWriter) (moved : List ChannelBatchWriter) :
      Call cap ⟨some b, moved⟩ b.batch.pendingBytes (do
        b.destroy
        return ⟨none, moved⟩)
  /-- the destructor of a moved-from object -/
  | destroyMoved (b : Option ChannelBatchWriter) (l l' : List ChannelBatchWriter)
      (o : ChannelBatchWriter) :
      Call cap ⟨b, l ++ o :: l'⟩ 0 (do
        o.destroy
        return ⟨b, l ++ l'⟩)

/-- From the world `g`, a batch writer whose snapshot of `read_pos` is `r` can be in this state. -/
inductive Reach (cap : Capacity) (g : World) (r : UInt64) : Objects → World → Prop
  | start {b : ChannelBatchWriter} {g' : World} (h : Runs cap startBatch g b g')
      (hr : b.batch.r = r) : Reach cap g r ⟨some b, []⟩ g'
  | call {s s' : Objects} {n : UInt64} {p : RingM Objects} {g₁ g₂ : World}
      (h : Reach cap g r s g₁) (hc : Call cap s n p) (hrun : Runs cap p g₁ s' g₂) :
      Reach cap g r s' g₂

/-! ### What holds of a batch writer -/

/-- The counters of a batch writer agree with each other and with the shared `write_pos`. -/
structure Sound (cap : Capacity) (r : UInt64) (g : World) (b : BatchWriter) : Prop where
  /-- `Count() > 0` if and only if `PendingBytes() > 0` -/
  count : 0 < b.count ↔ 0 < b.pendingBytes
  /-- the counter is an `int` -/
  int : 0 ≤ b.count ∧ b.count < 2 ^ 31
  snapshot : b.r = r
  wStart : b.wStart = g.shm.writePos
  /-- neither `FreeBytes` nor the free space at the last `Flush` underflows -/
  used : b.w - b.r ≤ cap.word ∧ g.shm.writePos - r ≤ cap.word
  free : (b.freeBytes cap).toNat + b.pendingBytes.toNat =
    cap.val - (g.shm.writePos - r).toNat

/-- From `g` to `g'` the writer has moved `write_pos` by `n`, and has notified the peer once, after
that, if this is a move at all; else it has not. -/
structure Flushes (n : UInt64) (g g' : World) : Prop where
  writePos : g'.shm.writePos = g.shm.writePos + n
  once : g'.shm.writePos ≠ g.shm.writePos →
    g'.notified = g.notified + 1 ∧ g'.rung = g'.published.length
  silent : g'.shm.writePos = g.shm.writePos → g'.notified = g.notified

/-! ### The invariant -/

variable {cap : Capacity} {base : ℕ} {g g' g₁ : World} {b : BatchWriter} {rc : ℕ}
  {l : List UInt8} {r : UInt64} {s : Objects}

/-- The batch writer `b` holds the bytes `l`, and has counted its writes, none of them empty. -/
structure Held (cap : Capacity) (base : ℕ) (g : World) (b : BatchWriter) (rc : ℕ)
    (l : List UInt8) : Prop where
  pending : Pending cap base g b rc l
  counted : Counted b l
  le : b.count ≤ l.length

/-- The object in use is live, and the moved-from ones are empty shells. -/
structure Owned (cap : Capacity) (base : ℕ) (rc : ℕ) (s : Objects) (g : World) : Prop where
  inv : Inv cap base g
  le : rc ≤ g.consumed
  cur : ∀ c, s.cur = some c → c.channel = true ∧ ∃ l, Held cap base g c.batch rc l
  moved : ∀ o ∈ s.moved, o.batch.hdr = false ∧ o.channel = false

theorem Grown.count_le {b' : BatchWriter} {l' : List UInt8} (h : Grown cap b l b' l')
    (hle : b.count ≤ l.length) : b'.count ≤ l'.length := by
  induction h with
  | refl => exact hle
  | @write b' l' src _ hrej ih =>
    have hpos : src.bytes.length ≠ 0 := by
      intro h0
      exact hrej (Or.inl ((len_eq_zero src).mpr h0))
    show b'.count + 1 ≤ _
    rw [List.length_append]
    omega

/-- Accepted writes and the reader's progress keep a batch held. -/
theorem Held.grown {b' : BatchWriter} {l' : List UInt8} (h : Held cap base g b rc l)
    (hp : Pending cap base g' b' rc l') (hg : Grown cap b l b' l') :
    Held cap base g' b' rc l' :=
  ⟨hp, hg.counted h.counted, Grown.count_le hg h.le⟩

theorem held_nil (hp : Pending cap base g b rc []) (hc : b.count = 0) :
    Held cap base g b rc [] :=
  ⟨hp, counted_nil hc, by rw [hc]; exact Int.le_refl 0⟩

theorem Owned.held {c : ChannelBatchWriter} {moved : List ChannelBatchWriter}
    (h : Owned cap base rc ⟨some c, moved⟩ g) :
    ∃ b l, c = ⟨b, true⟩ ∧ Held cap base g b rc l := by
  obtain ⟨b, channel⟩ := c
  obtain ⟨hch, l, hl⟩ := h.cur _ rfl
  have hch : channel = true := hch
  subst hch
  exact ⟨b, l, rfl, hl⟩

theorem owned_some {moved : List ChannelBatchWriter} (h : Held cap base g b rc l)
    (hm : ∀ o ∈ moved, o.batch.hdr = false ∧ o.channel = false) :
    Owned cap base rc ⟨some ⟨b, true⟩, moved⟩ g where
  inv := h.pending.inv
  le := h.pending.le
  cur := by
    rintro c ⟨⟩
    exact ⟨rfl, l, h⟩
  moved := hm

/-! ### What the calls publish -/

theorem flushes_zero (hi : Inv cap base g) (h : Wrote cap base g g'.shm.data [] g') :
    Flushes 0 g g' := by
  obtain ⟨hw, -, hn, -⟩ := nothing_of_wrote hi h
  refine ⟨?_, fun hne => absurd hw hne, fun _ => hn⟩
  rw [hw, UInt64.add_zero]

theorem flushes_refl (g : World) : Flushes 0 g g :=
  ⟨(UInt64.add_zero _).symm, fun hne => absurd rfl hne, fun _ => rfl⟩

/-- `write_pos` moves if and only if something is published. -/
theorem writePos_eq_iff (hi : Inv cap base g) (hi' : Inv cap base g') (hl : l.length ≤ cap.val)
    (hp : g'.published = g.published ++ l) :
    g'.shm.writePos = g.shm.writePos + UInt64.ofNat l.length ∧
      (g'.shm.writePos = g.shm.writePos ↔ l = []) := by
  have hcap := cap.lt
  have hw : g'.shm.writePos = g.shm.writePos + UInt64.ofNat l.length := by
    rw [hi'.writePos, hi.writePos, hp, List.length_append, ← UInt64.ofNat_add, Nat.add_assoc]
  refine ⟨hw, fun he => ?_, fun he => ?_⟩
  · have h0 : UInt64.ofNat l.length = 0 := UInt64.add_eq_left.mp (hw.symm.trans he)
    have h1 := congrArg UInt64.toNat h0
    rw [UInt64.toNat_ofNat', Nat.mod_eq_of_lt (by omega)] at h1
    exact List.eq_nil_of_length_eq_zero h1
  · rw [hw, he]
    exact UInt64.add_zero _

theorem Held.pendingBytes (h : Held cap base g b rc l) :
    b.pendingBytes = UInt64.ofNat l.length := by
  rw [← h.pending.toNat_pendingBytes, UInt64.ofNat_toNat]

/-- **A flush publishes and notifies, or does neither.** -/
theorem flushes_of_flushed (h : Held cap base g b rc l)
    (hf : Flushed cap base g l (0 < b.count) g') : Flushes b.pendingBytes g g' := by
  obtain ⟨hw, hiff⟩ := writePos_eq_iff h.pending.inv hf.inv h.pending.length_le hf.published
  refine ⟨?_, fun hne => ?_, fun heq => ?_⟩
  · rw [h.pendingBytes]
    exact hw
  · exact hf.notified (h.counted.2.mpr fun hl => hne (hiff.mpr hl))
  · refine (hf.silent fun hpos => ?_).1
    exact h.counted.2.mp hpos (hiff.mp heq)

theorem Flushes.trans_wrote {n : UInt64} (h : Flushes n g g₁) (hi : Inv cap base g₁)
    (hw : Wrote cap base g₁ g'.shm.data [] g') : Flushes n g g' := by
  obtain ⟨hpos, hpub, hn, -⟩ := nothing_of_wrote hi hw
  refine ⟨hpos.trans h.writePos, fun hne => ?_, fun heq => ?_⟩
  · rw [hpos] at hne
    rw [hn, hw.rung, hpub]
    exact h.once hne
  · rw [hpos] at heq
    rw [hn]
    exact h.silent heq

/-- The destructor flushes; the `Flush` of `batch_` after it finds nothing. -/
theorem destroy_flushes {Q : Unit → World → Prop} (h : Held cap base g b rc l)
    (hQ : ∀ g', Inv cap base g' → g.consumed ≤ g'.consumed → Flushes b.pendingBytes g g' →
      Q () g') :
    wpW cap base (ChannelBatchWriter.destroy ⟨b, true⟩) Q g := by
  unfold ChannelBatchWriter.destroy
  rw [wpW, Prog.wp_bind]
  refine channelFlush_spec h.pending fun g₁ h₁ hp₁ => ?_
  rw [Prog.wp_bind]
  refine flush_spec hp₁ fun g₂ h₂ _ => hQ g₂ h₂.inv (h₁.consumed.trans h₂.consumed) ?_
  have hd := h₂.data
  rw [← hd] at h₂
  exact (flushes_of_flushed h h₁).trans_wrote h₁.inv h₂

/-- The destructor of a moved-from object does nothing. -/
theorem destroy_moved {o : ChannelBatchWriter} (hh : o.batch.hdr = false)
    (hc : o.channel = false) : o.destroy = Prog.ret () := by
  unfold ChannelBatchWriter.destroy ChannelBatchWriter.flush BatchWriter.flush
  simp [hh, hc]

/-! ### Runs -/

/-- **One call** keeps the objects in order, and publishes and notifies as it should. -/
theorem call_wp {n : UInt64} {p : RingM Objects} (h : Owned cap base rc s g)
    (hc : Call cap s n p) :
    wpW cap base p (fun s' g' => Owned cap base rc s' g' ∧ Flushes n g g') g := by
  cases hc with
  | tryWrite c moved data =>
    obtain ⟨b, l, rfl, hb⟩ := h.held
    rw [wpW, Prog.wp_bind]
    refine write_safe hb.pending data fun _ b' l' g' hw hp hg => ?_
    exact ⟨owned_some (hb.grown hp hg) h.moved, flushes_zero h.inv hw⟩
  | reserve c moved src commit =>
    obtain ⟨b, l, rfl, hb⟩ := h.held
    rw [wpW, Prog.wp_bind]
    refine reserveFill_spec hb.pending (fun g' hres hw hp => ?_) fun _ => ?_
    · have hrej : ¬ b.Rejects cap src.len := by
        intro hrej
        exact hres (if_pos hrej)
      have hpub : g'.published = g.published := by rw [hw.published, List.append_nil]
      have hd := hw.data
      rw [← hd] at hw
      refine ⟨?_, flushes_zero h.inv hw⟩
      cases commit with
      | true => exact owned_some (hb.grown hp (.write .refl hrej)) h.moved
      | false =>
        exact owned_some (hb.grown (rewindTo_eq hb.pending hp hpub).2 .refl) h.moved
    · refine ⟨?_, flushes_refl g⟩
      rw [ite_self]
      exact owned_some hb h.moved
  | flush c moved =>
    obtain ⟨b, l, rfl, hb⟩ := h.held
    rw [wpW, Prog.wp_bind]
    refine channelFlush_spec hb.pending fun g' hf hp => ?_
    exact ⟨owned_some (held_nil hp rfl) h.moved, flushes_of_flushed hb hf⟩
  | cancel c moved =>
    obtain ⟨b, l, rfl, hb⟩ := h.held
    exact ⟨owned_some (held_nil hb.pending.cancel rfl) h.moved, flushes_refl g⟩
  | sendFrameBatch c moved payloadLen seq cb =>
    obtain ⟨b, l, rfl, hb⟩ := h.held
    rw [wpW, Prog.wp_bind]
    refine sendFrameBatch_safe hb.pending fun _ b' l' g' hw hp hg => ?_
    exact ⟨owned_some (hb.grown hp hg) h.moved, flushes_zero h.inv hw⟩
  | move c moved =>
    obtain ⟨b, l, rfl, hb⟩ := h.held
    refine ⟨owned_some hb fun o ho => ?_, flushes_refl g⟩
    rcases List.mem_cons.mp ho with rfl | ho
    · exact ⟨rfl, rfl⟩
    · exact h.moved o ho
  | destroy c moved =>
    obtain ⟨b, l, rfl, hb⟩ := h.held
    rw [wpW, Prog.wp_bind]
    refine destroy_flushes hb fun g' hi hle hf => ⟨⟨hi, h.le.trans hle, ?_, h.moved⟩, hf⟩
    rintro c ⟨⟩
  | destroyMoved c l l' o =>
    obtain ⟨hh, hch⟩ := h.moved o (List.mem_append_right l List.mem_cons_self)
    rw [destroy_moved hh hch]
    refine ⟨⟨h.inv, h.le, h.cur, fun o' ho => h.moved o' ?_⟩, flushes_refl g⟩
    rcases List.mem_append.mp ho with ho | ho
    · exact List.mem_append_left _ ho
    · exact List.mem_append_right _ (List.mem_cons_of_mem _ ho)

/-- A write and then a callback, as in `SendFrameBatch` before it looks at the counters. -/
theorem callback_held {hdr : MsgHeader} {cb : Callback} {n : ℤ} {b₁ b₂ : ChannelBatchWriter}
    {g₂ g₃ : World} {threw : Bool} (h : Held cap base g b rc l)
    (hrun : Runs cap (ChannelBatchWriter.tryWrite cap ⟨b, true⟩ (some hdr.buf)) g (n, b₁) g₂)
    (hrun' : Runs cap (cb.exec cap b₁) g₂ (threw, b₂) g₃) :
    ∃ l', Held cap base g₃ b₂.batch rc l' := by
  have hwp : wpW cap base (ChannelBatchWriter.tryWrite cap ⟨b, true⟩ (some hdr.buf))
      (fun x g' => ∃ b' l', x.2 = ⟨b', true⟩ ∧ Held cap base g' b' rc l') g :=
    write_safe h.pending _ fun _ b' l' g' _ hp hg => ⟨b', _, rfl, h.grown hp hg⟩
  obtain ⟨b', l', hb₁, h₁⟩ := Prog.wp_exec hrun hwp
  have hb₁ : b₁ = ⟨b', true⟩ := hb₁
  subst hb₁
  have hwp' : wpW cap base (cb.exec cap ⟨b', true⟩)
      (fun x g' => ∃ l', Held cap base g' x.2.batch rc l') g₂ :=
    callback_spec h₁.pending fun g' _ hp => ⟨_, h₁.grown hp (eval_grown cap cb .refl)⟩
  exact Prog.wp_exec hrun' hwp'

/-- **After any calls** the objects are in order, and the snapshot is a read position that the
reader had. -/
theorem reach_owned (hi : Inv cap base g) (h : Reach cap g r s g') :
    ∃ rc, g.consumed ≤ rc ∧ r = UInt64.ofNat (base + rc) ∧ Owned cap base rc s g' := by
  induction h with
  | @start c g' hrun hr =>
    have hwp : wpW cap base startBatch (fun c g' => ∃ b, c = ⟨b, true⟩ ∧ b.count = 0 ∧
        g.consumed ≤ g'.consumed ∧ Pending cap base g' b g'.consumed []) g :=
      startBatch_spec hi fun b g' hw hc hp => ⟨b, rfl, hc, hw.consumed, hp⟩
    obtain ⟨b, rfl, hc, hle, hp⟩ := Prog.wp_exec hrun hwp
    refine ⟨g'.consumed, hle, hr.symm.trans hp.r, owned_some (held_nil hp hc) ?_⟩
    intro o ho
    cases ho
  | call _ hc hrun ih =>
    obtain ⟨rc, hle, hr, ho⟩ := ih
    exact ⟨rc, hle, hr, (Prog.wp_exec hrun (call_wp ho hc)).1⟩

/-- A batch that is held has counters that agree. -/
theorem Held.sound (hcap : cap.val ≤ 2 ^ 30) (hr : r = UInt64.ofNat (base + rc))
    (h : Held cap base g b rc l) : Sound cap r g b := by
  have hp := h.pending
  have h1 := hp.fit
  have h2 := hp.le
  have h3 := hp.inv.le
  have h4 := hp.length_le
  have hwp := hp.inv.writePos
  have hn := hp.toNat_pendingBytes
  have hused : (b.w - b.r).toNat = g.published.length + l.length - rc := by
    rw [hp.w, hp.r, toNat_ofNat_sub (by omega) (by omega)]
    omega
  have hstart : (g.shm.writePos - r).toNat = g.published.length - rc := by
    rw [hwp, hr, toNat_ofNat_sub (by omega) (by omega)]
    omega
  refine ⟨?_, ⟨h.counted.1, ?_⟩, hp.r.trans hr.symm, hp.wStart.trans hwp.symm, ⟨?_, ?_⟩, ?_⟩
  · rw [h.counted.2, UInt64.lt_iff_toNat_lt, hn]
    exact List.length_pos_iff.symm
  · have hle := h.le
    omega
  · rw [UInt64.le_iff_toNat_le, hused, cap.toNat_word]
    omega
  · rw [UInt64.le_iff_toNat_le, hstart, cap.toNat_word]
    omega
  · rw [hp.toNat_freeBytes, hn, hstart]
    omega

/-- **Publishing and notifying coincide.** In every state that a batch writer can reach, with any
progress of the reader, its counters agree: those of the object itself, and those that a callback of
`SendFrameBatch` finds between its writes. Each call publishes the bytes it has to and notifies the
peer exactly once if there are any. -/
theorem publish_notify (hcap : cap.val ≤ 2 ^ 30) (hi : Inv cap base g)
    (h : Reach cap g r s g₁) :
    (∃ rc, g.consumed ≤ rc ∧ rc ≤ g₁.consumed ∧ r = UInt64.ofNat (base + rc)) ∧
    (∀ b, s.cur = some b → Sound cap r g₁ b.batch ∧
      ∀ (hdr : MsgHeader) (cb : Callback) (n : ℤ) (b₁ : ChannelBatchWriter) (g₂ : World)
        (threw : Bool) (b₂ : ChannelBatchWriter) (g₃ : World),
        Runs cap (b.tryWrite cap (some hdr.buf)) g₁ (n, b₁) g₂ →
        Runs cap (cb.exec cap b₁) g₂ (threw, b₂) g₃ → Sound cap r g₃ b₂.batch) ∧
    ∀ n p s' g₂, Call cap s n p → Runs cap p g₁ s' g₂ → Flushes n g₁ g₂ := by
  obtain ⟨rc, hle, hr, ho⟩ := reach_owned hi h
  refine ⟨?_, fun c hcur => ?_, fun n p s' g₂ hc hrun => ?_⟩
  · exact ⟨rc, hle, ho.le, hr⟩
  · obtain ⟨b, channel⟩ := c
    obtain ⟨hch, l, hb⟩ := ho.cur _ hcur
    have hch : channel = true := hch
    subst hch
    refine ⟨hb.sound hcap hr, fun hdr cb n b₁ g₂ threw b₂ g₃ hrun hrun' => ?_⟩
    obtain ⟨l', hb'⟩ := callback_held hb hrun hrun'
    exact hb'.sound hcap hr
  · exact (Prog.wp_exec hrun (call_wp ho hc)).2

/-- A ring of 1024 bytes whose positions are at 1020. -/
def start : World := .empty 1020 fun _ => 0

/-- A batch of one write of five bytes, across the ring end; the object is moved and the new one
flushed. -/
theorem publish_notify_five :
    ∃ s g₁ g₂ b, Capacity.min.val ≤ 2 ^ 30 ∧ Inv .min 1020 start ∧ Reach .min start 1020 s g₁ ∧
      s.cur = some b ∧ b.batch.pendingBytes = 5 ∧ Sound .min 1020 g₁ b.batch ∧
      Flushes 5 g₁ g₂ ∧ g₂.notified = 1 := by
  have hcap : Capacity.min.val ≤ 2 ^ 30 := by decide
  have hi : Inv .min 1020 start := inv_empty .min 1020 _
  -- the reader rests
  have hrun : ∀ {α : Type} (p : RingM α) (g : World), Runs .min p g _ _ :=
    fun p g => Prog.exec_run (World.exec .min) rStep_refl p g
  have h₀ : Reach .min start 1020 _ _ := .start (hrun startBatch start) rfl
  have h₁ := h₀.call (.tryWrite _ _ (some ⟨[1, 2, 3, 4, 5], by decide⟩)) (hrun _ _)
  have h₂ := h₁.call (.move _ _) (hrun _ _)
  have hf := (publish_notify hcap hi h₂).2.2 _ _ _ _ (.flush _ _) (hrun _ _)
  exact ⟨_, _, _, _, hcap, hi, h₂, rfl, by decide, ((publish_notify hcap hi h₂).2.1 _ rfl).1, hf,
    by decide⟩

end ShmIpc.Codec.Notify
