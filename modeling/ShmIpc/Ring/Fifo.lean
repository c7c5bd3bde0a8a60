import ShmIpc.Lib.Threads
import ShmIpc.Ring.Reader
import ShmIpc.Ring.Writer

/-! # One writer and one reader on a ring

The two threads call the ring's operations in any order their objects allow, one access at a time:
the writer direct `TryWrite`s and sessions of a `BatchWriter`, the reader `TryRead`, `ReadExact`
and `Peek` with a later `CommitRead`. The writer's contract ties what it believes it has sent to
the published stream, the reader's what it has got to the released part of it (`writer_contract`,
`reader_contract`); `stream_fifo` joins them for every interleaving. -/

namespace ShmIpc.Ring.Fifo

open Relation
open ShmIpc.Lib.RelyGuarantee ShmIpc.Lib.Threads ShmIpc.Lib.Window
open ShmIpc.Ring.RingBuf ShmIpc.Ring.History ShmIpc.Ring.Writer ShmIpc.Ring.Reader

/-! ### The writer -/

/-- The writer between two calls. -/
structure WriterLoc where
  /-- the active batch -/
  batch : Option BatchWriter
  /-- what it has accepted since its last flush and not rolled back -/
  pending : List UInt8
  /-- the accepted direct writes and the flushed batches, in order -/
  sent : List UInt8
  /-- the direct writes that returned `-1`, with the bytes in flight when they were called -/
  refused : List (ℕ × Option Buf)

/-- The writer at its start. -/
def WriterLoc.start : WriterLoc := ⟨none, [], [], []⟩

/-- The calls of the writer: no direct `TryWrite` while a batch is active, and `RewindTo` only
back. The end of a batch is its destructor. -/
inductive WriterCall (cap : Capacity) : WriterLoc → World → RingM WriterLoc → Prop
  | tryWrite {l : WriterLoc} {g : World} (h : l.batch = none) (data : Option Buf) :
      WriterCall cap l g (do
        let rc ← tryWrite cap data
        if rc = 0 then
          return { l with sent := l.sent ++ (data.map Buf.bytes).getD [] }
        return { l with refused := (g.published.length - g.consumed, data) :: l.refused })
  | begin {l : WriterLoc} {g : World} (h : l.batch = none) :
      WriterCall cap l g (do
        let b ← BatchWriter.make
        return { l with batch := some b, pending := [] })
  | write {l : WriterLoc} {g : World} {b : BatchWriter} (h : l.batch = some b)
      (data : Option Buf) :
      WriterCall cap l g (do
        let (rc, b') ← b.tryWrite cap data
        if rc = 0 then
          return { l with batch := some b'
                          pending := l.pending ++ (data.map Buf.bytes).getD [] }
        return { l with batch := some b' })
  | reserve {l : WriterLoc} {g : World} {b : BatchWriter} (h : l.batch = some b) (src : Buf) :
      WriterCall cap l g (do
        let (ok, b') ← b.reserveFill cap src
        if ok then
          return { l with batch := some b', pending := l.pending ++ src.bytes }
        return { l with batch := some b' })
  | flush {l : WriterLoc} {g : World} {b : BatchWriter} (h : l.batch = some b) :
      WriterCall cap l g (do
        let (_, b') ← b.flush
        return { l with batch := some b', pending := [], sent := l.sent ++ l.pending })
  | cancel {l : WriterLoc} {g : World} {b : BatchWriter} (h : l.batch = some b) :
      WriterCall cap l g (return { l with batch := some b.cancel, pending := [] })
  | rewindTo {l : WriterLoc} {g : World} {b : BatchWriter} (h : l.batch = some b) {p : UInt64}
      (hp : p ≤ b.pendingBytes) (count : ℤ) :
      WriterCall cap l g
        (return { l with batch := some (b.rewindTo p count), pending := l.pending.take p.toNat })
  | done {l : WriterLoc} {g : World} {b : BatchWriter} (h : l.batch = some b) :
      WriterCall cap l g (do
        let _ ← b.flush
        return { l with batch := none, pending := [], sent := l.sent ++ l.pending })

/-- Every refused direct write had a bad argument or too little space. -/
def RefusedOk (cap : Capacity) (l : WriterLoc) : Prop :=
  ∀ p ∈ l.refused, ∀ src, p.2 = some src → src.bytes.length = 0 ∨
    cap.maxWriteSize < src.bytes.length ∨ cap.val < p.1 + src.bytes.length

/-- What the writer knows between two calls. -/
structure WriterInv (cap : Capacity) (base : ℕ) (l : WriterLoc) (g : World) : Prop where
  inv : Inv cap base g
  sent : l.sent = g.published
  batch : ∀ b, l.batch = some b → ∃ rc, Pending cap base g b rc l.pending
  refused : RefusedOk cap l

/-- What is still true inside a call. -/
structure WriterWeak (cap : Capacity) (base : ℕ) (l : WriterLoc) (g : World) : Prop where
  inv : Inv cap base g
  sent : l.sent <+: g.published
  refused : RefusedOk cap l

variable {cap : Capacity} {base : ℕ} {g g' : World}

theorem WriterInv.rStep {l : WriterLoc} (h : WriterInv cap base l g) (hr : RStep g g') :
    WriterInv cap base l g' where
  inv := hr.inv h.inv
  sent := by rw [hr.published]; exact h.sent
  batch b hb := by
    obtain ⟨rc, hp⟩ := h.batch b hb
    exact ⟨rc, hp.rStep hr⟩
  refused := h.refused

theorem writerCall_wp {l : WriterLoc} {p : RingM WriterLoc} (h : WriterInv cap base l g)
    (hc : WriterCall cap l g p) : wpW cap base p (WriterInv cap base) g := by
  cases hc with
  | tryWrite hb data =>
    rw [wpW, Prog.wp_bind]
    refine tryWrite_spec h.inv (fun src g' hd hpos hw => ?_) (fun g' hw hwhy => ?_)
    · subst hd
      refine ⟨hw.inv, ?_, fun b hb' => absurd hb' (by simp [hb]), h.refused⟩
      rw [hw.published, ← h.sent]
      rfl
    · refine ⟨hw.inv, ?_, fun b hb' => absurd hb' (by simp [hb]), ?_⟩
      · rw [hw.published, List.append_nil]; exact h.sent
      · intro p hp src hsrc
        rcases List.mem_cons.mp hp with rfl | hp
        · have := hwhy src hsrc
          have := h.inv.le
          omega
        · exact h.refused p hp src hsrc
  | begin hb =>
    rw [wpW, Prog.wp_bind]
    refine make_spec h.inv fun b g' hw _ _ _ hp => ⟨hw.inv, ?_, fun b' hb' => ?_, h.refused⟩
    · rw [hw.published, List.append_nil]; exact h.sent
    · cases hb'
      exact ⟨_, hp⟩
  | @write b hb data =>
    obtain ⟨rc, hp⟩ := h.batch b hb
    rw [wpW, Prog.wp_bind]
    refine batchTryWrite_spec hp (fun src g' hd _ hw hp' => ?_) (fun _ => ?_)
    · subst hd
      refine ⟨hw.inv, ?_, fun b' hb' => ?_, h.refused⟩
      · rw [hw.published, List.append_nil]; exact h.sent
      · cases hb'
        exact ⟨rc, hp'⟩
    · refine ⟨h.inv, h.sent, fun b' hb' => ?_, h.refused⟩
      cases hb'
      exact ⟨rc, hp⟩
  | @reserve b hb src =>
    obtain ⟨rc, hp⟩ := h.batch b hb
    rw [wpW, Prog.wp_bind]
    refine reserveFill_spec hp (fun g' _ hw hp' => ?_) (fun _ => ?_)
    · refine ⟨hw.inv, ?_, fun b' hb' => ?_, h.refused⟩
      · rw [hw.published, List.append_nil]; exact h.sent
      · cases hb'
        exact ⟨rc, hp'⟩
    · refine ⟨h.inv, h.sent, fun b' hb' => ?_, h.refused⟩
      cases hb'
      exact ⟨rc, hp⟩
  | @flush b hb =>
    obtain ⟨rc, hp⟩ := h.batch b hb
    rw [wpW, Prog.wp_bind]
    refine flush_spec hp fun g' hw hp' => ⟨hw.inv, ?_, fun b' hb' => ?_, h.refused⟩
    · rw [hw.published, ← h.sent]
    · cases hb'
      exact ⟨rc, hp'⟩
  | @cancel b hb =>
    obtain ⟨rc, hp⟩ := h.batch b hb
    refine ⟨h.inv, h.sent, fun b' hb' => ?_, h.refused⟩
    cases hb'
    exact ⟨rc, hp.cancel⟩
  | @rewindTo b hb p hle count =>
    obtain ⟨rc, hp⟩ := h.batch b hb
    refine ⟨h.inv, h.sent, fun b' hb' => ?_, h.refused⟩
    cases hb'
    exact ⟨rc, hp.rewindTo count hle⟩
  | @done b hb =>
    obtain ⟨rc, hp⟩ := h.batch b hb
    rw [wpW, Prog.wp_bind]
    refine flush_spec hp fun g' hw _ => ⟨hw.inv, ?_, fun b' hb' => absurd hb' (by simp), h.refused⟩
    rw [hw.published, ← h.sent]

theorem writer_contract (cap : Capacity) (base : ℕ) :
    Contract (World.exec cap) RStep (WStep cap base) (WriterCall cap) (WriterInv cap base)
      (WriterWeak cap base) where
  call := writerCall_wp
  stable h hr := h.rStep hr
  weak h := ⟨h.inv, h.sent ▸ List.prefix_rfl, h.refused⟩
  keepRely h hr := ⟨hr.inv h.inv, by rw [hr.published]; exact h.sent, h.refused⟩
  keepGuar h hw := ⟨hw.inv h.inv, h.sent.trans hw.published, h.refused⟩

/-! ### The reader -/

/-- The reader between two calls. -/
structure ReaderLoc where
  /-- what the last `Peek` handed out -/
  segs : Option Segs
  /-- the bytes obtained so far -/
  got : List UInt8

/-- The reader at its start. -/
def ReaderLoc.start : ReaderLoc := ⟨none, []⟩

/-- The first `n` bytes of the segments, read through their pointers. -/
def readSegs (s : Segs) (n : UInt32) : RingM (List UInt8) :=
  if n.toNat ≤ s.seg1Len.toNat then
    memcpyFrom s.seg1 n.toNat
  else do
    let a ← memcpyFrom s.seg1 s.seg1Len.toNat
    let b ← memcpyPtr s.seg2 0 (n.toNat - s.seg1Len.toNat)
    return a ++ b

/-- The calls of the reader. `CommitRead` releases at most the peeked bytes, once the reader has
read them. -/
inductive ReaderCall (cap : Capacity) : ReaderLoc → World → RingM ReaderLoc → Prop
  | tryRead {l : ReaderLoc} {g : World} (maxLen : UInt32) :
      ReaderCall cap l g (do
        let out ← tryRead cap maxLen
        return { segs := none, got := l.got ++ out })
  | readExact {l : ReaderLoc} {g : World} (len : UInt32) :
      ReaderCall cap l g (do
        let out ← readExact cap len
        return { segs := none, got := l.got ++ out.getD [] })
  | peek {l : ReaderLoc} {g : World} :
      ReaderCall cap l g (do
        let s ← peek cap
        return { l with segs := s })
  | commitRead {l : ReaderLoc} {g : World} {s : Segs} (h : l.segs = some s) {n : UInt32}
      (hn : n.toNat ≤ s.seg1Len.toNat + s.seg2Len.toNat) :
      ReaderCall cap l g (do
        let out ← readSegs s n
        commitRead n
        return { segs := none, got := l.got ++ out })

/-- What the reader knows between two calls. -/
structure ReaderInv (cap : Capacity) (base : ℕ) (l : ReaderLoc) (g : World) : Prop where
  inv : Inv cap base g
  got : l.got = g.published.take g.consumed
  segs : ∀ s, l.segs = some s → ∃ n, Peeked cap base g s n

/-- What is still true inside a call. -/
def ReaderWeak (l : ReaderLoc) (g : World) : Prop := l.got <+: g.published

/-- The next `n` bytes of the stream extend what the reader has got. -/
theorem ReaderInv.took {l : ReaderLoc} {n : ℕ} (h : ReaderInv cap base l g)
    (ht : Took cap base g n g') :
    ReaderInv cap base
      { segs := none, got := l.got ++ (g'.published.drop g.consumed).take n } g' where
  inv := ht.inv
  got := by
    rw [ht.consumed, List.take_add, take_mono ht.published h.inv.le, h.got]
  segs s hs := absurd hs (by simp)

theorem ReaderInv.wStep {l : ReaderLoc} (h : ReaderInv cap base l g) (hw : WStep cap base g g') :
    ReaderInv cap base l g' where
  inv := hw.inv h.inv
  got := by rw [hw.consumed, take_mono hw.published h.inv.le]; exact h.got
  segs s hs := by
    obtain ⟨n, hp⟩ := h.segs s hs
    exact ⟨n, hp.took (took_of_wStep hw h.inv)⟩

theorem readSegs_spec {Q : List UInt8 → World → Prop} {s : Segs} {m : ℕ} {n : UInt32}
    (h : Peeked cap base g s m) (hn : n.toNat ≤ m)
    (hQ : ∀ g', Took cap base g 0 g' → Q ((g.published.drop g.consumed).take n.toNat) g') :
    wpR cap base (readSegs s n) Q g := by
  unfold readSegs
  split_ifs with hs
  · exact h.memcpySeg1 (o := 0) (by omega) hQ
  · have htot := h.total
    have hle := h.le
    rw [wpR, Prog.wp_bind]
    refine h.memcpySeg1 (o := 0) (by omega) fun g₁ h₁ => ?_
    rw [Prog.wp_bind]
    refine (h.took h₁).memcpySeg2 (o := 0) (by omega) fun g₂ h₂ => ?_
    have hc₁ : g₁.consumed = g.consumed := h₁.consumed
    have hQ' := hQ g₂ (h₁.trans h₂)
    rw [show n.toNat = s.seg1Len.toNat + (n.toNat - s.seg1Len.toNat) by omega, List.take_add,
      List.drop_drop] at hQ'
    rw [hc₁, Nat.add_zero, drop_take_mono h₁.published (by omega)]
    exact hQ'

theorem readerCall_wp {l : ReaderLoc} {p : RingM ReaderLoc} (h : ReaderInv cap base l g)
    (hc : ReaderCall cap l g p) : wpR cap base p (ReaderInv cap base) g := by
  cases hc with
  | tryRead maxLen =>
    rw [wpR, Prog.wp_bind]
    exact tryRead_spec h.inv fun _ n g' _ _ _ ht => h.took ht
  | readExact len =>
    rw [wpR, Prog.wp_bind]
    refine readExact_spec h.inv (fun g' ht _ => h.took ht) fun g' ht _ => ?_
    have hr := h.took ht
    rw [List.take_zero] at hr
    exact hr
  | peek =>
    rw [wpR, Prog.wp_bind]
    refine peek_spec h.inv (fun s n g' _ _ _ ht hp => ?_) fun g' ht _ => ?_
    · have hr := h.took ht
      rw [List.take_zero, List.append_nil] at hr
      refine ⟨hr.inv, hr.got, fun s' hs' => ?_⟩
      cases hs'
      exact ⟨n, hp⟩
    · have hr := h.took ht
      rw [List.take_zero, List.append_nil] at hr
      exact ⟨hr.inv, hr.got, fun s' hs' => absurd hs' (by simp)⟩
  | @commitRead s hs n hn =>
    obtain ⟨m, hp⟩ := h.segs s hs
    rw [hp.total] at hn
    have hle := hp.le
    rw [wpR, Prog.wp_bind]
    refine readSegs_spec hp hn fun g₁ h₁ => ?_
    have hl₁ := h₁.length_le
    have hc₁ : g₁.consumed = g.consumed := h₁.consumed
    rw [Prog.wp_bind]
    refine commitRead_spec h₁.inv (by omega) fun g₂ h₂ => ?_
    have h12 := h₁.trans h₂
    rw [Nat.zero_add] at h12
    rw [← drop_take_mono h12.published (by omega)]
    exact h.took h12

theorem reader_contract (cap : Capacity) (base : ℕ) :
    Contract (World.exec cap) (WStep cap base) RStep (ReaderCall cap) (ReaderInv cap base)
      ReaderWeak where
  call := readerCall_wp
  stable h hw := h.wStep hw
  weak h := by
    unfold ReaderWeak
    rw [h.got]
    exact List.take_prefix _ _
  keepRely h hw := List.IsPrefix.trans h hw.published
  keepGuar h hr := by
    unfold ReaderWeak at h ⊢
    rw [hr.published]
    exact h

/-! ### Both -/

/-- A writer and a reader on an empty ring at offset `base` of its streams. -/
def start (base : ℕ) (d : ℕ → UInt8) : Duo Cmd Cmd.Res WriterLoc ReaderLoc World where
  fst := .idle .start
  snd := .idle .start
  mem := .empty base d

/-- One access, or the start of one call, of either side. -/
abbrev RingStep (cap : Capacity) :
    Duo Cmd Cmd.Res WriterLoc ReaderLoc World → Duo Cmd Cmd.Res WriterLoc ReaderLoc World → Prop :=
  Step (World.exec cap) (WriterCall cap) (ReaderCall cap)

/-- **The ring is a FIFO.** In every state that any interleaving of one writer and one reader
reaches: what the reader has got is a prefix of what is published, at most `Capacity` bytes are in
flight, what the writer has sent is what is published (between its calls; inside one, a prefix of
it), and a direct write was refused only for its argument or for lack of space. -/
theorem stream_fifo (cap : Capacity) (base : ℕ) (d : ℕ → UInt8)
    {s : Duo Cmd Cmd.Res WriterLoc ReaderLoc World}
    (h : ReflTransGen (RingStep cap) (start base d) s) :
    s.snd.loc.got <+: s.mem.published ∧
      (s.mem.shm.writePos - s.mem.shm.readPos).toNat ≤ cap.val ∧
      s.fst.loc.sent <+: s.mem.published ∧
      (∀ l, s.fst = .idle l → l.sent = s.mem.published) ∧
      ∀ p ∈ s.fst.loc.refused, ∀ src, p.2 = some src → src.bytes.length = 0 ∨
        cap.maxWriteSize < src.bytes.length ∨ cap.val < p.1 + src.bytes.length := by
  have h0 := inv_empty cap base d
  have hw := writer_contract cap base
  have hr := reader_contract cap base
  obtain ⟨h1, h2⟩ := duo_ok wStep_refl rStep_refl (fun _ _ _ => WStep.trans)
    (fun _ _ _ => RStep.trans) hw hr
    (s := start base d)
    ⟨⟨h0, rfl, fun b hb => absurd hb (by simp [WriterLoc.start]),
      fun p hp => absurd hp (by simp [WriterLoc.start])⟩,
      ⟨h0, rfl, fun s hs => absurd hs (by simp [ReaderLoc.start])⟩⟩ h
  have hweak := threadOk_loc hw h1
  refine ⟨threadOk_loc hr h2, ?_, hweak.sent, ?_, hweak.refused⟩
  · rw [hweak.inv.avail]
    have := hweak.inv.fit
    omega
  · intro l hl
    rw [hl] at h1
    exact h1.sent

/-- Three bytes written from offset 1022 on, across the ring end, and read back. -/
theorem stream_fifo_three : ∃ s, ReflTransGen (RingStep .min) (start 1022 fun _ => 0) s ∧
    s.snd.loc.got = [1, 2, 3] ∧ s.snd.loc.got <+: s.mem.published := by
  have h1 : ReflTransGen (RingStep .min) (start 1022 fun _ => 0) _ :=
    call_run₁ (.tryWrite rfl (some ⟨[1, 2, 3], by decide⟩))
  have h2 := h1.trans (call_run₂ (.tryRead 100))
  exact ⟨_, h2, by decide, (stream_fifo .min 1022 _ h2).1⟩

end ShmIpc.Ring.Fifo
