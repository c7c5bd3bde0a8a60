import ShmIpc.Ring.Writer

/-! # Batched writing: `BatchWriter` against `RingBuf::TryWrite`

A chunk is handed to a batch through `TryWrite`, or through `Reserve`, a fill and `CommitReserve`
where a reservation is granted (`Chunk`). With the reader idle a batch and its `Flush` do what
`RingBuf::TryWrite` does chunk by chunk (`batchAll_eq`). A session of a batch may also cancel, and
rewind to a recorded `(PendingBytes, Count)`; then the ring reads as after a plain run over the
retained chunks (`readable_session`). While the reader advances, the snapshot of `read_pos` only
makes the batch stricter (`session_accepts`). -/

namespace ShmIpc.Ring.Batch

open ShmIpc.Lib.RelyGuarantee ShmIpc.Lib.Window
open ShmIpc.Ring.RingBuf ShmIpc.Ring.History ShmIpc.Ring.Writer

/-! ### Plain runs and batches -/

/-- A chunk, with the way it is handed to a batch. -/
inductive Chunk : Type
  /-- `TryWrite`; `none` is a null pointer -/
  | tryWrite (data : Option Buf)
  /-- in place where `Reserve` returns a pointer, else `TryWrite` -/
  | reserve (src : Buf)

/-- The bytes of a chunk; `none` is a null pointer. -/
def Chunk.data : Chunk → Option Buf
  | .tryWrite data => data
  | .reserve src => some src

/-- `RingBuf::TryWrite` on each chunk. -/
def tryWriteAll (cap : Capacity) : List (Option Buf) → RingM (List ℤ)
  | [] => return []
  | data :: l => do
    let rc ← tryWrite cap data
    let rcs ← tryWriteAll cap l
    return rc :: rcs

/-- One chunk handed to a batch. -/
def write (cap : Capacity) (b : BatchWriter) : Chunk → RingM (ℤ × BatchWriter)
  | .tryWrite data => b.tryWrite cap data
  | .reserve src => do
    let (ok, b) ← b.reserveFill cap src
    if ok then return (0, b) else b.tryWrite cap (some src)

/-- A list of chunks handed to a batch. -/
def writeAll (cap : Capacity) (b : BatchWriter) : List Chunk → RingM (List ℤ × BatchWriter)
  | [] => return ([], b)
  | c :: l => do
    let (rc, b) ← write cap b c
    let (rcs, b) ← writeAll cap b l
    return (rc :: rcs, b)

/-- One batch over the chunks, and `Flush`. -/
def batchAll (cap : Capacity) (l : List Chunk) : RingM (List ℤ) := do
  let b ← BatchWriter.make
  let (rcs, b) ← writeAll cap b l
  let _ ← b.flush
  return rcs

/-! ### Sessions with rollback -/

/-- What a program does with its batch. -/
inductive Op : Type
  | write (c : Chunk)
  | flush
  | cancel
  /-- `RewindTo` the values recorded before the `n`-th retained chunk -/
  | rewindTo (n : ℕ)

/-- A batch with what its program remembers of it: the chunks flushed, and the retained ones since,
each with the `PendingBytes` and `Count` recorded before it. -/
structure Session where
  b : BatchWriter
  flushed : List Buf
  kept : List (Buf × UInt64 × ℤ)

/-- The chunks that are not rolled back. -/
def Session.retained (s : Session) : List Buf := s.flushed ++ s.kept.map Prod.fst

/-- A chunk, remembered if it was accepted. -/
def Session.write (cap : Capacity) (s : Session) (c : Chunk) : RingM Session := do
  let (rc, b) ← Batch.write cap s.b c
  match c.data with
  | none => return { s with b := b }
  | some src =>
    if rc = 0 then
      return { s with b := b, kept := s.kept ++ [(src, s.b.pendingBytes, s.b.count)] }
    else return { s with b := b }

/-- One operation of a session. -/
def Session.step (cap : Capacity) (s : Session) : Op → RingM Session
  | .write c => s.write cap c
  | .flush => do
    let (_, b) ← s.b.flush
    return { b := b, flushed := s.retained, kept := [] }
  | .cancel => return { s with b := s.b.cancel, kept := [] }
  | .rewindTo n =>
    match s.kept[n]? with
    | none => return s
    | some (_, pending, count) =>
      return { s with b := s.b.rewindTo pending count, kept := s.kept.take n }

/-- The operations in turn. -/
def Session.steps (cap : Capacity) (s : Session) : List Op → RingM Session
  | [] => return s
  | o :: l => do
    let s ← s.step cap o
    s.steps cap l

/-- A session from the constructor on. -/
def session (cap : Capacity) (l : List Op) : RingM Session := do
  let b ← BatchWriter.make
  Session.steps cap { b := b, flushed := [], kept := [] } l

/-- A session that ends with `Flush`. -/
def flushedSession (cap : Capacity) (l : List Op) : RingM Session := do
  let s ← session cap l
  s.step cap .flush

/-- The bytes a reader can read. -/
def readable (cap : Capacity) (m : Shm) : List UInt8 :=
  (List.range (m.writePos - m.readPos).toNat).map fun i =>
    m.data (ringPhys cap (m.readPos + UInt64.ofNat i))

/-! ### Runs of the operations -/

variable {cap : Capacity} {m : Shm} {b : BatchWriter}

theorem ringPhys_eq (cap : Capacity) (w : UInt64) : ringPhys cap w = w.toNat % cap.val := by
  have h := ringPhys_ofNat cap w.toNat
  rwa [UInt64.ofNat_toNat] at h

theorem run_memcpyTo : ∀ (l : List UInt8) (off : ℕ) (m : Shm),
    (memcpyTo off l).run Shm.exec m = ((), { m with data := blit m.data off l })
  | [], off, m => by
    rw [blit_nil]
    rfl
  | b :: l, off, m => by
    rw [memcpyTo, Prog.run_bind, blit_cons]
    exact run_memcpyTo l (off + 1) _

theorem run_ringCopyIn {w : UInt64} {src : Buf} (h : src.bytes.length ≤ cap.val) :
    (ringCopyIn cap w src).run Shm.exec m =
      ((), { m with data := put cap.val m.data w.toNat src.bytes }) := by
  have hc := cap.pos
  have hlt := Nat.mod_lt w.toNat hc
  unfold ringCopyIn
  rw [ringPhys_eq]
  simp only [Buf.toNat_len]
  split_ifs with hs
  · rw [run_memcpyTo, blit_eq_put hc (by omega)]
  · rw [Prog.run_bind, run_memcpyTo, run_memcpyTo, blit_blit_eq_put hc (by omega) h]

/-- The memory with the bytes of `src` at position `w`. -/
def written (cap : Capacity) (m : Shm) (w : UInt64) (src : Buf) : Shm :=
  { m with data := put cap.val m.data w.toNat src.bytes }

theorem length_le_of_not_rejects {src : Buf} (h : ¬ b.Rejects cap src.len) :
    src.bytes.length ≤ cap.val := by
  simp only [BatchWriter.Rejects, Buf.toNat_len, Capacity.maxWriteSize, not_or, not_lt] at h
  omega

theorem run_batchTryWrite (data : Option Buf) :
    (b.tryWrite cap data).run Shm.exec m =
      match data with
      | none => ((-1, b), m)
      | some src =>
        if b.Rejects cap src.len then ((-1, b), m)
        else ((0, b.advance src.len), written cap m b.w src) := by
  rcases data with _ | src
  · rfl
  · simp only [BatchWriter.tryWrite]
    split_ifs with h
    · rfl
    · rw [Prog.run_bind, run_ringCopyIn (length_le_of_not_rejects h)]
      rfl

/-- A reservation puts the bytes where `TryWrite` would. -/
theorem run_reserveFill (src : Buf) :
    (b.reserveFill cap src).run Shm.exec m =
      if b.reserve cap src.len = none then ((false, b), m)
      else ((true, b.advance src.len), written cap m b.w src) := by
  have hc := cap.pos
  have hlt := Nat.mod_lt b.w.toNat hc
  unfold BatchWriter.reserveFill
  rcases hr : b.reserve cap src.len with _ | off
  · rfl
  · rw [if_neg (by simp)]
    unfold BatchWriter.reserve at hr
    split_ifs at hr with hrej htail
    cases hr
    rw [ringPhys_eq, Buf.toNat_len] at htail
    simp only []
    rw [Prog.run_bind, run_memcpyTo, ringPhys_eq, blit_eq_put hc (by omega)]
    rfl

theorem not_rejects_of_reserve {src : Buf} (h : b.reserve cap src.len ≠ none) :
    ¬ b.Rejects cap src.len := by
  intro hrej
  exact h (if_pos hrej)

/-- **One chunk of a batch**, by either path. -/
theorem run_write (c : Chunk) :
    (write cap b c).run Shm.exec m =
      match c.data with
      | none => ((-1, b), m)
      | some src =>
        if b.Rejects cap src.len then ((-1, b), m)
        else ((0, b.advance src.len), written cap m b.w src) := by
  rcases c with data | src
  · exact run_batchTryWrite data
  · simp only [write, Chunk.data]
    rw [Prog.run_bind, run_reserveFill]
    by_cases h : b.reserve cap src.len = none
    · rw [if_pos h]
      exact run_batchTryWrite (some src)
    · rw [if_neg h, if_neg (not_rejects_of_reserve h)]
      rfl

/-- A batch just made, with the positions of `m`. -/
def fresh (m : Shm) : BatchWriter :=
  { w := m.writePos, r := m.readPos, wStart := m.writePos, count := 0, hdr := true }

theorem run_make : BatchWriter.make.run Shm.exec m = (fresh m, m) := rfl

/-- **One plain write** is the write of a new batch, published. -/
theorem run_tryWrite (data : Option Buf) :
    (tryWrite cap data).run Shm.exec m =
      match data with
      | none => (-1, m)
      | some src =>
        if (fresh m).Rejects cap src.len then (-1, m)
        else (0, { written cap m m.writePos src with
          writePos := m.writePos + src.len.toUInt64 }) := by
  rcases data with _ | src
  · rfl
  · simp only [tryWrite]
    by_cases hl : src.len = 0 ∨ cap.maxWriteSize < src.len.toNat
    · have hr : (fresh m).Rejects cap src.len := hl.elim Or.inl fun h => Or.inr (Or.inl h)
      rw [if_pos hl, if_pos hr]
      rfl
    · rw [if_neg hl]
      rw [not_or] at hl
      show Prog.run _ (if cap.word < m.writePos + src.len.toUInt64 - m.readPos then _ else _) m = _
      split_ifs with hs hr hr
      · rfl
      · exact absurd (Or.inr (Or.inr hs)) hr
      · rcases hr with hr | hr | hr
        · exact absurd hr hl.1
        · exact absurd hr hl.2
        · exact absurd hr hs
      · rw [Prog.run_bind, run_ringCopyIn (length_le_of_not_rejects hr)]
        rfl

theorem run_flush (hw : b.wStart = m.writePos) (hh : b.hdr = true) :
    b.flush.run Shm.exec m =
      ((b.count, { b with wStart := b.w, count := 0 }), { m with writePos := b.w }) := by
  unfold BatchWriter.flush
  rw [if_neg (by rw [hh]; decide)]
  split_ifs with hne
  · rfl
  · have he : b.w = b.wStart := not_not.mp hne
    rw [he, hw]
    rfl

/-! ### A batch is a plain run -/

/-- The chunks of a batch meet the results of a plain run on the memory where everything the batch
holds is published. -/
theorem run_writeAll (cap : Capacity) : ∀ (l : List Chunk) (b : BatchWriter) (m : Shm),
    b.r = m.readPos → b.wStart = m.writePos → b.hdr = true →
    ∃ rcs b' m', (writeAll cap b l).run Shm.exec m = ((rcs, b'), m') ∧
      b'.wStart = m'.writePos ∧ b'.hdr = true ∧
      (tryWriteAll cap (l.map Chunk.data)).run Shm.exec { m with writePos := b.w } =
        (rcs, { m' with writePos := b'.w })
  | [], b, m, _, hw, hh => ⟨[], b, m, rfl, hw, hh, rfl⟩
  | c :: l, b, m, hr, hw, hh => by
    have key : ∃ rc b₁ m₁, (write cap b c).run Shm.exec m = ((rc, b₁), m₁) ∧
        b₁.r = m₁.readPos ∧ b₁.wStart = m₁.writePos ∧ b₁.hdr = true ∧
        (tryWrite cap c.data).run Shm.exec { m with writePos := b.w } =
          (rc, { m₁ with writePos := b₁.w }) := by
      rw [run_write, run_tryWrite]
      rcases c.data with _ | src
      · exact ⟨_, _, _, rfl, hr, hw, hh, rfl⟩
      · have e : (fresh { m with writePos := b.w }).Rejects cap src.len ↔
            b.Rejects cap src.len := by
          unfold BatchWriter.Rejects fresh
          rw [hr]
        by_cases hrej : b.Rejects cap src.len
        · simp only [if_pos hrej, if_pos (e.mpr hrej)]
          exact ⟨_, _, _, rfl, hr, hw, hh, rfl⟩
        · simp only [if_neg hrej, if_neg (fun h => hrej (e.mp h))]
          exact ⟨_, _, _, rfl, hr, hw, hh, rfl⟩
    obtain ⟨rc, b₁, m₁, h1, hr₁, hw₁, hh₁, h2⟩ := key
    obtain ⟨rcs, b', m', h3, hw', hh', h4⟩ := run_writeAll cap l b₁ m₁ hr₁ hw₁ hh₁
    refine ⟨rc :: rcs, b', m', ?_, hw', hh', ?_⟩
    · rw [writeAll, Prog.run_bind, h1]
      simp only []
      rw [Prog.run_bind, h3]
      rfl
    · rw [List.map_cons, tryWriteAll, Prog.run_bind, h2]
      simp only []
      rw [Prog.run_bind, h4]
      rfl

/-- **A batch and its `Flush`** give the results and the memory of the plain run. -/
theorem batchAll_eq (l : List Chunk) (m : Shm) :
    (batchAll cap l).run Shm.exec m = (tryWriteAll cap (l.map Chunk.data)).run Shm.exec m := by
  obtain ⟨rcs, b', m', h1, hw, hh, h2⟩ := run_writeAll cap l (fresh m) m rfl rfl rfl
  rw [batchAll, Prog.run_bind, run_make]
  simp only []
  rw [Prog.run_bind, h1]
  simp only []
  rw [Prog.run_bind, run_flush hw hh]
  exact h2.symm

/-! ### Memories as worlds -/

/-- The reader releases some of the readable bytes, and may drain the eventfd. -/
structure Advance (m m' : Shm) : Prop where
  writePos : m'.writePos = m.writePos
  data : m'.data = m.data
  readPos : ∃ k ≤ (m.writePos - m.readPos).toNat, m'.readPos = m.readPos + UInt64.ofNat k
  efd : m'.efd = m.efd ∨ m'.efd = 0

/-- A memory whose history starts with the readable bytes. -/
def worldOf (cap : Capacity) (m : Shm) : World where
  shm := m
  published := readable cap m
  consumed := 0
  notified := 0
  rung := 0
  drained := 0

theorem readable_eq_slice (cap : Capacity) (m : Shm) :
    readable cap m =
      slice cap.val m.data m.readPos.toNat (m.writePos - m.readPos).toNat := by
  refine List.map_congr_left fun i _ => ?_
  have h := ringPhys_ofNat cap (m.readPos.toNat + i)
  rw [UInt64.ofNat_add, UInt64.ofNat_toNat] at h
  rw [h]

theorem length_readable (cap : Capacity) (m : Shm) :
    (readable cap m).length = (m.writePos - m.readPos).toNat := by
  simp [readable]

theorem inv_worldOf (h : (m.writePos - m.readPos).toNat ≤ cap.val) :
    Inv cap m.readPos.toNat (worldOf cap m) where
  writePos := by
    show m.writePos = UInt64.ofNat (m.readPos.toNat + (readable cap m).length)
    rw [length_readable, UInt64.ofNat_add, UInt64.ofNat_toNat, UInt64.ofNat_toNat,
      UInt64.add_comm, UInt64.sub_add_cancel]
  readPos := by
    show m.readPos = UInt64.ofNat (m.readPos.toNat + 0)
    rw [Nat.add_zero, UInt64.ofNat_toNat]
  le := Nat.zero_le _
  fit := by
    show (readable cap m).length ≤ 0 + cap.val
    rw [length_readable]
    omega
  live i _ hi := by
    have hi' : i < (m.writePos - m.readPos).toNat := by rw [← length_readable cap]; exact hi
    show (readable cap m)[i]? = _
    rw [readable_eq_slice, getElem?_slice hi']
    rfl
  rung := Nat.zero_le _
  drained := le_rfl
  bell _ := rfl

variable {base : ℕ} {g g' : World}

/-- The readable bytes of a well-formed world. -/
theorem readable_of_inv (h : Inv cap base g) :
    readable cap g.shm = g.published.drop g.consumed := by
  refine List.ext_getElem? fun i => ?_
  have hle := h.le
  rw [List.getElem?_drop]
  rcases Nat.lt_or_ge i (g.published.length - g.consumed) with hi | hi
  · rw [h.live (g.consumed + i) (by omega) (by omega)]
    unfold readable
    rw [h.avail, List.getElem?_map, List.getElem?_range hi, h.readPos, Option.map_some,
      ← UInt64.ofNat_add, ringPhys_ofNat, Nat.add_assoc]
  · rw [List.getElem?_eq_none (by rw [length_readable, h.avail]; exact hi),
      List.getElem?_eq_none (by omega)]

/-- The reader's progress on the memory is progress on the world. -/
theorem rStep_of_advance (hi : Inv cap base g) {m : Shm} (h : Advance g.shm m) :
    ∃ g', g'.shm = m ∧ RStep g g' := by
  obtain ⟨k, hk, hr⟩ := h.readPos
  rw [hi.avail] at hk
  have hle := hi.le
  have hbell : ∃ d, (m.efd = g.shm.efd ∧ d = g.drained) ∨ (m.efd = 0 ∧ d = g.rung) := by
    rcases h.efd with he | he
    · exact ⟨g.drained, Or.inl ⟨he, rfl⟩⟩
    · exact ⟨g.rung, Or.inr ⟨he, rfl⟩⟩
  obtain ⟨d, hd⟩ := hbell
  refine ⟨{ g with shm := m, consumed := g.consumed + k, drained := d }, rfl, ?_⟩
  refine ⟨h.writePos, h.data, rfl, rfl, rfl, by simp, ?_, ?_, hd⟩
  · show g.consumed + k ≤ max g.consumed g.published.length
    omega
  · show m.readPos = g.shm.readPos + UInt64.ofNat (g.consumed + k - g.consumed)
    rw [hr, Nat.add_sub_cancel_left]

/-- What holds of the writer on worlds holds on memories. -/
theorem wp_shm {α : Type} {Q : α → World → Prop} : ∀ {p : RingM α} {g : World}, Inv cap base g →
    wpW cap base p Q g →
    p.wp Shm.exec Advance (fun _ _ => True)
      (fun a m => ∃ g, g.shm = m ∧ Inv cap base g ∧ Q a g) g.shm
  | .ret a, g, hi, h => ⟨g, rfl, hi, h⟩
  | .op c k, g, hi, h => by
    intro m hm
    obtain ⟨g', rfl, hr⟩ := rStep_of_advance hi hm
    obtain ⟨hw, hk⟩ := h g' hr
    refine ⟨trivial, ?_⟩
    rw [← after_shm cap g' c]
    exact wp_shm (hw.inv (hr.inv hi)) hk

/-- The history is not looked at. -/
theorem run_shm (cap : Capacity) {α : Type} : ∀ (p : RingM α) (g : World),
    p.run Shm.exec g.shm =
      ((p.run (World.exec cap) g).1, (p.run (World.exec cap) g).2.shm)
  | .ret _, _ => rfl
  | .op c k, g => by
    have h := run_shm cap (k (Shm.exec c g.shm).1) (g.after cap c)
    rw [after_shm] at h
    exact h

/-! ### What a session publishes -/

/-- The bytes of some chunks. -/
def bytesOf (l : List Buf) : List UInt8 := l.flatMap Buf.bytes

theorem bytesOf_append (l l' : List Buf) : bytesOf (l ++ l') = bytesOf l ++ bytesOf l' :=
  List.flatMap_append

theorem bytesOf_singleton (src : Buf) : bytesOf [src] = src.bytes := by simp [bytesOf]

/-- The world while a session goes on that started with the stream `S`: the flushed chunks are
published, the batch holds the kept ones, and the records say where each of them starts. -/
structure Holds (cap : Capacity) (base : ℕ) (S : List UInt8) (s : Session) (g : World) :
    Prop where
  published : g.published = S ++ bytesOf s.flushed
  pending : ∃ rc, Pending cap base g s.b rc (bytesOf (s.kept.map Prod.fst))
  records : ∀ n src pending count, s.kept[n]? = some (src, pending, count) →
    pending.toNat = (bytesOf ((s.kept.take n).map Prod.fst)).length
  sizes : ∀ src ∈ s.retained, 0 < src.bytes.length ∧ src.bytes.length ≤ cap.maxWriteSize

variable {S : List UInt8} {s : Session}

/-- All retained chunks fit behind `S`. -/
theorem Holds.fit (h : Holds cap base S s g) :
    S.length + (bytesOf s.retained).length ≤ g.consumed + cap.val := by
  obtain ⟨rc, hp⟩ := h.pending
  have h1 := hp.fit
  have h2 := hp.le
  rw [h.published] at h1
  unfold Session.retained
  rw [bytesOf_append, List.length_append]
  rw [List.length_append] at h1
  omega

theorem write_spec {Q : ℤ × BatchWriter → World → Prop} {rc : ℕ} {l : List UInt8} {c : Chunk}
    (hb : Pending cap base g b rc l)
    (hok : ∀ src g', c.data = some src → ¬ b.Rejects cap src.len →
      Wrote cap base g
        (put cap.val g.shm.data (base + (g.published.length + l.length)) src.bytes) [] g' →
      Pending cap base g' (b.advance src.len) rc (l ++ src.bytes) →
      Q (0, b.advance src.len) g')
    (hfail : Q (-1, b) g) : wpW cap base (write cap b c) Q g := by
  rcases c with data | src
  · exact batchTryWrite_spec hb hok fun _ => hfail
  · rw [write, wpW, Prog.wp_bind]
    refine reserveFill_spec hb (fun g' hr hw hp => ?_) fun _ => ?_
    · exact hok src g' rfl (not_rejects_of_reserve hr) hw hp
    · exact batchTryWrite_spec hb hok fun _ => hfail

theorem size_of_not_rejects {src : Buf} (h : ¬ b.Rejects cap src.len) :
    0 < src.bytes.length ∧ src.bytes.length ≤ cap.maxWriteSize := by
  simp only [BatchWriter.Rejects, len_eq_zero, Buf.toNat_len, not_or, not_lt] at h
  omega

/-- The records after one more chunk. -/
theorem Holds.records_append (h : Holds cap base S s g) (src : Buf) :
    ∀ n src' pending count,
      (s.kept ++ [(src, s.b.pendingBytes, s.b.count)])[n]? = some (src', pending, count) →
      pending.toNat = (bytesOf
        (((s.kept ++ [(src, s.b.pendingBytes, s.b.count)]).take n).map Prod.fst)).length := by
  intro n src' pending count hn
  obtain ⟨rc, hp⟩ := h.pending
  rcases Nat.lt_or_ge n s.kept.length with hlt | hge
  · rw [List.getElem?_append_left hlt] at hn
    rw [List.take_append_of_le_length hlt.le]
    exact h.records n src' pending count hn
  · have hlen : n < s.kept.length + 1 := by
      have := (List.getElem?_eq_some_iff.mp hn).1
      rwa [List.length_append, List.length_singleton] at this
    obtain rfl : n = s.kept.length := by omega
    rw [List.getElem?_append_right le_rfl, Nat.sub_self] at hn
    cases hn
    rw [List.take_append_of_le_length le_rfl, List.take_length]
    exact hp.toNat_pendingBytes

/-- A chunk keeps the invariant of the session. -/
theorem Session.write_spec {c : Chunk} (h : Holds cap base S s g) :
    wpW cap base (s.write cap c) (fun s' g' => Holds cap base S s' g') g := by
  obtain ⟨rc, hp⟩ := h.pending
  unfold Session.write
  rw [wpW, Prog.wp_bind]
  refine Batch.write_spec hp (fun src g' hc hrej hw hp' => ?_) ?_
  · have hpub : g'.published = g.published := by rw [hw.published, List.append_nil]
    simp only [hc]
    refine ⟨hpub.trans h.published, ⟨rc, ?_⟩, h.records_append src, fun src' hs => ?_⟩
    · rw [List.map_append, bytesOf_append]
      show Pending cap base g' _ rc (_ ++ bytesOf [src])
      rw [bytesOf_singleton]
      exact hp'
    · simp only [Session.retained, List.map_append, ← List.append_assoc] at hs
      rcases List.mem_append.mp hs with hs | hs
      · exact h.sizes src' hs
      · rw [List.mem_singleton.mp hs]
        exact size_of_not_rejects hrej
  · rcases c.data with _ | src
    · exact ⟨h.published, h.pending, h.records, h.sizes⟩
    · exact ⟨h.published, h.pending, h.records, h.sizes⟩

theorem mem_of_mem_take_kept {n : ℕ} {src : Buf}
    (h : src ∈ s.flushed ++ (s.kept.take n).map Prod.fst) : src ∈ s.retained := by
  rcases List.mem_append.mp h with h | h
  · exact List.mem_append_left _ h
  · obtain ⟨x, hx, rfl⟩ := List.mem_map.mp h
    exact List.mem_append_right _ (List.mem_map_of_mem (List.mem_of_mem_take hx))

/-- Rewinding to a record keeps the chunks before it. -/
theorem Holds.rewindTo (h : Holds cap base S s g) {n : ℕ} {src : Buf} {p : UInt64} {count : ℤ}
    (hn : s.kept[n]? = some (src, p, count)) :
    Holds cap base S { s with b := s.b.rewindTo p count, kept := s.kept.take n } g := by
  obtain ⟨rc, hp⟩ := h.pending
  have hrec := h.records n src p count hn
  have hsplit : bytesOf (s.kept.map Prod.fst) =
      bytesOf ((s.kept.take n).map Prod.fst) ++ bytesOf ((s.kept.drop n).map Prod.fst) := by
    rw [← bytesOf_append, ← List.map_append, List.take_append_drop]
  refine ⟨h.published, ⟨rc, ?_⟩, fun k src' pending count' hk => ?_, fun src' hs => ?_⟩
  · have hle : p ≤ s.b.pendingBytes := by
      rw [UInt64.le_iff_toNat_le, hp.toNat_pendingBytes, hrec, hsplit, List.length_append]
      omega
    have hpend := hp.rewindTo count hle
    rw [hrec, hsplit, List.take_left] at hpend
    exact hpend
  · rcases Nat.lt_or_ge k n with hlt | hge
    · rw [List.getElem?_take_of_lt hlt] at hk
      rw [List.take_take, min_eq_left hlt.le]
      exact h.records k src' pending count' hk
    · rw [List.getElem?_eq_none (by rw [List.length_take]; omega)] at hk
      cases hk
  · exact h.sizes src' (mem_of_mem_take_kept hs)

/-- **One operation** keeps the invariant of the session. -/
theorem Session.step_spec {o : Op} (h : Holds cap base S s g) :
    wpW cap base (s.step cap o) (fun s' g' => Holds cap base S s' g') g := by
  obtain ⟨rc, hp⟩ := h.pending
  cases o with
  | write c => exact Session.write_spec h
  | flush =>
    rw [Session.step, wpW, Prog.wp_bind]
    refine flush_spec hp fun g' hw hp' => ?_
    refine ⟨?_, ⟨rc, hp'⟩, fun n _ _ _ hn => by simp at hn, fun src hs => ?_⟩
    · rw [hw.published, h.published, List.append_assoc, ← bytesOf_append]
      rfl
    · refine h.sizes src ?_
      simpa [Session.retained] using hs
  | cancel =>
    refine ⟨h.published, ⟨rc, hp.cancel⟩, fun n _ _ _ hn => by simp at hn, fun src hs => ?_⟩
    refine h.sizes src (List.mem_append_left _ ?_)
    simpa [Session.retained] using hs
  | rewindTo n =>
    rw [Session.step]
    rcases hn : s.kept[n]? with _ | ⟨src, p, count⟩
    · exact h
    · exact h.rewindTo hn

theorem Session.steps_spec : ∀ {l : List Op} {s : Session} {g : World}, Holds cap base S s g →
    wpW cap base (s.steps cap l) (fun s' g' => Holds cap base S s' g') g
  | [], _, _, h => h
  | o :: l, s, g, h => by
    rw [Session.steps, wpW, Prog.wp_bind]
    exact Prog.wp_mono (fun s' g' h' => Session.steps_spec h') (Session.step_spec h)

/-- **A session** keeps its invariant, whatever the reader releases meanwhile. -/
theorem session_spec {l : List Op} (hi : Inv cap base g) :
    wpW cap base (session cap l) (fun s' g' => Holds cap base g.published s' g') g := by
  rw [session, wpW, Prog.wp_bind]
  refine make_spec hi fun b g' hw _ _ _ hp => ?_
  refine Session.steps_spec ⟨hw.published, ⟨_, hp⟩, fun n _ _ _ hn => ?_, fun src hs => ?_⟩
  · simp at hn
  · simp [Session.retained] at hs

theorem flushedSession_spec {l : List Op} (hi : Inv cap base g) :
    wpW cap base (flushedSession cap l)
      (fun s' g' => Holds cap base g.published s' g' ∧ s'.kept = []) g := by
  rw [flushedSession, wpW, Prog.wp_bind]
  refine Prog.wp_mono (fun s g₁ h => ?_) (session_spec hi)
  have hs := Session.step_spec (o := .flush) h
  rw [Session.step, wpW, Prog.wp_bind] at hs
  rw [Session.step, Prog.wp_bind]
  exact Prog.wp_mono (fun r g₂ h₂ => ⟨h₂, rfl⟩) hs

/-- A plain run over chunks that all fit accepts and publishes them. -/
theorem tryWriteAll_spec : ∀ {l : List Buf} {g : World}, Inv cap base g →
    (∀ src ∈ l, 0 < src.bytes.length ∧ src.bytes.length ≤ cap.maxWriteSize) →
    g.published.length + (bytesOf l).length ≤ g.consumed + cap.val →
    wpW cap base (tryWriteAll cap (l.map some))
      (fun rcs g' => rcs = l.map (fun _ => 0) ∧ Inv cap base g' ∧
        g'.published = g.published ++ bytesOf l) g
  | [], g, hi, _, _ => ⟨rfl, hi, by simp [bytesOf]⟩
  | src :: l, g, hi, hs, hfit => by
    have hb : bytesOf (src :: l) = src.bytes ++ bytesOf l := rfl
    rw [hb, List.length_append] at hfit
    have h0 := hs src List.mem_cons_self
    rw [List.map_cons, tryWriteAll, wpW, Prog.wp_bind]
    refine tryWrite_spec hi (fun src' g₁ hsrc _ hw => ?_) fun g₁ _ hno => ?_
    · cases hsrc
      have hc := hw.consumed
      rw [Prog.wp_bind]
      refine Prog.wp_mono (fun rcs g' h => ?_) (tryWriteAll_spec (l := l) hw.inv
        (fun x hx => hs x (List.mem_cons_of_mem _ hx))
        (by rw [hw.published, List.length_append]; omega))
      obtain ⟨rfl, hi', hp⟩ := h
      exact ⟨rfl, hi', by rw [hp, hw.published, hb, List.append_assoc]⟩
    · rcases hno src rfl with h | h | h <;> omega

/-- A writer running alone stays within its guarantee, and its claim holds on the memory. -/
theorem run_of_wp {α : Type} {p : RingM α} {Q : α → World → Prop} (h : wpW cap base p Q g) :
    ∃ g', p.run Shm.exec g.shm = ((p.run Shm.exec g.shm).1, g'.shm) ∧
      WStep cap base g g' ∧ Q (p.run Shm.exec g.shm).1 g' := by
  have hrun := run_shm cap p g
  refine ⟨(p.run (World.exec cap) g).2, ?_, ?_, ?_⟩
  · rw [hrun]
  · exact Prog.wp_run rStep_refl wStep_refl (fun _ _ _ => WStep.trans) h
  · rw [hrun]
    exact Prog.wp_exec (Prog.exec_run _ rStep_refl p g) h

/-- The ring after a writer running alone that has published `l`. -/
theorem readable_of_published {l : List UInt8} (hi : Inv cap base g) (hw : WStep cap base g g')
    (hp : g'.published = g.published ++ l) (hc : g.consumed = 0) :
    readable cap g'.shm = g.published ++ l ∧
      g'.shm.writePos = g.shm.writePos + UInt64.ofNat l.length := by
  refine ⟨?_, ?_⟩
  · rw [readable_of_inv (hw.inv hi), hw.consumed, hc, List.drop_zero, hp]
  · rw [hw.writePos, hp, List.length_append, Nat.add_sub_cancel_left]

/-- **After a session and its `Flush`**, with the reader idle, the ring reads as after a plain run
over the retained chunks, all of which the plain run accepts. -/
theorem readable_session (hm : (m.writePos - m.readPos).toNat ≤ cap.val) (l : List Op) :
    ∃ s m' mp, (flushedSession cap l).run Shm.exec m = (s, m') ∧
      (tryWriteAll cap (s.retained.map some)).run Shm.exec m =
        (s.retained.map (fun _ => 0), mp) ∧
      readable cap m' = readable cap mp ∧ m'.writePos = mp.writePos := by
  have hi := inv_worldOf hm
  obtain ⟨g₁, hrun₁, hw₁, ⟨hh, hk⟩⟩ := run_of_wp (flushedSession_spec (l := l) hi)
  have hpub := hh.published
  have hret : bytesOf ((flushedSession cap l).run Shm.exec m).1.retained =
      bytesOf ((flushedSession cap l).run Shm.exec m).1.flushed := by
    unfold Session.retained
    have hk' : ((flushedSession cap l).run Shm.exec m).1.kept = [] := hk
    rw [hk', List.map_nil, List.append_nil]
  have hfit := hh.fit
  rw [hw₁.consumed] at hfit
  obtain ⟨g₂, hrun₂, hw₂, hrc, _, hp₂⟩ := run_of_wp (tryWriteAll_spec hi hh.sizes hfit)
  obtain ⟨h1, h2⟩ := readable_of_published hi hw₁ hpub rfl
  obtain ⟨h3, h4⟩ := readable_of_published hi hw₂ hp₂ rfl
  refine ⟨_, g₁.shm, g₂.shm, hrun₁, ?_, ?_, ?_⟩
  · rw [← hrc]
    exact hrun₂
  · exact h1.trans ((congrArg _ hret.symm).trans h3.symm)
  · rw [h2, h4]
    exact congrArg (fun x => m.writePos + UInt64.ofNat (List.length x)) hret.symm

/-! ### The snapshot of `read_pos` -/

/-- A chunk is accepted where it fits the true counts. -/
theorem not_rejects_of_fit {n c : ℕ} {src : Buf} (hw : b.w = UInt64.ofNat (base + n))
    (hr : b.r = UInt64.ofNat (base + c)) (hc : c ≤ n)
    (hsize : 0 < src.bytes.length ∧ src.bytes.length ≤ cap.maxWriteSize)
    (hfit : n + src.bytes.length ≤ c + cap.val) : ¬ b.Rejects cap src.len := by
  have hmax : src.bytes.length ≤ cap.val := by
    have := hsize.2
    unfold Capacity.maxWriteSize at this
    omega
  unfold BatchWriter.Rejects
  rw [len_eq_zero, Buf.toNat_len, toUInt64_len, hw, hr, word_lt_iff hc (by omega) hmax]
  omega

/-- **What a batch accepts, a plain write accepts**: on the memory as it is, and on the memory where
the batch is already published. -/
theorem tryWrite_of_accepted {rc : ℕ} {l : List UInt8} {src : Buf}
    (hp : Pending cap base g b rc l) (hok : ¬ b.Rejects cap src.len) :
    ((tryWrite cap (some src)).run Shm.exec g.shm).1 = 0 ∧
      ((tryWrite cap (some src)).run Shm.exec { g.shm with writePos := b.w }).1 = 0 := by
  have hsize := size_of_not_rejects hok
  have hi := hp.inv
  have hle := hi.le
  have hrc := hp.le
  rw [hp.rejects_iff] at hok
  have h1 : ¬ (fresh g.shm).Rejects cap src.len :=
    not_rejects_of_fit hi.writePos hi.readPos hle hsize (by omega)
  have h2 : ¬ (fresh { g.shm with writePos := b.w }).Rejects cap src.len := by
    refine not_rejects_of_fit (hp.w.trans ?_) hi.readPos (by omega) hsize
      (n := g.published.length + l.length) (by omega)
    rw [Nat.add_assoc]
  rw [run_tryWrite, run_tryWrite]
  simp only [if_neg h1, if_neg h2, and_self]

/-- While the reader advances, a session only accepts what a plain write would accept. -/
theorem session_accepts (hm : (m.writePos - m.readPos).toNat ≤ cap.val) {l : List Op}
    {s : Session} {m₁ m₂ : Shm} (hrun : (session cap l).Exec Shm.exec Advance m s m₁)
    (hadv : Advance m₁ m₂) {c : Chunk} {src : Buf} (hc : c.data = some src)
    (hok : ((write cap s.b c).run Shm.exec m₂).1.1 = 0) :
    ((tryWrite cap (some src)).run Shm.exec m₂).1 = 0 ∧
      ((tryWrite cap (some src)).run Shm.exec { m₂ with writePos := s.b.w }).1 = 0 := by
  have hi := inv_worldOf hm
  obtain ⟨g₁, rfl, hi₁, hh⟩ := Prog.wp_exec hrun (wp_shm hi (session_spec (l := l) hi))
  obtain ⟨g₂, rfl, hr⟩ := rStep_of_advance hi₁ hadv
  obtain ⟨rc, hp⟩ := hh.pending
  refine tryWrite_of_accepted (hp.rStep hr) fun hrej => ?_
  rw [run_write, hc] at hok
  simp [hrej] at hok

/-- **Batched writing equals plain writing.** With the reader idle, a batch and its `Flush` give the
results, the data area and the positions of the plain run; a session with `Cancel` and `RewindTo`
gives the readable bytes and the `write_pos` of the plain run over the retained chunks; and while
the reader advances, every chunk a batch accepts would be accepted by `RingBuf::TryWrite`. -/
theorem batch_eq_plain (cap : Capacity) (m : Shm)
    (hm : (m.writePos - m.readPos).toNat ≤ cap.val) :
    (∀ l : List Chunk, (batchAll cap l).run Shm.exec m =
      (tryWriteAll cap (l.map Chunk.data)).run Shm.exec m) ∧
    (∀ l : List Op, ∃ s m' mp, (flushedSession cap l).run Shm.exec m = (s, m') ∧
      (tryWriteAll cap (s.retained.map some)).run Shm.exec m =
        (s.retained.map (fun _ => 0), mp) ∧
      readable cap m' = readable cap mp ∧ m'.writePos = mp.writePos) ∧
    ∀ (l : List Op) (s : Session) (m₁ m₂ : Shm),
      (session cap l).Exec Shm.exec Advance m s m₁ → Advance m₁ m₂ →
      ∀ (c : Chunk) (src : Buf), c.data = some src →
        ((write cap s.b c).run Shm.exec m₂).1.1 = 0 →
        ((tryWrite cap (some src)).run Shm.exec m₂).1 = 0 ∧
          ((tryWrite cap (some src)).run Shm.exec { m₂ with writePos := s.b.w }).1 = 0 :=
  ⟨fun l => batchAll_eq l m, fun l => readable_session hm l,
    fun _ _ _ _ hrun hadv _ _ hc hok => session_accepts hm hrun hadv hc hok⟩

/-- Two chunks on a fresh ring, the second rolled back. -/
theorem batch_eq_plain_init :
    (Shm.init.writePos - Shm.init.readPos).toNat ≤ Capacity.min.val ∧
    ∃ s m' mp, (flushedSession .min [.write (.reserve ⟨[1, 2], by decide⟩),
        .write (.tryWrite (some ⟨[3], by decide⟩)), .rewindTo 1]).run Shm.exec .init = (s, m') ∧
      (tryWriteAll .min (s.retained.map some)).run Shm.exec .init =
        (s.retained.map (fun _ => 0), mp) ∧
      readable .min m' = readable .min mp ∧ m'.writePos = mp.writePos :=
  ⟨by decide, (batch_eq_plain .min .init (by decide)).2.1 _⟩

end ShmIpc.Ring.Batch
