import ShmIpc.Ring.History

/-! # The writer's side of the ring

Preconditions of the writer's operations, for any progress of the reader between two accesses
(`wpW`). `Wrote g d l g'` says how the writer has moved the world from `g` to `g'`: the data area
is `d` and `l` has been published; `Pending g b l` that the batch writer `b` holds the unpublished
bytes `l`. Everything rests on `ringCopyIn_spec`: a copy within the free space leaves the bytes in
flight alone, whatever the reader releases meanwhile. -/

namespace ShmIpc.Ring.Writer

open ShmIpc.Lib.RelyGuarantee ShmIpc.Lib.Window
open ShmIpc.Ring.RingBuf ShmIpc.Ring.History

variable {cap : Capacity} {base : ℕ} {g g' g'' : World} {α : Type}

/-- The precondition of a program of the writer. -/
abbrev wpW (cap : Capacity) (base : ℕ) (p : RingM α) (Q : α → World → Prop) (g : World) : Prop :=
  p.wp (World.exec cap) RStep (WStep cap base) Q g

/-- The writer has made the data area `d` and published `l`. -/
structure Wrote (cap : Capacity) (base : ℕ) (g : World) (d : ℕ → UInt8) (l : List UInt8)
    (g' : World) : Prop where
  inv : Inv cap base g'
  data : g'.shm.data = d
  published : g'.published = g.published ++ l
  consumed : g.consumed ≤ g'.consumed
  notified : g'.notified = g.notified
  rung : g'.rung = g.rung
  efd : g'.shm.efd = g.shm.efd ∨ g'.shm.efd = 0

theorem Wrote.trans {d d' : ℕ → UInt8} {l l' : List UInt8} (h : Wrote cap base g d l g')
    (h' : Wrote cap base g' d' l' g'') : Wrote cap base g d' (l ++ l') g'' where
  inv := h'.inv
  data := h'.data
  published := by rw [h'.published, h.published, List.append_assoc]
  consumed := h.consumed.trans h'.consumed
  notified := h'.notified.trans h.notified
  rung := h'.rung.trans h.rung
  efd := by
    rcases h'.efd with h1 | h1
    · rw [h1]; exact h.efd
    · exact Or.inr h1

theorem efd_of_rStep (h : RStep g g') : g'.shm.efd = g.shm.efd ∨ g'.shm.efd = 0 := by
  rcases h.bell with ⟨h1, -⟩ | ⟨h1, -⟩
  · exact Or.inl h1
  · exact Or.inr h1

/-- The reader's progress, seen by the writer. -/
theorem wrote_of_rStep (h : RStep g g') (hi : Inv cap base g) :
    Wrote cap base g g.shm.data [] g' where
  inv := h.inv hi
  data := h.data
  published := by rw [h.published, List.append_nil]
  consumed := h.consumed
  notified := h.notified
  rung := h.rung
  efd := efd_of_rStep h

theorem wrote_refl (hi : Inv cap base g) : Wrote cap base g g.shm.data [] g :=
  wrote_of_rStep (rStep_refl g) hi

/-! ### Accesses -/

theorem loadWritePos_spec {Q : UInt64 → World → Prop} (hi : Inv cap base g)
    (h : ∀ g', Wrote cap base g g.shm.data [] g' →
      Q (UInt64.ofNat (base + g.published.length)) g') :
    wpW cap base loadWritePos Q g := by
  intro g' hr
  refine ⟨wStep_refl _, ?_⟩
  have hw : g'.shm.writePos = UInt64.ofNat (base + g.published.length) := by
    rw [hr.writePos, hi.writePos]
  show Q g'.shm.writePos g'
  rw [hw]
  exact h g' (wrote_of_rStep hr hi)

theorem loadReadPos_spec {Q : UInt64 → World → Prop} (hi : Inv cap base g)
    (h : ∀ g', Wrote cap base g g.shm.data [] g' → Q (UInt64.ofNat (base + g'.consumed)) g') :
    wpW cap base loadReadPos Q g := by
  intro g' hr
  have hi' := hr.inv hi
  refine ⟨wStep_refl _, ?_⟩
  show Q g'.shm.readPos g'
  rw [hi'.readPos]
  exact h g' (wrote_of_rStep hr hi)

theorem storeWritePos_spec {Q : Unit → World → Prop} {n : ℕ} (hi : Inv cap base g)
    (hn : g.published.length + n ≤ g.consumed + cap.val)
    (h : ∀ g', Wrote cap base g g.shm.data
      (slice cap.val g.shm.data (base + g.published.length) n) g' → Q () g') :
    wpW cap base (storeWritePos (UInt64.ofNat (base + g.published.length + n))) Q g := by
  intro g' hr
  have hi' := hr.inv hi
  have hp := hr.published
  have hc := hr.consumed
  obtain ⟨hw, hpub⟩ := wStep_storeWritePos (n := n) hi' (by rw [hp]; omega)
  rw [hp, hr.data] at hpub
  rw [hp] at hw
  have he := efd_of_rStep hr
  exact ⟨hw, h _ ⟨hw.inv hi', hr.data, hpub, hc, hr.notified, hr.rung, he⟩⟩

/-- A `memcpy` outside the live window. -/
theorem memcpyTo_spec {Q : Unit → World → Prop} :
    ∀ {l : List UInt8} {off : ℕ} {g : World}, Inv cap base g →
      (∀ i, g.consumed ≤ i → i < g.published.length →
        (base + i) % cap.val < off ∨ off + l.length ≤ (base + i) % cap.val) →
      (∀ g', Wrote cap base g (blit g.shm.data off l) [] g' → Q () g') →
      wpW cap base (memcpyTo off l) Q g
  | [], off, g, hi, _, h => by
    refine h g ?_
    rw [blit_nil]
    exact wrote_refl hi
  | b :: l, off, g, hi, hfree, h => by
    rw [memcpyTo, wpW, Prog.wp_bind]
    intro g' hr
    have hi' := hr.inv hi
    have hp := hr.published
    have hc := hr.consumed
    have hstep : WStep cap base g' (g'.after cap (.writeByte off b)) := by
      refine wStep_writeByte fun i h1 h2 => ?_
      rcases hfree i (by omega) (by rw [← hp]; exact h2) with h3 | h3
      · omega
      · rw [List.length_cons] at h3; omega
    refine ⟨hstep, ?_⟩
    have hdata : (g'.after cap (.writeByte off b)).shm.data =
        fun x => if x = off then b else g.shm.data x := by
      rw [← hr.data]; rfl
    have he := efd_of_rStep hr
    have hw : Wrote cap base g (fun x => if x = off then b else g.shm.data x) []
        (g'.after cap (.writeByte off b)) :=
      ⟨hstep.inv hi', hdata, by rw [List.append_nil]; exact hp, hc, hr.notified, hr.rung, he⟩
    refine memcpyTo_spec hw.inv (fun i h1 h2 => ?_) fun g'' hg => h g'' ?_
    · have h3 := hfree i (hw.consumed.trans h1) (by
        have := hw.published; rw [List.append_nil] at this; rw [← this]; exact h2)
      rw [List.length_cons] at h3
      omega
    · rw [blit_cons, ← hdata]
      exact hw.trans hg

/-- A live position is not in the cells of a write within the free space. -/
theorem live_off (base : ℕ) {i n len : ℕ} (h1 : g.consumed ≤ i)
    (h2 : i < g.published.length) (hn : g.published.length ≤ n)
    (hfit : n + len ≤ g.consumed + cap.val) {j : ℕ} (hj : j < len) :
    (base + i) % cap.val ≠ (base + n + j) % cap.val := by
  intro h
  have := mod_inj h (by omega) (by omega)
  omega

/-- The cells from the offset of `n` on, up to the ring end, hold no live position. -/
theorem live_cells {i n len : ℕ} (h1 : g.consumed ≤ i) (h2 : i < g.published.length)
    (hn : g.published.length ≤ n) (hfit : n + len ≤ g.consumed + cap.val)
    (hend : (base + n) % cap.val + len ≤ cap.val) :
    (base + i) % cap.val < (base + n) % cap.val ∨
      (base + n) % cap.val + len ≤ (base + i) % cap.val := by
  by_contra hno
  have hj : (base + i) % cap.val - (base + n) % cap.val < len := by omega
  refine live_off base h1 h2 hn hfit hj ?_
  rw [add_mod_of_lt (p := base + n) (by omega)]
  omega

/-- **The copy of the writers**: within the free space it puts the bytes in place, on both sides of
the ring end, and no byte in flight is touched. -/
theorem ringCopyIn_spec {Q : Unit → World → Prop} {n : ℕ} {src : Buf} (hi : Inv cap base g)
    (hn : g.published.length ≤ n) (hfit : n + src.bytes.length ≤ g.consumed + cap.val)
    (hlen : src.bytes.length ≤ cap.val)
    (h : ∀ g', Wrote cap base g (put cap.val g.shm.data (base + n) src.bytes) [] g' → Q () g') :
    wpW cap base (ringCopyIn cap (UInt64.ofNat (base + n)) src) Q g := by
  have hc := cap.pos
  have hlt := Nat.mod_lt (base + n) hc
  unfold ringCopyIn
  rw [ringPhys_ofNat]
  simp only [Buf.toNat_len]
  split_ifs with hs
  · refine memcpyTo_spec hi (fun i h1 h2 => live_cells h1 h2 hn hfit (by omega))
      fun g' hg => h g' ?_
    rw [← blit_eq_put hc (by omega)]
    exact hg
  · rw [wpW, Prog.wp_bind]
    refine memcpyTo_spec hi (fun i h1 h2 => ?_) fun g₁ hg₁ => ?_
    · rw [List.length_take]
      exact live_cells h1 h2 hn (by omega) (by omega)
    · have hp₁ : g₁.published = g.published := by
        rw [hg₁.published, List.append_nil]
      refine memcpyTo_spec hg₁.inv (fun i h1 h2 => ?_) fun g₂ hg₂ => h g₂ ?_
      · by_contra hno
        rw [List.length_drop] at hno
        have hlt' := Nat.mod_lt (base + i) hc
        have hc₁ := hg₁.consumed
        have hj : (base + i) % cap.val + (cap.val - (base + n) % cap.val) < src.bytes.length := by
          omega
        have hfit₁ : n + src.bytes.length ≤ g₁.consumed + cap.val := by omega
        refine live_off base h1 h2 (by rw [hp₁]; exact hn) hfit₁ hj ?_
        have e : base + n + ((base + i) % cap.val + (cap.val - (base + n) % cap.val)) =
            (base + i) % cap.val + cap.val * ((base + n) / cap.val + 1) := by
          have e1 := Nat.div_add_mod (base + n) cap.val
          have e2 : cap.val * ((base + n) / cap.val + 1) =
              cap.val * ((base + n) / cap.val) + cap.val := by ring
          omega
        rw [e, Nat.add_mul_mod_self_left, Nat.mod_mod]
      · rw [← blit_blit_eq_put hc (by omega) hlen, ← hg₁.data]
        exact hg₁.trans hg₂

/-! ### `RingBuf::TryWrite` -/

theorem toUInt64_len (src : Buf) : src.len.toUInt64 = UInt64.ofNat src.bytes.length := by
  apply UInt64.toNat_inj.mp
  have := src.lt
  rw [UInt32.toNat_toUInt64, Buf.toNat_len, UInt64.toNat_ofNat', Nat.mod_eq_of_lt (by omega)]

theorem len_eq_zero (src : Buf) : src.len = 0 ↔ src.bytes.length = 0 := by
  rw [← UInt32.toNat_inj, Buf.toNat_len]; rfl

/-- The space check, on the true counts. -/
theorem word_lt_iff {n c len : ℕ} (hc : c ≤ n) (hn : n ≤ c + cap.val) (hlen : len ≤ cap.val) :
    cap.word < UInt64.ofNat (base + n) + UInt64.ofNat len - UInt64.ofNat (base + c) ↔
      c + cap.val < n + len := by
  have := cap.lt
  rw [← UInt64.ofNat_add, UInt64.lt_iff_toNat_lt, cap.toNat_word,
    toNat_ofNat_sub (by omega) (by omega)]
  omega

/-- `TryWrite` publishes its bytes and returns `0`, or changes nothing and returns `-1`, the latter
only for a bad argument or when the free space it saw was too small. -/
theorem tryWrite_spec {Q : ℤ → World → Prop} {data : Option Buf} (hi : Inv cap base g)
    (hok : ∀ src g', data = some src → 0 < src.bytes.length →
      Wrote cap base g (put cap.val g.shm.data (base + g.published.length) src.bytes) src.bytes g' →
      Q 0 g')
    (hfail : ∀ g', Wrote cap base g g.shm.data [] g' →
      (∀ src, data = some src → src.bytes.length = 0 ∨ cap.maxWriteSize < src.bytes.length ∨
        g.consumed + cap.val < g.published.length + src.bytes.length) → Q (-1) g') :
    wpW cap base (tryWrite cap data) Q g := by
  rcases data with _ | src
  · exact hfail g (wrote_refl hi) fun _ h => absurd h (by simp)
  unfold tryWrite
  simp only [len_eq_zero, Buf.toNat_len]
  split_ifs with hl
  · refine hfail g (wrote_refl hi) fun s hs => ?_
    cases hs
    rcases hl with hl | hl
    · exact Or.inl hl
    · exact Or.inr (Or.inl hl)
  have hmax : src.bytes.length ≤ cap.val := by
    simp only [not_or, not_lt, Capacity.maxWriteSize] at hl; omega
  rw [wpW, Prog.wp_bind]
  refine loadWritePos_spec hi fun g₁ h₁ => ?_
  rw [Prog.wp_bind]
  refine loadReadPos_spec h₁.inv fun g₂ h₂ => ?_
  have h12 := h₁.trans h₂
  have hp₂ : g₂.published = g.published := by rw [h12.published]; simp
  have hd₂ : g₂.shm.data = g.shm.data := by rw [h12.data, h₁.data]
  have hle := h₂.inv.le
  have hfit := h₂.inv.fit
  rw [hp₂] at hle hfit
  rw [toUInt64_len]
  split_ifs with hsp <;> rw [word_lt_iff hle hfit hmax] at hsp
  · refine hfail g₂ ?_ fun s hs => ?_
    · rw [← hd₂]; exact ⟨h12.inv, rfl, by rw [hp₂]; simp, h12.consumed, h12.notified, h12.rung,
        h12.efd⟩
    · cases hs
      have := h12.consumed
      exact Or.inr (Or.inr (by omega))
  rw [Prog.wp_bind]
  refine ringCopyIn_spec h₂.inv (by rw [hp₂]) (by omega) hmax fun g₃ h₃ => ?_
  rw [Prog.wp_bind, ← UInt64.ofNat_add]
  have h13 := h12.trans h₃
  have hp₃ : g₃.published = g.published := by rw [h13.published]; simp
  have hc₃ := h₃.consumed
  rw [← hp₃]
  refine storeWritePos_spec h₃.inv (by rw [hp₃]; omega) fun g₄ h₄ => ?_
  have h14 := h13.trans h₄
  rw [h₃.data, hp₃, hd₂, slice_put cap.pos hmax] at h14
  refine hok src g₄ rfl (by omega) ?_
  simpa using h14

/-! ### `BatchWriter` -/

/-- The batch writer `b` took its snapshot of `read_pos` when `rc` bytes were released, and holds
the unpublished bytes `l`. -/
structure Pending (cap : Capacity) (base : ℕ) (g : World) (b : BatchWriter) (rc : ℕ)
    (l : List UInt8) : Prop where
  inv : Inv cap base g
  wStart : b.wStart = UInt64.ofNat (base + g.published.length)
  w : b.w = UInt64.ofNat (base + g.published.length + l.length)
  r : b.r = UInt64.ofNat (base + rc)
  le : rc ≤ g.consumed
  fit : g.published.length + l.length ≤ rc + cap.val
  data : slice cap.val g.shm.data (base + g.published.length) l.length = l
  hdr : b.hdr = true

variable {b : BatchWriter} {rc : ℕ} {l : List UInt8}

/-- Unpublished bytes survive the reader's progress. -/
theorem Pending.rStep (h : Pending cap base g b rc l) (hr : RStep g g') :
    Pending cap base g' b rc l where
  inv := hr.inv h.inv
  wStart := by rw [hr.published]; exact h.wStart
  w := by rw [hr.published]; exact h.w
  r := h.r
  le := h.le.trans hr.consumed
  fit := by rw [hr.published]; exact h.fit
  data := by rw [hr.published, hr.data]; exact h.data
  hdr := h.hdr

theorem Pending.length_le (h : Pending cap base g b rc l) : l.length ≤ cap.val := by
  have := h.fit
  have := h.le
  have := h.inv.le
  omega

/-- `PendingBytes` counts the unpublished bytes. -/
theorem Pending.toNat_pendingBytes (h : Pending cap base g b rc l) :
    b.pendingBytes.toNat = l.length := by
  have := h.length_le
  have := cap.lt
  unfold BatchWriter.pendingBytes
  rw [h.w, h.wStart, toNat_ofNat_sub (by omega) (by omega)]
  omega

/-- `FreeBytes` is the free space as of the snapshot. -/
theorem Pending.toNat_freeBytes (h : Pending cap base g b rc l) :
    (b.freeBytes cap).toNat = rc + cap.val - (g.published.length + l.length) := by
  have h1 := h.fit
  have h2 := h.le
  have h3 := h.inv.le
  have h4 := cap.lt
  have hd : (b.w - b.r).toNat = g.published.length + l.length - rc := by
    rw [h.w, h.r, toNat_ofNat_sub (by omega) (by omega)]
    omega
  unfold BatchWriter.freeBytes
  rw [UInt64.toNat_sub_of_le _ _ (by rw [UInt64.le_iff_toNat_le, hd, cap.toNat_word]; omega), hd,
    cap.toNat_word]
  omega

/-- What a batch writer refuses, on the true counts. -/
theorem Pending.rejects_iff (h : Pending cap base g b rc l) (src : Buf) :
    b.Rejects cap src.len ↔ src.bytes.length = 0 ∨ cap.maxWriteSize < src.bytes.length ∨
      rc + cap.val < g.published.length + l.length + src.bytes.length := by
  have h1 := h.fit
  have h2 := h.le
  have h3 := h.inv.le
  unfold BatchWriter.Rejects
  rw [len_eq_zero, Buf.toNat_len, toUInt64_len, h.w, h.r]
  by_cases hm : cap.maxWriteSize < src.bytes.length
  · simp [hm]
  · have hm' : src.bytes.length ≤ cap.val := by unfold Capacity.maxWriteSize at hm; omega
    rw [Nat.add_assoc base, word_lt_iff (by omega) (by omega) hm']

/-- The bytes put behind the unpublished ones. -/
theorem Pending.put {src : Buf} (h : Pending cap base g b rc l) (hn : ¬ b.Rejects cap src.len)
    (hw : Wrote cap base g
      (put cap.val g.shm.data (base + (g.published.length + l.length)) src.bytes) [] g') :
    Pending cap base g' (b.advance src.len) rc (l ++ src.bytes) := by
  have hp : g'.published = g.published := by rw [hw.published, List.append_nil]
  rw [h.rejects_iff] at hn
  simp only [not_or, not_lt] at hn
  have h2 := h.le
  have h3 := h.inv.le
  have h4 := h.length_le
  refine ⟨hw.inv, by rw [hp]; exact h.wStart, ?_, h.r, h.le.trans hw.consumed, ?_, ?_, h.hdr⟩
  · show b.w + src.len.toUInt64 = _
    rw [h.w, toUInt64_len, ← UInt64.ofNat_add, hp, List.length_append, Nat.add_assoc,
      Nat.add_assoc]
  · rw [hp, List.length_append]; omega
  · rw [hp, hw.data, List.length_append, slice_add, ← Nat.add_assoc,
      slice_put_of_le cap.pos (by omega) (by omega), h.data,
      slice_put cap.pos (by unfold Capacity.maxWriteSize at hn; omega)]

theorem make_spec {Q : BatchWriter → World → Prop} (hi : Inv cap base g)
    (h : ∀ b g', Wrote cap base g g.shm.data [] g' → g.consumed ≤ g'.consumed →
      b.count = 0 → b.w = b.wStart → Pending cap base g' b g'.consumed [] → Q b g') :
    wpW cap base BatchWriter.make Q g := by
  unfold BatchWriter.make
  rw [wpW, Prog.wp_bind]
  refine loadWritePos_spec hi fun g₁ h₁ => ?_
  rw [Prog.wp_bind]
  refine loadReadPos_spec h₁.inv fun g₂ h₂ => ?_
  have h12 := h₁.trans h₂
  rw [h₁.data, List.append_nil] at h12
  have hp : g₂.published = g.published := by rw [h12.published, List.append_nil]
  have hf := h12.inv.fit
  refine h _ g₂ h12 h12.consumed rfl rfl ⟨h12.inv, by rw [hp], by rw [hp]; rfl, rfl, le_rfl, ?_,
    rfl, rfl⟩
  simpa using hf

/-- `BatchWriter::TryWrite` puts its bytes behind the unpublished ones and returns `0`, or does
nothing and returns `-1`. -/
theorem batchTryWrite_spec {Q : ℤ × BatchWriter → World → Prop} {data : Option Buf}
    (hb : Pending cap base g b rc l)
    (hok : ∀ src g', data = some src → ¬ b.Rejects cap src.len →
      Wrote cap base g
        (put cap.val g.shm.data (base + (g.published.length + l.length)) src.bytes) [] g' →
      Pending cap base g' (b.advance src.len) rc (l ++ src.bytes) →
      Q (0, b.advance src.len) g')
    (hfail : (∀ src, data = some src → b.Rejects cap src.len) → Q (-1, b) g) :
    wpW cap base (b.tryWrite cap data) Q g := by
  rcases data with _ | src
  · exact hfail fun _ h => absurd h (by simp)
  unfold BatchWriter.tryWrite
  simp only []
  split_ifs with hrej
  · exact hfail fun s hs => by cases hs; exact hrej
  rw [wpW, Prog.wp_bind, hb.w, Nat.add_assoc]
  have hrej' := hrej
  rw [hb.rejects_iff] at hrej'
  simp only [not_or, not_lt] at hrej'
  have h2 := hb.le
  refine ringCopyIn_spec hb.inv (by omega) (by omega)
    (by unfold Capacity.maxWriteSize at hrej'; omega) fun g₁ h₁ => ?_
  exact hok src g₁ rfl hrej h₁ (hb.put hrej h₁)

/-- Filling a reservation puts the bytes where `TryWrite` would. -/
theorem reserveFill_spec {Q : Bool × BatchWriter → World → Prop} {src : Buf}
    (hb : Pending cap base g b rc l)
    (hok : ∀ g', b.reserve cap src.len ≠ none → Wrote cap base g
        (put cap.val g.shm.data (base + (g.published.length + l.length)) src.bytes) [] g' →
      Pending cap base g' (b.advance src.len) rc (l ++ src.bytes) →
      Q (true, b.advance src.len) g')
    (hfail : b.reserve cap src.len = none → Q (false, b) g) :
    wpW cap base (b.reserveFill cap src) Q g := by
  have hc := cap.pos
  unfold BatchWriter.reserveFill
  rcases hr : b.reserve cap src.len with _ | off
  · exact hfail hr
  have hsome : b.reserve cap src.len ≠ none := by rw [hr]; simp
  unfold BatchWriter.reserve at hr
  split_ifs at hr with hrej htail
  cases hr
  have hrej' := hrej
  rw [hb.rejects_iff] at hrej'
  simp only [not_or, not_lt] at hrej'
  rw [hb.w, Nat.add_assoc, ringPhys_ofNat, Buf.toNat_len] at htail
  have h2 := hb.le
  have hlt := Nat.mod_lt (base + (g.published.length + l.length)) hc
  show wpW cap base (memcpyTo (ringPhys cap b.w) src.bytes >>= _) Q g
  rw [wpW, Prog.wp_bind, hb.w, Nat.add_assoc, ringPhys_ofNat]
  refine memcpyTo_spec hb.inv
    (fun i h3 h4 => live_cells h3 h4 (by omega) (by omega) (by omega)) fun g₁ h₁ => ?_
  rw [blit_eq_put hc (by omega)] at h₁
  exact hok g₁ hsome h₁ (hb.put hrej h₁)

/-- `Flush` publishes exactly the unpublished bytes. -/
theorem flush_spec {Q : ℤ × BatchWriter → World → Prop} (hb : Pending cap base g b rc l)
    (h : ∀ g', Wrote cap base g g.shm.data l g' →
      Pending cap base g' { b with wStart := b.w, count := 0 } rc [] →
      Q (b.count, { b with wStart := b.w, count := 0 }) g') :
    wpW cap base b.flush Q g := by
  have hc := cap.lt
  have h1 := hb.length_le
  have h2 := hb.le
  have h3 := hb.fit
  have hpend : ∀ g', Wrote cap base g g.shm.data l g' →
      Pending cap base g' { b with wStart := b.w, count := 0 } rc [] := by
    intro g' hw
    have hl : g'.published.length = g.published.length + l.length := by rw [hw.published]; simp
    refine ⟨hw.inv, ?_, ?_, hb.r, hb.le.trans hw.consumed, ?_, rfl, hb.hdr⟩
    · show b.w = _
      rw [hb.w, hl, Nat.add_assoc]
    · show b.w = _
      rw [hb.w, hl, Nat.add_assoc]; rfl
    · rw [hl]; simpa using h3
  unfold BatchWriter.flush
  rw [if_neg (by rw [hb.hdr]; decide)]
  split_ifs with hne
  · rw [wpW, Prog.wp_bind, hb.w]
    refine storeWritePos_spec hb.inv (by omega) fun g₁ h₁ => ?_
    rw [hb.data] at h₁
    rw [← hb.w]
    exact h g₁ h₁ (hpend g₁ h₁)
  · -- nothing is stored: the positions agree, so there is nothing to publish
    have he : b.w = b.wStart := not_not.mp hne
    have hl : l = [] := by
      have hz := hb.toNat_pendingBytes
      unfold BatchWriter.pendingBytes at hz
      rw [he, UInt64.sub_self] at hz
      exact List.eq_nil_of_length_eq_zero hz.symm
    have hw : Wrote cap base g g.shm.data l g := by rw [hl]; exact wrote_refl hb.inv
    have e : { b with wStart := b.w, count := 0 } = { b with count := 0 } := by rw [he]
    have hQ := h g hw (hpend g hw)
    rw [e] at hQ
    exact hQ

theorem Pending.cancel (hb : Pending cap base g b rc l) : Pending cap base g b.cancel rc [] := by
  have h1 := hb.fit
  refine ⟨hb.inv, hb.wStart, ?_, hb.r, hb.le, ?_, rfl, hb.hdr⟩
  · exact hb.wStart
  · simp only [List.length_nil]; omega

/-- Rewinding keeps the first of the unpublished bytes. -/
theorem Pending.rewindTo (hb : Pending cap base g b rc l) {p : UInt64} (count : ℤ)
    (hp : p ≤ b.pendingBytes) :
    Pending cap base g (b.rewindTo p count) rc (l.take p.toNat) := by
  have h1 := hb.fit
  rw [UInt64.le_iff_toNat_le, hb.toNat_pendingBytes] at hp
  have hl : (l.take p.toNat).length = p.toNat := by rw [List.length_take]; omega
  refine ⟨hb.inv, hb.wStart, ?_, hb.r, hb.le, by rw [hl]; omega, ?_, hb.hdr⟩
  · show b.wStart + p = _
    rw [hb.wStart, hl, UInt64.ofNat_add _ p.toNat, UInt64.ofNat_toNat]
  · have hd := hb.data
    have e : l.length = p.toNat + (l.length - p.toNat) := by omega
    rw [e, slice_add] at hd
    have h2 := congrArg (List.take p.toNat) hd
    rw [List.take_left' (by simp)] at h2
    rw [hl]
    exact h2

end ShmIpc.Ring.Writer
