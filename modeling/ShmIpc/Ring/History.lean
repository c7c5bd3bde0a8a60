import ShmIpc.Ring.RingBuf

/-! # The shared memory with its history

`World` adds to the shared memory what has happened to it: the bytes the stores of `write_pos` have
made readable, how many of them the stores of `read_pos` have released, and the traffic on the
eventfd. The history is computed from the accesses alone and never read by a program.

`Inv` is the invariant of a ring whose streams start at offset `base`: the positions are the true
counts modulo `2^64`, at most `Capacity` bytes are in flight, and the data area holds them.
`WStep` is what a step of a well-behaved writer may do and `RStep` what a step of a well-behaved
reader may do; both are preorders and keep `Inv`. -/

namespace ShmIpc.Ring.History

open ShmIpc.Lib.RelyGuarantee ShmIpc.Lib.Window
open ShmIpc.Ring.RingBuf

/-- The shared memory and its history. -/
structure World where
  shm : Shm
  /-- all bytes made readable so far -/
  published : List UInt8
  /-- how many of them are released -/
  consumed : ℕ
  /-- how often the writer has rung the eventfd -/
  notified : ℕ
  /-- the number of published bytes when it last did -/
  rung : ℕ
  /-- `rung` when the reader last drained the eventfd -/
  drained : ℕ

/-- An empty ring at offset `base` of its streams, with the data area `d`. -/
def World.empty (base : ℕ) (d : ℕ → UInt8) : World where
  shm := { writePos := UInt64.ofNat base, readPos := UInt64.ofNat base, data := d, efd := 0 }
  published := []
  consumed := 0
  notified := 0
  rung := 0
  drained := 0

/-- The bytes that a store of `v` to `write_pos` makes readable. -/
def World.fresh (cap : Capacity) (g : World) (v : UInt64) : List UInt8 :=
  (List.range (v - g.shm.writePos).toNat).map fun i =>
    g.shm.data (ringPhys cap (g.shm.writePos + UInt64.ofNat i))

/-- The world after an access. -/
def World.after (cap : Capacity) (g : World) : Cmd → World
  | .storeWritePos v =>
    { g with
      shm := (Shm.exec (.storeWritePos v) g.shm).2
      published := g.published ++ g.fresh cap v }
  | .storeReadPos v =>
    { g with shm := (Shm.exec (.storeReadPos v) g.shm).2
             consumed := g.consumed + (v - g.shm.readPos).toNat }
  | .notifyPeer =>
    { g with shm := (Shm.exec .notifyPeer g.shm).2
             notified := g.notified + 1, rung := g.published.length }
  | .drainNotify => { g with shm := (Shm.exec .drainNotify g.shm).2, drained := g.rung }
  | .loadWritePos | .loadReadPos | .readByte _ | .readNull => g
  | .writeByte off b => { g with shm := (Shm.exec (.writeByte off b) g.shm).2 }

/-- The effect of an access on the world. -/
def World.exec (cap : Capacity) (c : Cmd) (g : World) : c.Res × World :=
  ((Shm.exec c g.shm).1, g.after cap c)

/-- The history is only watched: the memory changes as without it. -/
theorem after_shm (cap : Capacity) (g : World) (c : Cmd) :
    (g.after cap c).shm = (Shm.exec c g.shm).2 := by
  cases c <;> rfl

variable {cap : Capacity} {base : ℕ} {g g' g'' : World}

/-! ### The invariant -/

/-- The ring is well formed. -/
structure Inv (cap : Capacity) (base : ℕ) (g : World) : Prop where
  writePos : g.shm.writePos = UInt64.ofNat (base + g.published.length)
  readPos : g.shm.readPos = UInt64.ofNat (base + g.consumed)
  le : g.consumed ≤ g.published.length
  fit : g.published.length ≤ g.consumed + cap.val
  live : ∀ i, g.consumed ≤ i → i < g.published.length →
    g.published[i]? = some (g.shm.data ((base + i) % cap.val))
  rung : g.rung ≤ g.published.length
  drained : g.drained ≤ g.rung
  bell : g.shm.efd = 0 → g.rung = g.drained

theorem inv_empty (cap : Capacity) (base : ℕ) (d : ℕ → UInt8) : Inv cap base (.empty base d) where
  writePos := by simp [World.empty]
  readPos := by simp [World.empty]
  le := by simp [World.empty]
  fit := by simp [World.empty]
  live i _ hi := by simp [World.empty] at hi
  rung := by simp [World.empty]
  drained := by simp [World.empty]
  bell _ := rfl

/-- A ring just initialised is an empty ring at offset `0`. -/
theorem empty_zero_shm : (World.empty 0 fun _ => 0).shm = Shm.init := rfl

theorem Inv.avail (h : Inv cap base g) :
    (g.shm.writePos - g.shm.readPos).toNat = g.published.length - g.consumed := by
  have := h.le
  have := h.fit
  have := cap.lt
  rw [h.writePos, h.readPos, toNat_ofNat_sub (by omega) (by omega)]
  omega

/-- Consecutive cells that hold bytes in flight. -/
theorem Inv.cells_eq (h : Inv cap base g) {off p n : ℕ} (hp : g.consumed ≤ p)
    (hn : p + n ≤ g.published.length) (hoff : ∀ i < n, (base + p + i) % cap.val = off + i) :
    cells g.shm.data off n = (g.published.drop p).take n := by
  refine List.ext_getElem? fun i => ?_
  rcases Nat.lt_or_ge i n with hi | hi
  · have hlive := h.live (p + i) (by omega) (by omega)
    rw [← Nat.add_assoc, hoff i hi] at hlive
    rw [List.getElem?_take_of_lt hi, List.getElem?_drop, hlive]
    simp [cells, List.getElem?_range hi]
  · rw [List.getElem?_eq_none (by simpa using hi), List.getElem?_eq_none (by simp; omega)]

/-! ### Steps of the two sides -/

/-- What a step of the reader may do. -/
structure RStep (g g' : World) : Prop where
  writePos : g'.shm.writePos = g.shm.writePos
  data : g'.shm.data = g.shm.data
  published : g'.published = g.published
  notified : g'.notified = g.notified
  rung : g'.rung = g.rung
  consumed : g.consumed ≤ g'.consumed
  fit : g'.consumed ≤ max g.consumed g.published.length
  readPos : g'.shm.readPos = g.shm.readPos + UInt64.ofNat (g'.consumed - g.consumed)
  bell : (g'.shm.efd = g.shm.efd ∧ g'.drained = g.drained) ∨
    (g'.shm.efd = 0 ∧ g'.drained = g.rung)

/-- What a step of the writer may do. -/
structure WStep (cap : Capacity) (base : ℕ) (g g' : World) : Prop where
  readPos : g'.shm.readPos = g.shm.readPos
  consumed : g'.consumed = g.consumed
  drained : g'.drained = g.drained
  published : g.published <+: g'.published
  fit : g'.published.length ≤ max g.published.length (g.consumed + cap.val)
  writePos : g'.shm.writePos =
    g.shm.writePos + UInt64.ofNat (g'.published.length - g.published.length)
  live : ∀ i, g.consumed ≤ i → i < g.published.length →
    g'.shm.data ((base + i) % cap.val) = g.shm.data ((base + i) % cap.val)
  fresh : ∀ i, g.consumed ≤ i → g.published.length ≤ i → i < g'.published.length →
    g'.published[i]? = some (g'.shm.data ((base + i) % cap.val))
  notified : g.notified ≤ g'.notified
  bell : (g'.shm.efd = g.shm.efd ∧ g'.rung = g.rung) ∨
    (0 < g'.shm.efd ∧ g.rung ≤ g'.rung ∧ g.published.length ≤ g'.rung ∧
      g'.rung ≤ g'.published.length)

theorem rStep_refl (g : World) : RStep g g where
  writePos := rfl
  data := rfl
  published := rfl
  notified := rfl
  rung := rfl
  consumed := le_rfl
  fit := le_max_left _ _
  readPos := by simp
  bell := Or.inl ⟨rfl, rfl⟩

theorem wStep_refl (g : World) : WStep cap base g g where
  readPos := rfl
  consumed := rfl
  drained := rfl
  published := List.prefix_rfl
  fit := le_max_left _ _
  writePos := by simp
  live _ _ _ := rfl
  fresh i _ h h' := absurd h' (by omega)
  notified := le_rfl
  bell := Or.inl ⟨rfl, rfl⟩

theorem RStep.trans (h : RStep g g') (h' : RStep g' g'') : RStep g g'' where
  writePos := h'.writePos.trans h.writePos
  data := h'.data.trans h.data
  published := h'.published.trans h.published
  notified := h'.notified.trans h.notified
  rung := h'.rung.trans h.rung
  consumed := h.consumed.trans h'.consumed
  fit := by
    have h1 := h.fit
    have h2 := h'.fit
    rw [h.published] at h2
    omega
  readPos := by
    have h1 := h.consumed
    have h2 := h'.consumed
    rw [h'.readPos, h.readPos, UInt64.add_assoc, ← UInt64.ofNat_add]
    congr 2
    omega
  bell := by
    rcases h'.bell with ⟨h1, h2⟩ | ⟨h1, h2⟩
    · rw [h1, h2]; exact h.bell
    · exact Or.inr ⟨h1, by rw [h2, h.rung]⟩

theorem WStep.trans (h : WStep cap base g g') (h' : WStep cap base g' g'') :
    WStep cap base g g'' where
  readPos := h'.readPos.trans h.readPos
  consumed := h'.consumed.trans h.consumed
  drained := h'.drained.trans h.drained
  published := h.published.trans h'.published
  fit := by
    have h1 := h.fit
    have h2 := h'.fit
    rw [h.consumed] at h2
    omega
  writePos := by
    have h1 := h.published.length_le
    have h2 := h'.published.length_le
    rw [h'.writePos, h.writePos, UInt64.add_assoc, ← UInt64.ofNat_add]
    congr 2
    omega
  live i hi hi' := by
    have h1 := h.published.length_le
    rw [h'.live i (by rw [h.consumed]; exact hi) (by omega), h.live i hi hi']
  fresh i hi hp hi' := by
    rcases Nat.lt_or_ge i g'.published.length with h1 | h1
    · have e : g''.published[i]? = g'.published[i]? := by
        obtain ⟨t, ht⟩ := h'.published
        rw [← ht, List.getElem?_append_left h1]
      rw [e, h.fresh i hi hp h1, h'.live i (by rw [h.consumed]; exact hi) h1]
    · exact h'.fresh i (by rw [h.consumed]; exact hi) h1 hi'
  notified := h.notified.trans h'.notified
  bell := by
    have h1 := h.published.length_le
    have h2 := h'.published.length_le
    rcases h'.bell with ⟨h3, h4⟩ | ⟨h3, h4, h5, h6⟩
    · rcases h.bell with ⟨h7, h8⟩ | ⟨h7, h8, h9, h10⟩
      · exact Or.inl ⟨h3.trans h7, h4.trans h8⟩
      · exact Or.inr ⟨by omega, by omega, by omega, by omega⟩
    · refine Or.inr ⟨h3, ?_, by omega, h6⟩
      rcases h.bell with ⟨-, h8⟩ | ⟨-, h8, -, -⟩ <;> omega

theorem RStep.inv (h : RStep g g') (hi : Inv cap base g) : Inv cap base g' where
  writePos := by rw [h.writePos, h.published]; exact hi.writePos
  readPos := by
    have := h.consumed
    rw [h.readPos, hi.readPos, ← UInt64.ofNat_add]
    congr 1
    omega
  le := by
    have h1 := h.fit
    have h2 := hi.le
    rw [h.published]
    omega
  fit := by
    have h1 := h.consumed
    have h2 := hi.fit
    rw [h.published]
    omega
  live i h1 h2 := by
    have h3 := h.consumed
    rw [h.published] at h2 ⊢
    rw [h.data]
    exact hi.live i (by omega) h2
  rung := by rw [h.rung, h.published]; exact hi.rung
  drained := by
    have h1 := hi.drained
    rw [h.rung]
    rcases h.bell with ⟨-, h2⟩ | ⟨-, h2⟩ <;> omega
  bell h0 := by
    rw [h.rung]
    rcases h.bell with ⟨h1, h2⟩ | ⟨-, h2⟩
    · rw [h2]; exact hi.bell (by rw [← h1]; exact h0)
    · exact h2.symm

theorem WStep.inv (h : WStep cap base g g') (hi : Inv cap base g) : Inv cap base g' where
  writePos := by
    have := h.published.length_le
    rw [h.writePos, hi.writePos, ← UInt64.ofNat_add]
    congr 1
    omega
  readPos := by rw [h.readPos, h.consumed]; exact hi.readPos
  le := by
    have h1 := h.published.length_le
    have h2 := hi.le
    rw [h.consumed]
    omega
  fit := by
    have h1 := h.fit
    have h2 := hi.fit
    rw [h.consumed]
    omega
  live i h1 h2 := by
    rw [h.consumed] at h1
    rcases Nat.lt_or_ge i g.published.length with h3 | h3
    · obtain ⟨t, ht⟩ := h.published
      rw [h.live i h1 h3, ← hi.live i h1 h3, ← ht, List.getElem?_append_left h3]
    · exact h.fresh i h1 h3 h2
  rung := by
    have h1 := h.published.length_le
    have h2 := hi.rung
    rcases h.bell with ⟨-, h3⟩ | ⟨-, -, -, h3⟩ <;> omega
  drained := by
    have h2 := hi.drained
    rw [h.drained]
    rcases h.bell with ⟨-, h3⟩ | ⟨-, h3, -, -⟩ <;> omega
  bell h0 := by
    rw [h.drained]
    rcases h.bell with ⟨h1, h2⟩ | ⟨h1, -, -, -⟩
    · rw [h2]; exact hi.bell (by rw [← h1]; exact h0)
    · omega

theorem WStep.drop_take (h : WStep cap base g g') {p n : ℕ} (hn : p + n ≤ g.published.length) :
    (g'.published.drop p).take n = (g.published.drop p).take n := by
  obtain ⟨t, ht⟩ := h.published
  rw [← ht, List.drop_append_of_le_length (by omega),
    List.take_append_of_le_length (by rw [List.length_drop]; omega)]

/-! ### The accesses as steps -/

theorem rStep_storeReadPos {n : ℕ} (h : Inv cap base g)
    (hn : g.consumed + n ≤ g.published.length) :
    RStep g (g.after cap (.storeReadPos (UInt64.ofNat (base + g.consumed + n)))) ∧
      (g.after cap (.storeReadPos (UInt64.ofNat (base + g.consumed + n)))).consumed =
        g.consumed + n := by
  have hc : (g.after cap (.storeReadPos (UInt64.ofNat (base + g.consumed + n)))).consumed =
      g.consumed + n := by
    have h1 := h.fit
    have h2 := cap.lt
    simp only [World.after]
    rw [h.readPos, toNat_ofNat_sub (by omega) (by omega)]
    omega
  refine ⟨⟨rfl, rfl, rfl, rfl, rfl, ?_, ?_, ?_, Or.inl ⟨rfl, rfl⟩⟩, hc⟩
  · rw [hc]; omega
  · rw [hc]; omega
  · rw [hc, h.readPos, ← UInt64.ofNat_add]
    simp only [World.after, Shm.exec]
    congr 1
    omega

theorem rStep_drainNotify : RStep g (g.after cap .drainNotify) :=
  ⟨rfl, rfl, rfl, rfl, rfl, le_rfl, le_max_left _ _, by simp [World.after, Shm.exec],
    Or.inr ⟨rfl, rfl⟩⟩

theorem fresh_ofNat {n : ℕ} (h : Inv cap base g) (hn : n < 2 ^ 64) :
    g.fresh cap (UInt64.ofNat (base + g.published.length + n)) =
      slice cap.val g.shm.data (base + g.published.length) n := by
  unfold World.fresh slice
  rw [h.writePos, toNat_ofNat_sub (by omega) (by omega),
    show base + g.published.length + n - (base + g.published.length) = n by omega]
  refine List.map_congr_left fun i _ => ?_
  rw [← UInt64.ofNat_add, ringPhys_ofNat]

theorem wStep_storeWritePos {n : ℕ} (h : Inv cap base g)
    (hn : g.published.length + n ≤ g.consumed + cap.val) :
    WStep cap base g (g.after cap (.storeWritePos (UInt64.ofNat (base + g.published.length + n)))) ∧
      (g.after cap (.storeWritePos (UInt64.ofNat (base + g.published.length + n)))).published =
        g.published ++ slice cap.val g.shm.data (base + g.published.length) n := by
  have h1 := h.le
  have h2 := cap.lt
  have hp :
      (g.after cap (.storeWritePos (UInt64.ofNat (base + g.published.length + n)))).published =
      g.published ++ slice cap.val g.shm.data (base + g.published.length) n := by
    simp only [World.after]
    rw [fresh_ofNat h (by omega)]
  have hl : (g.after cap (.storeWritePos
      (UInt64.ofNat (base + g.published.length + n)))).published.length =
      g.published.length + n := by
    rw [hp]; simp
  refine ⟨⟨rfl, rfl, rfl, ?_, ?_, ?_, fun _ _ _ => rfl, ?_, le_rfl, Or.inl ⟨rfl, rfl⟩⟩, hp⟩
  · rw [hp]; exact List.prefix_append _ _
  · rw [hl]; omega
  · rw [hl, h.writePos, ← UInt64.ofNat_add]
    simp only [World.after, Shm.exec]
    congr 1
    omega
  · intro i _ hi hi'
    rw [hl] at hi'
    rw [hp, List.getElem?_append_right hi, getElem?_slice (by omega), Nat.add_assoc,
      Nat.add_sub_cancel' hi]
    rfl

/-- A byte written outside the live window. -/
theorem wStep_writeByte {off : ℕ} {b : UInt8}
    (h : ∀ i, g.consumed ≤ i → i < g.published.length → (base + i) % cap.val ≠ off) :
    WStep cap base g (g.after cap (.writeByte off b)) := by
  refine ⟨rfl, rfl, rfl, List.prefix_rfl, le_max_left _ _, by simp [World.after, Shm.exec], ?_,
    ?_, le_rfl, Or.inl ⟨rfl, rfl⟩⟩
  · intro i hi hi'
    simp only [World.after, Shm.exec]
    rw [if_neg (h i hi hi')]
  · intro i _ hi hi'
    exact absurd hi' (by simp only [World.after]; omega)

theorem wStep_notifyPeer (h : Inv cap base g) : WStep cap base g (g.after cap .notifyPeer) := by
  refine ⟨rfl, rfl, rfl, List.prefix_rfl, le_max_left _ _, by simp [World.after, Shm.exec],
    fun _ _ _ => rfl, ?_, by simp [World.after], Or.inr ⟨?_, h.rung, le_rfl, le_rfl⟩⟩
  · intro i _ hi hi'
    exact absurd hi' (by simp only [World.after]; omega)
  · by_cases he : g.shm.efd + 1 ≤ efdMax
    · simp only [World.after, Shm.exec, if_pos he]; omega
    · simp only [World.after, Shm.exec, if_neg he]
      unfold efdMax at he; omega

end ShmIpc.Ring.History
