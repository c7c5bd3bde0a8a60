import ShmIpc.Ring.History

/-! # The reader's side of the ring

Preconditions of the reader's operations, for any progress of the writer between two accesses
(`wpR`). `Took g n g'` says how the reader has moved the world: `n` more bytes are released, and
what was published before still is. Every byte read from the window in flight is a byte of the
published stream, whatever the writer appends meanwhile (`memcpyFrom_spec`); `Peeked` keeps that
for the segments a `Peek` has handed out. -/

namespace ShmIpc.Ring.Reader

open ShmIpc.Lib.RelyGuarantee ShmIpc.Lib.Window
open ShmIpc.Ring.RingBuf ShmIpc.Ring.History

variable {cap : Capacity} {base : ℕ} {g g' g'' : World} {α : Type}

/-- The precondition of a program of the reader. -/
abbrev wpR (cap : Capacity) (base : ℕ) (p : RingM α) (Q : α → World → Prop) (g : World) : Prop :=
  p.wp (World.exec cap) (WStep cap base) RStep Q g

/-- The reader has released `n` bytes. -/
structure Took (cap : Capacity) (base : ℕ) (g : World) (n : ℕ) (g' : World) : Prop where
  inv : Inv cap base g'
  published : g.published <+: g'.published
  consumed : g'.consumed = g.consumed + n
  drained : g'.drained = g.drained

theorem Took.trans {m n : ℕ} (h : Took cap base g m g') (h' : Took cap base g' n g'') :
    Took cap base g (m + n) g'' where
  inv := h'.inv
  published := h.published.trans h'.published
  consumed := by rw [h'.consumed, h.consumed, Nat.add_assoc]
  drained := h'.drained.trans h.drained

/-- The writer's progress, seen by the reader. -/
theorem took_of_wStep (h : WStep cap base g g') (hi : Inv cap base g) : Took cap base g 0 g' :=
  ⟨h.inv hi, h.published, h.consumed, h.drained⟩

theorem took_refl (hi : Inv cap base g) : Took cap base g 0 g := took_of_wStep (wStep_refl g) hi

theorem Took.length_le {n : ℕ} (h : Took cap base g n g') :
    g.published.length ≤ g'.published.length :=
  h.published.length_le

/-- Bytes once published stay where they are in the stream. -/
theorem drop_take_mono {l l' : List α} (h : l <+: l') {p n : ℕ} (hn : p + n ≤ l.length) :
    (l'.drop p).take n = (l.drop p).take n := by
  obtain ⟨t, rfl⟩ := h
  rw [List.drop_append_of_le_length (by omega),
    List.take_append_of_le_length (by rw [List.length_drop]; omega)]

theorem take_mono {l l' : List α} (h : l <+: l') {n : ℕ} (hn : n ≤ l.length) :
    l'.take n = l.take n := by
  obtain ⟨t, rfl⟩ := h
  exact List.take_append_of_le_length hn

/-! ### Accesses -/

theorem loadReadPos_spec {Q : UInt64 → World → Prop} (hi : Inv cap base g)
    (h : ∀ g', Took cap base g 0 g' → Q (UInt64.ofNat (base + g.consumed)) g') :
    wpR cap base loadReadPos Q g := by
  intro g' hw
  refine ⟨rStep_refl _, ?_⟩
  have hr : g'.shm.readPos = UInt64.ofNat (base + g.consumed) := by
    rw [hw.readPos, hi.readPos]
  show Q g'.shm.readPos g'
  rw [hr]
  exact h g' (took_of_wStep hw hi)

theorem loadWritePos_spec {Q : UInt64 → World → Prop} (hi : Inv cap base g)
    (h : ∀ g', Took cap base g 0 g' → Q (UInt64.ofNat (base + g'.published.length)) g') :
    wpR cap base loadWritePos Q g := by
  intro g' hw
  have hi' := hw.inv hi
  refine ⟨rStep_refl _, ?_⟩
  show Q g'.shm.writePos g'
  rw [hi'.writePos]
  exact h g' (took_of_wStep hw hi)

theorem storeReadPos_spec {Q : Unit → World → Prop} {n : ℕ} (hi : Inv cap base g)
    (hn : g.consumed + n ≤ g.published.length)
    (h : ∀ g', Took cap base g n g' → Q () g') :
    wpR cap base (storeReadPos (UInt64.ofNat (base + g.consumed + n))) Q g := by
  intro g' hw
  have hi' := hw.inv hi
  have hl := hw.published.length_le
  obtain ⟨hr, hc⟩ := rStep_storeReadPos (n := n) hi' (by rw [hw.consumed]; omega)
  rw [hw.consumed] at hr hc
  exact ⟨hr, h _ ⟨hr.inv hi', hw.published, hc, hw.drained⟩⟩

/-- **The copy of the readers**: whatever the writer does meanwhile, cells of the window in flight
give the bytes of the stream. -/
theorem memcpyFrom_spec {Q : List UInt8 → World → Prop} :
    ∀ {n off p : ℕ} {g : World}, Inv cap base g → g.consumed ≤ p → p + n ≤ g.published.length →
      (∀ i < n, (base + p + i) % cap.val = off + i) →
      (∀ g', Took cap base g 0 g' → Q ((g.published.drop p).take n) g') →
      wpR cap base (memcpyFrom off n) Q g
  | 0, off, p, g, hi, _, _, _, h => by
    have hQ := h g (took_refl hi)
    rw [List.take_zero] at hQ
    exact hQ
  | n + 1, off, p, g, hi, hp, hn, hoff, h => by
    rw [memcpyFrom, wpR, Prog.wp_bind]
    intro g' hw
    have hi' := hw.inv hi
    have hl := hw.published.length_le
    refine ⟨rStep_refl _, ?_⟩
    have hpub : (g'.published.drop (p + 1)).take n = (g.published.drop (p + 1)).take n :=
      drop_take_mono hw.published (by omega)
    have hbyte : g.published[p]? = some (g'.shm.data off) := by
      have h1 := hi'.live p (by rw [hw.consumed]; exact hp) (by omega)
      have h2 := hoff 0 (by omega)
      rw [Nat.add_zero, Nat.add_zero] at h2
      rw [h2] at h1
      obtain ⟨t, ht⟩ := hw.published
      rw [← h1, ← ht, List.getElem?_append_left (by omega)]
    have hcons : (g.published.drop p).take (n + 1) =
        g'.shm.data off :: (g.published.drop (p + 1)).take n := by
      obtain ⟨hlt, he⟩ := List.getElem?_eq_some_iff.mp hbyte
      rw [List.drop_eq_getElem_cons hlt, he, List.take_succ_cons]
    show wpR cap base (memcpyFrom (off + 1) n >>= _) Q g'
    rw [wpR, Prog.wp_bind]
    refine memcpyFrom_spec (p := p + 1) hi' (by rw [hw.consumed]; omega) (by omega)
      (fun i hi => ?_) fun g'' hg => ?_
    · have h2 := hoff (i + 1) (by omega)
      rw [show base + (p + 1) + i = base + p + (i + 1) by omega, h2]
      omega
    · rw [hpub]
      have hQ := h g'' ((took_of_wStep hw hi).trans hg)
      rw [hcons] at hQ
      exact hQ

theorem toUInt64_ofNat {n : ℕ} (h : n < 4294967296) :
    (UInt32.ofNat n).toUInt64 = UInt64.ofNat n := by
  apply UInt64.toNat_inj.mp
  rw [UInt32.toNat_toUInt64, UInt32.toNat_ofNat', UInt64.toNat_ofNat', Nat.mod_eq_of_lt h,
    Nat.mod_eq_of_lt (by omega)]

theorem toUInt64_eq_ofNat (n : UInt32) : n.toUInt64 = UInt64.ofNat n.toNat := by
  rw [← toUInt64_ofNat n.toNat_lt, UInt32.ofNat_toNat]

/-- Reading from the offset of `read_pos`, on both sides of the ring end. -/
theorem ringCopyOut_spec {Q : List UInt8 → World → Prop} {len : UInt32} (hi : Inv cap base g)
    (hlen : g.consumed + len.toNat ≤ g.published.length)
    (h : ∀ g', Took cap base g 0 g' →
      Q ((g.published.drop g.consumed).take len.toNat) g') :
    wpR cap base (ringCopyOut cap ((base + g.consumed) % cap.val) len) Q g := by
  have hc := cap.pos
  have hlt := Nat.mod_lt (base + g.consumed) hc
  have hfit := hi.fit
  unfold ringCopyOut
  simp only []
  split_ifs with hs
  · exact memcpyFrom_spec hi le_rfl hlen (fun i hi => add_mod_of_lt (by omega)) h
  · rw [wpR, Prog.wp_bind]
    refine memcpyFrom_spec hi le_rfl (by omega) (fun i hi => add_mod_of_lt (by omega))
      fun g₁ h₁ => ?_
    rw [Prog.wp_bind]
    have hl₁ := h₁.length_le
    have hc₁ := h₁.consumed
    -- the rest starts at cell 0
    refine memcpyFrom_spec (p := g.consumed + (cap.val - (base + g.consumed) % cap.val)) h₁.inv
      (by omega) (by omega) (fun i hi => ?_) fun g₂ h₂ => ?_
    · have e : base + (g.consumed + (cap.val - (base + g.consumed) % cap.val)) + i =
          i + cap.val * ((base + g.consumed) / cap.val + 1) := by
        have e1 := Nat.div_add_mod (base + g.consumed) cap.val
        have e2 : cap.val * ((base + g.consumed) / cap.val + 1) =
            cap.val * ((base + g.consumed) / cap.val) + cap.val := by ring
        omega
      rw [e, Nat.add_mul_mod_self_left, Nat.mod_eq_of_lt (by omega), Nat.zero_add]
    · rw [drop_take_mono h₁.published (by omega)]
      have hQ := h g₂ (h₁.trans h₂)
      rw [show len.toNat = (cap.val - (base + g.consumed) % cap.val) +
        (len.toNat - (cap.val - (base + g.consumed) % cap.val)) by omega, List.take_add,
        List.drop_drop] at hQ
      exact hQ

/-! ### `TryRead` and `ReadExact` -/

/-- The bytes readable, as the two loads of a reader give them. -/
theorem toNat_avail (hi : Inv cap base g') (hc : g'.consumed = g.consumed) :
    (UInt64.ofNat (base + g'.published.length) - UInt64.ofNat (base + g.consumed)).toNat =
      g'.published.length - g.consumed := by
  have h1 := hi.le
  have h2 := hi.fit
  have h3 := cap.lt
  rw [toNat_ofNat_sub (by omega) (by omega)]
  omega

/-- The end of `TryRead` and of `ReadExact`: copy and release. -/
theorem copyOut_storeReadPos_spec {f : List UInt8 → α} {Q : α → World → Prop} {len : UInt32}
    (hi : Inv cap base g) (hlen : g.consumed + len.toNat ≤ g.published.length)
    (h : ∀ g', Took cap base g len.toNat g' →
      Q (f ((g.published.drop g.consumed).take len.toNat)) g') :
    wpR cap base (do
      let out ← ringCopyOut cap (ringPhys cap (UInt64.ofNat (base + g.consumed))) len
      storeReadPos (UInt64.ofNat (base + g.consumed) + len.toUInt64)
      pure (f out)) Q g := by
  rw [wpR, Prog.wp_bind, ringPhys_ofNat]
  refine ringCopyOut_spec hi hlen fun g₁ h₁ => ?_
  have hc₁ : g₁.consumed = g.consumed := h₁.consumed
  have hl₁ := h₁.length_le
  rw [Prog.wp_bind, toUInt64_eq_ofNat, ← UInt64.ofNat_add, ← hc₁]
  refine storeReadPos_spec h₁.inv (by omega) fun g₂ h₂ => ?_
  have h12 := h₁.trans h₂
  rw [Nat.zero_add] at h12
  rw [hc₁]
  exact h g₂ h12

theorem toNat_toRead (avail : UInt64) (maxLen : UInt32) :
    (if avail < maxLen.toUInt64 then avail.toUInt32 else maxLen).toNat =
      min avail.toNat maxLen.toNat := by
  have hm := maxLen.toNat_lt
  split_ifs with h
  · rw [UInt64.lt_iff_toNat_lt, UInt32.toNat_toUInt64] at h
    rw [UInt64.toNat_toUInt32, Nat.mod_eq_of_lt (by omega)]
    omega
  · rw [UInt64.lt_iff_toNat_lt, UInt32.toNat_toUInt64] at h
    omega

/-- `TryRead` takes the next bytes of the stream, as many as it may of those it saw. -/
theorem tryRead_spec {Q : List UInt8 → World → Prop} {maxLen : UInt32} (hi : Inv cap base g)
    (h : ∀ m n g', g.published.length ≤ m → m ≤ g'.published.length →
      n = min (m - g.consumed) maxLen.toNat → Took cap base g n g' →
      Q ((g'.published.drop g.consumed).take n) g') :
    wpR cap base (tryRead cap maxLen) Q g := by
  unfold tryRead
  rw [wpR, Prog.wp_bind]
  refine loadReadPos_spec hi fun g₁ h₁ => ?_
  rw [Prog.wp_bind]
  refine loadWritePos_spec h₁.inv fun g₂ h₂ => ?_
  have h12 := h₁.trans h₂
  have hc₂ : g₂.consumed = g.consumed := h12.consumed
  have hl₂ := h12.length_le
  have hle := h12.inv.le
  have hav := toNat_avail h12.inv hc₂
  have hto := toNat_toRead
    (UInt64.ofNat (base + g₂.published.length) - UInt64.ofNat (base + g.consumed)) maxLen
  rw [hav] at hto
  simp only []
  generalize (if _ < maxLen.toUInt64 then _ else maxLen) = toRead at hto ⊢
  split_ifs with h0 hz
  · have hn : g₂.published.length - g.consumed = 0 := by rw [← hav, h0]; rfl
    exact h g₂.published.length 0 g₂ hl₂ le_rfl (by rw [hn, Nat.zero_min]) h12
  · rw [hz] at hto
    exact h g₂.published.length 0 g₂ hl₂ le_rfl hto h12
  · rw [← hc₂]
    refine copyOut_storeReadPos_spec (f := id) h12.inv (by rw [hc₂, hto]; omega) fun g₃ h₃ => ?_
    have h13 := h12.trans h₃
    rw [Nat.zero_add, hto] at h13
    rw [hc₂, hto, id, ← drop_take_mono h₃.published (by omega)]
    exact h g₂.published.length _ g₃ hl₂ h₃.length_le rfl h13

/-- `ReadExact` takes the next `len` bytes of the stream, or nothing when it saw fewer. -/
theorem readExact_spec {Q : Option (List UInt8) → World → Prop} {len : UInt32}
    (hi : Inv cap base g)
    (hok : ∀ g', Took cap base g len.toNat g' →
      g.consumed + len.toNat ≤ g'.published.length →
      Q (some ((g'.published.drop g.consumed).take len.toNat)) g')
    (hfail : ∀ g', Took cap base g 0 g' → g.published.length < g.consumed + len.toNat →
      Q none g') :
    wpR cap base (readExact cap len) Q g := by
  unfold readExact
  split_ifs with hz
  · subst hz
    exact hok g (took_refl hi) hi.le
  rw [wpR, Prog.wp_bind]
  refine loadReadPos_spec hi fun g₁ h₁ => ?_
  rw [Prog.wp_bind]
  refine loadWritePos_spec h₁.inv fun g₂ h₂ => ?_
  have h12 := h₁.trans h₂
  have hc₂ : g₂.consumed = g.consumed := h12.consumed
  have hl₂ := h12.length_le
  have hle := h12.inv.le
  have hav := toNat_avail h12.inv hc₂
  simp only []
  split_ifs with hlt
  all_goals rw [UInt64.lt_iff_toNat_lt, hav, UInt32.toNat_toUInt64] at hlt
  · exact hfail g₂ h12 (by omega)
  · rw [← hc₂]
    refine copyOut_storeReadPos_spec h12.inv (by omega) fun g₃ h₃ => ?_
    have h13 := h12.trans h₃
    have hl₃ := h₃.length_le
    rw [Nat.zero_add] at h13
    rw [hc₂, ← drop_take_mono h₃.published (by omega)]
    exact hok g₃ h13 (by omega)

/-! ### `Peek` and `CommitRead` -/

/-- The segments `s` show the first `n` bytes in flight. -/
structure Peeked (cap : Capacity) (base : ℕ) (g : World) (s : Segs) (n : ℕ) : Prop where
  inv : Inv cap base g
  seg1 : s.seg1 = (base + g.consumed) % cap.val
  seg1Len : s.seg1Len.toNat = min n (cap.val - s.seg1)
  seg2 : 0 < s.seg2Len.toNat → s.seg2 = some 0
  seg2Len : s.seg2Len.toNat = n - s.seg1Len.toNat
  le : g.consumed + n ≤ g.published.length

variable {s : Segs} {n : ℕ}

/-- Segments stay valid until the reader releases something. -/
theorem Peeked.took (h : Peeked cap base g s n) (ht : Took cap base g 0 g') :
    Peeked cap base g' s n where
  inv := ht.inv
  seg1 := by rw [ht.consumed]; exact h.seg1
  seg1Len := h.seg1Len
  seg2 := h.seg2
  seg2Len := h.seg2Len
  le := by
    have := h.le
    have := ht.length_le
    rw [ht.consumed]
    omega

theorem Peeked.n_le (h : Peeked cap base g s n) : n ≤ cap.val := by
  have := h.inv.fit
  have := h.le
  omega

theorem Peeked.total (h : Peeked cap base g s n) : s.seg1Len.toNat + s.seg2Len.toNat = n := by
  have := h.seg1Len
  have := h.seg2Len
  omega

theorem peeked_segsOf (hi : Inv cap base g) (hn : g.consumed + n ≤ g.published.length) :
    Peeked cap base g (segsOf cap (UInt64.ofNat (base + g.consumed))
      (UInt64.ofNat (base + g.consumed + n))) n := by
  have hc := cap.pos
  have hcap := cap.lt
  have hfit := hi.fit
  have hlt := Nat.mod_lt (base + g.consumed) hc
  have hav : (UInt64.ofNat (base + g.consumed + n) - UInt64.ofNat (base + g.consumed)).toNat =
      n := by
    rw [toNat_ofNat_sub (by omega) (by omega)]
    omega
  unfold segsOf
  simp only [ringPhys_ofNat, hav]
  split_ifs with hs
  · have h1 : (UInt64.ofNat (base + g.consumed + n) -
        UInt64.ofNat (base + g.consumed)).toUInt32.toNat = n := by
      rw [UInt64.toNat_toUInt32, hav, Nat.mod_eq_of_lt (by omega)]
    refine ⟨hi, rfl, ?_, fun h => absurd h (by simp), ?_, hn⟩
    · simp only [h1]; omega
    · simp only [h1]; simp
  · have h1 : (UInt32.ofNat (cap.val - (base + g.consumed) % cap.val)).toNat =
        cap.val - (base + g.consumed) % cap.val := by
      rw [UInt32.toNat_ofNat', Nat.mod_eq_of_lt (by omega)]
    have h2 : (UInt64.ofNat (cap.val - (base + g.consumed) % cap.val)).toNat =
        cap.val - (base + g.consumed) % cap.val := by
      rw [UInt64.toNat_ofNat', Nat.mod_eq_of_lt (by omega)]
    have h3 : (UInt64.ofNat (base + g.consumed + n) - UInt64.ofNat (base + g.consumed) -
        UInt64.ofNat (cap.val - (base + g.consumed) % cap.val)).toUInt32.toNat =
        n - (cap.val - (base + g.consumed) % cap.val) := by
      rw [UInt64.toNat_toUInt32, UInt64.toNat_sub_of_le _ _
        (by rw [UInt64.le_iff_toNat_le, hav, h2]; omega), hav, h2, Nat.mod_eq_of_lt (by omega)]
    refine ⟨hi, rfl, ?_, fun _ => rfl, ?_, hn⟩
    · simp only [h1]; omega
    · simp only [h1, h3]

/-- `Peek` shows everything it saw published. -/
theorem peek_spec {Q : Option Segs → World → Prop} (hi : Inv cap base g)
    (hok : ∀ s n g', 0 < n → g.published.length ≤ g.consumed + n →
      g'.published.length = g.consumed + n → Took cap base g 0 g' →
      Peeked cap base g' s n → Q (some s) g')
    (hnone : ∀ g', Took cap base g 0 g' → g'.published.length = g.consumed → Q none g') :
    wpR cap base (peek cap) Q g := by
  unfold peek
  rw [wpR, Prog.wp_bind]
  refine loadReadPos_spec hi fun g₁ h₁ => ?_
  rw [Prog.wp_bind]
  refine loadWritePos_spec h₁.inv fun g₂ h₂ => ?_
  have h12 := h₁.trans h₂
  have hc₂ : g₂.consumed = g.consumed := h12.consumed
  have hl₂ := h12.length_le
  have hle := h12.inv.le
  have hav := toNat_avail h12.inv hc₂
  split_ifs with h0
  · rw [h0] at hav
    have hz : (0 : UInt64).toNat = 0 := rfl
    exact hnone g₂ h12 (by omega)
  · have hpos : 0 < g₂.published.length - g.consumed := by
      rw [← hav]
      refine Nat.pos_of_ne_zero fun hz => h0 (UInt64.toNat_inj.mp hz)
    have hp := peeked_segsOf (n := g₂.published.length - g₂.consumed) h12.inv (by omega)
    rw [Nat.add_assoc, Nat.add_sub_cancel' hle, hc₂] at hp
    exact hok _ _ g₂ hpos (by omega) (by omega) h12 hp

/-- Reading inside the first segment. -/
theorem Peeked.memcpySeg1 {Q : List UInt8 → World → Prop} {o k : ℕ} (h : Peeked cap base g s n)
    (hk : o + k ≤ s.seg1Len.toNat)
    (hQ : ∀ g', Took cap base g 0 g' → Q ((g.published.drop (g.consumed + o)).take k) g') :
    wpR cap base (memcpyFrom (s.seg1 + o) k) Q g := by
  have h1 := h.seg1Len
  have h2 := h.le
  have h3 := Nat.mod_lt (base + g.consumed) cap.pos
  rw [h.seg1] at h1
  refine memcpyFrom_spec h.inv (by omega) (by omega) (fun i hi => ?_) hQ
  rw [h.seg1, show base + (g.consumed + o) + i = base + g.consumed + (o + i) by omega,
    add_mod_of_lt (by omega)]
  omega

/-- Reading inside the second segment. -/
theorem Peeked.memcpySeg2 {Q : List UInt8 → World → Prop} {o k : ℕ} (h : Peeked cap base g s n)
    (hk : o + k ≤ s.seg2Len.toNat)
    (hQ : ∀ g', Took cap base g 0 g' →
      Q ((g.published.drop (g.consumed + s.seg1Len.toNat + o)).take k) g') :
    wpR cap base (memcpyPtr s.seg2 o k) Q g := by
  rcases Nat.eq_zero_or_pos k with rfl | hpos
  · have hQ' := hQ g (took_refl h.inv)
    rw [List.take_zero] at hQ'
    rcases s.seg2 with _ | p <;> exact hQ'
  rw [h.seg2 (by omega), memcpyPtr]
  have h1 := h.seg1Len
  have h2 := h.le
  have h3 := h.seg2Len
  have h4 := Nat.mod_lt (base + g.consumed) cap.pos
  have h5 := h.n_le
  rw [h.seg1] at h1
  refine memcpyFrom_spec h.inv (by omega) (by omega) (fun i hi => ?_) hQ
  have e : base + (g.consumed + s.seg1Len.toNat + o) + i =
      (o + i) + cap.val * ((base + g.consumed) / cap.val + 1) := by
    have e1 := Nat.div_add_mod (base + g.consumed) cap.val
    have e2 : cap.val * ((base + g.consumed) / cap.val + 1) =
        cap.val * ((base + g.consumed) / cap.val) + cap.val := by ring
    omega
  rw [e, Nat.add_mul_mod_self_left, Nat.mod_eq_of_lt (by omega)]
  omega

/-- `CommitRead` of bytes in flight. -/
theorem commitRead_spec {Q : Unit → World → Prop} {len : UInt32} (hi : Inv cap base g)
    (hlen : g.consumed + len.toNat ≤ g.published.length)
    (h : ∀ g', Took cap base g len.toNat g' → Q () g') :
    wpR cap base (commitRead len) Q g := by
  unfold commitRead
  rw [wpR, Prog.wp_bind]
  refine loadReadPos_spec hi fun g₁ h₁ => ?_
  have hc₁ : g₁.consumed = g.consumed := h₁.consumed
  have hl₁ := h₁.length_le
  rw [toUInt64_eq_ofNat, ← UInt64.ofNat_add, ← hc₁]
  refine storeReadPos_spec h₁.inv (by omega) fun g₂ h₂ => h g₂ ?_
  have h12 := h₁.trans h₂
  rw [Nat.zero_add] at h12
  exact h12

end ShmIpc.Ring.Reader
