import ShmIpc.Codec.FrameReader
import ShmIpc.Conn.DrainRing
import ShmIpc.Ring.Batch

/-! # The readers on a hostile ring

The peer maps the ring header writable, so a reader may find any two positions in it. `InArea` says
which accesses stay inside the data area; `Prog.issued` lists those a run makes. Nothing compares
the distance of the positions with `Capacity`: `reader_bounds_iff` says for which positions `Peek`,
`TryRead`, `ReadExact` and the linear copy of `DrainRing` stay in bounds all the same.
`tryRecv_in_bounds` says that the checks of `FrameReader::TryRecv` suffice for all positions. -/

namespace ShmIpc.Conn.Hostile

open ShmIpc.Lib.RelyGuarantee ShmIpc.Lib.Window
open ShmIpc.Ring.RingBuf ShmIpc.Ring.Batch
open ShmIpc.Codec.Frame ShmIpc.Codec.FrameReader
open ShmIpc.Conn.DrainRing

variable {cap : Capacity} {m : Shm}

/-- The access stays inside the data area. -/
def InArea (cap : Capacity) : Cmd → Prop
  | .readByte off | .writeByte off _ => off < cap.val
  | .readNull => False
  | .loadWritePos | .loadReadPos | .storeWritePos _ | .storeReadPos _ | .notifyPeer
  | .drainNotify => True

/-- A run from `m` that stays inside the data area. -/
abbrev InBounds {α : Type} (cap : Capacity) (p : RingM α) (m : Shm) : Prop :=
  ∀ c ∈ p.issued Shm.exec m, InArea cap c

/-- A run from `m` that stays inside the data area and ends in `Q`. -/
abbrev safe {α : Type} (cap : Capacity) (p : RingM α) (Q : α → Shm → Prop) (m : Shm) : Prop :=
  p.Safe Shm.exec (InArea cap) Q m

/-- The access touches only bytes of the data area at offsets in `P`. -/
def Within (P : ℕ → Prop) : Cmd → Prop
  | .readByte off | .writeByte off _ => P off
  | .readNull => False
  | .loadWritePos | .loadReadPos | .storeWritePos _ | .storeReadPos _ | .notifyPeer
  | .drainNotify => True

theorem within_lt_iff {c : Cmd} : Within (· < cap.val) c ↔ InArea cap c := by
  cases c <;> rfl

/-- A run from `m` that touches only offsets in `P` and ends in `Q`. -/
abbrev within {α : Type} (P : ℕ → Prop) (p : RingM α) (Q : α → Shm → Prop) (m : Shm) : Prop :=
  p.Safe Shm.exec (Within P) Q m

/-! ### Copies from the data area -/

theorem run_memcpyFrom : ∀ (n off : ℕ) (m : Shm),
    (memcpyFrom off n).run Shm.exec m = (cells m.data off n, m)
  | 0, _, _ => rfl
  | n + 1, off, m => by
    rw [memcpyFrom, Prog.run_bind]
    show Prog.run _ (memcpyFrom (off + 1) n >>= _) m = _
    rw [Prog.run_bind, run_memcpyFrom]
    simp only [cells, List.range_succ_eq_map, List.map_cons, List.map_map, Nat.add_zero]
    refine Prod.ext ?_ rfl
    refine congrArg (m.data off :: ·) (List.map_congr_left fun i _ => ?_)
    show m.data (off + 1 + i) = m.data (off + (i + 1))
    rw [Nat.add_assoc, Nat.add_comm 1 i]

theorem issued_memcpyFrom : ∀ (n off : ℕ) (m : Shm),
    (memcpyFrom off n).issued Shm.exec m = (List.range' off n).map Cmd.readByte
  | 0, _, _ => rfl
  | n + 1, off, m => by
    rw [memcpyFrom, Prog.issued_bind]
    show Cmd.readByte off :: Prog.issued _ (memcpyFrom (off + 1) n >>= _) m = _
    rw [Prog.issued_bind, issued_memcpyFrom]
    simp [List.range'_succ, Prog.issued]

theorem inBounds_memcpyFrom {n off : ℕ} :
    InBounds cap (memcpyFrom off n) m ↔ n = 0 ∨ off + n ≤ cap.val := by
  simp only [InBounds, issued_memcpyFrom, List.mem_map, List.mem_range'_1]
  constructor
  · intro h
    by_cases hn : n = 0
    · exact Or.inl hn
    · have := h _ ⟨off + n - 1, ⟨by omega, by omega⟩, rfl⟩
      exact Or.inr (by simp only [InArea] at this; omega)
  · rintro h _ ⟨i, hi, rfl⟩
    show i < cap.val
    omega

variable {P : ℕ → Prop}

theorem within_memcpyFrom {n off : ℕ} {Q : List UInt8 → Shm → Prop} (h : ∀ i < n, P (off + i))
    (hQ : Q (cells m.data off n) m) : within P (memcpyFrom off n) Q m := by
  refine ⟨?_, ?_⟩
  · intro c hc
    rw [issued_memcpyFrom, List.mem_map] at hc
    obtain ⟨i, hi, rfl⟩ := hc
    rw [List.mem_range'_1] at hi
    have hP := h (i - off) (by omega)
    rw [Nat.add_sub_cancel' hi.1] at hP
    exact hP
  · rw [run_memcpyFrom]
    exact hQ

theorem within_memcpyPtr {ptr : Option ℕ} {o n : ℕ} {Q : List UInt8 → Shm → Prop}
    (h : n = 0 ∨ ∃ q, ptr = some q ∧ ∀ i < n, P (q + o + i)) (hQ : ∀ l, l.length = n → Q l m) :
    within P (memcpyPtr ptr o n) Q m := by
  rcases h with rfl | ⟨q, rfl, h⟩
  · rcases ptr with _ | q
    · exact Prog.safe_ret.mpr (hQ [] rfl)
    · exact within_memcpyFrom (fun i hi => absurd hi (Nat.not_lt_zero i))
        (hQ _ (length_cells _ _ _))
  · exact within_memcpyFrom h (hQ _ (length_cells _ _ _))

/-! ### `Peek`, `TryRead` and `ReadExact` -/

/-- The distance of the positions, as the readers compute it. -/
def avail (m : Shm) : ℕ := (m.writePos - m.readPos).toNat

/-- The bytes from the read position to the end of the data area. -/
def contig (cap : Capacity) (m : Shm) : ℕ := cap.val - ringPhys cap m.readPos

theorem ringPhys_lt (cap : Capacity) (pos : UInt64) : ringPhys cap pos < cap.val := by
  rw [ringPhys_eq]
  exact Nat.mod_lt _ cap.pos

theorem run_peek : (peek cap).run Shm.exec m =
    (if m.writePos - m.readPos = 0 then none else some (segsOf cap m.readPos m.writePos), m) := by
  show Prog.run _ (if m.writePos - m.readPos = 0 then _ else _) m = _
  split_ifs <;> rfl

theorem avail_eq_zero : m.writePos - m.readPos = 0 ↔ avail m = 0 := by
  rw [← UInt64.toNat_inj]
  rfl

/-- The segments of positions that nothing is known about. -/
theorem segsOf_cases (cap : Capacity) (m : Shm) :
    (segsOf cap m.readPos m.writePos).seg1 = ringPhys cap m.readPos ∧
    ((avail m ≤ contig cap m ∧ (segsOf cap m.readPos m.writePos).seg1Len.toNat = avail m ∧
        (segsOf cap m.readPos m.writePos).seg2 = none ∧
        (segsOf cap m.readPos m.writePos).seg2Len.toNat = 0) ∨
      (contig cap m < avail m ∧
        (segsOf cap m.readPos m.writePos).seg1Len.toNat = contig cap m ∧
        (segsOf cap m.readPos m.writePos).seg2 = some 0 ∧
        (segsOf cap m.readPos m.writePos).seg2Len.toNat =
          (avail m - contig cap m) % 4294967296)) := by
  have hc := cap.lt
  have hP := ringPhys_lt cap m.readPos
  have hcontig : contig cap m ≤ 2147483648 := by unfold contig; omega
  unfold segsOf
  simp only []
  by_cases h : (m.writePos - m.readPos).toNat ≤ cap.val - ringPhys cap m.readPos
  · rw [if_pos h]
    refine ⟨rfl, Or.inl ⟨h, ?_, rfl, rfl⟩⟩
    rw [UInt64.toNat_toUInt32]
    unfold avail
    omega
  · rw [if_neg h]
    refine ⟨rfl, Or.inr ⟨not_le.mp h, ?_, rfl, ?_⟩⟩
    · rw [UInt32.toNat_ofNat']
      unfold contig at hcontig ⊢
      omega
    · have h64 : (UInt64.ofNat (cap.val - ringPhys cap m.readPos)).toNat = contig cap m := by
        rw [UInt64.toNat_ofNat']
        unfold contig at hcontig ⊢
        omega
      rw [UInt64.toNat_toUInt32, UInt64.toNat_sub_of_le _ _
        (by rw [UInt64.le_iff_toNat_le, h64]; unfold contig; omega), h64]
      rfl

theorem inBounds_bind {α β : Type} {p : RingM α} {f : α → RingM β} :
    InBounds cap (p >>= f) m ↔
      InBounds cap p m ∧ InBounds cap (f (p.run Shm.exec m).1) (p.run Shm.exec m).2 := by
  simp only [InBounds, Prog.issued_bind, List.mem_append]
  constructor
  · intro h
    exact ⟨fun c hc => h c (Or.inl hc), fun c hc => h c (Or.inr hc)⟩
  · rintro ⟨h, h'⟩ c (hc | hc)
    · exact h c hc
    · exact h' c hc

theorem run_ringCopyOut_snd (phys : ℕ) (len : UInt32) :
    ((ringCopyOut cap phys len).run Shm.exec m).2 = m := by
  unfold ringCopyOut
  simp only []
  split_ifs
  · rw [run_memcpyFrom]
  · rw [Prog.run_bind, run_memcpyFrom, Prog.run_bind, run_memcpyFrom]
    rfl

/-- `RingCopyOut` leaves the data area when the part behind the ring end does. -/
theorem inBounds_ringCopyOut {len : UInt32} :
    InBounds cap (ringCopyOut cap (ringPhys cap m.readPos) len) m ↔
      len.toNat ≤ contig cap m + cap.val := by
  have hP := ringPhys_lt cap m.readPos
  unfold ringCopyOut contig
  simp only []
  split_ifs with h
  · rw [inBounds_memcpyFrom]
    omega
  · rw [inBounds_bind, run_memcpyFrom, inBounds_bind, inBounds_memcpyFrom, inBounds_memcpyFrom]
    simp only [InBounds, Prog.pure_def, Prog.issued, List.not_mem_nil, false_implies, implies_true,
      and_true]
    omega

theorem toNat_toRead (a : UInt64) (len : UInt32) :
    (if a < len.toUInt64 then a.toUInt32 else len).toNat = min a.toNat len.toNat := by
  have hl := len.toNat_lt
  split_ifs with h <;> rw [UInt64.lt_iff_toNat_lt, UInt32.toNat_toUInt64] at h
  · rw [UInt64.toNat_toUInt32]
    omega
  · omega

/-- The two loads at the start of every reader. -/
theorem inBounds_loads {α : Type} {f : UInt64 → UInt64 → RingM α} :
    InBounds cap (do let r ← loadReadPos; let w ← loadWritePos; f r w) m ↔
      InBounds cap (f m.readPos m.writePos) m := by
  rw [inBounds_bind, inBounds_bind]
  simp [InBounds, loadReadPos, loadWritePos, Prog.cmd, Prog.issued, Prog.run, Shm.exec, InArea]

theorem inBounds_pure {α : Type} (a : α) : InBounds cap (pure a) m := by
  intro c hc
  cases hc

/-- The store behind a copy. -/
theorem inBounds_storeReadPos {α : Type} (v : UInt64) (a : α) :
    InBounds cap (do storeReadPos v; return a) m := by
  simp [InBounds, storeReadPos, Prog.cmd, Prog.issued, InArea]

theorem inBounds_tryRead (len : UInt32) :
    InBounds cap (tryRead cap len) m ↔ min (avail m) len.toNat ≤ contig cap m + cap.val := by
  have hto := toNat_toRead (m.writePos - m.readPos) len
  rw [tryRead, inBounds_loads]
  simp only []
  generalize (if m.writePos - m.readPos < len.toUInt64 then (m.writePos - m.readPos).toUInt32
    else len) = n at hto ⊢
  rw [show (m.writePos - m.readPos).toNat = avail m from rfl] at hto
  rw [← hto]
  split_ifs with h0 h1
  · rw [avail_eq_zero] at h0
    exact iff_of_true (inBounds_pure _) (by omega)
  · rw [← UInt32.toNat_inj] at h1
    exact iff_of_true (inBounds_pure _) (by rw [h1]; exact Nat.zero_le _)
  · rw [inBounds_bind, inBounds_ringCopyOut, run_ringCopyOut_snd]
    exact and_iff_left (inBounds_storeReadPos _ _)

theorem inBounds_readExact (len : UInt32) :
    InBounds cap (readExact cap len) m ↔
      avail m < len.toNat ∨ len.toNat ≤ contig cap m + cap.val := by
  unfold readExact
  split_ifs with h0
  · rw [← UInt32.toNat_inj] at h0
    refine iff_of_true (inBounds_pure _) (Or.inr ?_)
    rw [h0]
    exact Nat.zero_le _
  · rw [inBounds_loads]
    simp only []
    split_ifs with h1 <;> rw [UInt64.lt_iff_toNat_lt, UInt32.toNat_toUInt64] at h1
    · exact iff_of_true (inBounds_pure _) (Or.inl h1)
    · have h1' : ¬ avail m < len.toNat := h1
      rw [inBounds_bind, inBounds_ringCopyOut, run_ringCopyOut_snd, or_iff_right h1']
      exact and_iff_left (inBounds_storeReadPos _ _)

/-! ### Which positions keep the readers in bounds -/

/-- The segments lie inside the data area and do not overlap. -/
structure SegsOk (cap : Capacity) (s : Segs) : Prop where
  seg1 : s.seg1 < cap.val
  seg1Len : s.seg1Len.toNat ≤ cap.val - s.seg1
  seg2 : s.seg2 = some 0 ∨ s.seg2 = none ∧ s.seg2Len = 0
  seg2Len : s.seg2Len.toNat ≤ s.seg1

/-- `staging_` when the segments are copied to it. -/
def grown (staging : List UInt8) (total : UInt32) : List UInt8 :=
  if staging.length < total.toNat then
    staging ++ List.replicate (total.toNat - staging.length) 0
  else staging

theorem linearise_eq (staging a b : List UInt8) (total : UInt32) :
    linearise staging a b total = a ++ b ++ (grown staging total).drop (a.length + b.length) :=
  rfl

theorem le_length_grown (staging : List UInt8) (total : UInt32) :
    total.toNat ≤ (grown staging total).length := by
  unfold grown
  split_ifs
  · rw [List.length_append, List.length_replicate]
    omega
  · omega

/-- The readers stay in bounds on the ring `m`, for a length `len` and a buffer `staging_`. -/
structure ReaderBounds (cap : Capacity) (m : Shm) (len : UInt32) (staging : List UInt8) :
    Prop where
  peek : ∀ s, ((peek cap).run Shm.exec m).1 = some s → SegsOk cap s
  tryRead : InBounds cap (tryRead cap len) m
  readExact : InBounds cap (readExact cap len) m
  /-- neither the sum nor the copy of `DrainRing` overflows -/
  linearise : ∀ s, ((ShmIpc.Ring.RingBuf.peek cap).run Shm.exec m).1 = some s → 0 < s.seg2Len →
    (s.seg1Len + s.seg2Len).toNat = s.seg1Len.toNat + s.seg2Len.toNat ∧
      s.seg1Len.toNat + s.seg2Len.toNat ≤ (grown staging (s.seg1Len + s.seg2Len)).length

/-- At most `Capacity` bytes are readable; or the distance of the positions, cut to 32 bits, happens
to lie between the ring end and `Capacity`, and so few bytes are asked for that a copy which goes
twice around the ring end does not leave the area. -/
def Tame (cap : Capacity) (m : Shm) (len : UInt32) : Prop :=
  avail m ≤ cap.val ∨
    (contig cap m ≤ avail m % 4294967296 ∧ avail m % 4294967296 ≤ cap.val ∧
      min (avail m) len.toNat ≤ contig cap m + cap.val)

instance (cap : Capacity) (m : Shm) (len : UInt32) : Decidable (Tame cap m len) := by
  unfold Tame; infer_instance

theorem peek_some {s : Segs} (h : ((peek cap).run Shm.exec m).1 = some s) :
    avail m ≠ 0 ∧ s = segsOf cap m.readPos m.writePos := by
  rw [run_peek] at h
  by_cases h0 : m.writePos - m.readPos = 0
  · simp [h0] at h
  · simp only [if_neg h0, Option.some.injEq] at h
    exact ⟨fun h' => h0 (avail_eq_zero.mpr h'), h.symm⟩

/-- Segments inside the data area never need more than `Capacity` bytes. -/
theorem SegsOk.total_le {s : Segs} (h : SegsOk cap s) :
    s.seg1Len.toNat + s.seg2Len.toNat ≤ cap.val := by
  have h1 := h.seg1
  have h2 := h.seg1Len
  have h3 := h.seg2Len
  omega

theorem segsOk_segsOf : SegsOk cap (segsOf cap m.readPos m.writePos) ↔
    avail m ≤ cap.val ∨
      contig cap m ≤ avail m % 4294967296 ∧ avail m % 4294967296 ≤ cap.val := by
  have hc := cap.lt
  have hP := ringPhys_lt cap m.readPos
  obtain ⟨h1, hseg⟩ := segsOf_cases cap m
  have hcontig : contig cap m = cap.val - ringPhys cap m.readPos := rfl
  rcases hseg with ⟨hle, h2, h3, h4⟩ | ⟨hlt, h2, h3, h4⟩
  · refine iff_of_true ⟨by omega, by omega, Or.inr ⟨h3, ?_⟩, by omega⟩ (Or.inl (by omega))
    rw [← UInt32.toNat_inj]
    exact h4
  · constructor
    · intro h
      have h5 := h.seg2Len
      rw [h4, h1] at h5
      omega
    · intro h
      exact ⟨by omega, by omega, Or.inl h3, by omega⟩

/-- **When the readers stay in bounds**, for any positions, any length asked for and any size of
`staging_`. -/
theorem reader_bounds_iff (cap : Capacity) (m : Shm) (len : UInt32) (staging : List UInt8) :
    ReaderBounds cap m len staging ↔ Tame cap m len := by
  have hc := cap.lt
  have hP := ringPhys_lt cap m.readPos
  have hcontig : contig cap m = cap.val - ringPhys cap m.readPos := rfl
  constructor
  · intro h
    by_cases h0 : avail m = 0
    · exact Or.inl (by omega)
    · have hrun : ((peek cap).run Shm.exec m).1 = some (segsOf cap m.readPos m.writePos) := by
        rw [run_peek, if_neg fun h' => h0 (avail_eq_zero.mp h')]
      have hlen := (inBounds_tryRead len).mp h.tryRead
      rcases segsOk_segsOf.mp (h.peek _ hrun) with hs | ⟨hs, hs'⟩
      · exact Or.inl hs
      · exact Or.inr ⟨hs, hs', hlen⟩
  · intro h
    have hlen : min (avail m) len.toNat ≤ contig cap m + cap.val := by
      rcases h with h | ⟨-, -, h⟩
      · omega
      · exact h
    have hsegs : SegsOk cap (segsOf cap m.readPos m.writePos) := by
      refine segsOk_segsOf.mpr ?_
      rcases h with h | ⟨h, h', -⟩
      · exact Or.inl h
      · exact Or.inr ⟨h, h'⟩
    refine ⟨fun s hs => ?_, (inBounds_tryRead len).mpr hlen, (inBounds_readExact len).mpr ?_,
      fun s hs _ => ?_⟩
    · rw [(peek_some hs).2]
      exact hsegs
    · omega
    · rw [(peek_some hs).2]
      have htot := hsegs.total_le
      have hsum : ((segsOf cap m.readPos m.writePos).seg1Len +
          (segsOf cap m.readPos m.writePos).seg2Len).toNat =
          (segsOf cap m.readPos m.writePos).seg1Len.toNat +
            (segsOf cap m.readPos m.writePos).seg2Len.toNat := by
        rw [UInt32.toNat_add, Nat.mod_eq_of_lt (by omega)]
      refine ⟨hsum, ?_⟩
      rw [← hsum]
      exact le_length_grown _ _

/-- A ring of 1024 bytes whose peer claims 4096 readable ones. -/
def overclaimed : Shm := { writePos := 4096, readPos := 0, data := fun _ => 0, efd := 0 }

/-- There `Peek` hands out a second segment of 3072 bytes at the start of the area. -/
theorem overclaimed_out_of_bounds : ¬ ReaderBounds .min overclaimed 4096 [] := by
  intro h
  have hs := (h.peek ⟨0, 1024, some 0, 3072⟩ (by decide)).seg2Len
  exact absurd hs (by decide)

/-! ### `FrameReader::TryRecv` -/

/-- The part of a frame behind the first segment lies in the second one, inside the data area. -/
structure Reachable (cap : Capacity) (s : Segs) (n : ℕ) : Prop where
  seg1 : s.seg1 + s.seg1Len.toNat ≤ cap.val
  seg2 : n ≤ s.seg1Len.toNat ∨ s.seg2 = some 0 ∧ n - s.seg1Len.toNat ≤ cap.val

/-- The first `n` bytes that the segments stand for lie at offsets in `P`. -/
structure Reach (P : ℕ → Prop) (s : Segs) (n : ℕ) : Prop where
  seg1 : ∀ i < s.seg1Len.toNat, i < n → P (s.seg1 + i)
  seg2 : s.seg1Len.toNat < n → ∃ q, s.seg2 = some q ∧ ∀ i, s.seg1Len.toNat + i < n → P (q + i)

theorem Reachable.reach {s : Segs} {n : ℕ} (h : Reachable cap s n) : Reach (· < cap.val) s n := by
  have h1 := h.seg1
  refine ⟨fun i hi _ => by omega, fun hn => ?_⟩
  rcases h.seg2 with h2 | ⟨h2, h3⟩
  · omega
  · exact ⟨0, h2, fun i hi => by omega⟩

theorem within_readHeader {s : Segs} {Q : MsgHeader → Shm → Prop} (h : Reach P s 8)
    (hQ : ∀ hdr, Q hdr m) : within P (readHeader s) Q m := by
  have h8 : kMsgHeaderSize.toNat = 8 := rfl
  unfold readHeader
  split_ifs with hs <;> rw [UInt32.le_iff_toNat_le, h8] at hs
  · refine Prog.safe_bind.mpr (within_memcpyFrom (fun i hi => ?_) ?_)
    · exact h.seg1 i (by omega) (by omega)
    · exact Prog.safe_ret.mpr (hQ _)
  · refine Prog.safe_bind.mpr (within_memcpyFrom (fun i hi => h.seg1 i hi (by omega)) ?_)
    rw [UInt32.toNat_sub_of_le _ _ (by rw [UInt32.le_iff_toNat_le]; omega), h8]
    refine Prog.safe_bind.mpr (within_memcpyPtr (Or.inr ?_) fun l _ => ?_)
    · obtain ⟨q, hq, hP⟩ := h.seg2 (by omega)
      exact ⟨q, hq, fun i hi => hP i (by omega)⟩
    · exact Prog.safe_ret.mpr (hQ _)

theorem within_copyFromSegments {s : Segs} {offset len : UInt32} {Q : List UInt8 → Shm → Prop}
    (h : Reach P s (offset.toNat + len.toNat))
    (hQ : ∀ l, l.length = len.toNat → Q l m) : within P (copyFromSegments s offset len) Q m := by
  have hco := toNat_copied s.seg1Len offset len
  unfold copyFromSegments
  simp only []
  generalize (if offset < s.seg1Len then _ else (0 : UInt32)) = copied at hco ⊢
  refine Prog.safe_bind.mpr (within_memcpyFrom (fun i hi => ?_) ?_)
  · rw [Nat.add_assoc]
    exact h.seg1 (offset.toNat + i) (by omega) (by omega)
  rw [toNat_sub_or_zero]
  split_ifs with hlt <;> rw [UInt32.lt_iff_toNat_lt] at hlt
  · rw [UInt32.toNat_sub_of_le _ _ (by rw [UInt32.le_iff_toNat_le]; omega)]
    refine Prog.safe_bind.mpr (within_memcpyPtr (Or.inr ?_) fun l hl => ?_)
    · obtain ⟨q, hq, hP⟩ := h.seg2 (by omega)
      refine ⟨q, hq, fun i hi => ?_⟩
      rw [Nat.add_assoc]
      exact hP _ (by omega)
    · refine Prog.safe_ret.mpr (hQ _ ?_)
      rw [List.length_append, length_cells, hl]
      omega
  · refine Prog.safe_ret.mpr (hQ _ ?_)
    rw [length_cells]
    omega

/-- The range a payload pointer is given for lies inside the data area, or inside `buf_`. -/
def PayloadOk (cap : Capacity) (bufSize len : UInt32) : Payload → Prop
  | .null => len = 0
  | .ring off => off + len.toNat ≤ cap.val
  | .buf => len ≤ bufSize

/-- The `assert` of `CommitRead`. -/
def CommitAssert (m : Shm) (len : UInt32) : Prop := len.toUInt64 ≤ m.writePos - m.readPos

/-- What a call of `TryRecv` on the ring `m` leaves. -/
structure RecvBounds (cap : Capacity) (bufSize : UInt32) (fr : Receiver) (m : Shm)
    (out : Recv × Receiver) (m' : Shm) : Prop where
  /-- the ring is not written to -/
  mem : m' = m
  /-- a copy to the front of `buf_` that fits it -/
  buf : ∃ l, l.length ≤ bufSize.toNat ∧ out.2.buf = blit fr.buf 0 l
  payload : ∀ payload len, out.1 = .frame payload len → PayloadOk cap bufSize len payload
  pending : out.2.pendingCommit.toNat ≤ avail m

/-- A call that leaves `buf_` alone. -/
theorem recvBounds_of_buf {bufSize : UInt32} {fr fr' : Receiver} {res : Recv}
    (hbuf : fr'.buf = fr.buf)
    (hpay : ∀ payload len, res = .frame payload len → PayloadOk cap bufSize len payload)
    (hpend : fr'.pendingCommit.toNat ≤ avail m) : RecvBounds cap bufSize fr m (res, fr') m :=
  ⟨rfl, ⟨[], Nat.zero_le _, by rw [blit_nil]; exact hbuf⟩, hpay, hpend⟩

theorem within_commit {fr : Receiver} (h : fr.pendingCommit = 0) {Q : Receiver → Shm → Prop}
    (hQ : Q fr m) : within P fr.commit Q m := by
  unfold Receiver.commit
  rw [h, if_neg (by decide)]
  exact Prog.safe_ret.mpr hQ

theorem within_peek {Q : Option Segs → Shm → Prop} (hnone : avail m = 0 → Q none m)
    (hsome : avail m ≠ 0 → Q (some (segsOf cap m.readPos m.writePos)) m) :
    within P (peek cap) Q m := by
  refine ⟨?_, ?_⟩
  · intro c hc
    have hissued : (peek cap).issued Shm.exec m = [.loadReadPos, .loadWritePos] := by
      show Cmd.loadReadPos :: Cmd.loadWritePos ::
        Prog.issued _ (if m.writePos - m.readPos = 0 then _ else _) m = _
      split_ifs <;> rfl
    rw [hissued, List.mem_cons, List.mem_singleton] at hc
    rcases hc with rfl | rfl
    · trivial
    · trivial
  · rw [run_peek]
    split_ifs with h
    · exact hnone (avail_eq_zero.mp h)
    · exact hsome fun h' => h (avail_eq_zero.mpr h')

/-- What is seen of a frame that passed the checks, whatever the segments claim: its bytes are in
reach, and no more than the distance of the positions. -/
theorem reachable_segsOf {n : ℕ} (hn : n ≤ cap.val)
    (htot : n ≤ ((segsOf cap m.readPos m.writePos).seg1Len +
      (segsOf cap m.readPos m.writePos).seg2Len).toNat) :
    Reachable cap (segsOf cap m.readPos m.writePos) n ∧ n ≤ avail m := by
  have hP := ringPhys_lt cap m.readPos
  have hc := cap.lt
  obtain ⟨h1, hseg⟩ := segsOf_cases cap m
  have hcontig : contig cap m = cap.val - ringPhys cap m.readPos := rfl
  rw [UInt32.toNat_add] at htot
  rcases hseg with ⟨hle, h2, h3, h4⟩ | ⟨hlt, h2, h3, h4⟩
  · exact ⟨⟨by omega, Or.inl (by omega)⟩, by omega⟩
  · exact ⟨⟨by omega, Or.inr ⟨h3, by omega⟩⟩, by omega⟩

/-- **What `TryRecv` touches**, with nothing pending: offsets in `P`, if `P` has the offsets of
every frame that is no longer than the ring and than the segments claim. A payload that it hands out
in the ring lies in `P` too. -/
theorem within_tryRecv {bufSize : UInt32} {fr : Receiver} (hp : fr.pendingCommit = 0)
    (hreach : ∀ n ≤ cap.val, n ≤ ((segsOf cap m.readPos m.writePos).seg1Len +
      (segsOf cap m.readPos m.writePos).seg2Len).toNat →
      Reach P (segsOf cap m.readPos m.writePos) n) :
    within P (fr.tryRecv cap bufSize) (fun out m' => RecvBounds cap bufSize fr m out m' ∧
      ∀ off len, out.1 = .frame (.ring off) len → ∀ i < len.toNat, P (off + i)) m := by
  have hge := cap.ge
  have h8 : kMsgHeaderSize.toNat = 8 := rfl
  have hagain : ∀ res : Recv, (∀ payload len, res ≠ .frame payload len) →
      RecvBounds cap bufSize fr m (res, fr) m ∧
      ∀ off len, res = .frame (.ring off) len → ∀ i < len.toNat, P (off + i) := by
    intro res hres
    refine ⟨recvBounds_of_buf rfl (fun payload len he => absurd he (hres payload len)) ?_,
      fun off len he => absurd he (hres _ len)⟩
    rw [hp]
    exact Nat.zero_le _
  unfold Receiver.tryRecv
  refine Prog.safe_bind.mpr (within_commit hp ?_)
  refine Prog.safe_bind.mpr (within_peek (fun _ => ?_) fun _ => ?_)
  · exact Prog.safe_ret.mpr (hagain _ (by simp))
  simp only []
  have havail : ∀ n ≤ cap.val, _ → _ := fun n hn ht => (reachable_segsOf (m := m) hn ht).2
  have hseg1 : (segsOf cap m.readPos m.writePos).seg1 +
      (segsOf cap m.readPos m.writePos).seg1Len.toNat ≤ cap.val :=
    (reachable_segsOf (n := 0) (Nat.zero_le _) (Nat.zero_le _)).1.seg1
  generalize segsOf cap m.readPos m.writePos = s at hreach havail hseg1 ⊢
  generalize s.seg1Len + s.seg2Len = total at hreach havail ⊢
  split_ifs with hshort
  · exact Prog.safe_ret.mpr (hagain _ (by simp))
  rw [UInt32.lt_iff_toNat_lt, h8] at hshort
  refine Prog.safe_bind.mpr (within_readHeader (hreach 8 (by omega) (by omega)) fun hdr => ?_)
  split_ifs with hill hcut hz hseg hbuf
  · exact Prog.safe_ret.mpr (hagain _ (by simp))
  · exact Prog.safe_ret.mpr (hagain _ (by simp))
  all_goals
    rw [h8] at hill
    have hlegal : hdr.len.toNat ≤ cap.val - 8 := by omega
    have hsz := toNat_frameLen hlegal
    rw [UInt32.lt_iff_toNat_lt, UInt32.toNat_sub_of_le _ _
      (by rw [UInt32.le_iff_toNat_le, h8]; omega), h8] at hcut
    have hframe := hreach (8 + hdr.len.toNat) (by omega) (by omega)
    have hpend := havail (8 + hdr.len.toNat) (by omega) (by omega)
    rw [← hsz] at hpend
  · refine Prog.safe_ret.mpr ⟨recvBounds_of_buf rfl (fun payload len he => ?_) hpend,
      fun off len he => by cases he⟩
    cases he
    rfl
  · rw [UInt32.le_iff_toNat_le, hsz] at hseg
    refine Prog.safe_ret.mpr ⟨recvBounds_of_buf rfl (fun payload len he => ?_) hpend,
      fun off len he i hi => ?_⟩
    · cases he
      show s.seg1 + 8 + hdr.len.toNat ≤ cap.val
      omega
    · cases he
      show P (s.seg1 + 8 + i)
      rw [Nat.add_assoc]
      exact hframe.seg1 (8 + i) (by omega) (by omega)
  · exact Prog.safe_ret.mpr ⟨recvBounds_of_buf rfl (fun payload len he => by cases he) hpend,
      fun off len he => by cases he⟩
  · refine Prog.safe_bind.mpr (within_copyFromSegments hframe fun body hbody => ?_)
    rw [UInt32.not_lt, UInt32.le_iff_toNat_le] at hbuf
    refine Prog.safe_ret.mpr ⟨⟨rfl, ⟨body, by omega, rfl⟩, fun payload len he => ?_, hpend⟩,
      fun off len he => by cases he⟩
    cases he
    exact UInt32.le_iff_toNat_le.mpr hbuf

theorem safe_tryRecv {bufSize : UInt32} {fr : Receiver} (hp : fr.pendingCommit = 0) :
    safe cap (fr.tryRecv cap bufSize) (RecvBounds cap bufSize fr m) m := by
  have h : within (· < cap.val) (fr.tryRecv cap bufSize) _ m :=
    within_tryRecv hp fun n hn ht => (reachable_segsOf hn ht).1.reach
  exact ⟨fun c hc => within_lt_iff.mp (h.1 c hc), h.2.1⟩

/-- **`TryRecv` is in bounds on any ring**, with nothing pending: it reads inside the data area only
and never through the null segment, writes to the front of `buf_` only as far as it goes, hands out
a payload inside the data area or `buf_`, and the `assert` of the next `CommitRead` holds unless
`write_pos` is moved back. -/
theorem tryRecv_in_bounds (cap : Capacity) (bufSize : UInt32) (m : Shm) (fr : Receiver)
    (hp : fr.pendingCommit = 0) :
    InBounds cap (fr.tryRecv cap bufSize) m ∧
    RecvBounds cap bufSize fr m ((fr.tryRecv cap bufSize).run Shm.exec m).1
      ((fr.tryRecv cap bufSize).run Shm.exec m).2 ∧
    ∀ w : UInt64, m.writePos - m.readPos ≤ w - m.readPos →
      CommitAssert { ((fr.tryRecv cap bufSize).run Shm.exec m).2 with writePos := w }
        ((fr.tryRecv cap bufSize).run Shm.exec m).1.2.pendingCommit := by
  have h : safe cap (fr.tryRecv cap bufSize) (RecvBounds cap bufSize fr m) m := safe_tryRecv hp
  refine ⟨h.1, h.2, fun w hw => ?_⟩
  rw [h.2.mem]
  have hpend := h.2.pending
  show _ ≤ w - m.readPos
  rw [UInt64.le_iff_toNat_le] at hw ⊢
  rw [UInt32.toNat_toUInt64]
  exact hpend.trans hw

/-- A new reader on the ring whose peer claims too much. -/
theorem tryRecv_in_bounds_overclaimed :
    Receiver.init.pendingCommit = 0 ∧
      InBounds .min (Receiver.init.tryRecv .min 16) overclaimed :=
  ⟨rfl, (tryRecv_in_bounds .min 16 overclaimed .init rfl).1⟩

end ShmIpc.Conn.Hostile
