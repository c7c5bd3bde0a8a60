import ShmIpc.Lib.Views
import ShmIpc.Ring.Reader
import ShmIpc.Ring.Writer

/-! # The memory orders of `ringbuf.hpp`

`Ring.Fifo` takes the accesses of both sides in one order. The source asks the machine for less: a
side loads its own position `relaxed`, loads the other side's `acquire` and stores its own
`release`, and the bytes of the data area are plain memory. Here the accesses have the meaning that
C++ gives to these orders. Each position has one thread that stores to it, so that its modification
order is the order of these stores (`Ra.writePos`, `Ra.readPos`); an acquire load may return any of
them that is not older than one the thread has seen, and what the storing thread did before that
store happens before what the loading thread does after the load. A plain access that is not ordered
in this way after a conflicting one of the other thread is a data race.

`View` relates such a memory to two worlds, the ring as the writer sees it, with an old `read_pos`,
and as the reader sees it, with an old `write_pos`. `writer_simulates` and `reader_simulates`: to
each side an access of the other one looks like a step of `History`, and there is no race as long as
the writer keeps off the bytes in flight and the reader keeps to them. -/

namespace ShmIpc.Ring.ReleaseAcquire

open ShmIpc.Lib.RelyGuarantee ShmIpc.Lib.Views ShmIpc.Lib.Window
open ShmIpc.Ring.RingBuf ShmIpc.Ring.History

/-! ### The memory -/

/-- A store to a position: its value, and the time of the thread that made it. -/
structure Store where
  value : UInt64
  time : ℕ

/-- The shared memory. The times of a thread count its accesses. -/
structure Ra where
  data : ℕ → UInt8
  /-- the stores to `write_pos`, the first of them by `Init` -/
  writePos : List Store
  /-- the stores to `read_pos` -/
  readPos : List Store
  /-- the newest store to `read_pos` that the writer has seen -/
  wSeen : ℕ
  /-- the newest store to `write_pos` that the reader has seen -/
  rSeen : ℕ
  wTime : ℕ
  rTime : ℕ
  /-- when a cell of the data area was last written, in the writer's time -/
  written : ℕ → ℕ
  /-- when it was last read, in the reader's time -/
  looked : ℕ → ℕ
  /-- there was a data race -/
  raced : Bool

/-- An empty ring at offset `base` of its streams, initialised before either side has it. -/
def Ra.init (base : ℕ) (d : ℕ → UInt8) : Ra where
  data := d
  writePos := [⟨UInt64.ofNat base, 0⟩]
  readPos := [⟨UInt64.ofNat base, 0⟩]
  wSeen := 0
  rSeen := 0
  wTime := 1
  rTime := 1
  written := fun _ => 0
  looked := fun _ => 0
  raced := false

/-- The reader's accesses up to this time happen before what the writer does next. -/
def Ra.wKnows (m : Ra) : ℕ := (m.readPos[m.wSeen]?.map Store.time).getD 0

/-- The writer's accesses up to this time happen before what the reader does next. -/
def Ra.rKnows (m : Ra) : ℕ := (m.writePos[m.rSeen]?.map Store.time).getD 0

/-- The accesses of the writer. The eventfd is left out of the memory: it orders nothing here. -/
inductive WriterAccess : (c : Cmd) → Ra → c.Res → Ra → Prop
  /-- `write_pos.load(relaxed)`, the writer's own last store -/
  | own {m : Ra} {st : Store} (h : m.writePos.getLast? = some st) :
      WriterAccess .loadWritePos m st.value { m with wTime := m.wTime + 1 }
  /-- `read_pos.load(acquire)` -/
  | acquire {m : Ra} {j : ℕ} {st : Store} (hj : m.wSeen ≤ j) (h : m.readPos[j]? = some st) :
      WriterAccess .loadReadPos m st.value { m with wSeen := j, wTime := m.wTime + 1 }
  /-- `write_pos.store(release)` -/
  | release {m : Ra} {v : UInt64} :
      WriterAccess (.storeWritePos v) m ()
        { m with writePos := m.writePos ++ [⟨v, m.wTime⟩], wTime := m.wTime + 1 }
  /-- a byte of a `memcpy`; a race if the reader's last look at the cell is not known -/
  | write {m : Ra} {off : ℕ} {b : UInt8} :
      WriterAccess (.writeByte off b) m ()
        { m with
          data := fun x => if x = off then b else m.data x
          written := fun x => if x = off then m.wTime else m.written x
          raced := m.raced || decide (m.wKnows < m.looked off)
          wTime := m.wTime + 1 }
  | notify {m : Ra} : WriterAccess .notifyPeer m () { m with wTime := m.wTime + 1 }

/-- The accesses of the reader. -/
inductive ReaderAccess : (c : Cmd) → Ra → c.Res → Ra → Prop
  /-- `read_pos.load(relaxed)` -/
  | own {m : Ra} {st : Store} (h : m.readPos.getLast? = some st) :
      ReaderAccess .loadReadPos m st.value { m with rTime := m.rTime + 1 }
  /-- `write_pos.load(acquire)` -/
  | acquire {m : Ra} {j : ℕ} {st : Store} (hj : m.rSeen ≤ j) (h : m.writePos[j]? = some st) :
      ReaderAccess .loadWritePos m st.value { m with rSeen := j, rTime := m.rTime + 1 }
  /-- `read_pos.store(release)` -/
  | release {m : Ra} {v : UInt64} :
      ReaderAccess (.storeReadPos v) m ()
        { m with readPos := m.readPos ++ [⟨v, m.rTime⟩], rTime := m.rTime + 1 }
  /-- a byte of a `memcpy`; a race if the last write to the cell is not known -/
  | read {m : Ra} {off : ℕ} :
      ReaderAccess (.readByte off) m (m.data off)
        { m with
          looked := fun x => if x = off then m.rTime else m.looked x
          raced := m.raced || decide (m.rKnows < m.written off)
          rTime := m.rTime + 1 }

/-! ### The stores to a position -/

/-- `cs` are the counts that the stores stand for, with their times: both grow, and the last count
is `n`. -/
structure Log (base : ℕ) (stores : List Store) (cs : List (ℕ × ℕ)) (n time : ℕ) : Prop where
  eq : stores = cs.map fun x => ⟨UInt64.ofNat (base + x.1), x.2⟩
  mono : cs.Pairwise fun x y => x.1 ≤ y.1 ∧ x.2 ≤ y.2
  last : ∃ t, cs.getLast? = some (n, t)
  lt : ∀ x ∈ cs, x.2 < time

variable {cap : Capacity} {base : ℕ} {stores : List Store} {cs ws rs : List (ℕ × ℕ)}
  {n n' time i j : ℕ} {x y : ℕ × ℕ}

theorem log_init (base : ℕ) : Log base [⟨UInt64.ofNat base, 0⟩] [(0, 0)] 0 1 where
  eq := by simp
  mono := List.pairwise_singleton _ _
  last := ⟨0, rfl⟩
  lt x hx := by
    rw [List.mem_singleton.mp hx]
    omega

theorem Log.tick (h : Log base stores cs n time) : Log base stores cs n (time + 1) :=
  { h with lt := fun x hx => Nat.lt_succ_of_lt (h.lt x hx) }

theorem Log.mono_get (h : Log base stores cs n time) (hij : i ≤ j) (hi : cs[i]? = some x)
    (hj : cs[j]? = some y) : x.1 ≤ y.1 ∧ x.2 ≤ y.2 := by
  rcases Nat.eq_or_lt_of_le hij with rfl | hlt
  · rw [hi] at hj
    cases hj
    exact ⟨le_rfl, le_rfl⟩
  · obtain ⟨hi', rfl⟩ := List.getElem?_eq_some_iff.mp hi
    obtain ⟨hj', rfl⟩ := List.getElem?_eq_some_iff.mp hj
    exact List.pairwise_iff_getElem.mp h.mono i j hi' hj' hlt

theorem Log.get_last (h : Log base stores cs n time) : ∃ t, cs[cs.length - 1]? = some (n, t) := by
  obtain ⟨t, ht⟩ := h.last
  rw [List.getLast?_eq_getElem?] at ht
  exact ⟨t, ht⟩

theorem Log.le_last (h : Log base stores cs n time) (hi : cs[i]? = some x) : x.1 ≤ n := by
  obtain ⟨t, ht⟩ := h.get_last
  obtain ⟨hlt, -⟩ := List.getElem?_eq_some_iff.mp hi
  exact (h.mono_get (by omega) hi ht).1

theorem Log.value_last (h : Log base stores cs n time) {st : Store}
    (hst : stores.getLast? = some st) : st.value = UInt64.ofNat (base + n) := by
  obtain ⟨t, ht⟩ := h.last
  rw [h.eq, List.getLast?_map, ht] at hst
  cases hst
  rfl

theorem Log.get (h : Log base stores cs n time) {st : Store} (hst : stores[j]? = some st) :
    ∃ x, cs[j]? = some x ∧ st = ⟨UInt64.ofNat (base + x.1), x.2⟩ := by
  rw [h.eq, List.getElem?_map] at hst
  obtain ⟨x, hx, rfl⟩ := Option.map_eq_some_iff.mp hst
  exact ⟨x, hx, rfl⟩

theorem Log.time_get (h : Log base stores cs n time) (hj : cs[j]? = some x) :
    (stores[j]?.map Store.time).getD 0 = x.2 := by
  rw [h.eq, List.getElem?_map, hj]
  rfl

/-- One store more. -/
theorem Log.snoc (h : Log base stores cs n time) (hn : n ≤ n') :
    Log base (stores ++ [⟨UInt64.ofNat (base + n'), time⟩]) (cs ++ [(n', time)]) n' (time + 1) where
  eq := by rw [List.map_append, h.eq]; rfl
  mono := by
    rw [List.pairwise_append]
    refine ⟨h.mono, List.pairwise_singleton _ _, fun x hx y hy => ?_⟩
    rw [List.mem_singleton.mp hy]
    obtain ⟨i, hi⟩ := List.getElem?_of_mem hx
    exact ⟨(h.le_last hi).trans hn, (h.lt x hx).le⟩
  last := ⟨time, by simp⟩
  lt x hx := by
    rcases List.mem_append.mp hx with hx | hx
    · exact Nat.lt_succ_of_lt (h.lt x hx)
    · rw [List.mem_singleton.mp hx]
      omega

/-! ### What each side sees -/

/-- The writer keeps off the bytes in flight. -/
def WriterFoot (cap : Capacity) (base : ℕ) : Cmd → World → Prop
  | .loadWritePos, _ | .loadReadPos, _ | .storeWritePos _, _ | .notifyPeer, _ => True
  | .writeByte off _, g =>
    ∀ i, g.consumed ≤ i → i < g.published.length → (base + i) % cap.val ≠ off
  | .storeReadPos _, _ | .readByte _, _ | .readNull, _ | .drainNotify, _ => False

/-- The reader keeps to the bytes in flight. -/
def ReaderFoot (cap : Capacity) (base : ℕ) : Cmd → World → Prop
  | .loadWritePos, _ | .loadReadPos, _ | .storeReadPos _, _ => True
  | .readByte off, g =>
    ∃ i, g.consumed ≤ i ∧ i < g.published.length ∧ (base + i) % cap.val = off
  | .storeWritePos _, _ | .writeByte _ _, _ | .readNull, _ | .notifyPeer, _ | .drainNotify, _ =>
    False

/-- The writer sees the ring `w`, the reader the ring `r`. -/
structure View (cap : Capacity) (base : ℕ) (m : Ra) (ws rs : List (ℕ × ℕ)) (w r : World) :
    Prop where
  wInv : Inv cap base w
  rInv : Inv cap base r
  wData : w.shm.data = m.data
  rData : r.shm.data = m.data
  wLog : Log base m.writePos ws w.published.length m.wTime
  rLog : Log base m.readPos rs r.consumed m.rTime
  /-- the writer's `read_pos` is one of the reader's stores -/
  wSeen : ∃ t, rs[m.wSeen]? = some (w.consumed, t)
  rSeen : ∃ t, ws[m.rSeen]? = some (r.published.length, t)
  pub : r.published <+: w.published
  written : ∀ a, m.written a < m.wTime
  looked : ∀ a, m.looked a < m.rTime
  /-- what was written after a store of `write_pos` lies outside the bytes that it published -/
  beyond : ∀ x ∈ ws, ∀ a, x.2 < m.written a →
    ∀ i, w.consumed ≤ i → i < x.1 → (base + i) % cap.val ≠ a
  /-- what was read after a store of `read_pos` lies behind the bytes that it released -/
  behind : ∀ x ∈ rs, ∀ a, x.2 < m.looked a →
    ∃ i, x.1 ≤ i ∧ i < r.published.length ∧ (base + i) % cap.val = a
  raced : m.raced = false

/-- The memory, for some counts of the stores. -/
def Sees (cap : Capacity) (base : ℕ) (m : Ra) (w r : World) : Prop :=
  ∃ ws rs, View cap base m ws rs w r

variable {m m' : Ra} {w w' r r' : World}

theorem sees_init (cap : Capacity) (base : ℕ) (d : ℕ → UInt8) :
    Sees cap base (.init base d) (.empty base d) (.empty base d) := by
  have h0 := inv_empty cap base d
  refine ⟨[(0, 0)], [(0, 0)], h0, h0, rfl, rfl, log_init base, log_init base, ⟨0, rfl⟩, ⟨0, rfl⟩,
    List.prefix_rfl, fun _ => Nat.zero_lt_one, fun _ => Nat.zero_lt_one, ?_, ?_, rfl⟩
  · intro x _ a h
    exact absurd h (Nat.not_lt_zero _)
  · intro x _ a h
    exact absurd h (Nat.not_lt_zero _)

/-- The writer's `read_pos` is not ahead of the reader's. -/
theorem View.consumed_le (h : View cap base m ws rs w r) : w.consumed ≤ r.consumed := by
  obtain ⟨t, ht⟩ := h.wSeen
  exact h.rLog.le_last ht

/-- No race: the last write to a cell of the reader's bytes in flight is known to the reader. -/
theorem View.reader_knows (h : View cap base m ws rs w r) (hi : r.consumed ≤ i)
    (hi' : i < r.published.length) : m.written ((base + i) % cap.val) ≤ m.rKnows := by
  obtain ⟨t, ht⟩ := h.rSeen
  have hk : m.rKnows = t := h.wLog.time_get ht
  rw [hk]
  by_contra hlt
  exact h.beyond _ (List.mem_of_getElem? ht) _ (by omega) i (h.consumed_le.trans hi) hi' rfl

/-- No race: the last look at a cell outside the writer's bytes in flight is known to the writer. -/
theorem View.writer_knows (h : View cap base m ws rs w r) {off : ℕ}
    (hoff : ∀ i, w.consumed ≤ i → i < w.published.length → (base + i) % cap.val ≠ off) :
    m.looked off ≤ m.wKnows := by
  obtain ⟨t, ht⟩ := h.wSeen
  have hk : m.wKnows = t := h.rLog.time_get ht
  rw [hk]
  by_contra hlt
  obtain ⟨i, h1, h2, h3⟩ := h.behind _ (List.mem_of_getElem? ht) off (by omega)
  have h4 := h.pub.length_le
  exact hoff i h1 (by omega) h3

/-! ### The writer's accesses -/

/-- `read_pos.load(acquire)`: the reader's steps up to that store reach the writer's view. -/
theorem View.wAcquire (h : View cap base m ws rs w r) {st : Store} (hj : m.wSeen ≤ j)
    (hst : m.readPos[j]? = some st) : ∃ w', RStep w w' ∧ w'.shm.readPos = st.value ∧
      View cap base { m with wSeen := j, wTime := m.wTime + 1 } ws rs w' r := by
  obtain ⟨x, hx, rfl⟩ := h.rLog.get hst
  obtain ⟨t, ht⟩ := h.wSeen
  have hle : w.consumed ≤ x.1 := (h.rLog.mono_get hj ht hx).1
  have h1 := h.rLog.le_last hx
  have h2 := h.rInv.le
  have h3 := h.pub.length_le
  have hstep : RStep w { w with
      shm := { w.shm with readPos := UInt64.ofNat (base + x.1) }
      consumed := x.1 } := by
    refine ⟨rfl, rfl, rfl, rfl, rfl, hle, ?_, ?_, Or.inl ⟨rfl, rfl⟩⟩
    · show x.1 ≤ max w.consumed w.published.length
      omega
    · show UInt64.ofNat (base + x.1) = w.shm.readPos + UInt64.ofNat (x.1 - w.consumed)
      rw [h.wInv.readPos, ← UInt64.ofNat_add]
      congr 1
      omega
  refine ⟨_, hstep, rfl, { h with
    wInv := hstep.inv h.wInv, wLog := h.wLog.tick, wSeen := ⟨x.2, hx⟩, written := ?_,
    beyond := ?_ }⟩
  · exact fun a => Nat.lt_succ_of_lt (h.written a)
  · exact fun y hy a ha i hi => h.beyond y hy a ha i (hle.trans hi)

/-- `write_pos.store(release)` -/
theorem View.wRelease (h : View cap base m ws rs w r) {v : UInt64}
    (hg : WStep cap base w (w.after cap (.storeWritePos v))) :
    Sees cap base { m with writePos := m.writePos ++ [⟨v, m.wTime⟩], wTime := m.wTime + 1 }
      (w.after cap (.storeWritePos v)) r := by
  have hi := hg.inv h.wInv
  have hv : v = UInt64.ofNat (base + (w.after cap (.storeWritePos v)).published.length) :=
    hi.writePos
  have hlog := h.wLog.snoc hg.published.length_le
  rw [← hv] at hlog
  obtain ⟨t, ht⟩ := h.rSeen
  refine ⟨_, rs, { h with
    wInv := hi, wLog := hlog, rSeen := ⟨t, ?_⟩, pub := h.pub.trans hg.published, written := ?_,
    beyond := ?_ }⟩
  · rw [List.getElem?_append_left (List.getElem?_eq_some_iff.mp ht).1]
    exact ht
  · exact fun a => Nat.lt_succ_of_lt (h.written a)
  · intro x hx a ha
    rcases List.mem_append.mp hx with hx | hx
    · exact h.beyond x hx a ha
    · have := h.written a
      rw [List.mem_singleton.mp hx] at ha
      exact absurd ha (by simp only; omega)

/-- A byte written outside the bytes in flight of the writer, and so of the reader. -/
theorem View.wWrite (h : View cap base m ws rs w r) {off : ℕ} {b : UInt8}
    (hoff : ∀ i, w.consumed ≤ i → i < w.published.length → (base + i) % cap.val ≠ off) :
    WStep cap base r (r.after cap (.writeByte off b)) ∧
      View cap base
        { m with
          data := fun x => if x = off then b else m.data x
          written := fun x => if x = off then m.wTime else m.written x
          raced := m.raced || decide (m.wKnows < m.looked off)
          wTime := m.wTime + 1 } ws rs
        (w.after cap (.writeByte off b)) (r.after cap (.writeByte off b)) := by
  have h1 := h.consumed_le
  have h2 := h.pub.length_le
  have hw : WStep cap base w (w.after cap (.writeByte off b)) := wStep_writeByte hoff
  have hr : WStep cap base r (r.after cap (.writeByte off b)) :=
    wStep_writeByte fun i hi hi' => hoff i (by omega) (by omega)
  have hknow := h.writer_knows hoff
  refine ⟨hr, { h with
    wInv := hw.inv h.wInv, rInv := hr.inv h.rInv, wData := ?_, rData := ?_, wLog := h.wLog.tick,
    written := ?_, beyond := ?_, raced := ?_ }⟩
  · show (fun x => if x = off then b else w.shm.data x) = _
    rw [h.wData]
  · show (fun x => if x = off then b else r.shm.data x) = _
    rw [h.rData]
  · intro a
    have := h.written a
    show (if a = off then m.wTime else m.written a) < m.wTime + 1
    split_ifs <;> omega
  · intro x hx a ha i hi hi'
    obtain ⟨j, hj⟩ := List.getElem?_of_mem hx
    have hlast := h.wLog.le_last hj
    by_cases hao : a = off
    · rw [hao]
      exact hoff i hi (by omega)
    · refine h.beyond x hx a ?_ i hi hi'
      simpa only [hao, if_false] using ha
  · rw [h.raced, Bool.false_or, decide_eq_false_iff_not]
    omega

theorem writer_simulates (cap : Capacity) (base : ℕ) :
    Simulates (World.exec cap) RStep (WStep cap base) (WriterFoot cap base) WriterAccess
      (Sees cap base) := by
  rintro c m x m' w r ⟨ws, rs, h⟩ hacc
  have htick : View cap base { m with wTime := m.wTime + 1 } ws rs w r :=
    { h with wLog := h.wLog.tick, written := fun a => Nat.lt_succ_of_lt (h.written a) }
  cases hacc with
  | own hst =>
    refine ⟨w, rStep_refl w, fun _ _ => ⟨?_, r, wStep_refl r, ws, rs, htick⟩⟩
    exact h.wInv.writePos.trans (h.wLog.value_last hst).symm
  | acquire hj hst =>
    obtain ⟨w', hstep, hv, hview⟩ := h.wAcquire hj hst
    exact ⟨w', hstep, fun _ _ => ⟨hv, r, wStep_refl r, ws, rs, hview⟩⟩
  | release =>
    exact ⟨w, rStep_refl w, fun _ hg => ⟨rfl, r, wStep_refl r, h.wRelease hg⟩⟩
  | write =>
    refine ⟨w, rStep_refl w, fun hF _ => ?_⟩
    obtain ⟨hstep, hview⟩ := h.wWrite hF
    exact ⟨rfl, _, hstep, ws, rs, hview⟩
  | notify =>
    refine ⟨w, rStep_refl w, fun _ hg => ⟨rfl, r, wStep_refl r, ws, rs, ?_⟩⟩
    exact { htick with wInv := hg.inv h.wInv }

/-! ### The reader's accesses -/

/-- `write_pos.load(acquire)`: the writer's steps up to that store reach the reader's view. -/
theorem View.rAcquire (h : View cap base m ws rs w r) {st : Store} (hj : m.rSeen ≤ j)
    (hst : m.writePos[j]? = some st) : ∃ r', WStep cap base r r' ∧ r'.shm.writePos = st.value ∧
      View cap base { m with rSeen := j, rTime := m.rTime + 1 } ws rs w r' := by
  obtain ⟨x, hx, rfl⟩ := h.wLog.get hst
  obtain ⟨t, ht⟩ := h.rSeen
  have hle : r.published.length ≤ x.1 := (h.wLog.mono_get hj ht hx).1
  have h1 := h.wLog.le_last hx
  have h2 := h.consumed_le
  have h3 := h.wInv.fit
  have hlen : (w.published.take x.1).length = x.1 := List.length_take_of_le h1
  have hpre : r.published <+: w.published.take x.1 :=
    List.prefix_of_prefix_length_le h.pub (List.take_prefix _ _) (by rw [hlen]; exact hle)
  have hstep : WStep cap base r { r with
      shm := { r.shm with writePos := UInt64.ofNat (base + x.1) }
      published := w.published.take x.1 } := by
    refine ⟨rfl, rfl, rfl, hpre, ?_, ?_, fun _ _ _ => rfl, ?_, le_rfl, Or.inl ⟨rfl, rfl⟩⟩
    · show (w.published.take x.1).length ≤ max r.published.length (r.consumed + cap.val)
      omega
    · show UInt64.ofNat (base + x.1) =
        r.shm.writePos + UInt64.ofNat ((w.published.take x.1).length - r.published.length)
      rw [hlen, h.rInv.writePos, ← UInt64.ofNat_add]
      congr 1
      omega
    · -- the bytes that come into sight are in flight for the writer too
      intro i hi _ hi'
      have hix : i < x.1 := by rw [← hlen]; exact hi'
      show (w.published.take x.1)[i]? = some (r.shm.data ((base + i) % cap.val))
      rw [List.getElem?_take_of_lt hix, h.rData, ← h.wData]
      exact h.wInv.live i (by omega) (by omega)
  refine ⟨_, hstep, rfl, { h with
    rInv := hstep.inv h.rInv, rLog := h.rLog.tick, rSeen := ⟨x.2, ?_⟩,
    pub := List.take_prefix _ _, looked := ?_, behind := ?_ }⟩
  · show ws[j]? = some ((w.published.take x.1).length, x.2)
    rw [hlen]
    exact hx
  · exact fun a => Nat.lt_succ_of_lt (h.looked a)
  · intro y hy a ha
    obtain ⟨i, h4, h5, h6⟩ := h.behind y hy a ha
    refine ⟨i, h4, ?_, h6⟩
    show i < (w.published.take x.1).length
    omega

/-- `read_pos.store(release)` -/
theorem View.rRelease (h : View cap base m ws rs w r) {v : UInt64}
    (hg : RStep r (r.after cap (.storeReadPos v))) :
    Sees cap base { m with readPos := m.readPos ++ [⟨v, m.rTime⟩], rTime := m.rTime + 1 } w
      (r.after cap (.storeReadPos v)) := by
  have hi := hg.inv h.rInv
  have hv : v = UInt64.ofNat (base + (r.after cap (.storeReadPos v)).consumed) := hi.readPos
  have hlog := h.rLog.snoc hg.consumed
  rw [← hv] at hlog
  obtain ⟨t, ht⟩ := h.wSeen
  refine ⟨ws, _, { h with
    rInv := hi, rLog := hlog, wSeen := ⟨t, ?_⟩, looked := ?_, behind := ?_ }⟩
  · rw [List.getElem?_append_left (List.getElem?_eq_some_iff.mp ht).1]
    exact ht
  · exact fun a => Nat.lt_succ_of_lt (h.looked a)
  · intro x hx a ha
    rcases List.mem_append.mp hx with hx | hx
    · exact h.behind x hx a ha
    · have := h.looked a
      rw [List.mem_singleton.mp hx] at ha
      exact absurd ha (by simp only; omega)

/-- A byte read in flight. -/
theorem View.rRead (h : View cap base m ws rs w r) {off : ℕ}
    (hoff : ∃ i, r.consumed ≤ i ∧ i < r.published.length ∧ (base + i) % cap.val = off) :
    View cap base
      { m with
        looked := fun x => if x = off then m.rTime else m.looked x
        raced := m.raced || decide (m.rKnows < m.written off)
        rTime := m.rTime + 1 } ws rs w r := by
  obtain ⟨i, h1, h2, rfl⟩ := hoff
  have hknow := h.reader_knows h1 h2
  refine { h with rLog := h.rLog.tick, looked := ?_, behind := ?_, raced := ?_ }
  · intro a
    have := h.looked a
    show (if a = _ then m.rTime else m.looked a) < m.rTime + 1
    split_ifs <;> omega
  · intro x hx a ha
    obtain ⟨j, hj⟩ := List.getElem?_of_mem hx
    have hlast := h.rLog.le_last hj
    by_cases hao : a = (base + i) % cap.val
    · exact ⟨i, by omega, h2, hao.symm⟩
    · refine h.behind x hx a ?_
      simpa only [hao, if_false] using ha
  · rw [h.raced, Bool.false_or, decide_eq_false_iff_not]
    omega

theorem reader_simulates (cap : Capacity) (base : ℕ) :
    Simulates (World.exec cap) (WStep cap base) RStep (ReaderFoot cap base) ReaderAccess
      fun m r w => Sees cap base m w r := by
  rintro c m x m' r w ⟨ws, rs, h⟩ hacc
  cases hacc with
  | own hst =>
    refine ⟨r, wStep_refl r, fun _ _ => ⟨?_, w, rStep_refl w, ws, rs, ?_⟩⟩
    · exact h.rInv.readPos.trans (h.rLog.value_last hst).symm
    · exact { h with rLog := h.rLog.tick, looked := fun a => Nat.lt_succ_of_lt (h.looked a) }
  | acquire hj hst =>
    obtain ⟨r', hstep, hv, hview⟩ := h.rAcquire hj hst
    exact ⟨r', hstep, fun _ _ => ⟨hv, w, rStep_refl w, ws, rs, hview⟩⟩
  | release =>
    exact ⟨r, wStep_refl r, fun _ hg => ⟨rfl, w, rStep_refl w, h.rRelease hg⟩⟩
  | read =>
    refine ⟨r, wStep_refl r, fun hF _ => ⟨?_, w, rStep_refl w, ws, rs, h.rRead hF⟩⟩
    exact congrFun h.rData _

/-! ### Neither side waits -/

theorem writer_enabled (h : Sees cap base m w r) (c : Cmd) (hF : WriterFoot cap base c w) :
    ∃ x m', WriterAccess c m x m' := by
  obtain ⟨ws, rs, h⟩ := h
  cases c with
  | loadWritePos =>
    obtain ⟨t, ht⟩ := h.wLog.last
    exact ⟨_, _, .own (by rw [h.wLog.eq, List.getLast?_map, ht]; rfl)⟩
  | loadReadPos =>
    obtain ⟨t, ht⟩ := h.wSeen
    exact ⟨_, _, .acquire le_rfl (by rw [h.rLog.eq, List.getElem?_map, ht]; rfl)⟩
  | storeWritePos v => exact ⟨_, _, .release⟩
  | writeByte off b => exact ⟨_, _, .write⟩
  | notifyPeer => exact ⟨_, _, .notify⟩
  | storeReadPos v => exact hF.elim
  | readByte off => exact hF.elim
  | readNull => exact hF.elim
  | drainNotify => exact hF.elim

theorem reader_enabled (h : Sees cap base m w r) (c : Cmd) (hF : ReaderFoot cap base c r) :
    ∃ x m', ReaderAccess c m x m' := by
  obtain ⟨ws, rs, h⟩ := h
  cases c with
  | loadReadPos =>
    obtain ⟨t, ht⟩ := h.rLog.last
    exact ⟨_, _, .own (by rw [h.rLog.eq, List.getLast?_map, ht]; rfl)⟩
  | loadWritePos =>
    obtain ⟨t, ht⟩ := h.rSeen
    exact ⟨_, _, .acquire le_rfl (by rw [h.wLog.eq, List.getElem?_map, ht]; rfl)⟩
  | storeReadPos v => exact ⟨_, _, .release⟩
  | readByte off => exact ⟨_, _, .read⟩
  | storeWritePos v => exact hF.elim
  | writeByte off b => exact hF.elim
  | readNull => exact hF.elim
  | notifyPeer => exact hF.elim
  | drainNotify => exact hF.elim

end ShmIpc.Ring.ReleaseAcquire
