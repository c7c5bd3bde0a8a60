import ShmIpc.Codec.FrameReader
import ShmIpc.Conn.Hostile
import ShmIpc.Lib.Answers

/-! # The accesses of the two halves, whatever they read

Which accesses the functions of `BatchWriter`, `ChannelBatchWriter`, `codec.hpp` and `FrameReader`
can make when nothing is known of the bytes and positions that they find in the shared memory. The
lemmas are about any set `P` of accesses that has those of a writer (`WriterSide`) or of a reader
(`ReaderSide`), so that one lemma serves for every question about them: whether they stay inside the
data area, how often they publish, how often they release. -/

namespace ShmIpc.Codec.Accesses

open ShmIpc.Lib.RelyGuarantee ShmIpc.Lib.Answers ShmIpc.Lib.Window
open ShmIpc.Ring.RingBuf ShmIpc.Ring.Batch ShmIpc.Ring.Channel
open ShmIpc.Codec.Frame ShmIpc.Codec.FrameReader
open ShmIpc.Conn.Hostile

variable {cap : Capacity} {P : Cmd → Prop} {α : Type}

/-- The accesses of a writer that does not publish. -/
structure WriterSide (cap : Capacity) (P : Cmd → Prop) : Prop where
  loadWritePos : P .loadWritePos
  loadReadPos : P .loadReadPos
  writeByte : ∀ off < cap.val, ∀ b, P (.writeByte off b)

/-- The accesses of a reader that does not release. -/
structure ReaderSide (cap : Capacity) (P : Cmd → Prop) : Prop where
  loadWritePos : P .loadWritePos
  loadReadPos : P .loadReadPos
  readByte : ∀ off < cap.val, P (.readByte off)

/-! ### The writer -/

theorem always_memcpyTo {Q : Unit → Prop} (hQ : Q ()) : ∀ (l : List UInt8) (off : ℕ),
    (∀ i < l.length, ∀ b, P (.writeByte (off + i) b)) → Always P (memcpyTo off l) Q
  | [], _, _ => hQ
  | b :: l, off, h => by
    refine ⟨h 0 (by simp) b, fun _ => always_memcpyTo hQ l (off + 1) fun i hi b => ?_⟩
    rw [Nat.add_assoc, Nat.add_comm 1 i]
    exact h (i + 1) (by simpa using hi) b

/-- The two parts of a copy into the ring lie inside the data area, for every position. -/
theorem always_ringCopyIn (hP : WriterSide cap P) (w : UInt64) {src : Buf} {Q : Unit → Prop}
    (hQ : Q ()) (hlen : src.bytes.length ≤ cap.maxWriteSize) :
    Always P (ringCopyIn cap w src) Q := by
  have hw := ringPhys_lt cap w
  unfold Capacity.maxWriteSize at hlen
  unfold ringCopyIn
  simp only []
  split_ifs with h <;> rw [Buf.toNat_len] at h
  · exact always_memcpyTo hQ _ _ fun i hi b => hP.writeByte _ (by omega) b
  · refine always_bind.mpr (always_memcpyTo (always_memcpyTo hQ _ _ ?_) _ _ ?_)
    · intro i hi b
      rw [List.length_drop] at hi
      exact hP.writeByte _ (by omega) b
    · intro i hi b
      rw [List.length_take] at hi
      exact hP.writeByte _ (by omega) b

theorem always_batchTryWrite (hP : WriterSide cap P) (b : BatchWriter) (data : Option Buf)
    {Q : ℤ × BatchWriter → Prop} (hQ : ∀ x, Q x) : Always P (b.tryWrite cap data) Q := by
  rcases data with _ | src
  · exact hQ _
  show Always P (if b.Rejects cap src.len then _ else _) Q
  split_ifs with h
  · exact hQ _
  · refine always_bind.mpr (always_ringCopyIn hP _ (hQ _) ?_)
    have hmax : ¬ cap.maxWriteSize < src.len.toNat := fun hlt => h (Or.inr (Or.inl hlt))
    rw [Buf.toNat_len] at hmax
    omega

theorem always_reserveFill (hP : WriterSide cap P) (b : BatchWriter) (src : Buf)
    {Q : Bool × BatchWriter → Prop} (hQ : ∀ x, Q x) : Always P (b.reserveFill cap src) Q := by
  unfold BatchWriter.reserveFill BatchWriter.reserve
  have hw := ringPhys_lt cap b.w
  split_ifs with h h'
  · exact hQ _
  · exact hQ _
  · rw [Buf.toNat_len] at h'
    exact always_bind.mpr (always_memcpyTo (hQ _) _ _ fun i hi b => hP.writeByte _ (by omega) b)

theorem always_tryWriteBatch (hP : WriterSide cap P) (b : ChannelBatchWriter) (data : Option Buf)
    {Q : ℤ × ChannelBatchWriter → Prop} (hQ : ∀ x, Q x) : Always P (b.tryWrite cap data) Q :=
  always_bind.mpr (always_batchTryWrite hP _ _ fun _ => hQ _)

theorem always_callback (hP : WriterSide cap P) {Q : Bool × ChannelBatchWriter → Prop}
    (hQ : ∀ x, Q x) : ∀ (cb : Callback) (b : ChannelBatchWriter), Always P (cb.exec cap b) Q
  | .done, _ => hQ _
  | .throw, _ => hQ _
  | .tryWrite data k, b =>
    always_bind.mpr (always_tryWriteBatch hP b data fun x => always_callback hP hQ (k x.1) x.2)
  | .reserve src _ k, b =>
    always_bind.mpr (always_reserveFill hP b.batch src fun x => always_callback hP hQ (k x.1) _)

theorem always_available (hP : WriterSide cap P) {Q : UInt64 → Prop} (hQ : ∀ x, Q x) :
    Always P available Q :=
  ⟨hP.loadWritePos, fun _ => ⟨hP.loadReadPos, fun _ => hQ _⟩⟩

theorem always_writableBytes (hP : WriterSide cap P) {Q : UInt64 → Prop} (hQ : ∀ x, Q x) :
    Always P (writableBytes cap) Q :=
  always_bind.mpr (always_available hP fun _ => hQ _)

theorem always_startBatch (hP : WriterSide cap P) {Q : ChannelBatchWriter → Prop}
    (hQ : ∀ x, Q x) : Always P startBatch Q :=
  ⟨hP.loadWritePos, fun _ => ⟨hP.loadReadPos, fun _ => hQ _⟩⟩

theorem always_sendFrameBatch (hP : WriterSide cap P) (b : ChannelBatchWriter)
    (payloadLen seq : UInt32) (cb : Callback) {Q : Outcome × ChannelBatchWriter → Prop}
    (hQ : ∀ x, Q x) : Always P (sendFrameBatch cap b payloadLen seq cb) Q := by
  unfold sendFrameBatch
  simp only []
  split_ifs
  · exact hQ _
  · refine always_bind.mpr (always_tryWriteBatch hP _ _ fun x => ?_)
    refine always_bind.mpr (always_callback hP (fun y => ?_) cb x.2)
    show Always P (if _ then _ else _) Q
    split_ifs
    · exact hQ _
    · exact hQ _
    · exact hQ _

/-! ### Flushes -/

/-- A batch with nothing to publish: moved from, or flushed. -/
def Drained (b : BatchWriter) : Prop := b.hdr = false ∨ b.w = b.wStart

/-- With nothing to publish, a flush makes no access. -/
theorem flush_drained {b : BatchWriter} (hb : Drained b) :
    ∃ n b', b.flush = .ret (n, b') ∧ Drained b' := by
  unfold BatchWriter.flush
  by_cases h : b.hdr = false
  · exact ⟨0, b, if_pos h, hb⟩
  · have hw : b.w = b.wStart := hb.resolve_left h
    rw [if_neg h, if_neg (not_not_intro hw)]
    exact ⟨b.count, { b with count := 0 }, rfl, Or.inr hw⟩

theorem always_flush_drained {b : ChannelBatchWriter} (hb : Drained b.batch)
    (hring : P .notifyPeer) : Always P b.flush fun x => Drained x.2.batch := by
  obtain ⟨n, b', he, hb'⟩ := flush_drained hb
  unfold ChannelBatchWriter.flush
  rw [he, Prog.ret_bind]
  show Always P (if _ then _ else _) _
  split_ifs
  · exact ⟨hring, fun _ => hb'⟩
  · exact hb'

theorem always_destroy_drained {b : ChannelBatchWriter} (hb : Drained b.batch)
    (hring : P .notifyPeer) {Q : Unit → Prop} (hQ : Q ()) : Always P b.destroy Q := by
  unfold ChannelBatchWriter.destroy
  refine always_bind.mpr ((always_flush_drained hb hring).mono fun x hx => ?_)
  obtain ⟨n, b', he, -⟩ := flush_drained hx
  show Always P (x.2.batch.flush >>= _) Q
  rw [he, Prog.ret_bind]
  exact hQ

/-! ### The reader -/

theorem always_memcpyFrom {Q : List UInt8 → Prop} : ∀ (n off : ℕ),
    (∀ i < n, P (.readByte (off + i))) → (∀ l, l.length = n → Q l) →
      Always P (memcpyFrom off n) Q
  | 0, _, _, hQ => hQ [] rfl
  | n + 1, off, h, hQ => by
    refine ⟨h 0 (by omega), fun b => ?_⟩
    show Always P (memcpyFrom (off + 1) n >>= _) Q
    refine always_bind.mpr (always_memcpyFrom n (off + 1) ?_ ?_)
    · intro i hi
      rw [Nat.add_assoc, Nat.add_comm 1 i]
      exact h (i + 1) (by omega)
    · intro l hl
      exact hQ (b :: l) (by simp [hl])

theorem always_memcpyPtr {Q : List UInt8 → Prop} {ptr : Option ℕ} {o n : ℕ}
    (h : n = 0 ∨ ∃ q, ptr = some q ∧ ∀ i < n, P (.readByte (q + o + i)))
    (hQ : ∀ l, l.length = n → Q l) : Always P (memcpyPtr ptr o n) Q := by
  rcases h with rfl | ⟨q, rfl, h⟩
  · rcases ptr with _ | q
    · exact hQ [] rfl
    · exact hQ [] rfl
  · exact always_memcpyFrom n _ h hQ

theorem always_readHeader {s : Segs} (hP : ReaderSide cap P) (h : Reach (· < cap.val) s 8)
    {Q : MsgHeader → Prop} (hQ : ∀ hdr, Q hdr) : Always P (readHeader s) Q := by
  have h8 : kMsgHeaderSize.toNat = 8 := rfl
  unfold readHeader
  split_ifs with hs <;> rw [UInt32.le_iff_toNat_le, h8] at hs
  · refine always_bind.mpr (always_memcpyFrom _ _ (fun i hi => ?_) fun _ _ => hQ _)
    exact hP.readByte _ (h.seg1 i (by omega) (by omega))
  · refine always_bind.mpr (always_memcpyFrom _ _ (fun i hi => ?_) fun _ _ => ?_)
    · exact hP.readByte _ (h.seg1 i hi (by omega))
    · rw [UInt32.toNat_sub_of_le _ _ (by rw [UInt32.le_iff_toNat_le]; omega), h8]
      refine always_bind.mpr (always_memcpyPtr (Or.inr ?_) fun _ _ => hQ _)
      obtain ⟨q, hq, hin⟩ := h.seg2 (by omega)
      exact ⟨q, hq, fun i hi => hP.readByte _ (hin i (by omega))⟩

theorem always_copyFromSegments {s : Segs} {offset len : UInt32} (hP : ReaderSide cap P)
    (h : Reach (· < cap.val) s (offset.toNat + len.toNat)) {Q : List UInt8 → Prop}
    (hQ : ∀ l, l.length = len.toNat → Q l) : Always P (copyFromSegments s offset len) Q := by
  have hco := toNat_copied s.seg1Len offset len
  unfold copyFromSegments
  simp only []
  generalize (if offset < s.seg1Len then _ else (0 : UInt32)) = copied at hco ⊢
  refine always_bind.mpr (always_memcpyFrom _ _ (fun i hi => ?_) fun a ha => ?_)
  · rw [Nat.add_assoc]
    exact hP.readByte _ (h.seg1 (offset.toNat + i) (by omega) (by omega))
  rw [toNat_sub_or_zero]
  split_ifs with hlt <;> rw [UInt32.lt_iff_toNat_lt] at hlt
  · rw [UInt32.toNat_sub_of_le _ _ (by rw [UInt32.le_iff_toNat_le]; omega)]
    refine always_bind.mpr (always_memcpyPtr (Or.inr ?_) fun b hb => ?_)
    · obtain ⟨q, hq, hin⟩ := h.seg2 (by omega)
      refine ⟨q, hq, fun i hi => hP.readByte _ ?_⟩
      rw [Nat.add_assoc]
      exact hin _ (by omega)
    · exact hQ _ (by rw [List.length_append, ha, hb]; omega)
  · exact hQ _ (by rw [ha]; omega)

/-- `TryRecv` releases the last frame and then is `TryRecv` with nothing to release. -/
theorem tryRecv_eq (bufSize : UInt32) (fr : Receiver) :
    fr.tryRecv cap bufSize = fr.commit >>= fun fr => fr.tryRecv cap bufSize := by
  have hz : ∀ fr : Receiver, fr.pendingCommit = 0 → fr.commit = .ret fr := by
    intro fr h
    unfold Receiver.commit
    rw [h, if_neg (by decide)]
    rfl
  by_cases hpos : 0 < fr.pendingCommit
  · have hc : fr.commit = commitRead fr.pendingCommit >>= fun _ => .ret fr.released := by
      unfold Receiver.commit
      rw [if_pos hpos]
      rfl
    conv_lhs => unfold Receiver.tryRecv
    rw [hc, Prog.bind_bind, Prog.bind_bind]
    rfl
  · have h0 : fr.pendingCommit = 0 := by
      rw [UInt32.lt_iff_toNat_lt] at hpos
      rw [← UInt32.toNat_inj]
      have : (0 : UInt32).toNat = 0 := rfl
      omega
    rw [hz fr h0, Prog.ret_bind]

/-- What `TryRecv` leaves, whatever it has read. -/
structure Handed (cap : Capacity) (bufSize : UInt32) (buf : ℕ → UInt8) (out : Recv × Receiver) :
    Prop where
  payload : ∀ payload len, out.1 = .frame payload len → PayloadOk cap bufSize len payload
  /-- the copy to the front of `buf_` fits it -/
  buf : ∃ l, l.length ≤ bufSize.toNat ∧ out.2.buf = blit buf 0 l

theorem handed_of_buf {bufSize : UInt32} {fr : Receiver} {res : Recv} {buf : ℕ → UInt8}
    (hbuf : fr.buf = buf)
    (hpay : ∀ payload len, res = .frame payload len → PayloadOk cap bufSize len payload) :
    Handed cap bufSize buf (res, fr) :=
  ⟨hpay, [], Nat.zero_le _, by rw [blit_nil]; exact hbuf⟩

/-- **What `TryRecv` touches with nothing to release**, whatever each access returns: the two
positions that `Peek` loads are the only ones it believes, and a frame that they and the header seem
to describe is checked against the ring before it is touched. -/
theorem always_tryRecv_released (hP : ReaderSide cap P) (bufSize : UInt32) {fr : Receiver}
    (hp : fr.pendingCommit = 0) :
    Always P (fr.tryRecv cap bufSize) (Handed cap bufSize fr.buf) := by
  have hge := cap.ge
  have h8 : kMsgHeaderSize.toNat = 8 := rfl
  have hno : ∀ res : Recv, (∀ payload len, res ≠ .frame payload len) →
      Handed cap bufSize fr.buf (res, fr) :=
    fun res hres => handed_of_buf rfl fun payload len he => absurd he (hres payload len)
  unfold Receiver.tryRecv Receiver.commit
  rw [hp, if_neg (by decide)]
  refine always_bind.mpr (always_bind.mpr (?_ : Always P (peek cap) _))
  refine ⟨hP.loadReadPos, fun r => ⟨hP.loadWritePos, fun w => ?_⟩⟩
  show Always P (if w - r = 0 then _ else _) _
  split_ifs with hwr
  · exact hno _ (by simp)
  show Always P (if _ then _ else _) _
  -- the positions as they were when `Peek` loaded them
  have hreach : ∀ n ≤ cap.val, n ≤ ((segsOf cap r w).seg1Len + (segsOf cap r w).seg2Len).toNat →
      Reach (· < cap.val) (segsOf cap r w) n := fun n hn ht =>
    (reachable_segsOf (m := ⟨w, r, fun _ => 0, 0⟩) hn ht).1.reach
  have hseg1 : (segsOf cap r w).seg1 + (segsOf cap r w).seg1Len.toNat ≤ cap.val :=
    (reachable_segsOf (m := ⟨w, r, fun _ => 0, 0⟩) (n := 0) (Nat.zero_le _) (Nat.zero_le _)).1.seg1
  generalize segsOf cap r w = s at hreach hseg1 ⊢
  generalize s.seg1Len + s.seg2Len = total at hreach ⊢
  split_ifs with hshort
  · exact hno _ (by simp)
  rw [UInt32.lt_iff_toNat_lt, h8] at hshort
  refine always_bind.mpr (always_readHeader hP (hreach 8 (by omega) (by omega)) fun hdr => ?_)
  split_ifs with hill hcut hz hseg hbuf
  · exact hno _ (by simp)
  · exact hno _ (by simp)
  all_goals
    rw [h8] at hill
    have hlegal : hdr.len.toNat ≤ cap.val - 8 := by omega
    have hsz := toNat_frameLen hlegal
    rw [UInt32.lt_iff_toNat_lt, UInt32.toNat_sub_of_le _ _
      (by rw [UInt32.le_iff_toNat_le, h8]; omega), h8] at hcut
    have hframe := hreach (8 + hdr.len.toNat) (by omega) (by omega)
  · refine handed_of_buf rfl fun payload len he => ?_
    cases he
    rfl
  · rw [UInt32.le_iff_toNat_le, hsz] at hseg
    refine handed_of_buf rfl fun payload len he => ?_
    cases he
    show s.seg1 + 8 + hdr.len.toNat ≤ cap.val
    omega
  · exact handed_of_buf rfl fun payload len he => by cases he
  · refine always_bind.mpr (always_copyFromSegments hP hframe fun body hbody => ?_)
    rw [UInt32.not_lt, UInt32.le_iff_toNat_le] at hbuf
    refine ⟨fun payload len he => ?_, body, by omega, rfl⟩
    cases he
    exact UInt32.le_iff_toNat_le.mpr hbuf

/-- A payload that was handed out is read inside the data area. -/
theorem always_readPayload (hP : ReaderSide cap P) {bufSize len : UInt32} {payload : Payload}
    (h : PayloadOk cap bufSize len payload) (fr : Receiver) {Q : List UInt8 → Prop}
    (hQ : ∀ l, Q l) : Always P (readPayload fr len payload) Q := by
  cases payload with
  | null => exact hQ _
  | ring off =>
    refine always_memcpyFrom _ _ (fun i hi => hP.readByte _ ?_) fun l _ => hQ l
    have hoff : off + len.toNat ≤ cap.val := h
    omega
  | buf => exact hQ _

end ShmIpc.Codec.Accesses
