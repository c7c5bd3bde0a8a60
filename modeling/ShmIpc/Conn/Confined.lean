import ShmIpc.Codec.Accesses

/-! # A peer that may do anything to the shared memory, at any time

`Hostile` asks what the readers do on a ring that holds anything. Here the ring does not even hold
still: between any two accesses of this process the peer may store any position, write any byte and
ring or drain any eventfd. `hostile_peer` says that the writing half (`TryWrite`, batches,
reservations, `SendFrame` with any callback) and the framed reading half (`FrameReader`) stay inside
the data area all the same, each with the kinds of access that belong to its half, and that the
payloads handed out do not leave the data area or the buffer either. Every position and every header
is loaded once and checked on the copy, which is what makes this true. -/

namespace ShmIpc.Conn.Confined

open Relation
open ShmIpc.Lib.RelyGuarantee ShmIpc.Lib.Threads ShmIpc.Lib.Answers ShmIpc.Lib.Window
open ShmIpc.Ring.RingBuf ShmIpc.Ring.Channel
open ShmIpc.Codec.Frame ShmIpc.Codec.FrameReader ShmIpc.Codec.Accesses
open ShmIpc.Conn.Hostile

variable {cap : Capacity} {bufSize : UInt32}

/-! ### The two halves -/

/-- The accesses of the writing half. -/
def WriterAccess (cap : Capacity) : Cmd → Prop
  | .loadWritePos | .loadReadPos | .storeWritePos _ | .notifyPeer => True
  | .writeByte off _ => off < cap.val
  | .readByte _ | .readNull | .storeReadPos _ | .drainNotify => False

/-- The accesses of the reading half. -/
def ReaderAccess (cap : Capacity) : Cmd → Prop
  | .loadWritePos | .loadReadPos | .storeReadPos _ | .drainNotify => True
  | .readByte off => off < cap.val
  | .writeByte _ _ | .readNull | .storeWritePos _ | .notifyPeer => False

/-- The calls of the writing half, with the batch that is open. -/
inductive WriterCall (cap : Capacity) :
    Option ChannelBatchWriter → Shm → RingM (Option ChannelBatchWriter) → Prop
  | tryWrite {m : Shm} (data : Option Buf) :
      WriterCall cap none m (do
        let _ ← tryWrite cap data
        return none)
  | sendFrame {m : Shm} (payloadLen seq : UInt32) (cb : Callback) :
      WriterCall cap none m (do
        let _ ← sendFrame cap payloadLen seq cb
        return none)
  | notify {l : Option ChannelBatchWriter} {m : Shm} :
      WriterCall cap l m (do
        notifyPeer
        return l)
  | writableBytes {l : Option ChannelBatchWriter} {m : Shm} :
      WriterCall cap l m (do
        let _ ← writableBytes cap
        return l)
  | startBatch {m : Shm} :
      WriterCall cap none m (do
        let b ← startBatch
        return some b)
  | batchWrite {b : ChannelBatchWriter} {m : Shm} (data : Option Buf) :
      WriterCall cap (some b) m (do
        let (_, b) ← b.tryWrite cap data
        return some b)
  | reserve {b : ChannelBatchWriter} {m : Shm} (src : Buf) (commit : Bool) :
      WriterCall cap (some b) m (do
        let (_, batch) ← b.batch.reserveFill cap src
        return some (if commit then { b with batch := batch } else b))
  | sendFrameBatch {b : ChannelBatchWriter} {m : Shm} (payloadLen seq : UInt32) (cb : Callback) :
      WriterCall cap (some b) m (do
        let (_, b) ← sendFrameBatch cap b payloadLen seq cb
        return some b)
  | flush {b : ChannelBatchWriter} {m : Shm} :
      WriterCall cap (some b) m (do
        let (_, b) ← b.flush
        return some b)
  | cancel {b : ChannelBatchWriter} {m : Shm} : WriterCall cap (some b) m (return some b.cancel)
  | done {b : ChannelBatchWriter} {m : Shm} :
      WriterCall cap (some b) m (do
        b.destroy
        return none)

/-- The reading half, with the payload that the last `TryRecv` has handed out. -/
structure ReaderLoc where
  fr : Receiver
  view : Option (Payload × UInt32)

/-- What the caller keeps of a result of `TryRecv`. -/
def viewOf : Recv → Option (Payload × UInt32)
  | .frame payload len => some (payload, len)
  | _ => none

/-- The calls of the reading half; `look` reads the payload handed out, as often as it likes. -/
inductive ReaderCall (cap : Capacity) (bufSize : UInt32) :
    ReaderLoc → Shm → RingM ReaderLoc → Prop
  | tryRecv {l : ReaderLoc} {m : Shm} :
      ReaderCall cap bufSize l m (do
        let (res, fr) ← l.fr.tryRecv cap bufSize
        return ⟨fr, viewOf res⟩)
  | look {l : ReaderLoc} {m : Shm} {payload : Payload} {len : UInt32}
      (h : l.view = some (payload, len)) :
      ReaderCall cap bufSize l m (do
        let _ ← readPayload l.fr len payload
        return l)
  | commit {l : ReaderLoc} {m : Shm} :
      ReaderCall cap bufSize l m (do
        let fr ← l.fr.commit
        return ⟨fr, none⟩)
  | drain {l : ReaderLoc} {m : Shm} :
      ReaderCall cap bufSize l m (do
        let _ ← drainNotify
        return l)

/-- The peer: any program of any accesses, at any time. -/
def AnyCall : Unit → Shm → RingM Unit → Prop := fun _ _ _ => True

/-- One access, or the start of a call, of this process or of the peer. -/
abbrev WriterStep (cap : Capacity) :
    Duo Cmd Cmd.Res (Option ChannelBatchWriter) Unit Shm →
      Duo Cmd Cmd.Res (Option ChannelBatchWriter) Unit Shm → Prop :=
  Step Shm.exec (WriterCall cap) AnyCall

@[inherit_doc WriterStep]
abbrev ReaderStep (cap : Capacity) (bufSize : UInt32) :
    Duo Cmd Cmd.Res ReaderLoc Unit Shm → Duo Cmd Cmd.Res ReaderLoc Unit Shm → Prop :=
  Step Shm.exec (ReaderCall cap bufSize) AnyCall

/-! ### The writing half -/

theorem writerSide : WriterSide cap (WriterAccess cap) := ⟨trivial, trivial, fun _ h _ => h⟩

theorem always_tryWrite (data : Option Buf) {Q : ℤ → Prop} (hQ : ∀ x, Q x) :
    Always (WriterAccess cap) (tryWrite cap data) Q := by
  rcases data with _ | src
  · exact hQ _
  show Always _ (if _ then _ else _) Q
  split_ifs with h
  · exact hQ _
  refine ⟨trivial, fun w => ⟨trivial, fun r => ?_⟩⟩
  show Always _ (if _ then _ else _) Q
  split_ifs
  · exact hQ _
  · rw [not_or, Buf.toNat_len] at h
    exact always_bind.mpr (always_ringCopyIn writerSide w ⟨trivial, fun _ => hQ _⟩ (by omega))

theorem always_batchFlush (b : BatchWriter) {Q : ℤ × BatchWriter → Prop} (hQ : ∀ x, Q x) :
    Always (WriterAccess cap) b.flush Q := by
  unfold BatchWriter.flush
  split_ifs
  · exact hQ _
  · exact ⟨trivial, fun _ => hQ _⟩
  · exact hQ _

theorem always_flush (b : ChannelBatchWriter) {Q : ℤ × ChannelBatchWriter → Prop}
    (hQ : ∀ x, Q x) : Always (WriterAccess cap) b.flush Q := by
  unfold ChannelBatchWriter.flush
  refine always_bind.mpr (always_batchFlush b.batch fun x => ?_)
  show Always _ (if _ then _ else _) Q
  split_ifs
  · exact ⟨trivial, fun _ => hQ _⟩
  · exact hQ _

theorem always_destroy (b : ChannelBatchWriter) {Q : Unit → Prop} (hQ : Q ()) :
    Always (WriterAccess cap) b.destroy Q :=
  always_bind.mpr (always_flush b fun x =>
    always_bind.mpr (always_batchFlush x.2.batch fun _ => hQ))

theorem always_sendFrame (payloadLen seq : UInt32) (cb : Callback) {Q : Outcome → Prop}
    (hQ : ∀ x, Q x) : Always (WriterAccess cap) (sendFrame cap payloadLen seq cb) Q := by
  unfold sendFrame sendFrameFrom
  refine always_bind.mpr (always_writableBytes writerSide fun free => ?_)
  simp only []
  split_ifs
  · exact hQ _
  refine always_bind.mpr (always_startBatch writerSide fun b => ?_)
  refine always_bind.mpr (always_tryWriteBatch writerSide b _ fun x => ?_)
  refine always_bind.mpr (always_callback writerSide (fun y => ?_) cb x.2)
  show Always _ (if _ then _ else _) Q
  split_ifs
  · exact always_bind.mpr (always_destroy _ (hQ _))
  · exact always_bind.mpr (always_destroy _ (hQ _))
  · exact always_bind.mpr (always_flush _ fun z => always_bind.mpr (always_destroy z.2 (hQ _)))

/-- Every call of the writing half, whatever the peer makes it read. -/
theorem writerCall_always {l : Option ChannelBatchWriter} {m : Shm}
    {p : RingM (Option ChannelBatchWriter)} (h : WriterCall cap l m p) :
    Always (WriterAccess cap) p fun _ => True := by
  cases h with
  | tryWrite data => exact always_bind.mpr (always_tryWrite data fun _ => trivial)
  | sendFrame payloadLen seq cb =>
    exact always_bind.mpr (always_sendFrame payloadLen seq cb fun _ => trivial)
  | notify => exact ⟨trivial, fun _ => trivial⟩
  | writableBytes => exact always_bind.mpr (always_writableBytes writerSide fun _ => trivial)
  | startBatch =>
    exact always_bind.mpr (always_startBatch (writerSide : WriterSide cap _) fun _ => trivial)
  | @batchWrite b _ data =>
    exact always_bind.mpr (always_tryWriteBatch writerSide b data fun _ => trivial)
  | @reserve b _ src commit =>
    exact always_bind.mpr (always_reserveFill writerSide b.batch src fun _ => trivial)
  | @sendFrameBatch b _ payloadLen seq cb =>
    exact always_bind.mpr (always_sendFrameBatch writerSide b payloadLen seq cb fun _ => trivial)
  | @flush b _ => exact always_bind.mpr (always_flush b fun _ => trivial)
  | cancel => trivial
  | @done b _ => exact always_bind.mpr (always_destroy b trivial)

/-! ### The reading half -/

theorem readerSide : ReaderSide cap (ReaderAccess cap) := ⟨trivial, trivial, fun _ h => h⟩

/-- What the reading half keeps: the view is in bounds, and the buffer has not been overrun. -/
structure ReaderOk (cap : Capacity) (bufSize : UInt32) (buf : ℕ → UInt8) (l : ReaderLoc) :
    Prop where
  view : ∀ payload len, l.view = some (payload, len) → PayloadOk cap bufSize len payload
  rest : ∀ i, bufSize.toNat ≤ i → l.fr.buf i = buf i

theorem always_commit (fr : Receiver) {Q : Receiver → Prop}
    (hQ : ∀ fr', fr'.buf = fr.buf → fr'.pendingCommit = 0 → Q fr') :
    Always (ReaderAccess cap) fr.commit Q := by
  unfold Receiver.commit
  split_ifs with h
  · exact ⟨trivial, fun _ => ⟨trivial, fun _ => hQ _ rfl rfl⟩⟩
  · refine hQ fr rfl (UInt32.toNat_inj.mp ?_)
    rw [UInt32.lt_iff_toNat_lt] at h
    have : (0 : UInt32).toNat = 0 := rfl
    omega

theorem blit_of_le {buf : ℕ → UInt8} {l : List UInt8} {i : ℕ} (h : l.length ≤ i) :
    blit buf 0 l i = buf i := by
  simp [blit, List.getElem?_eq_none h]

theorem readerCall_always {buf : ℕ → UInt8} {l : ReaderLoc} {m : Shm} {p : RingM ReaderLoc}
    (hl : ReaderOk cap bufSize buf l) (h : ReaderCall cap bufSize l m p) :
    Always (ReaderAccess cap) p (ReaderOk cap bufSize buf) := by
  cases h with
  | tryRecv =>
    rw [tryRecv_eq]
    refine always_bind.mpr (always_bind.mpr (always_commit l.fr fun fr hbuf hz => ?_))
    refine (always_tryRecv_released readerSide bufSize hz).mono fun out hout => ⟨?_, ?_⟩
    · intro payload len hv
      refine hout.payload payload len ?_
      rcases hres : out.1 with ⟨payload', len'⟩ | _ | _ | _ <;> rw [hres] at hv <;> cases hv
      rfl
    · intro i hi
      obtain ⟨body, hbody, he⟩ := hout.buf
      show out.2.buf i = buf i
      rw [he, blit_of_le (hbody.trans hi), hbuf]
      exact hl.rest i hi
  | @look payload len hv =>
    exact always_bind.mpr (always_readPayload readerSide (hl.view payload len hv) l.fr fun _ => hl)
  | commit =>
    refine always_bind.mpr (always_commit l.fr fun fr hbuf _ => ⟨?_, fun i hi => ?_⟩)
    · intro payload len hv
      cases hv
    · show fr.buf i = buf i
      rw [hbuf]
      exact hl.rest i hi
  | drain => exact ⟨trivial, fun _ => hl⟩

/-! ### Against any peer -/

/-- **Nothing a peer does to the shared memory leads this process out of bounds.** Whatever the peer
stores, and whenever: the writing half only loads the positions, writes bytes inside the data area,
stores `write_pos` and rings; the framed reading half only loads the positions, reads bytes inside
the data area, stores `read_pos` and drains; payloads lie in the data area or in `buf_`, and `buf_`
is not written past its end. -/
theorem hostile_peer (cap : Capacity) (bufSize : UInt32) (m : Shm) (fr : Receiver) :
    (∀ s, ReflTransGen (WriterStep cap) ⟨.idle none, .idle (), m⟩ s →
      ∀ l c k, s.fst = .busy l (.op c k) → WriterAccess cap c) ∧
    ∀ s, ReflTransGen (ReaderStep cap bufSize) ⟨.idle ⟨fr, none⟩, .idle (), m⟩ s →
      (∀ l c k, s.fst = .busy l (.op c k) → ReaderAccess cap c) ∧
      ∀ l, s.fst = .idle l → ReaderOk cap bufSize fr.buf l := by
  refine ⟨fun s h l c k hs => ?_, fun s h => ?_⟩
  · have hc := duo_always (P := WriterAccess cap) (I := fun _ => True)
      (fun _ _ _ _ hcall => writerCall_always hcall)
      (s := ⟨.idle none, .idle (), m⟩) trivial h
    rw [hs] at hc
    exact hc.1
  · have h0 : ReaderOk cap bufSize fr.buf ⟨fr, none⟩ :=
      ⟨fun payload len hv => absurd hv (by simp), fun _ _ => rfl⟩
    have hc := duo_always (P := ReaderAccess cap) (I := ReaderOk cap bufSize fr.buf)
      (fun _ _ _ hl hcall => readerCall_always hl hcall)
      (s := ⟨.idle ⟨fr, none⟩, .idle (), m⟩) h0 h
    refine ⟨fun l c k hs => ?_, fun l hs => ?_⟩
    · rw [hs] at hc
      exact hc.1
    · rw [hs] at hc
      exact hc

/-- `TryRecv` when the peer moves `write_pos` between its two loads. -/
theorem hostile_peer_moving : ∃ s, ReflTransGen (ReaderStep .min 16)
    ⟨.idle ⟨.init, none⟩, .idle (), overclaimed⟩ s ∧ s.mem.writePos = 7 ∧
      ∃ l k, s.fst = .busy l (.op .loadWritePos k) ∧ ReaderAccess .min .loadWritePos := by
  have hrun : ReflTransGen (ReaderStep .min 16) ⟨.idle ⟨.init, none⟩, .idle (), overclaimed⟩
      ⟨_, .idle (), { overclaimed with writePos := 7 }⟩ :=
    .head (.call₁ .tryRecv) (.head .op₁ (.head (.call₂ (p := storeWritePos 7) trivial)
      (.head .op₂ .refl)))
  exact ⟨_, hrun, rfl, _, _, rfl,
    ((hostile_peer .min 16 overclaimed .init).2 _ hrun).1 _ _ _ rfl⟩

end ShmIpc.Conn.Confined
