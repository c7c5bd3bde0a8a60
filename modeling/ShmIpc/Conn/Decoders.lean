import ShmIpc.Codec.Decode
import ShmIpc.Conn.Hostile

/-! # All decoders accept the same frames

A frame can be decoded from a buffer, by `Decode` and by the `Decode` of a codec, and from the ring,
by `FrameReader::TryRecv`. `decoders_agree` says that they accept the same bytes: the codecs what
`Decode` and their own `DecodePayload` accept together, and `TryRecv` what `Decode` accepts of the
readable bytes in a linear copy, the frames apart that its fallback buffer cannot hold. None of them
looks behind the last byte: the buffer decoders stay inside the buffer, and `TryRecv` touches only
the offsets of readable bytes (`Window`). -/

namespace ShmIpc.Conn.Decoders

open ShmIpc.Lib.RelyGuarantee ShmIpc.Lib.Window
open ShmIpc.Ring.RingBuf ShmIpc.Ring.History ShmIpc.Ring.Reader ShmIpc.Ring.Batch
open ShmIpc.Codec.Frame ShmIpc.Codec.FrameReader ShmIpc.Codec.Deframe
open ShmIpc.Codec.Decode
open ShmIpc.Codec.Typed (Proto)
open ShmIpc.Conn.Hostile

variable {cap : Capacity} {m : Shm} {fr : Receiver} {bufSize : UInt32}

/-! ### What `TryRecv` touches -/

/-- The offsets of `n` bytes from position `pos` on. -/
def Window (cap : Capacity) (pos : UInt64) (n : ℕ) (off : ℕ) : Prop :=
  ∃ i < n, off = ringPhys cap (pos + UInt64.ofNat i)

/-- The ring after the pending frame of `fr` is released. -/
def released (fr : Receiver) (m : Shm) : Shm :=
  { m with readPos := m.readPos + fr.pendingCommit.toUInt64 }

theorem ringPhys_add (cap : Capacity) (pos : UInt64) (i : ℕ) :
    ringPhys cap (pos + UInt64.ofNat i) = (pos.toNat + i) % cap.val := by
  have e : pos + UInt64.ofNat i = UInt64.ofNat (pos.toNat + i) := by
    rw [UInt64.ofNat_add, UInt64.ofNat_toNat]
  rw [e, ringPhys_ofNat]

/-- The segments of at most `Capacity` bytes are the readable ones. -/
theorem reach_window (h : avail m ≤ cap.val) {n : ℕ}
    (hn : n ≤ ((segsOf cap m.readPos m.writePos).seg1Len +
      (segsOf cap m.readPos m.writePos).seg2Len).toNat) :
    Reach (Window cap m.readPos (avail m)) (segsOf cap m.readPos m.writePos) n := by
  have hP := ringPhys_lt cap m.readPos
  have hc := cap.lt
  have hphys := ringPhys_eq cap m.readPos
  have hcontig : contig cap m = cap.val - ringPhys cap m.readPos := rfl
  obtain ⟨h1, hseg⟩ := segsOf_cases cap m
  rw [UInt32.toNat_add] at hn
  have hfirst : ∀ i, i < contig cap m → i < avail m →
      Window cap m.readPos (avail m) ((segsOf cap m.readPos m.writePos).seg1 + i) := by
    intro i hi hi'
    refine ⟨i, hi', ?_⟩
    rw [h1, ringPhys_add, add_mod_of_lt (by omega), hphys]
  rcases hseg with ⟨hle, h2, h3, h4⟩ | ⟨hlt, h2, h3, h4⟩
  · exact ⟨fun i hi _ => hfirst i (by omega) (by omega), fun hlt => by omega⟩
  · rw [Nat.mod_eq_of_lt (by omega)] at h4
    refine ⟨fun i hi _ => hfirst i (by omega) (by omega), fun _ => ⟨0, h3, fun i hi => ?_⟩⟩
    refine ⟨contig cap m + i, by omega, ?_⟩
    -- the ring end lies `contig` bytes behind the read position
    have hdiv := Nat.div_add_mod m.readPos.toNat cap.val
    have hsum : m.readPos.toNat + (contig cap m + i) =
        cap.val * (m.readPos.toNat / cap.val + 1) + i := by
      rw [Nat.mul_add, Nat.mul_one]
      omega
    rw [ringPhys_add, hsum, Nat.mul_add_mod, Nat.mod_eq_of_lt (by omega), Nat.zero_add]

/-- A call first releases the pending frame, and goes on as a reader with nothing pending. -/
theorem within_released {P : ℕ → Prop} {Q : Recv × Receiver → Shm → Prop}
    (h : within P (fr.released.tryRecv cap bufSize) Q (released fr m)) :
    within P (fr.tryRecv cap bufSize) Q m := by
  unfold Receiver.tryRecv at h ⊢
  have h' := Prog.safe_bind.mp h
  refine Prog.safe_bind.mpr ?_
  have hz : fr.released.commit = Prog.ret fr.released := by
    unfold Receiver.commit
    exact if_neg (UInt32.lt_irrefl 0)
  rw [hz, Prog.safe_ret] at h'
  unfold Receiver.commit
  split_ifs with hpos
  · refine Prog.safe_bind.mpr ⟨?_, Prog.safe_ret.mpr h'⟩
    intro c hc
    have hissued : (commitRead fr.pendingCommit).issued Shm.exec m =
        [.loadReadPos, .storeReadPos (m.readPos + fr.pendingCommit.toUInt64)] := rfl
    rw [hissued, List.mem_cons, List.mem_singleton] at hc
    rcases hc with rfl | rfl
    · trivial
    · trivial
  · have h0 : fr.pendingCommit = 0 := by
      rw [UInt32.not_lt, UInt32.le_iff_toNat_le] at hpos
      exact UInt32.toNat_inj.mp (Nat.le_zero.mp hpos)
    have hfr : fr.released = fr := by
      unfold Receiver.released
      rw [← h0]
    have hm : released fr m = m := by
      unfold released
      rw [h0]
      show { m with readPos := m.readPos + 0 } = m
      rw [UInt64.add_zero]
    rw [hfr, hm] at h'
    exact Prog.safe_ret.mpr h'

/-- The bytes of the ring that a call with the caller's look at the payload touches. -/
theorem within_recvCall (hm : avail m ≤ cap.val) (hp : fr.pendingCommit.toNat ≤ avail m) :
    ∀ c ∈ (recvCall cap bufSize fr).issued Shm.exec m,
      Within (Window cap (released fr m).readPos (avail m - fr.pendingCommit.toNat)) c := by
  have havail : avail (released fr m) = avail m - fr.pendingCommit.toNat := by
    have h32 := UInt32.toNat_toUInt64 fr.pendingCommit
    have e : m.writePos - (m.readPos + fr.pendingCommit.toUInt64) =
        m.writePos - m.readPos - fr.pendingCommit.toUInt64 := by
      rw [UInt64.sub_eq_iff_eq_add, UInt64.add_comm m.readPos, ← UInt64.add_assoc,
        UInt64.sub_add_cancel, UInt64.sub_add_cancel]
    show (m.writePos - (m.readPos + fr.pendingCommit.toUInt64)).toNat = _
    rw [e, UInt64.toNat_sub_of_le _ _ (by rw [UInt64.le_iff_toNat_le, h32]; exact hp), h32]
    rfl
  have hm' : avail (released fr m) ≤ cap.val := by omega
  rw [← havail]
  have h : within (Window cap (released fr m).readPos (avail (released fr m)))
      (recvCall cap bufSize fr) (fun _ _ => True) m := by
    unfold recvCall
    refine Prog.safe_bind.mpr (within_released ?_)
    have htry : within (Window cap (released fr m).readPos (avail (released fr m)))
        (fr.released.tryRecv cap bufSize) _ (released fr m) :=
      within_tryRecv rfl fun n _ hn => reach_window hm' hn
    refine ⟨htry.1, ?_⟩
    obtain ⟨-, hring⟩ := htry.2
    rcases htr : (fr.released.tryRecv cap bufSize).run Shm.exec (released fr m) with
      ⟨⟨res, fr'⟩, m'⟩
    rw [htr] at hring
    cases res with
    | frame payload len =>
      refine Prog.safe_bind.mpr ?_
      cases payload with
      | null => exact Prog.safe_ret.mpr (Prog.safe_ret.mpr trivial)
      | buf => exact Prog.safe_ret.mpr (Prog.safe_ret.mpr trivial)
      | ring off =>
        exact within_memcpyFrom (hring off len rfl) (Prog.safe_ret.mpr trivial)
    | again => exact Prog.safe_ret.mpr trivial
    | dropped => exact Prog.safe_ret.mpr trivial
    | illegal => exact Prog.safe_ret.mpr trivial
  exact h.1

/-! ### What `TryRecv` returns -/

variable {base : ℕ} {g : World}

/-- One call while the writer rests. -/
theorem recvCall_run (hi : Inv cap base g) (hp : fr.next g ≤ g.published.length) :
    ∃ res fr', ((recvCall cap bufSize fr).run (World.exec cap) g).1 =
        (⟨res.rc, payloadOf g.published (fr.next g) res, fr'.lastSeq⟩, fr') ∧
      RecvPost cap bufSize base g.published (fr.next g) fr res fr' := by
  have hwp : wpR cap base (recvCall cap bufSize fr) (fun p g' => ∃ S res fr',
      g.published <+: S ∧ S <+: g'.published ∧
      p = (⟨res.rc, payloadOf S (fr.next g) res, fr'.lastSeq⟩, fr') ∧
      RecvPost cap bufSize base S (fr.next g) fr res fr') g :=
    recvCall_spec hi hp fun S res fr' g' h1 h2 _ hpost => ⟨S, res, fr', h1, h2, rfl, hpost⟩
  have hstep := Prog.wp_run wStep_refl rStep_refl (fun _ _ _ => RStep.trans) hwp
  have hexec : (recvCall cap bufSize fr).Exec (World.exec cap) (WStep cap base) g _ _ :=
    Prog.exec_run _ wStep_refl _ g
  obtain ⟨S, res, fr', h1, h2, hres, hpost⟩ := Prog.wp_exec hexec hwp
  rw [hstep.published] at h2
  have hS : S = g.published := h2.eq_of_length_le h1.length_le
  rw [hS] at hres hpost
  exact ⟨res, fr', hres, hpost⟩

/-- The header at an offset is the header of the bytes behind it. -/
theorem hdrAt_drop (S : List UInt8) (p : ℕ) : hdrAt (S.drop p) 0 = hdrAt S p := rfl

/-- The payload that `Decode` hands out of the bytes behind an offset. -/
theorem bytes_bodyAt (S : List UInt8) (p : ℕ) :
    Span.bytes ⟨8, (hdrAt S p).len⟩ (S.drop p) = bodyAt S p := by
  unfold Span.bytes bodyAt
  rw [List.drop_drop]

/-- A call against `Decode` of the bytes from the frame on. -/
theorem decode_of_recvPost {S : List UInt8} {p : ℕ} {res : Recv} {fr' : Receiver} {b : Buf}
    (hb : b.bytes = S.drop p) (hlen : b.bytes.length ≤ cap.val)
    (h : RecvPost cap bufSize base S p fr res fr') :
    (decode b.bytes b.len = some none ∧ res.rc ≠ 0 ∧ res.rc ≠ -2) ∨
      (decode b.bytes b.len = some (some (⟨8, (hdrAt S p).len⟩, (hdrAt S p).seq)) ∧
        ((res.rc = -2 ∧ bufSize < (hdrAt S p).len) ∨
          (res.rc = 0 ∧ payloadOf S p res = bodyAt S p ∧ fr'.lastSeq = (hdrAt S p).seq))) := by
  have hl := b.toNat_len
  have hn : b.bytes.length = S.length - p := by rw [hb, List.length_drop]
  have hdec : decode b.bytes b.len = _ := decode_eq (by omega)
  rw [hb, hdrAt_drop] at hdec
  rw [hb]
  have hframe : FrameAt cap S p →
      decode (S.drop p) b.len = some (some (⟨8, (hdrAt S p).len⟩, (hdrAt S p).seq)) := by
    intro hf
    have h1 := hf.header
    have h2 := hf.body
    rw [hdec, if_pos (by omega)]
  cases h with
  | short h => exact Or.inl ⟨by rw [hdec, if_neg (by omega)], by simp [Recv.rc], by simp [Recv.rc]⟩
  | illegal h hill =>
    exact Or.inl ⟨by rw [hdec, if_neg (by omega)], by simp [Recv.rc], by simp [Recv.rc]⟩
  | cut h hl hcut =>
    exact Or.inl ⟨by rw [hdec, if_neg (by omega)], by simp [Recv.rc], by simp [Recv.rc]⟩
  | dropped hf hbuf hend => exact Or.inr ⟨hframe hf, Or.inl ⟨rfl, hbuf⟩⟩
  | empty hf hz => exact Or.inr ⟨hframe hf, Or.inr ⟨rfl, rfl, rfl⟩⟩
  | ring hf hz hend => exact Or.inr ⟨hframe hf, Or.inr ⟨rfl, rfl, rfl⟩⟩
  | buf hf hz hbuf hend => exact Or.inr ⟨hframe hf, Or.inr ⟨rfl, rfl, rfl⟩⟩

/-! ### The decoders -/

/-- `TryRecv`, with its caller's look at the payload, on a ring where it finds the bytes `b`, does
what `Decode` does on them, and touches no other byte of the ring. -/
structure RecvAgrees (cap : Capacity) (bufSize : UInt32) (m : Shm) (fr : Receiver) (b : Buf) :
    Prop where
  iff : ((recvCall cap bufSize fr).run Shm.exec m).1.1.rc ≠ -2 → ∀ payload seq,
    ((recvCall cap bufSize fr).run Shm.exec m).1.1 = ⟨0, payload, seq⟩ ↔
      ∃ p, decode b.bytes b.len = some (some (p, seq)) ∧ p.bytes b.bytes = payload
  /-- the exception: a frame whose payload is larger than the fallback buffer -/
  dropped : ((recvCall cap bufSize fr).run Shm.exec m).1.1.rc = -2 →
    ∃ p seq, decode b.bytes b.len = some (some (p, seq)) ∧ bufSize < p.len
  touches : ∀ c ∈ (recvCall cap bufSize fr).issued Shm.exec m,
    Within (Window cap (released fr m).readPos b.bytes.length) c

theorem recvCall_agrees (hm : avail m ≤ cap.val) (hp : fr.pendingCommit.toNat ≤ avail m) {b : Buf}
    (hb : b.bytes = (readable cap m).drop fr.pendingCommit.toNat) :
    RecvAgrees cap bufSize m fr b := by
  have hlen : b.bytes.length = avail m - fr.pendingCommit.toNat := by
    rw [hb, List.length_drop, length_readable]
    rfl
  have hi := inv_worldOf hm
  have hnext : fr.next (worldOf cap m) = fr.pendingCommit.toNat := Nat.zero_add _
  have hpub : (worldOf cap m).published = readable cap m := rfl
  have hle : fr.next (worldOf cap m) ≤ (worldOf cap m).published.length := by
    rw [hnext, hpub, length_readable]
    exact hp
  obtain ⟨res, fr', hrun, hpost⟩ :
      ∃ res fr', ((recvCall cap bufSize fr).run (World.exec cap) (worldOf cap m)).1 = _ ∧
        RecvPost cap bufSize _ _ _ fr res fr' := recvCall_run hi hle
  have hshm := congrArg Prod.fst (run_shm cap (recvCall cap bufSize fr) (worldOf cap m))
  rw [show (worldOf cap m).shm = m from rfl, hrun] at hshm
  rw [hnext, hpub] at hpost hshm
  have hcase := decode_of_recvPost hb (by omega) hpost
  refine ⟨?_, ?_, ?_⟩
  · rw [hshm]
    intro hne payload seq
    rcases hcase with ⟨hd, h0, -⟩ | ⟨hd, ⟨h2, -⟩ | ⟨h0, hpay, hseq⟩⟩
    · constructor
      · intro he
        exact absurd (congrArg Result.rc he) h0
      · rintro ⟨p, hd', -⟩
        rw [hd] at hd'
        cases hd'
    · exact absurd h2 hne
    · rw [hb] at hd ⊢
      rw [hd]
      constructor
      · intro he
        have hpay' := congrArg Result.payload he
        have hseq' : fr'.lastSeq = seq := congrArg Result.lastSeq he
        refine ⟨_, ?_, (bytes_bodyAt _ _).trans (hpay.symm.trans hpay')⟩
        rw [← hseq', hseq]
      · rintro ⟨p, hd', hp'⟩
        cases hd'
        rw [bytes_bodyAt] at hp'
        simp only [h0, hpay, hseq, hp']
  · rw [hshm]
    intro he
    have he' : res.rc = -2 := he
    rcases hcase with ⟨-, -, h2⟩ | ⟨hd, ⟨-, hbuf⟩ | ⟨h0, -, -⟩⟩
    · exact absurd he' h2
    · exact ⟨_, _, hd, hbuf⟩
    · omega
  · rw [hlen]
    exact within_recvCall hm hp

/-- **All decoders accept the same frames**, for every byte string: `PodCodec<T>::Decode` and
`ProtoCodec<T>::Decode` for every type, and `TryRecv` for every ring that holds just these bytes
behind the reader's pending frame. No decoder leaves the byte string. -/
theorem decoders_agree (b : Buf) :
    (∃ r, decode b.bytes b.len = some r) ∧
    (∀ tag, Agrees b (podDecode tag b.bytes b.len) (podDecodePayload tag b.bytes)
      (Codec.Typed.podDecodePayload tag)) ∧
    (∀ (M : Type) (P : Proto M), Agrees b (protoDecode P b.bytes b.len)
      (protoDecodePayload P b.bytes) (Codec.Typed.protoDecodePayload P)) ∧
    ∀ (cap : Capacity) (bufSize : UInt32) (m : Shm) (fr : Receiver), avail m ≤ cap.val →
      fr.pendingCommit.toNat ≤ avail m →
      b.bytes = (readable cap m).drop fr.pendingCommit.toNat → RecvAgrees cap bufSize m fr b := by
  refine ⟨?_, fun tag => podDecode_agrees tag b, fun M P => protoDecode_agrees P b,
    fun cap bufSize m fr hm hp hb => recvCall_agrees hm hp hb⟩
  have hlen := b.toNat_len
  rw [decode_eq (by omega)]
  exact ⟨_, rfl⟩

/-- A ring of 1024 bytes with the frame of one byte at its end, crossing it. -/
def crossing : Shm where
  writePos := 1029
  readPos := 1020
  data off := if off = 1020 then 1 else if off = 0 then 7 else if off = 4 then 9 else 0
  efd := 0

/-- `TryRecv` and `Decode` of the nine bytes. -/
theorem decoders_agree_crossing :
    avail crossing ≤ Capacity.min.val ∧
    RecvAgrees .min 16 crossing .init ⟨[1, 0, 0, 0, 7, 0, 0, 0, 9], by decide⟩ ∧
    ((recvCall .min 16 .init).run Shm.exec crossing).1.1 = ⟨0, [9], 7⟩ :=
  ⟨by decide, (decoders_agree ⟨[1, 0, 0, 0, 7, 0, 0, 0, 9], by decide⟩).2.2.2 .min 16 crossing .init
    (by decide) (by decide) (by decide), by decide⟩

end ShmIpc.Conn.Decoders
