import ShmIpc.Codec.Frame
import ShmIpc.Ring.Reader

/-! # Frames: the receiving half, `frame_reader.hpp`

`TryRecv` releases the frame of the last call, peeks at the ring, and hands out the next frame as a
pointer into the ring, or into its own buffer when the frame crosses the ring end. `RecvPost` says
what a call returns in terms of the stream published when it looked, whatever the writer does
meanwhile (`tryRecv_spec`). -/

namespace ShmIpc.Codec.FrameReader

open ShmIpc.Lib.RelyGuarantee ShmIpc.Lib.Window ShmIpc.Lib.LittleEndian
open ShmIpc.Ring.RingBuf ShmIpc.Ring.History ShmIpc.Ring.Reader
open ShmIpc.Codec.Frame

/-! ### The program -/

/-- The header in eight bytes. -/
def MsgHeader.ofBytes (l : List UInt8) : MsgHeader := ⟨ofLe l, ofLe (l.drop 4)⟩

/-- `FrameReader`. -/
structure Receiver where
  hdr : MsgHeader
  pendingCommit : UInt32
  buf : ℕ → UInt8

/-- A new `FrameReader`. -/
def Receiver.init : Receiver := ⟨⟨0, 0⟩, 0, fun _ => 0⟩

/-- `LastSeq`. -/
def Receiver.lastSeq (fr : Receiver) : UInt32 := fr.hdr.seq

/-- What `*payload` points to. -/
inductive Payload : Type
  | null
  | ring (off : ℕ)
  | buf
  deriving DecidableEq, Repr

/-- What `TryRecv` returns, with its output parameters. -/
inductive Recv : Type
  | frame (payload : Payload) (len : UInt32)
  | again
  | dropped
  | illegal
  deriving DecidableEq, Repr

/-- The return value. -/
def Recv.rc : Recv → ℤ
  | .frame _ _ => 0
  | .again => -1
  | .dropped => -2
  | .illegal => -3

/-- `Commit`. -/
def Receiver.commit (fr : Receiver) : RingM Receiver := do
  if 0 < fr.pendingCommit then
    commitRead fr.pendingCommit
    return { fr with pendingCommit := 0 }
  return fr

/-- `CopyFromSegments`. -/
def copyFromSegments (s : Segs) (offset len : UInt32) : RingM (List UInt8) := do
  let copied :=
    if offset < s.seg1Len then
      if s.seg1Len - offset < len then s.seg1Len - offset else len
    else 0
  let a ← memcpyFrom (s.seg1 + offset.toNat) copied.toNat
  if copied < len then
    let s2Offset := if s.seg1Len < offset then offset - s.seg1Len else 0
    let b ← memcpyPtr s.seg2 s2Offset.toNat (len - copied).toNat
    return a ++ b
  return a

/-- The header in the segments. -/
def readHeader (s : Segs) : RingM MsgHeader :=
  if kMsgHeaderSize ≤ s.seg1Len then do
    let l ← memcpyFrom s.seg1 kMsgHeaderSize.toNat
    return MsgHeader.ofBytes l
  else do
    let a ← memcpyFrom s.seg1 s.seg1Len.toNat
    let b ← memcpyPtr s.seg2 0 (kMsgHeaderSize - s.seg1Len).toNat
    return MsgHeader.ofBytes (a ++ b)

/-- `TryRecv`. -/
def Receiver.tryRecv (cap : Capacity) (bufSize : UInt32) (fr : Receiver) :
    RingM (Recv × Receiver) := do
  let fr ← fr.commit
  match ← peek cap with
  | none => return (.again, fr)
  | some s =>
    let totalAvail := s.seg1Len + s.seg2Len
    if totalAvail < kMsgHeaderSize then
      return (.again, fr)
    let hdr ← readHeader s
    if cap.val - kMsgHeaderSize.toNat < hdr.len.toNat then
      return (.illegal, fr)
    if totalAvail - kMsgHeaderSize < hdr.len then
      return (.again, fr)
    let frameSize := kMsgHeaderSize + hdr.len
    if hdr.len = 0 then
      return (.frame .null 0, { fr with hdr := hdr, pendingCommit := frameSize })
    if kMsgHeaderSize + hdr.len ≤ s.seg1Len then
      return (.frame (.ring (s.seg1 + kMsgHeaderSize.toNat)) hdr.len,
        { fr with hdr := hdr, pendingCommit := frameSize })
    if bufSize < hdr.len then
      return (.dropped, { fr with pendingCommit := frameSize })
    let body ← copyFromSegments s kMsgHeaderSize hdr.len
    return (.frame .buf hdr.len,
      { hdr := hdr, pendingCommit := frameSize, buf := blit fr.buf 0 body })

/-- The bytes a caller sees through the pointer it was given. -/
def readPayload (fr : Receiver) (len : UInt32) : Payload → RingM (List UInt8)
  | .null => return []
  | .ring off => memcpyFrom off len.toNat
  | .buf => return cells fr.buf 0 len.toNat

/-! ### Copies from the segments -/

variable {cap : Capacity} {base : ℕ} {g g' : World} {s : Segs} {n : ℕ} {fr : Receiver}
  {bufSize : UInt32}

theorem toNat_copied (s1 offset len : UInt32) :
    (if offset < s1 then if s1 - offset < len then s1 - offset else len else 0).toNat =
      min (s1.toNat - offset.toNat) len.toNat := by
  split_ifs with h1 h2
  · rw [UInt32.lt_iff_toNat_lt] at h1 h2
    rw [UInt32.toNat_sub_of_le _ _ (by rw [UInt32.le_iff_toNat_le]; omega)] at h2 ⊢
    omega
  · rw [UInt32.lt_iff_toNat_lt] at h1 h2
    rw [UInt32.toNat_sub_of_le _ _ (by rw [UInt32.le_iff_toNat_le]; omega)] at h2
    omega
  · rw [UInt32.lt_iff_toNat_lt] at h1
    show 0 = _
    omega

theorem toNat_sub_or_zero {a b : UInt32} :
    (if b < a then a - b else 0).toNat = a.toNat - b.toNat := by
  split_ifs with h
  · rw [UInt32.lt_iff_toNat_lt] at h
    rw [UInt32.toNat_sub_of_le _ _ (by rw [UInt32.le_iff_toNat_le]; omega)]
  · rw [UInt32.lt_iff_toNat_lt] at h
    show 0 = _
    omega

/-- Two parts of the segments that meet are one part of the stream. -/
theorem drop_take_append {l l' : List UInt8} (h : l <+: l') {p m k : ℕ}
    (hk : p + m + k ≤ l.length) :
    (l.drop p).take m ++ (l'.drop (p + m)).take k = (l.drop p).take (m + k) := by
  rw [drop_take_mono h hk, List.take_add, List.drop_drop]

theorem copyFromSegments_spec {Q : List UInt8 → World → Prop} {offset len : UInt32}
    (h : Peeked cap base g s n) (hlen : offset.toNat + len.toNat ≤ n)
    (hQ : ∀ g', Took cap base g 0 g' →
      Q ((g.published.drop (g.consumed + offset.toNat)).take len.toNat) g') :
    wpR cap base (copyFromSegments s offset len) Q g := by
  have htot := h.total
  have hle := h.le
  have hco := toNat_copied s.seg1Len offset len
  unfold copyFromSegments
  simp only []
  generalize (if offset < s.seg1Len then _ else (0 : UInt32)) = copied at hco ⊢
  rw [wpR, Prog.wp_bind, toNat_sub_or_zero]
  by_cases hin : offset.toNat ≤ s.seg1Len.toNat
  · refine h.memcpySeg1 (by omega) fun g₁ h₁ => ?_
    have hc₁ : g₁.consumed = g.consumed := h₁.consumed
    split_ifs with hlt
    · rw [UInt32.lt_iff_toNat_lt] at hlt
      rw [Prog.wp_bind, UInt32.toNat_sub_of_le _ _ (by rw [UInt32.le_iff_toNat_le]; omega)]
      refine (h.took h₁).memcpySeg2 (by omega) fun g₂ h₂ => ?_
      rw [hc₁, show g.consumed + s.seg1Len.toNat + (offset.toNat - s.seg1Len.toNat) =
        g.consumed + offset.toNat + copied.toNat by omega,
        drop_take_append h₁.published (by omega), show copied.toNat + (len.toNat - copied.toNat) =
        len.toNat by omega]
      exact hQ g₂ (h₁.trans h₂)
    · rw [UInt32.lt_iff_toNat_lt] at hlt
      rw [show copied.toNat = len.toNat by omega]
      exact hQ g₁ h₁
  · -- the part starts in the second segment
    have hz : copied.toNat = 0 := by omega
    rw [hz, memcpyFrom, Prog.pure_def, Prog.wp_ret]
    split_ifs with hlt
    · rw [Prog.wp_bind, UInt32.toNat_sub_of_le _ _ (by rw [UInt32.le_iff_toNat_le]; omega), hz]
      refine h.memcpySeg2 (by omega) fun g₁ h₁ => ?_
      have hQ' := hQ g₁ h₁
      rw [show g.consumed + offset.toNat =
        g.consumed + s.seg1Len.toNat + (offset.toNat - s.seg1Len.toNat) by omega] at hQ'
      exact hQ'
    · rw [UInt32.lt_iff_toNat_lt] at hlt
      have hQ' := hQ g (took_refl h.inv)
      rw [show len.toNat = 0 by omega, List.take_zero] at hQ'
      exact hQ'

/-- The header at offset `p` of a stream. -/
def hdrAt (S : List UInt8) (p : ℕ) : MsgHeader := MsgHeader.ofBytes ((S.drop p).take 8)

theorem readHeader_spec {Q : MsgHeader → World → Prop} (h : Peeked cap base g s n) (hn : 8 ≤ n)
    (hQ : ∀ g', Took cap base g 0 g' → Q (hdrAt g.published g.consumed) g') :
    wpR cap base (readHeader s) Q g := by
  have htot := h.total
  have hle := h.le
  have h8 : kMsgHeaderSize.toNat = 8 := rfl
  unfold readHeader
  split_ifs with hs <;> rw [UInt32.le_iff_toNat_le, h8] at hs
  · rw [wpR, Prog.wp_bind]
    exact h.memcpySeg1 (o := 0) (by omega) hQ
  · rw [wpR, Prog.wp_bind]
    refine h.memcpySeg1 (o := 0) (by omega) fun g₁ h₁ => ?_
    have hc₁ : g₁.consumed = g.consumed := h₁.consumed
    rw [Prog.wp_bind, UInt32.toNat_sub_of_le _ _ (by rw [UInt32.le_iff_toNat_le]; omega), h8]
    refine (h.took h₁).memcpySeg2 (o := 0) (by omega) fun g₂ h₂ => ?_
    rw [hc₁, Nat.add_zero, Nat.add_zero, drop_take_append h₁.published (by omega),
      show s.seg1Len.toNat + (8 - s.seg1Len.toNat) = 8 by omega]
    exact hQ g₂ (h₁.trans h₂)

/-! ### `Commit` and `TryRecv` -/

/-- The reader after releasing its frame. -/
def Receiver.released (fr : Receiver) : Receiver := { fr with pendingCommit := 0 }

/-- Where the reader will look next, as an offset into the stream. -/
def Receiver.next (fr : Receiver) (g : World) : ℕ := g.consumed + fr.pendingCommit.toNat

theorem commit_spec {Q : Receiver → World → Prop} (hi : Inv cap base g)
    (hp : fr.next g ≤ g.published.length)
    (h : ∀ g', Took cap base g fr.pendingCommit.toNat g' → Q fr.released g') :
    wpR cap base fr.commit Q g := by
  unfold Receiver.commit
  split_ifs with hpos
  · rw [wpR, Prog.wp_bind]
    exact commitRead_spec hi hp fun g' ht => h g' ht
  · rw [UInt32.lt_iff_toNat_lt] at hpos
    have hz : fr.pendingCommit.toNat = 0 := by
      have : (0 : UInt32).toNat = 0 := rfl
      omega
    have e : fr.released = fr := by
      have : fr.pendingCommit = 0 := UInt32.toNat_inj.mp hz
      unfold Receiver.released
      rw [← this]
    have hQ := h g (by rw [hz]; exact took_refl hi)
    rw [e] at hQ
    exact hQ

/-- The stream holds a whole legal frame at offset `p`. -/
structure FrameAt (cap : Capacity) (S : List UInt8) (p : ℕ) : Prop where
  header : p + 8 ≤ S.length
  legal : (hdrAt S p).len.toNat ≤ cap.val - 8
  body : p + 8 + (hdrAt S p).len.toNat ≤ S.length

/-- The payload of the frame at offset `p`. -/
def bodyAt (S : List UInt8) (p : ℕ) : List UInt8 := (S.drop (p + 8)).take (hdrAt S p).len.toNat

/-- The frame at offset `p` crosses the ring end. -/
def Crosses (cap : Capacity) (base : ℕ) (S : List UInt8) (p : ℕ) : Prop :=
  cap.val - (base + p) % cap.val < 8 + (hdrAt S p).len.toNat

instance (cap : Capacity) (base : ℕ) (S : List UInt8) (p : ℕ) :
    Decidable (Crosses cap base S p) := by
  unfold Crosses; infer_instance

/-- The reader holding the frame at offset `p`. -/
def Receiver.holding (fr : Receiver) (S : List UInt8) (p : ℕ) : Receiver :=
  { fr with hdr := hdrAt S p, pendingCommit := kMsgHeaderSize + (hdrAt S p).len }

/-- What `TryRecv` returns and leaves, if it saw the stream `S` and looked at its offset `p`. -/
inductive RecvPost (cap : Capacity) (bufSize : UInt32) (base : ℕ) (S : List UInt8) (p : ℕ)
    (fr : Receiver) : Recv → Receiver → Prop
  | short (h : S.length < p + 8) : RecvPost cap bufSize base S p fr .again fr.released
  | illegal (h : p + 8 ≤ S.length) (hl : cap.val - 8 < (hdrAt S p).len.toNat) :
      RecvPost cap bufSize base S p fr .illegal fr.released
  | cut (h : p + 8 ≤ S.length) (hl : (hdrAt S p).len.toNat ≤ cap.val - 8)
      (hb : S.length < p + 8 + (hdrAt S p).len.toNat) :
      RecvPost cap bufSize base S p fr .again fr.released
  | dropped (h : FrameAt cap S p) (hbuf : bufSize < (hdrAt S p).len)
      (hend : Crosses cap base S p) :
      RecvPost cap bufSize base S p fr .dropped
        { fr with pendingCommit := kMsgHeaderSize + (hdrAt S p).len }
  | empty (h : FrameAt cap S p) (hz : (hdrAt S p).len = 0) :
      RecvPost cap bufSize base S p fr (.frame .null 0) (fr.holding S p)
  | ring (h : FrameAt cap S p) (hz : (hdrAt S p).len ≠ 0) (hend : ¬ Crosses cap base S p) :
      RecvPost cap bufSize base S p fr (.frame (.ring ((base + p) % cap.val + 8)) (hdrAt S p).len)
        (fr.holding S p)
  | buf (h : FrameAt cap S p) (hz : (hdrAt S p).len ≠ 0) (hbuf : ¬ bufSize < (hdrAt S p).len)
      (hend : Crosses cap base S p) :
      RecvPost cap bufSize base S p fr (.frame .buf (hdrAt S p).len)
        { fr.holding S p with buf := blit fr.buf 0 (bodyAt S p) }

theorem hdrAt_mono {S S' : List UInt8} (h : S <+: S') {p : ℕ} (hp : p + 8 ≤ S.length) :
    hdrAt S' p = hdrAt S p := by
  unfold hdrAt
  rw [drop_take_mono h hp]

theorem toNat_frameLen {len : UInt32} (h : len.toNat ≤ cap.val - 8) :
    (kMsgHeaderSize + len).toNat = 8 + len.toNat := by
  have := cap.lt
  rw [UInt32.toNat_add]
  show (8 + len.toNat) % 2 ^ 32 = _
  omega

/-- After a call the frame it returned is whole, and still in the ring. -/
theorem next_le_of_recvPost {S : List UInt8} {p : ℕ} {res : Recv} {fr' : Receiver}
    (h : RecvPost cap bufSize base S p fr res fr') (hp : p ≤ S.length) :
    p + fr'.pendingCommit.toNat ≤ S.length := by
  have hframe : FrameAt cap S p → p + (kMsgHeaderSize + (hdrAt S p).len).toNat ≤ S.length := by
    intro hf
    have h1 := hf.body
    rw [toNat_frameLen hf.legal]
    omega
  cases h with
  | short h | illegal h hl | cut h hl hb => exact hp
  | dropped hf hbuf hend => exact hframe hf
  | empty hf hz => exact hframe hf
  | ring hf hz hend => exact hframe hf
  | buf hf hz hbuf hend => exact hframe hf

/-- **One `TryRecv`.** It releases the frame of the last call and acts on the stream `S` that was
published at one moment during the call. -/
theorem tryRecv_spec {Q : Recv × Receiver → World → Prop} (hi : Inv cap base g)
    (hp : fr.next g ≤ g.published.length)
    (h : ∀ S res fr' g', g.published <+: S → S <+: g'.published →
      Took cap base g fr.pendingCommit.toNat g' →
      RecvPost cap bufSize base S (fr.next g) fr res fr' → Q (res, fr') g') :
    wpR cap base (fr.tryRecv cap bufSize) Q g := by
  have hge := cap.ge
  have hcap := cap.lt
  have h8 : kMsgHeaderSize.toNat = 8 := rfl
  unfold Receiver.tryRecv
  rw [wpR, Prog.wp_bind]
  refine commit_spec hi hp fun g₁ h₁ => ?_
  rw [Prog.wp_bind]
  have hc₁ : g₁.consumed = fr.next g := h₁.consumed
  refine peek_spec h₁.inv (fun s n g₂ hpos hle hn ht hpk => ?_) fun g₂ ht hn => ?_
  · have h12 := h₁.trans ht
    rw [Nat.add_zero] at h12
    have hc₂ : g₂.consumed = fr.next g := h12.consumed
    have hlen : g₂.published.length = fr.next g + n := by rw [hn, hc₁]
    have hncap := hpk.n_le
    have htot : (s.seg1Len + s.seg2Len).toNat = n := by
      have := hpk.total
      rw [UInt32.toNat_add]
      omega
    simp only []
    split_ifs with hshort
    · rw [UInt32.lt_iff_toNat_lt, htot, h8] at hshort
      exact h g₂.published _ _ g₂ h12.published List.prefix_rfl h12 (.short (by omega))
    rw [UInt32.lt_iff_toNat_lt, htot, h8] at hshort
    rw [Prog.wp_bind]
    refine readHeader_spec hpk (by omega) fun g₃ h₃ => ?_
    rw [hc₂]
    generalize hhdr : hdrAt g₂.published (fr.next g) = hdr
    have h13 := h12.trans h₃
    rw [Nat.add_zero] at h13
    have hh : fr.next g + 8 ≤ g₂.published.length := by omega
    split_ifs with hill hcut hz hseg hbuf
    · rw [h8, ← hhdr] at hill
      exact h g₂.published _ _ g₃ h12.published h₃.published h13 (.illegal hh hill)
    · rw [h8, ← hhdr] at hill
      rw [UInt32.lt_iff_toNat_lt, UInt32.toNat_sub_of_le _ _
        (by rw [UInt32.le_iff_toNat_le, htot, h8]; omega), htot, h8, ← hhdr] at hcut
      exact h g₂.published _ _ g₃ h12.published h₃.published h13
        (.cut hh (by omega) (by omega))
    all_goals
      rw [h8] at hill
      have hlegal : hdr.len.toNat ≤ cap.val - 8 := by omega
      have hsz := toNat_frameLen hlegal
      rw [UInt32.lt_iff_toNat_lt, UInt32.toNat_sub_of_le _ _
        (by rw [UInt32.le_iff_toNat_le, htot, h8]; omega), htot, h8] at hcut
      have hfr : FrameAt cap g₂.published (fr.next g) := by
        refine ⟨hh, ?_, ?_⟩ <;> rw [hhdr] <;> omega
      have hcross : kMsgHeaderSize + hdr.len ≤ s.seg1Len ↔
          ¬ Crosses cap base g₂.published (fr.next g) := by
        have h1 := hpk.seg1Len
        rw [hpk.seg1, hc₂] at h1
        unfold Crosses
        rw [UInt32.le_iff_toNat_le, hsz, h1, hhdr]
        omega
    · have hP : RecvPost cap bufSize base _ _ fr _ _ := .empty hfr (by rw [hhdr]; exact hz)
      unfold Receiver.holding at hP
      rw [hhdr] at hP
      exact h g₂.published _ _ g₃ h12.published h₃.published h13 hP
    · have hP : RecvPost cap bufSize base _ _ fr _ _ :=
        .ring hfr (by rw [hhdr]; exact hz) (hcross.mp hseg)
      unfold Receiver.holding at hP
      rw [hhdr, ← hc₂, ← hpk.seg1, hc₂] at hP
      exact h g₂.published _ _ g₃ h12.published h₃.published h13 hP
    · have hP : RecvPost cap bufSize base _ _ fr _ _ :=
        .dropped hfr (by rw [hhdr]; exact hbuf) (by_contra fun hc => hseg (hcross.mpr hc))
      rw [hhdr] at hP
      exact h g₂.published _ _ g₃ h12.published h₃.published h13 hP
    · rw [Prog.wp_bind]
      have hc₃ : g₃.consumed = g₂.consumed := h₃.consumed
      refine copyFromSegments_spec (hpk.took h₃) (by rw [h8]; omega) fun g₄ h₄ => ?_
      have h14 := h13.trans h₄
      rw [Nat.add_zero] at h14
      have hP : RecvPost cap bufSize base _ _ fr _ _ :=
        .buf hfr (by rw [hhdr]; exact hz) (by rw [hhdr]; exact hbuf)
          (by_contra fun hc => hseg (hcross.mpr hc))
      unfold Receiver.holding bodyAt at hP
      rw [hhdr] at hP
      rw [hc₃, hc₂, h8, drop_take_mono h₃.published (by omega)]
      exact h g₂.published _ _ g₄ h12.published (h₃.published.trans h₄.published) h14 hP
  · have h12 := h₁.trans ht
    rw [Nat.add_zero] at h12
    exact h g₂.published _ _ g₂ h12.published List.prefix_rfl h12 (.short (by omega))

/-! ### The payload -/

theorem cells_blit {d : ℕ → UInt8} {l : List UInt8} : cells (blit d 0 l) 0 l.length = l := by
  refine List.ext_getElem (by simp) fun i h1 h2 => ?_
  simp [cells, blit, h2]

theorem FrameAt.length_bodyAt {S : List UInt8} {p : ℕ} (h : FrameAt cap S p) :
    (bodyAt S p).length = (hdrAt S p).len.toNat := by
  have := h.body
  unfold bodyAt
  rw [List.length_take, List.length_drop]
  omega

/-- As long as the frame is not released, its payload is seen through the pointer. -/
theorem readPayload_spec {Q : List UInt8 → World → Prop} {S : List UInt8} {p : ℕ}
    {payload : Payload} {len : UInt32} {fr' : Receiver} (hi : Inv cap base g)
    (hS : S <+: g.published) (hc : g.consumed ≤ p)
    (hpost : RecvPost cap bufSize base S p fr (.frame payload len) fr')
    (h : ∀ g', Took cap base g 0 g' → Q (bodyAt S p) g') :
    wpR cap base (readPayload fr' len payload) Q g := by
  have hlen := hS.length_le
  cases hpost with
  | empty hf hz =>
    have hQ := h g (took_refl hi)
    unfold bodyAt at hQ
    rw [hz, show (0 : UInt32).toNat = 0 from rfl, List.take_zero] at hQ
    exact hQ
  | ring hf hz hend =>
    have hbody := hf.body
    unfold Crosses at hend
    have hlt := Nat.mod_lt (base + p) cap.pos
    refine memcpyFrom_spec (p := p + 8) hi (by omega) (by omega) (fun i hi => ?_) fun g' ht => ?_
    · rw [show base + (p + 8) + i = base + p + (8 + i) by omega, add_mod_of_lt (by omega)]
      omega
    · rw [drop_take_mono hS hbody]
      exact h g' ht
  | buf hf hz hbuf hend =>
    have hQ := h g (took_refl hi)
    have hcells := cells_blit (d := fr.buf) (l := bodyAt S p)
    rw [hf.length_bodyAt] at hcells
    rw [← hcells] at hQ
    exact hQ

end ShmIpc.Codec.FrameReader
