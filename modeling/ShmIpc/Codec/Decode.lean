import ShmIpc.Codec.Encode

/-! # Decoding from a buffer: `Decode`, `DecodeHeader`, `DecodePayload`

The decoders take a pointer and a length, and hand out pointers into the same buffer (`Span`). Each
of them reads the length fields itself and nothing but its own checks keeps it inside the buffer
(`readAt`; `none` is a read outside the buffer).

`encode_decode_iff` says when the encoder and the decoder of a frame are inverse to each other. The
decoder compares `hdr.len` with `buf_len - 8`; the encoder compares `buf_size` with
`8 + payload_len`, a sum of 32 bits that a payload of nearly 4 GiB wraps around. -/

namespace ShmIpc.Codec.Decode

open ShmIpc.Lib.LittleEndian
open ShmIpc.Ring.RingBuf
open ShmIpc.Codec.Frame ShmIpc.Codec.FrameReader ShmIpc.Codec.Encode
open ShmIpc.Codec.Typed (Proto kTagSize kTypeNameLenSize)

/-! ### The program -/

/-- A pointer into a buffer, as an offset, with a length. -/
structure Span where
  off : ℕ
  len : UInt32
  deriving DecidableEq, Repr

/-- The bytes it stands for. -/
def Span.bytes (s : Span) (buf : List UInt8) : List UInt8 := (buf.drop s.off).take s.len.toNat

/-- `memcpy` of `n` bytes from offset `off` of a buffer; `none` if it leaves the buffer. -/
def readAt (buf : List UInt8) (off n : ℕ) : Option (List UInt8) :=
  if off + n ≤ buf.length then some ((buf.drop off).take n) else none

/-- `Decode`: the payload and `*seq`; the inner `none` is `false`. -/
def decode (buf : List UInt8) (bufLen : UInt32) : Option (Option (Span × UInt32)) := do
  if bufLen < kMsgHeaderSize then
    return none
  let hdr := MsgHeader.ofBytes (← readAt buf 0 kMsgHeaderSize.toNat)
  if bufLen - kMsgHeaderSize < hdr.len then
    return none
  return some (⟨kMsgHeaderSize.toNat, hdr.len⟩, hdr.seq)

/-- `CheckTag`. -/
def checkTag (tag : UInt32) (buf : List UInt8) (payload : Span) : Option Bool := do
  if payload.len < UInt32.ofNat kTagSize then
    return false
  return ofLe (← readAt buf payload.off kTagSize) = tag

/-- `PodCodec<T>::DecodePayload`. -/
def podDecodePayload (tag : UInt32) (buf : List UInt8) (payload : Span) :
    Option (Option Span) := do
  if ← checkTag tag buf payload then
    return some ⟨payload.off + kTagSize, payload.len - UInt32.ofNat kTagSize⟩
  return none

/-- `PodCodec<T>::Decode`. -/
def podDecode (tag : UInt32) (buf : List UInt8) (bufLen : UInt32) :
    Option (Option (Span × UInt32)) := do
  match ← decode buf bufLen with
  | none => return none
  | some (raw, seq) =>
    if ← checkTag tag buf raw then
      return some (⟨raw.off + kTagSize, raw.len - UInt32.ofNat kTagSize⟩, seq)
    return none

variable {M : Type}

/-- `TypeNameMatches`. -/
def typeNameMatches (P : Proto M) (buf : List UInt8) (typeName : Span) : Option Bool := do
  if typeName.len.toNat ≠ P.typeName.length then
    return false
  return (← readAt buf typeName.off typeName.len.toNat) = P.typeName

/-- `ProtoCodec<T>::DecodePayload`. -/
def protoDecodePayload (P : Proto M) (buf : List UInt8) (payload : Span) :
    Option (Option Span) := do
  if payload.len < UInt32.ofNat kTypeNameLenSize then
    return none
  let nameLen := ofLe16 (← readAt buf payload.off kTypeNameLenSize)
  let prefixLen := UInt32.ofNat kTypeNameLenSize + nameLen.toUInt32
  if payload.len < prefixLen then
    return none
  if ← typeNameMatches P buf ⟨payload.off + kTypeNameLenSize, nameLen.toUInt32⟩ then
    return some ⟨payload.off + prefixLen.toNat, payload.len - prefixLen⟩
  return none

/-- What `DecodeHeader` hands out. -/
structure ProtoHeader where
  typeName : Span
  payload : Span
  seq : UInt32

/-- `ProtoCodec<T>::DecodeHeader`. -/
def decodeHeader (buf : List UInt8) (bufLen : UInt32) : Option (Option ProtoHeader) := do
  if bufLen < kMsgHeaderSize + UInt32.ofNat kTypeNameLenSize then
    return none
  let hdr := MsgHeader.ofBytes (← readAt buf 0 kMsgHeaderSize.toNat)
  if hdr.len < UInt32.ofNat kTypeNameLenSize then
    return none
  if bufLen - kMsgHeaderSize < hdr.len then
    return none
  let nameLen := ofLe16 (← readAt buf kMsgHeaderSize.toNat kTypeNameLenSize)
  if hdr.len < UInt32.ofNat kTypeNameLenSize + nameLen.toUInt32 then
    return none
  return some {
    typeName := ⟨kMsgHeaderSize.toNat + kTypeNameLenSize, nameLen.toUInt32⟩
    payload := ⟨kMsgHeaderSize.toNat + kTypeNameLenSize + nameLen.toNat,
      hdr.len - UInt32.ofNat kTypeNameLenSize - nameLen.toUInt32⟩
    seq := hdr.seq }

/-- `ProtoCodec<T>::Decode`. -/
def protoDecode (P : Proto M) (buf : List UInt8) (bufLen : UInt32) :
    Option (Option (Span × UInt32)) := do
  match ← decodeHeader buf bufLen with
  | none => return none
  | some h =>
    if ← typeNameMatches P buf h.typeName then
      return some (h.payload, h.seq)
    return none

/-! ### `Decode` -/

variable {buf : List UInt8} {bufLen : UInt32}

theorem readAt_of_le {off n : ℕ} (h : off + n ≤ buf.length) :
    readAt buf off n = some ((buf.drop off).take n) :=
  if_pos h

/-- `Decode` by the length field at the start of the buffer; it looks at the header only. -/
theorem decode_eq (h : min 8 bufLen.toNat ≤ buf.length) :
    decode buf bufLen =
      some (if 8 ≤ bufLen.toNat ∧ 8 + (hdrAt buf 0).len.toNat ≤ bufLen.toNat then
        some (⟨8, (hdrAt buf 0).len⟩, (hdrAt buf 0).seq) else none) := by
  have h8 : kMsgHeaderSize.toNat = 8 := rfl
  unfold decode
  by_cases hlt : bufLen < kMsgHeaderSize
  · rw [if_pos hlt]
    rw [UInt32.lt_iff_toNat_lt, h8] at hlt
    rw [if_neg (by omega)]
    rfl
  · rw [if_neg hlt]
    rw [UInt32.lt_iff_toNat_lt, h8] at hlt
    rw [h8, readAt_of_le (by omega)]
    have hsub : bufLen - kMsgHeaderSize < (hdrAt buf 0).len ↔
        ¬ (8 ≤ bufLen.toNat ∧ 8 + (hdrAt buf 0).len.toNat ≤ bufLen.toNat) := by
      rw [UInt32.lt_iff_toNat_lt, UInt32.toNat_sub_of_le _ _
        (by rw [UInt32.le_iff_toNat_le, h8]; omega), h8]
      omega
    show (if bufLen - kMsgHeaderSize < (hdrAt buf 0).len then some none else
      some (some ((⟨8, (hdrAt buf 0).len⟩ : Span), (hdrAt buf 0).seq))) = _
    split_ifs with hc hc' hc'
    · exact absurd hc' (hsub.mp hc)
    · rfl
    · rfl
    · exact absurd (hsub.mpr hc') hc

/-- A payload that `Decode` hands out lies inside the buffer, behind the header. -/
theorem decode_some {p : Span} {seq : UInt32} (h : bufLen.toNat ≤ buf.length)
    (hd : decode buf bufLen = some (some (p, seq))) :
    p = ⟨8, (hdrAt buf 0).len⟩ ∧ seq = (hdrAt buf 0).seq ∧ p.off + p.len.toNat ≤ bufLen.toNat := by
  rw [decode_eq (by omega)] at hd
  split_ifs at hd with hc
  · cases hd
    exact ⟨rfl, rfl, hc.2⟩
  · cases hd

/-! ### The codecs -/

/-- `Decode` and then `DecodePayload` on what it hands out. -/
def through (buf : List UInt8) (bufLen : UInt32) (decodePayload : Span → Option (Option Span)) :
    Option (Option (Span × UInt32)) := do
  match ← decode buf bufLen with
  | none => return none
  | some (p, seq) => return (← decodePayload p).map (·, seq)

theorem through_eq_some {decodePayload : Span → Option (Option Span)} {d : Span} {seq : UInt32} :
    through buf bufLen decodePayload = some (some (d, seq)) ↔
      ∃ p, decode buf bufLen = some (some (p, seq)) ∧ decodePayload p = some (some d) := by
  unfold through
  rcases decode buf bufLen with _ | _ | ⟨p, s⟩
  · simp
  · simp
  · rcases hd : decodePayload p with _ | _ | d'
    · simp [hd]
    · simp [hd]
    · simp only [Option.bind_eq_bind, Option.bind_some, Option.pure_def, hd, Option.map_some,
        Option.some.injEq, Prod.mk.injEq]
      constructor
      · rintro ⟨rfl, rfl⟩
        exact ⟨p, ⟨rfl, rfl⟩, hd⟩
      · rintro ⟨q, ⟨rfl, rfl⟩, hq⟩
        rw [hd] at hq
        cases hq
        exact ⟨rfl, rfl⟩

theorem podDecode_eq (tag : UInt32) (buf : List UInt8) (bufLen : UInt32) :
    podDecode tag buf bufLen = through buf bufLen (podDecodePayload tag buf) := by
  unfold podDecode through podDecodePayload
  rcases decode buf bufLen with _ | _ | ⟨p, s⟩
  · rfl
  · rfl
  · rcases hc : checkTag tag buf p with _ | _ | _ <;> simp [hc]

theorem toNat_prefixLen (n : UInt16) :
    (UInt32.ofNat kTypeNameLenSize + n.toUInt32).toNat = 2 + n.toNat := by
  have hn := n.toNat_lt
  rw [UInt32.toNat_add, UInt16.toNat_toUInt32]
  show (2 + n.toNat) % 2 ^ 32 = _
  omega

/-- `ProtoCodec<T>::Decode` checks the lengths in an order of its own; they come to the same. -/
theorem protoDecode_eq (P : Proto M) (h : bufLen.toNat ≤ buf.length) :
    protoDecode P buf bufLen = through buf bufLen (protoDecodePayload P buf) := by
  have h8 : kMsgHeaderSize.toNat = 8 := rfl
  have h2 : (UInt32.ofNat kTypeNameLenSize).toNat = 2 := rfl
  have h10 : (kMsgHeaderSize + UInt32.ofNat kTypeNameLenSize).toNat = 10 := rfl
  unfold protoDecode decodeHeader through
  rw [decode_eq (by omega)]
  -- a payload that is too short for the length of the name
  have hshort : (hdrAt buf 0).len.toNat < 2 →
      protoDecodePayload P buf ⟨8, (hdrAt buf 0).len⟩ = some none := by
    intro hs
    unfold protoDecodePayload
    rw [if_pos (by rw [UInt32.lt_iff_toNat_lt, h2]; exact hs)]
    rfl
  by_cases hlt : bufLen < kMsgHeaderSize + UInt32.ofNat kTypeNameLenSize
  · rw [if_pos hlt]
    rw [UInt32.lt_iff_toNat_lt, h10] at hlt
    split_ifs with hc
    · simp [hshort (by omega)]
    · rfl
  rw [if_neg hlt]
  rw [UInt32.lt_iff_toNat_lt, h10] at hlt
  rw [readAt_of_le (by omega : 0 + kMsgHeaderSize.toNat ≤ buf.length)]
  have hhdr : MsgHeader.ofBytes ((buf.drop 0).take kMsgHeaderSize.toNat) = hdrAt buf 0 := rfl
  simp only [Option.bind_eq_bind, Option.bind_some, hhdr]
  have hlt2 : (hdrAt buf 0).len < UInt32.ofNat kTypeNameLenSize ↔ (hdrAt buf 0).len.toNat < 2 := by
    rw [UInt32.lt_iff_toNat_lt, h2]
  have hsub : bufLen - kMsgHeaderSize < (hdrAt buf 0).len ↔
      bufLen.toNat < 8 + (hdrAt buf 0).len.toNat := by
    rw [UInt32.lt_iff_toNat_lt, UInt32.toNat_sub_of_le _ _
      (by rw [UInt32.le_iff_toNat_le, h8]; omega), h8]
    omega
  by_cases hs : (hdrAt buf 0).len.toNat < 2
  · rw [if_pos (hlt2.mpr hs)]
    split_ifs
    · simp [hshort hs]
    · rfl
  rw [if_neg (mt hlt2.mp hs)]
  by_cases hc : bufLen.toNat < 8 + (hdrAt buf 0).len.toNat
  · rw [if_pos (hsub.mpr hc), if_neg (by omega)]
    rfl
  rw [if_neg (mt hsub.mp hc), if_pos (by omega)]
  have hread : readAt buf 8 kTypeNameLenSize = some ((buf.drop 8).take 2) :=
    readAt_of_le (by show 8 + 2 ≤ _; omega)
  unfold protoDecodePayload
  simp only [h8, hread, Option.bind_eq_bind, Option.bind_some, if_neg (mt hlt2.mp hs)]
  generalize ofLe16 ((buf.drop 8).take 2) = nameLen
  by_cases hname : (hdrAt buf 0).len < UInt32.ofNat kTypeNameLenSize + nameLen.toUInt32
  · rw [if_pos hname, if_pos hname]
    rfl
  rw [if_neg hname, if_neg hname]
  have hoff : 8 + (UInt32.ofNat kTypeNameLenSize + nameLen.toUInt32).toNat =
      8 + kTypeNameLenSize + nameLen.toNat := by
    rw [toNat_prefixLen]
    show _ = 8 + 2 + nameLen.toNat
    omega
  have hlen : (hdrAt buf 0).len - (UInt32.ofNat kTypeNameLenSize + nameLen.toUInt32) =
      (hdrAt buf 0).len - UInt32.ofNat kTypeNameLenSize - nameLen.toUInt32 := by
    rw [UInt32.sub_eq_iff_eq_add, UInt32.add_comm (UInt32.ofNat kTypeNameLenSize),
      ← UInt32.add_assoc, UInt32.sub_add_cancel, UInt32.sub_add_cancel]
  rw [hoff, hlen]
  rcases hm : typeNameMatches P buf ⟨8 + kTypeNameLenSize, nameLen.toUInt32⟩ with _ | _ | _ <;>
    simp [hm]

theorem Span.length_bytes {p : Span} (h : p.off + p.len.toNat ≤ buf.length) :
    (p.bytes buf).length = p.len.toNat := by
  unfold Span.bytes
  rw [List.length_take, List.length_drop]
  omega

theorem Span.take_bytes {p : Span} {n : ℕ} (h : n ≤ p.len.toNat) :
    (p.bytes buf).take n = (buf.drop p.off).take n := by
  unfold Span.bytes
  rw [List.take_take, Nat.min_eq_left h]

/-- A part of what a span stands for. -/
theorem Span.take_drop_bytes {p : Span} {off n : ℕ} (h : off + n ≤ p.len.toNat) :
    ((p.bytes buf).drop off).take n = (buf.drop (p.off + off)).take n := by
  unfold Span.bytes
  rw [List.drop_take, List.take_take, List.drop_drop, Nat.min_eq_left (by omega)]

/-- The rest of what a span stands for. -/
theorem Span.drop_bytes {p : Span} {off : ℕ} {len : UInt32}
    (hlen : len.toNat = p.len.toNat - off) :
    Span.bytes ⟨p.off + off, len⟩ buf = (p.bytes buf).drop off := by
  unfold Span.bytes
  rw [List.drop_take, List.drop_drop, hlen]

/-- `PodCodec<T>::DecodePayload` stays inside the payload, and sees its bytes only. -/
theorem podDecodePayload_bytes (tag : UInt32) {p : Span} (h : p.off + p.len.toNat ≤ buf.length) :
    ∃ r, podDecodePayload tag buf p = some r ∧
      r.map (Span.bytes · buf) = Typed.podDecodePayload tag (p.bytes buf) := by
  have h4 : (UInt32.ofNat kTagSize).toNat = 4 := rfl
  have hlen := Span.length_bytes h
  unfold podDecodePayload checkTag Typed.podDecodePayload
  by_cases hs : p.len < UInt32.ofNat kTagSize
  · rw [if_pos hs]
    rw [UInt32.lt_iff_toNat_lt, h4] at hs
    rw [if_pos (by rw [hlen]; exact hs)]
    exact ⟨none, rfl, rfl⟩
  rw [if_neg hs]
  rw [UInt32.lt_iff_toNat_lt, h4] at hs
  rw [if_neg (by rw [hlen]; exact hs), readAt_of_le (by show _ + 4 ≤ _; omega)]
  have htag : ofLe ((buf.drop p.off).take kTagSize) = ofLe (p.bytes buf) := by
    unfold ofLe
    rw [show ((buf.drop p.off).take kTagSize).take 4 = (buf.drop p.off).take 4 from
      List.take_take, Span.take_bytes (by omega)]
  by_cases ht : ofLe (p.bytes buf) = tag
  · refine ⟨some ⟨p.off + kTagSize, p.len - UInt32.ofNat kTagSize⟩, by simp [htag, ht], ?_⟩
    rw [if_pos ht]
    refine congrArg some (Span.drop_bytes ?_)
    rw [UInt32.toNat_sub_of_le _ _ (by rw [UInt32.le_iff_toNat_le, h4]; omega)]
    rfl
  · exact ⟨none, by simp [htag, ht], by rw [if_neg ht]; rfl⟩

/-- The name is compared only where it has the expected length, and then inside the payload. -/
theorem typeNameMatches_bytes (P : Proto M) {p : Span} {nameLen : UInt16}
    (h : p.off + p.len.toNat ≤ buf.length) (hle : 2 + nameLen.toNat ≤ p.len.toNat) :
    typeNameMatches P buf ⟨p.off + kTypeNameLenSize, nameLen.toUInt32⟩ =
      some (Typed.typeNameMatches P
        (((p.bytes buf).drop kTypeNameLenSize).take nameLen.toNat)) := by
  have hn : nameLen.toUInt32.toNat = nameLen.toNat := UInt16.toNat_toUInt32 _
  have hin : p.off + kTypeNameLenSize + nameLen.toNat ≤ buf.length := by
    show p.off + 2 + _ ≤ _
    omega
  have hb : ((p.bytes buf).drop kTypeNameLenSize).take nameLen.toNat =
      (buf.drop (p.off + kTypeNameLenSize)).take nameLen.toNat :=
    Span.take_drop_bytes hle
  unfold typeNameMatches Typed.typeNameMatches
  simp only [hn, hb, List.length_take, List.length_drop]
  by_cases hl : nameLen.toNat = P.typeName.length
  · rw [if_neg (not_not.mpr hl), readAt_of_le hin]
    simp only [Option.bind_eq_bind, Option.bind_some, Option.pure_def, Option.some.injEq,
      decide_eq_decide]
    constructor
    · intro he
      exact ⟨by omega, he⟩
    · exact And.right
  · rw [if_pos hl]
    simp only [Option.pure_def, Option.some.injEq, Bool.false_eq, decide_eq_false_iff_not]
    rintro ⟨he, -⟩
    omega

/-- `ProtoCodec<T>::DecodePayload` stays inside the payload, and sees its bytes only. -/
theorem protoDecodePayload_bytes (P : Proto M) {p : Span}
    (h : p.off + p.len.toNat ≤ buf.length) :
    ∃ r, protoDecodePayload P buf p = some r ∧
      r.map (Span.bytes · buf) = Typed.protoDecodePayload P (p.bytes buf) := by
  have h2 : (UInt32.ofNat kTypeNameLenSize).toNat = 2 := rfl
  have hlen := Span.length_bytes h
  unfold protoDecodePayload Typed.protoDecodePayload
  by_cases hs : p.len < UInt32.ofNat kTypeNameLenSize
  · rw [if_pos hs]
    rw [UInt32.lt_iff_toNat_lt, h2] at hs
    rw [if_pos (by rw [hlen]; exact hs)]
    exact ⟨none, rfl, rfl⟩
  rw [if_neg hs]
  rw [UInt32.lt_iff_toNat_lt, h2] at hs
  rw [if_neg (by rw [hlen]; exact hs), readAt_of_le (by show _ + 2 ≤ _; omega)]
  have hname : leNat ((p.bytes buf).take kTypeNameLenSize) =
      (ofLe16 ((buf.drop p.off).take kTypeNameLenSize)).toNat := by
    rw [toNat_ofLe16, show ((buf.drop p.off).take kTypeNameLenSize).take 2 =
      (buf.drop p.off).take 2 from List.take_take]
    exact congrArg leNat (Span.take_bytes (by show 2 ≤ _; omega))
  simp only [Option.bind_eq_bind, Option.bind_some, hname]
  generalize ofLe16 ((buf.drop p.off).take kTypeNameLenSize) = nameLen
  have hpre := toNat_prefixLen nameLen
  by_cases hp : p.len < UInt32.ofNat kTypeNameLenSize + nameLen.toUInt32
  · rw [if_pos hp]
    rw [UInt32.lt_iff_toNat_lt, hpre] at hp
    rw [if_pos (by rw [hlen]; exact hp)]
    exact ⟨none, rfl, rfl⟩
  rw [if_neg hp]
  rw [UInt32.lt_iff_toNat_lt, hpre] at hp
  rw [if_neg (by rw [hlen]; exact hp)]
  rw [typeNameMatches_bytes P h (by omega)]
  by_cases hm : Typed.typeNameMatches P
      (((p.bytes buf).drop kTypeNameLenSize).take nameLen.toNat) = true
  · refine ⟨some ⟨p.off + (UInt32.ofNat kTypeNameLenSize + nameLen.toUInt32).toNat,
      p.len - (UInt32.ofNat kTypeNameLenSize + nameLen.toUInt32)⟩, by simp [hm], ?_⟩
    rw [if_pos hm, hpre]
    refine congrArg some (Span.drop_bytes ?_)
    rw [UInt32.toNat_sub_of_le _ _ (by rw [UInt32.le_iff_toNat_le, hpre]; omega), hpre]
  · exact ⟨none, by simp [hm], by rw [if_neg hm]; rfl⟩

/-- A `Decode` of a codec does what `Decode` and the codec's `DecodePayload` do one after the other,
`DecodePayload` does what `spec` says of the bytes of the payload, and neither of them leaves the
buffer. -/
structure Agrees (b : Buf) (full : Option (Option (Span × UInt32)))
    (decodePayload : Span → Option (Option Span)) (spec : List UInt8 → Option (List UInt8)) :
    Prop where
  inside : ∃ r, full = some r
  iff : ∀ d seq, full = some (some (d, seq)) ↔
    ∃ p, decode b.bytes b.len = some (some (p, seq)) ∧ decodePayload p = some (some d)
  payload : ∀ p seq, decode b.bytes b.len = some (some (p, seq)) →
    ∃ r, decodePayload p = some r ∧ r.map (Span.bytes · b.bytes) = spec (p.bytes b.bytes)

theorem agrees_through {b : Buf} {full : Option (Option (Span × UInt32))}
    {decodePayload : Span → Option (Option Span)} {spec : List UInt8 → Option (List UInt8)}
    (hfull : full = through b.bytes b.len decodePayload)
    (hdp : ∀ p : Span, p.off + p.len.toNat ≤ b.bytes.length → ∃ r, decodePayload p = some r ∧
      r.map (Span.bytes · b.bytes) = spec (p.bytes b.bytes)) :
    Agrees b full decodePayload spec := by
  have hlen : b.len.toNat ≤ b.bytes.length := le_of_eq b.toNat_len
  have hin : ∀ p seq, decode b.bytes b.len = some (some (p, seq)) →
      ∃ r, decodePayload p = some r ∧ r.map (Span.bytes · b.bytes) = spec (p.bytes b.bytes) :=
    fun p seq hd => hdp p ((decode_some hlen hd).2.2.trans hlen)
  rw [hfull]
  refine ⟨?_, fun d seq => through_eq_some, hin⟩
  rw [through]
  rcases hd : decode b.bytes b.len with _ | _ | ⟨p, seq⟩
  · rw [decode_eq (by omega)] at hd
    cases hd
  · exact ⟨none, rfl⟩
  · obtain ⟨r, hr, -⟩ := hin p seq hd
    exact ⟨r.map (·, seq), by simp [hr]⟩

theorem podDecode_agrees (tag : UInt32) (b : Buf) :
    Agrees b (podDecode tag b.bytes b.len) (podDecodePayload tag b.bytes)
      (Typed.podDecodePayload tag) :=
  agrees_through (podDecode_eq tag _ _) fun _ h => podDecodePayload_bytes tag h

theorem protoDecode_agrees (P : Proto M) (b : Buf) :
    Agrees b (protoDecode P b.bytes b.len) (protoDecodePayload P b.bytes)
      (Typed.protoDecodePayload P) :=
  agrees_through (protoDecode_eq P (le_of_eq b.toNat_len)) fun _ h => protoDecodePayload_bytes P h

/-! ### Encoding and decoding -/

/-- The frame fits the buffer, as numbers. -/
def Fits (payload : Raw) (buf : Buf) : Prop := 8 + payload.len.toNat ≤ buf.bytes.length

/-- What the encoder and the decoder of a frame owe each other for one payload, buffer and sequence
number. -/
structure Inverse (payload : Raw) (buf : Buf) (seq : UInt32) : Prop where
  /-- `EncodeFrame` returns a pointer -/
  frame : (∃ p, encodeFrame buf payload.len seq = some (some p)) ↔ Fits payload buf
  /-- `Encode` returns a size -/
  size : (∃ count out, encode payload buf seq = some (count, out) ∧ count ≠ 0) ↔ Fits payload buf
  /-- nothing is written behind the frame -/
  frameOnly : ∀ p, encodeFrame buf payload.len seq = some (some p) →
    p.length = buf.bytes.length ∧
      p.drop (8 + payload.len.toNat) = buf.bytes.drop (8 + payload.len.toNat)
  only : Fits payload buf → ∀ count out, encode payload buf seq = some (count, out) →
    count.toNat = 8 + payload.len.toNat ∧ out.length = buf.bytes.length ∧
      out.drop (8 + payload.len.toNat) = buf.bytes.drop (8 + payload.len.toNat)
  /-- the frame is decoded where it is whole -/
  back : Fits payload buf → ∀ count out, encode payload buf seq = some (count, out) →
    ∀ bufLen : UInt32,
      (8 + payload.len.toNat ≤ bufLen.toNat → ∃ p, decode out bufLen = some (some (p, seq)) ∧
        p.len = payload.len ∧ p.bytes out = payload.bytes) ∧
      (bufLen.toNat < 8 + payload.len.toNat → decode out bufLen = some none)
  /-- else nothing happens -/
  untouched : ¬ Fits payload buf →
    encodeFrame buf payload.len seq = some none ∧ encode payload buf seq = some (0, buf.bytes)

/-- A copy leaves what is behind it. -/
theorem drop_of_copyAt {l l' out : List UInt8} {off n : ℕ} (h : copyAt l off l' = some out)
    (hn : off + l'.length ≤ n) : out.drop n = l.drop n := by
  have hle := (length_of_copyAt h).1
  unfold copyAt at h
  rw [if_pos hle] at h
  cases h
  obtain ⟨k, rfl⟩ := Nat.exists_eq_add_of_le hn
  rw [← List.append_assoc, ← List.drop_drop, List.drop_left' (by simp; omega), List.drop_drop]

theorem hdrAt_zero_of_prefix {hdr : MsgHeader} {l out : List UInt8} (h : hdr.bytes ++ l <+: out) :
    hdrAt out 0 = hdr := by
  obtain ⟨t, rfl⟩ := h
  unfold hdrAt
  rw [List.drop_zero, List.append_assoc, Deframe.ofBytes_bytes]

/-- Eight bytes are those of the header they give. -/
theorem bytes_hdrAt_zero {l : List UInt8} (h : 8 ≤ l.length) : (hdrAt l 0).bytes = l.take 8 := by
  have h1 := le32_ofLe (l := l.take 8) (by rw [List.length_take]; omega)
  have h2 := le32_ofLe (l := (l.take 8).drop 4) (by rw [List.length_drop, List.length_take]; omega)
  have hz : ((l.take 8).drop 4).drop 4 = [] := by
    rw [List.drop_drop, List.drop_eq_nil_iff, List.length_take]
    omega
  rw [hz, List.append_nil] at h2
  unfold hdrAt
  show le32 (ofLe (l.take 8)) ++ le32 (ofLe ((l.take 8).drop 4)) = l.take 8
  rw [h2, h1]

/-- `EncodeFrame` writes the header only. -/
theorem drop_of_encodeFrame {buf : Buf} {payloadLen seq : UInt32} {p : List UInt8} {n : ℕ}
    (h : encodeFrame buf payloadLen seq = some (some p)) (hn : 8 ≤ n) :
    p.drop n = buf.bytes.drop n := by
  unfold encodeFrame at h
  split_ifs at h
  · cases h
  · obtain ⟨q, hq, he⟩ := Option.map_eq_some_iff.mp h
    cases he
    exact drop_of_copyAt hq (by rw [MsgHeader.length_bytes]; omega)

/-- The encoder returns without a trace where the sum of 32 bits exceeds the size. -/
theorem encode_of_lt {payload : Raw} {buf : Buf} (seq : UInt32)
    (h : buf.len < kMsgHeaderSize + payload.len) :
    encodeFrame buf payload.len seq = some none ∧ encode payload buf seq = some (0, buf.bytes) := by
  have hf : encodeFrame buf payload.len seq = some none := by
    unfold encodeFrame
    rw [if_pos h]
  refine ⟨hf, ?_⟩
  unfold encode
  rw [hf]
  rfl

/-- The encoder on a buffer that holds the frame. -/
theorem encode_of_fits {payload : Raw} {buf : Buf} (seq : UInt32)
    (hp : payload.bytes.length = payload.len.toNat) (hf : Fits payload buf) :
    ∃ out, encode payload buf seq = some (kMsgHeaderSize + payload.len, out) ∧
      out.length = buf.bytes.length ∧
      out.drop (8 + payload.len.toNat) = buf.bytes.drop (8 + payload.len.toNat) ∧
      MsgHeader.bytes ⟨payload.len, seq⟩ ++ payload.bytes <+: out := by
  have h8 : kMsgHeaderSize.toNat = 8 := rfl
  obtain ⟨p, hframe⟩ := encodeFrame_of_le seq hf
  obtain ⟨hpre, hlen, -⟩ := encodeFrame_some hframe
  have hdrop := drop_of_encodeFrame (n := 8 + payload.len.toNat) hframe (by omega)
  unfold encode
  simp only [hframe, Option.bind_eq_bind, Option.bind_some]
  by_cases hpos : 0 < payload.len
  · rw [if_pos hpos]
    cases payload with
    | null len =>
      rw [UInt32.lt_iff_toNat_lt] at hpos
      exact absurd hp (Nat.ne_of_lt hpos)
    | ptr src =>
      have hsrc : src.bytes.length = (Raw.ptr src).len.toNat := hp
      unfold Fits at hf
      obtain ⟨out, hout⟩ := copyAt_of_le p kMsgHeaderSize.toNat src.bytes (by omega)
      have hout' := hout
      rw [h8] at hout'
      refine ⟨out, by simp [Raw.data, hout], (length_of_copyAt hout).2.trans hlen, ?_, ?_⟩
      · rw [drop_of_copyAt hout (by omega), hdrop]
      · exact prefix_of_copyAt hout' hpre
  · rw [if_neg hpos]
    refine ⟨p, rfl, hlen, hdrop, ?_⟩
    rw [UInt32.not_lt, UInt32.le_iff_toNat_le] at hpos
    have hz : payload.bytes = [] := List.eq_nil_of_length_eq_zero (hp.trans (Nat.le_zero.mp hpos))
    rw [hz, List.append_nil]
    exact hpre

/-- A buffer that starts with a frame, decoded with any length. -/
theorem decode_of_prefix {payload : Raw} {seq : UInt32} {out : List UInt8}
    (hp : payload.bytes.length = payload.len.toNat)
    (h : MsgHeader.bytes ⟨payload.len, seq⟩ ++ payload.bytes <+: out) (bufLen : UInt32) :
    (8 + payload.len.toNat ≤ bufLen.toNat → ∃ p, decode out bufLen = some (some (p, seq)) ∧
      p.len = payload.len ∧ p.bytes out = payload.bytes) ∧
    (bufLen.toNat < 8 + payload.len.toNat → decode out bufLen = some none) := by
  have hlen := h.length_le
  rw [List.length_append, MsgHeader.length_bytes] at hlen
  rw [decode_eq (by omega), hdrAt_zero_of_prefix h]
  refine ⟨fun hle => ?_, fun hlt => ?_⟩
  · rw [if_pos ⟨by omega, hle⟩]
    refine ⟨_, rfl, rfl, ?_⟩
    obtain ⟨t, rfl⟩ := h
    unfold Span.bytes
    rw [List.append_assoc, List.drop_left' (MsgHeader.length_bytes _), ← hp, List.take_left]
  · rw [if_neg (by simp only; omega)]

/-- Whatever `Decode` accepts is the frame of its payload, and is encoded as it was. -/
theorem encode_of_decode {p : Span} {seq : UInt32} (h : bufLen.toNat ≤ buf.length)
    (hd : decode buf bufLen = some (some (p, seq))) {payload out : Buf}
    (hp : payload.bytes = p.bytes buf) (hout : 8 + p.len.toNat ≤ out.bytes.length) :
    ∃ l, encode (.ptr payload) out seq = some (kMsgHeaderSize + p.len, l) ∧
      l.take (8 + p.len.toNat) = buf.take (8 + p.len.toNat) := by
  obtain ⟨he, hs, hle⟩ := decode_some h hd
  have hoff : p.off = 8 := by rw [he]
  have hbytes : payload.bytes.length = p.len.toNat := by
    rw [hp, Span.length_bytes (by omega)]
  have hlen : payload.len = p.len := UInt32.toNat_inj.mp (by rw [payload.toNat_len, hbytes])
  have hraw : (Raw.ptr payload).len = p.len := hlen
  have hfits : Fits (.ptr payload) out := by
    unfold Fits
    rw [hraw]
    exact hout
  obtain ⟨l, hl, -, -, hpre⟩ := encode_of_fits seq (by rw [hraw]; exact hbytes) hfits
  rw [hraw] at hl hpre
  refine ⟨l, hl, ?_⟩
  -- both start with the header of `p` and the bytes of `p`
  have hbuf : MsgHeader.bytes ⟨p.len, seq⟩ ++ p.bytes buf <+: buf := by
    have hhdr : MsgHeader.bytes ⟨p.len, seq⟩ = buf.take 8 := by
      have hdr : MsgHeader.mk p.len seq = hdrAt buf 0 := by rw [he, hs]
      rw [hdr]
      exact bytes_hdrAt_zero (by omega)
    unfold Span.bytes
    rw [hhdr, hoff, ← List.take_add]
    exact List.take_prefix _ _
  have htake : ∀ {l' : List UInt8}, MsgHeader.bytes ⟨p.len, seq⟩ ++ p.bytes buf <+: l' →
      l'.take (8 + p.len.toNat) = MsgHeader.bytes ⟨p.len, seq⟩ ++ p.bytes buf := by
    intro l' hl'
    have ht := List.prefix_iff_eq_take.mp hl'
    rw [List.length_append, MsgHeader.length_bytes, Span.length_bytes (by omega)] at ht
    exact ht.symm
  have hpre' : MsgHeader.bytes ⟨p.len, seq⟩ ++ p.bytes buf <+: l := by
    rw [← hp]
    exact hpre
  rw [htake hpre', htake hbuf]

/-- The sum `8 + payload_len` does not wrap around; or it does, and the buffer is shorter than even
the few bytes that are left of it. -/
def NoFalseFit (payload : Raw) (buf : Buf) : Prop :=
  payload.len.toNat < 4294967288 ∨ buf.bytes.length < payload.len.toNat - 4294967288

/-- The sum that wraps around. -/
theorem toNat_frame_wrap {payloadLen : UInt32} (h : 4294967288 ≤ payloadLen.toNat) :
    (kMsgHeaderSize + payloadLen).toNat = payloadLen.toNat - 4294967288 := by
  have hlt := payloadLen.toNat_lt
  rw [UInt32.toNat_add]
  show (8 + payloadLen.toNat) % 2 ^ 32 = _
  omega

/-- The code compares as numbers compare, where the sum does not wrap around. -/
theorem lt_frame_iff {payload : Raw} {buf : Buf} (h : payload.len.toNat < 4294967288) :
    buf.len < kMsgHeaderSize + payload.len ↔ ¬ Fits payload buf := by
  unfold Fits
  rw [UInt32.lt_iff_toNat_lt, buf.toNat_len, toNat_frame (by omega)]
  omega

theorem inverse_of_lt {payload : Raw} {buf : Buf} (seq : UInt32)
    (hf : ¬ Fits payload buf) (h : buf.len < kMsgHeaderSize + payload.len) :
    Inverse payload buf seq := by
  obtain ⟨h1, h2⟩ := encode_of_lt seq h
  refine ⟨⟨?_, fun h' => absurd h' hf⟩, ⟨?_, fun h' => absurd h' hf⟩, ?_, fun h' => absurd h' hf,
    fun h' => absurd h' hf, fun _ => ⟨h1, h2⟩⟩
  · rintro ⟨p, hp⟩
    rw [h1] at hp
    cases hp
  · rintro ⟨count, out, he, hc⟩
    rw [h2] at he
    cases he
    exact absurd rfl hc
  · intro p hp
    rw [h1] at hp
    cases hp

theorem inverse_of_fits {payload : Raw} {buf : Buf} (seq : UInt32)
    (hp : payload.bytes.length = payload.len.toNat) (hf : Fits payload buf) :
    Inverse payload buf seq := by
  have hlt : payload.len.toNat < 4294967288 := by
    have := buf.lt
    unfold Fits at hf
    omega
  have hsize : (kMsgHeaderSize + payload.len).toNat = _ := toNat_frame (by omega)
  obtain ⟨out, hout, hlen, hdrop, hpre⟩ := encode_of_fits seq hp hf
  have honly : ∀ count out', encode payload buf seq = some (count, out') →
      count = kMsgHeaderSize + payload.len ∧ out' = out := by
    intro count out' he
    rw [hout] at he
    cases he
    exact ⟨rfl, rfl⟩
  refine ⟨⟨fun _ => hf, fun _ => encodeFrame_of_le seq hf⟩, ⟨fun _ => hf, fun _ => ?_⟩,
    fun p h => ⟨(encodeFrame_some h).2.1, drop_of_encodeFrame h (by omega)⟩, ?_, ?_,
    fun h => absurd hf h⟩
  · refine ⟨_, out, hout, fun h => ?_⟩
    rw [h] at hsize
    exact absurd hsize (by show 0 ≠ _; omega)
  · intro _ count out' he
    obtain ⟨rfl, rfl⟩ := honly count out' he
    exact ⟨hsize, hlen, hdrop⟩
  · intro _ count out' he bufLen
    obtain ⟨rfl, rfl⟩ := honly count out' he
    exact decode_of_prefix hp hpre bufLen

/-- **When `Encode` and `Decode` are inverse to each other**: for every payload, buffer and sequence
number exactly when the wrapped sum does not let a payload of nearly 4 GiB pass as a frame of less
than eight bytes. What `Decode` accepts is always encoded back to itself. -/
theorem encode_decode_iff (payload : Raw) (buf : Buf) (seq : UInt32)
    (hp : payload.bytes.length = payload.len.toNat) :
    (Inverse payload buf seq ↔ NoFalseFit payload buf) ∧
    ∀ (buf : List UInt8) (bufLen : UInt32) (p : Span) (seq : UInt32) (payload out : Buf),
      bufLen.toNat ≤ buf.length → decode buf bufLen = some (some (p, seq)) →
      payload.bytes = p.bytes buf → 8 + p.len.toNat ≤ out.bytes.length →
      ∃ l, encode (.ptr payload) out seq = some (kMsgHeaderSize + p.len, l) ∧
        l.take (8 + p.len.toNat) = buf.take (8 + p.len.toNat) := by
  refine ⟨⟨fun h => ?_, fun h => ?_⟩,
    fun buf bufLen p seq payload out h hd hp hout => encode_of_decode h hd hp hout⟩
  · by_contra hc
    unfold NoFalseFit at hc
    have hwrap : (kMsgHeaderSize + payload.len).toNat = _ := toNat_frame_wrap (by omega)
    have hbuf := buf.lt
    have hfit : ¬ Fits payload buf := by
      unfold Fits
      omega
    have hframe := (h.untouched hfit).1
    unfold encodeFrame at hframe
    rw [if_neg (by rw [UInt32.lt_iff_toNat_lt, buf.toNat_len, hwrap]; omega)] at hframe
    obtain ⟨q, -, hq⟩ := Option.map_eq_some_iff.mp hframe
    cases hq
  · by_cases hf : Fits payload buf
    · exact inverse_of_fits seq hp hf
    · refine inverse_of_lt seq hf ?_
      rcases h with h | h
      · exact (lt_frame_iff h).mpr hf
      · have hwrap : (kMsgHeaderSize + payload.len).toNat = _ := toNat_frame_wrap (by omega)
        rw [UInt32.lt_iff_toNat_lt, buf.toNat_len, hwrap]
        exact h

/-- Three bytes in a buffer of sixteen, and the frame of three bytes encoded again. -/
theorem encode_decode_iff_three :
    Inverse (.ptr ⟨[1, 2, 3], by decide⟩) ⟨List.replicate 16 0, by decide⟩ 7 ∧
    ∃ l, encode (.ptr ⟨[1, 2, 3], by decide⟩) ⟨List.replicate 11 0, by decide⟩ 7 =
        some (11, l) ∧ l.take 11 = [3, 0, 0, 0, 7, 0, 0, 0, 1, 2, 3] := by
  have h := encode_decode_iff (.ptr ⟨[1, 2, 3], by decide⟩) ⟨List.replicate 16 0, by decide⟩ 7
    (by decide)
  refine ⟨h.1.mpr (Or.inl (by decide)), ?_⟩
  exact h.2 [3, 0, 0, 0, 7, 0, 0, 0, 1, 2, 3, 4] 12 ⟨8, 3⟩ 7 ⟨[1, 2, 3], by decide⟩
    ⟨List.replicate 11 0, by decide⟩ (by decide) (by decide) (by decide) (by decide)

/-- A payload whose frame has a size of `2^32`. -/
def huge : Buf := ⟨List.replicate 4294967288 0, by rw [List.length_replicate]; omega⟩

/-- `EncodeFrame` takes it for a frame of no bytes and writes its header to a buffer of eight. -/
theorem huge_not_inverse : ¬ Inverse (.ptr huge) ⟨List.replicate 8 0, by decide⟩ 7 := by
  intro h
  have hlen : (Raw.ptr huge).len = 4294967288 := by
    show UInt32.ofNat (List.replicate 4294967288 (0 : UInt8)).length = _
    rw [List.length_replicate]
    rfl
  have hfit := h.frame
  rw [hlen] at hfit
  have hlt : 8 + (Raw.ptr huge).len.toNat ≤ 8 := hfit.mp ⟨_, rfl⟩
  rw [hlen] at hlt
  exact absurd hlt (by decide)

end ShmIpc.Codec.Decode
