import ShmIpc.Codec.Typed

/-! # Encoding to a buffer: `Encode`, `EncodeTo`, and the ring senders

The codecs can also write a frame to a buffer. The buffer encoders are separate code: they fill the
buffer by `memcpy` at offsets they compute themselves, and nothing but their size check keeps them
inside it (`copyAt`; `none` is a write outside the buffer). `ring_send_eq_encode` says that a send
to the ring which returns `0` has appended the bytes that the encoder writes for the same message,
whichever way its pieces were written. -/

namespace ShmIpc.Codec.Encode

open ShmIpc.Lib.RelyGuarantee ShmIpc.Lib.LittleEndian
open ShmIpc.Ring.RingBuf ShmIpc.Ring.History ShmIpc.Ring.Writer ShmIpc.Ring.Channel
open ShmIpc.Codec.Frame ShmIpc.Codec.Typed

/-! ### The program -/

/-- `memcpy` of `l` to offset `off` of a buffer; `none` if it leaves the buffer. -/
def copyAt (buf : List UInt8) (off : ℕ) (l : List UInt8) : Option (List UInt8) :=
  if off + l.length ≤ buf.length then some (buf.take off ++ (l ++ buf.drop (off + l.length)))
  else none

/-- `EncodeFrame`; the inner `none` is a null pointer, else the payload starts behind the header. -/
def encodeFrame (buf : Buf) (payloadLen seq : UInt32) : Option (Option (List UInt8)) :=
  if buf.len < kMsgHeaderSize + payloadLen then some none
  else (copyAt buf.bytes 0 (MsgHeader.bytes ⟨payloadLen, seq⟩)).map some

/-- `PodCodec<T>::EncodeTo`: the return value and the buffer. -/
def podEncodeTo {n : ℕ} (tag : UInt32) (obj : Pod n) (buf : Buf) (seq : UInt32) :
    Option (UInt32 × List UInt8) := do
  let payloadLen := UInt32.ofNat (kTagSize + n)
  match ← encodeFrame buf payloadLen seq with
  | none => return (0, buf.bytes)
  | some p =>
    let p ← copyAt p kMsgHeaderSize.toNat (le32 tag)
    let p ← copyAt p (kMsgHeaderSize.toNat + kTagSize) obj.val
    return (kMsgHeaderSize + payloadLen, p)

/-- `ProtoCodec<T>::EncodeTo`. -/
def protoEncodeTo {M : Type} (P : Proto M) (msg : M) (buf : Buf) (seq : UInt32) :
    Option (UInt32 × List UInt8) := do
  let nameLen := UInt16.ofNat P.typeName.length
  let pbLen := UInt32.ofNat (P.serialize msg).length
  let payloadLen := 2 + nameLen.toUInt32 + pbLen
  match ← encodeFrame buf payloadLen seq with
  | none => return (0, buf.bytes)
  | some p =>
    let p ← copyAt p kMsgHeaderSize.toNat (le16 nameLen)
    let off := kMsgHeaderSize.toNat + kTypeNameLenSize
    let p ← copyAt p off (P.typeName.take nameLen.toNat)
    let p ← copyAt p (off + nameLen.toNat) (P.serialize msg)
    return (kMsgHeaderSize + payloadLen, p)

/-- The payload argument of the generic functions: a pointer and a length. -/
inductive Raw : Type
  | null (len : UInt32)
  | ptr (src : Buf)

/-- The length. -/
def Raw.len : Raw → UInt32
  | .null len => len
  | .ptr src => src.len

/-- The pointer, with the bytes behind it. -/
def Raw.data : Raw → Option Buf
  | .null _ => none
  | .ptr src => some src

/-- `Encode`; a `memcpy` from a null pointer is as bad as one outside the buffer. -/
def encode (payload : Raw) (buf : Buf) (seq : UInt32) : Option (UInt32 × List UInt8) := do
  match ← encodeFrame buf payload.len seq with
  | none => return (0, buf.bytes)
  | some p =>
    if 0 < payload.len then
      let src ← payload.data
      let p ← copyAt p kMsgHeaderSize.toNat src.bytes
      return (kMsgHeaderSize + payload.len, p)
    return (kMsgHeaderSize + payload.len, p)

/-- The callback of the generic `Send`. -/
def rawWrite (payload : Raw) : Callback :=
  if 0 < payload.len then .tryWrite payload.data fun _ => .done else .done

/-- The generic `Send` to a channel. -/
def rawSend (cap : Capacity) (payload : Raw) (seq : UInt32) : RingM Outcome :=
  if cap.maxWriteSize < payload.len.toNat then return .ret (-1)
  else sendFrame cap payload.len seq (rawWrite payload)

/-- The generic `Send` to a batch. -/
def rawSendBatch (cap : Capacity) (b : ChannelBatchWriter) (payload : Raw) (seq : UInt32) :
    RingM (Outcome × ChannelBatchWriter) :=
  if cap.maxWriteSize < payload.len.toNat then return (.ret (-1), b)
  else sendFrameBatch cap b payload.len seq (rawWrite payload)

/-! ### What the encoders write -/

theorem length_of_copyAt {buf out l : List UInt8} {off : ℕ} (h : copyAt buf off l = some out) :
    off + l.length ≤ buf.length ∧ out.length = buf.length := by
  unfold copyAt at h
  split_ifs at h with hle
  cases h
  refine ⟨hle, ?_⟩
  simp only [List.length_append, List.length_take, List.length_drop]
  omega

/-- A copy behind a known start makes a longer known start. -/
theorem prefix_of_copyAt {buf out pre l : List UInt8} (h : copyAt buf pre.length l = some out)
    (hpre : pre <+: buf) : pre ++ l <+: out := by
  unfold copyAt at h
  split_ifs at h
  cases h
  rw [(List.prefix_iff_eq_take.mp hpre).symm, ← List.append_assoc]
  exact List.prefix_append _ _

theorem copyAt_of_le (buf : List UInt8) (off : ℕ) (l : List UInt8)
    (h : off + l.length ≤ buf.length) : ∃ out, copyAt buf off l = some out :=
  ⟨_, if_pos h⟩

/-- A buffer that starts with the header of a frame. -/
theorem encodeFrame_some {buf : Buf} {payloadLen seq : UInt32} {p : List UInt8}
    (h : encodeFrame buf payloadLen seq = some (some p)) :
    MsgHeader.bytes ⟨payloadLen, seq⟩ <+: p ∧ p.length = buf.bytes.length ∧
      (kMsgHeaderSize + payloadLen).toNat ≤ buf.bytes.length := by
  unfold encodeFrame at h
  by_cases hlt : buf.len < kMsgHeaderSize + payloadLen
  · simp [hlt] at h
  rw [if_neg hlt] at h
  obtain ⟨q, hq, he⟩ := Option.map_eq_some_iff.mp h
  cases he
  refine ⟨?_, (length_of_copyAt hq).2, ?_⟩
  · have hpre := prefix_of_copyAt hq (List.nil_prefix (l := buf.bytes))
    exact hpre
  · rw [UInt32.not_lt, UInt32.le_iff_toNat_le, Buf.toNat_len] at hlt
    exact hlt

/-- The size of a frame that some buffer can hold. -/
theorem toNat_frame {payloadLen : UInt32} (h : payloadLen.toNat ≤ 4294967287) :
    (kMsgHeaderSize + payloadLen).toNat = 8 + payloadLen.toNat := by
  rw [UInt32.toNat_add]
  show (8 + payloadLen.toNat) % 2 ^ 32 = _
  omega

theorem encodeFrame_of_le {buf : Buf} {payloadLen : UInt32} (seq : UInt32)
    (h : 8 + payloadLen.toNat ≤ buf.bytes.length) :
    ∃ p, encodeFrame buf payloadLen seq = some (some p) := by
  have hlt := buf.lt
  have h8 : (kMsgHeaderSize + payloadLen).toNat = _ := toNat_frame (by omega)
  unfold encodeFrame
  rw [if_neg (by rw [UInt32.not_lt, UInt32.le_iff_toNat_le, Buf.toNat_len, h8]; exact h)]
  obtain ⟨out, hout⟩ := copyAt_of_le buf.bytes 0 (MsgHeader.bytes ⟨payloadLen, seq⟩)
    (by rw [MsgHeader.length_bytes]; omega)
  exact ⟨out, by rw [hout]; rfl⟩

/-- What an encoder has written where it returned a count: a frame of the payload. -/
def Writes (payloadLen seq : UInt32) (payload : List UInt8) (count : UInt32)
    (out : List UInt8) : Prop :=
  payloadLen.toNat ≤ 4294967287 ∧ payload.length = payloadLen.toNat ∧
    out.take count.toNat = MsgHeader.bytes ⟨payloadLen, seq⟩ ++ payload

theorem writes_of_prefix {payloadLen seq : UInt32} {payload out : List UInt8}
    (hlen : payloadLen.toNat ≤ 4294967287) (hp : payload.length = payloadLen.toNat)
    (hpre : MsgHeader.bytes ⟨payloadLen, seq⟩ ++ payload <+: out) :
    Writes payloadLen seq payload (kMsgHeaderSize + payloadLen) out := by
  refine ⟨hlen, hp, ?_⟩
  have he := List.prefix_iff_eq_take.mp hpre
  rw [List.length_append, MsgHeader.length_bytes, hp] at he
  rw [toNat_frame hlen]
  exact he.symm

/-- An encoder that returned a count has written the header and gone on. -/
theorem of_encodeFrame {buf : Buf} {payloadLen seq count : UInt32} {out : List UInt8}
    {k : List UInt8 → Option (UInt32 × List UInt8)} (hc : count ≠ 0)
    (h : (do
      match ← encodeFrame buf payloadLen seq with
      | none => return (0, buf.bytes)
      | some p => k p) = some (count, out)) :
    ∃ p, encodeFrame buf payloadLen seq = some (some p) ∧ k p = some (count, out) := by
  rcases hf : encodeFrame buf payloadLen seq with _ | _ | p
  · rw [hf] at h
    cases h
  · rw [hf] at h
    cases h
    exact absurd rfl hc
  · rw [hf] at h
    exact ⟨p, rfl, h⟩

/-- A type that is too large for its frame to have a 32-bit size is too large for any buffer. -/
theorem podEncodeTo_writes {n : ℕ} {tag : UInt32} {obj : Pod n} {buf : Buf} {seq count : UInt32}
    {out : List UInt8} (h : podEncodeTo tag obj buf seq = some (count, out)) (hc : count ≠ 0) :
    n < 4294967284 ∧
      Writes (UInt32.ofNat (kTagSize + n)) seq (podPayload tag obj) count out := by
  have hbuf := buf.lt
  obtain ⟨p₀, hf, h⟩ := of_encodeFrame hc h
  obtain ⟨p₁, h1, h⟩ := Option.bind_eq_some_iff.mp h
  obtain ⟨p₂, h2, h⟩ := Option.bind_eq_some_iff.mp h
  cases h
  obtain ⟨hpre, hlen₀, -⟩ := encodeFrame_some hf
  have hlen₁ := (length_of_copyAt h1).2
  have hroom := (length_of_copyAt h2).1
  have hn : n < 4294967284 := by
    rw [obj.property, show kMsgHeaderSize.toNat + kTagSize = 12 from rfl] at hroom
    omega
  have hsize : (UInt32.ofNat (kTagSize + n)).toNat = 4 + n := podCodec_size hn tag obj
  refine ⟨hn, writes_of_prefix (by omega) (by rw [length_podPayload, hsize]) ?_⟩
  have hpre₁ := prefix_of_copyAt h1 hpre
  have hpre₂ := prefix_of_copyAt h2 hpre₁
  unfold podPayload
  rw [← List.append_assoc]
  exact hpre₂

theorem protoEncodeTo_writes {M : Type} {P : Proto M} {msg : M} {buf : Buf} {seq count : UInt32}
    {out : List UInt8} (hname : P.typeName.length < 65536)
    (hlt : (P.serialize msg).length < 2147483648)
    (h : protoEncodeTo P msg buf seq = some (count, out)) (hc : count ≠ 0) :
    Writes ((protoCodec P).payloadLen msg) seq (protoPayload P msg) count out := by
  have hn := toNat_nameLen hname
  have hsize := protoCodec_size hname hlt
  obtain ⟨p₀, hf, h⟩ := of_encodeFrame hc h
  obtain ⟨p₁, h1, h⟩ := Option.bind_eq_some_iff.mp h
  obtain ⟨p₂, h2, h⟩ := Option.bind_eq_some_iff.mp h
  obtain ⟨p₃, h3, h⟩ := Option.bind_eq_some_iff.mp h
  cases h
  obtain ⟨hpre, -, -⟩ := encodeFrame_some hf
  have hp : (protoPayload P msg).length = ((protoCodec P).payloadLen msg).toNat := by
    rw [length_protoPayload, hsize]
  refine writes_of_prefix (by omega) hp ?_
  have hpre₁ := prefix_of_copyAt h1 hpre
  have hpre₂ := prefix_of_copyAt h2 hpre₁
  rw [hn, List.take_length] at hpre₂
  rw [hn] at h3
  have hpre₃ := prefix_of_copyAt
    (by rw [List.length_append, List.length_append, length_le16]; exact h3) hpre₂
  unfold protoPayload
  rw [← List.append_assoc, ← List.append_assoc]
  exact hpre₃

/-- The bytes of a payload argument. -/
def Raw.bytes : Raw → List UInt8
  | .null _ => []
  | .ptr src => src.bytes

theorem rawWrite_spells (payload : Raw) : Spells (rawWrite payload) payload.bytes := by
  unfold rawWrite
  rcases payload with len | src
  · split_ifs
    · exact spells_done
    · exact spells_done
  · split_ifs with h
    · have hs := spells_tryWrite src spells_done
      rw [List.append_nil] at hs
      exact hs
    · have hz : src.bytes = [] := by
        refine List.eq_nil_of_length_eq_zero ?_
        rw [← Buf.toNat_len]
        rw [UInt32.lt_iff_toNat_lt] at h
        have h0 : (0 : UInt32).toNat = 0 := rfl
        have hle : (Raw.ptr src).len.toNat = src.len.toNat := rfl
        omega
      show Spells .done src.bytes
      rw [hz]
      exact spells_done

theorem encode_writes {payload : Raw} {buf : Buf} {seq count : UInt32} {out : List UInt8}
    (hlen : payload.len.toNat ≤ 4294967287)
    (h : encode payload buf seq = some (count, out)) (hc : count ≠ 0) :
    Writes payload.len seq payload.bytes count out := by
  obtain ⟨p₀, hf, h⟩ := of_encodeFrame hc h
  obtain ⟨hpre, -, -⟩ := encodeFrame_some hf
  by_cases hpos : 0 < payload.len
  · rw [if_pos hpos] at h
    obtain ⟨src, hsrc, h⟩ := Option.bind_eq_some_iff.mp h
    obtain ⟨p₁, h1, h⟩ := Option.bind_eq_some_iff.mp h
    cases h
    cases payload with
    | null len => cases hsrc
    | ptr src' =>
      cases hsrc
      exact writes_of_prefix hlen src.toNat_len.symm (prefix_of_copyAt h1 hpre)
  · rw [if_neg hpos] at h
    cases h
    have hz : payload.len.toNat = 0 := by
      rw [UInt32.lt_iff_toNat_lt] at hpos
      have h0 : (0 : UInt32).toNat = 0 := rfl
      omega
    have hb : payload.bytes = [] := by
      cases payload with
      | null len => rfl
      | ptr src => exact List.eq_nil_of_length_eq_zero (src.toNat_len.symm.trans hz)
    refine writes_of_prefix hlen (by rw [hb, hz]; rfl) ?_
    rw [hb, List.append_nil]
    exact hpre

/-- The encoder writes a frame of `size` bytes to every buffer that holds as many. -/
def Encodes (encodeTo : Buf → Option (UInt32 × List UInt8)) (size : ℕ) : Prop :=
  ∀ buf : Buf, size ≤ buf.bytes.length →
    ∃ count out, encodeTo buf = some (count, out) ∧ count.toNat = size

theorem podEncodeTo_encodes {n : ℕ} (tag : UInt32) (obj : Pod n) (seq : UInt32) :
    Encodes (fun buf => podEncodeTo tag obj buf seq) (12 + n) := by
  intro buf hle
  have hlt := buf.lt
  have hsize : (UInt32.ofNat (kTagSize + n)).toNat = 4 + n := podCodec_size (by omega) tag obj
  have h12 : kMsgHeaderSize.toNat + kTagSize = 12 := rfl
  have hfit : 8 + (UInt32.ofNat (kTagSize + n)).toNat ≤ buf.bytes.length := by omega
  obtain ⟨p₀, hf⟩ := encodeFrame_of_le seq hfit
  have hlen₀ := (encodeFrame_some hf).2.1
  obtain ⟨p₁, h1⟩ := copyAt_of_le p₀ kMsgHeaderSize.toNat (le32 tag)
    (by rw [length_le32]; show 8 + 4 ≤ _; omega)
  have hlen₁ := (length_of_copyAt h1).2
  obtain ⟨p₂, h2⟩ := copyAt_of_le p₁ (kMsgHeaderSize.toNat + kTagSize) obj.val
    (by rw [obj.property]; omega)
  refine ⟨kMsgHeaderSize + UInt32.ofNat (kTagSize + n), p₂, ?_, ?_⟩
  · simp [podEncodeTo, hf, h1, h2, -UInt32.ofNat_add]
  · rw [toNat_frame (by omega), hsize]
    omega

theorem protoEncodeTo_encodes {M : Type} {P : Proto M} {msg : M}
    (hname : P.typeName.length < 65536) (hlt : (P.serialize msg).length < 2147483648)
    (seq : UInt32) : Encodes (fun buf => protoEncodeTo P msg buf seq)
      (10 + P.typeName.length + (P.serialize msg).length) := by
  intro buf hle
  have hn := toNat_nameLen hname
  have hsize := protoCodec_size hname hlt
  have hfit : 8 + ((protoCodec P).payloadLen msg).toNat ≤ buf.bytes.length := by omega
  obtain ⟨p₀, hf⟩ := encodeFrame_of_le seq hfit
  have hlen₀ := (encodeFrame_some hf).2.1
  obtain ⟨p₁, h1⟩ := copyAt_of_le p₀ kMsgHeaderSize.toNat
    (le16 (UInt16.ofNat P.typeName.length))
    (by rw [length_le16]; show 8 + 2 ≤ _; omega)
  have hlen₁ := (length_of_copyAt h1).2
  obtain ⟨p₂, h2⟩ := copyAt_of_le p₁ (kMsgHeaderSize.toNat + kTypeNameLenSize)
    (P.typeName.take (UInt16.ofNat P.typeName.length).toNat)
    (by rw [hn, List.take_length]; show 8 + 2 + _ ≤ _; omega)
  have hlen₂ := (length_of_copyAt h2).2
  obtain ⟨p₃, h3⟩ := copyAt_of_le p₂
    (kMsgHeaderSize.toNat + kTypeNameLenSize + (UInt16.ofNat P.typeName.length).toNat)
    (P.serialize msg) (by rw [hn]; show 8 + 2 + _ + _ ≤ _; omega)
  refine ⟨kMsgHeaderSize + (protoCodec P).payloadLen msg, p₃, ?_, ?_⟩
  · simp only [protoCodec] at hf
    simp only [protoEncodeTo, hf, h1, h2, h3, protoCodec, Option.bind_eq_bind, Option.bind_some,
      Option.pure_def]
  · rw [toNat_frame (by omega), hsize]
    omega

theorem encode_encodes (src : Buf) (seq : UInt32) :
    Encodes (fun buf => encode (.ptr src) buf seq) (8 + src.bytes.length) := by
  intro buf hle
  have hlt := buf.lt
  have hlen : (Raw.ptr src).len.toNat = src.bytes.length := src.toNat_len
  have hfit : 8 + (Raw.ptr src).len.toNat ≤ buf.bytes.length := by omega
  obtain ⟨p₀, hf⟩ := encodeFrame_of_le seq hfit
  have hlen₀ := (encodeFrame_some hf).2.1
  obtain ⟨p₁, h1⟩ := copyAt_of_le p₀ kMsgHeaderSize.toNat src.bytes
    (by show 8 + _ ≤ _; omega)
  have hcount : (kMsgHeaderSize + (Raw.ptr src).len).toNat = 8 + src.bytes.length := by
    rw [toNat_frame (by omega), hlen]
  by_cases hpos : 0 < (Raw.ptr src).len
  · refine ⟨_, p₁, ?_, hcount⟩
    simp only [encode, hf, Option.bind_eq_bind, Option.bind_some, if_pos hpos, Raw.data, h1,
      Option.pure_def]
  · refine ⟨_, p₀, ?_, hcount⟩
    simp only [encode, hf, Option.bind_eq_bind, Option.bind_some, if_neg hpos, Option.pure_def]

/-! ### What the senders append -/

variable {cap : Capacity} {base : ℕ} {g g' g₁ : World} {payloadLen seq : UInt32} {cb : Callback}
  {payload : List UInt8}

theorem sendFrame_appends (hi : Inv cap base g) (hs : Spells cb payload)
    (hlen : payloadLen.toNat ≤ 4294967287) (hp : payload.length = payloadLen.toNat)
    (h : Runs cap (sendFrame cap payloadLen seq cb) g (.ret 0) g') :
    g'.published = g.published ++ (MsgHeader.bytes ⟨payloadLen, seq⟩ ++ payload) := by
  rcases sendFrame_runs hi hlen h with ⟨-, rc, -, -, hw, hpub, -⟩ | ⟨ho | ho, -⟩
  · have he : (frameResult cap cb (snapshot base g.published.length rc)).written = payload :=
      (hs cap _).2 (hw.trans hp.symm)
    rw [hpub, he]
  · exact absurd ho (by simp)
  · exact absurd ho (by simp)

theorem sendFrameBatch_appends {b : BatchWriter} {rc : ℕ} {l : List UInt8}
    {b' : ChannelBatchWriter} {r : ℤ × ChannelBatchWriter} (hb : Pending cap base g b rc l)
    (hs : Spells cb payload) (hlen : payloadLen.toNat ≤ 4294967287)
    (hp : payload.length = payloadLen.toNat)
    (h : Runs cap (sendFrameBatch cap ⟨b, true⟩ payloadLen seq cb) g (.ret 0, b') g₁)
    (hfl : Runs cap b'.flush g₁ r g') :
    g'.published = g.published ++ (l ++ (MsgHeader.bytes ⟨payloadLen, seq⟩ ++ payload)) := by
  have hsend : g₁.published = g.published ∧ b'.channel = true ∧ Pending cap base g₁ b'.batch rc
      (l ++ (MsgHeader.bytes ⟨payloadLen, seq⟩ ++ payload)) := by
    have hwp : wpW cap base (sendFrameBatch cap ⟨b, true⟩ payloadLen seq cb)
        (fun p g₁ => p.1 = .ret 0 → g₁.published = g.published ∧ p.2.channel = true ∧
          Pending cap base g₁ p.2.batch rc
            (l ++ (MsgHeader.bytes ⟨payloadLen, seq⟩ ++ payload))) g := by
      refine sendFrameBatch_spec hb hlen (fun g₁ hF hw hp₁ _ => ?_)
        fun out g₁ _ ho _ _ h0 => ?_
      · have he : (frameResult cap cb b).written = payload :=
          (hs cap _).2 (hF.2.2.trans hp.symm)
        rw [he] at hp₁
        exact ⟨by rw [hw.published, List.append_nil], rfl, hp₁⟩
      · rcases ho with rfl | rfl
        · exact absurd h0 (by simp)
        · exact absurd h0 (by simp)
    have hQ := Prog.wp_exec h hwp
    exact hQ rfl
  obtain ⟨hpub, hchan, hpend⟩ := hsend
  obtain ⟨batch, channel⟩ := b'
  obtain rfl : channel = true := hchan
  have hwp : wpW cap base (ChannelBatchWriter.flush ⟨batch, true⟩)
      (fun _ g' => g'.published = g₁.published ++
        (l ++ (MsgHeader.bytes ⟨payloadLen, seq⟩ ++ payload))) g₁ :=
    channelFlush_spec hpend fun g' hf _ => hf.published
  have hQ := Prog.wp_exec hfl hwp
  rw [← hpub]
  exact hQ

/-- A send and its batched form append what the encoder writes, on every ring: whatever is
published, released and pending, and whatever the reader releases meanwhile. -/
structure SendsAsEncoded (cap : Capacity) (send : RingM Outcome)
    (sendBatch : ChannelBatchWriter → RingM (Outcome × ChannelBatchWriter))
    (encodeTo : Buf → Option (UInt32 × List UInt8)) : Prop where
  send : ∀ base g g' buf count out, Inv cap base g → Runs cap send g (.ret 0) g' →
    encodeTo buf = some (count, out) → count ≠ 0 →
    g'.published = g.published ++ out.take count.toNat
  batch : ∀ base g b rc l b' g₁ r g' buf count out, Pending cap base g b rc l →
    Runs cap (sendBatch ⟨b, true⟩) g (.ret 0, b') g₁ → Runs cap b'.flush g₁ r g' →
    encodeTo buf = some (count, out) → count ≠ 0 →
    g'.published = g.published ++ (l ++ out.take count.toNat)

/-- The senders of a frame whose callback spells the payload. -/
theorem sendsAsEncoded {encodeTo : Buf → Option (UInt32 × List UInt8)}
    (h : ∀ buf count out, encodeTo buf = some (count, out) → count ≠ 0 →
      Spells cb payload ∧ Writes payloadLen seq payload count out) :
    SendsAsEncoded cap (sendFrame cap payloadLen seq cb)
      (fun b => sendFrameBatch cap b payloadLen seq cb) encodeTo where
  send base g g' buf count out hi hrun henc hc := by
    obtain ⟨hs, hlen, hp, hout⟩ := h buf count out henc hc
    rw [hout]
    exact sendFrame_appends hi hs hlen hp hrun
  batch base g b rc l b' g₁ r g' buf count out hb hrun hfl henc hc := by
    obtain ⟨hs, hlen, hp, hout⟩ := h buf count out henc hc
    rw [hout]
    exact sendFrameBatch_appends hb hs hlen hp hrun hfl

/-- A send that is refused at once appends nothing that could differ. -/
theorem sendsAsEncoded_refused {encodeTo : Buf → Option (UInt32 × List UInt8)} :
    SendsAsEncoded cap (return .ret (-1)) (fun b => return (.ret (-1), b)) encodeTo where
  send base g g' buf count out hi hrun henc hc := by
    have hout := (Prog.exec_ret_iff.mp hrun).1
    exact absurd hout (by simp)
  batch base g b rc l b' g₁ r g' buf count out hb hrun hfl henc hc := by
    have hout := congrArg Prod.fst (Prog.exec_ret_iff.mp hrun).1
    exact absurd hout (by simp)

/-- **Ring send equals buffer encode**, for `PodCodec`, for `ProtoCodec` and for the generic
functions: where the send returns `0`, the bytes appended are the frame that the encoder writes for
the same message, and the encoder does write it to every buffer that can hold it. -/
theorem ring_send_eq_encode (cap : Capacity) (seq : UInt32) :
    (∀ (n : ℕ) (tag : UInt32) (obj : Pod n),
      SendsAsEncoded cap ((podCodec n tag).send cap obj seq)
        (fun b => (podCodec n tag).sendBatch cap b obj seq)
        (fun buf => podEncodeTo tag obj buf seq) ∧
      Encodes (fun buf => podEncodeTo tag obj buf seq) (12 + n)) ∧
    (∀ (M : Type) (P : Proto M) (msg : M), P.typeName.length < 65536 →
      (P.serialize msg).length < 2147483648 →
      SendsAsEncoded cap ((protoCodec P).send cap msg seq)
        (fun b => (protoCodec P).sendBatch cap b msg seq)
        (fun buf => protoEncodeTo P msg buf seq) ∧
      Encodes (fun buf => protoEncodeTo P msg buf seq)
        (10 + P.typeName.length + (P.serialize msg).length)) ∧
    (∀ payload : Raw, SendsAsEncoded cap (rawSend cap payload seq)
      (fun b => rawSendBatch cap b payload seq) (fun buf => encode payload buf seq)) ∧
    ∀ src : Buf, Encodes (fun buf => encode (.ptr src) buf seq) (8 + src.bytes.length) := by
  refine ⟨fun n tag obj => ⟨?_, podEncodeTo_encodes tag obj seq⟩,
    fun M P msg hname hlt => ⟨?_, protoEncodeTo_encodes hname hlt seq⟩, fun payload => ?_,
    fun src => encode_encodes src seq⟩
  · have hpod : ∀ buf count out, podEncodeTo tag obj buf seq = some (count, out) → count ≠ 0 →
        Spells ((podCodec n tag).write obj) (podPayload tag obj) ∧
          Writes ((podCodec n tag).payloadLen obj) seq (podPayload tag obj) count out := by
      intro buf count out henc hc
      obtain ⟨hn, hw⟩ := podEncodeTo_writes henc hc
      exact ⟨podCodec_spells hn tag obj, hw⟩
    exact sendsAsEncoded hpod
  · unfold TypedCodec.send TypedCodec.sendBatch
    by_cases ha : (protoCodec P).admits cap msg
    · simp only [if_pos ha]
      exact sendsAsEncoded fun buf count out henc hc =>
        ⟨protoCodec_spells hname hlt, protoEncodeTo_writes hname hlt henc hc⟩
    · simp only [if_neg ha]
      exact sendsAsEncoded_refused
  · unfold rawSend rawSendBatch
    by_cases hbig : cap.maxWriteSize < payload.len.toNat
    · simp only [if_pos hbig]
      exact sendsAsEncoded_refused
    · simp only [if_neg hbig]
      have hcap := cap.lt
      have hlen : payload.len.toNat ≤ 4294967287 := by
        unfold Capacity.maxWriteSize at hbig
        omega
      exact sendsAsEncoded fun buf count out henc hc =>
        ⟨rawWrite_spells payload, encode_writes hlen henc hc⟩

/-- A message type with a name of one byte, serialised to two. -/
def greeting : Proto Unit where
  typeName := [71]
  serialize _ := [1, 2]
  parse _ := some ()

/-- Its frame, sent across the ring end and encoded to a buffer of 16 bytes. -/
theorem ring_send_eq_encode_greeting :
    greeting.typeName.length < 65536 ∧ (greeting.serialize ()).length < 2147483648 ∧
    ∃ g', Runs .min ((protoCodec greeting).send .min () 7) (.empty 1020 fun _ => 0) (.ret 0) g' ∧
      g'.published = [5, 0, 0, 0, 7, 0, 0, 0, 1, 0, 71, 1, 2] := by
  have hrun := Prog.exec_run (World.exec .min) rStep_refl ((protoCodec greeting).send .min () 7)
    (.empty 1020 fun _ => 0)
  have hout : (((protoCodec greeting).send .min () 7).run (World.exec .min)
      (.empty 1020 fun _ => 0)).1 = .ret 0 := by decide
  rw [hout] at hrun
  refine ⟨by decide, by decide, _, hrun, ?_⟩
  exact ((ring_send_eq_encode .min 7).2.1 Unit greeting () (by decide) (by decide)).1.send 1020 _ _
    ⟨List.replicate 16 0, by decide⟩ 13 [5, 0, 0, 0, 7, 0, 0, 0, 1, 0, 71, 1, 2, 0, 0, 0]
    (inv_empty .min 1020 _) hrun (by decide) (by decide)

end ShmIpc.Codec.Encode
