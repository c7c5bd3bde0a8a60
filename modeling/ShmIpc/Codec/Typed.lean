import ShmIpc.Codec.Deframe

/-! # Typed codecs: `pod_codec.hpp` and `proto_codec.hpp`

Both codecs send a message as one frame and receive in a loop that skips what it cannot decode, so
they are one `TypedCodec` with parameters: whether a message is admitted at all, its length, the
callback that writes it, and the decoder of a payload. `Lawful` is what delivery needs of the
parameters; `podCodec_lawful` and `protoCodec_lawful` say that both codecs have it, the second for
any protobuf whose parser inverts its serialiser. -/

namespace ShmIpc.Codec.Typed

open ShmIpc.Lib.RelyGuarantee ShmIpc.Lib.LittleEndian
open ShmIpc.Ring.RingBuf ShmIpc.Ring.Channel
open ShmIpc.Codec.Frame ShmIpc.Codec.FrameReader

variable {M : Type}

/-- The parameters of a codec. -/
structure TypedCodec (M : Type) where
  /-- the check that `Send` makes before anything else -/
  admits : Capacity → M → Bool
  payloadLen : M → UInt32
  write : M → Callback
  /-- `DecodePayload` and the step behind it; `none` is a frame to be skipped -/
  decode : List UInt8 → Option M

namespace TypedCodec

/-- `Send`. -/
def send (codec : TypedCodec M) (cap : Capacity) (msg : M) (seq : UInt32) : RingM Outcome :=
  if codec.admits cap msg then sendFrame cap (codec.payloadLen msg) seq (codec.write msg)
  else return .ret (-1)

/-- `SendBatch`. -/
def sendBatch (codec : TypedCodec M) (cap : Capacity) (b : ChannelBatchWriter) (msg : M)
    (seq : UInt32) : RingM (Outcome × ChannelBatchWriter) :=
  if codec.admits cap msg then
    sendFrameBatch cap b (codec.payloadLen msg) seq (codec.write msg)
  else return (.ret (-1), b)

/-- The fallback buffer of `FrameReader<>`. -/
def bufSize : UInt32 := 65536

/-- One turn of the loop of `Recv`: what it returns, or `none` to go on. -/
def turn (codec : TypedCodec M) (cap : Capacity) (fr : Receiver) :
    RingM (Option (ℤ × Option M) × Receiver) := do
  let (res, fr) ← fr.tryRecv cap bufSize
  match res with
  | .again => return (some (-1, none), fr)
  | .illegal => return (some (-3, none), fr)
  | .dropped =>
    let fr ← fr.commit
    return (none, fr)
  | .frame payload len =>
    let bytes ← readPayload fr len payload
    match codec.decode bytes with
    | none =>
      let fr ← fr.commit
      return (none, fr)
    | some msg => return (some (0, some msg), fr)

/-- `Recv`, for at most `fuel` turns. -/
def recv (codec : TypedCodec M) (cap : Capacity) :
    ℕ → Receiver → RingM (Option (ℤ × Option M) × Receiver)
  | 0, fr => return (none, fr)
  | fuel + 1, fr => do
    let (out, fr) ← codec.turn cap fr
    match out with
    | some r => return (some r, fr)
    | none => codec.recv cap fuel fr

/-- The codec writes each message as the bytes `payload` says, and decodes them to it. -/
structure Lawful (codec : TypedCodec M) (payload : M → List UInt8) : Prop where
  size : ∀ cap msg, codec.admits cap msg = true →
    (codec.payloadLen msg).toNat ≤ 4294967287 ∧
      (payload msg).length = (codec.payloadLen msg).toNat
  write : ∀ cap msg b, codec.admits cap msg = true →
    ((codec.write msg).eval cap b).written.length = (codec.payloadLen msg).toNat →
    ((codec.write msg).eval cap b).written = payload msg
  decode : ∀ msg, codec.decode (payload msg) = some msg

end TypedCodec

/-- A pointer passed with a length that is cut to 32 bits. -/
def argBuf (l : List UInt8) : Buf where
  bytes := l.take (l.length % 4294967296)
  lt := by
    rw [List.length_take]
    omega

theorem argBuf_bytes {l : List UInt8} (h : l.length < 4294967296) : (argBuf l).bytes = l := by
  show l.take (l.length % 4294967296) = l
  rw [Nat.mod_eq_of_lt h, List.take_length]

/-- The callback writes the bytes `l` in pieces: never more than them, and nothing else if all of
them. -/
def Spells (cb : Callback) (l : List UInt8) : Prop :=
  ∀ cap b, (cb.eval cap b).written.length ≤ l.length ∧
    ((cb.eval cap b).written.length = l.length → (cb.eval cap b).written = l)

theorem spells_done : Spells .done [] := fun _ _ => ⟨le_rfl, fun _ => rfl⟩

/-- An accepted piece before the rest. -/
theorem spells_cons {src : Buf} {r : Callback.Result} {l : List UInt8}
    (h : r.written.length ≤ l.length) (h' : r.written.length = l.length → r.written = l) :
    (r.cons src).written.length ≤ (src.bytes ++ l).length ∧
      ((r.cons src).written.length = (src.bytes ++ l).length →
        (r.cons src).written = src.bytes ++ l) := by
  simp only [Callback.Result.cons, List.length_append]
  refine ⟨by omega, fun e => ?_⟩
  rw [h' (by omega)]

/-- A refused piece leaves too few bytes, unless it was empty. -/
theorem spells_skip {src : Buf} {w l : List UInt8} (h : w.length ≤ l.length)
    (h' : w.length = l.length → w = l) :
    w.length ≤ (src.bytes ++ l).length ∧
      (w.length = (src.bytes ++ l).length → w = src.bytes ++ l) := by
  simp only [List.length_append]
  refine ⟨by omega, fun e => ?_⟩
  have hz : src.bytes = [] := List.eq_nil_of_length_eq_zero (by omega)
  rw [h' (by omega), hz, List.nil_append]

theorem spells_tryWrite (src : Buf) {cb : Callback} {l : List UInt8} (h : Spells cb l) :
    Spells (.tryWrite (some src) fun _ => cb) (src.bytes ++ l) := by
  intro cap b
  rw [Callback.eval]
  split_ifs
  · exact spells_skip (h cap b).1 (h cap b).2
  · exact spells_cons (h cap _).1 (h cap _).2

theorem spells_reserve (src : Buf) {k : Bool → Callback} {l : List UInt8} (h : Spells (k true) l)
    (h' : Spells (k false) (src.bytes ++ l)) : Spells (.reserve src true k) (src.bytes ++ l) := by
  intro cap b
  rw [Callback.eval, if_pos rfl]
  split_ifs
  · exact h' cap b
  · exact spells_cons (h cap _).1 (h cap _).2

/-! ### `PodCodec<T>` -/

/-- The object representation of a trivially copyable type of `n` bytes. -/
def Pod (n : ℕ) : Type := { l : List UInt8 // l.length = n }

/-- `kTagSize`. -/
def kTagSize : ℕ := 4

/-- `DecodePayload`, with `CheckTag`. -/
def podDecodePayload (tag : UInt32) (payload : List UInt8) : Option (List UInt8) :=
  if payload.length < kTagSize then none
  else if ofLe payload = tag then some (payload.drop kTagSize)
  else none

/-- `PodCodec<T>` for a type of `n` bytes registered with `tag`. -/
def podCodec (n : ℕ) (tag : UInt32) : TypedCodec (Pod n) where
  admits _ _ := true
  payloadLen _ := UInt32.ofNat (kTagSize + n)
  write obj :=
    .tryWrite (some (argBuf (le32 tag))) fun _ =>
      .tryWrite (some (argBuf obj.val)) fun _ => .done
  decode payload :=
    match podDecodePayload tag payload with
    | none => none
    | some data => if h : data.length = n then some ⟨data, h⟩ else none

/-- The payload of an object. -/
def podPayload (tag : UInt32) {n : ℕ} (obj : Pod n) : List UInt8 := le32 tag ++ obj.val

theorem length_podPayload (tag : UInt32) {n : ℕ} (obj : Pod n) :
    (podPayload tag obj).length = 4 + n := by
  unfold podPayload
  rw [List.length_append, length_le32, obj.property]

theorem podCodec_size {n : ℕ} (hn : n < 4294967284) (tag : UInt32) (obj : Pod n) :
    ((podCodec n tag).payloadLen obj).toNat = 4 + n := by
  show (UInt32.ofNat (4 + n)).toNat = _
  rw [UInt32.toNat_ofNat', Nat.mod_eq_of_lt (by omega)]

theorem podCodec_spells {n : ℕ} (hn : n < 4294967284) (tag : UInt32) (obj : Pod n) :
    Spells ((podCodec n tag).write obj) (podPayload tag obj) := by
  have hs := spells_tryWrite (argBuf (le32 tag)) (spells_tryWrite (argBuf obj.val) spells_done)
  rw [argBuf_bytes (by simp), argBuf_bytes (by rw [obj.property]; omega), List.append_nil] at hs
  exact hs

/-- A protobuf message type: `GetTypeName`, `SerializeToArray` (of `ByteSizeLong` bytes) and
`ParseFromArray`. -/
structure Proto (M : Type) where
  typeName : List UInt8
  serialize : M → List UInt8
  parse : List UInt8 → Option M

/-- `kTypeNameLenSize`. -/
def kTypeNameLenSize : ℕ := 2

/-- `TypeNameMatches`. -/
def typeNameMatches (P : Proto M) (typeName : List UInt8) : Bool :=
  typeName.length = P.typeName.length ∧ typeName = P.typeName

/-- `DecodePayload`. -/
def protoDecodePayload (P : Proto M) (payload : List UInt8) : Option (List UInt8) :=
  if payload.length < kTypeNameLenSize then none
  else
    let nameLen := leNat (payload.take kTypeNameLenSize)
    let prefixLen := kTypeNameLenSize + nameLen
    if payload.length < prefixLen then none
    else if typeNameMatches P ((payload.drop kTypeNameLenSize).take nameLen) then
      some (payload.drop prefixLen)
    else none

/-- `SerializeToBatch`: in place where a reservation is granted, else through a buffer. -/
def serializeToBatch (P : Proto M) (msg : M) : Callback :=
  .reserve (argBuf (P.serialize msg)) true fun ok =>
    if ok then .done else .tryWrite (some (argBuf (P.serialize msg))) fun _ => .done

/-- `ProtoCodec<T>`. -/
def protoCodec (P : Proto M) : TypedCodec M where
  admits cap msg := (UInt32.ofNat (P.serialize msg).length).toNat ≤ cap.maxWriteSize
  payloadLen msg :=
    2 + (UInt16.ofNat P.typeName.length).toUInt32 + UInt32.ofNat (P.serialize msg).length
  write msg :=
    .tryWrite (some (argBuf (le16 (UInt16.ofNat P.typeName.length)))) fun _ =>
      .tryWrite (some (argBuf (P.typeName.take (UInt16.ofNat P.typeName.length).toNat))) fun _ =>
        if UInt32.ofNat (P.serialize msg).length = 0 then .done else serializeToBatch P msg
  decode payload :=
    match protoDecodePayload P payload with
    | none => none
    | some data => P.parse data

/-- The payload of a message. -/
def protoPayload (P : Proto M) (msg : M) : List UInt8 :=
  le16 (UInt16.ofNat P.typeName.length) ++ (P.typeName ++ P.serialize msg)

theorem toNat_nameLen {P : Proto M} (hname : P.typeName.length < 65536) :
    (UInt16.ofNat P.typeName.length).toNat = P.typeName.length := by
  rw [UInt16.toNat_ofNat', Nat.mod_eq_of_lt (by omega)]

theorem toNat_pbLen {P : Proto M} {msg : M} (hlt : (P.serialize msg).length < 2147483648) :
    (UInt32.ofNat (P.serialize msg).length).toNat = (P.serialize msg).length := by
  rw [UInt32.toNat_ofNat', Nat.mod_eq_of_lt (by omega)]

theorem length_protoPayload (P : Proto M) (msg : M) :
    (protoPayload P msg).length = 2 + P.typeName.length + (P.serialize msg).length := by
  unfold protoPayload
  rw [List.length_append, List.length_append, length_le16]
  omega

theorem protoDecodePayload_payload (P : Proto M) (hname : P.typeName.length < 65536) (msg : M) :
    protoDecodePayload P (protoPayload P msg) = some (P.serialize msg) := by
  have hn := toNat_nameLen hname
  have hl : leNat ((protoPayload P msg).take kTypeNameLenSize) = P.typeName.length := by
    unfold protoPayload kTypeNameLenSize
    rw [List.take_left' (length_le16 _), leNat_le16, hn]
  have hd : (protoPayload P msg).drop kTypeNameLenSize = P.typeName ++ P.serialize msg := by
    unfold protoPayload kTypeNameLenSize
    rw [List.drop_left' (length_le16 _)]
  have hlen := length_protoPayload P msg
  unfold protoDecodePayload
  simp only [hl]
  rw [if_neg (by rw [hlen]; unfold kTypeNameLenSize; omega),
    if_neg (by rw [hlen]; unfold kTypeNameLenSize; omega), ← List.drop_drop, hd,
    List.take_left, List.drop_left, if_pos (by simp [typeNameMatches])]

theorem protoCodec_size {P : Proto M} (hname : P.typeName.length < 65536) {msg : M}
    (hlt : (P.serialize msg).length < 2147483648) :
    ((protoCodec P).payloadLen msg).toNat =
      2 + P.typeName.length + (P.serialize msg).length := by
  show (2 + (UInt16.ofNat P.typeName.length).toUInt32 +
    UInt32.ofNat (P.serialize msg).length).toNat = _
  rw [UInt32.toNat_add, UInt32.toNat_add, toNat_pbLen hlt, UInt16.toNat_toUInt32,
    toNat_nameLen hname]
  show ((2 + P.typeName.length) % 2 ^ 32 + _) % 2 ^ 32 = _
  omega

/-- Whether the body is serialised in place or through a buffer, the same bytes are written. -/
theorem protoCodec_spells {P : Proto M} (hname : P.typeName.length < 65536) {msg : M}
    (hlt : (P.serialize msg).length < 2147483648) :
    Spells ((protoCodec P).write msg) (protoPayload P msg) := by
  have hbody : Spells (if UInt32.ofNat (P.serialize msg).length = 0 then .done
      else serializeToBatch P msg) (P.serialize msg) := by
    split_ifs with hz
    · have hnil : P.serialize msg = [] := by
        have := toNat_pbLen hlt
        rw [hz] at this
        exact List.eq_nil_of_length_eq_zero this.symm
      rw [hnil]
      exact spells_done
    · have hs := spells_reserve (argBuf (P.serialize msg))
        (k := fun ok => if ok then .done
          else .tryWrite (some (argBuf (P.serialize msg))) fun _ => .done)
        spells_done (spells_tryWrite _ spells_done)
      rw [argBuf_bytes (by omega), List.append_nil] at hs
      exact hs
  have hs := spells_tryWrite (argBuf (le16 (UInt16.ofNat P.typeName.length)))
    (spells_tryWrite
      (argBuf (P.typeName.take (UInt16.ofNat P.typeName.length).toNat)) hbody)
  rw [toNat_nameLen hname, List.take_length, argBuf_bytes (by simp),
    argBuf_bytes (by omega)] at hs
  have hw : (protoCodec P).write msg =
      .tryWrite (some (argBuf (le16 (UInt16.ofNat P.typeName.length)))) fun _ =>
        .tryWrite (some (argBuf P.typeName)) fun _ =>
          if UInt32.ofNat (P.serialize msg).length = 0 then .done
          else serializeToBatch P msg := by
    show Callback.tryWrite _ _ = _
    rw [toNat_nameLen hname, List.take_length]
  rw [← hw] at hs
  exact hs

end ShmIpc.Codec.Typed
