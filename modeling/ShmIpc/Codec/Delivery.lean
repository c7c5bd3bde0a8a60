import ShmIpc.Codec.Typed
import ShmIpc.Lib.Threads

/-! # Delivery by the typed codecs

A sender and a receiver of one message type, interleaved access by access: the sender sends
directly or in batches, the receiver takes turns of its `Recv` loop. The sender's contract says that
the published stream is the frames of the accepted messages, the receiver's that it has parsed it
frame by frame; a frame that crosses the ring end and is larger than the fallback buffer is the only
one that the receiver skips. -/

namespace ShmIpc.Codec.Delivery

open Relation
open ShmIpc.Lib.RelyGuarantee ShmIpc.Lib.Threads ShmIpc.Lib.LittleEndian
open ShmIpc.Ring.RingBuf ShmIpc.Ring.History ShmIpc.Ring.Writer ShmIpc.Ring.Reader
open ShmIpc.Ring.Channel
open ShmIpc.Codec.Frame ShmIpc.Codec.FrameReader ShmIpc.Codec.Deframe ShmIpc.Codec.Typed

variable {M : Type} {codec : TypedCodec M} {payload : M → List UInt8} {cap : Capacity} {base : ℕ}
  {g g' : World}

/-! ### The sender -/

/-- The sender between two calls. -/
structure SenderLoc (M : Type) where
  batch : Option ChannelBatchWriter
  /-- messages for which `SendBatch` returned `0` since the last flush, with their numbers -/
  pending : List (M × UInt32)
  /-- messages for which `Send` returned `0`, or `SendBatch` did before a flush -/
  accepted : List (M × UInt32)

/-- The calls of the sender. -/
inductive SendCall (codec : TypedCodec M) (cap : Capacity) :
    SenderLoc M → World → RingM (SenderLoc M) → Prop
  | send {l : SenderLoc M} {g : World} (h : l.batch = none) (msg : M) (seq : UInt32) :
      SendCall codec cap l g (do
        let out ← codec.send cap msg seq
        if out = .ret 0 then
          return { l with accepted := l.accepted ++ [(msg, seq)] }
        return l)
  | startBatch {l : SenderLoc M} {g : World} (h : l.batch = none) :
      SendCall codec cap l g (do
        let b ← startBatch
        return { l with batch := some b, pending := [] })
  | sendBatch {l : SenderLoc M} {g : World} {b : ChannelBatchWriter} (h : l.batch = some b)
      (msg : M) (seq : UInt32) :
      SendCall codec cap l g (do
        let (out, b') ← codec.sendBatch cap b msg seq
        if out = .ret 0 then
          return { l with batch := some b', pending := l.pending ++ [(msg, seq)] }
        return { l with batch := some b' })
  | flush {l : SenderLoc M} {g : World} {b : ChannelBatchWriter} (h : l.batch = some b) :
      SendCall codec cap l g (do
        let (_, b') ← b.flush
        return { batch := some b', pending := [], accepted := l.accepted ++ l.pending })
  | cancel {l : SenderLoc M} {g : World} {b : ChannelBatchWriter} (h : l.batch = some b) :
      SendCall codec cap l g (return { l with batch := some b.cancel, pending := [] })
  | done {l : SenderLoc M} {g : World} {b : ChannelBatchWriter} (h : l.batch = some b) :
      SendCall codec cap l g (do
        b.destroy
        return { batch := none, pending := [], accepted := l.accepted ++ l.pending })

/-- The frame of a numbered message. -/
def frameOf (payload : M → List UInt8) (x : M × UInt32) : List UInt8 × UInt32 := (payload x.1, x.2)

/-- The bytes of numbered messages. -/
def streamOf (payload : M → List UInt8) (ms : List (M × UInt32)) : List UInt8 :=
  (ms.map (frameOf payload)).flatMap encode

theorem streamOf_append (ms ms' : List (M × UInt32)) :
    streamOf payload (ms ++ ms') = streamOf payload ms ++ streamOf payload ms' := by
  simp [streamOf]

/-- What the sender keeps between its calls. -/
structure SendInv (payload : M → List UInt8) (cap : Capacity) (base : ℕ) (l : SenderLoc M)
    (g : World) : Prop where
  inv : Inv cap base g
  stream : g.published = streamOf payload l.accepted
  small : ∀ x ∈ l.accepted ++ l.pending, (payload x.1).length ≤ cap.val - 8
  batch : ∀ b, l.batch = some b → b.channel = true ∧
    ∃ rc, Pending cap base g b.batch rc (streamOf payload l.pending)

/-- The frame that the callback made is the frame of the message. -/
theorem header_written (hl : codec.Lawful payload) {msg : M} {seq : UInt32} {b : BatchWriter}
    (ha : codec.admits cap msg = true)
    (h : (frameResult cap (codec.write msg) b).written.length = (codec.payloadLen msg).toNat) :
    MsgHeader.bytes ⟨codec.payloadLen msg, seq⟩ ++ (frameResult cap (codec.write msg) b).written =
      streamOf payload [(msg, seq)] := by
  obtain ⟨h1, h2⟩ := hl.size cap msg ha
  have h3 : (frameResult cap (codec.write msg) b).written = payload msg := hl.write cap msg _ ha h
  rw [h3]
  simp only [streamOf, List.map_cons, List.map_nil, List.flatMap_cons, List.flatMap_nil,
    List.append_nil, encode, frameOf]
  rw [h2, UInt32.ofNat_toNat]

theorem SendInv.pending {l : SenderLoc M} (h : SendInv payload cap base l g)
    {b : ChannelBatchWriter} (hb : l.batch = some b) :
    ∃ bw rc, b = ⟨bw, true⟩ ∧ Pending cap base g bw rc (streamOf payload l.pending) := by
  obtain ⟨hch, rc, hp⟩ := h.batch b hb
  obtain ⟨bw, channel⟩ := b
  subst hch
  exact ⟨bw, rc, rfl, hp⟩

/-- The world has moved without a publication. -/
theorem SendInv.moved {l : SenderLoc M} (h : SendInv payload cap base l g) (hi : Inv cap base g')
    (hp : g'.published = g.published) (hb : l.batch = none) : SendInv payload cap base l g' :=
  ⟨hi, by rw [hp]; exact h.stream, h.small, fun b hb' => absurd hb' (by simp [hb])⟩

/-- The same while a batch holds messages. -/
theorem SendInv.batched {l : SenderLoc M} {bw : BatchWriter} {rc : ℕ} {ms : List (M × UInt32)}
    (h : SendInv payload cap base l g) (hp : g'.published = g.published)
    (hsmall : ∀ x ∈ ms, (payload x.1).length ≤ cap.val - 8)
    (hb : Pending cap base g' bw rc (streamOf payload ms)) :
    SendInv payload cap base { l with batch := some ⟨bw, true⟩, pending := ms } g' := by
  refine ⟨hb.inv, by rw [hp]; exact h.stream, fun x hx => ?_, fun b hb' => ?_⟩
  · rcases List.mem_append.mp hx with hx | hx
    · exact h.small x (List.mem_append_left _ hx)
    · exact hsmall x hx
  · cases hb'
    exact ⟨rfl, rc, hb⟩

theorem send_wp (hlaw : codec.Lawful payload) {l : SenderLoc M}
    (h : SendInv payload cap base l g) (hb : l.batch = none) (msg : M) (seq : UInt32) :
    wpW cap base (do
      let out ← codec.send cap msg seq
      if out = .ret 0 then
        return { l with accepted := l.accepted ++ [(msg, seq)] }
      return l) (SendInv payload cap base) g := by
  unfold TypedCodec.send
  rw [wpW, Prog.wp_bind]
  split_ifs with ha
  · obtain ⟨hsz, hpl⟩ := hlaw.size cap msg ha
    refine sendFrame_spec h.inv hsz (fun rc g' _ _ hfit hw hfl => ?_) fun out g' ho hw => ?_
    · rw [header_written hlaw ha hw] at hfl
      refine ⟨hfl.inv, ?_, ?_, fun b hb' => absurd hb' (by simp [hb])⟩
      · rw [hfl.published, h.stream, ← streamOf_append]
      · intro x hx
        simp only [List.mem_append, List.mem_singleton] at hx
        rcases hx with (hx | rfl) | hx
        · exact h.small x (by simp [hx])
        · rw [hpl]; omega
        · exact h.small x (by simp [hx])
    · rw [if_neg (by rcases ho with rfl | rfl <;> decide)]
      exact h.moved hw.inv (by rw [hw.published, List.append_nil]) hb
  · exact h.moved h.inv rfl hb

theorem sendBatch_wp (hlaw : codec.Lawful payload) {l : SenderLoc M} {b : ChannelBatchWriter}
    (h : SendInv payload cap base l g) (hb : l.batch = some b) (msg : M) (seq : UInt32) :
    wpW cap base (do
      let (out, b') ← codec.sendBatch cap b msg seq
      if out = .ret 0 then
        return { l with batch := some b', pending := l.pending ++ [(msg, seq)] }
      return { l with batch := some b' }) (SendInv payload cap base) g := by
  obtain ⟨bw, rc, rfl, hp⟩ := h.pending hb
  have hsmall : ∀ x ∈ l.pending, (payload x.1).length ≤ cap.val - 8 :=
    fun x hx => h.small x (List.mem_append_right _ hx)
  unfold TypedCodec.sendBatch
  rw [wpW, Prog.wp_bind]
  split_ifs with ha
  · obtain ⟨hsz, hpl⟩ := hlaw.size cap msg ha
    refine sendFrameBatch_spec hp hsz (fun g' hF hw hp' => ?_) fun out g' _ ho hw hp' => ?_
    · rw [header_written hlaw ha hF.2.2, ← streamOf_append] at hp'
      refine h.batched (by rw [hw.published, List.append_nil]) (fun x hx => ?_) hp'
      rcases List.mem_append.mp hx with hx | hx
      · exact hsmall x hx
      · have h1 := hF.1
        have h2 := hp.toNat_freeBytes
        have h3 := hp.le
        have h4 := hp.inv.le
        rw [List.mem_singleton.mp hx, hpl]
        omega
    · have hne : out ≠ .ret 0 := by rcases ho with rfl | rfl <;> decide
      simp only []
      rw [if_neg hne]
      exact h.batched (by rw [hw.published, List.append_nil]) hsmall hp'
  · exact h.batched rfl hsmall hp

theorem sendCall_wp (hlaw : codec.Lawful payload) {l : SenderLoc M} {p : RingM (SenderLoc M)}
    (h : SendInv payload cap base l g) (hc : SendCall codec cap l g p) :
    wpW cap base p (SendInv payload cap base) g := by
  cases hc with
  | send hb msg seq => exact send_wp hlaw h hb msg seq
  | startBatch hb =>
    rw [wpW, Prog.wp_bind]
    refine startBatch_spec h.inv fun b g' hw _ hp => ?_
    exact h.batched (by rw [hw.published, List.append_nil])
      (fun x hx => absurd hx List.not_mem_nil) hp
  | sendBatch hb msg seq => exact sendBatch_wp hlaw h hb msg seq
  | flush hb =>
    obtain ⟨bw, rc, rfl, hp⟩ := h.pending hb
    rw [wpW, Prog.wp_bind]
    refine channelFlush_spec hp fun g' hfl hp' => ⟨hfl.inv, ?_, ?_, fun b' hb' => ?_⟩
    · rw [hfl.published, h.stream, ← streamOf_append]
    · intro x hx
      exact h.small x (by simpa using hx)
    · cases hb'
      exact ⟨rfl, rc, hp'⟩
  | cancel hb =>
    obtain ⟨bw, rc, rfl, hp⟩ := h.pending hb
    exact h.batched rfl (fun x hx => absurd hx List.not_mem_nil) hp.cancel
  | done hb =>
    obtain ⟨bw, rc, rfl, hp⟩ := h.pending hb
    unfold ChannelBatchWriter.destroy
    rw [wpW, Prog.wp_bind, Prog.wp_bind]
    refine channelFlush_spec hp fun g₁ hfl hp₁ => ?_
    rw [Prog.wp_bind]
    refine flush_spec hp₁ fun g₂ h₂ _ => ⟨h₂.inv, ?_, ?_, fun b' hb' => absurd hb' (by simp)⟩
    · rw [h₂.published, List.append_nil, hfl.published, h.stream, ← streamOf_append]
    · intro x hx
      exact h.small x (by simpa using hx)

theorem send_contract (hlaw : codec.Lawful payload) (cap : Capacity) (base : ℕ) :
    Contract (World.exec cap) RStep (WStep cap base) (SendCall codec cap)
      (SendInv payload cap base) (fun _ g => Inv cap base g) where
  call := sendCall_wp hlaw
  stable h hr := by
    refine ⟨hr.inv h.inv, by rw [hr.published]; exact h.stream, h.small, fun b hb => ?_⟩
    obtain ⟨hch, rc, hp⟩ := h.batch b hb
    exact ⟨hch, rc, hp.rStep hr⟩
  weak h := h.inv
  keepRely h hr := hr.inv h
  keepGuar h hw := hw.inv h

/-! ### The receiver -/

/-- The receiver between two turns of its loop, with the messages that `Recv` has returned. -/
structure RecvLoc (M : Type) where
  fr : Receiver
  got : List M

/-- The message that a turn returns. -/
def msgOf : Option (ℤ × Option M) → List M
  | some (_, some msg) => [msg]
  | _ => []

/-- The calls of the receiver: turns of the loop of `Recv`. -/
inductive RecvCall (codec : TypedCodec M) (cap : Capacity) :
    RecvLoc M → World → RingM (RecvLoc M) → Prop
  | turn {l : RecvLoc M} {g : World} :
      RecvCall codec cap l g (do
        let (out, fr') ← codec.turn cap l.fr
        return { fr := fr', got := l.got ++ msgOf out })

/-- The message that a result of `TryRecv` gives rise to. -/
def deliver (codec : TypedCodec M) (r : Result) : Option M :=
  if r.rc = 0 then codec.decode r.payload else none

/-- The results `rs` take the reference parser from `(p, last)` to `(q, last')` in the stream
`P`. -/
inductive Parsed (cap : Capacity) (bufSize : UInt32) (base : ℕ) (P : List UInt8) :
    ℕ → UInt32 → List Result → ℕ → UInt32 → Prop
  | nil {p : ℕ} {last : UInt32} : Parsed cap bufSize base P p last [] p last
  | cons {p q q' : ℕ} {last last' : UInt32} {r : Result} {rs : List Result}
      (h : refStep cap bufSize base P p last = some (r, q))
      (rest : Parsed cap bufSize base P q r.lastSeq rs q' last') :
      Parsed cap bufSize base P p last (r :: rs) q' last'

variable {bufSize : UInt32}

theorem Parsed.mono {P P' : List UInt8} {p q : ℕ} {last last' : UInt32} {rs : List Result}
    (h : Parsed cap bufSize base P p last rs q last') (hP : P <+: P') :
    Parsed cap bufSize base P' p last rs q last' := by
  induction h with
  | nil => exact .nil
  | cons hstep _ ih => exact .cons (refStep_mono hP hstep) ih

theorem Parsed.snoc {P : List UInt8} {p q q' : ℕ} {last last' : UInt32} {rs : List Result}
    {r : Result} (h : Parsed cap bufSize base P p last rs q last')
    (hstep : refStep cap bufSize base P q last' = some (r, q')) :
    Parsed cap bufSize base P p last (rs ++ [r]) q' r.lastSeq := by
  induction h with
  | nil => exact .cons hstep .nil
  | cons hstep' _ ih => exact .cons hstep' (ih hstep)

/-- What one turn does: it waits, or takes a step of the reference parser and returns its
result. -/
inductive TurnPost (codec : TypedCodec M) (cap : Capacity) (base : ℕ) (S : List UInt8) (p : ℕ)
    (last : UInt32) : Option (ℤ × Option M) → ℕ → UInt32 → Prop
  | wait (h : refStep cap TypedCodec.bufSize base S p last = none) :
      TurnPost codec cap base S p last (some (-1, none)) p last
  | illegal {r : Result} {q : ℕ}
      (h : refStep cap TypedCodec.bufSize base S p last = some (r, q)) (hrc : r.rc = -3) :
      TurnPost codec cap base S p last (some (-3, none)) q r.lastSeq
  | skip {r : Result} {q : ℕ} (h : refStep cap TypedCodec.bufSize base S p last = some (r, q))
      (hr : deliver codec r = none) (hq : p < q) : TurnPost codec cap base S p last none q r.lastSeq
  | take {r : Result} {q : ℕ} {msg : M}
      (h : refStep cap TypedCodec.bufSize base S p last = some (r, q))
      (hr : deliver codec r = some msg) :
      TurnPost codec cap base S p last (some (0, some msg)) q r.lastSeq

theorem lt_of_refStep {S : List UInt8} {p q : ℕ} {last : UInt32} {r : Result}
    (h : refStep cap bufSize base S p last = some (r, q)) (hrc : r.rc ≠ -3) : p < q := by
  unfold refStep at h
  split_ifs at h <;> cases h
  · exact absurd rfl hrc
  · omega
  · omega

/-- **One turn.** -/
theorem turn_spec {Q : Option (ℤ × Option M) × Receiver → World → Prop} {fr : Receiver}
    (hi : Inv cap base g) (hp : fr.next g ≤ g.published.length)
    (h : ∀ S out fr' g', g.published <+: S → S <+: g'.published → Inv cap base g' →
      fr'.next g' ≤ g'.published.length →
      TurnPost codec cap base S (fr.next g) fr.lastSeq out (fr'.next g') fr'.lastSeq →
      Q (out, fr') g') :
    wpR cap base (codec.turn cap fr) Q g := by
  unfold TypedCodec.turn
  rw [wpR, Prog.wp_bind]
  refine tryRecv_spec hi hp fun S res fr₁ g₁ h1 h2 ht hpost => ?_
  have hc : g₁.consumed = fr.next g := ht.consumed
  have hnext : fr₁.next g₁ = fr.next g + fr₁.pendingCommit.toNat := by
    unfold Receiver.next
    rw [hc]; rfl
  have hle : fr₁.next g₁ ≤ g₁.published.length := by
    rw [hnext]
    exact (next_le_of_recvPost hpost (hp.trans h1.length_le)).trans h2.length_le
  have hstep := refStep_of_recvPost hpost
  rw [← hnext] at hstep
  -- a skipped frame is released at once
  have hcommit : ∀ {g₂ : World}, Took cap base g₁ 0 g₂ →
      TurnPost codec cap base S (fr.next g) fr.lastSeq none (fr₁.next g₁) fr₁.lastSeq →
      wpR cap base (do
        let fr ← fr₁.commit
        pure (none, fr)) Q g₂ := by
    intro g₂ h₂ hpost'
    have hc₂ : fr₁.next g₂ = fr₁.next g₁ := by
      unfold Receiver.next
      rw [h₂.consumed]; rfl
    rw [wpR, Prog.wp_bind]
    refine commit_spec h₂.inv (by rw [hc₂]; exact hle.trans h₂.length_le) fun g₃ h₃ => ?_
    have hc₃ : fr₁.released.next g₃ = fr₁.next g₁ := by
      rw [← hc₂]
      unfold Receiver.next
      rw [h₃.consumed]; rfl
    refine h S none fr₁.released g₃ h1 ((h2.trans h₂.published).trans h₃.published) h₃.inv ?_ ?_
    · rw [hc₃]
      exact (hle.trans h₂.length_le).trans h₃.length_le
    · rw [hc₃]
      exact hpost'
  cases res with
  | again =>
    rcases hstep with ⟨hnone, -, rfl⟩ | hsome
    · have e : fr.released.next g₁ = fr.next g := hnext
      refine h S _ _ g₁ h1 h2 ht.inv hle ?_
      rw [e]
      exact .wait hnone
    · exact absurd rfl (refStep_rc hsome)
  | illegal =>
    rcases hstep with ⟨-, hne, -⟩ | hsome
    · exact absurd hne (by simp)
    · exact h S _ _ g₁ h1 h2 ht.inv hle (.illegal hsome rfl)
  | dropped =>
    rcases hstep with ⟨-, hne, -⟩ | hsome
    · exact absurd hne (by simp)
    · exact hcommit (took_refl ht.inv)
        (.skip hsome rfl (lt_of_refStep hsome (by simp [Recv.rc])))
  | frame ptr len =>
    rcases hstep with ⟨-, hne, -⟩ | hsome
    · exact absurd hne (by simp)
    show wpR cap base (readPayload fr₁ len ptr >>= _) Q g₁
    rw [wpR, Prog.wp_bind]
    refine readPayload_spec ht.inv h2 (le_of_eq hc) hpost fun g₂ h₂ => ?_
    have hc₂ : fr₁.next g₂ = fr₁.next g₁ := by
      unfold Receiver.next
      rw [h₂.consumed]; rfl
    rcases hd : codec.decode (bodyAt S (fr.next g)) with _ | msg
    · exact hcommit h₂ (.skip hsome hd (lt_of_refStep hsome (by simp [Recv.rc])))
    · refine h S _ fr₁ g₂ h1 (h2.trans h₂.published) h₂.inv
        (by rw [hc₂]; exact hle.trans h₂.length_le) ?_
      rw [hc₂]
      exact .take hsome hd

/-- What the receiver keeps between its turns. -/
structure RecvInv (codec : TypedCodec M) (cap : Capacity) (base : ℕ) (l : RecvLoc M) (g : World) :
    Prop where
  inv : Inv cap base g
  next : l.fr.next g ≤ g.published.length
  parsed : ∃ rs, Parsed cap TypedCodec.bufSize base g.published 0 0 rs (l.fr.next g) l.fr.lastSeq ∧
    l.got = rs.filterMap (deliver codec)

/-- A turn extends what is parsed by at most one frame. -/
theorem RecvInv.turn {l : RecvLoc M} {S : List UInt8} {out : Option (ℤ × Option M)}
    {fr' : Receiver} (h : RecvInv codec cap base l g) (h1 : g.published <+: S)
    (h2 : S <+: g'.published) (hi : Inv cap base g') (hn : fr'.next g' ≤ g'.published.length)
    (hpost : TurnPost codec cap base S (l.fr.next g) l.fr.lastSeq out (fr'.next g') fr'.lastSeq) :
    RecvInv codec cap base ⟨fr', l.got ++ msgOf out⟩ g' := by
  obtain ⟨rs, hparsed, hgot⟩ := h.parsed
  have hparsed := hparsed.mono (h1.trans h2)
  refine ⟨hi, hn, ?_⟩
  show ∃ rs, Parsed _ _ _ g'.published 0 0 rs (fr'.next g') fr'.lastSeq ∧ l.got ++ msgOf out = _
  generalize fr'.next g' = q at hpost
  generalize fr'.lastSeq = last' at hpost
  cases hpost with
  | wait hstep => exact ⟨rs, hparsed, by simp [msgOf, hgot]⟩
  | @illegal r q hstep hrc =>
    refine ⟨rs ++ [r], hparsed.snoc (refStep_mono h2 hstep), ?_⟩
    have hr : deliver codec r = none := if_neg (by omega)
    rw [List.filterMap_append, ← hgot, List.filterMap_cons_none hr]
    rfl
  | @skip r q hstep hr hq =>
    refine ⟨rs ++ [r], hparsed.snoc (refStep_mono h2 hstep), ?_⟩
    rw [List.filterMap_append, ← hgot, List.filterMap_cons_none hr]
    rfl
  | @take r q msg hstep hr =>
    refine ⟨rs ++ [r], hparsed.snoc (refStep_mono h2 hstep), ?_⟩
    rw [List.filterMap_append, ← hgot, List.filterMap_cons_some hr]
    rfl

theorem recv_contract (codec : TypedCodec M) (cap : Capacity) (base : ℕ) :
    Contract (World.exec cap) (WStep cap base) RStep (RecvCall codec cap)
      (RecvInv codec cap base) (fun _ _ => True) where
  call {l m p} h hc := by
    cases hc with
    | turn =>
      rw [Prog.wp_bind]
      exact turn_spec h.inv h.next fun S out fr' g' h1 h2 hi hn hpost =>
        h.turn h1 h2 hi hn hpost
  stable {l m m'} h hw := by
    have e : l.fr.next m' = l.fr.next m := by
      unfold Receiver.next
      rw [hw.consumed]
    obtain ⟨rs, hparsed, hgot⟩ := h.parsed
    refine ⟨hw.inv h.inv, ?_, rs, ?_, hgot⟩
    · rw [e]
      exact h.next.trans hw.published.length_le
    · rw [e]
      exact hparsed.mono hw.published
  weak _ := trivial
  keepRely _ _ := trivial
  keepGuar _ _ := trivial

/-! ### `Recv` without interference -/

/-- One turn while the sender rests. -/
theorem turn_run {l : RecvLoc M} (h : RecvInv codec cap base l g) {out : Option (ℤ × Option M)}
    {fr' : Receiver} (hrun : (codec.turn cap l.fr).run (World.exec cap) g = ((out, fr'), g')) :
    g'.published = g.published ∧ RecvInv codec cap base ⟨fr', l.got ++ msgOf out⟩ g' ∧
      TurnPost codec cap base g.published (l.fr.next g) l.fr.lastSeq out (fr'.next g')
        fr'.lastSeq := by
  have hwp : wpR cap base (codec.turn cap l.fr) (fun p g' => ∃ S, g.published <+: S ∧
      S <+: g'.published ∧ RecvInv codec cap base ⟨p.2, l.got ++ msgOf p.1⟩ g' ∧
      TurnPost codec cap base S (l.fr.next g) l.fr.lastSeq p.1 (p.2.next g') p.2.lastSeq) g :=
    turn_spec h.inv h.next fun S out fr' g' h1 h2 hi hn hpost =>
      ⟨S, h1, h2, h.turn h1 h2 hi hn hpost, hpost⟩
  have hexec : (codec.turn cap l.fr).Exec (World.exec cap) (WStep cap base) g _ _ :=
    Prog.exec_run _ wStep_refl _ g
  have hstep := Prog.wp_run wStep_refl rStep_refl (fun _ _ _ => RStep.trans) hwp
  obtain ⟨S, h1, h2, h3, h4⟩ := Prog.wp_exec hexec hwp
  rw [hrun] at hstep h2 h3 h4
  have hp : g'.published = g.published := hstep.published
  have hS : S = g.published := by
    rw [show ((out, fr'), g').2 = g' from rfl, hp] at h2
    exact h2.eq_of_length_le h1.length_le
  rw [hS] at h4
  exact ⟨hp, h3, h4⟩

theorem recv_run_some {fr fr' : Receiver} {r : ℤ × Option M} (fuel : ℕ)
    (hrun : (codec.turn cap fr).run (World.exec cap) g = ((some r, fr'), g')) :
    (codec.recv cap (fuel + 1) fr).run (World.exec cap) g = ((some r, fr'), g') := by
  rw [TypedCodec.recv, Prog.run_bind, hrun]
  rfl

theorem recv_run_none {fr fr' : Receiver} (fuel : ℕ)
    (hrun : (codec.turn cap fr).run (World.exec cap) g = ((none, fr'), g')) :
    (codec.recv cap (fuel + 1) fr).run (World.exec cap) g =
      (codec.recv cap fuel fr').run (World.exec cap) g' := by
  rw [TypedCodec.recv, Prog.run_bind, hrun]

/-- A parse of a stream of frames gives frames in order, and all of them if it came to the end. -/
theorem Parsed.frames : ∀ {rs : List Result} {fs : List (List UInt8 × UInt32)} {pre : List UInt8}
    {last last' : UInt32} {q : ℕ},
    Parsed cap bufSize base (pre ++ fs.flatMap encode) pre.length last rs q last' →
    (∀ f ∈ fs, f.1.length ≤ cap.val - 8) →
    rs <+: frameResults cap bufSize base pre.length last fs ∧
      (refStep cap bufSize base (pre ++ fs.flatMap encode) q last' = none →
        rs = frameResults cap bufSize base pre.length last fs)
  | [], fs, pre, last, _, _, .nil, hfs => by
    refine ⟨List.nil_prefix, fun hnone => ?_⟩
    cases fs with
    | nil => rfl
    | cons f fs =>
      rw [List.flatMap_cons, refStep_encode (hfs f List.mem_cons_self)] at hnone
      split_ifs at hnone
  | r :: rs, [], pre, last, _, _, .cons hstep _, _ => by
    unfold refStep at hstep
    rw [if_pos (by simp)] at hstep
    exact absurd hstep (by simp)
  | r :: rs, f :: fs, pre, last, last', q, .cons hstep rest, hfs => by
    rw [List.flatMap_cons, refStep_encode (hfs f List.mem_cons_self)] at hstep
    rw [List.flatMap_cons, ← List.append_assoc] at rest ⊢
    have hlen : pre.length + (8 + f.1.length) = (pre ++ encode f).length := by
      rw [List.length_append, length_encode]
    rw [frameResults]
    split_ifs at hstep ⊢ <;> cases hstep <;> rw [hlen] at rest ⊢
    all_goals
      obtain ⟨h1, h2⟩ := Parsed.frames rest fun x hx => hfs x (List.mem_cons_of_mem f hx)
      exact ⟨List.prefix_cons_iff.mpr (Or.inr ⟨rs, rfl, h1⟩),
        fun hnone => congrArg (List.cons _) (h2 hnone)⟩

/-! ### Both -/

/-- A sender and a receiver on an empty ring at offset `base`. -/
def start (M : Type) (base : ℕ) (d : ℕ → UInt8) :
    Duo Cmd Cmd.Res (SenderLoc M) (RecvLoc M) World where
  fst := .idle ⟨none, [], []⟩
  snd := .idle ⟨.init, []⟩
  mem := .empty base d

/-- One access, or the start of one call, of either side. -/
abbrev CodecStep (codec : TypedCodec M) (cap : Capacity) :
    Duo Cmd Cmd.Res (SenderLoc M) (RecvLoc M) World →
      Duo Cmd Cmd.Res (SenderLoc M) (RecvLoc M) World → Prop :=
  Step (World.exec cap) (SendCall codec cap) (RecvCall codec cap)

/-- What `Recv` returns while the sender rests. -/
def recvResult (codec : TypedCodec M) (cap : Capacity) (fuel : ℕ) (l : RecvLoc M) (g : World) :
    Option (ℤ × Option M) :=
  ((codec.recv cap fuel l.fr).run (World.exec cap) g).1.1

/-- In every reachable state between two calls, the receiver has got some of the messages `keep`
selects of the accepted ones, in order; when `Recv` then returns `-1` it has got all of them; and
`Recv` does return. -/
def Delivers (codec : TypedCodec M) (cap : Capacity) (base : ℕ)
    (keep : List (M × UInt32) → List M) : Prop :=
  ∀ d s w r, ReflTransGen (CodecStep codec cap) (start M base d) s → s.fst = .idle w →
    s.snd = .idle r →
    r.got <+: keep w.accepted ∧
      (∀ fuel, recvResult codec cap fuel r s.mem = some (-1, none) → r.got = keep w.accepted) ∧
      ∀ fuel, s.mem.published.length < fuel → recvResult codec cap fuel r s.mem ≠ none

theorem reach_inv (hlaw : codec.Lawful payload) {d : ℕ → UInt8}
    {s : Duo Cmd Cmd.Res (SenderLoc M) (RecvLoc M) World} {w : SenderLoc M} {r : RecvLoc M}
    (h : ReflTransGen (CodecStep codec cap) (start M base d) s) (hw : s.fst = .idle w)
    (hr : s.snd = .idle r) :
    SendInv payload cap base w s.mem ∧ RecvInv codec cap base r s.mem := by
  have h0 := inv_empty cap base d
  obtain ⟨h1, h2⟩ := duo_ok wStep_refl rStep_refl (fun _ _ _ => WStep.trans)
    (fun _ _ _ => RStep.trans) (send_contract hlaw cap base) (recv_contract codec cap base)
    (s := start M base d)
    ⟨⟨h0, rfl, fun x hx => absurd hx (by simp), fun b hb => absurd hb (by simp)⟩,
      ⟨h0, le_rfl, [], .nil, rfl⟩⟩ h
  rw [hw] at h1
  rw [hr] at h2
  exact ⟨h1, h2⟩

end ShmIpc.Codec.Delivery
