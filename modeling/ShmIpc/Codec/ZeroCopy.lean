import ShmIpc.Codec.FrameReader
import ShmIpc.Lib.Threads

/-! # Zero-copy views

A writer with all its operations and a receiver on one ring, interleaved access by access. The
receiver's contract keeps, between its calls, that the frame it has handed out is still in the ring
at `read_pos` (`ViewInv`); so whatever the writer has done or is in the middle of, the bytes behind
the pointer are the payload (`view_intact`). The spans it has released tile the stream: each frame
is released once. -/

namespace ShmIpc.Codec.ZeroCopy

open Relation
open ShmIpc.Lib.RelyGuarantee ShmIpc.Lib.Threads ShmIpc.Lib.Window
open ShmIpc.Ring.RingBuf ShmIpc.Ring.History ShmIpc.Ring.Writer ShmIpc.Ring.Reader
open ShmIpc.Ring.Channel
open ShmIpc.Codec.Frame ShmIpc.Codec.FrameReader

variable {cap : Capacity} {base : ℕ} {g g' : World}

/-! ### The writer -/

/-- The calls of a writer, with its active batch between them; `RewindTo` only goes back. -/
inductive SenderCall (cap : Capacity) :
    Option ChannelBatchWriter → World → RingM (Option ChannelBatchWriter) → Prop
  | tryWrite {g : World} (data : Option Buf) :
      SenderCall cap none g (do
        let _ ← tryWrite cap data
        return none)
  | sendFrame {g : World} (payloadLen seq : UInt32) (cb : Callback) :
      SenderCall cap none g (do
        let _ ← sendFrame cap payloadLen seq cb
        return none)
  | startBatch {g : World} :
      SenderCall cap none g (do
        let b ← startBatch
        return some b)
  | write {g : World} (b : ChannelBatchWriter) (data : Option Buf) :
      SenderCall cap (some b) g (do
        let (_, b') ← b.tryWrite cap data
        return some b')
  | reserve {g : World} (b : ChannelBatchWriter) (src : Buf) :
      SenderCall cap (some b) g (do
        let (_, batch) ← b.batch.reserveFill cap src
        return some { b with batch := batch })
  | sendFrameBatch {g : World} (b : ChannelBatchWriter) (payloadLen seq : UInt32)
      (cb : Callback) :
      SenderCall cap (some b) g (do
        let (_, b') ← sendFrameBatch cap b payloadLen seq cb
        return some b')
  | flush {g : World} (b : ChannelBatchWriter) :
      SenderCall cap (some b) g (do
        let (_, b') ← b.flush
        return some b')
  | cancel {g : World} (b : ChannelBatchWriter) :
      SenderCall cap (some b) g (return some b.cancel)
  | rewindTo {g : World} (b : ChannelBatchWriter) {p : UInt64} (hp : p ≤ b.batch.pendingBytes)
      (count : ℤ) : SenderCall cap (some b) g (return some (b.rewindTo p count))
  | done {g : World} (b : ChannelBatchWriter) :
      SenderCall cap (some b) g (do
        b.destroy
        return none)

/-- The batch is a live one of this ring. -/
def BatchOk (cap : Capacity) (base : ℕ) (g : World) (b : ChannelBatchWriter) : Prop :=
  b.channel = true ∧ ∃ rc l, Pending cap base g b.batch rc l

/-- What the writer keeps between its calls. -/
def SenderInv (cap : Capacity) (base : ℕ) (b : Option ChannelBatchWriter) (g : World) : Prop :=
  Inv cap base g ∧ ∀ x, b = some x → BatchOk cap base g x

theorem senderInv_none (hi : Inv cap base g) : SenderInv cap base none g :=
  ⟨hi, fun _ h => absurd h (by simp)⟩

theorem senderInv_some {b : BatchWriter} {rc : ℕ} {l : List UInt8}
    (h : Pending cap base g b rc l) : SenderInv cap base (some ⟨b, true⟩) g :=
  ⟨h.inv, fun x hx => by cases hx; exact ⟨rfl, rc, l, h⟩⟩

theorem BatchOk.pending {b : ChannelBatchWriter} (h : BatchOk cap base g b) :
    ∃ bw rc l, b = ⟨bw, true⟩ ∧ Pending cap base g bw rc l := by
  obtain ⟨bw, channel⟩ := b
  obtain ⟨hch, rc, l, hp⟩ := h
  subst hch
  exact ⟨bw, rc, l, rfl, hp⟩

theorem senderCall_wp {b : Option ChannelBatchWriter} {p : RingM (Option ChannelBatchWriter)}
    (h : SenderInv cap base b g) (hc : SenderCall cap b g p) :
    wpW cap base p (SenderInv cap base) g := by
  obtain ⟨hi, hb⟩ := h
  cases hc with
  | tryWrite data =>
    rw [wpW, Prog.wp_bind]
    exact tryWrite_spec hi (fun _ g' _ _ hw => senderInv_none hw.inv)
      fun g' hw _ => senderInv_none hw.inv
  | sendFrame payloadLen seq cb =>
    rw [wpW, Prog.wp_bind]
    exact sendFrame_safe hi fun _ g' hi' _ => senderInv_none hi'
  | startBatch =>
    rw [wpW, Prog.wp_bind]
    exact startBatch_spec hi fun b g' _ _ hp => senderInv_some hp
  | write b data =>
    obtain ⟨bw, rc, l, rfl, hp⟩ := (hb b rfl).pending
    rw [wpW, Prog.wp_bind]
    exact write_safe hp data fun _ _ _ g' _ hp' _ => senderInv_some hp'
  | reserve b src =>
    obtain ⟨bw, rc, l, rfl, hp⟩ := (hb b rfl).pending
    rw [wpW, Prog.wp_bind]
    exact reserveFill_spec hp (fun g' _ _ hp' => senderInv_some hp') fun _ => senderInv_some hp
  | sendFrameBatch b payloadLen seq cb =>
    obtain ⟨bw, rc, l, rfl, hp⟩ := (hb b rfl).pending
    rw [wpW, Prog.wp_bind]
    exact sendFrameBatch_safe hp fun _ _ _ g' _ hp' _ => senderInv_some hp'
  | flush b =>
    obtain ⟨bw, rc, l, rfl, hp⟩ := (hb b rfl).pending
    rw [wpW, Prog.wp_bind]
    exact channelFlush_spec hp fun g' _ hp' => senderInv_some hp'
  | cancel b =>
    obtain ⟨bw, rc, l, rfl, hp⟩ := (hb b rfl).pending
    exact senderInv_some hp.cancel
  | rewindTo b hle count =>
    obtain ⟨bw, rc, l, rfl, hp⟩ := (hb b rfl).pending
    exact senderInv_some (hp.rewindTo count hle)
  | done b =>
    obtain ⟨bw, rc, l, rfl, hp⟩ := (hb b rfl).pending
    rw [wpW, Prog.wp_bind]
    exact destroy_safe hp fun g' hi' _ => senderInv_none hi'

theorem sender_contract (cap : Capacity) (base : ℕ) :
    Contract (World.exec cap) RStep (WStep cap base) (SenderCall cap) (SenderInv cap base)
      (fun _ g => Inv cap base g) where
  call := senderCall_wp
  stable h hr := by
    refine ⟨hr.inv h.1, fun x hx => ?_⟩
    obtain ⟨hch, rc, l, hp⟩ := h.2 x hx
    exact ⟨hch, rc, l, hp.rStep hr⟩
  weak h := h.1
  keepRely h hr := hr.inv h
  keepGuar h hw := hw.inv h

/-! ### The receiver -/

/-- A frame handed out: the pointer, the length, and the frame's offset in the stream. -/
structure View where
  payload : Payload
  len : UInt32
  start : ℕ
  deriving DecidableEq, Repr

/-- A receiver between two calls, with the spans of the stream it has released. -/
structure ViewLoc where
  fr : Receiver
  view : Option View
  released : List (ℕ × ℕ)

/-- The span that the next call releases. -/
def span (fr : Receiver) (g : World) : List (ℕ × ℕ) :=
  if fr.pendingCommit = 0 then [] else [(g.consumed, fr.pendingCommit.toNat)]

/-- The view that a return value opens. -/
def viewOf (start : ℕ) : Recv → Option View
  | .frame payload len => some ⟨payload, len, start⟩
  | _ => none

/-- The calls of the receiver. -/
inductive ViewCall (cap : Capacity) (bufSize : UInt32) : ViewLoc → World → RingM ViewLoc → Prop
  | tryRecv {l : ViewLoc} {g : World} :
      ViewCall cap bufSize l g (do
        let (res, fr') ← l.fr.tryRecv cap bufSize
        return ⟨fr', viewOf (l.fr.next g) res, l.released ++ span l.fr g⟩)
  | commit {l : ViewLoc} {g : World} :
      ViewCall cap bufSize l g (do
        let fr' ← l.fr.commit
        return ⟨fr', none, l.released ++ span l.fr g⟩)

/-- The spans follow each other from `p` to `q`. -/
def Tiles : ℕ → List (ℕ × ℕ) → ℕ → Prop
  | p, [], q => p = q
  | p, (o, n) :: rest, q => o = p ∧ Tiles (p + n) rest q

theorem Tiles.append : ∀ {p q r : ℕ} {l l' : List (ℕ × ℕ)}, Tiles p l q → Tiles q l' r →
    Tiles p (l ++ l') r
  | _, _, _, [], _, h, h' => by
    unfold Tiles at h
    rw [h]; exact h'
  | _, _, _, _ :: _, _, h, h' => ⟨h.1, h.2.append h'⟩

variable {bufSize : UInt32}

/-- What the receiver keeps between its calls. -/
structure ViewInv (cap : Capacity) (bufSize : UInt32) (base : ℕ) (l : ViewLoc) (g : World) :
    Prop where
  inv : Inv cap base g
  next : l.fr.next g ≤ g.published.length
  tiles : Tiles 0 l.released g.consumed
  view : ∀ v, l.view = some v → v.start = g.consumed ∧ ∃ fr S, S <+: g.published ∧
    RecvPost cap bufSize base S v.start fr (.frame v.payload v.len) l.fr

theorem tiles_span {fr : Receiver} {l : List (ℕ × ℕ)} (h : Tiles 0 l g.consumed)
    (ht : Took cap base g fr.pendingCommit.toNat g') : Tiles 0 (l ++ span fr g) g'.consumed := by
  refine h.append ?_
  unfold span
  rw [ht.consumed]
  split_ifs with hz
  · rw [hz]; rfl
  · exact ⟨rfl, rfl⟩

theorem viewCall_wp {l : ViewLoc} {p : RingM ViewLoc} (h : ViewInv cap bufSize base l g)
    (hc : ViewCall cap bufSize l g p) : wpR cap base p (ViewInv cap bufSize base) g := by
  cases hc with
  | tryRecv =>
    rw [wpR, Prog.wp_bind]
    refine tryRecv_spec h.inv h.next fun S res fr' g' h1 h2 ht hpost => ?_
    have hc : g'.consumed = l.fr.next g := ht.consumed
    refine ⟨ht.inv, ?_, tiles_span h.tiles ht, fun v hv => ?_⟩
    · have hle := next_le_of_recvPost hpost (h.next.trans h1.length_le)
      show g'.consumed + fr'.pendingCommit.toNat ≤ _
      rw [hc]
      exact hle.trans h2.length_le
    · cases res with
      | frame payload len =>
        cases hv
        exact ⟨hc.symm, l.fr, S, h2, hpost⟩
      | again | dropped | illegal => exact absurd hv (by simp [viewOf])
  | commit =>
    rw [wpR, Prog.wp_bind]
    refine commit_spec h.inv h.next fun g' ht => ?_
    refine ⟨ht.inv, ?_, tiles_span h.tiles ht, fun v hv => absurd hv (by simp)⟩
    exact ht.inv.le

theorem view_contract (cap : Capacity) (bufSize : UInt32) (base : ℕ) :
    Contract (World.exec cap) (WStep cap base) RStep (ViewCall cap bufSize)
      (ViewInv cap bufSize base) (fun _ _ => True) where
  call := viewCall_wp
  stable {l m m'} h hw := by
    refine ⟨hw.inv h.inv, ?_, ?_, fun v hv => ?_⟩
    · show m'.consumed + _ ≤ _
      rw [hw.consumed]
      exact h.next.trans hw.published.length_le
    · rw [hw.consumed]; exact h.tiles
    · obtain ⟨h1, fr, S, hS, hpost⟩ := h.view v hv
      exact ⟨by rw [hw.consumed]; exact h1, fr, S, hS.trans hw.published, hpost⟩
  weak _ := trivial
  keepRely _ _ := trivial
  keepGuar _ _ := trivial

/-! ### What is behind the pointer -/

/-- The bytes behind the pointer, as the memory is now. -/
def sees (g : World) (fr : Receiver) (v : View) : List UInt8 :=
  match v.payload with
  | .null => []
  | .ring off => cells g.shm.data off v.len.toNat
  | .buf => cells fr.buf 0 v.len.toNat

/-- The frame of a view, in the published stream. -/
structure Shows (cap : Capacity) (g : World) (fr : Receiver) (v : View) : Prop where
  frame : FrameAt cap g.published v.start
  len : v.len = (hdrAt g.published v.start).len
  bytes : sees g fr v = bodyAt g.published v.start
  held : g.consumed = v.start
  size : fr.pendingCommit.toNat = 8 + v.len.toNat

theorem FrameAt.mono {S S' : List UInt8} {p : ℕ} (h : FrameAt cap S p) (hS : S <+: S') :
    FrameAt cap S' p ∧ hdrAt S' p = hdrAt S p ∧ bodyAt S' p = bodyAt S p := by
  have hh := hdrAt_mono hS h.header
  have hlen := hS.length_le
  refine ⟨⟨h.header.trans hlen, by rw [hh]; exact h.legal, by rw [hh]; exact h.body.trans hlen⟩, hh,
    ?_⟩
  unfold bodyAt
  rw [hh, drop_take_mono hS h.body]

theorem ViewInv.shows {l : ViewLoc} {v : View} (h : ViewInv cap bufSize base l g)
    (hv : l.view = some v) : Shows cap g l.fr v := by
  obtain ⟨hc, fr, S, hS, hpost⟩ := h.view v hv
  obtain ⟨payload, len, start⟩ := v
  have hi := h.inv
  generalize l.fr = fr' at hpost
  have hpost : RecvPost cap bufSize base S start fr (.frame payload len) fr' := hpost
  have hc : start = g.consumed := hc
  cases hpost with
  | empty hf hz =>
    obtain ⟨hf', hh, hb⟩ := FrameAt.mono hf hS
    refine ⟨hf', by rw [hh]; exact hz.symm, ?_, hc.symm, ?_⟩
    · show [] = bodyAt g.published start
      unfold bodyAt
      rw [hh, hz]; rfl
    · show (kMsgHeaderSize + (hdrAt S start).len).toNat = 8 + 0
      rw [hz]; rfl
  | ring hf hz hend =>
    obtain ⟨hf', hh, hb⟩ := FrameAt.mono hf hS
    refine ⟨hf', by rw [hh], ?_, hc.symm, toNat_frameLen hf.legal⟩
    have hbody := hf.body
    have hlen := hS.length_le
    have hlt := Nat.mod_lt (base + start) cap.pos
    unfold Crosses at hend
    show cells g.shm.data ((base + start) % cap.val + 8) (hdrAt S start).len.toNat = _
    rw [hi.cells_eq (p := start + 8) (by omega) (by omega) fun i hi => ?_]
    · unfold bodyAt
      rw [hh]
    · rw [show base + (start + 8) + i = base + start + (8 + i) by omega, add_mod_of_lt (by omega)]
      omega
  | buf hf hz hbuf hend =>
    obtain ⟨hf', hh, hb⟩ := FrameAt.mono hf hS
    refine ⟨hf', by rw [hh], ?_, hc.symm, toNat_frameLen hf.legal⟩
    have hcells := cells_blit (d := fr.buf) (l := bodyAt S start)
    rw [hf.length_bodyAt] at hcells
    rw [hb]
    exact hcells

/-! ### Both -/

/-- A writer and a receiver on an empty ring. -/
def start (base : ℕ) (d : ℕ → UInt8) :
    Duo Cmd Cmd.Res (Option ChannelBatchWriter) ViewLoc World where
  fst := .idle none
  snd := .idle ⟨.init, none, []⟩
  mem := .empty base d

/-- The next call releases the frame of the view, and nothing else. -/
theorem Shows.span_eq {fr : Receiver} {v : View} (h : Shows cap g fr v) :
    span fr g = [(v.start, 8 + v.len.toNat)] := by
  have hsize := h.size
  unfold span
  rw [if_neg fun hz => ?_, h.held, hsize]
  rw [hz] at hsize
  exact absurd hsize (by show ¬ 0 = 8 + _; omega)

/-- **Views stay intact.** In every reachable state, also in the middle of any operation of the
writer, a receiver between two calls sees behind its pointer the payload of the frame that it was
given, which is still unreleased at `read_pos`; the next call releases just this frame, and the
spans released so far tile the stream up to `read_pos`. -/
theorem view_intact (cap : Capacity) (bufSize : UInt32) (base : ℕ) (d : ℕ → UInt8)
    {s : Duo Cmd Cmd.Res (Option ChannelBatchWriter) ViewLoc World}
    (h : ReflTransGen (Step (World.exec cap) (SenderCall cap) (ViewCall cap bufSize))
      (start base d) s) {l : ViewLoc} (hl : s.snd = .idle l) :
    (∀ v, l.view = some v →
      Shows cap s.mem l.fr v ∧ span l.fr s.mem = [(v.start, 8 + v.len.toNat)]) ∧
      Tiles 0 l.released s.mem.consumed := by
  have h0 := inv_empty cap base d
  obtain ⟨-, h2⟩ := duo_ok wStep_refl rStep_refl (fun _ _ _ => WStep.trans)
    (fun _ _ _ => RStep.trans) (sender_contract cap base) (view_contract cap bufSize base)
    (s := start base d)
    ⟨senderInv_none h0, ⟨h0, le_rfl, rfl, fun v hv => absurd hv (by simp)⟩⟩ h
  rw [hl] at h2
  exact ⟨fun v hv => ⟨ViewInv.shows h2 hv, (ViewInv.shows h2 hv).span_eq⟩, ViewInv.tiles h2⟩

/-- A frame received, and another one sent behind it before it is released. -/
theorem view_intact_sent : ∃ s l v,
    ReflTransGen (Step (World.exec .min) (SenderCall .min) (ViewCall .min 16))
      (start 0 fun _ => 0) s ∧ s.snd = .idle l ∧ l.view = some v ∧
      v = ⟨.ring 8, 2, 0⟩ ∧ sees s.mem l.fr v = [5, 6] ∧ Shows .min s.mem l.fr v := by
  have h1 : ReflTransGen (Step (World.exec .min) (SenderCall .min) (ViewCall .min 16))
      (start 0 fun _ => 0) _ :=
    call_run₁ (.sendFrame 2 1 (.tryWrite (some ⟨[5, 6], by decide⟩) fun _ => .done))
  have h2 := h1.trans (call_run₂ .tryRecv)
  have h3 := h2.trans
    (call_run₁ (.sendFrame 1 2 (.tryWrite (some ⟨[9], by decide⟩) fun _ => .done)))
  exact ⟨_, _, _, h3, rfl, rfl, by decide, by decide,
    ((view_intact .min 16 0 _ h3 rfl).1 _ rfl).1⟩

end ShmIpc.Codec.ZeroCopy
