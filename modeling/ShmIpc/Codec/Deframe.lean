import ShmIpc.Codec.FrameReader

/-! # Deframing refines a reference parser

`refStep` reads one frame off a stream, from the stream and the offset alone; `refResults` iterates
it. A run of a receiver mixes publications of the writer, `TryRecv`s and `Commit`s in any order,
each call with any progress of the writer inside it, and logs what every `TryRecv` returned.
`Replay` is the refinement: each call returned what the reference parser says of the stream that was
published at one moment of the call. -/

namespace ShmIpc.Codec.Deframe

open Relation
open ShmIpc.Lib.RelyGuarantee ShmIpc.Lib.LittleEndian
open ShmIpc.Ring.RingBuf ShmIpc.Ring.History ShmIpc.Ring.Writer ShmIpc.Ring.Reader
open ShmIpc.Codec.Frame ShmIpc.Codec.FrameReader

/-! ### The reference parser -/

/-- What a caller learns from a `TryRecv`: the return value, the payload, and `LastSeq()`. -/
structure Result where
  rc : ℤ
  payload : List UInt8
  lastSeq : UInt32
  deriving DecidableEq, Repr

/-- The frame at offset `p` of the stream `S`, with the offset of the next one; `none` while it is
not whole. A header that no ring of this capacity can satisfy is final. -/
def refStep (cap : Capacity) (bufSize : UInt32) (base : ℕ) (S : List UInt8) (p : ℕ)
    (last : UInt32) : Option (Result × ℕ) :=
  if S.length < p + 8 then none
  else if cap.val - 8 < (hdrAt S p).len.toNat then some (⟨-3, [], last⟩, p)
  else if S.length < p + 8 + (hdrAt S p).len.toNat then none
  else if bufSize < (hdrAt S p).len ∧ Crosses cap base S p then
    some (⟨-2, [], last⟩, p + (8 + (hdrAt S p).len.toNat))
  else some (⟨0, bodyAt S p, (hdrAt S p).seq⟩, p + (8 + (hdrAt S p).len.toNat))

/-- The first `k` frames from offset `p` on. -/
def refResults (cap : Capacity) (bufSize : UInt32) (base : ℕ) (S : List UInt8) :
    ℕ → ℕ → UInt32 → List Result
  | 0, _, _ => []
  | k + 1, p, last =>
    match refStep cap bufSize base S p last with
    | none => []
    | some (r, q) => r :: refResults cap bufSize base S k q r.lastSeq

variable {cap : Capacity} {bufSize : UInt32} {base : ℕ} {S S' : List UInt8} {p q : ℕ}
  {last : UInt32} {r : Result} {g g' : World} {fr : Receiver}

/-- A frame that is whole stays the same as the stream grows. -/
theorem refStep_mono (hS : S <+: S') (h : refStep cap bufSize base S p last = some (r, q)) :
    refStep cap bufSize base S' p last = some (r, q) := by
  have hlen := hS.length_le
  unfold refStep at h ⊢
  split_ifs at h with h1 h2 h3 h4
  all_goals
    rw [hdrAt_mono hS (by omega), if_neg (by omega)]
  · rw [if_pos h2]; exact h
  · have hc : Crosses cap base S' p := by
      unfold Crosses; rw [hdrAt_mono hS (by omega)]; exact h4.2
    rw [if_neg h2, if_neg (by omega), if_pos ⟨h4.1, hc⟩]
    exact h
  · have hc : ¬ (bufSize < (hdrAt S p).len ∧ Crosses cap base S' p) := by
      unfold Crosses; rw [hdrAt_mono hS (by omega)]; exact h4
    have hb : bodyAt S' p = bodyAt S p := by
      unfold bodyAt
      rw [hdrAt_mono hS (by omega), drop_take_mono hS (by omega)]
    rw [if_neg h2, if_neg (by omega), if_neg hc, hb]
    exact h

theorem refStep_rc (h : refStep cap bufSize base S p last = some (r, q)) : r.rc ≠ -1 := by
  unfold refStep at h
  split_ifs at h <;> cases h <;> simp

/-! ### Runs of a receiver -/

/-- A logged `TryRecv`: the published lengths at its start and its end, where `read_pos` stands
after it, and what it returned. -/
structure Call where
  start : ℕ
  stop : ℕ
  consumed : ℕ
  res : Result

/-- The ring, the receiver, and the log of its `TryRecv`s. -/
structure RecvState where
  world : World
  reader : Receiver
  log : List Call

/-- A new receiver on an empty ring. -/
def RecvState.start (base : ℕ) (d : ℕ → UInt8) : RecvState := ⟨.empty base d, .init, []⟩

/-- A `TryRecv` whose caller looks at the payload. -/
def recvCall (cap : Capacity) (bufSize : UInt32) (fr : Receiver) : RingM (Result × Receiver) := do
  let (res, fr') ← fr.tryRecv cap bufSize
  match res with
  | .frame payload len =>
    let bytes ← readPayload fr' len payload
    return (⟨res.rc, bytes, fr'.lastSeq⟩, fr')
  | _ => return (⟨res.rc, [], fr'.lastSeq⟩, fr')

/-- The writer publishes something, or the reader makes a call. -/
inductive RecvStep (cap : Capacity) (bufSize : UInt32) (base : ℕ) : RecvState → RecvState → Prop
  | publish {g g' : World} {fr : Receiver} {log : List Call} (h : WStep cap base g g') :
      RecvStep cap bufSize base ⟨g, fr, log⟩ ⟨g', fr, log⟩
  | tryRecv {g g' : World} {fr fr' : Receiver} {log : List Call} {res : Result}
      (h : (recvCall cap bufSize fr).Exec (World.exec cap) (WStep cap base) g (res, fr') g') :
      RecvStep cap bufSize base ⟨g, fr, log⟩
        ⟨g', fr', log ++ [⟨g.published.length, g'.published.length, g'.consumed, res⟩]⟩
  | commit {g g' : World} {fr fr' : Receiver} {log : List Call}
      (h : fr.commit.Exec (World.exec cap) (WStep cap base) g fr' g') :
      RecvStep cap bufSize base ⟨g, fr, log⟩ ⟨g', fr', log⟩

/-- The stream `S` was what is published at one moment of the call `c`. -/
structure Seen (P : List UInt8) (c : Call) (S : List UInt8) : Prop where
  published : S <+: P
  start : c.start ≤ S.length
  stop : S.length ≤ c.stop

/-- The calls go through the stream `P` as the reference parser does, from offset `p` and sequence
number `last` to offset `p'` and sequence number `last'`. -/
inductive Replay (cap : Capacity) (bufSize : UInt32) (base : ℕ) (P : List UInt8) :
    ℕ → UInt32 → List Call → ℕ → UInt32 → Prop
  | nil {p : ℕ} {last : UInt32} : Replay cap bufSize base P p last [] p last
  | wait {p p' : ℕ} {last last' : UInt32} {c : Call} {cs : List Call} {S : List UInt8}
      (hS : Seen P c S) (hstep : refStep cap bufSize base S p last = none)
      (hres : c.res = ⟨-1, [], last⟩) (hpos : c.consumed = p)
      (rest : Replay cap bufSize base P p last cs p' last') :
      Replay cap bufSize base P p last (c :: cs) p' last'
  | item {p q p' : ℕ} {last last' : UInt32} {c : Call} {cs : List Call} {S : List UInt8}
      (hS : Seen P c S) (hstep : refStep cap bufSize base S p last = some (c.res, q))
      (hpos : c.consumed = p) (rest : Replay cap bufSize base P q c.res.lastSeq cs p' last') :
      Replay cap bufSize base P p last (c :: cs) p' last'

theorem Replay.append {P : List UInt8} {p p' p'' : ℕ} {last last' last'' : UInt32}
    {cs cs' : List Call} (h : Replay cap bufSize base P p last cs p' last')
    (h' : Replay cap bufSize base P p' last' cs' p'' last'') :
    Replay cap bufSize base P p last (cs ++ cs') p'' last'' := by
  induction h with
  | nil => exact h'
  | wait hS hstep hres hpos _ ih => exact .wait hS hstep hres hpos (ih h')
  | item hS hstep hpos _ ih => exact .item hS hstep hpos (ih h')

theorem Replay.mono {P P' : List UInt8} {p p' : ℕ} {last last' : UInt32} {cs : List Call}
    (h : Replay cap bufSize base P p last cs p' last') (hP : P <+: P') :
    Replay cap bufSize base P' p last cs p' last' := by
  induction h with
  | nil => exact .nil
  | wait hS hstep hres hpos _ ih =>
    exact .wait ⟨hS.published.trans hP, hS.start, hS.stop⟩ hstep hres hpos ih
  | item hS hstep hpos _ ih =>
    exact .item ⟨hS.published.trans hP, hS.start, hS.stop⟩ hstep hpos ih

/-- The results other than `-1`. -/
def results (log : List Call) : List Result := (log.map Call.res).filter fun r => r.rc ≠ -1

/-- The results other than `-1` are the reference parse of the stream. -/
theorem Replay.results_eq {P S : List UInt8} {p p' : ℕ} {last last' : UInt32} {cs : List Call}
    (h : Replay cap bufSize base P p last cs p' last') (hP : P <+: S) :
    results cs = refResults cap bufSize base S (results cs).length p last := by
  induction h with
  | nil => rfl
  | @wait p p' last last' c cs S' hS hstep hres hpos _ ih =>
    have e : results (c :: cs) = results cs := by simp [results, hres]
    rw [e]
    exact ih
  | @item p q p' last last' c cs S' hS hstep hpos _ ih =>
    have e : results (c :: cs) = c.res :: results cs := by
      simp [results, refStep_rc hstep]
    rw [e, List.length_cons, refResults, refStep_mono (hS.published.trans hP) hstep]
    exact congrArg (List.cons c.res) ih

/-! ### Each call -/

theorem refStep_frame (h : FrameAt cap S p)
    (hd : ¬ (bufSize < (hdrAt S p).len ∧ Crosses cap base S p)) :
    refStep cap bufSize base S p last = some (⟨0, bodyAt S p, (hdrAt S p).seq⟩,
      p + (kMsgHeaderSize + (hdrAt S p).len).toNat) := by
  have h1 := h.header
  have h2 := h.legal
  have h3 := h.body
  unfold refStep
  rw [if_neg (by omega), if_neg (by omega), if_neg (by omega), if_neg hd, toNat_frameLen h2]

theorem refStep_dropped (h : FrameAt cap S p)
    (hd : bufSize < (hdrAt S p).len ∧ Crosses cap base S p) :
    refStep cap bufSize base S p last = some (⟨-2, [], last⟩,
      p + (kMsgHeaderSize + (hdrAt S p).len).toNat) := by
  have h1 := h.header
  have h2 := h.legal
  have h3 := h.body
  unfold refStep
  rw [if_neg (by omega), if_neg (by omega), if_neg (by omega), if_pos hd, toNat_frameLen h2]

/-- The payload that goes with a return value. -/
def payloadOf (S : List UInt8) (p : ℕ) : Recv → List UInt8
  | .frame _ _ => bodyAt S p
  | _ => []

/-- A call that looked at offset `p` of `S` does the step of the reference parser there. -/
theorem refStep_of_recvPost {res : Recv} {fr' : Receiver}
    (h : RecvPost cap bufSize base S p fr res fr') :
    (refStep cap bufSize base S p fr.lastSeq = none ∧ res = .again ∧ fr' = fr.released) ∨
      refStep cap bufSize base S p fr.lastSeq = some (⟨res.rc, payloadOf S p res, fr'.lastSeq⟩,
        p + fr'.pendingCommit.toNat) := by
  cases h with
  | short h => exact Or.inl ⟨if_pos h, rfl, rfl⟩
  | illegal h hl =>
    right
    unfold refStep
    rw [if_neg (by omega), if_pos hl]
    rfl
  | cut h hl hb =>
    left
    unfold refStep
    rw [if_neg (by omega), if_neg (by omega), if_pos hb]
    exact ⟨rfl, rfl, rfl⟩
  | dropped hf hbuf hend => exact Or.inr (refStep_dropped hf ⟨hbuf, hend⟩)
  | empty hf hz =>
    refine Or.inr (refStep_frame hf fun h => ?_)
    rw [hz, UInt32.lt_iff_toNat_lt] at h
    exact Nat.not_lt_zero _ h.1
  | ring hf hz hend => exact Or.inr (refStep_frame hf fun h => hend h.2)
  | buf hf hz hbuf hend => exact Or.inr (refStep_frame hf fun h => hbuf h.1)

/-- **One call**, with its caller looking at the payload. -/
theorem recvCall_spec {Q : Result × Receiver → World → Prop} (hi : Inv cap base g)
    (hp : fr.next g ≤ g.published.length)
    (h : ∀ S res fr' g', g.published <+: S → S <+: g'.published →
      Took cap base g fr.pendingCommit.toNat g' →
      RecvPost cap bufSize base S (fr.next g) fr res fr' →
      Q (⟨res.rc, payloadOf S (fr.next g) res, fr'.lastSeq⟩, fr') g') :
    wpR cap base (recvCall cap bufSize fr) Q g := by
  unfold recvCall
  rw [wpR, Prog.wp_bind]
  refine tryRecv_spec hi hp fun S res fr' g₁ h1 h2 ht hpost => ?_
  cases res with
  | frame payload len =>
    have hc : g₁.consumed = fr.next g := ht.consumed
    show wpR cap base (readPayload fr' len payload >>= _) Q g₁
    rw [wpR, Prog.wp_bind]
    refine readPayload_spec ht.inv h2 (le_of_eq hc) hpost fun g₂ h₂ => ?_
    have h12 := ht.trans h₂
    rw [Nat.add_zero] at h12
    exact h S _ fr' g₂ h1 (h2.trans h₂.published) h12 hpost
  | again => exact h S _ fr' g₁ h1 h2 ht hpost
  | dropped => exact h S _ fr' g₁ h1 h2 ht hpost
  | illegal => exact h S _ fr' g₁ h1 h2 ht hpost

/-! ### Whole runs -/

/-- The invariant of a receiver's runs. -/
structure RecvInv (cap : Capacity) (bufSize : UInt32) (base : ℕ) (s : RecvState) : Prop where
  inv : Inv cap base s.world
  next : s.reader.next s.world ≤ s.world.published.length
  replay : Replay cap bufSize base s.world.published 0 0 s.log (s.reader.next s.world)
    s.reader.lastSeq

theorem recvInv_start (cap : Capacity) (bufSize : UInt32) (base : ℕ) (d : ℕ → UInt8) :
    RecvInv cap bufSize base (.start base d) :=
  ⟨inv_empty cap base d, le_rfl, .nil⟩

/-- A logged call extends the replay. -/
theorem RecvInv.call {log : List Call} {res : Recv} {fr' : Receiver}
    (h : RecvInv cap bufSize base ⟨g, fr, log⟩) (h1 : g.published <+: S)
    (h2 : S <+: g'.published) (ht : Took cap base g fr.pendingCommit.toNat g')
    (hpost : RecvPost cap bufSize base S (fr.next g) fr res fr') :
    RecvInv cap bufSize base ⟨g', fr', log ++ [⟨g.published.length, g'.published.length,
      g'.consumed, ⟨res.rc, payloadOf S (fr.next g) res, fr'.lastSeq⟩⟩]⟩ := by
  have hc : g'.consumed = fr.next g := ht.consumed
  have hnext : fr'.next g' = fr.next g + fr'.pendingCommit.toNat := by
    unfold Receiver.next
    rw [hc]; rfl
  have hle := next_le_of_recvPost hpost (h.next.trans h1.length_le)
  refine ⟨ht.inv, ?_, (h.replay.mono ht.published).append ?_⟩
  · show fr'.next g' ≤ _
    rw [hnext]
    exact hle.trans h2.length_le
  · show Replay cap bufSize base g'.published (fr.next g) fr.lastSeq _ (fr'.next g') fr'.lastSeq
    have hseen : ∀ r, Seen g'.published
        ⟨g.published.length, g'.published.length, g'.consumed, r⟩ S :=
      fun r => ⟨h2, h1.length_le, h2.length_le⟩
    rcases refStep_of_recvPost hpost with ⟨hnone, rfl, rfl⟩ | hsome
    · have e : fr.released.next g' = fr.next g := hnext
      rw [e]
      exact .wait (hseen _) hnone rfl hc .nil
    · rw [hnext]
      exact .item (hseen _) hsome hc .nil

theorem RecvInv.commit {log : List Call} (h : RecvInv cap bufSize base ⟨g, fr, log⟩)
    (ht : Took cap base g fr.pendingCommit.toNat g') :
    RecvInv cap bufSize base ⟨g', fr.released, log⟩ := by
  have e : fr.released.next g' = fr.next g := by
    unfold Receiver.next
    rw [ht.consumed]; rfl
  refine ⟨ht.inv, ?_, ?_⟩
  · show fr.released.next g' ≤ _
    rw [e]
    exact h.next.trans ht.length_le
  · show Replay _ _ _ g'.published 0 0 log (fr.released.next g') fr.lastSeq
    rw [e]
    exact h.replay.mono ht.published

theorem recvStep_inv {s s' : RecvState} (hs : RecvInv cap bufSize base s)
    (h : RecvStep cap bufSize base s s') : RecvInv cap bufSize base s' := by
  cases h with
  | @publish g g' fr log hw =>
    have ht := took_of_wStep hw hs.inv
    have e : fr.next g' = fr.next g := by
      unfold Receiver.next
      rw [hw.consumed]
    refine ⟨ht.inv, ?_, ?_⟩
    · show fr.next g' ≤ _
      rw [e]
      exact hs.next.trans ht.length_le
    · show Replay _ _ _ g'.published 0 0 log (fr.next g') fr.lastSeq
      rw [e]
      exact hs.replay.mono hw.published
  | @tryRecv g g' fr fr' log res hrun =>
    have hwp : wpR cap base (recvCall cap bufSize fr) (fun p g' => RecvInv cap bufSize base
        ⟨g', p.2, log ++ [⟨g.published.length, g'.published.length, g'.consumed, p.1⟩]⟩) g :=
      recvCall_spec hs.inv hs.next fun S res fr' g' h1 h2 ht hpost => hs.call h1 h2 ht hpost
    have hQ := Prog.wp_exec hrun hwp
    exact hQ
  | @commit g g' fr fr' log hrun =>
    have hwp : wpR cap base fr.commit
        (fun fr' g' => RecvInv cap bufSize base ⟨g', fr', log⟩) g := by
      refine commit_spec hs.inv hs.next fun g' ht => ?_
      exact hs.commit ht
    have hQ := Prog.wp_exec hrun hwp
    exact hQ

theorem recvRun_inv {s s' : RecvState} (hs : RecvInv cap bufSize base s)
    (h : ReflTransGen (RecvStep cap bufSize base) s s') : RecvInv cap bufSize base s' := by
  induction h with
  | refl => exact hs
  | tail _ hstep ih => exact recvStep_inv ih hstep

/-! ### Streams of frames -/

/-- The bytes of the frame with the given payload and sequence number. -/
def encode (f : List UInt8 × UInt32) : List UInt8 :=
  MsgHeader.bytes ⟨UInt32.ofNat f.1.length, f.2⟩ ++ f.1

/-- What a receiver gets for the frames, the first of them at offset `p`. -/
def frameResults (cap : Capacity) (bufSize : UInt32) (base : ℕ) :
    ℕ → UInt32 → List (List UInt8 × UInt32) → List Result
  | _, _, [] => []
  | p, last, f :: fs =>
    if bufSize.toNat < f.1.length ∧ cap.val - (base + p) % cap.val < 8 + f.1.length then
      ⟨-2, [], last⟩ :: frameResults cap bufSize base (p + (8 + f.1.length)) last fs
    else ⟨0, f.1, f.2⟩ :: frameResults cap bufSize base (p + (8 + f.1.length)) f.2 fs

theorem ofBytes_bytes (h : MsgHeader) (l : List UInt8) :
    MsgHeader.ofBytes ((h.bytes ++ l).take 8) = h := by
  have e : (h.bytes ++ l).take 8 = h.bytes := List.take_left' rfl
  unfold MsgHeader.ofBytes
  rw [e]
  have h1 : ofLe h.bytes = h.len := ofLe_le32 h.len (le32 h.seq)
  have h2 : ofLe (h.bytes.drop 4) = h.seq := by
    have := ofLe_le32 h.seq []
    rw [List.append_nil] at this
    exact this
  rw [h1, h2]

theorem length_encode (f : List UInt8 × UInt32) : (encode f).length = 8 + f.1.length := by
  simp [encode]

/-- The step of the reference parser at a frame. -/
theorem refStep_encode {pre rest : List UInt8} {f : List UInt8 × UInt32}
    (hf : f.1.length ≤ cap.val - 8) :
    refStep cap bufSize base (pre ++ (encode f ++ rest)) pre.length last =
      if bufSize.toNat < f.1.length ∧ cap.val - (base + pre.length) % cap.val < 8 + f.1.length then
        some (⟨-2, [], last⟩, pre.length + (8 + f.1.length))
      else some (⟨0, f.1, f.2⟩, pre.length + (8 + f.1.length)) := by
  have hcap := cap.lt
  have hl : (UInt32.ofNat f.1.length).toNat = f.1.length := by
    rw [UInt32.toNat_ofNat', Nat.mod_eq_of_lt (by omega)]
  have hh : hdrAt (pre ++ (encode f ++ rest)) pre.length = ⟨UInt32.ofNat f.1.length, f.2⟩ := by
    unfold hdrAt encode
    rw [List.drop_left, List.append_assoc, ofBytes_bytes]
  have hb : bodyAt (pre ++ (encode f ++ rest)) pre.length = f.1 := by
    unfold bodyAt
    rw [hh, hl, ← List.drop_drop, List.drop_left]
    unfold encode
    rw [List.append_assoc, List.drop_left' (by simp), List.take_left]
  have hlen : (pre ++ (encode f ++ rest)).length = pre.length + (8 + f.1.length) + rest.length := by
    rw [List.length_append, List.length_append, length_encode]
    omega
  have hfr : FrameAt cap (pre ++ (encode f ++ rest)) pre.length := by
    refine ⟨by omega, ?_, ?_⟩ <;> rw [hh, hl] <;> omega
  have hsz : (kMsgHeaderSize + UInt32.ofNat f.1.length).toNat = 8 + f.1.length := by
    rw [toNat_frameLen (le_of_eq_of_le hl hf), hl]
  have hcond : (bufSize < (hdrAt (pre ++ (encode f ++ rest)) pre.length).len ∧
      Crosses cap base (pre ++ (encode f ++ rest)) pre.length) ↔
      (bufSize.toNat < f.1.length ∧
        cap.val - (base + pre.length) % cap.val < 8 + f.1.length) := by
    unfold Crosses
    rw [hh, UInt32.lt_iff_toNat_lt, hl]
  split_ifs with hd
  · rw [refStep_dropped hfr (hcond.mpr hd), hh, hsz]
  · rw [refStep_frame hfr fun h => hd (hcond.mp h), hh, hb, hsz]

theorem refResults_frames : ∀ (k : ℕ) (fs : List (List UInt8 × UInt32)) (pre : List UInt8)
    (last : UInt32), (∀ f ∈ fs, f.1.length ≤ cap.val - 8) →
    refResults cap bufSize base (pre ++ fs.flatMap encode) k pre.length last <+:
      frameResults cap bufSize base pre.length last fs
  | 0, fs, pre, last, _ => List.nil_prefix
  | k + 1, [], pre, last, _ => by
    have e : refStep cap bufSize base (pre ++ [].flatMap encode) pre.length last = none := by
      unfold refStep
      rw [if_pos (by simp)]
    rw [refResults, e]
    exact List.nil_prefix
  | k + 1, f :: fs, pre, last, hfs => by
    have hf := hfs f List.mem_cons_self
    have ih := fun last => refResults_frames k fs (pre ++ encode f) last
      fun x hx => hfs x (List.mem_cons_of_mem f hx)
    rw [List.length_append, length_encode] at ih
    rw [refResults, frameResults, List.flatMap_cons, refStep_encode hf, ← List.append_assoc]
    split_ifs with hd
    · exact List.prefix_cons_iff.mpr (Or.inr ⟨_, rfl, ih last⟩)
    · exact List.prefix_cons_iff.mpr (Or.inr ⟨_, rfl, ih f.2⟩)

/-- **Deframing refines the reference parser.** In every run, each `TryRecv` returned what the
reference parser says of the stream published at one moment of the call, leaving `read_pos` at the
frame it looked at; the results other than `-1` are the reference parse of the stream, however much
more of it may be published later; and for a stream of frames they are these frames in order. -/
theorem deframe_refines (cap : Capacity) (bufSize : UInt32) (base : ℕ) (d : ℕ → UInt8)
    {s : RecvState} (h : ReflTransGen (RecvStep cap bufSize base) (.start base d) s) :
    Replay cap bufSize base s.world.published 0 0 s.log (s.reader.next s.world)
        s.reader.lastSeq ∧
      (∀ S, s.world.published <+: S →
        results s.log = refResults cap bufSize base S (results s.log).length 0 0) ∧
      ∀ fs : List (List UInt8 × UInt32), (∀ f ∈ fs, f.1.length ≤ cap.val - 8) →
        s.world.published <+: fs.flatMap encode →
        results s.log <+: frameResults cap bufSize base 0 0 fs := by
  have hinv := recvRun_inv (recvInv_start cap bufSize base d) h
  refine ⟨hinv.replay, fun S hS => hinv.replay.results_eq hS, fun fs hfs hS => ?_⟩
  rw [hinv.replay.results_eq hS]
  exact refResults_frames _ fs [] 0 hfs

/-- A frame published across the ring end and received. -/
theorem deframe_refines_one : ∃ s, ReflTransGen (RecvStep .min 16 1015) (.start 1015 fun _ => 0) s ∧
    results s.log = [⟨0, [1, 2, 3], 7⟩] ∧
    results s.log = refResults .min 16 1015 s.world.published 1 0 0 := by
  have hw : wpW .min 1015
      (sendFrame .min 3 7 (.tryWrite (some ⟨[1, 2, 3], by decide⟩) fun _ => .done))
      (fun _ _ => True) (.empty 1015 fun _ => 0) :=
    sendFrame_spec (inv_empty .min 1015 _) (by decide) (fun _ _ _ _ _ _ _ => trivial)
      fun _ _ _ _ => trivial
  have hg := Prog.wp_run rStep_refl wStep_refl (fun _ _ _ => WStep.trans) hw
  have h1 : ReflTransGen (RecvStep .min 16 1015) (.start 1015 fun _ => 0) _ :=
    .single (.publish hg)
  have h2 := h1.tail (.tryRecv (Prog.exec_run _ wStep_refl (recvCall .min 16 .init) _))
  refine ⟨_, h2, by decide, ?_⟩
  exact (deframe_refines .min 16 1015 _ h2).2.1 _ List.prefix_rfl

end ShmIpc.Codec.Deframe
