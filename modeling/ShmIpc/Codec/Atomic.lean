import ShmIpc.Codec.Accesses
import ShmIpc.Codec.Delivery

/-! # No frame is ever half visible

`Delivery` speaks of the moments between two calls. Here the same sender and receiver are watched at
every access: each call of the sender stores `write_pos` at most once, and then for whole frames;
each store of `read_pos` releases a whole frame. So at every moment the bytes between the two
positions are the frames of some messages, whatever has been copied to the ring behind them. -/

namespace ShmIpc.Codec.Atomic

open Relation
open ShmIpc.Lib.RelyGuarantee ShmIpc.Lib.Threads ShmIpc.Lib.Answers ShmIpc.Lib.Window
open ShmIpc.Ring.RingBuf ShmIpc.Ring.History ShmIpc.Ring.Writer ShmIpc.Ring.Reader
open ShmIpc.Ring.Channel
open ShmIpc.Codec.Frame ShmIpc.Codec.FrameReader ShmIpc.Codec.Deframe ShmIpc.Codec.Typed
open ShmIpc.Codec.Delivery ShmIpc.Codec.Accesses

variable {M : Type} {codec : TypedCodec M} {payload : M → List UInt8} {cap : Capacity} {base : ℕ}
  {g g' : World} {α : Type}

/-! ### One store of `write_pos` a call -/

/-- The access makes bytes readable. -/
def Publishes : Cmd → Prop
  | .storeWritePos _ => True
  | _ => False

theorem published_exec (c : Cmd) (g : World) (h : ¬ Publishes c) :
    (World.exec cap c g).2.published = g.published := by
  cases c with
  | storeWritePos v => exact absurd trivial h
  | _ => rfl

theorem writerSide_quiet : WriterSide cap fun c => ¬ Publishes c :=
  ⟨id, id, fun _ _ _ => id⟩

theorem once_batchFlush (b : BatchWriter) : Once Publishes (fun x => Drained x.2) b.flush := by
  unfold BatchWriter.flush
  split_ifs with h h'
  · exact .ret (Or.inl h)
  · exact .fire fun _ => Or.inr rfl
  · exact .ret (Or.inr (not_not.mp h'))

theorem once_flush (b : ChannelBatchWriter) :
    Once Publishes (fun x => Drained x.2.batch) b.flush := by
  unfold ChannelBatchWriter.flush
  refine (once_batchFlush b.batch).bind fun x hx => ?_
  show Always _ (if _ then _ else _) _
  split_ifs
  · exact ⟨id, fun _ => hx⟩
  · exact hx

theorem once_destroy (b : ChannelBatchWriter) {Q : Unit → Prop} (hQ : Q ()) :
    Once Publishes Q b.destroy := by
  unfold ChannelBatchWriter.destroy
  refine (once_flush b).bind fun x hx => ?_
  obtain ⟨n, b', he, -⟩ := flush_drained hx
  show Always _ (x.2.batch.flush >>= _) Q
  rw [he, Prog.ret_bind]
  exact hQ

/-- `SendFrame` publishes once: what its destructor calls find is already flushed. -/
theorem once_sendFrame (payloadLen seq : UInt32) (cb : Callback) {Q : Outcome → Prop}
    (hQ : ∀ out, Q out) : Once Publishes Q (sendFrame cap payloadLen seq cb) := by
  unfold sendFrame sendFrameFrom
  refine (always_writableBytes writerSide_quiet (Q := fun _ => True)
    fun _ => trivial).bind_once fun free _ => ?_
  simp only []
  split_ifs
  · exact .ret (hQ _)
  refine (always_startBatch (writerSide_quiet : WriterSide cap _) (Q := fun _ => True)
    fun _ => trivial).bind_once fun b _ => ?_
  refine (always_tryWriteBatch writerSide_quiet b _ (Q := fun _ => True)
    fun _ => trivial).bind_once fun x _ => ?_
  refine (always_callback writerSide_quiet (Q := fun _ => True)
    (fun _ => trivial) cb x.2).bind_once fun y _ => ?_
  show Once Publishes Q (if _ then _ else _)
  split_ifs
  · exact (once_destroy _ trivial).bind (A := fun _ => True) fun _ _ => hQ _
  · exact (once_destroy _ trivial).bind (A := fun _ => True) fun _ _ => hQ _
  · refine (once_flush y.2).bind fun z hz => ?_
    exact always_bind.mpr (always_destroy_drained hz id (hQ _))

/-- Every call of the sender publishes at most once, and what was accepted stays accepted. -/
theorem sendCall_once {l : SenderLoc M} {p : RingM (SenderLoc M)}
    (h : SendCall codec cap l g p) :
    Once Publishes (fun l' => l.accepted <+: l'.accepted) p := by
  cases h with
  | send hb msg seq =>
    unfold TypedCodec.send
    have hrest : ∀ out : Outcome, Always (R := Cmd.Res) (fun c => ¬ Publishes c)
        (if out = .ret 0 then pure { l with accepted := l.accepted ++ [(msg, seq)] } else pure l)
        fun l' => l.accepted <+: l'.accepted := by
      intro out
      split_ifs
      · exact List.prefix_append _ _
      · exact List.prefix_rfl
    split_ifs
    · exact (once_sendFrame _ _ _ fun _ => trivial).bind (A := fun _ => True) fun out _ => hrest out
    · exact (hrest (.ret (-1))).once
  | startBatch hb =>
    refine (always_bind.mpr
      (always_startBatch (writerSide_quiet : WriterSide cap _) fun _ => ?_)).once
    exact List.prefix_rfl
  | @sendBatch b hb msg seq =>
    unfold TypedCodec.sendBatch
    have hrest : ∀ x : Outcome × ChannelBatchWriter, Always (R := Cmd.Res) (fun c => ¬ Publishes c)
        (if x.1 = .ret 0 then
          pure { l with batch := some x.2, pending := l.pending ++ [(msg, seq)] }
        else pure { l with batch := some x.2 })
        fun l' => l.accepted <+: l'.accepted := by
      intro x
      split_ifs
      · exact List.prefix_rfl
      · exact List.prefix_rfl
    split_ifs
    · exact (always_bind.mpr (always_sendFrameBatch writerSide_quiet b _ _ _ hrest)).once
    · exact (hrest (.ret (-1), b)).once
  | flush hb => exact (once_flush _).bind fun _ _ => List.prefix_append _ _
  | cancel hb => exact .ret List.prefix_rfl
  | done hb =>
    exact (once_destroy _ trivial).bind (A := fun _ => True) fun _ _ => List.prefix_append _ _

/-! ### Frames -/

/-- The stream `P` is frames, and offset `n` is between two of them. -/
def Boundary (payload : M → List UInt8) (cap : Capacity) (P : List UInt8) (n : ℕ) : Prop :=
  ∃ ms ms', P = streamOf payload (ms ++ ms') ∧ n = (streamOf payload ms).length ∧
    ∀ x ∈ ms ++ ms', (payload x.1).length ≤ cap.val - 8

/-- The positions are between frames. -/
def Aligned (payload : M → List UInt8) (cap : Capacity) (g : World) : Prop :=
  Boundary payload cap g.published g.consumed

/-- What an access of the sender may do. -/
structure WFrame (payload : M → List UInt8) (cap : Capacity) (base : ℕ) (g g' : World) : Prop where
  step : WStep cap base g g'
  frames : ∃ ms, g'.published = g.published ++ streamOf payload ms ∧
    ∀ x ∈ ms, (payload x.1).length ≤ cap.val - 8

/-- What an access of the receiver may do. -/
structure RFrame (payload : M → List UInt8) (cap : Capacity) (g g' : World) : Prop where
  step : RStep g g'
  aligned : Aligned payload cap g → Aligned payload cap g'

theorem Boundary.frame {n : ℕ} (h : Boundary payload cap g.published n)
    (hw : WFrame payload cap base g g') : Boundary payload cap g'.published n := by
  obtain ⟨ms, ms', hP, hn, hsmall⟩ := h
  obtain ⟨fs, hfs, hsmall'⟩ := hw.frames
  refine ⟨ms, ms' ++ fs, ?_, hn, fun x hx => ?_⟩
  · rw [hfs, hP, ← streamOf_append, List.append_assoc]
  · rw [← List.append_assoc, List.mem_append] at hx
    exact hx.elim (hsmall x) (hsmall' x)

theorem Aligned.frame (h : Aligned payload cap g) (hw : WFrame payload cap base g g') :
    Aligned payload cap g' := by
  unfold Aligned
  rw [hw.step.consumed]
  exact Boundary.frame h hw

theorem wFrame_refl (g : World) : WFrame payload cap base g g :=
  ⟨wStep_refl g, [], by simp [streamOf], fun x hx => absurd hx List.not_mem_nil⟩

theorem WFrame.trans {g'' : World} (h : WFrame payload cap base g g')
    (h' : WFrame payload cap base g' g'') : WFrame payload cap base g g'' := by
  obtain ⟨ms, hms, hs⟩ := h.frames
  obtain ⟨ms', hms', hs'⟩ := h'.frames
  refine ⟨h.step.trans h'.step, ms ++ ms', ?_, fun x hx => ?_⟩
  · rw [hms', hms, streamOf_append, List.append_assoc]
  · exact (List.mem_append.mp hx).elim (hs x) (hs' x)

theorem RFrame.trans {g'' : World} (h : RFrame payload cap g g')
    (h' : RFrame payload cap g' g'') : RFrame payload cap g g'' :=
  ⟨h.step.trans h'.step, fun ha => h'.aligned (h.aligned ha)⟩

/-! ### The sender -/

/-- A call of the sender publishes at most once, and then whole frames behind what was there when it
started. -/
theorem sendCall_frames (hlaw : codec.Lawful payload) {l : SenderLoc M} {p : RingM (SenderLoc M)}
    (h : SendInv payload cap base l g) (hc : SendCall codec cap l g p) :
    p.wp (World.exec cap) RStep
      (fun s s' => WFrame payload cap base s s' ∧
        (s'.published = s.published ∨ s.published = streamOf payload l.accepted))
      (SendInv payload cap base) g := by
  -- the new bytes are the frames of the messages accepted meanwhile
  have hT : ∀ l' g', l.accepted <+: l'.accepted → SendInv payload cap base l' g' →
      ∃ ms, g'.published = g.published ++ streamOf payload ms ∧
        ∀ x ∈ ms, (payload x.1).length ≤ cap.val - 8 := by
    rintro l' g' ⟨ms, hms⟩ h'
    refine ⟨ms, ?_, fun x hx => h'.small x ?_⟩
    · rw [h'.stream, h.stream, ← hms, streamOf_append]
    · rw [← hms]
      exact List.mem_append_left _ (List.mem_append_right _ hx)
  have hat := wp_atomic World.published (o := g.published)
    (T := fun P => ∃ ms, P = g.published ++ streamOf payload ms ∧
      ∀ x ∈ ms, (payload x.1).length ≤ cap.val - 8)
    rStep_refl (fun _ _ hr => hr.published) (fun c s => published_exec c s)
    hT (sendCall_once hc) rfl (sendCall_wp hlaw h hc)
  refine wp_conseq (fun _ _ hr => hr) (fun s s' hg => ?_) hat
  rcases hg.2 with he | ⟨he, hms⟩
  · refine ⟨⟨hg.1, [], ?_, fun x hx => absurd hx List.not_mem_nil⟩, Or.inl he⟩
    rw [he]
    simp [streamOf]
  · rw [← he] at hms
    exact ⟨⟨hg.1, hms⟩, Or.inr (he.trans h.stream)⟩

/-- A boundary stays one while the program runs. -/
theorem wp_boundary {p : RingM α} {guar : World → World → Prop} {Q : α → World → Prop} {n : ℕ}
    (hg : ∀ s s', guar s s' → s'.published = s.published)
    (hn : Boundary payload cap g.published n)
    (h : p.wp (World.exec cap) (WFrame payload cap base) guar Q g) :
    p.wp (World.exec cap) (WFrame payload cap base)
      (fun s s' => Boundary payload cap s.published n ∧ guar s s')
      (fun a s => Q a s ∧ Boundary payload cap s.published n) g :=
  wp_keep (K := fun s => Boundary payload cap s.published n) (fun _ _ hK hr => hK.frame hr)
    (fun s s' hK hs => by rw [hg s s' hs]; exact hK) hn h

/-- A parse of a stream of frames, by `rs.length` results, is behind as many frames. -/
theorem parsed_position {bufSize : UInt32} : ∀ {rs : List Result} (pre : List (M × UInt32))
    {ms : List (M × UInt32)} {last last' : UInt32} {q : ℕ},
    Parsed cap bufSize base (streamOf payload (pre ++ ms)) (streamOf payload pre).length last rs q
      last' →
    (∀ x ∈ pre ++ ms, (payload x.1).length ≤ cap.val - 8) →
    rs.length ≤ ms.length ∧ q = (streamOf payload (pre ++ ms.take rs.length)).length
  | [], pre, ms, _, _, _, .nil, hs => ⟨Nat.zero_le _, by simp⟩
  | r :: rs, pre, [], last, _, _, .cons hstep _, _ => by
    unfold refStep at hstep
    rw [List.append_nil, if_pos (by omega)] at hstep
    exact absurd hstep (by simp)
  | r :: rs, pre, x :: ms, last, last', q, .cons hstep rest, hs => by
    have hx := hs x (List.mem_append_right _ List.mem_cons_self)
    have hsplit : streamOf payload (pre ++ x :: ms) =
        streamOf payload pre ++ (encode (frameOf payload x) ++ streamOf payload ms) := by
      rw [streamOf_append]
      rfl
    have hlen : (streamOf payload (pre ++ [x])).length =
        (streamOf payload pre).length + (8 + (payload x.1).length) := by
      rw [streamOf_append, List.length_append]
      simp [streamOf, length_encode, frameOf]
    have hassoc : ∀ l, pre ++ x :: l = (pre ++ [x]) ++ l := by simp
    rw [hsplit, refStep_encode (f := frameOf payload x) hx] at hstep
    rw [hassoc] at hs rest
    rw [List.length_cons, List.length_cons, List.take_succ_cons, hassoc]
    split_ifs at hstep <;> cases hstep
    all_goals
      have rest' := rest
      rw [show (frameOf payload x).1 = payload x.1 from rfl, ← hlen] at rest'
      obtain ⟨hle, hq⟩ := parsed_position _ rest' hs
      exact ⟨by omega, hq⟩

/-- A parse of a stream of frames is at a boundary. -/
theorem boundary_of_parsed {bufSize : UInt32} {rs : List Result} {ms : List (M × UInt32)}
    {last last' : UInt32} {q : ℕ}
    (h : Parsed cap bufSize base (streamOf payload ms) 0 last rs q last')
    (hs : ∀ x ∈ ms, (payload x.1).length ≤ cap.val - 8) :
    Boundary payload cap (streamOf payload ms) q := by
  obtain ⟨-, hq⟩ := parsed_position [] h hs
  refine ⟨ms.take rs.length, ms.drop rs.length, ?_, hq, ?_⟩
  · rw [List.take_append_drop]
  · rwa [List.take_append_drop]

theorem RecvInv.boundary {l : RecvLoc M} (h : RecvInv codec cap base l g)
    (ha : Aligned payload cap g) : Boundary payload cap g.published (l.fr.next g) := by
  obtain ⟨rs, hparsed, -⟩ := h.parsed
  obtain ⟨ms, ms', hP, -, hsmall⟩ := ha
  rw [hP] at hparsed ⊢
  exact boundary_of_parsed hparsed hsmall

/-- The ring holds whole frames only: those of `held` are between the two positions, those of
`gone` before them. The messages that a finished call has accepted are among them in front, and all
of them between two calls of the sender. -/
structure Whole (payload : M → List UInt8) (cap : Capacity) (base : ℕ) (m : Shm)
    (t : Thread Cmd Cmd.Res (SenderLoc M)) (gone held : List (M × UInt32)) : Prop where
  readPos : m.readPos = UInt64.ofNat (base + (streamOf payload gone).length)
  writePos : m.writePos = UInt64.ofNat (base + (streamOf payload (gone ++ held)).length)
  data : slice cap.val m.data (base + (streamOf payload gone).length)
    (streamOf payload held).length = streamOf payload held
  accepted : streamOf payload t.loc.accepted <+: streamOf payload (gone ++ held)
  idle : ∀ w, t = .idle w → streamOf payload (gone ++ held) = streamOf payload w.accepted

end ShmIpc.Codec.Atomic
