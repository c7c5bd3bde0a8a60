import ShmIpc.Codec.Drain
import ShmIpc.Lib.Linear

/-! # The typed codecs are a queue

What the two processes would like to share is a queue: `Send` puts a message at its end, `Flush`
puts a whole batch there at once, `Recv` takes the first message or finds the queue empty, and each
of these happens at one moment. `codecs_linearizable`: the ring with the codecs over it cannot be
told from such a queue, in any run of the two sides, access by access. The moment of a sender's call
is its store of `write_pos`; the moment of a turn of `Recv` is its last access.

One thing the queue must be allowed to do: to lose a message that is larger than the receiver's
fallback buffer. -/

namespace ShmIpc.Codec.Linear

open Relation
open ShmIpc.Lib.RelyGuarantee ShmIpc.Lib.Threads ShmIpc.Lib.Answers ShmIpc.Lib.Linear
open ShmIpc.Ring.RingBuf ShmIpc.Ring.History ShmIpc.Ring.Writer ShmIpc.Ring.Reader
open ShmIpc.Codec.Frame ShmIpc.Codec.FrameReader ShmIpc.Codec.Deframe ShmIpc.Codec.Typed
open ShmIpc.Codec.Delivery ShmIpc.Codec.Atomic

variable {M : Type} {codec : TypedCodec M} {payload : M → List UInt8} {cap : Capacity} {base : ℕ}
  {g g' : World}

/-! ### The queue -/

/-- What a turn of `Recv` returns; `none` if the loop goes on. -/
abbrev Out (M : Type) := Option (ℤ × Option M)

/-- The sender's operation: `ms` comes to the end, all at once. Without any message it is a call
that was refused, or one that leaves the queue alone. -/
def Enqueue (accepted queue accepted' queue' : List (M × UInt32)) : Prop :=
  ∃ ms, accepted' = accepted ++ ms ∧ queue' = queue ++ ms

/-- The receiver's operation. -/
inductive Dequeue (payload : M → List UInt8) :
    List (Out M) → List (M × UInt32) → List (Out M) → List (M × UInt32) → Prop
  | recv (outs : List (Out M)) (x : M × UInt32) (queue : List (M × UInt32)) :
      Dequeue payload outs (x :: queue) (outs ++ [some (0, some x.1)]) queue
  | lose (outs : List (Out M)) (x : M × UInt32) (queue : List (M × UInt32))
      (h : TypedCodec.bufSize.toNat < (payload x.1).length) :
      Dequeue payload outs (x :: queue) (outs ++ [none]) queue
  | empty (outs : List (Out M)) : Dequeue payload outs [] (outs ++ [some (-1, none)]) []

/-- The queue as an object of a sender, who knows what was accepted, and a receiver, who knows what
`Recv` has returned. -/
def queue (payload : M → List UInt8) :
    Object (List (M × UInt32)) (List (Out M)) (List (M × UInt32)) where
  op₁ := Enqueue
  op₂ := Dequeue payload

/-! ### The receiver with its results -/

/-- The receiver between two turns of its loop, with what each turn has returned. -/
structure LogLoc (M : Type) where
  fr : Receiver
  outs : List (Out M)

/-- The calls of the receiver: turns of the loop of `Recv`. -/
inductive LogCall (codec : TypedCodec M) (cap : Capacity) :
    LogLoc M → World → RingM (LogLoc M) → Prop
  | turn {l : LogLoc M} {g : World} :
      LogCall codec cap l g (do
        let (out, fr') ← codec.turn cap l.fr
        return { fr := fr', outs := l.outs ++ [out] })

/-- How many messages a turn takes from the queue. -/
def takes : Out M → ℕ
  | some (_, none) => 0
  | _ => 1

/-- How many messages were taken. -/
def taken (outs : List (Out M)) : ℕ := (outs.map takes).sum

theorem taken_concat (outs : List (Out M)) (out : Out M) :
    taken (outs ++ [out]) = taken outs + takes out := by
  simp [taken]

/-- Only frames were published. -/
def Framed (payload : M → List UInt8) (cap : Capacity) (g : World) : Prop :=
  ∃ ms, g.published = streamOf payload ms ∧ ∀ x ∈ ms, (payload x.1).length ≤ cap.val - 8

/-- What the receiver keeps between its turns. -/
structure LogInv (payload : M → List UInt8) (cap : Capacity) (base : ℕ) (l : LogLoc M) (g : World) :
    Prop where
  inv : Inv cap base g
  next : l.fr.next g ≤ g.published.length
  framed : Framed payload cap g
  parsed : ∃ rs, Parsed cap TypedCodec.bufSize base g.published 0 0 rs (l.fr.next g) l.fr.lastSeq ∧
    rs.length = taken l.outs

theorem Framed.wFrame (h : Framed payload cap g) (hw : WFrame payload cap base g g') :
    Framed payload cap g' := by
  obtain ⟨ms, hP, hs⟩ := h
  obtain ⟨fs, hfs, hs'⟩ := hw.frames
  refine ⟨ms ++ fs, by rw [hfs, hP, streamOf_append], fun x hx => ?_⟩
  exact (List.mem_append.mp hx).elim (hs x) (hs' x)

theorem Framed.rStep (h : Framed payload cap g) (hr : RStep g g') : Framed payload cap g' := by
  unfold Framed
  rw [hr.published]
  exact h

theorem LogInv.boundary {l : LogLoc M} (h : LogInv payload cap base l g) :
    Boundary payload cap g.published (l.fr.next g) := by
  obtain ⟨rs, hparsed, -⟩ := h.parsed
  obtain ⟨ms, hP, hs⟩ := h.framed
  rw [hP] at hparsed ⊢
  exact boundary_of_parsed hparsed hs

/-! ### A turn that finds nothing -/

/-- A frame that begins before the end of the stream is whole. -/
theorem Boundary.whole {P : List UInt8} {p : ℕ} (h : Boundary payload cap P p)
    (hlt : p < P.length) :
    p + 8 ≤ P.length ∧ p + 8 + (hdrAt P p).len.toNat ≤ P.length := by
  obtain ⟨hnone, hsome⟩ := Drain.Boundary.refStep h 0 0 0
  unfold refStep at hnone hsome
  split_ifs at hnone hsome with h1 h2 h3 h4
  · exact absurd (hnone rfl) (by omega)
  · exact absurd rfl (hsome _ _ rfl)
  · exact absurd (hnone rfl) (by omega)
  · omega
  · omega

/-- With `-1`, `TryRecv` has seen the end of the stream at its last access. -/
theorem tryRecv_again {fr : Receiver} {bufSize : UInt32} (hi : Inv cap base g)
    (hp : fr.next g ≤ g.published.length) (hb : Boundary payload cap g.published (fr.next g)) :
    (fr.tryRecv cap bufSize).wp (World.exec cap) (WFrame payload cap base) RStep
      (fun x g' => x.1 = .again → g'.published.length = fr.next g) g := by
  have hcap := cap.lt
  have h8 : kMsgHeaderSize.toNat = 8 := rfl
  unfold Receiver.tryRecv
  have hcommit : wpR cap base fr.commit
      (fun _ g₁ => Inv cap base g₁ ∧ g₁.consumed = fr.next g) g :=
    commit_spec hi hp fun g₁ h₁ => ⟨h₁.inv, h₁.consumed⟩
  have hcommit' := wp_boundary (fun _ _ hg => hg.published) hb
    (wp_conseq (fun _ _ (hr : WFrame payload cap base _ _) => hr.step) (fun _ _ hg => hg)
      hcommit)
  rw [Prog.wp_bind]
  refine Prog.wp_mono ?_ (wp_conseq (fun _ _ hr => hr) (fun _ _ hg => hg.2) hcommit')
  rintro fr₁ g₁ ⟨⟨hi₁, hc₁⟩, hb₁⟩
  have hpeek : wpR cap base (peek cap) (fun o g₂ => g₂.consumed = fr.next g ∧
      (o = none → g₂.published.length = fr.next g) ∧ ∀ s, o = some s →
        ∃ n, 0 < n ∧ g₂.published.length = fr.next g + n ∧ Peeked cap base g₂ s n) g₁ := by
    refine peek_spec hi₁ (fun s n g₂ hpos _ hn ht hpk => ?_) fun g₂ ht hn => ?_
    · refine ⟨ht.consumed.trans hc₁, fun h => absurd h (by simp), fun s' hs' => ?_⟩
      cases hs'
      exact ⟨n, hpos, by rw [hn, hc₁], hpk⟩
    · exact ⟨ht.consumed.trans hc₁, fun _ => by rw [hn, hc₁], fun s' hs' => absurd hs' (by simp)⟩
  have hpeek' := wp_boundary (fun _ _ hg => hg.published) hb₁
    (wp_conseq (fun _ _ (hr : WFrame payload cap base _ _) => hr.step) (fun _ _ hg => hg)
      hpeek)
  rw [Prog.wp_bind]
  refine Prog.wp_mono ?_ (wp_conseq (fun _ _ hr => hr) (fun _ _ hg => hg.2) hpeek')
  rintro o g₂ ⟨⟨hc₂, hnone, hsome⟩, hb₂⟩
  cases o with
  | none => exact fun _ => hnone rfl
  | some s =>
    obtain ⟨n, hpos, hlen, hpk⟩ := hsome s rfl
    obtain ⟨hh, hwhole⟩ := Boundary.whole hb₂ (by omega)
    have htot : (s.seg1Len + s.seg2Len).toNat = n := by
      have := hpk.total
      have := hpk.n_le
      rw [UInt32.toNat_add]
      omega
    -- the header is there and the frame is whole, so that nothing is left to wait for
    refine wp_conseq (fun _ _ hr => WFrame.step hr) (fun _ _ hg => hg) ?_
    have hshort : ¬ s.seg1Len + s.seg2Len < kMsgHeaderSize := by
      rw [UInt32.lt_iff_toNat_lt, htot, h8]
      omega
    simp only []
    rw [if_neg hshort, Prog.wp_bind]
    refine readHeader_spec hpk (by omega) fun g₃ h₃ => ?_
    rw [hc₂]
    have hcut : ¬ s.seg1Len + s.seg2Len - kMsgHeaderSize <
        (hdrAt g₂.published (fr.next g)).len := by
      rw [UInt32.lt_iff_toNat_lt, UInt32.toNat_sub_of_le _ _
        (by rw [UInt32.le_iff_toNat_le, htot, h8]; omega), htot, h8]
      omega
    rw [if_neg hcut]
    split_ifs
    · exact fun he => by cases he
    · exact fun he => by cases he
    · exact fun he => by cases he
    · exact fun he => by cases he
    · rw [Prog.wp_bind]
      exact copyFromSegments_spec (hpk.took h₃) (by rw [h8]; omega) fun g₄ _ he => by cases he

/-- The same for a turn of `Recv`. -/
theorem turn_again {fr : Receiver} {Q : Out M × Receiver → World → Prop} (hi : Inv cap base g)
    (hp : fr.next g ≤ g.published.length) (hb : Boundary payload cap g.published (fr.next g))
    (h : (codec.turn cap fr).wp (World.exec cap) (WFrame payload cap base) RStep Q g) :
    (codec.turn cap fr).wp (World.exec cap) (WFrame payload cap base) RStep
      (fun x g' => Q x g' ∧ (x.1 = some (-1, none) → g'.published.length = fr.next g)) g := by
  unfold TypedCodec.turn at h ⊢
  rw [Prog.wp_bind] at h ⊢
  refine Prog.wp_mono ?_ (wp_conseq (fun _ _ hr => hr) (fun _ _ hg => hg.1)
    (wp_and h (tryRecv_again hi hp hb)))
  rintro ⟨res, fr₁⟩ g₁ ⟨hrest, hag⟩
  -- a result other than `-1` speaks for itself
  have hother : ∀ {p : RingM (Out M × Receiver)},
      Always (fun _ => True) p (fun x => x.1 ≠ some (-1, none)) →
      p.wp (World.exec cap) (WFrame payload cap base) RStep Q g₁ →
      p.wp (World.exec cap) (WFrame payload cap base) RStep
        (fun x g' => Q x g' ∧ (x.1 = some (-1, none) → g'.published.length = fr.next g)) g₁ :=
    fun ha hw => Prog.wp_mono (fun x g' hx => ⟨hx.1, fun he => absurd he hx.2⟩) (wp_result ha hw)
  cases res with
  | again => exact ⟨hrest, fun _ => hag rfl⟩
  | illegal => exact ⟨hrest, fun he => absurd he (by simp)⟩
  | dropped => exact hother (always_bind.mpr (always_of_forall (fun _ he => by cases he) _)) hrest
  | frame ptr len =>
    refine hother (always_bind.mpr (always_of_forall (fun bytes => ?_) _)) hrest
    cases codec.decode bytes with
    | none => exact always_bind.mpr (always_of_forall (fun _ he => by cases he) _)
    | some msg => exact fun he => absurd he (by simp)

/-! ### A turn is an operation of the queue -/

theorem length_streamOf_cons (x : M × UInt32) (ms : List (M × UInt32)) :
    (streamOf payload (x :: ms)).length =
      8 + (payload x.1).length + (streamOf payload ms).length := by
  simp [streamOf, length_encode, frameOf]

/-- Two streams of frames that agree are frames of the same messages. -/
theorem streamOf_inj (hlaw : codec.Lawful payload) : ∀ {ms ms' : List (M × UInt32)},
    (∀ x ∈ ms, (payload x.1).length ≤ cap.val - 8) →
    (∀ x ∈ ms', (payload x.1).length ≤ cap.val - 8) →
    streamOf payload ms = streamOf payload ms' → ms = ms'
  | [], [], _, _, _ => rfl
  | [], x :: ms', _, _, he => by
    have := congrArg List.length he
    have h0 : (streamOf payload ([] : List (M × UInt32))).length = 0 := rfl
    rw [length_streamOf_cons] at this
    omega
  | x :: ms, [], _, _, he => by
    have := congrArg List.length he
    have h0 : (streamOf payload ([] : List (M × UInt32))).length = 0 := rfl
    rw [length_streamOf_cons] at this
    omega
  | x :: ms, x' :: ms', hs, hs', he => by
    have hcap := cap.lt
    have hx : (frameOf payload x).1.length ≤ cap.val - 8 := hs x List.mem_cons_self
    have hx' : (frameOf payload x').1.length ≤ cap.val - 8 := hs' x' List.mem_cons_self
    have he' : encode (frameOf payload x) ++ streamOf payload ms =
        encode (frameOf payload x') ++ streamOf payload ms' := he
    -- the reference parser, with a buffer for everything, reads the first frame
    have hmax : (4294967295 : UInt32).toNat = 4294967295 := rfl
    have hstep : ∀ (f : List UInt8 × UInt32) (rest : List UInt8), f.1.length ≤ cap.val - 8 →
        refStep cap 4294967295 0 (encode f ++ rest) 0 0 =
          some (⟨0, f.1, f.2⟩, 8 + f.1.length) := by
      intro f rest hf
      refine (@refStep_encode _ _ _ _ [] rest f hf).trans ?_
      rw [if_neg (by omega), List.length_nil, Nat.zero_add]
    have h1 := hstep _ (streamOf payload ms) hx
    have h2 := hstep _ (streamOf payload ms') hx'
    rw [he', h2] at h1
    injection h1 with h1
    injection h1 with h1 _
    injection h1 with _ hbody hseq
    have hm : x'.1 = x.1 := by
      have hd := congrArg codec.decode hbody
      unfold frameOf at hd
      rw [hlaw.decode, hlaw.decode] at hd
      exact Option.some.inj hd
    have hxx : x = x' := Prod.ext hm.symm hseq.symm
    subst hxx
    rw [streamOf_inj hlaw (fun y hy => hs y (List.mem_cons_of_mem _ hy))
      (fun y hy => hs' y (List.mem_cons_of_mem _ hy)) (List.append_cancel_left he')]

/-- What a turn does, on the queue of the messages that were published and not taken. -/
def Dequeues (payload : M → List UInt8) (cap : Capacity) (l l' : LogLoc M) (g : World) : Prop :=
  ∀ sent, g.published = streamOf payload sent →
    (∀ x ∈ sent, (payload x.1).length ≤ cap.val - 8) →
    taken l'.outs ≤ sent.length ∧
      Dequeue payload l.outs (sent.drop (taken l.outs)) l'.outs (sent.drop (taken l'.outs))

theorem dequeue_of_turn (hlaw : codec.Lawful payload) {outs : List (Out M)} {out : Out M}
    {sent : List (M × UInt32)} {S : List UInt8} {rs : List Result} {p q : ℕ} {last last' : UInt32}
    (hs : ∀ x ∈ sent, (payload x.1).length ≤ cap.val - 8) (hS : S <+: streamOf payload sent)
    (hparsed : Parsed cap TypedCodec.bufSize base (streamOf payload sent) 0 0 rs p last)
    (hrs : rs.length = taken outs) (hpost : TurnPost codec cap base S p last out q last')
    (hend : out = some (-1, none) → (streamOf payload sent).length = p) :
    taken (outs ++ [out]) ≤ sent.length ∧
      Dequeue payload outs (sent.drop (taken outs)) (outs ++ [out])
        (sent.drop (taken (outs ++ [out]))) := by
  obtain ⟨hle, hp⟩ := parsed_position [] hparsed hs
  rw [List.nil_append, hrs] at hp
  rw [hrs] at hle
  have hsplit : sent = sent.take (taken outs) ++ sent.drop (taken outs) :=
    (List.take_append_drop _ _).symm
  rw [taken_concat]
  -- the frame at which the parser stands is the first one in the queue
  have hstep : ∀ {r}, refStep cap TypedCodec.bufSize base S p last = some (r, q) →
      ∃ x rest, sent.drop (taken outs) = x :: rest ∧ sent.drop (taken outs + 1) = rest ∧
        taken outs + 1 ≤ sent.length ∧
        (r = ⟨0, payload x.1, x.2⟩ ∨
          r = ⟨-2, [], last⟩ ∧ TypedCodec.bufSize.toNat < (payload x.1).length) := by
    intro r hr
    have hr' := refStep_mono hS hr
    cases hd : sent.drop (taken outs) with
    | nil =>
      rw [hd, List.append_nil] at hsplit
      unfold refStep at hr'
      rw [if_pos (by rw [hp, ← hsplit]; omega)] at hr'
      cases hr'
    | cons x rest =>
      have hx : (frameOf payload x).1.length ≤ cap.val - 8 := by
        refine hs x ?_
        rw [hsplit, hd]
        exact List.mem_append_right _ List.mem_cons_self
      have hcut : streamOf payload sent = streamOf payload (sent.take (taken outs)) ++
          (encode (frameOf payload x) ++ streamOf payload rest) := by
        conv_lhs => rw [hsplit, hd, streamOf_append]
        rfl
      have hdrop : sent.drop (taken outs + 1) = rest := by
        rw [← List.drop_drop, hd]
        rfl
      have hlt : taken outs + 1 ≤ sent.length := by
        have := congrArg List.length hd
        rw [List.length_drop, List.length_cons] at this
        omega
      rw [hcut, hp, refStep_encode hx] at hr'
      refine ⟨x, rest, rfl, hdrop, hlt, ?_⟩
      split_ifs at hr' with hdrop'
      · injection hr' with hr'
        injection hr' with hr' _
        exact Or.inr ⟨hr'.symm, hdrop'.1⟩
      · injection hr' with hr'
        injection hr' with hr' _
        exact Or.inl hr'.symm
  cases hpost with
  | wait _ =>
    have hnil : sent.drop (taken outs) = [] := by
      have hlen := hend rfl
      rw [hp] at hlen
      cases hd : sent.drop (taken outs) with
      | nil => rfl
      | cons x rest =>
        have : (streamOf payload sent).length = (streamOf payload (sent.take (taken outs))).length +
            (streamOf payload (x :: rest)).length := by
          conv_lhs => rw [hsplit, hd, streamOf_append, List.length_append]
        rw [hlen, length_streamOf_cons] at this
        omega
    refine ⟨hle, ?_⟩
    show Dequeue payload outs (sent.drop (taken outs)) _ (sent.drop (taken outs + 0))
    rw [Nat.add_zero, hnil]
    exact .empty outs
  | illegal hr hrc =>
    obtain ⟨x, rest, -, -, -, rfl | ⟨rfl, -⟩⟩ := hstep hr
    · cases hrc
    · cases hrc
  | skip hr hnone _ =>
    obtain ⟨x, rest, hd, hd', hlt, rfl | ⟨-, hbig⟩⟩ := hstep hr
    · exact absurd hnone (by simp [deliver, hlaw.decode])
    · refine ⟨hlt, ?_⟩
      show Dequeue payload outs (sent.drop (taken outs)) _ (sent.drop (taken outs + 1))
      rw [hd, hd']
      exact .lose outs x rest hbig
  | @take r q msg hr hsome =>
    obtain ⟨x, rest, hd, hd', hlt, rfl | ⟨rfl, -⟩⟩ := hstep hr
    · have hm : deliver codec ⟨0, payload x.1, x.2⟩ = some x.1 := hlaw.decode x.1
      rw [hm] at hsome
      cases hsome
      refine ⟨hlt, ?_⟩
      show Dequeue payload outs (sent.drop (taken outs)) _ (sent.drop (taken outs + 1))
      rw [hd, hd']
      exact .recv outs x rest
    · cases hsome

/-! ### The two contracts -/

/-- The receiver's log after a turn. -/
theorem LogInv.turn (hlaw : codec.Lawful payload) {l : LogLoc M} {S : List UInt8} {out : Out M}
    {fr' : Receiver} (h : LogInv payload cap base l g) (h1 : g.published <+: S)
    (h2 : S <+: g'.published) (hi : Inv cap base g') (hf : Framed payload cap g')
    (hn : fr'.next g' ≤ g'.published.length)
    (hpost : TurnPost codec cap base S (l.fr.next g) l.fr.lastSeq out (fr'.next g') fr'.lastSeq)
    (hend : out = some (-1, none) → g'.published.length = l.fr.next g) :
    LogInv payload cap base ⟨fr', l.outs ++ [out]⟩ g' ∧
      Dequeues payload cap l ⟨fr', l.outs ++ [out]⟩ g' := by
  obtain ⟨rs, hparsed, hrs⟩ := h.parsed
  have hparsed := hparsed.mono (h1.trans h2)
  have hdeq : Dequeues payload cap l ⟨fr', l.outs ++ [out]⟩ g' := by
    intro sent hP hs
    rw [hP] at hparsed h2 hend
    exact dequeue_of_turn hlaw hs h2 hparsed hrs hpost hend
  refine ⟨⟨hi, hn, hf, ?_⟩, hdeq⟩
  show ∃ rs, Parsed _ _ _ g'.published 0 0 rs (fr'.next g') fr'.lastSeq ∧
    rs.length = taken (l.outs ++ [out])
  rw [taken_concat]
  obtain ⟨ms, hP, hs⟩ := hf
  generalize fr'.next g' = q at hpost
  generalize fr'.lastSeq = last' at hpost
  cases hpost with
  | wait hstep => exact ⟨rs, hparsed, hrs⟩
  | @illegal r q hstep hrc =>
    -- a stream of frames has no illegal header
    have hb : Boundary payload cap g'.published (l.fr.next g) := by
      rw [hP] at hparsed ⊢
      exact boundary_of_parsed hparsed hs
    have hstep' := refStep_mono h2 hstep
    exact absurd hrc ((Drain.Boundary.refStep hb TypedCodec.bufSize base l.fr.lastSeq).2 _ _ hstep')
  | @skip r q hstep hr hq =>
    exact ⟨rs ++ [r], hparsed.snoc (refStep_mono h2 hstep), by simp [hrs, takes]⟩
  | @take r q msg hstep hr =>
    exact ⟨rs ++ [r], hparsed.snoc (refStep_mono h2 hstep), by simp [hrs, takes]⟩

theorem log_contract (hlaw : codec.Lawful payload) (cap : Capacity) (base : ℕ) :
    CallContract (World.exec cap) (WFrame payload cap base) (fun _ => RStep) (LogCall codec cap)
      (LogInv payload cap base) (Dequeues payload cap) where
  call {l g p} h hc := by
    cases hc with
    | turn =>
      rw [Prog.wp_bind]
      have hspec : wpR cap base (codec.turn cap l.fr) (fun x g' => ∃ S, g.published <+: S ∧
          S <+: g'.published ∧ Inv cap base g' ∧ x.2.next g' ≤ g'.published.length ∧
          TurnPost codec cap base S (l.fr.next g) l.fr.lastSeq x.1 (x.2.next g') x.2.lastSeq) g :=
        turn_spec h.inv h.next fun S out fr' g' h1 h2 hi hn hpost => ⟨S, h1, h2, hi, hn, hpost⟩
      have hall := turn_again h.inv h.next h.boundary
        (wp_conseq (fun _ _ hr => hr.step) (fun _ _ hg => hg) hspec)
      have hkeep := wp_keep (K := Framed payload cap) (fun _ _ hK hr => hK.wFrame hr)
        (fun _ _ hK hr => hK.rStep hr) h.framed hall
      refine Prog.wp_mono ?_ (wp_conseq (fun _ _ hr => hr) (fun _ _ hg => hg.2) hkeep)
      rintro ⟨out, fr'⟩ g' ⟨⟨⟨S, h1, h2, hi, hn, hpost⟩, hend⟩, hf⟩
      exact h.turn hlaw h1 h2 hi hf hn hpost hend
  stable {l m m'} h hw := by
    have e : l.fr.next m' = l.fr.next m := by
      unfold Receiver.next
      rw [hw.step.consumed]
    obtain ⟨rs, hparsed, hrs⟩ := h.parsed
    refine ⟨hw.step.inv h.inv, ?_, h.framed.wFrame hw, rs, ?_, hrs⟩
    · rw [e]
      exact h.next.trans hw.step.published.length_le
    · rw [e]
      exact hparsed.mono hw.step.published

/-- What an access of a sender's call does: it publishes nothing, or it is the first of the call to
publish. -/
def Sends (payload : M → List UInt8) (cap : Capacity) (base : ℕ) (l : SenderLoc M)
    (g g' : World) : Prop :=
  WFrame payload cap base g g' ∧
    (g'.published = g.published ∨ g.published = streamOf payload l.accepted)

theorem sends_contract (hlaw : codec.Lawful payload) (cap : Capacity) (base : ℕ) :
    CallContract (World.exec cap) RStep (Sends payload cap base) (SendCall codec cap)
      (SendInv payload cap base) (fun _ _ _ => True) where
  call h hc := Prog.wp_mono (fun _ _ hi => ⟨hi, trivial⟩) (sendCall_frames hlaw h hc)
  stable h hr := (send_contract hlaw cap base).stable h hr

/-! ### The simulation -/

/-- The messages that have entered the queue, seen from the sender. -/
inductive Sending (sent : List (M × UInt32)) :
    Thread Cmd Cmd.Res (SenderLoc M) → Phase (List (M × UInt32)) → Prop
  | idle (w : SenderLoc M) (h : sent = w.accepted) : Sending sent (.idle w) (.ready w.accepted)
  | called (l : SenderLoc M) (p : RingM (SenderLoc M)) (h : sent = l.accepted) :
      Sending sent (.busy l p) (.called l.accepted)
  | done (l : SenderLoc M) (p : RingM (SenderLoc M)) (ms : List (M × UInt32)) (hms : ms ≠ [])
      (h : sent = l.accepted ++ ms) : Sending sent (.busy l p) (.done sent)

/-- The results of `Recv`, seen from the receiver. -/
inductive Receiving : Thread Cmd Cmd.Res (LogLoc M) → Phase (List (Out M)) → Prop
  | idle (r : LogLoc M) : Receiving (.idle r) (.ready r.outs)
  | called (l : LogLoc M) (p : RingM (LogLoc M)) : Receiving (.busy l p) (.called l.outs)

/-- The ring and the queue. -/
structure Sim (payload : M → List UInt8) (cap : Capacity) (base : ℕ)
    (s : Duo Cmd Cmd.Res (SenderLoc M) (LogLoc M) World)
    (a : Atomic (List (M × UInt32)) (List (Out M)) (List (M × UInt32))) : Prop where
  fst : CallOk (World.exec cap) RStep (Sends payload cap base) (SendInv payload cap base)
    (fun _ _ _ => True) s.fst s.mem
  snd : CallOk (World.exec cap) (WFrame payload cap base) (fun _ => RStep)
    (LogInv payload cap base) (Dequeues payload cap) s.snd s.mem
  sent : ∃ sent, s.mem.published = streamOf payload sent ∧
    (∀ x ∈ sent, (payload x.1).length ≤ cap.val - 8) ∧ Sending sent s.fst a.fst ∧
    taken a.snd.val ≤ sent.length ∧ a.obj = sent.drop (taken a.snd.val)
  outs : Receiving s.snd a.snd

/-- An access of the sender's call puts messages into the queue, at most once. -/
theorem Sends.more (hlaw : codec.Lawful payload) {l : SenderLoc M} {sent : List (M × UInt32)}
    (hg : Sends payload cap base l g g') (hpre : l.accepted <+: sent)
    (hP : g.published = streamOf payload sent)
    (hsmall : ∀ x ∈ sent, (payload x.1).length ≤ cap.val - 8) :
    ∃ ms, g'.published = streamOf payload (sent ++ ms) ∧
      (∀ x ∈ sent ++ ms, (payload x.1).length ≤ cap.val - 8) ∧
      (ms = [] ∨ sent = l.accepted) := by
  obtain ⟨hw, hfirst⟩ := hg
  obtain ⟨ms, hms, hsm⟩ := hw.frames
  rw [hP, ← streamOf_append] at hms
  have hall : ∀ x ∈ sent ++ ms, (payload x.1).length ≤ cap.val - 8 :=
    fun x hx => (List.mem_append.mp hx).elim (hsmall x) (hsm x)
  refine ⟨ms, hms, hall, hfirst.imp (fun he => ?_) fun he => ?_⟩
  · rw [hms, hP] at he
    exact List.append_right_eq_self.mp (streamOf_inj hlaw hall hsmall he)
  · rw [hP] at he
    exact streamOf_inj hlaw hsmall (fun x hx => hsmall x (hpre.subset hx)) he

/-- A step of the sender is none of the queue, or its operation, or the return of its call. -/
theorem Sending.moves (hlaw : codec.Lawful payload) {sent : List (M × UInt32)}
    {t t' : Thread Cmd Cmd.Res (SenderLoc M)} {ph : Phase (List (M × UInt32))}
    (hs : Sending sent t ph)
    (hm : Moves (Sends payload cap base) (SendInv payload cap base) (fun _ _ _ => True) t g t' g')
    (hP : g.published = streamOf payload sent)
    (hsmall : ∀ x ∈ sent, (payload x.1).length ≤ cap.val - 8) :
    ∃ ms ph', g'.published = streamOf payload (sent ++ ms) ∧
      (∀ x ∈ sent ++ ms, (payload x.1).length ≤ cap.val - 8) ∧ Sending (sent ++ ms) t' ph' ∧
      ∀ rph q, ReflTransGen (AtomicStep (queue payload)) ⟨ph, rph, q⟩ ⟨ph', rph, q ++ ms⟩ := by
  have hret : ∀ {l' ms}, SendInv payload cap base l' g' →
      g'.published = streamOf payload (sent ++ ms) →
      (∀ x ∈ sent ++ ms, (payload x.1).length ≤ cap.val - 8) → l'.accepted = sent ++ ms := by
    intro l' ms hi hms hall
    exact streamOf_inj hlaw (fun x hx => hi.small x (List.mem_append_left _ hx)) hall
      (hi.stream.symm.trans hms)
  cases hm with
  | @call l p =>
    cases hs with
    | idle _ h =>
      refine ⟨[], .called l.accepted, ?_, ?_, ?_, fun rph q => ?_⟩
      · rw [List.append_nil]; exact hP
      · rw [List.append_nil]; exact hsmall
      · rw [List.append_nil]; exact .called l p h
      · rw [List.append_nil]; exact .single .call₁
  | @whole l l' _ hi _ =>
    cases hs with
    | idle _ h =>
      have hP' : g.published = streamOf payload (sent ++ []) := by rw [List.append_nil]; exact hP
      have hall : ∀ x ∈ sent ++ [], (payload x.1).length ≤ cap.val - 8 := by
        rw [List.append_nil]; exact hsmall
      have he := hret hi hP' hall
      refine ⟨[], .ready l'.accepted, hP', hall, .idle l' he.symm, fun rph q => ?_⟩
      exact atomic_whole₁ ⟨[], by rw [he, h], rfl⟩
  | @access l p p' _ _ hg =>
    cases hs with
    | called _ _ h =>
      obtain ⟨ms, hms, hall, -⟩ := hg.more hlaw ⟨[], by rw [List.append_nil, h]⟩ hP hsmall
      by_cases hn : ms = []
      · refine ⟨ms, .called l.accepted, hms, hall, .called l p' ?_, fun rph q => ?_⟩
        · rw [hn, List.append_nil]; exact h
        · rw [hn, List.append_nil]
      · refine ⟨ms, .done (sent ++ ms), hms, hall, .done l p' ms hn (by rw [h]), fun rph q => ?_⟩
        exact .single (.op₁ ⟨ms, by rw [h], rfl⟩)
    | done _ _ ms₀ hms₀ h =>
      obtain ⟨ms, hms, hall, hfirst⟩ := hg.more hlaw ⟨ms₀, h.symm⟩ hP hsmall
      have hn : ms = [] := hfirst.resolve_right fun he =>
        hms₀ (List.append_right_eq_self.mp (h.symm.trans he))
      subst hn
      refine ⟨[], .done sent, hms, hall, ?_, fun rph q => ?_⟩
      · rw [List.append_nil]; exact .done l p' ms₀ hms₀ h
      · rw [List.append_nil]
  | @last l l' p _ _ hg hi _ =>
    cases hs with
    | called _ _ h =>
      obtain ⟨ms, hms, hall, -⟩ := hg.more hlaw ⟨[], by rw [List.append_nil, h]⟩ hP hsmall
      have he := hret hi hms hall
      refine ⟨ms, .ready l'.accepted, hms, hall, .idle l' he.symm, fun rph q => ?_⟩
      exact atomic_end₁ ⟨ms, by rw [he, h], rfl⟩
    | done _ _ ms₀ hms₀ h =>
      obtain ⟨ms, hms, hall, hfirst⟩ := hg.more hlaw ⟨ms₀, h.symm⟩ hP hsmall
      have hn : ms = [] := hfirst.resolve_right fun he =>
        hms₀ (List.append_right_eq_self.mp (h.symm.trans he))
      subst hn
      have he := hret hi hms hall
      refine ⟨[], .ready l'.accepted, hms, hall, .idle l' he.symm, fun rph q => ?_⟩
      rw [he, List.append_nil, List.append_nil]
      exact .single .ret₁

/-- A step of the receiver. -/
theorem Receiving.moves {sent : List (M × UInt32)} {t t' : Thread Cmd Cmd.Res (LogLoc M)}
    {ph : Phase (List (Out M))} (hr : Receiving t ph)
    (hm : Moves (fun _ => RStep) (LogInv payload cap base) (Dequeues payload cap) t g t' g')
    (hP : g.published = streamOf payload sent)
    (hsmall : ∀ x ∈ sent, (payload x.1).length ≤ cap.val - 8)
    (hle : taken ph.val ≤ sent.length) :
    g'.published = g.published ∧ ∃ ph', Receiving t' ph' ∧ taken ph'.val ≤ sent.length ∧
      ∀ sph, ReflTransGen (AtomicStep (queue payload)) ⟨sph, ph, sent.drop (taken ph.val)⟩
        ⟨sph, ph', sent.drop (taken ph'.val)⟩ := by
  cases hm with
  | @call l p =>
    cases hr with
    | idle _ => exact ⟨rfl, .called l.outs, .called l p, hle, fun sph => .single .call₂⟩
  | @whole l l' _ hi hp =>
    cases hr with
    | idle _ =>
      obtain ⟨hle', hop⟩ := hp sent hP hsmall
      exact ⟨rfl, .ready l'.outs, .idle l', hle',
        fun sph => .head .call₂ (atomic_end₂ (O := queue payload) hop)⟩
  | @access l p p' _ _ hg =>
    cases hr with
    | called _ _ => exact ⟨hg.published, .called l.outs, .called l p', hle, fun sph => .refl⟩
  | @last l l' p _ _ hg hi hp =>
    cases hr with
    | called _ _ =>
      obtain ⟨hle', hop⟩ := hp sent (hg.published.trans hP) hsmall
      exact ⟨hg.published, .ready l'.outs, .idle l', hle',
        fun sph => atomic_end₂ (O := queue payload) hop⟩

/-- One step of the two sides. -/
theorem Sim.step (hlaw : codec.Lawful payload)
    {s s' : Duo Cmd Cmd.Res (SenderLoc M) (LogLoc M) World}
    {a : Atomic (List (M × UInt32)) (List (Out M)) (List (M × UInt32))}
    (h : Sim payload cap base s a)
    (hstep : Step (World.exec cap) (SendCall codec cap) (LogCall codec cap) s s') :
    ∃ a', ReflTransGen (AtomicStep (queue payload)) a a' ∧ Sim payload cap base s' a' := by
  obtain ⟨h1, h2, ⟨sent, hP, hsmall, hs, hle, hq⟩, hr⟩ := h
  obtain ⟨⟨h1', h2'⟩, hmoves⟩ := duo_moves wFrame_refl rStep_refl (fun _ _ _ => WFrame.trans)
    (fun _ _ _ => RStep.trans) (fun _ _ _ hg => hg.1) (fun _ _ _ hg => hg)
    (sends_contract hlaw cap base) (log_contract hlaw cap base) h1 h2 hstep
  obtain ⟨ph₁, ph₂, q⟩ := a
  dsimp only at hs hle hq hr
  subst hq
  rcases hmoves with ⟨hm, he⟩ | ⟨hm, he⟩
  · obtain ⟨ms, ph', hP', hsmall', hs', hrun⟩ := hs.moves hlaw hm hP hsmall
    refine ⟨⟨ph', ph₂, sent.drop (taken ph₂.val) ++ ms⟩, hrun _ _, h1', h2',
      ⟨sent ++ ms, hP', hsmall', hs', ?_, ?_⟩, ?_⟩
    · exact hle.trans (by simp)
    · exact (List.drop_append_of_le_length hle).symm
    · rw [he]
      exact hr
  · obtain ⟨hp, ph', hr', hle', hrun⟩ := hr.moves hm hP hsmall hle
    refine ⟨⟨ph₁, ph', sent.drop (taken ph'.val)⟩, hrun _, h1', h2',
      ⟨sent, hp.trans hP, hsmall, ?_, hle', rfl⟩, hr'⟩
    rw [he]
    exact hs

/-! ### Both sides -/

/-- A sender and a receiver on an empty ring at offset `base`. -/
def begin (M : Type) (base : ℕ) (d : ℕ → UInt8) :
    Duo Cmd Cmd.Res (SenderLoc M) (LogLoc M) World where
  fst := .idle ⟨none, [], []⟩
  snd := .idle ⟨.init, []⟩
  mem := .empty base d

/-- The results `outs` of `Recv` account for the messages `gone`: each was returned, or lost because
it was too large, in order and each once. -/
inductive Account (payload : M → List UInt8) : List (Out M) → List (M × UInt32) → Prop
  | nil : Account payload [] []
  | recv {outs : List (Out M)} {gone : List (M × UInt32)} (x : M × UInt32)
      (h : Account payload outs gone) :
      Account payload (outs ++ [some (0, some x.1)]) (gone ++ [x])
  | lose {outs : List (Out M)} {gone : List (M × UInt32)} (x : M × UInt32)
      (hx : TypedCodec.bufSize.toNat < (payload x.1).length) (h : Account payload outs gone) :
      Account payload (outs ++ [none]) (gone ++ [x])
  | empty {outs : List (Out M)} {gone : List (M × UInt32)} (h : Account payload outs gone) :
      Account payload (outs ++ [some (-1, none)]) gone

/-- What has entered the queue has left it or is in it. -/
def Balanced (payload : M → List UInt8)
    (a : Atomic (List (M × UInt32)) (List (Out M)) (List (M × UInt32))) : Prop :=
  ∃ gone, a.fst.val = gone ++ a.obj ∧ Account payload a.snd.val gone

variable {a b : Atomic (List (M × UInt32)) (List (Out M)) (List (M × UInt32))}

theorem Balanced.step (h : Balanced payload a) (hstep : AtomicStep (queue payload) a b) :
    Balanced payload b := by
  obtain ⟨gone, hbal, hacc⟩ := h
  cases hstep with
  | call₁ => exact ⟨gone, hbal, hacc⟩
  | ret₁ => exact ⟨gone, hbal, hacc⟩
  | call₂ => exact ⟨gone, hbal, hacc⟩
  | ret₂ => exact ⟨gone, hbal, hacc⟩
  | op₁ hop =>
    obtain ⟨ms, rfl, rfl⟩ := hop
    refine ⟨gone, ?_, hacc⟩
    rw [← List.append_assoc]
    exact congrArg (· ++ ms) hbal
  | op₂ hop =>
    cases hop with
    | recv x => exact ⟨gone ++ [x], by rw [hbal]; simp, .recv x hacc⟩
    | lose x _ hx => exact ⟨gone ++ [x], by rw [hbal]; simp, .lose x hx hacc⟩
    | empty => exact ⟨gone, hbal, .empty hacc⟩

theorem Balanced.run (h : Balanced payload a)
    (hrun : ReflTransGen (AtomicStep (queue payload)) a b) : Balanced payload b := by
  induction hrun with
  | refl => exact h
  | tail _ hstep ih => exact ih.step hstep

/-- One result more, and `-1` only of an empty queue. -/
theorem Dequeue.result {outs outs' : List (Out M)} {q q' : List (M × UInt32)}
    (h : Dequeue payload outs q outs' q') :
    ∃ out, outs' = outs ++ [out] ∧ (out = some (-1, none) → q = []) := by
  cases h with
  | recv x => exact ⟨_, rfl, fun he => absurd he (by simp)⟩
  | lose x _ hx => exact ⟨_, rfl, fun he => absurd he (by simp)⟩
  | empty => exact ⟨_, rfl, fun _ => rfl⟩

end ShmIpc.Codec.Linear
