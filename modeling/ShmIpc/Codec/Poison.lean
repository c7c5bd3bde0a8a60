import ShmIpc.Codec.Delivery
import ShmIpc.Ring.Batch

/-! # `Recv` on a stream from any peer

`Recv` of both codecs skips the frames that it cannot use, in a loop that ends with the first usable
frame, a header that no ring can satisfy, or a frame that is not whole. `Walk` is this walk through
the readable bytes, told without the reader: a frame that `TryRecv` drops and a frame that the codec
does not accept are passed over alike, though the code releases them in different places.
`recv_walks` says that the loop makes this walk and ends, for every content of the ring; where it
stops, `read_pos` stands. -/

namespace ShmIpc.Codec.Poison

open ShmIpc.Lib.RelyGuarantee ShmIpc.Lib.LittleEndian
open ShmIpc.Ring.RingBuf ShmIpc.Ring.History ShmIpc.Ring.Reader ShmIpc.Ring.Batch
open ShmIpc.Codec.Frame ShmIpc.Codec.FrameReader ShmIpc.Codec.Typed ShmIpc.Codec.Delivery

variable {M : Type} {codec : TypedCodec M} {cap : Capacity} {base : ℕ} {S : List UInt8} {p : ℕ}
  {g g' : World} {fr : Receiver}

/-! ### The walk -/

/-- `TryRecv` reports the frame at offset `p` as `-2`. -/
def Oversized (cap : Capacity) (base : ℕ) (S : List UInt8) (p : ℕ) : Prop :=
  TypedCodec.bufSize < (hdrAt S p).len ∧ Crosses cap base S p

/-- A header at offset `p` that no ring of this capacity can satisfy. -/
def Illegal (cap : Capacity) (S : List UInt8) (p : ℕ) : Prop :=
  p + 8 ≤ S.length ∧ cap.val - 8 < (hdrAt S p).len.toNat

/-- The stream ends at offset `p`, or in the frame there. -/
def Incomplete (cap : Capacity) (S : List UInt8) (p : ℕ) : Prop :=
  S.length < p + 8 ∨
    ((hdrAt S p).len.toNat ≤ cap.val - 8 ∧ S.length < p + 8 + (hdrAt S p).len.toNat)

/-- The walk through the stream `S`, frame by frame from an offset on: the result, and the offset at
which it ends. -/
inductive Walk (accepts : List UInt8 → M → Prop) (cap : Capacity) (base : ℕ) (S : List UInt8) :
    ℕ → ℤ × Option M → ℕ → Prop
  | take {p : ℕ} {msg : M} (h : FrameAt cap S p) (hd : ¬ Oversized cap base S p)
      (ha : accepts (bodyAt S p) msg) : Walk accepts cap base S p (0, some msg) p
  | illegal {p : ℕ} (h : Illegal cap S p) : Walk accepts cap base S p (-3, none) p
  | incomplete {p : ℕ} (h : Incomplete cap S p) : Walk accepts cap base S p (-1, none) p
  | skip {p q : ℕ} {out : ℤ × Option M} (h : FrameAt cap S p)
      (hp : Oversized cap base S p ∨ ∀ msg, ¬ accepts (bodyAt S p) msg)
      (rest : Walk accepts cap base S (p + (8 + (hdrAt S p).len.toNat)) out q) :
      Walk accepts cap base S p out q

/-! ### One turn -/

/-- What one turn returns and leaves, if it saw the stream `S` and looked at its offset `p`: its
result, and in `consumed` and `pending` where `read_pos` stands and what is not yet released. -/
inductive TurnEnd (codec : TypedCodec M) (cap : Capacity) (base : ℕ) (S : List UInt8) (p : ℕ) :
    Option (ℤ × Option M) → ℕ → ℕ → Prop
  | incomplete (h : Incomplete cap S p) : TurnEnd codec cap base S p (some (-1, none)) p 0
  | illegal (h : Illegal cap S p) : TurnEnd codec cap base S p (some (-3, none)) p 0
  | skip (h : FrameAt cap S p)
      (hp : Oversized cap base S p ∨ codec.decode (bodyAt S p) = none) :
      TurnEnd codec cap base S p none (p + (8 + (hdrAt S p).len.toNat)) 0
  | take {msg : M} (h : FrameAt cap S p) (hd : ¬ Oversized cap base S p)
      (ha : codec.decode (bodyAt S p) = some msg) :
      TurnEnd codec cap base S p (some (0, some msg)) p (8 + (hdrAt S p).len.toNat)

/-- What a result of `TryRecv` says of the stream. -/
theorem recvPost_cases {res : Recv} {fr' : Receiver}
    (h : RecvPost cap TypedCodec.bufSize base S p fr res fr') :
    (res = .again ∧ fr'.pendingCommit = 0 ∧ Incomplete cap S p) ∨
    (res = .illegal ∧ fr'.pendingCommit = 0 ∧ Illegal cap S p) ∨
    (res = .dropped ∧ fr'.pendingCommit = kMsgHeaderSize + (hdrAt S p).len ∧ FrameAt cap S p ∧
      Oversized cap base S p) ∨
    ((∃ payload len, res = .frame payload len) ∧
      fr'.pendingCommit = kMsgHeaderSize + (hdrAt S p).len ∧ FrameAt cap S p ∧
      ¬ Oversized cap base S p) := by
  cases h with
  | short h => exact Or.inl ⟨rfl, rfl, Or.inl h⟩
  | cut h hl hb => exact Or.inl ⟨rfl, rfl, Or.inr ⟨hl, hb⟩⟩
  | illegal h hl => exact Or.inr (Or.inl ⟨rfl, rfl, h, hl⟩)
  | dropped hf hbuf hend => exact Or.inr (Or.inr (Or.inl ⟨rfl, rfl, hf, hbuf, hend⟩))
  | empty hf hz =>
    refine Or.inr (Or.inr (Or.inr ⟨⟨_, _, rfl⟩, rfl, hf, fun h => ?_⟩))
    have hlt := h.1
    rw [hz, UInt32.lt_iff_toNat_lt] at hlt
    exact Nat.not_lt_zero _ hlt
  | ring hf hz hend =>
    exact Or.inr (Or.inr (Or.inr ⟨⟨_, _, rfl⟩, rfl, hf, fun h => hend h.2⟩))
  | buf hf hz hbuf hend =>
    exact Or.inr (Or.inr (Or.inr ⟨⟨_, _, rfl⟩, rfl, hf, fun h => hbuf h.1⟩))

/-- **One turn of `Recv`**, whatever the writer does meanwhile. -/
theorem turn_ends (hi : Inv cap base g) (hp : fr.next g ≤ g.published.length) :
    wpR cap base (codec.turn cap fr) (fun r g' => ∃ S, g.published <+: S ∧ S <+: g'.published ∧
      Inv cap base g' ∧
      TurnEnd codec cap base S (fr.next g) r.1 g'.consumed r.2.pendingCommit.toNat) g := by
  unfold TypedCodec.turn
  rw [wpR, Prog.wp_bind]
  refine tryRecv_spec hi hp fun S res fr₁ g₁ h1 h2 ht hpost => ?_
  have hc : g₁.consumed = fr.next g := ht.consumed
  have hcases := recvPost_cases hpost
  -- a skipped frame is released at once
  have hcommit : ∀ {g₂ : World}, Took cap base g₁ 0 g₂ → FrameAt cap S (fr.next g) →
      fr₁.pendingCommit = kMsgHeaderSize + (hdrAt S (fr.next g)).len →
      Oversized cap base S (fr.next g) ∨ codec.decode (bodyAt S (fr.next g)) = none →
      wpR cap base (do
        let fr ← fr₁.commit
        pure (none, fr)) (fun r g' => ∃ S, g.published <+: S ∧ S <+: g'.published ∧
          Inv cap base g' ∧
          TurnEnd codec cap base S (fr.next g) r.1 g'.consumed r.2.pendingCommit.toNat) g₂ := by
    intro g₂ h₂ hf hpend hbad
    have hc₂ : g₂.consumed = fr.next g := h₂.consumed.trans hc
    have hlen := (h2.trans h₂.published).length_le
    have hbody := hf.body
    have hsz : fr₁.pendingCommit.toNat = 8 + (hdrAt S (fr.next g)).len.toNat := by
      rw [hpend, toNat_frameLen hf.legal]
    rw [wpR, Prog.wp_bind]
    refine commit_spec h₂.inv ?_ fun g₃ h₃ => ?_
    · unfold Receiver.next
      rw [hc₂, hsz]
      omega
    · refine ⟨S, h1, (h2.trans h₂.published).trans h₃.published, h₃.inv, ?_⟩
      rw [h₃.consumed, hc₂, hsz]
      exact .skip hf hbad
  rcases hcases with ⟨rfl, h0, hno⟩ | ⟨rfl, h0, hno⟩ | ⟨rfl, hpend, hf, hover⟩ |
      ⟨⟨payload, len, rfl⟩, hpend, hf, hover⟩
  · refine ⟨S, h1, h2, ht.inv, ?_⟩
    rw [hc, h0]
    exact .incomplete hno
  · refine ⟨S, h1, h2, ht.inv, ?_⟩
    rw [hc, h0]
    exact .illegal hno
  · exact hcommit (took_refl ht.inv) hf hpend (Or.inl hover)
  · show wpR cap base (readPayload fr₁ len payload >>= _) _ g₁
    rw [wpR, Prog.wp_bind]
    refine readPayload_spec ht.inv h2 (le_of_eq hc) hpost fun g₂ h₂ => ?_
    rcases hd : codec.decode (bodyAt S (fr.next g)) with _ | msg
    · exact hcommit h₂ hf hpend (Or.inr hd)
    · refine ⟨S, h1, h2.trans h₂.published, h₂.inv, ?_⟩
      rw [show g₂.consumed = fr.next g from h₂.consumed.trans hc, hpend, toNat_frameLen hf.legal]
      exact .take hf hover hd

/-- One turn while the writer rests. -/
theorem turn_ends_run (hi : Inv cap base g) (hp : fr.next g ≤ g.published.length)
    {out : Option (ℤ × Option M)} {fr' : Receiver}
    (hrun : (codec.turn cap fr).run (World.exec cap) g = ((out, fr'), g')) :
    RStep g g' ∧ Inv cap base g' ∧
      TurnEnd codec cap base g.published (fr.next g) out g'.consumed fr'.pendingCommit.toNat := by
  have hwp : wpR cap base (codec.turn cap fr) _ g := turn_ends hi hp
  have hexec : (codec.turn cap fr).Exec (World.exec cap) (WStep cap base) g _ _ :=
    Prog.exec_run _ wStep_refl _ g
  have hstep := Prog.wp_run wStep_refl rStep_refl (fun _ _ _ => RStep.trans) hwp
  obtain ⟨S, h1, h2, h3, h4⟩ := Prog.wp_exec hexec hwp
  rw [hrun] at hstep h2 h3 h4
  have hS : S = g.published := by
    rw [hstep.published] at h2
    exact h2.eq_of_length_le h1.length_le
  rw [hS] at h4
  exact ⟨hstep, h3, h4⟩

/-! ### The loop -/

variable {accepts : List UInt8 → M → Prop}

/-- The whole loop while the writer rests, with a turn for every eight readable bytes. -/
theorem recv_ends (hacc : ∀ l msg, accepts l msg ↔ codec.decode l = some msg) :
    ∀ (fuel : ℕ) {fr : Receiver} {g : World}, Inv cap base g →
      fr.next g ≤ g.published.length → g.published.length < fr.next g + 8 * fuel →
      ∃ out fr' g', (codec.recv cap fuel fr).run (World.exec cap) g = ((some out, fr'), g') ∧
        RStep g g' ∧ Inv cap base g' ∧
        Walk accepts cap base g.published (fr.next g) out g'.consumed ∧
        fr'.pendingCommit.toNat =
          if out.1 = 0 then 8 + (hdrAt g.published g'.consumed).len.toNat else 0
  | 0, fr, g, hi, hp, hfuel => by omega
  | fuel + 1, fr, g, hi, hp, hfuel => by
    rcases hrun : (codec.turn cap fr).run (World.exec cap) g with ⟨⟨out, fr'⟩, g'⟩
    obtain ⟨hstep, hi', hend⟩ := turn_ends_run hi hp hrun
    generalize hq : g'.consumed = q at hend
    generalize hn : fr'.pendingCommit.toNat = n at hend
    cases hend with
    | incomplete h =>
      rw [recv_run_some fuel hrun]
      refine ⟨_, fr', g', rfl, hstep, hi', ?_, hn⟩
      rw [hq]
      exact .incomplete h
    | illegal h =>
      rw [recv_run_some fuel hrun]
      refine ⟨_, fr', g', rfl, hstep, hi', ?_, hn⟩
      rw [hq]
      exact .illegal h
    | take h hd ha =>
      rw [recv_run_some fuel hrun]
      refine ⟨_, fr', g', rfl, hstep, hi', ?_, by rw [if_pos rfl, hq]; exact hn⟩
      rw [hq]
      exact .take h hd ((hacc _ _).mpr ha)
    | skip h hbad =>
      rw [recv_run_none fuel hrun]
      have hbody := h.body
      have hpub := hstep.published
      have hnext : fr'.next g' = fr.next g + (8 + (hdrAt g.published (fr.next g)).len.toNat) := by
        unfold Receiver.next
        rw [hq, hn]
        rfl
      obtain ⟨out, fr₂, g₂, hrun₂, hstep₂, hi₂, hwalk, hpend⟩ :=
        recv_ends hacc fuel hi' (by rw [hnext, hpub]; omega) (by rw [hnext, hpub]; omega)
      rw [hpub] at hwalk hpend
      refine ⟨out, fr₂, g₂, hrun₂, RStep.trans hstep hstep₂, hi₂, .skip h ?_ ?_, hpend⟩
      · rcases hbad with hover | hnone
        · exact Or.inl hover
        · refine Or.inr fun msg ha => ?_
          rw [(hacc _ _).mp ha] at hnone
          cases hnone
      · rw [← hnext]
        exact hwalk

/-- What `Recv` does to the ring `m`, from the frame behind the pending one on: it returns what the
walk gives, releases what the walk has passed, and holds the frame that it returns. -/
structure Received (accepts : List UInt8 → M → Prop) (cap : Capacity) (m : Shm) (fr : Receiver)
    (out : ℤ × Option M) (fr' : Receiver) (m' : Shm) : Prop where
  walk : ∃ q, Walk accepts cap m.readPos.toNat (readable cap m) fr.pendingCommit.toNat out q ∧
    m'.readPos = m.readPos + UInt64.ofNat q ∧
    fr'.pendingCommit.toNat = if out.1 = 0 then 8 + (hdrAt (readable cap m) q).len.toNat else 0
  writePos : m'.writePos = m.writePos
  data : m'.data = m.data

theorem recv_received (hacc : ∀ l msg, accepts l msg ↔ codec.decode l = some msg) {m : Shm}
    {fuel : ℕ} (hm : (m.writePos - m.readPos).toNat ≤ cap.val)
    (hp : fr.pendingCommit.toNat ≤ (m.writePos - m.readPos).toNat)
    (hfuel : (m.writePos - m.readPos).toNat < fr.pendingCommit.toNat + 8 * fuel) :
    ∃ out fr' m', (codec.recv cap fuel fr).run Shm.exec m = ((some out, fr'), m') ∧
      Received accepts cap m fr out fr' m' := by
  have hi := inv_worldOf hm
  have hnext : fr.next (worldOf cap m) = fr.pendingCommit.toNat := Nat.zero_add _
  have hlen : (worldOf cap m).published.length = (m.writePos - m.readPos).toNat :=
    length_readable cap m
  have hle : fr.next (worldOf cap m) ≤ (worldOf cap m).published.length := by omega
  obtain ⟨out, fr', g', hrun, hstep, hi', hwalk, hpend⟩ :=
    recv_ends hacc fuel hi hle (by omega)
  have hshm := run_shm cap (codec.recv cap fuel fr) (worldOf cap m)
  rw [hrun] at hshm
  rw [hnext] at hwalk
  refine ⟨out, fr', g'.shm, hshm, ⟨g'.consumed, hwalk, ?_, hpend⟩, hstep.writePos, hstep.data⟩
  rw [hi'.readPos, UInt64.ofNat_add, UInt64.ofNat_toNat]

/-! ### What the codecs accept -/

/-- `PodCodec<T>` accepts the tag followed by the bytes of an object. -/
theorem podCodec_accepts (n : ℕ) (tag : UInt32) (l : List UInt8) (obj : Pod n) :
    l = podPayload tag obj ↔ (podCodec n tag).decode l = some obj := by
  unfold podCodec podDecodePayload podPayload kTagSize
  dsimp only
  constructor
  · rintro rfl
    have h4 : ¬ (le32 tag ++ obj.val).length < 4 := by
      rw [List.length_append, length_le32]
      omega
    rw [if_neg h4, if_pos (ofLe_le32 tag obj.val), List.drop_left' (length_le32 tag)]
    exact dif_pos obj.property
  · intro h
    by_cases hlt : l.length < 4
    · simp [hlt] at h
    by_cases htag : ofLe l = tag
    · rw [if_neg hlt, if_pos htag] at h
      simp only [] at h
      split_ifs at h with hn
      cases h
      rw [← htag]
      exact (le32_ofLe (by omega)).symm
    · simp [hlt, htag] at h

/-- `ProtoCodec<T>` accepts the name of the type, with its length, and bytes that `ParseFromArray`
accepts. -/
def ProtoAccepts (P : Proto M) (l : List UInt8) (msg : M) : Prop :=
  ∃ data, l = le16 (UInt16.ofNat P.typeName.length) ++ (P.typeName ++ data) ∧
    P.typeName.length < 65536 ∧ P.parse data = some msg

theorem protoCodec_accepts (P : Proto M) (l : List UInt8) (msg : M) :
    ProtoAccepts P l msg ↔ (protoCodec P).decode l = some msg := by
  unfold protoCodec
  dsimp only
  constructor
  · rintro ⟨data, rfl, hname, hparse⟩
    -- the decoder looks at the name only, so any serialiser will do
    have hpay := protoDecodePayload_payload { P with serialize := fun _ => data } hname msg
    have hd : protoDecodePayload P
        (le16 (UInt16.ofNat P.typeName.length) ++ (P.typeName ++ data)) = some data := hpay
    rw [hd]
    exact hparse
  · intro h
    rcases hp : protoDecodePayload P l with _ | data
    · rw [hp] at h
      cases h
    rw [hp] at h
    unfold protoDecodePayload kTypeNameLenSize at hp
    simp only [] at hp
    split_ifs at hp with h2 hpre hm
    cases hp
    have hle := toNat_ofLe16 l
    have hlt := (ofLe16 l).toNat_lt
    simp only [typeNameMatches, decide_eq_true_eq] at hm
    obtain ⟨hlen, hname⟩ := hm
    rw [List.length_take, List.length_drop] at hlen
    refine ⟨_, ?_, by omega, h⟩
    have hw : UInt16.ofNat P.typeName.length = ofLe16 l := by
      apply UInt16.toNat_inj.mp
      rw [UInt16.toNat_ofNat']
      omega
    rw [hw, ← hname, ← List.drop_drop, List.take_append_drop]
    exact (le16_ofLe16 (by omega)).symm

/-- **`Recv` skips exactly the frames that it cannot use, and ends.** For every content of the
ring, every offset and capacity, and a reader with or without a pending frame: with a turn for every
eight readable bytes the loops of `PodCodec<T>::Recv` and `ProtoCodec<T>::Recv` return, with the
result of the walk, and `read_pos` stands where the walk ends. -/
theorem recv_walks (cap : Capacity) (m : Shm) (fr : Receiver) (fuel : ℕ)
    (hm : (m.writePos - m.readPos).toNat ≤ cap.val)
    (hp : fr.pendingCommit.toNat ≤ (m.writePos - m.readPos).toNat)
    (hfuel : (m.writePos - m.readPos).toNat < fr.pendingCommit.toNat + 8 * fuel) :
    (∀ (n : ℕ) (tag : UInt32), ∃ out fr' m',
      ((podCodec n tag).recv cap fuel fr).run Shm.exec m = ((some out, fr'), m') ∧
      Received (fun l obj => l = podPayload tag obj) cap m fr out fr' m') ∧
    ∀ (M : Type) (P : Proto M), ∃ out fr' m',
      ((protoCodec P).recv cap fuel fr).run Shm.exec m = ((some out, fr'), m') ∧
      Received (ProtoAccepts P) cap m fr out fr' m' :=
  ⟨fun n tag => recv_received (podCodec_accepts n tag) hm hp hfuel,
    fun _ P => recv_received (protoCodec_accepts P) hm hp hfuel⟩

/-- A ring with an empty frame, a frame of tag 5 and one byte across the ring end, and three bytes
of a header. -/
def mixed : Shm where
  writePos := 1032
  readPos := 1008
  data off := if off = 1016 then 5 else if off = 0 then 5 else if off = 4 then 9 else 0
  efd := 0

/-- `PodCodec<T>::Recv` skips the first and returns the second, in two turns. -/
theorem recv_walks_mixed :
    (mixed.writePos - mixed.readPos).toNat ≤ Capacity.min.val ∧
    ∃ out fr' m', ((podCodec 1 5).recv .min 4 .init).run Shm.exec mixed = ((some out, fr'), m') ∧
      Received (fun l obj => l = podPayload 5 obj) .min mixed .init out fr' m' ∧ out.1 = 0 ∧
      m'.readPos = 1016 := by
  refine ⟨by decide, ?_⟩
  obtain ⟨out, fr', m', hrun, hrec⟩ :=
    (recv_walks .min mixed .init 4 (by decide) (by decide) (by decide)).1 1 5
  refine ⟨out, fr', m', hrun, hrec, ?_, ?_⟩
  · have hrc : (((podCodec 1 5).recv .min 4 .init).run Shm.exec mixed).1.1.map Prod.fst =
        some 0 := by decide
    rw [hrun] at hrc
    exact Option.some.inj hrc
  · have hpos : (((podCodec 1 5).recv .min 4 .init).run Shm.exec mixed).2.readPos = 1016 := by
      decide
    rw [hrun] at hpos
    exact hpos

end ShmIpc.Codec.Poison
