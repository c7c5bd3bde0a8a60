import ShmIpc.Codec.Frame
import ShmIpc.Ring.Batch

/-! # The frame size of the senders, with 32 bits

`SendFrame` and `SendFrameBatch` compute `8 + payload_len` with 32 bits and use it both for the
space check and for the check of what the callback has written; whether the header itself was
accepted they do not ask. A `payload_len` within eight of `2^32` wraps the sum to less than eight.
On a ring with eight free bytes the header is accepted and the second check fails, as it should. On
a fuller ring the header is refused, and a callback that happens to write the wrapped number of
bytes passes both checks (`FalseFrame`). `send_honest_iff` says that nothing else goes wrong. -/

namespace ShmIpc.Codec.FrameSize

open ShmIpc.Lib.RelyGuarantee
open ShmIpc.Ring.RingBuf ShmIpc.Ring.History ShmIpc.Ring.Writer ShmIpc.Ring.Channel
open ShmIpc.Ring.Batch
open ShmIpc.Codec.Frame

variable {cap : Capacity} {base : ℕ} {g g' : World} {b : BatchWriter} {rc : ℕ} {l : List UInt8}
  {payloadLen seq : UInt32} {cb : Callback}

/-! ### When the checks are fooled -/

/-- The frame size wraps around, the batch has no room for the header, and the callback writes as
many bytes to it as the wrapped size says. -/
def FalseFrame (cap : Capacity) (payloadLen : UInt32) (cb : Callback) (b : BatchWriter) : Prop :=
  4294967288 ≤ payloadLen.toNat ∧ (b.freeBytes cap).toNat < 8 ∧ (cb.eval cap b).threw = false ∧
    (cb.eval cap b).written.length = payloadLen.toNat - 4294967288

theorem toNat_frameSize_wrap (hlen : 4294967288 ≤ payloadLen.toNat) :
    (kMsgHeaderSize + payloadLen).toUInt64.toNat = payloadLen.toNat - 4294967288 := by
  have hlt := payloadLen.toNat_lt
  rw [UInt32.toNat_toUInt64, UInt32.toNat_add]
  show (8 + payloadLen.toNat) % 2 ^ 32 = _
  omega

theorem room_of_not_rejects {src : Buf} (h : (b.w - b.r).toNat ≤ cap.val)
    (hrej : ¬ b.Rejects cap src.len) :
    ((b.advance src.len).w - (b.advance src.len).r).toNat =
        (b.w - b.r).toNat + src.bytes.length ∧
      ((b.advance src.len).w - (b.advance src.len).r).toNat ≤ cap.val := by
  have hle := UInt64.not_lt.mp fun hlt => hrej (Or.inr (Or.inr hlt))
  rw [UInt64.le_iff_toNat_le, cap.toNat_word] at hle
  exact ⟨toNat_advance src h, hle⟩

/-- A callback writes no more than fits. -/
theorem eval_room (cap : Capacity) : ∀ (cb : Callback) {b : BatchWriter},
    (b.w - b.r).toNat ≤ cap.val →
    (b.w - b.r).toNat + (cb.eval cap b).written.length ≤ cap.val
  | .done, b, h => by rw [Callback.eval]; exact h
  | .throw, b, h => by rw [Callback.eval]; exact h
  | .tryWrite none k, b, h => eval_room cap (k (-1)) h
  | .tryWrite (some src) k, b, h => by
    rw [Callback.eval]
    split_ifs with hrej
    · exact eval_room cap _ h
    · obtain ⟨hd, hle⟩ := room_of_not_rejects h hrej
      have ih := eval_room cap (k 0) hle
      simp only [Callback.Result.cons, List.length_append]
      omega
  | .reserve src commit k, b, h => by
    rw [Callback.eval]
    split_ifs with hres hcommit
    · exact eval_room cap _ h
    · have hrej : ¬ b.Rejects cap src.len := by
        intro hrej
        exact hres (if_pos hrej)
      obtain ⟨hd, hle⟩ := room_of_not_rejects h hrej
      have ih := eval_room cap (k true) hle
      simp only [Callback.Result.cons, List.length_append]
      omega
    · exact eval_room cap _ h

/-- On a batch, it writes no more than is free. -/
theorem eval_free (hb : Pending cap base g b rc l) :
    (cb.eval cap b).written.length ≤ (b.freeBytes cap).toNat := by
  have h1 := hb.fit
  have h2 := hb.le
  have h3 := hb.inv.le
  have h4 := cap.lt
  have hused : (b.w - b.r).toNat = g.published.length + l.length - rc := by
    rw [hb.w, hb.r, toNat_ofNat_sub (by omega) (by omega)]
    omega
  have hle : (b.w - b.r).toNat ≤ cap.val := by omega
  have hroom := eval_room cap cb hle
  rw [hb.toNat_freeBytes]
  omega

/-! ### `SendFrameBatch` -/

/-- The header, on a batch with or without room for it. -/
theorem header_any {Q : ℤ × ChannelBatchWriter → World → Prop} (hdr : MsgHeader)
    (hb : Pending cap base g b rc l)
    (hok : ∀ g', 8 ≤ (b.freeBytes cap).toNat → Wrote cap base g g'.shm.data [] g' →
      Pending cap base g' (b.advance kMsgHeaderSize) rc (l ++ hdr.bytes) →
      Q (0, ⟨b.advance kMsgHeaderSize, true⟩) g')
    (hno : (b.freeBytes cap).toNat < 8 → Q (-1, ⟨b, true⟩) g) :
    wpW cap base (ChannelBatchWriter.tryWrite cap ⟨b, true⟩ (some hdr.buf)) Q g := by
  have hfree := hb.toNat_freeBytes
  have hfit := hb.fit
  rcases Nat.lt_or_ge (b.freeBytes cap).toNat 8 with hlt | hge
  · unfold ChannelBatchWriter.tryWrite
    rw [wpW, Prog.wp_bind]
    refine batchTryWrite_spec hb (fun src g₁ hs hrej _ _ => ?_) fun _ => hno hlt
    cases hs
    rw [hb.rejects_iff, not_or, not_or, MsgHeader.bytes_buf, MsgHeader.length_bytes] at hrej
    omega
  · exact header_spec hdr hb (by omega) fun g' hw hp => hok g' hge hw hp

/-- The header and the callback, on a batch where the size wraps around: the senders are fooled if
and only if the callback returns and as many bytes were added as the wrapped size says. The callback
has then found the batch as it was before the header. -/
theorem fill_wrap_spec {α : Type} {Q : α → World → Prop}
    {k : Bool × ChannelBatchWriter → RingM α} (hb : Pending cap base g b rc l)
    (hlen : 4294967288 ≤ payloadLen.toNat)
    (hk : ∀ threw b' l' g', Pending cap base g' b' rc (l ++ l') →
      Wrote cap base g g'.shm.data [] g' →
      (FalseFrame cap payloadLen cb b ↔
        threw = false ∧ l'.length = payloadLen.toNat - 4294967288) →
      (FalseFrame cap payloadLen cb b →
        b' = (cb.eval cap b).batch ∧ l' = (cb.eval cap b).written) →
      wpW cap base (k (threw, ⟨b', true⟩)) Q g') :
    wpW cap base (ChannelBatchWriter.tryWrite cap ⟨b, true⟩ (some (MsgHeader.buf ⟨payloadLen, seq⟩))
      >>= fun x => cb.exec cap x.2 >>= k) Q g := by
  have hlt := payloadLen.toNat_lt
  rw [wpW, Prog.wp_bind]
  refine header_any ⟨payloadLen, seq⟩ hb (fun g₁ hge h₁ hp₁ => ?_) fun hno => ?_
  · rw [Prog.wp_bind]
    refine callback_spec hp₁ fun g₂ h₂ hp₂ => ?_
    rw [List.append_assoc] at hp₂
    have hnot : ¬ FalseFrame cap payloadLen cb b := by
      intro hF
      have hroom := hF.2.1
      omega
    refine hk _ _ _ g₂ hp₂ (h₁.trans h₂) ⟨fun hF => absurd hF hnot, fun h => ?_⟩
      fun hF => absurd hF hnot
    -- the header is in, so the count cannot be the wrapped size
    have hcount := h.2
    rw [List.length_append, MsgHeader.length_bytes] at hcount
    omega
  · rw [Prog.wp_bind]
    refine callback_spec hb fun g₂ h₂ hp₂ => ?_
    refine hk _ _ _ g₂ hp₂ h₂ ⟨fun hF => hF.2.2, fun h => ?_⟩ fun _ => ⟨rfl, rfl⟩
    exact ⟨hlen, hno, h.1, h.2⟩

/-- The bytes that the code counts behind those it started with. -/
theorem toNat_added {g₁ : World} {b₁ : BatchWriter} {l₁ : List UInt8}
    (hb : Pending cap base g b rc l) (hb₁ : Pending cap base g₁ b₁ rc (l ++ l₁)) :
    (b₁.pendingBytes - b.pendingBytes).toNat = l₁.length := by
  have h1 := hb.toNat_pendingBytes
  have h2 := hb₁.toNat_pendingBytes
  rw [List.length_append] at h2
  rw [UInt64.toNat_sub_of_le _ _ (by rw [UInt64.le_iff_toNat_le]; omega)]
  omega

/-- `SendFrameBatch` with a size that wraps around returns `0` exactly if it is fooled, and then
adds what the callback wrote, without a header. -/
theorem sendFrameBatch_wrap_spec {Q : Outcome × ChannelBatchWriter → World → Prop}
    (hb : Pending cap base g b rc l) (hlen : 4294967288 ≤ payloadLen.toNat)
    (hok : ∀ g', FalseFrame cap payloadLen cb b →
      Pending cap base g' (cb.eval cap b).batch rc (l ++ (cb.eval cap b).written) →
      Q (.ret 0, ⟨(cb.eval cap b).batch, true⟩) g')
    (hfail : ∀ out b' g', ¬ FalseFrame cap payloadLen cb b → out ≠ .ret 0 → Q (out, b') g') :
    wpW cap base (sendFrameBatch cap ⟨b, true⟩ payloadLen seq cb) Q g := by
  have hsize := toNat_frameSize_wrap hlen
  unfold sendFrameBatch
  simp only []
  split_ifs with hsp
  · rw [UInt64.lt_iff_toNat_lt, hsize] at hsp
    refine hfail _ _ g (fun hF => ?_) (by simp)
    have hle : (cb.eval cap b).written.length ≤ _ := eval_free hb
    have hw := hF.2.2.2
    omega
  refine fill_wrap_spec hb hlen fun threw b' l' g' hp _ hiff heq => ?_
  have hcount := toNat_added hb hp
  simp only []
  split_ifs with hthrew hne
  · refine hfail _ _ g' (fun hF => ?_) (by simp)
    rw [(hiff.mp hF).1] at hthrew
    exact Bool.false_ne_true hthrew
  · refine hfail _ _ g' (fun hF => hne ?_) (by simp)
    apply UInt64.toNat_inj.mp
    rw [hsize, hcount, (hiff.mp hF).2]
  · have hsum := congrArg UInt64.toNat (not_not.mp hne)
    rw [hsize, hcount] at hsum
    have hF := hiff.mpr ⟨by simpa using hthrew, hsum⟩
    obtain ⟨rfl, rfl⟩ := heq hF
    exact hok g' hF hp

/-! ### `SendFrame` -/

/-- The batch that would start now. -/
theorem pending_snapshot (hi : Inv cap base g) :
    Pending cap base g (snapshot base g.published.length g.consumed) g.consumed [] :=
  ⟨hi, rfl, rfl, rfl, le_rfl, hi.fit, rfl, rfl⟩

/-- `SendFrame` with a size that wraps around: it returns `0` only if it is fooled at the read
position of its batch, and then publishes what the callback wrote; and it returns something else
only if it is not fooled at some read position of the call. -/
theorem sendFrame_wrap_spec {Q : Outcome → World → Prop} (hi : Inv cap base g)
    (hlen : 4294967288 ≤ payloadLen.toNat)
    (hok : ∀ rc g', g.consumed ≤ rc → rc ≤ g'.consumed → rc ≤ g.published.length →
      FalseFrame cap payloadLen cb (snapshot base g.published.length rc) →
      g'.published = g.published ++
        (cb.eval cap (snapshot base g.published.length rc)).written → Q (.ret 0) g')
    (hfail : ∀ rc out g', g.consumed ≤ rc → rc ≤ g'.consumed →
      ¬ FalseFrame cap payloadLen cb (snapshot base g.published.length rc) → out ≠ .ret 0 →
      Q out g') :
    wpW cap base (sendFrame cap payloadLen seq cb) Q g := by
  have hsize := toNat_frameSize_wrap hlen
  unfold sendFrame sendFrameFrom
  rw [wpW, Prog.wp_bind]
  refine writableBytes_spec hi fun free g₁ h₁ hfree => ?_
  have hpub₁ : g₁.published = g.published := by rw [h₁.published, List.append_nil]
  simp only []
  split_ifs with hsp
  · rw [UInt64.lt_iff_toNat_lt, hsize] at hsp
    refine hfail g₁.consumed _ g₁ h₁.consumed le_rfl (fun hF => ?_) (by simp)
    have hle : (cb.eval cap _).written.length ≤ _ := eval_free (pending_snapshot h₁.inv)
    rw [(pending_snapshot h₁.inv).toNat_freeBytes, hpub₁, List.length_nil] at hle
    have hw := hF.2.2.2
    omega
  rw [Prog.wp_bind]
  refine startBatch_spec h₁.inv fun b g₂ h₂ hc hp₂ => ?_
  have hpub₂ : g₂.published = g.published := by rw [h₂.published, List.append_nil, hpub₁]
  have hc₂ := h₁.consumed.trans h₂.consumed
  have hsnap := eq_snapshot hp₂ hc
  rw [hpub₂] at hsnap
  have hok := fun g' => hok g₂.consumed g' hc₂
  have hfail := fun out g' => hfail g₂.consumed out g' hc₂
  rw [← hsnap] at hok hfail
  have hout : ∀ {b' : BatchWriter} {l' : List UInt8} {out : Outcome} {g₃ : World},
      Pending cap base g₃ b' g₂.consumed l' → out ≠ .ret 0 → g₂.consumed ≤ g₃.consumed →
      ¬ FalseFrame cap payloadLen cb b → wpW cap base (do
        ChannelBatchWriter.destroy (ChannelBatchWriter.cancel ⟨b', true⟩)
        pure out) Q g₃ := by
    intro b' l' out g₃ hp hne hle hnot
    exact cancel_destroy_spec hp fun g₄ h₄ => hfail _ g₄ (hle.trans h₄.consumed) hnot hne
  refine fill_wrap_spec hp₂ hlen fun threw b' l' g₃ hp h₃ hiff heq => ?_
  rw [List.nil_append] at hp
  have hcount := hp.toNat_pendingBytes
  simp only []
  split_ifs with hthrew hne
  · refine hout hp (by simp) h₃.consumed fun hF => ?_
    rw [(hiff.mp hF).1] at hthrew
    exact Bool.false_ne_true hthrew
  · refine hout hp (by simp) h₃.consumed fun hF => hne ?_
    apply UInt64.toNat_inj.mp
    rw [hsize, hcount, (hiff.mp hF).2]
  · have hsum := congrArg UInt64.toNat (not_not.mp hne)
    rw [hsize, hcount] at hsum
    have hF := hiff.mpr ⟨by simpa using hthrew, hsum⟩
    obtain ⟨rfl, rfl⟩ := heq hF
    rw [wpW, Prog.wp_bind]
    refine channelFlush_spec hp fun g₄ h₄ hp₄ => ?_
    rw [Prog.wp_bind]
    refine destroy_nil_spec hp₄ rfl fun g₅ h₅ => ?_
    have hle := h₂.inv.le
    rw [hpub₂] at hle
    refine hok g₅ ((h₃.consumed.trans h₄.consumed).trans h₅.consumed) hle hF ?_
    rw [h₅.published, List.append_nil, h₄.published, h₃.published, List.append_nil, hpub₂]

/-! ### Honest senders -/

/-- Where `SendFrame` returns `0`, in any run, a header and `payload_len` bytes were added. -/
def SendHonest (cap : Capacity) (payloadLen seq : UInt32) (cb : Callback) (g : World) : Prop :=
  ∀ out g', Runs cap (sendFrame cap payloadLen seq cb) g out g' → out = .ret 0 →
    ∃ body, body.length = payloadLen.toNat ∧
      g'.published = g.published ++ (MsgHeader.bytes ⟨payloadLen, seq⟩ ++ body)

/-- Where `SendFrameBatch` returns `0`, in any run, a header and `payload_len` bytes were added to
the bytes `l` of the batch. -/
def BatchHonest (cap : Capacity) (base : ℕ) (payloadLen seq : UInt32) (cb : Callback) (g : World)
    (b : BatchWriter) (rc : ℕ) (l : List UInt8) : Prop :=
  ∀ out b' g', Runs cap (sendFrameBatch cap ⟨b, true⟩ payloadLen seq cb) g (out, b') g' →
    out = .ret 0 → ∃ body, body.length = payloadLen.toNat ∧
      Pending cap base g' b'.batch rc (l ++ (MsgHeader.bytes ⟨payloadLen, seq⟩ ++ body))

theorem batchHonest_iff (hb : Pending cap base g b rc l) :
    BatchHonest cap base payloadLen seq cb g b rc l ↔ ¬ FalseFrame cap payloadLen cb b := by
  rcases Nat.lt_or_ge payloadLen.toNat 4294967288 with hlen | hlen
  · refine iff_of_true (fun out b' g' hrun h0 => ?_) fun hF => absurd hF.1 (by omega)
    rcases (sendFrameBatch_runs hb (by omega) hrun).2 with ⟨-, hF, hp⟩ | ⟨hout, -⟩
    · exact ⟨_, hF.2.2, hp⟩
    · rcases hout with rfl | rfl <;> cases h0
  constructor
  · intro h hF
    -- the run without a reader is already wrong
    have hrun : Runs cap (sendFrameBatch cap ⟨b, true⟩ payloadLen seq cb) g _ _ :=
      Prog.exec_run (World.exec cap) rStep_refl _ g
    have hwp : wpW cap base (sendFrameBatch cap ⟨b, true⟩ payloadLen seq cb)
        (fun p g' => p.1 = .ret 0 ∧
          Pending cap base g' p.2.batch rc (l ++ (cb.eval cap b).written)) g :=
      sendFrameBatch_wrap_spec hb hlen (fun g' _ hp => ⟨rfl, hp⟩)
        fun out b' g' hnot _ => absurd hF hnot
    obtain ⟨h0, hp⟩ := Prog.wp_exec hrun hwp
    obtain ⟨body, hbody, hp'⟩ := h _ _ _ hrun h0
    have h1 := hp.toNat_pendingBytes
    have h2 := hp'.toNat_pendingBytes
    have h3 := hF.2.2.2
    have h4 := payloadLen.toNat_lt
    have hadd := h1.symm.trans h2
    rw [List.length_append, List.length_append, List.length_append, MsgHeader.length_bytes] at hadd
    omega
  · intro hnot out b' g' hrun h0
    have hwp : wpW cap base (sendFrameBatch cap ⟨b, true⟩ payloadLen seq cb)
        (fun p _ => p.1 ≠ .ret 0) g :=
      sendFrameBatch_wrap_spec hb hlen (fun g' hF _ => absurd hF hnot) fun _ _ _ _ hne => hne
    exact absurd h0 (Prog.wp_exec hrun hwp)

/-- The reader releases everything up to `rc`. -/
theorem rStep_to {rc : ℕ} (h : g.consumed ≤ rc)
    (hle : rc ≤ g.published.length) : ∃ g', RStep g g' ∧ g'.consumed = rc := by
  refine ⟨{ g with
    shm := { g.shm with readPos := g.shm.readPos + UInt64.ofNat (rc - g.consumed) }
    consumed := rc }, ⟨rfl, rfl, rfl, rfl, rfl, h, ?_, rfl, Or.inl ⟨rfl, rfl⟩⟩, rfl⟩
  exact hle.trans (le_max_right _ _)

/-- The reader's progress before a send is progress during it. -/
theorem runs_sendFrame {g₁ : World} {out : Outcome} (hr : RStep g g₁)
    (h : Runs cap (sendFrame cap payloadLen seq cb) g₁ out g') :
    Runs cap (sendFrame cap payloadLen seq cb) g out g' := by
  obtain ⟨g₂, hr', hrest⟩ := Prog.exec_op_iff.mp h
  exact .op (RStep.trans hr hr') hrest

theorem sendHonest_iff (hi : Inv cap base g) :
    SendHonest cap payloadLen seq cb g ↔ ∀ rc, g.consumed ≤ rc → rc ≤ g.published.length →
      ¬ FalseFrame cap payloadLen cb (snapshot base g.published.length rc) := by
  rcases Nat.lt_or_ge payloadLen.toNat 4294967288 with hlen | hlen
  · refine iff_of_true (fun out g' hrun h0 => ?_) fun _ _ _ hF => absurd hF.1 (by omega)
    rcases sendFrame_runs hi (by omega) hrun with ⟨-, rc, -, -, hw, hpub, -⟩ | ⟨hout, -⟩
    · exact ⟨_, hw, hpub⟩
    · rcases hout with rfl | rfl <;> cases h0
  constructor
  · intro h rc hge hle hF
    obtain ⟨g₁, hr, hrc⟩ := rStep_to hge hle
    have hi₁ := hr.inv hi
    -- the reader goes to `rc` and rests
    have hrun₁ : Runs cap (sendFrame cap payloadLen seq cb) g₁ _ _ :=
      Prog.exec_run (World.exec cap) rStep_refl _ g₁
    have hwp : wpW cap base (sendFrame cap payloadLen seq cb)
        (fun out g' => g'.consumed = g₁.consumed → out = .ret 0 ∧
          g'.published = g₁.published ++
            (cb.eval cap (snapshot base g₁.published.length rc)).written) g₁ := by
      refine sendFrame_wrap_spec hi₁ hlen (fun rc' g' h1 h2 _ _ hpub hc => ?_)
        fun rc' out g' h1 h2 hnot hne hc => ?_
      · obtain rfl : rc' = rc := by omega
        exact ⟨rfl, hpub⟩
      · obtain rfl : rc' = rc := by omega
        rw [hr.published] at hnot
        exact absurd hF hnot
    have hstep := Prog.wp_run rStep_refl wStep_refl (fun _ _ _ => WStep.trans) hwp
    obtain ⟨h0, hpub⟩ := Prog.wp_exec hrun₁ hwp hstep.consumed
    obtain ⟨body, hbody, hpub'⟩ := h _ _ (runs_sendFrame hr hrun₁) h0
    rw [hr.published] at hpub
    have hlen' := congrArg List.length (hpub.symm.trans hpub')
    have h3 := hF.2.2.2
    have h4 := payloadLen.toNat_lt
    rw [List.length_append, List.length_append, List.length_append, MsgHeader.length_bytes] at hlen'
    omega
  · intro hnot out g' hrun h0
    have hwp : wpW cap base (sendFrame cap payloadLen seq cb) (fun out _ => out ≠ .ret 0) g := by
      refine sendFrame_wrap_spec hi hlen (fun rc g' h1 _ h2 hF _ => ?_) fun _ _ _ _ _ _ hne => hne
      exact absurd hF (hnot rc h1 h2)
    exact absurd h0 (Prog.wp_exec hrun hwp)

/-- **When the senders are honest**, whatever the reader does meanwhile: `SendFrame` exactly if the
checks are not fooled at any read position that the reader can reach, and `SendFrameBatch` exactly
if they are not fooled on its batch. A `payload_len` below `2^32 - 8` never fools them, nor do eight
free bytes. -/
theorem send_honest_iff (hi : Inv cap base g) (payloadLen seq : UInt32) (cb : Callback) :
    (SendHonest cap payloadLen seq cb g ↔ ∀ rc, g.consumed ≤ rc → rc ≤ g.published.length →
      ¬ FalseFrame cap payloadLen cb (snapshot base g.published.length rc)) ∧
    ∀ b rc l, Pending cap base g b rc l →
      (BatchHonest cap base payloadLen seq cb g b rc l ↔ ¬ FalseFrame cap payloadLen cb b) :=
  ⟨sendHonest_iff hi, fun _ _ _ hb => batchHonest_iff hb⟩

/-- On an empty ring of 1024 bytes, even the length `2^32 - 8` is honest. -/
theorem send_honest_iff_empty :
    Inv .min 1020 (.empty 1020 fun _ => 0) ∧
      SendHonest .min 4294967288 7 .done (.empty 1020 fun _ => 0) := by
  refine ⟨inv_empty .min 1020 _, ?_⟩
  refine (send_honest_iff (inv_empty .min 1020 _) 4294967288 7 .done).1.mpr fun rc _ hle hF => ?_
  have h0 : rc = 0 := Nat.le_zero.mp hle
  subst h0
  exact absurd hF.2.1 (by decide)

/-- A ring of 1024 bytes that is full. -/
def full : Shm where
  writePos := 1024
  readPos := 0
  data _ := 0
  efd := 0

theorem length_published_worldOf (cap : Capacity) (m : Shm) :
    (worldOf cap m).published.length = (m.writePos - m.readPos).toNat :=
  length_readable cap m

theorem inv_full : Inv .min 0 (worldOf .min full) := by
  have hm : (full.writePos - full.readPos).toNat ≤ Capacity.min.val := by decide
  exact inv_worldOf hm

/-- There `SendFrame` returns `0` for a payload of `2^32 - 8` bytes of which nothing is written. -/
theorem full_not_honest : ¬ SendHonest .min 4294967288 7 .done (worldOf .min full) := by
  have hlen : (worldOf .min full).published.length = 1024 := by
    rw [length_published_worldOf]
    decide
  have key : ∀ g, Inv .min 0 g → g.consumed = 0 → g.published.length = 1024 →
      ¬ SendHonest .min 4294967288 7 .done g := by
    intro g hi hc hp h
    have hnot := (send_honest_iff hi 4294967288 7 .done).1.mp h
    rw [hc, hp] at hnot
    exact hnot 0 (Nat.le_refl 0) (Nat.zero_le 1024) ⟨by decide, by decide, rfl, by decide⟩
  exact key (worldOf .min full) inv_full rfl hlen

end ShmIpc.Codec.FrameSize
