import ShmIpc.Conn.SendCmd
import ShmIpc.Ring.Batch

/-! # The loops around the codec

`SendCmd` and `SendKeepaliveResponse` call the codec again with a larger buffer as long as it asks
for one, and `DrainRing` calls it again as long as it consumes something. What the codec answers is
not constrained in any way here: it is a function of its own state, which may be anything. Each
retry has to grow the buffer within `max_buffer_size_` (`retryLoop_spec`), and each further turn of
`DrainRing` has to release a byte of what is readable (`drainBody_spec`); so all three loops end. -/

namespace ShmIpc.Conn.CodecLoops

open ShmIpc.Lib.RelyGuarantee
open ShmIpc.Ring.RingBuf ShmIpc.Ring.History ShmIpc.Ring.Reader
open ShmIpc.Ring.Batch (worldOf inv_worldOf)
open ShmIpc.Conn.DrainRing ShmIpc.Conn.SendCmd

variable {σ M : Type}

/-! ### The retry loops -/

/-- A codec with `SendKeepAlive`. -/
structure KeepCodec (σ M : Type) extends Codec σ M where
  sendKeepAlive : σ → ℕ → Option (Encoded × σ)

/-- `GrowEncodeBuffer`; `none` is `false`. -/
def growEncodeBuffer (max need : ℕ) (buf : List UInt8) : Option (List UInt8) :=
  if max < need then none
  else if buf.length < need then some (resize buf need)
  else some buf

/-- The retry loops of `SendCmd` and `SendKeepaliveResponse`, for at most `fuel` calls of the codec;
`none` is that the fuel ran out. `finish` is what becomes of an answer that does not ask for more
buffer. -/
def retryLoop (call : σ → ℕ → Option (Encoded × σ)) (finish : Int32 → Encoding) (max : ℕ) :
    ℕ → List UInt8 → σ → Option (Encoding × List UInt8 × σ)
  | 0, _, _ => none
  | fuel + 1, buf, st =>
    match call st buf.length with
    | none => some (.fault, buf, st)
    | some (e, st) =>
      let buf' := overwrite buf e.written
      if buf.length < e.written.length then some (.fault, buf, st)
      else if e.len = kCodecNeedMoreBuffer then
        if e.size = 0 ∨ e.size ≤ buf'.length then some (.failed, buf', st)
        else
          match growEncodeBuffer max e.size buf' with
          | none => some (.failed, buf', st)
          | some grown => retryLoop call finish max fuel grown st
      else some (finish e.len, buf', st)

/-- What `SendCmd` does with an answer of `Encode`. -/
def finishEncode (len : Int32) : Encoding :=
  if len = kCodecSkipPackage then .skip
  else if len = kCodecDisconnect then .disconnect
  else .bytes len.toUInt32

/-- What `SendKeepaliveResponse` does with an answer of `SendKeepAlive`. -/
def finishKeepAlive (len : Int32) : Encoding :=
  if 0 < len then .bytes len.toUInt32 else .skip

/-- The loop of `SendCmd`. -/
def sendCmdLoop (codec : Codec σ M) (pkg : M) (max : ℕ) :
    ℕ → List UInt8 → σ → Option (Encoding × List UInt8 × σ) :=
  retryLoop (fun st n => codec.encode st pkg n) finishEncode max

/-- The loop of `SendKeepaliveResponse`. -/
def keepaliveLoop (codec : KeepCodec σ M) (max : ℕ) :
    ℕ → List UInt8 → σ → Option (Encoding × List UInt8 × σ) :=
  retryLoop codec.sendKeepAlive finishKeepAlive max

/-- From `buf` to `buf'` the buffer has not shrunk, and where it has grown, it is within `max`. -/
def Grew (max : ℕ) (buf buf' : List UInt8) : Prop :=
  buf.length ≤ buf'.length ∧ (buf'.length = buf.length ∨ buf'.length ≤ max)

theorem length_overwrite {buf written : List UInt8} (h : written.length ≤ buf.length) :
    (overwrite buf written).length = buf.length := by
  unfold overwrite
  rw [List.length_append, List.length_drop]
  omega

theorem grew_overwrite {max : ℕ} {buf written : List UInt8} (h : written.length ≤ buf.length) :
    Grew max buf (overwrite buf written) := by
  unfold Grew
  rw [length_overwrite h]
  exact ⟨le_rfl, Or.inl rfl⟩

/-- A retry that `GrowEncodeBuffer` allows has a larger buffer. -/
theorem growEncodeBuffer_some {max need : ℕ} {buf grown : List UInt8} (hneed : buf.length < need)
    (h : growEncodeBuffer max need buf = some grown) :
    grown = resize buf need ∧ grown.length = need ∧ need ≤ max := by
  unfold growEncodeBuffer at h
  split_ifs at h with hmax
  cases h
  refine ⟨rfl, ?_, not_lt.mp hmax⟩
  unfold resize
  rw [List.length_append, List.length_replicate]
  omega

/-- **The retry loops end** within one call for each byte that the buffer can grow, and one more;
the buffer only grows, and only within the limit. -/
theorem retryLoop_spec {call : σ → ℕ → Option (Encoded × σ)} {finish : Int32 → Encoding}
    {max : ℕ} : ∀ {fuel : ℕ} {buf : List UInt8} {st : σ}, max - buf.length < fuel →
    ∃ e buf' st', retryLoop call finish max fuel buf st = some (e, buf', st') ∧ Grew max buf buf'
  | 0, _, _, h => absurd h (Nat.not_lt_zero _)
  | fuel + 1, buf, st, hfuel => by
    have hrefl : Grew max buf buf := ⟨le_rfl, Or.inl rfl⟩
    rw [retryLoop]
    rcases call st buf.length with _ | ⟨e, st'⟩
    · exact ⟨_, _, _, rfl, hrefl⟩
    simp only []
    split_ifs with hw hmore hsize
    · exact ⟨_, _, _, rfl, hrefl⟩
    · exact ⟨_, _, _, rfl, grew_overwrite (not_lt.mp hw)⟩
    · have hlen := length_overwrite (not_lt.mp hw)
      rcases hg : growEncodeBuffer max e.size (overwrite buf e.written) with _ | grown
      · exact ⟨_, _, _, rfl, grew_overwrite (not_lt.mp hw)⟩
      · -- the room for further growth has shrunk
        rw [not_or, not_le] at hsize
        obtain ⟨-, hgrown, hmax⟩ := growEncodeBuffer_some hsize.2 hg
        have hroom : max - grown.length < fuel := by omega
        obtain ⟨e', buf', st'', hrun, h1, h2⟩ := retryLoop_spec hroom
        exact ⟨e', buf', st'', hrun, by omega, by omega⟩
    · exact ⟨_, _, _, rfl, grew_overwrite (not_lt.mp hw)⟩

/-- The loop of `SendCmd` computes what `sendCmd` goes on with. -/
theorem sendCmdLoop_eq {codec : Codec σ M} {pkg : M} {max : ℕ} :
    ∀ {fuel : ℕ} {buf : List UInt8} {st : σ}, max - buf.length < fuel →
      sendCmdLoop codec pkg max fuel buf st = some (encodeLoop codec pkg max buf st)
  | 0, _, _, h => absurd h (Nat.not_lt_zero _)
  | fuel + 1, buf, st, hfuel => by
    unfold sendCmdLoop
    rw [retryLoop, encodeLoop]
    simp only []
    rcases codec.encode st pkg buf.length with _ | ⟨e, st'⟩
    · rfl
    simp only []
    by_cases hw : buf.length < e.written.length
    · rw [if_pos hw, if_pos hw]
    rw [if_neg hw, if_neg hw]
    by_cases hmore : e.len = kCodecNeedMoreBuffer
    swap
    · rw [if_neg hmore, if_neg hmore]
      unfold finishEncode
      split_ifs <;> rfl
    have hlen := length_overwrite (not_lt.mp hw)
    have hskip : ¬ e.len = kCodecSkipPackage := by rw [hmore]; decide
    have hdisc : ¬ e.len = kCodecDisconnect := by rw [hmore]; decide
    rw [if_pos hmore, if_neg hskip, if_neg hdisc, if_pos hmore, hlen]
    by_cases hsize : e.size = 0 ∨ e.size ≤ buf.length
    · rw [if_pos hsize, if_pos (hsize.imp_right Or.inl)]
    rw [if_neg hsize]
    rw [not_or, not_le] at hsize
    unfold growEncodeBuffer
    by_cases hmax : max < e.size
    · rw [if_pos hmax, if_pos (Or.inr (Or.inr hmax))]
    · have hgrow : ¬ (e.size = 0 ∨ e.size ≤ buf.length ∨ max < e.size) := by omega
      rw [if_neg hmax, if_neg hgrow, hlen, if_pos hsize.2]
      refine sendCmdLoop_eq ?_
      unfold resize
      rw [List.length_append, List.length_replicate]
      omega

/-! ### The loop of `DrainRing` -/

/-- The members of the connection that `DrainRing` uses besides the read ring. -/
structure Members (σ : Type) where
  inbox : Inbox σ
  encodeBuf : List UInt8
  maxBufferSize : ℕ
  keepalive : Bool
  /-- what `WriteRaw` was given, for the write ring -/
  raw : List (List UInt8)

/-- How `DrainRing` ends. -/
inductive Exit : Type
  | value (n : ℤ)
  /-- the codec or `WriteRaw` left the buffer -/
  | fault
  /-- the message callback threw -/
  | threw
  /-- the assertion of `CommitRead` failed -/
  | assertion
  /-- `SendKeepaliveResponse` called the codec more often than the buffer can grow -/
  | stuck
  deriving DecidableEq, Repr

/-- What a turn of the loop comes to. -/
inductive Next (σ : Type) : Type
  | again (count : ℤ) (c : Members σ)
  | exit (e : Exit) (c : Members σ)

/-- `CommitRead` with its assertion; `false` is that it failed. -/
def commitReadChecked (len : UInt32) : RingM Bool := do
  let r ← loadReadPos
  let w ← loadWritePos
  if len.toUInt64 ≤ w - r then
    storeReadPos (r + len.toUInt64)
    return true
  return false

/-- `SendKeepaliveResponse`, and on with the loop. -/
def sendKeepaliveResponse (codec : KeepCodec σ M) (count : ℤ) (c : Members σ) : Next σ :=
  match keepaliveLoop codec c.maxBufferSize (c.maxBufferSize - c.encodeBuf.length + 1)
      c.encodeBuf c.inbox.codec with
  | none => .exit .stuck c
  | some (e, buf, st) =>
    let c := { c with inbox := { c.inbox with codec := st }, encodeBuf := buf }
    match e with
    | .fault => .exit .fault c
    | .bytes len =>
      if buf.length < len.toNat then .exit .fault c
      else .again count { c with raw := c.raw ++ [buf.take len.toNat] }
    | .skip | .disconnect | .failed => .again count c

/-- A turn of the loop. The message callback may do anything to the connection but touch the read
ring; `none` is that it throws. -/
def drainBody (codec : KeepCodec σ M) (cap : Capacity)
    (onMessage : M → Members σ → Option (Members σ)) (count : ℤ) (c : Members σ) :
    RingM (Next σ) := do
  let (t, inbox) ← lookTurn codec.toCodec cap c.inbox
  let c := { c with inbox := inbox }
  match t with
  | .fault => return .exit .fault c
  | .error => return .exit (.value (-1)) c
  | .wait => return .exit (.value count) c
  | .heartbeat n =>
    let ok ← commitReadChecked n
    if ok = false then
      return .exit .assertion c
    if c.keepalive then
      return sendKeepaliveResponse codec count c
    return .again count c
  | .package n pkg =>
    let ok ← commitReadChecked n
    if ok = false then
      return .exit .assertion c
    match onMessage pkg c with
    | none => return .exit .threw c
    | some c => return .again (count + 1) c

/-- The loop of `DrainRing`, for at most `fuel` turns; `none` is that the fuel ran out. -/
def drainLoop (codec : KeepCodec σ M) (cap : Capacity)
    (onMessage : M → Members σ → Option (Members σ)) :
    ℕ → ℤ → Members σ → RingM (Option Exit × Members σ)
  | 0, _, c => return (none, c)
  | fuel + 1, count, c => do
    match ← drainBody codec cap onMessage count c with
    | .exit e c => return (some e, c)
    | .again count c => drainLoop codec cap onMessage fuel count c

variable {cap : Capacity} {base : ℕ} {g g' : World}

theorem commitReadChecked_spec {Q : Bool → World → Prop} {len : UInt32} (hi : Inv cap base g)
    (hlen : g.consumed + len.toNat ≤ g.published.length)
    (h : ∀ g', Took cap base g len.toNat g' → Q true g') :
    wpR cap base (commitReadChecked len) Q g := by
  unfold commitReadChecked
  rw [wpR, Prog.wp_bind]
  refine loadReadPos_spec hi fun g₁ h₁ => ?_
  rw [Prog.wp_bind]
  refine loadWritePos_spec h₁.inv fun g₂ h₂ => ?_
  have h12 := h₁.trans h₂
  have hc₂ : g₂.consumed = g.consumed := h12.consumed
  have hl₂ := h12.length_le
  have hfit := h12.inv.fit
  have hcap := cap.lt
  have hassert : len.toUInt64 ≤
      UInt64.ofNat (base + g₂.published.length) - UInt64.ofNat (base + g.consumed) := by
    rw [UInt64.le_iff_toNat_le, UInt32.toNat_toUInt64, toNat_ofNat_sub (by omega) (by omega)]
    omega
  rw [if_pos hassert, Prog.wp_bind, toUInt64_eq_ofNat, ← UInt64.ofNat_add, ← hc₂]
  refine storeReadPos_spec h12.inv (by omega) fun g₃ h₃ => h g₃ ?_
  have h13 := h12.trans h₃
  rw [Nat.zero_add] at h13
  exact h13

/-- `SendKeepaliveResponse` comes back to the loop, or faults. -/
theorem sendKeepaliveResponse_exit {codec : KeepCodec σ M} {count : ℤ} {c c' : Members σ}
    {e : Exit} (h : sendKeepaliveResponse codec count c = .exit e c') : e = .fault := by
  unfold sendKeepaliveResponse keepaliveLoop at h
  obtain ⟨e', buf, st, hrun, -⟩ := retryLoop_spec (Nat.lt_succ_self _)
  rw [hrun] at h
  cases e' with
  | fault => cases h; rfl
  | bytes len =>
    simp only [] at h
    split_ifs at h
    cases h
    rfl
  | skip => cases h
  | disconnect => cases h
  | failed => cases h

/-- **One turn**, whatever the codec answers and whatever the peer publishes meanwhile. -/
theorem drainBody_spec {codec : KeepCodec σ M} {onMessage : M → Members σ → Option (Members σ)}
    {count : ℤ} {c : Members σ} {Q : Next σ → World → Prop} (hi : Inv cap base g)
    (hagain : ∀ k count' c' g', 0 < k → Took cap base g k g' → Q (.again count' c') g')
    (hexit : ∀ e c' g', e ≠ .assertion → e ≠ .stuck → Inv cap base g' → Q (.exit e c') g') :
    wpR cap base (drainBody codec cap onMessage count c) Q g := by
  unfold drainBody
  rw [wpR, Prog.wp_bind]
  refine lookTurn_spec hi fun m g₁ st t s hm hm' hwin hon hrel h₁ => ?_
  have hc₁ : g₁.consumed = g.consumed := h₁.consumed
  have hle := hi.le
  have hpos : t.ret count = none → 0 < t.released := turnOn_pos hon
  simp only []
  cases t with
  | fault => exact hexit _ _ g₁ (by simp) (by simp) h₁.inv
  | error => exact hexit _ _ g₁ (by simp) (by simp) h₁.inv
  | wait => exact hexit _ _ g₁ (by simp) (by simp) h₁.inv
  | heartbeat n =>
    have hn : 0 < n.toNat := hpos rfl
    have hlen : n.toNat ≤ m - g.consumed := hrel
    rw [Prog.wp_bind]
    refine commitReadChecked_spec h₁.inv (by omega) fun g₂ h₂ => ?_
    have h12 := h₁.trans h₂
    rw [Nat.zero_add] at h12
    rw [if_neg (by simp)]
    split_ifs
    · rcases hk : sendKeepaliveResponse codec count _ with ⟨count', c'⟩ | ⟨e, c'⟩
      · exact hagain _ _ _ g₂ hn h12
      · obtain rfl := sendKeepaliveResponse_exit hk
        exact hexit _ _ g₂ (by simp) (by simp) h12.inv
    · exact hagain _ _ _ g₂ hn h12
  | package n pkg =>
    have hn : 0 < n.toNat := hpos rfl
    have hlen : n.toNat ≤ m - g.consumed := hrel
    rw [Prog.wp_bind]
    refine commitReadChecked_spec h₁.inv (by omega) fun g₂ h₂ => ?_
    have h12 := h₁.trans h₂
    rw [Nat.zero_add] at h12
    rw [if_neg (by simp)]
    rcases onMessage pkg { c with inbox := ⟨s, st⟩ } with _ | c'
    · exact hexit _ _ g₂ (by simp) (by simp) h12.inv
    · exact hagain _ _ _ g₂ hn h12

/-- From `g` to `g'` the reader has released at least one byte and at most the readable ones, and
the peer has published nothing. -/
structure Released (g g' : World) : Prop where
  writePos : g'.shm.writePos = g.shm.writePos
  readPos : ∃ k : ℕ, 0 < k ∧ k ≤ (g.shm.writePos - g.shm.readPos).toNat ∧
    g'.shm.readPos = g.shm.readPos + UInt64.ofNat k

/-- One turn while the peer rests. -/
theorem drainBody_run {codec : KeepCodec σ M} {onMessage : M → Members σ → Option (Members σ)}
    {count : ℤ} {c : Members σ} {x : Next σ} (hi : Inv cap base g)
    (h : (drainBody codec cap onMessage count c).run (World.exec cap) g = (x, g')) :
    Inv cap base g' ∧
      (∀ count' c', x = .again count' c' → Released g g' ∧
        (g'.shm.writePos - g'.shm.readPos).toNat < (g.shm.writePos - g.shm.readPos).toNat) ∧
      ∀ e c', x = .exit e c' → e ≠ .assertion ∧ e ≠ .stuck := by
  have hwp : wpR cap base (drainBody codec cap onMessage count c) (fun x g' => Inv cap base g' ∧
      (∀ count' c', x = .again count' c' → ∃ k, 0 < k ∧ Took cap base g k g') ∧
      ∀ e c', x = .exit e c' → e ≠ .assertion ∧ e ≠ .stuck) g := by
    refine drainBody_spec hi (fun k count' c' g' hk ht => ⟨ht.inv, ?_, ?_⟩)
      fun e c' g' h1 h2 hi' => ⟨hi', ?_, ?_⟩
    · exact fun _ _ _ => ⟨k, hk, ht⟩
    · rintro _ _ ⟨⟩
    · rintro _ _ ⟨⟩
    · rintro _ _ ⟨⟩
      exact ⟨h1, h2⟩
  have hstep := Prog.wp_run wStep_refl rStep_refl (fun _ _ _ => RStep.trans) hwp
  have hrun := Prog.exec_run (World.exec cap) (wStep_refl : ∀ g, WStep cap base g g)
    (drainBody codec cap onMessage count c) g
  rw [h] at hstep hrun
  obtain ⟨hi', hagain, hexit⟩ := Prog.wp_exec hrun hwp
  refine ⟨hi', fun count' c' hx => ?_, hexit⟩
  obtain ⟨k, hk, ht⟩ := hagain count' c' hx
  have hi' : Inv cap base g' := hi'
  have hp : g'.published = g.published := hstep.published
  have hc : g'.consumed = g.consumed + k := ht.consumed
  have hle' := hi'.le
  rw [hp] at hle'
  have hav := hi.avail
  have hav' := hi'.avail
  rw [hp] at hav'
  refine ⟨⟨hstep.writePos, k, hk, by omega, ?_⟩, by omega⟩
  rw [hi'.readPos, hi.readPos, hc, ← UInt64.ofNat_add, Nat.add_assoc]

/-- **The loop of `DrainRing`** ends within one turn for each readable byte, and one more. -/
theorem drainLoop_run {codec : KeepCodec σ M} {onMessage : M → Members σ → Option (Members σ)} :
    ∀ {fuel : ℕ} {count : ℤ} {c : Members σ} {g : World}, Inv cap base g →
      (g.shm.writePos - g.shm.readPos).toNat < fuel →
      ∃ e, ((drainLoop codec cap onMessage fuel count c).run (World.exec cap) g).1.1 = some e ∧
        e ≠ .assertion ∧ e ≠ .stuck
  | 0, _, _, _, _, h => absurd h (Nat.not_lt_zero _)
  | fuel + 1, count, c, g, hi, hfuel => by
    rcases hrun : (drainBody codec cap onMessage count c).run (World.exec cap) g with ⟨x, g'⟩
    obtain ⟨hi', hagain, hexit⟩ := drainBody_run hi hrun
    rw [drainLoop, Prog.run_bind, hrun]
    cases x with
    | exit e c' => exact ⟨e, rfl, hexit e c' rfl⟩
    | again count' c' =>
      obtain ⟨-, hlt⟩ := hagain count' c' rfl
      have hfuel' : (g'.shm.writePos - g'.shm.readPos).toNat < fuel := by omega
      exact drainLoop_run hi' hfuel'

/-- **The loops around the codec end**, for every codec. The retry loops of `SendCmd` and
`SendKeepaliveResponse` call it at most once for each byte that `encode_buf_` can grow, and once
more; `encode_buf_` does not shrink, and where it grows, it stays within `max_buffer_size_`. While
the peer publishes nothing, each turn of `DrainRing` that goes on has released at least one and at
most the readable bytes, the loop ends, and the assertion of `CommitRead` holds throughout. -/
theorem codec_loops_end (hi : Inv cap base g) (codec : KeepCodec σ M) :
    (∀ (pkg : M) (max fuel : ℕ) (buf : List UInt8) (st : σ), max - buf.length < fuel →
      ∃ e buf' st', sendCmdLoop codec.toCodec pkg max fuel buf st = some (e, buf', st') ∧
        encodeLoop codec.toCodec pkg max buf st = (e, buf', st') ∧ Grew max buf buf') ∧
    (∀ (max fuel : ℕ) (buf : List UInt8) (st : σ), max - buf.length < fuel →
      ∃ e buf' st', keepaliveLoop codec max fuel buf st = some (e, buf', st') ∧
        Grew max buf buf') ∧
    ∀ (onMessage : M → Members σ → Option (Members σ)) (count : ℤ) (c : Members σ),
      (∀ x g', (drainBody codec cap onMessage count c).run (World.exec cap) g = (x, g') →
        Inv cap base g' ∧ ∀ count' c', x = .again count' c' → Released g g') ∧
      ∀ fuel, (g.shm.writePos - g.shm.readPos).toNat < fuel →
        ∃ e, ((drainLoop codec cap onMessage fuel count c).run (World.exec cap) g).1.1 = some e ∧
          e ≠ .assertion ∧ e ≠ .stuck := by
  refine ⟨fun pkg max fuel buf st hfuel => ?_, fun max fuel buf st hfuel => ?_,
    fun onMessage count c => ⟨fun x g' hrun => ?_, fun fuel hfuel => ?_⟩⟩
  · obtain ⟨e, buf', st', hrun, hg⟩ : ∃ e buf' st',
        sendCmdLoop codec.toCodec pkg max fuel buf st = some (e, buf', st') ∧ Grew max buf buf' :=
      retryLoop_spec hfuel
    have heq := (sendCmdLoop_eq hfuel).symm.trans hrun
    exact ⟨e, buf', st', hrun, Option.some.inj heq, hg⟩
  · exact retryLoop_spec hfuel
  · obtain ⟨hi', hagain, -⟩ := drainBody_run hi hrun
    exact ⟨hi', fun count' c' hx => (hagain count' c' hx).1⟩
  · exact drainLoop_run hi hfuel

/-- A codec that never stops asking: `Encode` and `SendKeepAlive` want one byte more than the buffer
has, and `Decode` takes one byte for a heartbeat. -/
def greedy : KeepCodec Unit Unit where
  encode _ _ n := some (⟨0, [], n + 1⟩, ())
  decode _ _ := some (⟨-2, (), 1⟩, ())
  sendKeepAlive _ n := some (⟨0, [], n + 1⟩, ())

/-- A ring of 1024 bytes with three bytes in it. -/
def three : World := worldOf .min { writePos := 3, readPos := 0, data := fun _ => 0, efd := 0 }

/-- With this codec, growing from two to four bytes takes three calls, and `DrainRing` four turns on
three bytes. -/
theorem codec_loops_end_greedy :
    Inv .min 0 three ∧ (three.shm.writePos - three.shm.readPos).toNat = 3 ∧
      (∃ e buf' st', sendCmdLoop greedy.toCodec () 4 3 [0, 0] () = some (e, buf', st') ∧
        encodeLoop greedy.toCodec () 4 [0, 0] () = (e, buf', st') ∧ Grew 4 [0, 0] buf') ∧
      ∃ e, ((drainLoop greedy .min (fun _ c => some c) 4 0 ⟨⟨(), []⟩, [], 2, true, []⟩).run
        (World.exec .min) three).1.1 = some e ∧ e ≠ .assertion ∧ e ≠ .stuck := by
  have hm : (three.shm.writePos - three.shm.readPos).toNat ≤ Capacity.min.val := by decide
  have hi : Inv .min 0 three := inv_worldOf hm
  have hends := codec_loops_end hi greedy
  exact ⟨hi, by decide, hends.1 () 4 3 [0, 0] () (by decide),
    (hends.2.2 (fun _ c => some c) 0 ⟨⟨(), []⟩, [], 2, true, []⟩).2 4 (by decide)⟩

end ShmIpc.Conn.CodecLoops
