import ShmIpc.Ring.Channel
import ShmIpc.Ring.Reader

/-! # Receiving on a connection: `ShmConnection::DrainRing`

A codec turns bytes into packages and back (`comm/codec.h`); it may keep a state of its own, and an
access outside the buffer it was given is a result like any other (`none`). `drainTurn` is one turn
of the loop of `DrainRing`: look at everything readable, in a linear copy if it crosses the ring
end, let the codec judge it, and release what the codec consumed. `drainTurn_spec` says what a turn
does while the peer goes on writing: it acts on the bytes readable at one moment during the turn. -/

namespace ShmIpc.Conn.DrainRing

open ShmIpc.Lib.RelyGuarantee
open ShmIpc.Ring.RingBuf ShmIpc.Ring.History ShmIpc.Ring.Reader

/-- The capacity of `DefaultRingChannel`. -/
def defaultCapacity : Capacity where
  val := 8388608
  pow2 := by decide
  ge := by decide
  le := by decide

/-- `comm::TcpConnStates`. -/
inductive TcpConnStates : Type
  | verifing
  | established
  | closeing
  | closeed
  deriving DecidableEq, Repr

/-- The states in which `OnMessage`, `SendCmd` and `Close` act. -/
def TcpConnStates.IsOpen (s : TcpConnStates) : Prop := s = .established ∨ s = .verifing

instance (s : TcpConnStates) : Decidable s.IsOpen := by
  unfold TcpConnStates.IsOpen; infer_instance

/-! ### The codec interface -/

/-- `kCodecNeedMoreBuffer`. -/
def kCodecNeedMoreBuffer : Int32 := 0

/-- `kCodecDisconnect`. -/
def kCodecDisconnect : Int32 := -1

/-- `kCodecSkipPackage`. -/
def kCodecSkipPackage : Int32 := -2

/-- What a call of `Decode` leaves: its value, `pkg` and `*size`. -/
structure Decoded (M : Type) where
  len : Int32
  pkg : M
  size : ℕ

/-- What a call of `Encode` leaves: its value, the bytes at the start of the buffer and `*size`. -/
structure Encoded where
  len : Int32
  written : List UInt8
  size : ℕ

/-- `comm::codec::Codec` with the state `σ`, for packages `M`; `none` is an access outside the
buffer. -/
structure Codec (σ M : Type) where
  encode : σ → M → ℕ → Option (Encoded × σ)
  decode : σ → List UInt8 → Option (Decoded M × σ)

variable {σ M : Type}

/-! ### The loop -/

/-- What a turn of the loop comes to. -/
inductive Turn (M : Type) : Type
  /-- the codec left its buffer -/
  | fault
  /-- `return -1` -/
  | error
  /-- `break` -/
  | wait
  /-- a heartbeat of `n` bytes, released -/
  | heartbeat (n : UInt32)
  /-- a package of `n` bytes, released and given to `OnMessage` -/
  | package (n : UInt32) (pkg : M)

/-- The bytes that a turn releases. -/
def Turn.released : Turn M → ℕ
  | .fault | .error | .wait => 0
  | .heartbeat n | .package n _ => n.toNat

/-- The checks behind `Decode`. -/
def judge (buflen : UInt32) (d : Decoded M) : Turn M :=
  if d.len = kCodecDisconnect then .error
  else if d.len = kCodecNeedMoreBuffer then .wait
  else if d.len = kCodecSkipPackage then
    if d.size = 0 ∨ buflen.toNat < d.size then .error else .heartbeat (UInt32.ofNat d.size)
  else if d.len < 0 then .error
  else if buflen < d.len.toUInt32 then .error
  else .package d.len.toUInt32 d.pkg

/-- `staging_` after both segments are copied to its front. -/
def linearise (staging seg1 seg2 : List UInt8) (total : UInt32) : List UInt8 :=
  let grown :=
    if staging.length < total.toNat then
      staging ++ List.replicate (total.toNat - staging.length) 0
    else staging
  seg1 ++ seg2 ++ grown.drop (seg1.length + seg2.length)

/-- The members of the connection that `DrainRing` uses besides the ring. -/
structure Inbox (σ : Type) where
  codec : σ
  staging : List UInt8

/-- `buf`, `buflen` and `staging_` for the segments of a `Peek`. A decoder that reads the ring in
place reads the same bytes, since nobody writes to them. -/
def window (s : Segs) (staging : List UInt8) : RingM (List UInt8 × UInt32 × List UInt8) := do
  let a ← memcpyFrom s.seg1 s.seg1Len.toNat
  if 0 < s.seg2Len then
    let b ← memcpyPtr s.seg2 0 s.seg2Len.toNat
    let total := s.seg1Len + s.seg2Len
    let staging := linearise staging a b total
    return (staging.take total.toNat, total, staging)
  return (a, s.seg1Len, staging)

/-- What the codec makes of the buffer. -/
def decodeTurn (codec : Codec σ M) (st : σ) (buf : List UInt8) (buflen : UInt32) : Turn M × σ :=
  match codec.decode st buf with
  | none => (.fault, st)
  | some (d, st) => (judge buflen d, st)

/-- One turn of the loop of `DrainRing`. -/
def drainTurn (codec : Codec σ M) (cap : Capacity) (c : Inbox σ) : RingM (Turn M × Inbox σ) := do
  match ← peek cap with
  | none => return (.wait, c)
  | some s =>
    let (buf, buflen, staging) ← window s c.staging
    let (t, st) := decodeTurn codec c.codec buf buflen
    match t with
    | .heartbeat n | .package n _ => commitRead n
    | .fault | .error | .wait => pure ()
    return (t, { codec := st, staging := staging })

/-- A turn up to `CommitRead`. -/
def lookTurn (codec : Codec σ M) (cap : Capacity) (c : Inbox σ) : RingM (Turn M × Inbox σ) := do
  match ← peek cap with
  | none => return (.wait, c)
  | some s =>
    let (buf, buflen, staging) ← window s c.staging
    let (t, st) := decodeTurn codec c.codec buf buflen
    return (t, { codec := st, staging := staging })

/-- How a call of `DrainRing` ends. -/
inductive Ret : Type
  | value (n : ℤ)
  /-- inside the codec, outside its buffer -/
  | fault
  deriving DecidableEq, Repr

/-- The result of `DrainRing` when the loop ends with this turn and `count` packages. -/
def Turn.ret (count : ℤ) : Turn M → Option Ret
  | .fault => some .fault
  | .error => some (.value (-1))
  | .wait => some (.value count)
  | .heartbeat _ | .package _ _ => none

/-- `count` after a turn. -/
def Turn.count (count : ℤ) : Turn M → ℤ
  | .package _ _ => count + 1
  | _ => count

/-- The package that a turn gives to `OnMessage`. -/
def Turn.pkgs : Turn M → List M
  | .package _ pkg => [pkg]
  | _ => []

/-- `DrainRing`, for at most `fuel` turns: how it ends and the packages given to `OnMessage`. -/
def drainRing (codec : Codec σ M) (cap : Capacity) :
    ℕ → ℤ → Inbox σ → RingM (Option Ret × List M × Inbox σ)
  | 0, _, c => return (none, [], c)
  | fuel + 1, count, c => do
    let (t, c) ← drainTurn codec cap c
    match t.ret count with
    | some r => return (some r, t.pkgs, c)
    | none =>
      let (r, pkgs, c) ← drainRing codec cap fuel (t.count count) c
      return (r, t.pkgs ++ pkgs, c)

/-! ### A turn while the peer writes -/

variable {cap : Capacity} {base : ℕ} {g g' : World}

/-- What a turn comes to when `buf` is readable. -/
def turnOn (codec : Codec σ M) (st : σ) (buf : List UInt8) : Turn M × σ :=
  if buf = [] then (.wait, st) else decodeTurn codec st buf (UInt32.ofNat buf.length)

theorem toNat_toUInt32 {x : Int32} (h : 0 ≤ x.toInt) : (x.toUInt32.toNat : ℤ) = x.toInt := by
  have h0 : (0 : Int32) ≤ x := Int32.le_iff_toInt_le.mpr h
  rw [Int32.toNat_toUInt32_of_le h0]
  exact Int.toNat_of_nonneg h

theorem judge_released {d : Decoded M} {buflen : UInt32} :
    (judge buflen d).released ≤ buflen.toNat := by
  unfold judge
  split_ifs with h1 h2 h3 h4 h5 h6
  all_goals simp only [Turn.released, Nat.zero_le]
  · rw [UInt32.toNat_ofNat']
    exact (Nat.mod_le _ _).trans (by omega)
  · exact UInt32.le_iff_toNat_le.mp (UInt32.not_lt.mp h6)

/-- A turn that goes on has consumed something. -/
theorem judge_pos {d : Decoded M} {buflen : UInt32} {count : ℤ}
    (h : (judge buflen d).ret count = none) : 0 < (judge buflen d).released := by
  have hbuf := buflen.toNat_lt
  unfold judge at h ⊢
  split_ifs at h ⊢ with h1 h2 h3 h4 h5 h6
  all_goals simp only [Turn.ret, reduceCtorEq] at h
  · simp only [Turn.released]
    rw [UInt32.toNat_ofNat', Nat.mod_eq_of_lt (by omega)]
    omega
  · simp only [Turn.released]
    rw [Int32.lt_iff_toInt_lt] at h5
    have hz : (0 : Int32).toInt = 0 := rfl
    have hne : d.len.toInt ≠ 0 := fun h0 => h2 (Int32.toInt_inj.mp h0)
    have hn : (d.len.toUInt32.toNat : ℤ) = _ := toNat_toUInt32 (by omega)
    omega

theorem turnOn_pos {codec : Codec σ M} {st s : σ} {buf : List UInt8} {t : Turn M} {count : ℤ}
    (hon : turnOn codec st buf = (t, s)) (h : t.ret count = none) : 0 < t.released := by
  unfold turnOn decodeTurn at hon
  split_ifs at hon with hb
  · cases hon
    cases h
  · rcases hd : codec.decode st buf with _ | ⟨d, st'⟩
    · rw [hd] at hon
      cases hon
      cases h
    · rw [hd] at hon
      cases hon
      exact judge_pos h

theorem decodeTurn_released (codec : Codec σ M) (st : σ) (buf : List UInt8) (buflen : UInt32) :
    (decodeTurn codec st buf buflen).1.released ≤ buflen.toNat := by
  unfold decodeTurn
  split
  · exact Nat.zero_le _
  · exact judge_released

/-- The linear copy is the two segments, whatever `staging_` held before. -/
theorem take_linearise (staging a b : List UInt8) {total : UInt32}
    (h : total.toNat = a.length + b.length) :
    (linearise staging a b total).take total.toNat = a ++ b := by
  unfold linearise
  rw [h, List.take_append_of_le_length (by simp), ← List.length_append, List.take_length]

/-- The buffer for `Decode` holds the readable bytes, in front or across the ring end. -/
theorem window_spec {s : Segs} {n : ℕ} {staging : List UInt8}
    {Q : List UInt8 × UInt32 × List UInt8 → World → Prop} (h : Peeked cap base g s n)
    (hQ : ∀ g' st, Took cap base g 0 g' →
      Q ((g.published.drop g.consumed).take n, UInt32.ofNat n, st) g') :
    wpR cap base (window s staging) Q g := by
  have htot := h.total
  have hle := h.le
  have hn := h.n_le
  have hcap := cap.lt
  unfold window
  rw [wpR, Prog.wp_bind]
  refine h.memcpySeg1 (o := 0) (by omega) fun g₁ h₁ => ?_
  rw [Nat.add_zero]
  split_ifs with h2
  · rw [UInt32.lt_iff_toNat_lt] at h2
    rw [Prog.wp_bind]
    refine (h.took h₁).memcpySeg2 (o := 0) (by omega) fun g₂ h₂ => ?_
    have hc₁ : g₁.consumed = g.consumed := h₁.consumed
    have hsum : s.seg1Len + s.seg2Len = UInt32.ofNat n := by
      apply UInt32.toNat_inj.mp
      rw [UInt32.toNat_add, htot, UInt32.toNat_ofNat']
    have hnat : (UInt32.ofNat n).toNat = n := by
      rw [UInt32.toNat_ofNat', Nat.mod_eq_of_lt (by omega)]
    rw [hsum, Nat.add_zero, hc₁, drop_take_mono h₁.published (by omega)]
    have hlens : (UInt32.ofNat n).toNat =
        ((g.published.drop g.consumed).take s.seg1Len.toNat).length +
        ((g.published.drop (g.consumed + s.seg1Len.toNat)).take s.seg2Len.toNat).length := by
      rw [hnat, List.length_take_of_le (by rw [List.length_drop]; omega),
        List.length_take_of_le (by rw [List.length_drop]; omega)]
      exact htot.symm
    have htake := take_linearise staging _ _ hlens
    have hcat : (g.published.drop g.consumed).take s.seg1Len.toNat ++
        (g.published.drop (g.consumed + s.seg1Len.toNat)).take s.seg2Len.toNat =
        (g.published.drop g.consumed).take n := by
      rw [← htot, List.take_add, List.drop_drop]
    refine Eq.mp (congrArg (fun l => Q (l, _, _) g₂) ?_) (hQ g₂ _ (h₁.trans h₂))
    rw [htake, hcat]
  · rw [UInt32.lt_iff_toNat_lt] at h2
    have hz : (0 : UInt32).toNat = 0 := rfl
    have hlen : s.seg1Len.toNat = n := by omega
    have hseg : s.seg1Len = UInt32.ofNat n := by rw [← hlen, UInt32.ofNat_toNat]
    have hQ' := hQ g₁ staging h₁
    rw [← hseg, ← hlen] at hQ'
    exact hQ'

theorem drainTurn_eq (codec : Codec σ M) (cap : Capacity) (c : Inbox σ) :
    drainTurn codec cap c = (do
      let x ← lookTurn codec cap c
      match x.1 with
      | .heartbeat n | .package n _ => commitRead n
      | .fault | .error | .wait => pure ()
      return x) := by
  unfold drainTurn lookTurn
  rw [Prog.bind_bind]
  refine congrArg (peek cap >>= ·) (funext fun s => ?_)
  cases s with
  | none => rfl
  | some s =>
    simp only []
    rw [Prog.bind_bind]
    rfl

/-- **A look at the ring**, whatever the peer publishes meanwhile: the turn is decided by the bytes
that were readable at some moment, those readable at its start among them, and consumes no more. -/
theorem lookTurn_spec {codec : Codec σ M} {c : Inbox σ} {Q : Turn M × Inbox σ → World → Prop}
    (hi : Inv cap base g)
    (h : ∀ m g' st t s, g.published.length ≤ m → m ≤ g'.published.length →
      m ≤ g.consumed + cap.val →
      turnOn codec c.codec ((g'.published.take m).drop g.consumed) = (t, s) →
      t.released ≤ m - g.consumed → Took cap base g 0 g' → Q (t, ⟨s, st⟩) g') :
    wpR cap base (lookTurn codec cap c) Q g := by
  unfold lookTurn
  rw [wpR, Prog.wp_bind]
  refine peek_spec hi (fun s n g₁ hpos hn hl h₁ hp => ?_) fun g₁ h₁ hl => ?_
  · have hc₁ : g₁.consumed = g.consumed := h₁.consumed
    have hcap := cap.lt
    have hnle := hp.n_le
    simp only []
    rw [Prog.wp_bind]
    refine window_spec hp fun g₂ staging h₂ => ?_
    have hl₂ := h₂.length_le
    have hwin : (g₁.published.drop g₁.consumed).take n =
        (g₂.published.take (g.consumed + n)).drop g.consumed := by
      rw [hc₁, ← drop_take_mono h₂.published (by omega), List.drop_take, Nat.add_sub_cancel_left]
    have hlen : ((g₂.published.take (g.consumed + n)).drop g.consumed).length = n := by
      rw [List.length_drop, List.length_take_of_le (by omega), Nat.add_sub_cancel_left]
    have hne : (g₂.published.take (g.consumed + n)).drop g.consumed ≠ [] := by
      intro he
      rw [he] at hlen
      simp at hlen
      omega
    have hrel := decodeTurn_released codec c.codec
      ((g₂.published.take (g.consumed + n)).drop g.consumed) (UInt32.ofNat n)
    rw [UInt32.toNat_ofNat', Nat.mod_eq_of_lt (by omega)] at hrel
    simp only [hwin]
    refine h (g.consumed + n) g₂ _ _ _ hn (by omega) (by omega) ?_ (by omega) (h₁.trans h₂)
    unfold turnOn
    rw [if_neg hne, hlen]
  · have hl' := h₁.length_le
    refine h g.consumed g₁ _ .wait c.codec (by omega) (by omega) (by omega) ?_ (Nat.zero_le _) h₁
    unfold turnOn
    rw [if_pos (by rw [List.drop_eq_nil_iff, List.length_take]; omega)]

/-- **One turn of `DrainRing`**, whatever the peer publishes meanwhile: it acts on the bytes that
were readable at some moment, those readable at its start among them. -/
theorem drainTurn_spec {codec : Codec σ M} {c : Inbox σ} {Q : Turn M × Inbox σ → World → Prop}
    (hi : Inv cap base g)
    (h : ∀ m g' st t s, g.published.length ≤ m → m ≤ g'.published.length →
      m ≤ g.consumed + cap.val →
      turnOn codec c.codec ((g'.published.take m).drop g.consumed) = (t, s) →
      Took cap base g t.released g' → Q (t, ⟨s, st⟩) g') :
    wpR cap base (drainTurn codec cap c) Q g := by
  rw [drainTurn_eq, wpR, Prog.wp_bind]
  refine lookTurn_spec hi fun m g₁ st t s hm hm' hwin hon hrel h₁ => ?_
  have hc₁ : g₁.consumed = g.consumed := h₁.consumed
  have hrest : ∀ {k : UInt32}, t.released = k.toNat → wpR cap base
      (commitRead k >>= fun _ => pure (t, ⟨s, st⟩)) Q g₁ := by
    intro k hk
    rw [wpR, Prog.wp_bind]
    have hle := hi.le
    refine commitRead_spec h₁.inv (by omega) fun g₂ h₂ => ?_
    have h12 := h₁.trans h₂
    rw [Nat.zero_add, ← hk] at h12
    refine h m g₂ _ _ _ hm (hm'.trans h₂.length_le) hwin ?_ h12
    rw [List.drop_take, drop_take_mono h₂.published (by omega), ← List.drop_take]
    exact hon
  have hstay : t.released = 0 → Q (t, ⟨s, st⟩) g₁ := by
    intro hz
    refine h m g₁ _ _ _ hm hm' hwin hon ?_
    rw [hz]
    exact h₁
  cases t with
  | fault => exact hstay rfl
  | error => exact hstay rfl
  | wait => exact hstay rfl
  | heartbeat k => exact hrest rfl
  | package k pkg => exact hrest rfl

/-- A turn while the peer rests acts on everything readable. -/
theorem drainTurn_run {codec : Codec σ M} {c c' : Inbox σ} {t : Turn M} (hi : Inv cap base g)
    (h : (drainTurn codec cap c).run (World.exec cap) g = ((t, c'), g')) :
    Inv cap base g' ∧ g'.published = g.published ∧ g'.consumed = g.consumed + t.released ∧
      turnOn codec c.codec (g.published.drop g.consumed) = (t, c'.codec) := by
  have hrun := Prog.exec_run (World.exec cap) (wStep_refl : ∀ g, WStep cap base g g)
    (drainTurn codec cap c) g
  rw [h] at hrun
  have hwp : wpR cap base (drainTurn codec cap c) (fun r g' => ∃ m,
      g.published.length ≤ m ∧ m ≤ g'.published.length ∧
      turnOn codec c.codec ((g'.published.take m).drop g.consumed) = (r.1, r.2.codec) ∧
      Took cap base g r.1.released g') g :=
    drainTurn_spec hi fun m g' _ _ _ hm hm' _ hon ht => ⟨m, hm, hm', hon, ht⟩
  have hstep := Prog.wp_run wStep_refl rStep_refl (fun _ _ _ => RStep.trans) hwp
  rw [h] at hstep
  have hQ := Prog.wp_exec hrun hwp
  obtain ⟨m, hm, hm', hon, ht⟩ := hQ
  have hp : g'.published = g.published := hstep.published
  rw [hp, List.take_of_length_le hm] at hon
  exact ⟨ht.inv, hp, ht.consumed, hon⟩

/-- `DrainRing` by its first turn. -/
theorem drainRing_run {codec : Codec σ M} {c c' : Inbox σ} {t : Turn M}
    (h : (drainTurn codec cap c).run (World.exec cap) g = ((t, c'), g')) (fuel : ℕ) (count : ℤ) :
    ((drainRing codec cap (fuel + 1) count c).run (World.exec cap) g).1.1 =
      match t.ret count with
      | some r => some r
      | none => ((drainRing codec cap fuel (t.count count) c').run (World.exec cap) g').1.1 := by
  rw [drainRing, Prog.run_bind, h]
  simp only []
  cases hr : t.ret count with
  | some r => rfl
  | none =>
    simp only []
    rw [Prog.run_bind]
    rfl

end ShmIpc.Conn.DrainRing
