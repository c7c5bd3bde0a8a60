import ShmIpc.Codec.Frame
import ShmIpc.Conn.SendCmd
import ShmIpc.Lib.Threads

/-! # Wake-ups

The writer stores `write_pos` and then rings the eventfd; the reader drains the eventfd and then
reads until there is nothing to act on. The writer keeps between its operations that all it has
published is rung (`Rung`). The reader keeps, while it waits in `poll`, that it has looked at the
ring after everything that the rings it has drained stand for. With the counter at `0` no ring is
undrained, so both together leave nothing unseen.

The readers are the event handlers of a connection and `ShmClient::ReadMessage`. The latter passes
its buffer size on in 32 bits: a size of a multiple of `2^32` reads nothing and waits forever. -/

namespace ShmIpc.Conn.Wakeup

open Relation
open ShmIpc.Lib.RelyGuarantee ShmIpc.Lib.Threads
open ShmIpc.Ring.RingBuf ShmIpc.Ring.History ShmIpc.Ring.Writer ShmIpc.Ring.Reader
open ShmIpc.Ring.Channel
open ShmIpc.Codec.Frame
open ShmIpc.Conn.DrainRing ShmIpc.Conn.SendCmd

variable {cap : Capacity} {base : ℕ} {g g' : World} {M : Type}

/-! ### The writer -/

/-- `ShmClient::SendMessage`, for a buffer of at least `len` bytes. -/
def sendMessage (cap : Capacity) (connected : Bool) (message : Option (List UInt8)) (len : Int32) :
    RingM ℤ :=
  match message with
  | none => return -1
  | some bytes =>
    if connected = false ∨ len ≤ 0 then return -1
    else do
      let ok ← writeAll cap (first bytes len.toUInt32)
      return if ok then len.toInt else -1

/-- The operations of a writer, with its active batch between them. -/
inductive WriteCall (cap : Capacity) :
    Option ChannelBatchWriter → World → RingM (Option ChannelBatchWriter) → Prop
  | sendFrame {g : World} (payloadLen seq : UInt32) (cb : Callback) :
      WriteCall cap none g (do
        let _ ← sendFrame cap payloadLen seq cb
        return none)
  | writeRaw {g : World} (data : Buf) :
      WriteCall cap none g (do
        let _ ← writeRaw cap data
        return none)
  | sendMessage {g : World} (connected : Bool) (message : Option (List UInt8)) (len : Int32) :
      WriteCall cap none g (do
        let _ ← sendMessage cap connected message len
        return none)
  | startBatch {g : World} :
      WriteCall cap none g (do
        let b ← startBatch
        return some b)
  | write {g : World} (b : ChannelBatchWriter) (data : Option Buf) :
      WriteCall cap (some b) g (do
        let (_, b') ← b.tryWrite cap data
        return some b')
  | reserve {g : World} (b : ChannelBatchWriter) (src : Buf) :
      WriteCall cap (some b) g (do
        let (_, batch) ← b.batch.reserveFill cap src
        return some { b with batch := batch })
  | sendFrameBatch {g : World} (b : ChannelBatchWriter) (payloadLen seq : UInt32)
      (cb : Callback) :
      WriteCall cap (some b) g (do
        let (_, b') ← sendFrameBatch cap b payloadLen seq cb
        return some b')
  | flush {g : World} (b : ChannelBatchWriter) :
      WriteCall cap (some b) g (do
        let (_, b') ← b.flush
        return some b')
  | cancel {g : World} (b : ChannelBatchWriter) :
      WriteCall cap (some b) g (return some b.cancel)
  | done {g : World} (b : ChannelBatchWriter) :
      WriteCall cap (some b) g (do
        b.destroy
        return none)

/-- The same of a writer that may publish without ringing, unless `rings`. -/
structure PeerInv (cap : Capacity) (base : ℕ) (rings : Prop) (b : Option ChannelBatchWriter)
    (g : World) : Prop where
  inv : Inv cap base g
  rung : rings → Rung g
  batch : ∀ x, b = some x → ∃ bw rc l, x = ⟨bw, true⟩ ∧ Pending cap base g bw rc l ∧ Counted bw l

theorem peerInv_none {rings : Prop} (hi : Inv cap base g) (hr : rings → Rung g) :
    PeerInv cap base rings none g :=
  ⟨hi, hr, fun _ h => absurd h (by simp)⟩

theorem peerInv_some {rings : Prop} {b : BatchWriter} {rc : ℕ} {l : List UInt8}
    (hp : Pending cap base g b rc l) (hc : Counted b l) (hr : rings → Rung g) :
    PeerInv cap base rings (some ⟨b, true⟩) g :=
  ⟨hp.inv, hr, fun x hx => by cases hx; exact ⟨b, rc, l, rfl, hp, hc⟩⟩

theorem PeerInv.rStep {rings : Prop} {b : Option ChannelBatchWriter}
    (h : PeerInv cap base rings b g) (hr : RStep g g') : PeerInv cap base rings b g' := by
  refine ⟨hr.inv h.inv, fun hrings => ?_, fun x hx => ?_⟩
  · have := h.rung hrings
    unfold Rung at this ⊢
    rw [hr.rung, hr.published, this]
  · obtain ⟨bw, rc, l, hx', hp, hc⟩ := h.batch x hx
    exact ⟨bw, rc, l, hx', hp.rStep hr, hc⟩

/-- What `WriteRaw` and `SendMessage` publish is rung. -/
theorem writeAll_rings {Q : Bool → World → Prop} {data : Buf} (hi : Inv cap base g)
    (h : ∀ ok g', Inv cap base g' → (Rung g → Rung g') → Q ok g') :
    wpW cap base (writeAll cap data) Q g :=
  writeAll_spec hi (fun g' hfl => h _ g' hfl.inv fun _ => (hfl.notified trivial).2)
    fun g' hw _ => h _ g' hw.inv fun hr => hr.wrote hw

/-- The operations ring what they publish. -/
theorem writeCall_keeps {rings : Prop} {b : Option ChannelBatchWriter}
    {p : RingM (Option ChannelBatchWriter)} (h : PeerInv cap base rings b g)
    (hc : WriteCall cap b g p) : wpW cap base p (PeerInv cap base rings) g := by
  obtain ⟨hi, hr, hb⟩ := h
  cases hc with
  | sendFrame payloadLen seq cb =>
    rw [wpW, Prog.wp_bind]
    exact sendFrame_safe hi fun _ g' hi' hr' => peerInv_none hi' fun h => hr' (hr h)
  | writeRaw data =>
    rw [wpW, Prog.wp_bind]
    unfold writeRaw
    split_ifs
    · exact peerInv_none hi hr
    · exact writeAll_rings hi fun _ g' hi' hr' => peerInv_none hi' fun h => hr' (hr h)
  | sendMessage connected message len =>
    rw [wpW, Prog.wp_bind]
    unfold sendMessage
    cases message with
    | none => exact peerInv_none hi hr
    | some bytes =>
      simp only []
      split_ifs
      · exact peerInv_none hi hr
      · rw [Prog.wp_bind]
        exact writeAll_rings hi fun _ g' hi' hr' => peerInv_none hi' fun h => hr' (hr h)
  | startBatch =>
    rw [wpW, Prog.wp_bind]
    exact startBatch_spec hi fun b g' hw hcount hp =>
      peerInv_some hp (counted_nil hcount) fun h => (hr h).wrote hw
  | write b data =>
    obtain ⟨bw, rc, l, rfl, hp, hcount⟩ := hb b rfl
    rw [wpW, Prog.wp_bind]
    exact write_safe hp data fun _ _ _ g' hw hp' hc' =>
      peerInv_some hp' (hc'.counted hcount) fun h => (hr h).wrote hw
  | reserve b src =>
    obtain ⟨bw, rc, l, rfl, hp, hcount⟩ := hb b rfl
    rw [wpW, Prog.wp_bind]
    refine reserveFill_spec hp (fun g' hres hw hp' => ?_) fun _ => peerInv_some hp hcount hr
    exact peerInv_some hp' (hcount.advance fun hrej => hres (if_pos hrej))
      fun h => (hr h).wrote hw
  | sendFrameBatch b payloadLen seq cb =>
    obtain ⟨bw, rc, l, rfl, hp, hcount⟩ := hb b rfl
    rw [wpW, Prog.wp_bind]
    exact sendFrameBatch_safe hp fun _ _ _ g' hw hp' hc' =>
      peerInv_some hp' (hc'.counted hcount) fun h => (hr h).wrote hw
  | flush b =>
    obtain ⟨bw, rc, l, rfl, hp, hcount⟩ := hb b rfl
    rw [wpW, Prog.wp_bind]
    exact channelFlush_spec hp fun g' hfl hp' =>
      peerInv_some hp' (counted_nil rfl) fun h => (hr h).flushed hcount hfl
  | cancel b =>
    obtain ⟨bw, rc, l, rfl, hp, hcount⟩ := hb b rfl
    exact peerInv_some hp.cancel (counted_nil rfl) hr
  | done b =>
    obtain ⟨bw, rc, l, rfl, hp, hcount⟩ := hb b rfl
    rw [wpW, Prog.wp_bind]
    exact destroy_safe hp fun g' hi' hr' => peerInv_none hi' fun h => hr' hcount (hr h)

/-- Where the event loop is with a connection. -/
inductive Phase : Type
  /-- in `poll`, or with another descriptor -/
  | poll
  /-- in `DrainRing`; `last` if the connection is removed afterwards in any case -/
  | draining (last : Bool)
  /-- the connection is removed -/
  | gone
  deriving DecidableEq, Repr

/-- What the handler does after a turn of `DrainRing`; `closing` if a callback called `Close`. -/
def afterTurn (last closing : Bool) : Turn M → Phase
  | .fault | .error => .gone
  | .wait => if last || closing then .gone else .poll
  | .heartbeat _ | .package _ _ => .draining last

/-- Where the client is. -/
inductive ReadPhase : Type
  /-- outside `ReadMessage` -/
  | app
  /-- at the top of the loop -/
  | top (bsize : ℕ)
  /-- in `poll` -/
  | polling (bsize : ℕ)
  deriving DecidableEq, Repr

/-- The steps of a client that calls `ReadMessage` with buffer sizes in `sizes`. -/
inductive ReadCall (sizes : ℕ → Prop) (cap : Capacity) :
    ReadPhase → World → RingM ReadPhase → Prop
  | readMessage {g : World} {bsize : ℕ} (h : sizes bsize) :
      ReadCall sizes cap .app g (return .top bsize)
  /-- `closed_` is set -/
  | closed {g : World} {bsize : ℕ} : ReadCall sizes cap (.top bsize) g (return .app)
  | tryRead {g : World} {bsize : ℕ} :
      ReadCall sizes cap (.top bsize) g (do
        let out ← tryRead cap (UInt32.ofNat bsize)
        return if 0 < out.length then .app else .polling bsize)
  /-- a time-out, an error of `poll`, or `closed_` -/
  | giveUp {g : World} {bsize : ℕ} : ReadCall sizes cap (.polling bsize) g (return .app)
  /-- `EINTR`, or a byte on the socket -/
  | again {g : World} {bsize : ℕ} : ReadCall sizes cap (.polling bsize) g (return .top bsize)
  /-- the peer has closed the socket -/
  | peerClosed {g : World} {bsize : ℕ} :
      ReadCall sizes cap (.polling bsize) g (do
        let _ ← tryRead cap (UInt32.ofNat bsize)
        return .app)
  | notified {g : World} {bsize : ℕ} (hefd : g.shm.efd ≠ 0) :
      ReadCall sizes cap (.polling bsize) g (do
        let _ ← drainNotify
        return .top bsize)

/-- The buffer size that reaches `TryRead` is not `0`. -/
def FitsWord (bsize : ℕ) : Prop := bsize % 4294967296 ≠ 0

/-- What the client keeps: in `poll`, all rings drained were for bytes it has read. -/
structure ReadInv (cap : Capacity) (base : ℕ) (p : ReadPhase) (g : World) : Prop where
  inv : Inv cap base g
  size : ∀ bsize, p = .top bsize ∨ p = .polling bsize → FitsWord bsize
  seen : ∀ bsize, p = .polling bsize → g.drained ≤ g.consumed

theorem readInv_app (hi : Inv cap base g) : ReadInv cap base .app g := by
  refine ⟨hi, fun bsize hp => ?_, fun bsize hp => by cases hp⟩
  rcases hp with hp | hp <;> cases hp

theorem readInv_top (hi : Inv cap base g) {bsize : ℕ} (h : FitsWord bsize) :
    ReadInv cap base (.top bsize) g := by
  refine ⟨hi, fun b hp => ?_, fun b hp => by cases hp⟩
  rcases hp with hp | hp <;> cases hp
  exact h

theorem read_contract {sizes : ℕ → Prop} (hs : ∀ n, sizes n → FitsWord n) (cap : Capacity)
    (base : ℕ) :
    Contract (World.exec cap) (WStep cap base) RStep (ReadCall sizes cap) (ReadInv cap base)
      (fun _ _ => True) where
  call {l g p} h hc := by
    cases hc with
    | readMessage hsize => exact readInv_top h.inv (hs _ hsize)
    | closed => exact readInv_app h.inv
    | @tryRead _ bsize =>
      have hfits := h.size bsize (Or.inl rfl)
      have hword : 0 < (UInt32.ofNat bsize).toNat := by
        rw [UInt32.toNat_ofNat']
        exact Nat.pos_of_ne_zero hfits
      rw [Prog.wp_bind]
      refine tryRead_spec h.inv fun m n g' hm hm' hn ht => ?_
      have hlen : ((g'.published.drop g.consumed).take n).length = n := by
        rw [List.length_take, List.length_drop]
        omega
      show ReadInv cap base (if 0 < ((g'.published.drop g.consumed).take n).length then _ else _) g'
      rw [hlen]
      split_ifs with hpos
      · exact readInv_app ht.inv
      · refine ⟨ht.inv, fun b hb => ?_, fun _ _ => ?_⟩
        · rcases hb with hb | hb <;> cases hb
          exact hfits
        · -- nothing was read, so nothing was there
          have h1 := h.inv.drained
          have h2 := h.inv.rung
          rw [ht.drained, ht.consumed]
          omega
    | giveUp => exact readInv_app h.inv
    | again => exact readInv_top h.inv (h.size _ (Or.inr rfl))
    | peerClosed =>
      rw [Prog.wp_bind]
      exact tryRead_spec h.inv fun _ _ _ _ _ _ ht => readInv_app ht.inv
    | notified hefd =>
      rw [Prog.wp_bind]
      intro g' hw
      have hr : RStep g' (g'.after cap .drainNotify) := rStep_drainNotify
      exact ⟨hr, readInv_top (hr.inv (hw.inv h.inv)) (h.size _ (Or.inr rfl))⟩
  stable h hw :=
    ⟨hw.inv h.inv, h.size, fun b hb => by rw [hw.drained, hw.consumed]; exact h.seen b hb⟩
  weak _ := trivial
  keepRely _ _ := trivial
  keepGuar _ _ := trivial

/-! ### No lost wake-up -/

/-- The ring and the peers of a channel that has just been set up. -/
def start {L : Type} (l : L) (base : ℕ) (d : ℕ → UInt8) :
    Duo Cmd Cmd.Res (Option ChannelBatchWriter) L World where
  fst := .idle none
  snd := .idle l
  mem := .empty base d

/-- One byte sent into an empty ring. -/
theorem sendMessage_one_run (cap : Capacity) (base : ℕ) (d : ℕ → UInt8) :
    ∃ rc g', (sendMessage cap true (some [1]) 1).run (World.exec cap) (.empty base d) = (rc, g') ∧
      Inv cap base g' ∧ g'.published = [1] ∧ g'.consumed = 0 ∧ g'.shm.efd ≠ 0 := by
  rcases hrun : (sendMessage cap true (some [1]) 1).run (World.exec cap) (.empty base d) with
    ⟨rc, g'⟩
  have hexec := Prog.exec_run (World.exec cap) rStep_refl (sendMessage cap true (some [1]) 1)
    (.empty base d)
  rw [hrun] at hexec
  have hwp : wpW cap base (sendMessage cap true (some [1]) 1)
      (fun _ g' => Inv cap base g' ∧ g'.published = [1] ∧ g'.rung = 1) (.empty base d) := by
    unfold sendMessage
    simp only []
    rw [if_neg (by decide), wpW, Prog.wp_bind]
    refine writeAll_spec (inv_empty cap base d) (fun g' hfl => ?_) fun g' _ hno => ?_
    · obtain ⟨-, hr⟩ := hfl.notified trivial
      have hp : g'.published = [1] := hfl.published
      exact ⟨hfl.inv, hp, by rw [hr, hp]; rfl⟩
    · exfalso
      have h1 : (first [1] (1 : Int32).toUInt32).bytes.length = 1 := by decide
      have h2 : (World.empty base d).consumed = 0 := rfl
      have h3 : (World.empty base d).published.length = 0 := rfl
      have h4 := cap.ge
      omega
  have hstep := Prog.wp_run rStep_refl wStep_refl (fun _ _ _ => WStep.trans) hwp
  rw [hrun] at hstep
  have hQ := Prog.wp_exec hexec hwp
  obtain ⟨hi, hp, hr⟩ := hQ
  refine ⟨rc, g', rfl, hi, hp, hstep.consumed, fun he => ?_⟩
  have hbell := hi.bell he
  rw [hr, show g'.drained = 0 from hstep.drained] at hbell
  exact absurd hbell (by decide)

end ShmIpc.Conn.Wakeup
