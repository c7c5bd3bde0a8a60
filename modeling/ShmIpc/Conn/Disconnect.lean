import ShmIpc.Conn.AsyncClient
import ShmIpc.Conn.Wakeup
import ShmIpc.Lib.Trace

/-! # What was published before a disconnect

The bytes come through the ring and the end of the stream through the socket, so a reader may see
the end first. Every reader looks at the ring once more after it has seen the end. The peer
publishes nothing after it has closed its socket; so this last look sees all there is, and it finds
nothing to act on only if everything was acted on.

The readers are the event handlers of a connection, with a server or an asynchronous client as its
owner, and `ShmClient::ReadMessage`. The codec may keep a state, which the other methods of the
codec change as they like (`other`). -/

namespace ShmIpc.Conn.Disconnect

open Relation
open ShmIpc.Lib.RelyGuarantee ShmIpc.Lib.Threads ShmIpc.Lib.Trace
open ShmIpc.Ring.RingBuf ShmIpc.Ring.History ShmIpc.Ring.Writer ShmIpc.Ring.Reader
open ShmIpc.Ring.Channel
open ShmIpc.Conn.DrainRing
open ShmIpc.Conn.AsyncClient (TcpClientStates)
open ShmIpc.Conn.Wakeup (WriteCall PeerInv ReadPhase peerInv_none writeCall_keeps
  sendMessage_one_run)

variable {cap : Capacity} {base : ℕ} {σ M : Type}

/-! ### The peer -/

/-- The command on the socket. -/
inductive SockCmd : Type
  | close

/-- The ring, and whether the peer has closed its socket. -/
abbrev Link : Type := World × Bool

abbrev LinkM : Type → Type := Prog (Cmd ⊕ SockCmd) (Sum.elim Cmd.Res fun _ => Unit)

/-- The effect of a command. -/
def Link.exec (cap : Capacity) :
    (c : Cmd ⊕ SockCmd) → Link → Sum.elim Cmd.Res (fun _ => Unit) c × Link :=
  Prog.liftExec (World.exec cap) fun _ m => ((), m.1, true)

/-- The peer closes its socket. -/
def closeSocket : LinkM Unit := Prog.cmd (Sum.inr SockCmd.close)

/-- What the peer does until it has closed its socket: the operations of a writer, and writing and
ringing on their own. -/
inductive PeerCall (cap : Capacity) :
    Option ChannelBatchWriter → Link → LinkM (Option ChannelBatchWriter) → Prop
  | op {b : Option ChannelBatchWriter} {m : Link} {p : RingM (Option ChannelBatchWriter)}
      (h : WriteCall cap b m.1 p) (hsock : m.2 = false) : PeerCall cap b m p.lift
  | tryWrite {m : Link} (data : Option Buf) (hsock : m.2 = false) :
      PeerCall cap none m (Prog.lift do
        let _ ← tryWrite cap data
        return none)
  | notifyPeer {m : Link} (hsock : m.2 = false) :
      PeerCall cap none m (Prog.lift do
        notifyPeer
        return none)
  | close {b : Option ChannelBatchWriter} {m : Link} :
      PeerCall cap b m (do
        closeSocket
        return b)

/-- A step of the peer: nothing once the socket is closed. -/
def PeerStep (cap : Capacity) (base : ℕ) (m m' : Link) : Prop :=
  WStep cap base m.1 m'.1 ∧ (m.2 = true → m' = m)

/-- A step of the reader. -/
def LocalStep (m m' : Link) : Prop := RStep m.1 m'.1 ∧ m'.2 = m.2

theorem peerStep_refl (m : Link) : PeerStep cap base m m := ⟨wStep_refl _, fun _ => rfl⟩

theorem localStep_refl (m : Link) : LocalStep m m := ⟨rStep_refl _, rfl⟩

theorem PeerStep.trans {a b c : Link} (h : PeerStep cap base a b) (h' : PeerStep cap base b c) :
    PeerStep cap base a c := by
  refine ⟨h.1.trans h'.1, fun hs => ?_⟩
  have hb := h.2 hs
  subst hb
  exact h'.2 hs

theorem LocalStep.trans {a b c : Link} (h : LocalStep a b) (h' : LocalStep b c) :
    LocalStep a c :=
  ⟨h.1.trans h'.1, h'.2.trans h.2⟩

/-- Once the socket is closed nothing more is published. -/
def Ended (m m' : Link) : Prop := m.2 = true → m'.2 = true ∧ m'.1.published = m.1.published

theorem PeerStep.ended {m m' : Link} (h : PeerStep cap base m m') : Ended m m' := by
  intro hm
  rw [h.2 hm]
  exact ⟨hm, rfl⟩

theorem LocalStep.ended {m m' : Link} (h : LocalStep m m') : Ended m m' :=
  fun hm => ⟨h.2.trans hm, h.1.published⟩

theorem Ended.trans {a b c : Link} (h : Ended a b) (h' : Ended b c) : Ended a c := by
  intro ha
  obtain ⟨h1, h2⟩ := h ha
  obtain ⟨h3, h4⟩ := h' h1
  exact ⟨h3, h4.trans h2⟩

/-- An operation of the reader on the ring. -/
theorem wp_local {α : Type} {m : Link} {p : RingM α} {Q : α → World → Prop} {Q' : α → Link → Prop}
    (h : wpR cap base p Q m.1) (hQ : ∀ a m', Ended m m' → Q a m'.1 → Q' a m') :
    p.lift.wp (Link.exec cap) (PeerStep cap base) LocalStep Q' m :=
  Prog.wp_mono (fun a m' hq => hQ a m' hq.2 hq.1) (Prog.wp_lift (K := Ended m)
    (fun _ _ hK hr => ⟨hr.1, hK.trans hr.ended⟩)
    (fun _ _ hK hg => ⟨⟨hg, rfl⟩, hK.trans (LocalStep.ended ⟨hg, rfl⟩)⟩) h fun hm => ⟨hm, rfl⟩)

/-- An operation of the writer on a ring whose socket is open. -/
theorem wp_peer {m : Link} {p : RingM (Option ChannelBatchWriter)} (hsock : m.2 = false)
    (h : wpW cap base p (PeerInv cap base False) m.1) :
    p.lift.wp (Link.exec cap) LocalStep (PeerStep cap base)
      (fun b m => PeerInv cap base False b m.1) m := by
  refine Prog.wp_mono (fun _ _ hq => hq.1) (Prog.wp_lift (K := fun m => m.2 = false)
    (fun a b hK hr => ⟨hr.1, hr.2.trans hK⟩) (fun a s hK hg => ⟨⟨hg, fun hs => ?_⟩, hK⟩) h hsock)
  rw [hK] at hs
  cases hs

theorem peer_contract (cap : Capacity) (base : ℕ) :
    Contract (Link.exec cap) LocalStep (PeerStep cap base) (PeerCall cap)
      (fun b m => PeerInv cap base False b m.1) (fun _ _ => True) where
  call {b m p} h hc := by
    cases hc with
    | op hw hsock => exact wp_peer hsock (writeCall_keeps h hw)
    | tryWrite data hsock =>
      refine wp_peer hsock ?_
      rw [wpW, Prog.wp_bind]
      exact tryWrite_spec h.inv (fun _ _ _ _ hw => peerInv_none hw.inv False.elim)
        fun _ hw _ => peerInv_none hw.inv False.elim
    | notifyPeer hsock =>
      refine wp_peer hsock ?_
      rw [wpW, Prog.wp_bind]
      exact notifyPeer_spec h.inv fun _ hfl _ => peerInv_none hfl.inv False.elim
    | close =>
      intro m' hr
      refine ⟨⟨wStep_refl _, fun hs => ?_⟩, h.rStep hr.1⟩
      exact Prod.ext rfl hs.symm
  stable h hr := h.rStep hr.1
  weak _ := trivial
  keepRely _ _ := trivial
  keepGuar _ _ := trivial

/-! ### The event handlers -/

/-- Who holds the connection. -/
inductive Owner : Type
  /-- a server, with or without it in `conns_` -/
  | server (listed : Bool)
  /-- a client, with or without it in `conn_`, and `state_` -/
  | client (held : Bool) (state : TcpClientStates)
  deriving DecidableEq, Repr

/-- What the handlers look for first. -/
def Owner.has : Owner → Bool
  | .server listed => listed
  | .client held _ => held

/-- Where the event loop is with the connection. -/
inductive Phase : Type
  /-- in `poll`, or with another descriptor -/
  | poll
  /-- in `DrainRing`, called for the socket or for the eventfd -/
  | draining (viaSocket : Bool)
  /-- the codec has left its buffer -/
  | fault
  deriving DecidableEq, Repr

/-- What is recorded. -/
inductive Event (M : Type) : Type
  /-- the callbacks -/
  | message (pkg : M)
  | close
  /-- the local side closes the connection -/
  | localClose
  /-- `DrainRing` returns `-1`: the codec asks to disconnect -/
  | disconnect

/-- The local side of a connection. -/
structure Receiver (σ M : Type) where
  inbox : Inbox σ
  state : TcpConnStates
  owner : Owner
  phase : Phase
  trace : List (Event M)

namespace Receiver

variable (x : Receiver σ M)

def note (e : Event M) : Receiver σ M := { x with trace := x.trace ++ [e] }

/-- `OnMessage`, with a message callback. -/
def onMessage (pkg : M) : Receiver σ M := if x.state.IsOpen then x.note (.message pkg) else x

/-- `OnClose`, with a close callback. -/
def onClose : Receiver σ M :=
  if x.state = .closeed then x else { x.note .close with state := .closeed }

/-- `ShmServer::RemoveConn`. -/
def removeConn : Receiver σ M := onClose { x with owner := .server false }

/-- `ShmAsyncClient::Teardown`. -/
def teardown (held : Bool) (state : TcpClientStates) : Receiver σ M :=
  if state = .close then x
  else if held then onClose { x with owner := .client false .close }
  else { x with owner := .client false .close }

/-- The owner gives the connection up. -/
def remove : Receiver σ M :=
  match x.owner with
  | .server _ => x.removeConn
  | .client held state => x.teardown held state

/-- The handlers after `DrainRing`: for the socket they remove the connection in any case. -/
def drained (viaSocket failed : Bool) : Receiver σ M :=
  if viaSocket = true ∨ failed = true ∨ x.state = .closeing then
    remove { x with phase := .poll }
  else { x with phase := .poll }

/-- What follows a turn of `DrainRing`. -/
def afterTurn (viaSocket : Bool) : Turn M → Receiver σ M
  | .fault => { x with phase := .fault }
  | .error => (x.note .disconnect).drained viaSocket true
  | .wait => x.drained viaSocket false
  | .heartbeat _ => x
  | .package _ pkg => x.onMessage pkg

/-- `Close`. -/
def close : Receiver σ M :=
  if x.state.IsOpen then { x.note .localClose with state := .closeing } else x

/-- `OnVerify`. -/
def onVerify (succ : Bool) : Receiver σ M :=
  if succ then { x with state := .established } else x.close

end Receiver

/-- The steps of the local side: the handlers up to `DrainRing` and its turns; the calls of the
application, in a callback or between events; and the other methods of the codec. A result of `read`
that is not positive means that the peer has closed its socket. -/
inductive LocalCall (codec : Codec σ M) (other : σ → σ → Prop) (cap : Capacity) :
    Receiver σ M → Link → LinkM (Receiver σ M) → Prop
  | onNotify {x : Receiver σ M} {m : Link} (h : x.phase = .poll) :
      LocalCall codec other cap x m (Prog.lift do
        let _ ← drainNotify
        return if x.owner.has then { x with phase := .draining false } else x)
  | onSocket {x : Receiver σ M} {m : Link} (n : ℤ) (h : x.phase = .poll)
      (hread : n ≤ 0 → m.2 = true) :
      LocalCall codec other cap x m
        (return if x.owner.has = true ∧ n ≤ 0 then { x with phase := .draining true } else x)
  | turn {x : Receiver σ M} {m : Link} {viaSocket : Bool} (h : x.phase = .draining viaSocket) :
      LocalCall codec other cap x m (Prog.lift do
        let (t, c) ← drainTurn codec cap x.inbox
        return { x with inbox := c }.afterTurn viaSocket t)
  /-- an exception out of the message callback leaves the handler -/
  | throws {x : Receiver σ M} {m : Link} {viaSocket : Bool} (h : x.phase = .draining viaSocket) :
      LocalCall codec other cap x m (return { x with phase := .poll })
  | close {x : Receiver σ M} {m : Link} : LocalCall codec other cap x m (return x.close)
  | onVerify {x : Receiver σ M} {m : Link} (succ : Bool) :
      LocalCall codec other cap x m (return x.onVerify succ)
  /-- `CloseConn`, `Stop`, or `Close` of the client, or a handler of another connection -/
  | remove {x : Receiver σ M} {m : Link} (h : x.owner.has = true) :
      LocalCall codec other cap x m (return (x.note .localClose).remove)
  | codec {x : Receiver σ M} {m : Link} {st : σ} (h : other x.inbox.codec st) :
      LocalCall codec other cap x m
        (return { x with inbox := { x.inbox with codec := st } })

/-! ### What was handed over -/

/-- The packages given to the message callback. -/
def messages (t : List (Event M)) : List M :=
  t.filterMap fun
    | .message pkg => some pkg
    | _ => none

/-- Neither the local side nor the codec has ended the connection. -/
def LeftOpen (t : List (Event M)) : Prop := .localClose ∉ t ∧ .disconnect ∉ t

section Handed

variable (codec : Codec σ M) (other : σ → σ → Prop) (st₀ : σ) (s : List UInt8)

/-- The codec, first in the state `st₀` and now in `st`, has turned the first `c` bytes of the
stream into these packages, called with more and more of the stream. -/
inductive Decodes : List M → ℕ → σ → Prop
  | nil : Decodes [] 0 st₀
  | turn {pkgs : List M} {c n : ℕ} {st st' : σ} {t : Turn M} (h : Decodes pkgs c st)
      (hn : n ≤ s.length) (ht : turnOn codec st ((s.take n).drop c) = (t, st')) :
      Decodes (pkgs ++ t.pkgs) (c + t.released) st'
  | other {pkgs : List M} {c : ℕ} {st st' : σ} (h : Decodes pkgs c st) (ho : other st st') :
      Decodes pkgs c st'

/-- These are the packages of the stream: the codec has made them of its first bytes, and all that
is left is not a complete one. -/
def Handed (pkgs : List M) : Prop :=
  ∃ c st st', Decodes codec other st₀ s pkgs c st ∧ turnOn codec st (s.drop c) = (.wait, st')

end Handed

/-- The codec frames the stream: its answer depends on the bytes only, and one other than "more"
stays when there are more bytes. -/
structure Frames (codec : Codec σ M) (next : List UInt8 → Turn M) : Prop where
  decides : ∀ st buf, (turnOn codec st buf).1 = next buf
  stable : ∀ buf rest, next buf ≠ .wait → next (buf ++ rest) = next buf

/-- The complete packets of a stream, cut off one after the other. -/
inductive Complete (next : List UInt8 → Turn M) : List UInt8 → List M → Prop
  | rest {s : List UInt8} (h : next s = .wait) : Complete next s []
  | packet {s : List UInt8} {pkgs : List M} (h : next s ≠ .wait)
      (hrest : Complete next (s.drop (next s).released) pkgs) :
      Complete next s ((next s).pkgs ++ pkgs)

section Framed

variable {codec : Codec σ M} {other : σ → σ → Prop} {next : List UInt8 → Turn M} {st₀ st : σ}
  {s : List UInt8} {pkgs : List M} {c : ℕ}

/-- Bytes decoded piece by piece are bytes decoded at once. -/
theorem Decodes.complete (hf : Frames codec next) (h : Decodes codec other st₀ s pkgs c st) :
    ∀ {tail : List M}, Complete next (s.drop c) tail → Complete next s (pkgs ++ tail) := by
  induction h with
  | nil => exact fun htail => htail
  | @turn pkgs c n st st' t _ _ ht ih =>
    intro tail htail
    have hnext : next ((s.take n).drop c) = t := by rw [← hf.decides st, ht]
    rw [List.append_assoc]
    refine ih ?_
    by_cases hwait : t = .wait
    · subst hwait
      exact htail
    · -- the answer was settled by the bytes that were there
      have hcut : (s.take n).drop c ++ (s.drop n).drop (c - (s.take n).length) = s.drop c := by
        rw [← List.drop_append, List.take_append_drop]
      have hall : next (s.drop c) = t := by
        rw [← hcut, hf.stable _ _ (by rw [hnext]; exact hwait), hnext]
      have hrest : Complete next ((s.drop c).drop (next (s.drop c)).released) tail := by
        rw [hall, List.drop_drop]
        exact htail
      rw [← hall]
      exact .packet (by rw [hall]; exact hwait) hrest
  | other _ _ ih => exact ih

theorem Handed.complete (hf : Frames codec next) (h : Handed codec other st₀ s pkgs) :
    Complete next s pkgs := by
  obtain ⟨c, st, st', hd, hwait⟩ := h
  have hrest : next (s.drop c) = .wait := by rw [← hf.decides st, hwait]
  have hall := hd.complete hf (.rest hrest)
  rw [List.append_nil] at hall
  exact hall

theorem Decodes.mono {s' : List UInt8} (hs : s <+: s') (h : Decodes codec other st₀ s pkgs c st) :
    Decodes codec other st₀ s' pkgs c st := by
  induction h with
  | nil => exact .nil
  | turn _ hn ht ih =>
    rw [← take_mono hs hn] at ht
    exact .turn ih (hn.trans hs.length_le) ht
  | other _ ho ih => exact .other ih ho

end Framed

/-- At every run of the close callback that neither the local side nor the codec has brought about,
the peer has closed its socket, and the message callback has got all packages of its stream. -/
def AllHanded (codec : Codec σ M) (other : σ → σ → Prop) (st₀ : σ) (m : Link)
    (t : List (Event M)) : Prop :=
  AtEach .close (fun pre => LeftOpen pre →
    m.2 = true ∧ Handed codec other st₀ m.1.published (messages pre)) t

/-! ### The handlers keep it -/

section Handlers

variable {codec : Codec σ M} {other : σ → σ → Prop} {st₀ : σ} {x : Receiver σ M} {m m' : Link}
  {t : List (Event M)} {e : Event M}

/-- What is published before the socket is closed is all there is. -/
theorem AllHanded.mono (h : AllHanded codec other st₀ m t) (hm : Ended m m') :
    AllHanded codec other st₀ m' t := by
  refine AtEach.mono h fun pre hpre hopen => ?_
  obtain ⟨h1, h2⟩ := hpre hopen
  obtain ⟨h3, h4⟩ := hm h1
  rw [h4]
  exact ⟨h3, h2⟩

/-- Between two steps; `pkgs` are packages released and not yet given to `OnMessage`. -/
structure LocalInv (codec : Codec σ M) (other : σ → σ → Prop) (st₀ : σ) (cap : Capacity)
    (base : ℕ) (pkgs : List M) (x : Receiver σ M) (m : Link) : Prop where
  ring : Inv cap base m.1
  socket : x.phase = .draining true → m.2 = true
  handed : AllHanded codec other st₀ m x.trace
  /-- while the connection is open, all that was released was decoded and handed over -/
  current : LeftOpen x.trace → .close ∉ x.trace → x.state.IsOpen ∧
    Decodes codec other st₀ m.1.published (messages x.trace ++ pkgs) m.1.consumed x.inbox.codec
  /-- and no handler runs after the close callback -/
  gone : LeftOpen x.trace → .close ∈ x.trace →
    x.owner.has = false ∧ ∀ viaSocket, x.phase ≠ .draining viaSocket

/-- `OnClose` calls back or finds the connection closed. -/
theorem onClose_cases (x : Receiver σ M) :
    (x.state = .closeed ∧ x.onClose = x) ∨
      (x.onClose.trace = x.trace ++ [.close] ∧ x.onClose.owner = x.owner ∧
        x.onClose.phase = x.phase) := by
  unfold Receiver.onClose
  by_cases hs : x.state = .closeed
  · exact Or.inl ⟨hs, if_pos hs⟩
  · rw [if_neg hs]
    exact Or.inr ⟨rfl, rfl, rfl⟩

/-- The owner has nothing to remove, removes silently, or removes with the close callback. -/
theorem remove_cases (x : Receiver σ M) :
    x.remove = x ∨
      (∃ o : Owner, o.has = false ∧ x.remove = { x with owner := o }) ∨
      (x.remove.trace = x.trace ++ [.close] ∧ x.remove.owner.has = false ∧
        x.remove.phase = x.phase) := by
  have honClose : ∀ o : Owner, o.has = false →
      (Receiver.onClose { x with owner := o } = { x with owner := o }) ∨
        ((Receiver.onClose { x with owner := o }).trace = x.trace ++ [.close] ∧
          (Receiver.onClose { x with owner := o }).owner.has = false ∧
          (Receiver.onClose { x with owner := o }).phase = x.phase) := by
    intro o ho
    rcases onClose_cases { x with owner := o } with ⟨-, h⟩ | ⟨h1, h2, h3⟩
    · exact Or.inl h
    · exact Or.inr ⟨h1, by rw [h2]; exact ho, h3⟩
  unfold Receiver.remove
  split
  · rcases honClose (.server false) rfl with h | h
    · exact Or.inr (Or.inl ⟨_, rfl, h⟩)
    · exact Or.inr (Or.inr h)
  · unfold Receiver.teardown
    split_ifs
    · exact Or.inl rfl
    · rcases honClose (.client false .close) rfl with h | h
      · exact Or.inr (Or.inl ⟨_, rfl, h⟩)
      · exact Or.inr (Or.inr h)
    · exact Or.inr (Or.inl ⟨_, rfl, rfl⟩)

/-- Removing a connection, in `poll` or because the local side or the codec wants it. -/
theorem LocalInv.remove (h : LocalInv codec other st₀ cap base [] x m)
    (hall : LeftOpen x.trace → x.phase = .poll ∧
      m.2 = true ∧ Handed codec other st₀ m.1.published (messages x.trace)) :
    LocalInv codec other st₀ cap base [] x.remove m := by
  rcases remove_cases x with hx | ⟨o, ho, hx⟩ | ⟨htrace, howner, hphase⟩
  · rw [hx]
    exact h
  · rw [hx]
    exact ⟨h.ring, h.socket, h.handed, h.current, fun h1 h2 => ⟨ho, (h.gone h1 h2).2⟩⟩
  · have hopen : LeftOpen x.remove.trace → LeftOpen x.trace := by
      rw [htrace]
      exact fun hl => ⟨fun hm => hl.1 (List.mem_append_left _ hm),
        fun hm => hl.2 (List.mem_append_left _ hm)⟩
    refine ⟨h.ring, ?_, ?_, fun _ hc => ?_, fun hl _ => ⟨howner, ?_⟩⟩
    · rw [hphase]
      exact h.socket
    · rw [htrace]
      exact h.handed.concat fun _ hl => (hall hl).2
    · exact absurd (by rw [htrace]; simp) hc
    · intro viaSocket
      rw [hphase, (hall (hopen hl)).1]
      simp

/-- Once the local side or the codec has ended the connection nothing more is promised. -/
theorem LocalInv.ended {y : Receiver σ M} {pkgs : List M}
    (h : LocalInv codec other st₀ cap base pkgs x m) (he : e = .localClose ∨ e = .disconnect)
    (htrace : y.trace = x.trace ++ [e]) (hphase : y.phase = x.phase) :
    LocalInv codec other st₀ cap base [] y m ∧ ¬ LeftOpen y.trace := by
  have hend : ¬ LeftOpen y.trace := by
    rw [htrace]
    rcases he with rfl | rfl
    · exact fun hl => hl.1 (by simp)
    · exact fun hl => hl.2 (by simp)
  refine ⟨⟨h.ring, ?_, ?_, fun hl => absurd hl hend, fun hl => absurd hl hend⟩, hend⟩
  · rw [hphase]
    exact h.socket
  · rw [htrace]
    refine h.handed.concat fun hc => ?_
    rcases he with rfl | rfl <;> cases hc

theorem LocalInv.close (h : LocalInv codec other st₀ cap base [] x m) :
    LocalInv codec other st₀ cap base [] x.close m := by
  unfold Receiver.close
  split_ifs
  · exact (h.ended (y := { x.note .localClose with state := .closeing }) (Or.inl rfl) rfl rfl).1
  · exact h

/-- In `DrainRing` the connection is open, unless it was ended. -/
theorem LocalInv.isOpen {pkgs : List M} {viaSocket : Bool}
    (h : LocalInv codec other st₀ cap base pkgs x m) (hphase : x.phase = .draining viaSocket)
    (hl : LeftOpen x.trace) : .close ∉ x.trace ∧ x.state.IsOpen := by
  have hc : .close ∉ x.trace := fun hc => (h.gone hl hc).2 viaSocket hphase
  exact ⟨hc, (h.current hl hc).1⟩

theorem LocalInv.leave {ph : Phase} (h : LocalInv codec other st₀ cap base [] x m)
    (hph : ∀ viaSocket, ph ≠ .draining viaSocket) :
    LocalInv codec other st₀ cap base [] { x with phase := ph } m :=
  ⟨h.ring, fun hp => absurd hp (hph true), h.handed, h.current,
    fun h1 h2 => ⟨(h.gone h1 h2).1, hph⟩⟩

theorem LocalInv.drained {viaSocket failed : Bool} (h : LocalInv codec other st₀ cap base [] x m)
    (hphase : x.phase = .draining viaSocket) (hfail : failed = true → ¬ LeftOpen x.trace)
    (hall : viaSocket = true → LeftOpen x.trace →
      Handed codec other st₀ m.1.published (messages x.trace)) :
    LocalInv codec other st₀ cap base [] (x.drained viaSocket failed) m := by
  have hpoll : LocalInv codec other st₀ cap base [] { x with phase := .poll } m :=
    h.leave (by simp)
  unfold Receiver.drained
  split_ifs with hif
  · refine hpoll.remove fun hl => ⟨rfl, ?_⟩
    rcases hif with rfl | hf | hs
    · exact ⟨h.socket hphase, hall rfl hl⟩
    · exact absurd hl (hfail hf)
    · -- a connection that is closing was closed by the local side
      have hopen := (h.isOpen hphase hl).2
      rw [hs] at hopen
      rcases hopen with ho | ho <;> cases ho
  · exact hpoll

theorem LocalInv.afterTurn {viaSocket : Bool} {t : Turn M}
    (h : LocalInv codec other st₀ cap base t.pkgs x m) (hphase : x.phase = .draining viaSocket)
    (hall : t = .wait → viaSocket = true → LeftOpen x.trace →
      Handed codec other st₀ m.1.published (messages x.trace)) :
    LocalInv codec other st₀ cap base [] (x.afterTurn viaSocket t) m := by
  cases t with
  | fault => exact h.leave (by simp)
  | error =>
    obtain ⟨h', hend⟩ := h.ended (y := x.note .disconnect) (Or.inr rfl) rfl rfl
    exact h'.drained hphase (fun _ => hend) fun _ hl => absurd hl hend
  | wait => exact h.drained hphase (fun hf => by cases hf) (hall rfl)
  | heartbeat n => exact h
  | package n pkg =>
    show LocalInv codec other st₀ cap base [] (x.onMessage pkg) m
    unfold Receiver.onMessage
    split_ifs with hs
    · have hmsg : messages (x.trace ++ [.message pkg]) = messages x.trace ++ [pkg] := by
        simp [messages]
      have hmem : ∀ e : Event M, e ∈ x.trace → e ∈ (x.note (.message pkg)).trace :=
        fun e he => List.mem_append_left _ he
      have hopen : LeftOpen (x.note (.message pkg)).trace → LeftOpen x.trace :=
        fun hl => ⟨fun he => hl.1 (hmem _ he), fun he => hl.2 (hmem _ he)⟩
      refine ⟨h.ring, h.socket, h.handed.concat fun he => (by cases he), fun hl hc => ?_,
        fun hl hc => h.gone (hopen hl) ?_⟩
      · have hcur := h.current (hopen hl) fun he => hc (hmem _ he)
        refine ⟨hcur.1, ?_⟩
        show Decodes codec other st₀ m.1.published (messages (x.trace ++ [.message pkg]) ++ [])
          m.1.consumed x.inbox.codec
        rw [hmsg, List.append_nil]
        exact hcur.2
      · rcases List.mem_append.mp hc with he | he
        · exact he
        · simp at he
    · have hend : ¬ LeftOpen x.trace := fun hl => hs (h.isOpen hphase hl).2
      exact ⟨h.ring, h.socket, h.handed, fun hl => absurd hl hend, fun hl => absurd hl hend⟩

/-- The steps of the peer take nothing back. -/
theorem LocalInv.peerStep {pkgs : List M} (h : LocalInv codec other st₀ cap base pkgs x m)
    (hs : PeerStep cap base m m') : LocalInv codec other st₀ cap base pkgs x m' := by
  refine ⟨hs.1.inv h.ring, fun hp => (hs.ended (h.socket hp)).1, h.handed.mono hs.ended,
    fun hl hc => ?_, h.gone⟩
  obtain ⟨h1, h2⟩ := h.current hl hc
  rw [hs.1.consumed]
  exact ⟨h1, h2.mono hs.1.published⟩

/-- The last look at the ring sees all there is. -/
theorem turn_keeps {viaSocket : Bool} (h : LocalInv codec other st₀ cap base [] x m)
    (hphase : x.phase = .draining viaSocket) :
    Prog.wp (Link.exec cap) (PeerStep cap base) LocalStep
      (Prog.lift do
        let (t, c) ← drainTurn codec cap x.inbox
        return { x with inbox := c }.afterTurn viaSocket t)
      (LocalInv codec other st₀ cap base []) m := by
  have hring : wpR cap base (do
      let (t, c) ← drainTurn codec cap x.inbox
      return { x with inbox := c }.afterTurn viaSocket t)
      (fun y g => ∀ m' : Link, m'.1 = g → Ended m m' →
        LocalInv codec other st₀ cap base [] y m') m.1 := by
    rw [wpR, Prog.wp_bind]
    refine drainTurn_spec h.ring fun n g' staging t st hn hn' _ hon ht => ?_
    rintro m' rfl hm
    have hturned : LocalInv codec other st₀ cap base t.pkgs
        { x with inbox := ⟨st, staging⟩ } m' := by
      refine ⟨ht.inv, fun hp => (hm (h.socket hp)).1, h.handed.mono hm, fun hl hc => ?_, h.gone⟩
      obtain ⟨h1, h2⟩ := h.current hl hc
      rw [List.append_nil] at h2
      refine ⟨h1, ?_⟩
      rw [ht.consumed]
      exact .turn (h2.mono ht.published) hn' hon
    refine hturned.afterTurn hphase fun hwait hvia hl => ?_
    subst hwait hvia
    have hcur := (h.current hl (h.isOpen hphase hl).1).2
    have hp := (hm (h.socket hphase)).2
    rw [List.append_nil] at hcur
    rw [hp, List.take_of_length_le hn] at hon
    rw [hp]
    exact ⟨m.1.consumed, x.inbox.codec, st, hcur, hon⟩
  exact wp_local hring fun _ m' hm hq => hq m' rfl hm

/-- A handler finds the connection and goes on to `DrainRing`. -/
theorem LocalInv.enter {ph : Phase} (h : LocalInv codec other st₀ cap base [] x m)
    (hhas : x.owner.has = true) (hsock : ph = .draining true → m.2 = true) :
    LocalInv codec other st₀ cap base [] { x with phase := ph } m := by
  refine ⟨h.ring, hsock, h.handed, h.current, fun hl hc => ?_⟩
  rw [(h.gone hl hc).1] at hhas
  cases hhas

theorem local_contract (codec : Codec σ M) (other : σ → σ → Prop) (st₀ : σ) (cap : Capacity)
    (base : ℕ) :
    Contract (Link.exec cap) (PeerStep cap base) LocalStep (LocalCall codec other cap)
      (LocalInv codec other st₀ cap base [])
      (fun x m => AllHanded codec other st₀ m x.trace) where
  call {x m p} h hc := by
    cases hc with
    | onNotify hp =>
      intro m' hr
      have hg : RStep m'.1 (m'.1.after cap .drainNotify) := rStep_drainNotify
      have h' : LocalInv codec other st₀ cap base [] x (m'.1.after cap .drainNotify, m'.2) := by
        have h₁ := h.peerStep hr
        exact ⟨hg.inv h₁.ring, h₁.socket, h₁.handed.mono fun hm => ⟨hm, rfl⟩, h₁.current, h₁.gone⟩
      refine ⟨⟨hg, rfl⟩, ?_⟩
      show LocalInv codec other st₀ cap base [] (if x.owner.has = true then _ else _) _
      split_ifs with hhas
      · exact h'.enter hhas fun hp => by cases hp
      · exact h'
    | onSocket n hp hread =>
      show LocalInv codec other st₀ cap base [] (if x.owner.has = true ∧ n ≤ 0 then _ else _) m
      split_ifs with hif
      · exact h.enter hif.1 fun _ => hread hif.2
      · exact h
    | turn hp => exact turn_keeps h hp
    | throws hp => exact h.leave (by simp)
    | close => exact h.close
    | onVerify succ =>
      show LocalInv codec other st₀ cap base [] (x.onVerify succ) m
      unfold Receiver.onVerify
      split_ifs
      · exact ⟨h.ring, h.socket, h.handed, fun hl hc => ⟨Or.inl rfl, (h.current hl hc).2⟩, h.gone⟩
      · exact h.close
    | remove hhas =>
      obtain ⟨h', hend⟩ := h.ended (y := x.note .localClose) (Or.inl rfl) rfl rfl
      exact h'.remove fun hl => absurd hl hend
    | codec ho =>
      exact ⟨h.ring, h.socket, h.handed,
        fun hl hc => ⟨(h.current hl hc).1, .other (h.current hl hc).2 ho⟩, h.gone⟩
  stable h hr := h.peerStep hr
  weak h := h.handed
  keepRely h hr := h.mono hr.ended
  keepGuar h hg := h.mono hg.ended

end Handlers

/-! ### `ShmClient::ReadMessage` -/

/-- What a call returns: bytes, `0`, or `-1` or `-2`. -/
inductive Result : Type
  | bytes (l : List UInt8)
  | zero
  | failed
  deriving DecidableEq, Repr

/-- The client between two steps: where it is, whether it has a socket, and what its calls have
returned. -/
structure Reader where
  phase : ReadPhase
  socket : Bool
  results : List Result
  deriving DecidableEq, Repr

/-- The call returns. -/
def Reader.returns (x : Reader) (r : Result) : Reader :=
  { x with phase := .app, results := x.results ++ [r] }

/-- The steps of a client that calls `ReadMessage` with buffers of `1` to `2^32 - 1` bytes. -/
inductive ReadStep (cap : Capacity) : Reader → Link → LinkM Reader → Prop
  | readMessage {x : Reader} {m : Link} {bsize : ℕ} (h : x.phase = .app) (closed : Bool)
      (hpos : 0 < bsize) (hlt : bsize < 4294967296) :
      ReadStep cap x m
        (return if x.socket = true ∧ closed = false then { x with phase := .top bsize }
          else x.returns .failed)
  /-- `closed_` is set -/
  | closed {x : Reader} {m : Link} {bsize : ℕ} (h : x.phase = .top bsize) :
      ReadStep cap x m (return x.returns .failed)
  | tryRead {x : Reader} {m : Link} {bsize : ℕ} (h : x.phase = .top bsize) :
      ReadStep cap x m (Prog.lift do
        let out ← tryRead cap (UInt32.ofNat bsize)
        return if 0 < out.length then x.returns (.bytes out)
          else { x with phase := .polling bsize })
  /-- a time-out, an error of `poll`, or `closed_` -/
  | giveUp {x : Reader} {m : Link} {bsize : ℕ} (h : x.phase = .polling bsize) :
      ReadStep cap x m (return x.returns .failed)
  /-- `EINTR`, or a byte on the socket -/
  | again {x : Reader} {m : Link} {bsize : ℕ} (h : x.phase = .polling bsize) :
      ReadStep cap x m (return { x with phase := .top bsize })
  /-- `read` on the socket is not positive -/
  | peerClosed {x : Reader} {m : Link} {bsize : ℕ} (h : x.phase = .polling bsize)
      (hread : m.2 = true) :
      ReadStep cap x m (Prog.lift do
        let out ← tryRead cap (UInt32.ofNat bsize)
        return if 0 < out.length then x.returns (.bytes out)
          else { x.returns .zero with socket := false })
  | notified {x : Reader} {m : Link} {bsize : ℕ} (h : x.phase = .polling bsize) :
      ReadStep cap x m (Prog.lift do
        let _ ← drainNotify
        return { x with phase := .top bsize })

/-- The bytes of the results. -/
def returned (rs : List Result) : List UInt8 :=
  rs.flatMap fun
    | .bytes l => l
    | _ => []

/-- Before a call returns `0` the peer has closed its socket and all its bytes were returned. -/
def AllReturned (m : Link) (rs : List Result) : Prop :=
  AtEach .zero (fun pre => m.2 = true ∧ returned pre = m.1.published) rs

section ReadMessage

variable {x : Reader} {m m' : Link} {bsize : ℕ}

theorem AllReturned.mono {rs : List Result} (h : AllReturned m rs) (hm : Ended m m') :
    AllReturned m' rs := by
  refine AtEach.mono h fun pre hpre => ?_
  obtain ⟨h1, h2⟩ := hpre
  obtain ⟨h3, h4⟩ := hm h1
  exact ⟨h3, by rw [h4, h2]⟩

/-- Between two steps: what was released was returned. -/
structure ReadInv (cap : Capacity) (base : ℕ) (x : Reader) (m : Link) : Prop where
  ring : Inv cap base m.1
  size : ∀ bsize, x.phase = .top bsize ∨ x.phase = .polling bsize →
    0 < bsize ∧ bsize < 4294967296
  got : returned x.results = m.1.published.take m.1.consumed
  all : AllReturned m x.results

/-- The client goes on with another part of the loop. -/
theorem ReadInv.top (h : ReadInv cap base x m) (hsize : 0 < bsize ∧ bsize < 4294967296) :
    ReadInv cap base { x with phase := .top bsize } m := by
  refine ⟨h.ring, fun b hp => ?_, h.got, h.all⟩
  rcases hp with hp | hp <;> cases hp
  exact hsize

/-- A call returns something other than `0`. -/
theorem readInv_returns {r : Result} (hi : Inv cap base m.1)
    (hgot : returned (x.results ++ [r]) = m.1.published.take m.1.consumed)
    (hall : AllReturned m (x.results ++ [r])) : ReadInv cap base (x.returns r) m := by
  refine ⟨hi, fun b hp => ?_, hgot, hall⟩
  rcases hp with hp | hp <;> cases hp

theorem ReadInv.fails (h : ReadInv cap base x m) : ReadInv cap base (x.returns .failed) m := by
  refine readInv_returns h.ring ?_ (h.all.concat fun hr => by cases hr)
  rw [← h.got]
  simp [returned]

theorem ReadInv.peerStep (h : ReadInv cap base x m) (hs : PeerStep cap base m m') :
    ReadInv cap base x m' := by
  refine ⟨hs.1.inv h.ring, h.size, ?_, h.all.mono hs.ended⟩
  rw [h.got, hs.1.consumed, take_mono hs.1.published h.ring.le]

/-- `TryRead` takes the next bytes; if there are none, the client has them all. -/
theorem wp_tryRead {f : List UInt8 → Reader} {Q : Reader → Link → Prop}
    (h : ReadInv cap base x m) (hpos : 0 < bsize) (hlt : bsize < 4294967296)
    (hQ : ∀ out m', Inv cap base m'.1 → Ended m m' →
      returned x.results ++ out = m'.1.published.take m'.1.consumed →
      (out = [] → m.1.published.length ≤ m'.1.consumed) → Q (f out) m') :
    Prog.wp (Link.exec cap) (PeerStep cap base) LocalStep
      (Prog.lift do
        let out ← tryRead cap (UInt32.ofNat bsize)
        return f out) Q m := by
  have hring : wpR cap base (do
      let out ← tryRead cap (UInt32.ofNat bsize)
      return f out)
      (fun y g => ∃ out, y = f out ∧ Inv cap base g ∧
        returned x.results ++ out = g.published.take g.consumed ∧
        (out = [] → m.1.published.length ≤ g.consumed)) m.1 := by
    rw [wpR, Prog.wp_bind]
    refine tryRead_spec h.ring fun k n g' hk hk' hn ht => ⟨_, rfl, ht.inv, ?_, fun hout => ?_⟩
    · rw [h.got, ht.consumed, List.take_add, take_mono ht.published h.ring.le]
    · have hmax : (UInt32.ofNat bsize).toNat = bsize := by
        rw [UInt32.toNat_ofNat', Nat.mod_eq_of_lt hlt]
      have hlen := congrArg List.length hout
      rw [List.length_take, List.length_drop, List.length_nil] at hlen
      rw [hmax] at hn
      have hle := ht.inv.le
      have hc := ht.consumed
      omega
  refine wp_local hring fun y m' hm hq => ?_
  obtain ⟨out, rfl, hi, hgot, hnil⟩ := hq
  exact hQ out m' hi hm hgot hnil

theorem read_contract (cap : Capacity) (base : ℕ) :
    Contract (Link.exec cap) (PeerStep cap base) LocalStep (ReadStep cap) (ReadInv cap base)
      (fun x m => AllReturned m x.results) where
  call {x m p} h hc := by
    have hbytes : ∀ out m', Inv cap base m'.1 → Ended m m' →
        returned x.results ++ out = m'.1.published.take m'.1.consumed →
        ReadInv cap base (x.returns (.bytes out)) m' := by
      intro out m' hi hm hgot
      refine readInv_returns hi ?_ ((h.all.mono hm).concat fun hr => by cases hr)
      rw [← hgot]
      simp [returned]
    cases hc with
    | readMessage hp closed hpos hlt =>
      show ReadInv cap base (if x.socket = true ∧ closed = false then _ else _) m
      split_ifs
      · exact h.top ⟨hpos, hlt⟩
      · exact h.fails
    | closed hp => exact h.fails
    | @tryRead bsize hp =>
      obtain ⟨hpos, hlt⟩ := h.size bsize (Or.inl hp)
      refine wp_tryRead h hpos hlt fun out m' hi hm hgot hnil => ?_
      split_ifs with hout
      · exact hbytes out m' hi hm hgot
      · rw [List.length_pos_iff, not_not] at hout
        rw [hout, List.append_nil] at hgot
        refine ⟨hi, fun b hb => ?_, hgot, h.all.mono hm⟩
        rcases hb with hb | hb <;> cases hb
        exact ⟨hpos, hlt⟩
    | giveUp hp => exact h.fails
    | again hp => exact h.top (h.size _ (Or.inr hp))
    | @peerClosed bsize hp hread =>
      obtain ⟨hpos, hlt⟩ := h.size bsize (Or.inr hp)
      refine wp_tryRead h hpos hlt fun out m' hi hm hgot hnil => ?_
      split_ifs with hout
      · exact hbytes out m' hi hm hgot
      · rw [List.length_pos_iff, not_not] at hout
        rw [hout, List.append_nil] at hgot
        obtain ⟨hsock, hpub⟩ := hm hread
        have hzero : returned (x.results ++ [.zero]) = returned x.results := by simp [returned]
        have hlast := readInv_returns (x := x) hi (hzero.trans hgot)
          ((h.all.mono hm).concat fun _ => ⟨hsock, ?_⟩)
        · exact ⟨hlast.ring, hlast.size, hlast.got, hlast.all⟩
        · -- nothing was left, and nothing came since
          have hle := hnil hout
          rw [hgot, List.take_of_length_le (by rw [hpub]; exact hle)]
    | notified hp =>
      intro m' hr
      have hg : RStep m'.1 (m'.1.after cap .drainNotify) := rStep_drainNotify
      have h' : ReadInv cap base x (m'.1.after cap .drainNotify, m'.2) := by
        have h₁ := h.peerStep hr
        exact ⟨hg.inv h₁.ring, h₁.size, h₁.got, h₁.all.mono fun hm => ⟨hm, rfl⟩⟩
      exact ⟨⟨hg, rfl⟩, h'.top (h.size _ (Or.inr hp))⟩
  stable h hr := h.peerStep hr
  weak h := h.all
  keepRely h hr := h.mono hr.ended
  keepGuar h hg := h.mono hg.ended

end ReadMessage

/-! ### Nothing is lost -/

/-- A channel that has just been set up, and its two sides. -/
def start {L : Type} (l : L) (base : ℕ) (d : ℕ → UInt8) :
    Duo (Cmd ⊕ SockCmd) (Sum.elim Cmd.Res fun _ => Unit) (Option ChannelBatchWriter) L Link where
  fst := .idle none
  snd := .idle l
  mem := (.empty base d, false)

/-- Whatever the codec, on a server or a client: when the close callback runs, and neither the local
side has closed the connection nor the codec has asked for it, the peer has closed its socket and
the message callback has got every package of what the peer published. For a codec that frames the
stream these are its complete packets. -/
def HandlersDeliver (cap : Capacity) : Prop :=
  ∀ (σ M : Type) (codec : Codec σ M) (other : σ → σ → Prop) (inbox : Inbox σ)
    (state : TcpConnStates) (owner : Owner) (base : ℕ) (d : ℕ → UInt8) s,
    state.IsOpen →
    ReflTransGen (Step (Link.exec cap) (PeerCall cap) (LocalCall codec other cap))
      (start ⟨inbox, state, owner, .poll, []⟩ base d) s →
    ∀ pre post, s.snd.loc.trace = pre ++ .close :: post → LeftOpen pre →
      s.mem.2 = true ∧ Handed codec other inbox.codec s.mem.1.published (messages pre) ∧
      ∀ next, Frames codec next → Complete next s.mem.1.published (messages pre)

/-- When `ReadMessage` returns `0` the peer has closed its socket, and the calls before have
returned all that it published, in order. -/
def ReadMessageReturnsAll (cap : Capacity) : Prop :=
  ∀ (base : ℕ) (d : ℕ → UInt8) s,
    ReflTransGen (Step (Link.exec cap) (PeerCall cap) (ReadStep cap))
      (start ⟨.app, true, []⟩ base d) s →
    ∀ pre post, s.snd.loc.results = pre ++ .zero :: post →
      s.mem.2 = true ∧ returned pre = s.mem.1.published

theorem peerInv_empty (cap : Capacity) (base : ℕ) (d : ℕ → UInt8) :
    PeerInv cap base False none (.empty base d) :=
  peerInv_none (inv_empty cap base d) False.elim

theorem localInv_start (codec : Codec σ M) (other : σ → σ → Prop) (inbox : Inbox σ)
    {state : TcpConnStates} (hs : state.IsOpen) (owner : Owner) (base : ℕ) (d : ℕ → UInt8) :
    LocalInv codec other inbox.codec cap base []
      ⟨inbox, state, owner, .poll, []⟩ (.empty base d, false) where
  ring := inv_empty cap base d
  socket hp := by cases hp
  handed := atEach_nil _ _
  current _ _ := ⟨hs, .nil⟩
  gone _ hc := absurd hc List.not_mem_nil

theorem readInv_start (base : ℕ) (d : ℕ → UInt8) :
    ReadInv cap base ⟨.app, true, []⟩ (.empty base d, false) where
  ring := inv_empty cap base d
  size b hp := by rcases hp with hp | hp <;> cases hp
  got := rfl
  all := atEach_nil _ _

/-- **Nothing published before a disconnect is lost**, in any interleaving of the peer with the
event handlers of a connection or with `ReadMessage`. -/
theorem nothing_lost (cap : Capacity) : HandlersDeliver cap ∧ ReadMessageReturnsAll cap := by
  constructor
  · intro σ M codec other inbox state owner base d s hstate h pre post hsplit hopen
    obtain ⟨-, h2⟩ := duo_ok peerStep_refl localStep_refl (fun _ _ _ => PeerStep.trans)
      (fun _ _ _ => LocalStep.trans) (peer_contract cap base)
      (local_contract codec other inbox.codec cap base)
      (s := start ⟨inbox, state, owner, .poll, []⟩ base d)
      ⟨peerInv_empty cap base d, localInv_start codec other inbox hstate owner base d⟩ h
    obtain ⟨hsock, hall⟩ :=
      threadOk_loc (local_contract codec other inbox.codec cap base) h2 pre post hsplit hopen
    exact ⟨hsock, hall, fun next hf => hall.complete hf⟩
  · intro base d s h pre post hsplit
    obtain ⟨-, h2⟩ := duo_ok peerStep_refl localStep_refl (fun _ _ _ => PeerStep.trans)
      (fun _ _ _ => LocalStep.trans) (peer_contract cap base) (read_contract cap base)
      (s := start ⟨.app, true, []⟩ base d) ⟨peerInv_empty cap base d, readInv_start base d⟩ h
    exact threadOk_loc (read_contract cap base) h2 pre post hsplit

/-! ### The end before the bytes -/

/-- A codec for which all that is there is a package. -/
def rawCodec : Codec Unit (List UInt8) where
  encode _ _ _ := none
  decode _ buf := some (⟨Int32.ofNat buf.length, buf, 0⟩, ())

/-- A program on the ring, run in one go. -/
theorem link_run {α : Type} (p : RingM α) (m : Link) :
    p.lift.run (Link.exec cap) m =
      ((p.run (World.exec cap) m.1).1, (p.run (World.exec cap) m.1).2, m.2) :=
  Prog.run_lift (World.exec cap) _ p m

/-- A turn of `DrainRing` after the peer has closed its socket. -/
theorem turn_run (codec : Codec Unit M) {x : Receiver Unit M} {g : World} (hi : Inv cap base g)
    (hx : x.phase = .draining true) : ∃ g' t c, Inv cap base g' ∧
      g'.published = g.published ∧ g'.consumed = g.consumed + t.released ∧
      turnOn codec () (g.published.drop g.consumed) = (t, ()) ∧
      ReflTransGen (Step (Link.exec cap) (PeerCall cap) (LocalCall codec (fun _ _ => False) cap))
        ⟨.idle none, .idle x, (g, true)⟩
        ⟨.idle none, .idle ({ x with inbox := c }.afterTurn true t), (g', true)⟩ := by
  rcases hd : (drainTurn codec cap x.inbox).run (World.exec cap) g with ⟨⟨t, c⟩, g'⟩
  obtain ⟨hi', hp', hc', hon⟩ := drainTurn_run hi hd
  refine ⟨g', t, c, hi', hp', hc', hon, (call_run₂ (.turn hx)).trans ?_⟩
  rw [link_run, Prog.run_bind, hd]
  exact .refl

/-- A server whose peer sends a byte and closes its socket, and which sees the socket first. -/
theorem reach_closed (cap : Capacity) : ∃ s,
    ReflTransGen (Step (Link.exec cap) (PeerCall cap) (LocalCall rawCodec (fun _ _ => False) cap))
      (start ⟨⟨(), []⟩, .established, .server true, .poll, []⟩ 0 fun _ => 0) s ∧
    s.snd.loc.trace = [.message [1], .close] ∧ s.mem.1.published = [1] := by
  obtain ⟨rc, g₁, hrun, hi₁, hp₁, hc₁, -⟩ := sendMessage_one_run cap 0 fun _ => 0
  have hsend : ReflTransGen
      (Step (Link.exec cap) (PeerCall cap) (LocalCall rawCodec (fun _ _ => False) cap))
      (start ⟨⟨(), []⟩, .established, .server true, .poll, []⟩ 0 fun _ => 0)
      ⟨.idle none, .idle ⟨⟨(), []⟩, .established, .server true, .poll, []⟩, (g₁, false)⟩ := by
    refine (call_run₁ (.op (.sendMessage true (some [1]) 1) rfl)).trans ?_
    rw [link_run, Prog.run_bind]
    simp only [hrun]
    exact .refl
  have hclose := hsend.trans (call_run₁ .close)
  have hsocket := hclose.trans (call_run₂ (.onSocket 0 rfl fun _ => rfl))
  obtain ⟨g₂, t₂, c₂, hi₂, hp₂, hc₂, hon₂, hturn₂⟩ := turn_run rawCodec
    (x := ⟨⟨(), []⟩, .established, .server true, .draining true, []⟩) hi₁ rfl
  rw [hp₁, hc₁] at hon₂
  have ht₂ : t₂ = .package 1 [1] := (congrArg Prod.fst hon₂).symm
  subst ht₂
  obtain ⟨g₃, t₃, c₃, hi₃, hp₃, hc₃, hon₃, hturn₃⟩ := turn_run rawCodec
    (x := ⟨c₂, .established, .server true, .draining true, [.message [1]]⟩) hi₂ rfl
  have hrest : g₂.published.drop g₂.consumed = [] := by
    rw [hp₂, hp₁, hc₂, hc₁]
    rfl
  rw [hrest] at hon₃
  have ht₃ : t₃ = .wait := (congrArg Prod.fst hon₃).symm
  subst ht₃
  exact ⟨_, (hsocket.trans hturn₂).trans hturn₃, rfl, by rw [hp₃, hp₂, hp₁]⟩

/-- The byte was handed over before the close callback. -/
theorem nothing_lost_socket_first : ∃ s : Duo (Cmd ⊕ SockCmd) (Sum.elim Cmd.Res fun _ => Unit)
      (Option ChannelBatchWriter) (Receiver Unit (List UInt8)) Link,
    s.snd.loc.trace = [.message [1], .close] ∧ s.mem.2 = true ∧
    Handed rawCodec (fun _ _ => False) () s.mem.1.published [[1]] := by
  obtain ⟨s, hreach, htrace, -⟩ := reach_closed defaultCapacity
  obtain ⟨hsock, hall, -⟩ := (nothing_lost defaultCapacity).1 _ _ _ _ _ _ _ _ _ s (Or.inl rfl)
    hreach [.message [1]] [] htrace ⟨by simp, by simp⟩
  exact ⟨s, htrace, hsock, hall⟩

end ShmIpc.Conn.Disconnect
