import ShmIpc.Conn.EventLoop
import Mathlib.Data.List.Perm.Basic
import Mathlib.Logic.Relation

/-! # The server of the demo: `server.cpp`

The callbacks of the server over the event loop of `EventLoop` and the table of clients. An entry of
the loop has a number; `bound` says what `std::bind` put behind it. The kernel's part is the list of
open descriptors: a call that makes one gets a number that is free at that time, so the number of a
closed descriptor comes back in any order, and `badClose` is set by a `close` of a number that is
not open. What the outside decides in a callback are its `Answers`.

`InStep` says that the three accounts of the clients (the entries of the loop, its timers and the
open descriptors) are those of the table; every callback keeps it, in the middle of a round too. -/

namespace ShmIpc.App.Server

open Relation List
open ShmIpc.Conn.EventLoop

/-! ### The state -/

/-- `kMaxTicks`. -/
def kMaxTicks : ℕ := 40

/-- `kMaxClients`. -/
def kMaxClients : ℕ := 16

/-- `POLLIN`. -/
def POLLIN : BitVec 16 := 1

/-- `POLLERR`. -/
def POLLERR : BitVec 16 := 8

/-- `POLLHUP`. -/
def POLLHUP : BitVec 16 := 16

/-- The callback of an entry, with the `client_fd` that is bound. -/
inductive Handler : Type
  | onAccept
  | onHeartbeatTimer (clientFd : ℤ)
  | onClientNotify (clientFd : ℤ)
  | onClientSocket (clientFd : ℤ)
  deriving DecidableEq, Repr

/-- The descriptors of a `RingChannel`. -/
structure Channel where
  writeMemfd : ℤ
  readMemfd : ℤ
  notifyWriteEfd : ℤ
  notifyReadEfd : ℤ
  deriving DecidableEq, Repr

/-- `ClientState`, without the codec. -/
structure ClientState where
  id : ℕ
  socketFd : ℤ
  channel : Channel
  timerFd : ℤ
  notifyEfd : ℤ
  tick : ℕ
  totalRead : ℕ
  deriving DecidableEq, Repr

/-- The locals of `main` and the descriptors of the process. `lost` are those that failed handshakes
left open, `beats` the heartbeats that were passed to `Send`: the client's number and the `seq`. -/
structure Proc where
  loop : Loop
  bound : ℕ → Handler
  clients : List (ℤ × ClientState)
  nextClientId : ℕ
  openFds : List ℤ
  lost : List ℤ
  badClose : Bool
  beats : List (ℕ × ℕ)

/-- What `CreateRingChannel` does: it throws, with some descriptors left open, or returns. -/
inductive Handshake : Type
  | failed (left : List ℤ)
  | done (ch : Channel)
  deriving DecidableEq, Repr

/-- What the outside decides in a callback: the result of `accept`, the handshake, the result of
`timerfd_create`, what `DrainClientRing` reads before the ring is empty or, with `illegal`, before
`Recv` returns `-3`, and whether the byte on the socket is a `0` or missing. -/
structure Answers where
  accepted : ℤ
  handshake : Handshake
  timer : ℤ
  messages : ℕ
  illegal : Bool
  farewell : Bool

namespace Proc

/-! ### The kernel -/

/-- A call returns the new descriptor `fd`; `none` if the number is not free. -/
def alloc (s : Proc) (fd : ℤ) : Option Proc :=
  if 0 ≤ fd ∧ fd ∉ s.openFds then some { s with openFds := fd :: s.openFds } else none

/-- Several calls. -/
def allocAll : Proc → List ℤ → Option Proc
  | s, [] => some s
  | s, fd :: fds => (s.alloc fd).bind fun s => s.allocAll fds

/-- `close`. -/
def close (s : Proc) (fd : ℤ) : Proc :=
  if fd ∈ s.openFds then { s with openFds := s.openFds.erase fd } else { s with badClose := true }

/-- The destructor of a `UniqueFd`. -/
def reset (s : Proc) (fd : ℤ) : Proc := if 0 ≤ fd then s.close fd else s

/-! ### The loop -/

/-- `AddFd`. -/
def addFd (s : Proc) (fd : ℤ) (h : Handler) : Proc :=
  { s with
    loop := s.loop.addFd fd .app Loop.pollin
    bound := fun i => if i = s.loop.nextId then h else s.bound i }

/-- `RemoveFd`. -/
def removeFd (s : Proc) (fd : ℤ) : Proc := { s with loop := s.loop.removeFd fd }

/-- `AddTimer`; `none` if `CreateTimerfd` throws. -/
def addTimer (s : Proc) (tfd : ℤ) (h : Handler) : Option Proc :=
  (s.alloc tfd).map fun s =>
    { s with
      loop := s.loop.addTimer tfd .app
      bound := fun i => if i = s.loop.nextId then h else s.bound i }

/-- `RemoveTimer`: the entry of `owned_timerfds_` that is erased closes its descriptor. -/
def removeTimer (s : Proc) (tfd : ℤ) : Proc :=
  let s' := { s with loop := s.loop.removeTimer tfd }
  if tfd ∈ s.loop.ownedTimerfds then s'.reset tfd else s'

/-! ### The table -/

/-- `clients.find`. -/
def find (s : Proc) (fd : ℤ) : Option ClientState :=
  (s.clients.find? fun c => c.1 = fd).map Prod.snd

/-- The descriptors that the destructor of a `ClientState` closes, the last member first. -/
def held (cs : ClientState) : List ℤ :=
  [cs.channel.notifyReadEfd, cs.channel.notifyWriteEfd, cs.channel.readMemfd,
    cs.channel.writeMemfd, cs.socketFd]

/-- The destructor of a `ClientState`. -/
def destroy (s : Proc) (cs : ClientState) : Proc := (held cs).foldl reset s

/-- `clients.erase`. -/
def erase (s : Proc) (fd : ℤ) : Proc :=
  ((s.clients.filter fun c => c.1 = fd).foldl (fun s c => s.destroy c.2)
    { s with clients := s.clients.filter fun c => ¬ c.1 = fd })

/-- `clients[fd] = std::move(cs)`. -/
def assign (s : Proc) (fd : ℤ) (cs : ClientState) : Proc :=
  let s := s.erase fd
  { s with clients := (fd, cs) :: s.clients }

/-- A change of the state of the client at `fd`. -/
def modify (s : Proc) (fd : ℤ) (f : ClientState → ClientState) : Proc :=
  { s with clients := s.clients.map fun c => if c.1 = fd then (c.1, f c.2) else c }

/-! ### The callbacks -/

/-- `RemoveClient`. -/
def removeClient (s : Proc) (clientFd : ℤ) (csp : ClientState) : Proc :=
  let s := s.removeTimer csp.timerFd
  let s := s.removeFd csp.notifyEfd
  let s := s.removeFd clientFd
  s.erase clientFd

/-- `DrainClientRing`. -/
def drainClientRing (s : Proc) (clientFd : ℤ) (a : Answers) : Proc :=
  s.modify clientFd fun cs => { cs with totalRead := cs.totalRead + a.messages }

/-- `OnHeartbeatTimer`. -/
def onHeartbeatTimer (s : Proc) (clientFd : ℤ) : Proc :=
  match s.find clientFd with
  | none => s
  | some csp =>
    let s := s.modify clientFd fun cs => { cs with tick := cs.tick + 1 }
    if kMaxTicks < csp.tick + 1 then s.removeClient clientFd csp
    else { s with beats := s.beats ++ [(csp.id, csp.tick + 1)] }

/-- `OnClientNotify`. -/
def onClientNotify (s : Proc) (clientFd : ℤ) (a : Answers) : Proc :=
  match s.find clientFd with
  | none => s
  | some csp =>
    let s := s.drainClientRing clientFd a
    if a.illegal then s.removeClient clientFd csp else s

/-- `OnClientSocket`. -/
def onClientSocket (s : Proc) (revents : BitVec 16) (clientFd : ℤ) (a : Answers) : Proc :=
  match s.find clientFd with
  | none => s
  | some csp =>
    if revents &&& (POLLHUP ||| POLLERR) ≠ 0 then s.removeClient clientFd csp
    else if revents &&& POLLIN ≠ 0 then
      if a.farewell then (s.drainClientRing clientFd a).removeClient clientFd csp else s
    else s

/-- `CreateRingChannel` on a new connection; `none` if it throws. -/
def createRingChannel (s : Proc) : Handshake → Option Channel × Proc
  | .failed left =>
    match s.allocAll left with
    | none => (none, s)
    | some s' => (none, { s' with lost := left ++ s'.lost })
  | .done ch =>
    match s.allocAll [ch.writeMemfd, ch.readMemfd, ch.notifyWriteEfd, ch.notifyReadEfd] with
    | none => (none, s)
    | some s' => (some ch, s')

/-- The `catch` of the registrations in `OnAccept`, with the destructor of `cs`. -/
def setupFailed (s : Proc) (clientFd : ℤ) (cs : ClientState) : Proc :=
  let s := if 0 ≤ cs.timerFd then s.removeTimer cs.timerFd else s
  let s := s.removeFd cs.notifyEfd
  let s := s.removeFd clientFd
  s.destroy cs

/-- `OnAccept` once there is a connection. -/
def enrol (s : Proc) (cfd : ℤ) (a : Answers) : Proc :=
  let cid := s.nextClientId
  match { s with nextClientId := cid + 1 }.createRingChannel a.handshake with
  | (none, s) => s.reset cfd
  | (some ch, s) =>
    let cs : ClientState := ⟨cid, cfd, ch, -1, ch.notifyReadEfd, 0, 0⟩
    match s.addTimer a.timer (.onHeartbeatTimer cfd) with
    | none => s.setupFailed cfd cs
    | some s =>
      let s := s.addFd cs.notifyEfd (.onClientNotify cfd)
      let s := s.addFd cfd (.onClientSocket cfd)
      s.assign cfd { cs with timerFd := a.timer }

/-- `OnAccept`. -/
def onAccept (s : Proc) (a : Answers) : Proc :=
  match s.alloc a.accepted with
  | none => s
  | some s' =>
    -- a connection over the limit is accepted and dropped
    if kMaxClients ≤ s.clients.length then s'.reset a.accepted else s'.enrol a.accepted a

/-- The callback `h`. -/
def call (s : Proc) (revents : BitVec 16) (a : Answers) : Handler → Proc
  | .onAccept => s.onAccept a
  | .onHeartbeatTimer clientFd => s.onHeartbeatTimer clientFd
  | .onClientNotify clientFd => s.onClientNotify clientFd a
  | .onClientSocket clientFd => s.onClientSocket revents clientFd a

/-- The end of `main`: `clients.clear()`, and the destructors of `listen_fd` and `loop`. -/
def shutdown (s : Proc) (listenFd : ℤ) : Proc :=
  let s := s.clients.foldl (fun s c => s.destroy c.2) { s with clients := [] }
  let s := s.reset listenFd
  s.loop.ownedTimerfds.foldl reset { s with loop := { s.loop with ownedTimerfds := [] } }

end Proc

/-! ### `main` -/

/-- Where `Run` is. -/
inductive Phase : Type
  | top
  /-- the rest of the poll array: the index of the entry and the `revents` -/
  | dispatching (todo : List (ℕ × BitVec 16))
  /-- `Run` has returned or thrown -/
  | left
  deriving DecidableEq, Repr

/-- The process. -/
structure Main where
  proc : Proc
  phase : Phase

/-- `Run` has been called, with the listening socket registered. -/
def start (listenFd : ℤ) : Main where
  proc := Proc.addFd
    { loop := { Loop.empty with running := true }, bound := fun _ => .onAccept, clients := [],
      nextClientId := 1, openFds := [listenFd], lost := [], badClose := false, beats := [] }
    listenFd .onAccept
  phase := .top

/-- The loop visits an entry: `e.cb(pfds[i].fd, pfds[i].revents)` unless it is dead. -/
def visit (s : Proc) (k : ℕ) (revents : BitVec 16) (a : Answers) : Proc :=
  match s.loop.entries[k]? with
  | none => s
  | some e => if e.dead = false ∧ revents ≠ 0 then s.call revents a (s.bound e.id) else s

/-- `Run`, one entry at a time; a signal may set `running_` at any time. -/
inductive Step : Main → Main → Prop
  | poll {s : Proc} (revents : ℕ → BitVec 16) (h : s.loop.running = true) :
      Step ⟨s, .top⟩ ⟨s, .dispatching ((Loop.build s.loop.entries).zipIdx.map fun p =>
        (p.1, revents p.2))⟩
  | visit {s : Proc} {k : ℕ} {revents : BitVec 16} {todo : List (ℕ × BitVec 16)} (a : Answers)
      (h : s.loop.running = true) :
      Step ⟨s, .dispatching ((k, revents) :: todo)⟩ ⟨visit s k revents a, .dispatching todo⟩
  | compact {s : Proc} {todo : List (ℕ × BitVec 16)} (h : todo = [] ∨ s.loop.running = false) :
      Step ⟨s, .dispatching todo⟩ ⟨{ s with loop := s.loop.compactDead }, .top⟩
  | signal {s : Proc} {p : Phase} : Step ⟨s, p⟩ ⟨{ s with loop := s.loop.stop }, p⟩
  | leave {s : Proc} (h : s.loop.running = false) : Step ⟨s, .top⟩ ⟨s, .left⟩
  /-- an error of `poll` other than `EINTR` -/
  | throw {s : Proc} (h : s.loop.running = true) : Step ⟨s, .top⟩ ⟨s, .left⟩

/-! ### The accounts -/

/-- The entries of a client, as descriptor and callback. -/
def regsOf (c : ℤ × ClientState) : List (ℤ × Handler) :=
  [(c.2.timerFd, .onHeartbeatTimer c.1), (c.2.notifyEfd, .onClientNotify c.1),
    (c.1, .onClientSocket c.1)]

/-- The descriptors of a client. -/
def fdsOf (c : ℤ × ClientState) : List ℤ := c.2.timerFd :: Proc.held c.2

/-- The live entries. -/
def Proc.regs (s : Proc) : List (ℤ × Handler) :=
  (Loop.live s.loop.entries).map fun e => (e.fd, s.bound e.id)

/-- The accounts of the process: what is registered, timed and open is that of the listening socket
and of the clients in the table, and in the middle of a callback the descriptors `x`, the entries
`r` and the timers `t` that are in no client's name. -/
structure Books (listenFd : ℤ) (x : List ℤ) (r : List (ℤ × Handler)) (t : List ℤ) (s : Proc) :
    Prop where
  regs : s.regs ~ (listenFd, .onAccept) :: (r ++ s.clients.flatMap regsOf)
  timers : s.loop.ownedTimerfds ~ t ++ s.clients.map fun c => c.2.timerFd
  fds : s.openFds ~ listenFd :: (x ++ (s.clients.flatMap fdsOf ++ s.lost))
  nodup : s.openFds.Nodup
  nonneg : ∀ fd ∈ s.openFds, 0 ≤ fd
  intact : s.badClose = false
  shape : ∀ c ∈ s.clients, c.2.socketFd = c.1 ∧ c.2.notifyEfd = c.2.channel.notifyReadEfd
  numbered : ∀ e ∈ s.loop.entries, e.id < s.loop.nextId

variable {listenFd fd : ℤ} {x : List ℤ} {r : List (ℤ × Handler)} {t : List ℤ} {s s' : Proc}
  {h : Handler}

/-- The table of the clients and its counters are as before. -/
structure SameTable (s s' : Proc) : Prop where
  clients : s'.clients = s.clients
  nextClientId : s'.nextClientId = s.nextClientId
  beats : s'.beats = s.beats

theorem SameTable.trans {s'' : Proc} (h : SameTable s s') (h' : SameTable s' s'') :
    SameTable s s'' :=
  ⟨h'.clients.trans h.clients, h'.nextClientId.trans h.nextClientId, h'.beats.trans h.beats⟩

/-! ### Opening and closing -/

theorem Books.alloc (hb : Books listenFd x r t s) (h : s.alloc fd = some s') :
    Books listenFd (fd :: x) r t s' ∧ s' = { s with openFds := fd :: s.openFds } := by
  unfold Proc.alloc at h
  split_ifs at h with hfree
  cases h
  refine ⟨⟨hb.regs, hb.timers, ?_, ?_, ?_, hb.intact, hb.shape, hb.numbered⟩, rfl⟩
  · exact (hb.fds.cons fd).trans (Perm.swap _ _ _)
  · exact List.nodup_cons.mpr ⟨hfree.2, hb.nodup⟩
  · intro fd' hfd'
    rcases List.mem_cons.mp hfd' with rfl | hfd'
    · exact hfree.1
    · exact hb.nonneg fd' hfd'

theorem Books.allocAll : ∀ {fds x : List ℤ} {s s' : Proc}, Books listenFd x r t s →
    s.allocAll fds = some s' →
      Books listenFd (fds.reverse ++ x) r t s' ∧ ∃ l, s' = { s with openFds := l }
  | [], x, s, s', hb, h => by
    cases h
    exact ⟨hb, s.openFds, rfl⟩
  | fd :: fds, x, s, s', hb, h => by
    obtain ⟨s₁, h₁, h₂⟩ := Option.bind_eq_some_iff.mp h
    obtain ⟨hb₁, he₁⟩ := hb.alloc h₁
    obtain ⟨hb₂, l, he₂⟩ := hb₁.allocAll h₂
    refine ⟨?_, l, by rw [he₂, he₁]⟩
    rw [List.reverse_cons, List.append_assoc]
    exact hb₂

/-- Destructors of open descriptors. -/
theorem foldl_reset {rest : List ℤ} : ∀ {fds : List ℤ} {s : Proc}, s.openFds ~ fds ++ rest →
    (∀ fd ∈ s.openFds, 0 ≤ fd) →
      ∃ l, l ~ rest ∧ fds.foldl Proc.reset s = { s with openFds := l }
  | [], s, hp, _ => ⟨s.openFds, hp, rfl⟩
  | fd :: fds, s, hp, hn => by
    have hmem : fd ∈ s.openFds := hp.mem_iff.mpr List.mem_cons_self
    have he : s.reset fd = { s with openFds := s.openFds.erase fd } := by
      unfold Proc.reset Proc.close
      rw [if_pos (hn fd hmem), if_pos hmem]
    have hp' : s.openFds.erase fd ~ fds ++ rest := by
      have := hp.erase fd
      rwa [List.cons_append, List.erase_cons_head] at this
    obtain ⟨l, hl, hfold⟩ := foldl_reset (s := { s with openFds := s.openFds.erase fd }) hp'
      fun fd' hfd' => hn fd' (List.mem_of_mem_erase hfd')
    refine ⟨l, hl, ?_⟩
    rw [List.foldl_cons, he, hfold]

/-- The destructors of descriptors that are in no client's name. -/
theorem Books.resetAll (fds : List ℤ) (hb : Books listenFd (fds ++ x) r t s) :
    Books listenFd x r t (fds.foldl Proc.reset s) ∧
      ∃ l, fds.foldl Proc.reset s = { s with openFds := l } := by
  have hp : s.openFds ~ fds ++ listenFd :: (x ++ (s.clients.flatMap fdsOf ++ s.lost)) := by
    refine hb.fds.trans ?_
    rw [List.append_assoc]
    exact perm_middle.symm
  obtain ⟨l, hl, he⟩ := foldl_reset hp hb.nonneg
  refine ⟨?_, l, he⟩
  rw [he]
  refine ⟨hb.regs, hb.timers, hl, ?_, fun fd hfd => ?_, hb.intact, hb.shape, hb.numbered⟩
  · exact hl.nodup_iff.mpr (List.nodup_append.mp (hp.nodup_iff.mp hb.nodup)).2.1
  · exact hb.nonneg fd (hp.mem_iff.mpr (List.mem_append_right _ (hl.mem_iff.mp hfd)))

theorem Books.reset (hb : Books listenFd (fd :: x) r t s) :
    Books listenFd x r t (s.reset fd) ∧ ∃ l, s.reset fd = { s with openFds := l } :=
  Books.resetAll [fd] hb

/-! ### Registering and removing -/

theorem regs_addFd (hn : ∀ e ∈ s.loop.entries, e.id < s.loop.nextId) :
    (s.addFd fd h).regs = s.regs ++ [(fd, h)] := by
  unfold Proc.regs Proc.addFd Loop.addFd Loop.note Loop.live
  simp only [List.filter_append, List.map_append]
  congr 1
  · refine List.map_congr_left fun e he => ?_
    have hlt := hn e (List.mem_of_mem_filter he)
    rw [if_neg (by omega)]
  · simp

theorem live_marked (es : List Entry) (fd : ℤ) :
    Loop.live (Loop.marked es fd) = (Loop.live es).filter fun e => ¬ e.fd = fd := by
  induction es with
  | nil => rfl
  | cons e es ih =>
    unfold Loop.live Loop.marked at ih ⊢
    by_cases hfd : e.fd = fd
    · cases hd : e.dead <;> simp [hfd, hd] <;> simpa using ih
    · cases hd : e.dead <;> simp [hfd, hd] <;> simpa using ih

theorem regs_removeFd (s : Proc) (fd : ℤ) :
    (s.removeFd fd).regs = s.regs.filter fun p => ¬ p.1 = fd := by
  unfold Proc.regs Proc.removeFd Loop.removeFd Loop.note
  simp only []
  rw [live_marked, List.filter_map]
  rfl

theorem numbered_marked (hn : ∀ e ∈ s.loop.entries, e.id < s.loop.nextId) (fd : ℤ) :
    ∀ e ∈ Loop.marked s.loop.entries fd, e.id < s.loop.nextId := by
  intro e he
  obtain ⟨e', he', rfl⟩ := List.mem_map.mp he
  split_ifs
  · exact hn e' he'
  · exact hn e' he'

theorem Books.addFd (hb : Books listenFd x r t s) (fd : ℤ) (h : Handler) :
    Books listenFd x (r ++ [(fd, h)]) t (s.addFd fd h) := by
  refine ⟨?_, hb.timers, hb.fds, hb.nodup, hb.nonneg, hb.intact, hb.shape, ?_⟩
  · rw [regs_addFd hb.numbered]
    refine (hb.regs.append_right _).trans ?_
    rw [List.cons_append, List.append_assoc, List.append_assoc]
    exact ((perm_append_comm.append_left r).cons _)
  · intro e he
    rcases List.mem_append.mp he with he | he
    · exact Nat.lt_succ_of_lt (hb.numbered e he)
    · rw [List.mem_singleton.mp he]
      exact Nat.lt_succ_self _

/-- No client has a descriptor that is in no client's name. -/
theorem Books.foreign (hb : Books listenFd x r t s) (hfd : fd ∈ x) :
    fd ≠ listenFd ∧ ∀ p ∈ s.clients.flatMap regsOf, p.1 ≠ fd := by
  have hn := (hb.fds.nodup_iff.mp hb.nodup)
  rw [List.nodup_cons, List.nodup_append] at hn
  obtain ⟨hl, -, -, hdis⟩ := hn
  refine ⟨fun he => hl (he ▸ List.mem_append_left _ hfd), fun p hp he => ?_⟩
  obtain ⟨c, hc, hpc⟩ := List.mem_flatMap.mp hp
  have hmem : p.1 ∈ fdsOf c := by
    obtain ⟨h1, h2⟩ := hb.shape c hc
    unfold regsOf at hpc
    simp only [List.mem_cons, List.not_mem_nil, or_false] at hpc
    unfold fdsOf Proc.held
    rcases hpc with rfl | rfl | rfl
    · simp
    · simp [h2]
    · simp [h1]
  exact hdis fd hfd fd
    (List.mem_append_left _ (List.mem_flatMap.mpr ⟨c, hc, he ▸ hmem⟩)) rfl

theorem Books.removeFd (hb : Books listenFd x r t s) (fd : ℤ) (hfd : fd ∈ x) :
    Books listenFd x (r.filter fun p => ¬ p.1 = fd) t (s.removeFd fd) := by
  obtain ⟨hl, hc⟩ := hb.foreign hfd
  refine ⟨?_, hb.timers, hb.fds, hb.nodup, hb.nonneg, hb.intact, hb.shape,
    numbered_marked hb.numbered fd⟩
  rw [regs_removeFd]
  have hp := hb.regs.filter fun p => ¬ p.1 = fd
  rw [List.filter_cons_of_pos (by simpa using Ne.symm hl), List.filter_append] at hp
  have hkeep : (s.clients.flatMap regsOf).filter (fun p => ¬ p.1 = fd) =
      s.clients.flatMap regsOf :=
    List.filter_eq_self.mpr fun p hp => by simpa using hc p hp
  rwa [hkeep] at hp

theorem Books.addTimer {tfd : ℤ} (hb : Books listenFd x r t s)
    (h' : s.addTimer tfd h = some s') :
    Books listenFd (tfd :: x) (r ++ [(tfd, h)]) (tfd :: t) s' ∧ SameTable s s' := by
  obtain ⟨s₁, h₁, rfl⟩ := Option.map_eq_some_iff.mp h'
  obtain ⟨hb₁, he₁⟩ := hb.alloc h₁
  have hb₂ := hb₁.addFd tfd h
  refine ⟨⟨hb₂.regs, ?_, hb₂.fds, hb₂.nodup, hb₂.nonneg, hb₂.intact, hb₂.shape, hb₂.numbered⟩, ?_⟩
  · exact (perm_append_comm.trans (hb₁.timers.cons tfd))
  · rw [he₁]
    exact ⟨rfl, rfl, rfl⟩

/-- `RemoveTimer` on a timer that is in no client's name. -/
theorem Books.removeTimer {tfd : ℤ} (hb : Books listenFd (tfd :: x) r (tfd :: t) s) :
    Books listenFd x (r.filter fun p => ¬ p.1 = tfd) t (s.removeTimer tfd) := by
  have hown : tfd ∈ s.loop.ownedTimerfds := hb.timers.mem_iff.mpr List.mem_cons_self
  have hb₁ := hb.removeFd tfd List.mem_cons_self
  have hb₂ : Books listenFd (tfd :: x) (r.filter fun p => ¬ p.1 = tfd) t
      { s with loop := s.loop.removeTimer tfd } := by
    refine ⟨hb₁.regs, ?_, hb₁.fds, hb₁.nodup, hb₁.nonneg, hb₁.intact, hb₁.shape, hb₁.numbered⟩
    have hp := hb.timers.erase tfd
    rwa [List.cons_append, List.erase_cons_head] at hp
  unfold Proc.removeTimer
  simp only []
  rw [if_pos hown]
  exact hb₂.reset.1

/-! ### Clients come and go -/

variable {cs csp : ClientState} {f : ClientState → ClientState}

/-- The process without the client at `fd` in its table. -/
def Proc.without (s : Proc) (fd : ℤ) : Proc :=
  { s with clients := s.clients.filter fun c => ¬ c.1 = fd }

theorem filter_eq_singleton : ∀ {l : List (ℤ × ClientState)}, (l.map Prod.fst).Nodup →
    (fd, cs) ∈ l → (l.filter fun c => c.1 = fd) = [(fd, cs)]
  | c :: l, hn, hmem => by
    rw [List.map_cons, List.nodup_cons] at hn
    rcases List.mem_cons.mp hmem with rfl | hmem
    · have hnone : (l.filter fun c => c.1 = fd) = [] := by
        refine List.filter_eq_nil_iff.mpr fun c hc he => ?_
        exact hn.1 (List.mem_map.mpr ⟨c, hc, by simpa using he⟩)
      rw [List.filter_cons_of_pos (by simp), hnone]
    · have hne : c.1 ≠ fd := fun he => hn.1 (List.mem_map.mpr ⟨(fd, cs), hmem, he.symm⟩)
      rw [List.filter_cons_of_neg (by simpa using hne), filter_eq_singleton hn.2 hmem]

/-- Two clients have different sockets. -/
theorem Books.keys (hb : Books listenFd x r t s) : (s.clients.map Prod.fst).Nodup := by
  have hn := hb.fds.nodup_iff.mp hb.nodup
  rw [List.nodup_cons, List.nodup_append, List.nodup_append] at hn
  have hdis := (List.nodup_flatMap.mp hn.2.2.1.1).2
  refine List.pairwise_map.mpr (hdis.imp_of_mem fun {c c'} hc hc' hd he => ?_)
  have hkey : ∀ c ∈ s.clients, c.1 ∈ fdsOf c := fun c hc => by
    simp [fdsOf, Proc.held, (hb.shape c hc).1]
  exact hd (hkey c hc) (he ▸ hkey c' hc')

theorem Books.find (hb : Books listenFd x r t s) (hf : s.find fd = some cs) :
    (fd, cs) ∈ s.clients ∧ (s.clients.filter fun c => c.1 = fd) = [(fd, cs)] := by
  obtain ⟨c, hc, rfl⟩ := Option.map_eq_some_iff.mp hf
  have hfd : c.1 = fd := by simpa using List.find?_some hc
  have hmem : (fd, c.2) ∈ s.clients := by
    rw [← hfd]
    exact List.mem_of_find?_eq_some hc
  exact ⟨hmem, filter_eq_singleton hb.keys hmem⟩

theorem find_of_mem (hb : Books listenFd x r t s) (hmem : (fd, cs) ∈ s.clients) :
    s.find fd = some cs := by
  unfold Proc.find
  rw [← List.head?_filter, filter_eq_singleton hb.keys hmem]
  rfl

/-- A client is taken out of the table. -/
theorem Books.takeOut (hb : Books listenFd [] [] [] s)
    (hone : (s.clients.filter fun c => c.1 = fd) = [(fd, cs)]) :
    Books listenFd (fdsOf (fd, cs)) (regsOf (fd, cs)) [cs.timerFd] (s.without fd) := by
  have hp : s.clients ~ (fd, cs) :: (s.without fd).clients := by
    have := (List.filter_append_perm (fun c : ℤ × ClientState => c.1 = fd) s.clients).symm
    rw [hone] at this
    simpa [Proc.without] using this
  refine ⟨?_, ?_, ?_, hb.nodup, hb.nonneg, hb.intact, fun c hc => ?_, hb.numbered⟩
  · exact hb.regs.trans ((hp.flatMap_right _).cons _)
  · exact hb.timers.trans (hp.map _)
  · refine hb.fds.trans (Perm.cons _ ?_)
    refine ((hp.flatMap_right _).append_right _).trans ?_
    rw [List.flatMap_cons, List.append_assoc]
    rfl
  · exact hb.shape c (List.mem_of_mem_filter hc)

theorem erase_eq (hone : (s.clients.filter fun c => c.1 = fd) = [(fd, cs)]) :
    s.erase fd = (s.without fd).destroy cs := by
  unfold Proc.erase
  rw [hone]
  rfl

theorem removeTimer_with (s : Proc) (tfd : ℤ) (l : List (ℤ × ClientState)) :
    { s.removeTimer tfd with clients := l } = { s with clients := l }.removeTimer tfd := by
  unfold Proc.removeTimer Proc.reset Proc.close
  dsimp only
  split_ifs <;> rfl

theorem removeTimer_same (s : Proc) (tfd : ℤ) : SameTable s (s.removeTimer tfd) := by
  unfold Proc.removeTimer Proc.reset Proc.close
  dsimp only
  split_ifs <;> exact ⟨rfl, rfl, rfl⟩

/-- `RemoveClient` gives back all that the client has. -/
theorem Books.removeClient (hb : Books listenFd [] [] [] s) (hf : s.find fd = some cs)
    (ht : csp.timerFd = cs.timerFd) (hn : csp.notifyEfd = cs.notifyEfd) :
    Books listenFd [] [] [] (s.removeClient fd csp) ∧
      SameTable (s.without fd) (s.removeClient fd csp) := by
  obtain ⟨hmem, hone⟩ := hb.find hf
  obtain ⟨hs, hefd⟩ : cs.socketFd = fd ∧ cs.notifyEfd = cs.channel.notifyReadEfd :=
    hb.shape _ hmem
  have heq : s.removeClient fd csp =
      ((((s.without fd).removeTimer cs.timerFd).removeFd cs.notifyEfd).removeFd fd).destroy cs := by
    have hclients : (((s.removeTimer cs.timerFd).removeFd cs.notifyEfd).removeFd fd).clients =
        s.clients := (removeTimer_same s cs.timerFd).clients
    have hwith := congrArg (fun p : Proc => ((p.removeFd cs.notifyEfd).removeFd fd).destroy cs)
      (removeTimer_with s cs.timerFd (s.without fd).clients)
    unfold Proc.removeClient
    rw [ht, hn]
    dsimp only
    rw [erase_eq (hclients ▸ hone)]
    unfold Proc.without
    rw [hclients]
    exact hwith
  have hb₁ := (hb.takeOut hone).removeTimer
  have hb₂ := hb₁.removeFd cs.notifyEfd (by simp [Proc.held, hefd])
  have hb₃ := hb₂.removeFd fd (by simp [Proc.held, hs])
  -- each of the three entries has one of the three descriptors
  have hnil : (((regsOf (fd, cs)).filter fun p => ¬ p.1 = cs.timerFd).filter
      fun p => ¬ p.1 = cs.notifyEfd).filter (fun p => ¬ p.1 = fd) = [] := by
    refine List.filter_eq_nil_iff.mpr fun p hp => ?_
    simp only [List.mem_filter, regsOf, List.mem_cons, List.not_mem_nil, or_false] at hp
    obtain ⟨⟨rfl | rfl | rfl, hp₁⟩, hp₂⟩ := hp
    · simp at hp₁
    · simp at hp₂
    · simp
  rw [hnil, ← List.append_nil (Proc.held cs)] at hb₃
  obtain ⟨hb₄, l, he⟩ := Books.resetAll _ hb₃
  rw [heq]
  unfold Proc.destroy
  refine ⟨hb₄, (removeTimer_same (s.without fd) cs.timerFd).trans ?_⟩
  rw [he]
  exact ⟨rfl, rfl, rfl⟩

/-- A client that has all its own is entered in the table. -/
theorem Books.assign (cs : ClientState) (hb : Books listenFd x (regsOf (fd, cs)) [cs.timerFd] s)
    (hx : x ~ fdsOf (fd, cs)) (hs : cs.socketFd = fd)
    (hn : cs.notifyEfd = cs.channel.notifyReadEfd) :
    Books listenFd [] [] [] (s.assign fd cs) ∧
      s.assign fd cs = { s with clients := (fd, cs) :: s.clients } := by
  have hfd : fd ∈ x := hx.mem_iff.mpr (by simp [fdsOf, Proc.held, hs])
  have hnew : ∀ c ∈ s.clients, c.1 ≠ fd := by
    intro c hc he
    refine (hb.foreign hfd).2 (c.1, .onClientSocket c.1) ?_ he
    exact List.mem_flatMap.mpr ⟨c, hc, by simp [regsOf]⟩
  have heq : s.assign fd cs = { s with clients := (fd, cs) :: s.clients } := by
    have hnone : (s.clients.filter fun c => c.1 = fd) = [] :=
      List.filter_eq_nil_iff.mpr fun c hc => by simpa using hnew c hc
    have hall : (s.clients.filter fun c => ¬ c.1 = fd) = s.clients :=
      List.filter_eq_self.mpr fun c hc => by simpa using hnew c hc
    unfold Proc.assign Proc.erase
    rw [hnone, hall]
    rfl
  refine ⟨?_, heq⟩
  rw [heq]
  refine ⟨hb.regs, hb.timers, ?_, hb.nodup, hb.nonneg, hb.intact, fun c hc => ?_, hb.numbered⟩
  · refine hb.fds.trans (Perm.cons _ ?_)
    refine (hx.append_right _).trans ?_
    rw [List.nil_append, List.flatMap_cons, List.append_assoc]
  · rcases List.mem_cons.mp hc with rfl | hc
    · exact ⟨hs, hn⟩
    · exact hb.shape c hc

/-- A change of the counters only. -/
def Counts (f : ClientState → ClientState) : Prop :=
  ∀ cs, ∃ tick totalRead, f cs = { cs with tick := tick, totalRead := totalRead }

theorem map_modify {α : Type} {g : ℤ × ClientState → α} (hg : ∀ k cs, g (k, f cs) = g (k, cs)) :
    (s.modify fd f).clients.map g = s.clients.map g := by
  unfold Proc.modify
  rw [List.map_map]
  refine List.map_congr_left fun c _ => ?_
  rw [Function.comp_apply]
  split_ifs
  · exact hg c.1 c.2
  · rfl

theorem Books.modify (hb : Books listenFd x r t s) (fd : ℤ) (hf : Counts f) :
    Books listenFd x r t (s.modify fd f) := by
  have hregs : (s.modify fd f).clients.map regsOf = s.clients.map regsOf :=
    map_modify fun k cs => by obtain ⟨_, _, h⟩ := hf cs; rw [h]; rfl
  have hfds : (s.modify fd f).clients.map fdsOf = s.clients.map fdsOf :=
    map_modify fun k cs => by obtain ⟨_, _, h⟩ := hf cs; rw [h]; rfl
  have htimer : (s.modify fd f).clients.map (fun c => c.2.timerFd) =
      s.clients.map fun c => c.2.timerFd :=
    map_modify fun k cs => by obtain ⟨_, _, h⟩ := hf cs; rw [h]
  refine ⟨?_, ?_, ?_, hb.nodup, hb.nonneg, hb.intact, fun c hc => ?_, hb.numbered⟩
  · rw [List.flatMap_def, hregs]
    exact hb.regs
  · rw [htimer]
    exact hb.timers
  · rw [List.flatMap_def, hfds]
    exact hb.fds
  · obtain ⟨c, hmem, rfl⟩ := List.mem_map.mp hc
    have hs := hb.shape c hmem
    split_ifs
    · obtain ⟨_, _, h⟩ := hf c.2
      rw [h]
      exact hs
    · exact hs

theorem find_modify (hf : s.find fd = some cs) : (s.modify fd f).find fd = some (f cs) := by
  obtain ⟨c, hc, rfl⟩ := Option.map_eq_some_iff.mp hf
  have hfd : c.1 = fd := by simpa using List.find?_some hc
  unfold Proc.find Proc.modify
  rw [List.find?_map]
  have hcomp : ((fun c : ℤ × ClientState => decide (c.1 = fd)) ∘
      fun c => if c.1 = fd then (c.1, f c.2) else c) = fun c => decide (c.1 = fd) := by
    funext c
    rw [Function.comp_apply]
    split_ifs <;> rfl
  rw [hcomp, hc, Option.map_some, if_pos hfd]
  rfl

theorem without_modify (s : Proc) (fd : ℤ) (f : ClientState → ClientState) :
    ((s.modify fd f).without fd).clients = (s.without fd).clients := by
  unfold Proc.without Proc.modify
  dsimp only
  induction s.clients with
  | nil => rfl
  | cons c l ih =>
    by_cases hc : c.1 = fd
    · simpa [hc] using ih
    · simpa [hc] using ih

theorem ids_modify (hf : Counts f) :
    s.clients.map (fun c => c.2.id) = (s.modify fd f).clients.map fun c => c.2.id :=
  (map_modify fun k cs => by obtain ⟨_, _, h⟩ := hf cs; rw [h]).symm

/-! ### The heartbeats -/

/-- The `seq` of the heartbeats to client `i`. -/
def Proc.beatsTo (s : Proc) (i : ℕ) : List ℕ := (s.beats.filter fun b => b.1 = i).map Prod.snd

/-- The numbers of the clients, and the heartbeats they got. -/
structure Tally (s : Proc) : Prop where
  few : s.clients.length ≤ kMaxClients
  ids : (s.clients.map fun c => c.2.id).Nodup
  idLt : ∀ c ∈ s.clients, c.2.id < s.nextClientId
  beatLt : ∀ b ∈ s.beats, b.1 < s.nextClientId
  beats : ∀ i, ∃ k ≤ kMaxTicks, s.beatsTo i = List.range' 1 k ∧
    ∀ c ∈ s.clients, c.2.id = i → c.2.tick = k

/-- Clients leave, and numbers are used up. -/
theorem Tally.sublist (ht : Tally s) (hc : s'.clients.Sublist s.clients)
    (hn : s.nextClientId ≤ s'.nextClientId) (hb : s'.beats = s.beats) : Tally s' where
  few := hc.length_le.trans ht.few
  ids := ht.ids.sublist (hc.map _)
  idLt c hmem := (ht.idLt c (hc.subset hmem)).trans_le hn
  beatLt b hmem := (ht.beatLt b (hb ▸ hmem)).trans_le hn
  beats i := by
    obtain ⟨k, hk, hr, hall⟩ := ht.beats i
    refine ⟨k, hk, ?_, fun c hmem => hall c (hc.subset hmem)⟩
    unfold Proc.beatsTo at hr ⊢
    rw [hb]
    exact hr

/-- A client comes in. -/
theorem Tally.cons (ht : Tally s) (fd : ℤ) (cs : ClientState) (hlt : s.clients.length < kMaxClients)
    (hc : s'.clients = (fd, cs) :: s.clients) (hid : cs.id = s.nextClientId) (htick : cs.tick = 0)
    (hn : s'.nextClientId = s.nextClientId + 1) (hb : s'.beats = s.beats) : Tally s' where
  few := by rw [hc, List.length_cons]; exact hlt
  ids := by
    rw [hc, List.map_cons, List.nodup_cons]
    refine ⟨fun hmem => ?_, ht.ids⟩
    obtain ⟨c, hcm, he⟩ := List.mem_map.mp hmem
    exact absurd (he.trans hid) (ht.idLt c hcm).ne
  idLt c hmem := by
    rw [hc] at hmem
    rcases List.mem_cons.mp hmem with rfl | hmem
    · rw [hid, hn]
      exact Nat.lt_succ_self _
    · have := ht.idLt c hmem
      omega
  beatLt b hmem := by
    have := ht.beatLt b (hb ▸ hmem)
    omega
  beats i := by
    obtain ⟨k, hk, hr, hall⟩ := ht.beats i
    have hr' : s'.beatsTo i = List.range' 1 k := by
      unfold Proc.beatsTo at hr ⊢
      rw [hb]
      exact hr
    refine ⟨k, hk, hr', fun c hmem hi => ?_⟩
    rw [hc] at hmem
    rcases List.mem_cons.mp hmem with rfl | hmem
    · -- the number is new, so it has got no heartbeat yet
      have hnone : s.beatsTo i = [] := by
        unfold Proc.beatsTo
        rw [List.map_eq_nil_iff, List.filter_eq_nil_iff]
        intro b hbm he
        have hbi : b.1 = i := by simpa using he
        exact absurd (hbi.trans (hi.symm.trans hid)) (ht.beatLt b hbm).ne
      rw [hnone] at hr
      have := congrArg List.length hr
      rw [List.length_range'] at this
      simpa [htick] using this
    · exact hall c hmem hi

/-- What the client reads does not count. -/
theorem Tally.read (ht : Tally s) (fd : ℤ) (n : ℕ) :
    Tally (s.modify fd fun cs => { cs with totalRead := cs.totalRead + n }) where
  few := by rw [Proc.modify, List.length_map]; exact ht.few
  ids := ids_modify (fun cs => ⟨_, _, rfl⟩) ▸ ht.ids
  idLt c hmem := by
    obtain ⟨c, hc, rfl⟩ := List.mem_map.mp hmem
    split_ifs <;> exact ht.idLt c hc
  beatLt := ht.beatLt
  beats i := by
    obtain ⟨k, hk, hr, hall⟩ := ht.beats i
    refine ⟨k, hk, hr, fun c hmem hi => ?_⟩
    obtain ⟨c, hc, rfl⟩ := List.mem_map.mp hmem
    split_ifs at hi ⊢ <;> exact hall c hc hi

/-- A heartbeat. -/
theorem Tally.beat (ht : Tally s) (hb : Books listenFd x r t s) (hf : s.find fd = some cs)
    (hle : ¬ kMaxTicks < cs.tick + 1) :
    Tally { s.modify fd fun cs => { cs with tick := cs.tick + 1 } with
      beats := s.beats ++ [(cs.id, cs.tick + 1)] } where
  few := by dsimp only [Proc.modify]; rw [List.length_map]; exact ht.few
  ids := by
    have hids : s.clients.map (fun c => c.2.id) =
        (s.modify fd fun cs => { cs with tick := cs.tick + 1 }).clients.map fun c => c.2.id :=
      ids_modify fun cs => ⟨_, _, rfl⟩
    exact hids ▸ ht.ids
  idLt c hmem := by
    obtain ⟨c, hc, rfl⟩ := List.mem_map.mp hmem
    split_ifs <;> exact ht.idLt c hc
  beatLt b hmem := by
    rcases List.mem_append.mp hmem with hmem | hmem
    · exact ht.beatLt b hmem
    · rw [List.mem_singleton.mp hmem]
      exact ht.idLt _ (hb.find hf).1
  beats i := by
    have hmem := (hb.find hf).1
    obtain ⟨k, hk, hr, hall⟩ := ht.beats i
    unfold Proc.beatsTo at hr ⊢
    dsimp only
    rw [List.filter_append, List.map_append, hr]
    by_cases hi : cs.id = i
    · -- the next number goes to this client, and no other has its number
      have htick : cs.tick = k := hall _ hmem hi
      refine ⟨k + 1, by omega, ?_, fun c hc hci => ?_⟩
      · rw [List.filter_cons_of_pos (by simpa using hi), List.range'_concat]
        simp [htick, Nat.add_comm]
      · obtain ⟨c, hcm, rfl⟩ := List.mem_map.mp hc
        split_ifs at hci ⊢ with hfd
        · have := hall c hcm hci
          simpa using this
        · have hsame := List.inj_on_of_nodup_map ht.ids hcm hmem (hci.trans hi.symm)
          exact absurd (congrArg Prod.fst hsame) hfd
    · refine ⟨k, hk, ?_, fun c hc hci => ?_⟩
      · rw [List.filter_cons_of_neg (by simpa using hi)]
        simp
      · obtain ⟨c, hcm, rfl⟩ := List.mem_map.mp hc
        split_ifs at hci ⊢ with hfd
        · have hone := filter_eq_singleton hb.keys hmem
          have hcin : c ∈ s.clients.filter fun c => c.1 = fd :=
            List.mem_filter.mpr ⟨hcm, by simpa using hfd⟩
          rw [hone, List.mem_singleton] at hcin
          rw [hcin] at hci
          exact absurd hci hi
        · exact hall c hcm hci

/-! ### The callbacks -/

/-- The accounts of the process and of the clients. -/
structure InStep (listenFd : ℤ) (s : Proc) : Prop where
  books : Books listenFd [] [] [] s
  tally : Tally s

variable {a : Answers}

theorem InStep.removeClient (hs : InStep listenFd s) (hf : s.find fd = some cs) (hc : Counts f) :
    InStep listenFd ((s.modify fd f).removeClient fd cs) := by
  obtain ⟨tick, total, he⟩ := hc cs
  have hcsp : cs.timerFd = (f cs).timerFd ∧ cs.notifyEfd = (f cs).notifyEfd := by
    rw [he]
    exact ⟨rfl, rfl⟩
  obtain ⟨hb, hsame⟩ :=
    (hs.books.modify fd hc).removeClient (find_modify hf) hcsp.1 hcsp.2
  refine ⟨hb, hs.tally.sublist ?_ hsame.nextClientId.ge hsame.beats⟩
  rw [hsame.clients, without_modify]
  exact List.filter_sublist

theorem InStep.onHeartbeatTimer (hs : InStep listenFd s) (fd : ℤ) :
    InStep listenFd (s.onHeartbeatTimer fd) := by
  unfold Proc.onHeartbeatTimer
  rcases hf : s.find fd with _ | cs
  · exact hs
  dsimp only
  have hc : Counts fun cs => { cs with tick := cs.tick + 1 } := fun cs => ⟨_, _, rfl⟩
  split_ifs with hmax
  · exact hs.removeClient hf hc
  · have hb := hs.books.modify fd hc
    exact ⟨⟨hb.regs, hb.timers, hb.fds, hb.nodup, hb.nonneg, hb.intact, hb.shape, hb.numbered⟩,
      hs.tally.beat hs.books hf hmax⟩

theorem counts_read (n : ℕ) : Counts fun cs => { cs with totalRead := cs.totalRead + n } :=
  fun _ => ⟨_, _, rfl⟩

theorem InStep.drainClientRing (hs : InStep listenFd s) (fd : ℤ) (a : Answers) :
    InStep listenFd (s.drainClientRing fd a) :=
  ⟨hs.books.modify fd (counts_read a.messages), hs.tally.read fd a.messages⟩

theorem InStep.onClientNotify (hs : InStep listenFd s) (fd : ℤ) (a : Answers) :
    InStep listenFd (s.onClientNotify fd a) := by
  unfold Proc.onClientNotify
  rcases hf : s.find fd with _ | cs
  · exact hs
  dsimp only
  split_ifs
  · exact hs.removeClient hf (counts_read a.messages)
  · exact hs.drainClientRing fd a

theorem modify_id (s : Proc) (fd : ℤ) : s.modify fd id = s := by
  unfold Proc.modify
  have hid : (fun c : ℤ × ClientState => if c.1 = fd then (c.1, id c.2) else c) = id := by
    funext c
    split_ifs <;> rfl
  rw [hid, List.map_id]

theorem InStep.onClientSocket (hs : InStep listenFd s) (revents : BitVec 16) (fd : ℤ)
    (a : Answers) : InStep listenFd (s.onClientSocket revents fd a) := by
  unfold Proc.onClientSocket
  rcases hf : s.find fd with _ | cs
  · exact hs
  dsimp only
  split_ifs
  · have hrem := hs.removeClient (f := id) hf fun cs => ⟨cs.tick, cs.totalRead, rfl⟩
    rwa [modify_id] at hrem
  · exact hs.removeClient hf (counts_read a.messages)
  · exact hs
  · exact hs

/-- `CreateRingChannel`: the descriptors of the channel are open, or what is open is lost. -/
theorem Books.createRingChannel {hs : Handshake} {o : Option Channel}
    (hb : Books listenFd x r t s) (h : s.createRingChannel hs = (o, s')) :
    SameTable s s' ∧ (o = none → Books listenFd x r t s') ∧ ∀ ch, o = some ch →
      Books listenFd ([ch.notifyReadEfd, ch.notifyWriteEfd, ch.readMemfd, ch.writeMemfd] ++ x) r t
        s' := by
  unfold Proc.createRingChannel at h
  split at h
  next left =>
    split at h
    next =>
      cases h
      exact ⟨⟨rfl, rfl, rfl⟩, fun _ => hb, fun _ hn => by cases hn⟩
    next s₁ hall =>
      obtain ⟨hb', l, rfl⟩ := hb.allocAll hall
      cases h
      refine ⟨⟨rfl, rfl, rfl⟩, fun _ => ?_, fun _ hn => by cases hn⟩
      refine { hb' with fds := hb'.fds.trans (Perm.cons _ ?_) }
      rw [List.append_assoc]
      refine (perm_append_comm.trans ?_)
      rw [List.append_assoc, List.append_assoc]
      refine Perm.append_left x (Perm.append_left _ ?_)
      exact perm_append_comm.trans (left.reverse_perm.append_right _)
  next ch =>
    split at h
    next =>
      cases h
      exact ⟨⟨rfl, rfl, rfl⟩, fun _ => hb, fun _ hn => by cases hn⟩
    next s₁ hall =>
      obtain ⟨hb', l, rfl⟩ := hb.allocAll hall
      cases h
      refine ⟨⟨rfl, rfl, rfl⟩, fun hn => (by cases hn), fun ch' hch => ?_⟩
      cases hch
      exact hb'

/-- The `catch` gives back a client that has no timer yet. -/
theorem Books.setupFailed (cs : ClientState) (hb : Books listenFd (Proc.held cs) [] [] s)
    (ht : cs.timerFd = -1) (hs : cs.socketFd = fd) (hn : cs.notifyEfd = cs.channel.notifyReadEfd) :
    Books listenFd [] [] [] (s.setupFailed fd cs) ∧ SameTable s (s.setupFailed fd cs) := by
  have hb₁ := hb.removeFd cs.notifyEfd (by simp [Proc.held, hn])
  have hb₂ := hb₁.removeFd fd (by simp [Proc.held, hs])
  rw [← List.append_nil (Proc.held cs)] at hb₂
  obtain ⟨hb₃, l, he⟩ := Books.resetAll _ hb₂
  unfold Proc.setupFailed
  rw [ht, if_neg (by decide)]
  dsimp only
  unfold Proc.destroy
  refine ⟨hb₃, ?_⟩
  rw [he]
  exact ⟨rfl, rfl, rfl⟩

theorem SameTable.tally (h : SameTable s s') (ht : Tally s) : Tally s' :=
  ht.sublist (by rw [h.clients]) h.nextClientId.ge h.beats

/-- `OnAccept` with a connection below the limit. -/
theorem InStep.enrol (hb : Books listenFd [fd] [] [] s) (ht : Tally s)
    (hlt : s.clients.length < kMaxClients) (a : Answers) : InStep listenFd (s.enrol fd a) := by
  unfold Proc.enrol
  dsimp only
  have hb₀ : Books listenFd [fd] [] [] { s with nextClientId := s.nextClientId + 1 } := { hb with }
  have ht₀ : Tally { s with nextClientId := s.nextClientId + 1 } :=
    ht.sublist (List.Sublist.refl _) (Nat.le_succ _) rfl
  split
  next s₁ hcr =>
    obtain ⟨hsame, hnone, -⟩ := hb₀.createRingChannel hcr
    obtain ⟨hb₁, l, he⟩ := (hnone rfl).reset
    refine ⟨hb₁, (hsame.trans ?_).tally ht₀⟩
    rw [he]
    exact ⟨rfl, rfl, rfl⟩
  next ch s₁ hcr =>
    obtain ⟨hsame, -, hsome⟩ := hb₀.createRingChannel hcr
    have hb₁ := hsome ch rfl
    split
    next =>
      have hb₂ := Books.setupFailed
        ⟨s.nextClientId, fd, ch, -1, ch.notifyReadEfd, 0, 0⟩ hb₁ rfl rfl rfl
      exact ⟨hb₂.1, (hsame.trans hb₂.2).tally ht₀⟩
    next s₂ hadd =>
      obtain ⟨hb₂, hsame₂⟩ := hb₁.addTimer hadd
      have hb₃ := (hb₂.addFd ch.notifyReadEfd (.onClientNotify fd)).addFd fd (.onClientSocket fd)
      have hb₄ := Books.assign ⟨s.nextClientId, fd, ch, a.timer, ch.notifyReadEfd, 0, 0⟩
        hb₃ (Perm.refl _) rfl rfl
      have hsame₃ := hsame.trans hsame₂
      refine ⟨hb₄.1, ht.cons fd
        ⟨s.nextClientId, fd, ch, a.timer, ch.notifyReadEfd, 0, 0⟩ hlt ?_ rfl rfl ?_ ?_⟩
      · rw [hb₄.2]
        exact congrArg (List.cons _) hsame₃.clients
      · rw [hb₄.2]
        exact hsame₃.nextClientId
      · rw [hb₄.2]
        exact hsame₃.beats

theorem InStep.onAccept (hs : InStep listenFd s) (a : Answers) :
    InStep listenFd (s.onAccept a) := by
  unfold Proc.onAccept
  rcases hal : s.alloc a.accepted with _ | s'
  · exact hs
  obtain ⟨hb, he⟩ := hs.books.alloc hal
  have ht : Tally s' := SameTable.tally (s := s) (by rw [he]; exact ⟨rfl, rfl, rfl⟩) hs.tally
  dsimp only
  split_ifs with hmax
  · obtain ⟨hb', l, he'⟩ := hb.reset
    refine ⟨hb', SameTable.tally (s := s') ?_ ht⟩
    rw [he']
    exact ⟨rfl, rfl, rfl⟩
  · refine InStep.enrol hb ht ?_ a
    rw [he]
    exact Nat.lt_of_not_le hmax

theorem InStep.call (hs : InStep listenFd s) (revents : BitVec 16) (a : Answers) (h : Handler) :
    InStep listenFd (s.call revents a h) := by
  cases h with
  | onAccept => exact hs.onAccept a
  | onHeartbeatTimer clientFd => exact hs.onHeartbeatTimer clientFd
  | onClientNotify clientFd => exact hs.onClientNotify clientFd a
  | onClientSocket clientFd => exact hs.onClientSocket revents clientFd a

/-! ### Runs -/

theorem InStep.visit (hs : InStep listenFd s) (k : ℕ) (revents : BitVec 16) (a : Answers) :
    InStep listenFd (visit s k revents a) := by
  unfold Server.visit
  split
  · exact hs
  · split_ifs
    · exact hs.call revents a _
    · exact hs

theorem InStep.compact (hs : InStep listenFd s) :
    InStep listenFd { s with loop := s.loop.compactDead } := by
  obtain ⟨hb, ht⟩ := hs
  refine ⟨⟨?_, hb.timers, hb.fds, hb.nodup, hb.nonneg, hb.intact, hb.shape, fun e he => ?_⟩,
    { ht with }⟩
  · unfold Proc.regs Loop.compactDead
    rw [live_live]
    exact hb.regs
  · exact hb.numbered e (List.mem_of_mem_filter he)

theorem inStep_start (h : 0 ≤ listenFd) : InStep listenFd (start listenFd).proc := by
  refine ⟨⟨Perm.refl _, Perm.refl _, Perm.refl _, ?_, ?_, rfl, ?_, ?_⟩, ⟨?_, ?_, ?_, ?_, ?_⟩⟩
  · simp [start, Proc.addFd]
  · intro fd hfd
    rw [List.mem_singleton.mp hfd]
    exact h
  · exact fun c hc => absurd hc List.not_mem_nil
  · intro e he
    rw [List.mem_singleton.mp he]
    exact Nat.lt_succ_self 0
  · exact Nat.zero_le _
  · exact List.nodup_nil
  · exact fun c hc => absurd hc List.not_mem_nil
  · exact fun b hb => absurd hb List.not_mem_nil
  · exact fun i => ⟨0, Nat.zero_le _, rfl, fun c hc => absurd hc List.not_mem_nil⟩

theorem step_inStep {m m' : Main} (h : Step m m') (hs : InStep listenFd m.proc) :
    InStep listenFd m'.proc := by
  cases h with
  | poll | leave | throw => exact hs
  | visit a => exact hs.visit _ _ a
  | compact => exact hs.compact
  | signal => exact ⟨{ hs.books with }, { hs.tally with }⟩

theorem run_inStep {m : Main} (h : 0 ≤ listenFd) (hrun : ReflTransGen Step (start listenFd) m) :
    InStep listenFd m.proc := by
  induction hrun with
  | refl => exact inStep_start h
  | tail _ hstep ih => exact step_inStep hstep ih

/-- The descriptors of the clients are those of their destructors and their timers. -/
theorem flatMap_fdsOf (l : List (ℤ × ClientState)) :
    l.flatMap fdsOf ~ l.flatMap (fun c => Proc.held c.2) ++ l.map fun c => c.2.timerFd := by
  induction l with
  | nil => exact Perm.refl _
  | cons c l ih =>
    have hright : Proc.held c.2 ++ (l.flatMap (fun c => Proc.held c.2) ++
        c.2.timerFd :: l.map fun c => c.2.timerFd) ~ c.2.timerFd :: (Proc.held c.2 ++
        (l.flatMap (fun c => Proc.held c.2) ++ l.map fun c => c.2.timerFd)) :=
      (perm_middle.append_left _).trans perm_middle
    rw [List.flatMap_cons, List.flatMap_cons, List.map_cons, List.append_assoc]
    exact ((ih.append_left _).cons _).trans hright.symm

/-- The end of `main` closes all that is not lost. -/
theorem shutdown_spec (hb : Books listenFd [] [] [] s) :
    (s.shutdown listenFd).openFds ~ s.lost ∧ (s.shutdown listenFd).badClose = false := by
  have hp : s.openFds ~ s.clients.flatMap (fun c => Proc.held c.2) ++
      ([listenFd] ++ (s.loop.ownedTimerfds ++ s.lost)) := by
    refine hb.fds.trans ?_
    refine (((flatMap_fdsOf s.clients).append_right s.lost).cons listenFd).trans ?_
    rw [List.append_assoc]
    refine perm_middle.symm.trans (Perm.append_left _ (Perm.cons _ ?_))
    exact hb.timers.symm.append_right _
  have hn : ∀ {l rest : List ℤ}, l ~ rest → rest ⊆ s.openFds → ∀ fd ∈ l, 0 ≤ fd :=
    fun hl hsub fd hfd => hb.nonneg fd (hsub (hl.mem_iff.mp hfd))
  obtain ⟨l₁, hl₁, he₁⟩ := foldl_reset (s := { s with clients := [] }) hp hb.nonneg
  obtain ⟨l₂, hl₂, he₂⟩ := foldl_reset (s := { s with clients := [], openFds := l₁ }) hl₁
    (hn hl₁ fun fd hfd => hp.mem_iff.mpr (List.mem_append_right _ hfd))
  obtain ⟨l₃, hl₃, he₃⟩ := foldl_reset
    (s := { s with clients := [], openFds := l₂, loop := { s.loop with ownedTimerfds := [] } }) hl₂
    (hn hl₂ fun fd hfd =>
      hp.mem_iff.mpr (List.mem_append_right _ (List.mem_append_right _ hfd)))
  have hdestroy : s.clients.foldl (fun s c => s.destroy c.2) { s with clients := [] } =
      { s with clients := [], openFds := l₁ } := by
    rw [← he₁, List.foldl_flatMap]
    rfl
  have hreset : Proc.reset { s with clients := [], openFds := l₁ } listenFd =
      { s with clients := [], openFds := l₂ } := he₂
  unfold Proc.shutdown
  dsimp only
  rw [hdestroy, hreset, he₃]
  exact ⟨hl₃, hb.intact⟩

/-- What holds of the server at any time. -/
structure Accounted (listenFd : ℤ) (s : Proc) : Prop where
  /-- an event is for the listening socket, or for a client that is in the table and whose
  descriptor it is -/
  served : ∀ e ∈ s.loop.entries, e.dead = false →
    e.fd = listenFd ∧ s.bound e.id = .onAccept ∨
      ∃ fd cs, s.find fd = some cs ∧ (e.fd, s.bound e.id) ∈ regsOf (fd, cs)
  /-- each client has its three entries, once -/
  watched : s.regs ~ (listenFd, .onAccept) :: s.clients.flatMap regsOf
  timed : s.loop.ownedTimerfds ~ s.clients.map fun c => c.2.timerFd
  /-- each open descriptor is held once, and nothing was closed that was not open -/
  held : s.openFds ~ listenFd :: (s.clients.flatMap fdsOf ++ s.lost)
  once : s.openFds.Nodup
  intact : s.badClose = false
  few : s.clients.length ≤ kMaxClients
  numbers : (s.clients.map fun c => c.2.id).Nodup
  /-- the heartbeats to a client are numbered from 1 and at most `kMaxTicks` -/
  beats : ∀ i, ∃ k ≤ kMaxTicks, s.beatsTo i = List.range' 1 k
  /-- the end of `main` closes all of them -/
  closed : (s.shutdown listenFd).openFds ~ s.lost ∧ (s.shutdown listenFd).badClose = false

theorem InStep.accounted (hs : InStep listenFd s) : Accounted listenFd s where
  served e he hd := by
    have hmem : (e.fd, s.bound e.id) ∈ s.regs :=
      List.mem_map.mpr ⟨e, List.mem_filter.mpr ⟨he, by simp [hd]⟩, rfl⟩
    rcases List.mem_cons.mp (hs.books.regs.mem_iff.mp hmem) with heq | hmem
    · exact Or.inl (Prod.mk.inj heq)
    · obtain ⟨⟨fd, cs⟩, hc, hreg⟩ := List.mem_flatMap.mp hmem
      exact Or.inr ⟨fd, cs, find_of_mem hs.books hc, hreg⟩
  watched := hs.books.regs
  timed := hs.books.timers
  held := hs.books.fds
  once := hs.books.nodup
  intact := hs.books.intact
  few := hs.tally.few
  numbers := hs.tally.ids
  beats i := by
    obtain ⟨k, hk, hr, -⟩ := hs.tally.beats i
    exact ⟨k, hk, hr⟩
  closed := shutdown_spec hs.books

/-- **The server's accounts.** In every run of the server, with any events in any order and any
results of the calls, between any two callbacks. -/
theorem server_accounted {listenFd : ℤ} (h : 0 ≤ listenFd) {m : Main}
    (hrun : ReflTransGen Step (start listenFd) m) : Accounted listenFd m.proc :=
  (run_inStep h hrun).accounted

/-- A connection with descriptor 4, and a timer with descriptor 9. -/
def welcome : Answers := ⟨4, .done ⟨5, 6, 7, 8⟩, 9, 0, false, false⟩

/-- A client connects, gets a heartbeat and hangs up, and the next one gets its descriptors. -/
theorem server_accounted_again : ∃ m, ReflTransGen Step (start 3) m ∧ m.proc.beats = [(1, 1)] ∧
    m.proc.clients.map (fun c => (c.1, c.2.id)) = [(4, 2)] ∧ Accounted 3 m.proc := by
  have hrun : ReflTransGen Step (start 3) _ :=
    .head (.poll (fun _ => 1) rfl) (.head (.visit welcome rfl) (.head (.compact (Or.inl rfl))
      (.head (.poll (fun i => if i = 1 then 1 else if i = 3 then 16 else 0) rfl)
        (.head (.visit welcome rfl) (.head (.visit welcome rfl) (.head (.visit welcome rfl)
          (.head (.visit welcome rfl) (.head (.compact (Or.inl rfl))
            (.head (.poll (fun _ => 1) rfl) (.head (.visit welcome rfl) .refl))))))))))
  exact ⟨_, hrun, by decide, by decide, server_accounted (by decide) hrun⟩

end ShmIpc.App.Server
