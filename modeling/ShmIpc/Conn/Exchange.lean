import ShmIpc.Conn.FdPassing
import ShmIpc.Lib.Threads
import ShmIpc.Ring.RingBuf

/-! # The exchange of descriptors: `CreateRingChannel`

Two processes at the ends of a Unix socket, each a program of system calls: the client creates its
ring and eventfd, sends both and receives the server's; the server receives first. `Net` is what the
kernel keeps of it: the objects behind descriptors, the descriptors and mappings of each process,
and the messages on the socket. Every system call may fail, when and how a `Fate` says; a `recvmsg`
that finds nothing has waited for the five seconds that `HandshakeGuard` sets, or for a peer that is
gone.

The program follows the source call by call, with the destructors that run when it throws. -/

namespace ShmIpc.Conn.Exchange

open ShmIpc.Lib.RelyGuarantee ShmIpc.Lib.LittleEndian
open ShmIpc.Ring.RingBuf
open ShmIpc.Conn.FdPassing

/-! ### The kernel -/

/-- `ChannelRole`. -/
inductive Side : Type
  | client
  | server
  deriving DecidableEq, Repr

/-- The other end. -/
def Side.peer : Side → Side
  | .client => .server
  | .server => .client

/-- What a descriptor stands for; `init` is whether `RingBuf::Init` has run on it. -/
structure Obj where
  owner : Side
  ring : Bool
  size : ℕ
  sealable : Bool
  fixed : Bool
  init : Bool
  deriving DecidableEq, Repr

/-- `errno`. -/
structure Errno where
  invalid : Bool
  text : String
  deriving DecidableEq, Repr

/-- `EMFILE`, `EBADF`, `EPIPE` and `EAGAIN`. -/
def emfile : Errno := ⟨false, "Too many open files"⟩
@[inherit_doc emfile] def ebadf : Errno := ⟨false, "Bad file descriptor"⟩
@[inherit_doc emfile] def epipe : Errno := ⟨false, "Broken pipe"⟩
@[inherit_doc emfile] def eagain : Errno := ⟨false, "Resource temporarily unavailable"⟩

/-- What becomes of a system call: an error, or the descriptor it may use, how many bytes of the 256
it sends, and whether a descriptor in its control data is lost. -/
structure Fate where
  errno : Option Errno
  fd : Int32
  bytes : ℕ
  trunc : Bool

/-- A message on the socket: how many of its bytes went out, its tag and its object. -/
structure Wire where
  bytes : ℕ
  tag : FdTag
  obj : ℕ
  deriving DecidableEq, Repr

/-- One process, as far as its end of the socket goes. -/
structure Host where
  /-- its open descriptors with what they stand for -/
  tab : List (Int32 × ℕ)
  /-- the objects that it has mapped -/
  maps : List ℕ
  rcvTimeo : Bool
  sndTimeo : Bool
  /-- the messages that it has sent -/
  sent : List Wire
  /-- how many of the peer's messages it has received -/
  taken : ℕ
  /-- its end of the socket is closed -/
  closed : Bool
  /-- its next system call -/
  clock : ℕ
  /-- a system call of it has failed or has done only a part -/
  refused : Bool
  /-- a `recvmsg` of it has found nothing -/
  starved : Bool
  /-- it has made a call on the socket that could have waited for ever -/
  endless : Bool

/-- The kernel. -/
structure Net where
  objs : List Obj
  host : Side → Host

/-- The system calls of the exchange; a mapping is named by its object. -/
inductive Call : Type
  | setTimeo (rcv on : Bool)
  | memfdCreate (name : String) (sealing : Bool)
  | ftruncate (fd : Int32) (size : ℕ)
  | addSeals (fd : Int32)
  | eventfd
  | close (fd : Int32)
  | mmap (fd : Int32) (size : ℕ)
  | munmap (addr : ℕ)
  /-- `memset` of `RingBuf::Init` -/
  | memset (addr : ℕ)
  | sendmsg (fd : Int32) (tag : FdTag)
  | recvmsg
  | closeSocket

/-- What they return. -/
@[reducible] def Call.Res : Call → Type
  | .memfdCreate _ _ | .eventfd => Except Errno Int32
  | .ftruncate _ _ => Except Errno Unit
  | .mmap _ _ | .sendmsg _ _ => Except Errno ℕ
  | .recvmsg => Recv
  | .setTimeo _ _ | .addSeals _ | .close _ | .munmap _ | .memset _ | .closeSocket => Unit

/-- The kernel with the process `X` changed. -/
def Net.set (g : Net) (X : Side) (h : Host) : Net :=
  { g with host := fun Y => if Y = X then h else g.host Y }

/-- The object behind a descriptor. -/
def Host.lookup (h : Host) (fd : Int32) : Option ℕ := (h.tab.find? fun p => p.1 = fd).map Prod.snd

/-- The descriptor is free. -/
def Host.Free (h : Host) (fd : Int32) : Prop := 0 ≤ fd ∧ ∀ p ∈ h.tab, p.1 ≠ fd

instance (h : Host) (fd : Int32) : Decidable (h.Free fd) := by
  unfold Host.Free; infer_instance

/-- The process after a system call. -/
def Host.tick (h : Host) : Host := { h with clock := h.clock + 1 }

/-- The process after a system call that failed, or did only a part. -/
def Host.refuse (h : Host) : Host := { h with clock := h.clock + 1, refused := true }

/-- The process in a call that waits, for a limited time if `timed`. -/
def Host.wait (h : Host) (timed : Bool) : Host := if timed then h else { h with endless := true }

/-- A new object with a descriptor for it. -/
def Net.create (g : Net) (X : Side) (f : Fate) (o : Obj) : Except Errno Int32 × Net :=
  match f.errno with
  | some e => (.error e, g.set X (g.host X).refuse)
  | none =>
    if (g.host X).Free f.fd then
      (.ok f.fd, { (g.set X { (g.host X).tick with
        tab := (f.fd, g.objs.length) :: (g.host X).tab }) with objs := g.objs ++ [o] })
    else (.error emfile, g.set X (g.host X).refuse)

/-- The bytes of `SendFd`. -/
def dummy (tag : FdTag) : List UInt8 := le32 tag.val ++ List.replicate 252 0

theorem length_dummy (tag : FdTag) : (dummy tag).length = 256 := by
  rw [dummy, List.length_append, length_le32, List.length_replicate]

/-- What `recvmsg` delivers of `n` bytes with a tag, with its descriptor installed as `fd`. -/
def delivered (n : ℕ) (tag : FdTag) (fd : Int32) (h : 0 ≤ fd) : Msg where
  received := min n 256
  data := (dummy tag).take (min n 256) ++ List.replicate (256 - min n 256) 0
  ctrunc := false
  cmsg := some ⟨true, cmsgLen 4, [fd]⟩
  sent := 1
  installed := [fd]
  length_data := by
    rw [List.length_append, List.length_take, length_dummy, List.length_replicate]
    omega
  received_le := Nat.min_le_right _ _
  installed_le := le_rfl
  truncated h := absurd h (by simp)
  fits := by simp [cmsgLen, cmsgSpace]
  nonneg := by simpa using h
  nodup := by simp
  carried _ := ⟨_, rfl, rfl⟩
  described c hc _ := by cases hc; exact ⟨rfl, rfl⟩

/-- The same with its descriptor lost. -/
def truncated (n : ℕ) (tag : FdTag) : Msg where
  received := min n 256
  data := (dummy tag).take (min n 256) ++ List.replicate (256 - min n 256) 0
  ctrunc := true
  cmsg := none
  sent := 1
  installed := []
  length_data := by
    rw [List.length_append, List.length_take, length_dummy, List.length_replicate]
    omega
  received_le := Nat.min_le_right _ _
  installed_le := Nat.zero_le _
  truncated _ := rfl
  fits := by simp [cmsgLen, cmsgSpace]
  nonneg := by simp
  nodup := List.nodup_nil
  carried h := absurd rfl h
  described c hc := by cases hc

/-- The end of the stream. -/
def endOfStream : Msg where
  received := 0
  data := List.replicate 256 0
  ctrunc := false
  cmsg := none
  sent := 0
  installed := []
  length_data := List.length_replicate
  received_le := Nat.zero_le _
  installed_le := le_rfl
  truncated h := absurd h (by simp)
  fits := by simp [cmsgLen, cmsgSpace]
  nonneg := by simp
  nodup := List.nodup_nil
  carried h := absurd rfl h
  described c hc := by cases hc

/-- `recvmsg`: the next message of the peer, with its own descriptors only. -/
def Net.recv (g : Net) (X : Side) (f : Fate) : Recv × Net :=
  match f.errno with
  | some e => (.failed e.text, g.set X (g.host X).refuse)
  | none =>
    match (g.host X.peer).sent[(g.host X).taken]? with
    | some w =>
      if h : (g.host X).Free f.fd ∧ f.trunc = false then
        (.msg (delivered w.bytes w.tag f.fd h.1.1), g.set X { (g.host X).tick with
          taken := (g.host X).taken + 1, tab := (f.fd, w.obj) :: (g.host X).tab })
      else
        (.msg (truncated w.bytes w.tag), g.set X { (g.host X).refuse with
          taken := (g.host X).taken + 1 })
    | none =>
      (if (g.host X.peer).closed then .msg endOfStream else .failed eagain.text,
        g.set X { (g.host X).tick with starved := true })

/-- `sendmsg`: a reference to the object goes to the peer. -/
def Net.send (g : Net) (X : Side) (f : Fate) (fd : Int32) (tag : FdTag) : Except Errno ℕ × Net :=
  match f.errno, (g.host X).lookup fd with
  | some e, _ => (.error e, g.set X (g.host X).refuse)
  | none, none => (.error ebadf, g.set X (g.host X).refuse)
  | none, some o =>
    if (g.host X.peer).closed then (.error epipe, g.set X (g.host X).refuse)
    else if f.bytes < 256 then
      (.ok f.bytes, g.set X { (g.host X).refuse with
        sent := (g.host X).sent ++ [⟨f.bytes, tag, o⟩] })
    else (.ok 256, g.set X { (g.host X).tick with sent := (g.host X).sent ++ [⟨256, tag, o⟩] })

/-- An object changed through a descriptor. -/
def Net.modify (g : Net) (o : ℕ) (f : Obj → Obj) : Net := { g with objs := g.objs.modify o f }

/-- The effect of a system call of `X`. -/
def Net.exec (fate : Side → ℕ → Fate) : (c : Side × Call) → Net → c.2.Res × Net
  | (X, .setTimeo true on), g => ((), g.set X { (g.host X).tick with rcvTimeo := on })
  | (X, .setTimeo false on), g => ((), g.set X { (g.host X).tick with sndTimeo := on })
  | (X, .memfdCreate _ sealing), g =>
    g.create X (fate X (g.host X).clock) ⟨X, true, 0, sealing, false, false⟩
  | (X, .eventfd), g => g.create X (fate X (g.host X).clock) ⟨X, false, 0, false, false, false⟩
  | (X, .ftruncate fd size), g =>
    match (fate X (g.host X).clock).errno, (g.host X).lookup fd with
    | some e, _ => (.error e, g.set X (g.host X).refuse)
    | none, none => (.error ebadf, g.set X (g.host X).refuse)
    | none, some o =>
      (.ok (), (g.modify o fun ob => { ob with size := size }).set X (g.host X).tick)
  | (X, .addSeals fd), g =>
    match (fate X (g.host X).clock).errno, (g.host X).lookup fd with
    | none, some o =>
      ((), (g.modify o fun ob => { ob with fixed := ob.sealable }).set X (g.host X).tick)
    | _, _ => ((), g.set X (g.host X).refuse)
  | (X, .close fd), g =>
    ((), g.set X { (g.host X).tick with tab := (g.host X).tab.filter fun p => p.1 ≠ fd })
  | (X, .mmap fd _), g =>
    match (fate X (g.host X).clock).errno, (g.host X).lookup fd with
    | some e, _ => (.error e, g.set X (g.host X).refuse)
    | none, none => (.error ebadf, g.set X (g.host X).refuse)
    | none, some o => (.ok o, g.set X { (g.host X).tick with maps := o :: (g.host X).maps })
  | (X, .munmap a), g => ((), g.set X { (g.host X).tick with maps := (g.host X).maps.erase a })
  | (_, .memset a), g => ((), g.modify a fun ob => { ob with init := true })
  | (X, .sendmsg fd tag), g =>
    (g.set X ((g.host X).wait (g.host X).sndTimeo)).send X (fate X (g.host X).clock) fd tag
  | (X, .recvmsg), g =>
    (g.set X ((g.host X).wait (g.host X).rcvTimeo)).recv X (fate X (g.host X).clock)
  | (X, .closeSocket), g => ((), g.set X { (g.host X).tick with closed := true })

/-! ### The program -/

abbrev KernelM : Type → Type := Prog (Side × Call) fun c => c.2.Res

variable (cap : Capacity) (X : Side)

/-- A system call of `X`. -/
def sys (c : Call) : KernelM c.Res := Prog.cmd (X, c)

/-- `shm_size`. -/
def shmSize : ℕ := 128 + cap.val

/-- `CreateMemfd` behind `memfd_create`. -/
def sizeMemfd (size : ℕ) : Except Errno Int32 → KernelM (Except String Int32)
  | .error e => return .error ("memfd_create: " ++ e.text)
  | .ok fd => do
    match ← sys X (.ftruncate fd size) with
    | .error e =>
      sys X (.close fd)
      return .error ("ftruncate: " ++ e.text)
    | .ok _ =>
      sys X (.addSeals fd)
      return .ok fd

/-- `CreateMemfd`; `EINVAL` is that the kernel knows no seals. -/
def createMemfd (name : String) (size : ℕ) : KernelM (Except String Int32) := do
  match ← sys X (.memfdCreate name true) with
  | .ok fd => sizeMemfd X size (.ok fd)
  | .error e =>
    if e.invalid then
      let r ← sys X (.memfdCreate name false)
      sizeMemfd X size r
    else sizeMemfd X size (.error e)

/-- `CreateEventfd`. -/
def createEventfd : KernelM (Except String Int32) := do
  match ← sys X .eventfd with
  | .error e => return .error ("eventfd: " ++ e.text)
  | .ok fd => return .ok fd

/-- The constructor of `MmapRegion`. -/
def mmapRegion (fd : Int32) : KernelM (Except String ℕ) := do
  match ← sys X (.mmap fd (shmSize cap)) with
  | .error e => return .error ("mmap: " ++ e.text)
  | .ok a => return .ok a

/-- `RingChannel`; `none` is `-1` or `MAP_FAILED`. -/
structure Chan where
  writeMemfd : Option Int32
  writeRegion : Option ℕ
  readMemfd : Option Int32
  readRegion : Option ℕ
  notifyWrite : Option Int32
  notifyRead : Option Int32
  deriving DecidableEq, Repr

/-- A default-constructed channel. -/
def Chan.empty : Chan := ⟨none, none, none, none, none, none⟩

/-- `~UniqueFd`. -/
def closeFd : Option Int32 → KernelM Unit
  | some fd => sys X (.close fd)
  | none => return ()

/-- `~MmapRegion`. -/
def unmap : Option ℕ → KernelM Unit
  | some a => sys X (.munmap a)
  | none => return ()

/-- `~RingChannel`: the members in reverse order. -/
def Chan.destroy (ch : Chan) : KernelM Unit := do
  closeFd X ch.notifyRead
  closeFd X ch.notifyWrite
  unmap X ch.readRegion
  closeFd X ch.readMemfd
  unmap X ch.writeRegion
  closeFd X ch.writeMemfd

/-- The channel as far as a step has got, with what it threw. -/
abbrev Partial : Type := Option String × Chan

/-- The next step, unless one has thrown. -/
def andThen (r : Partial) (k : Chan → KernelM Partial) : KernelM Partial :=
  match r.1 with
  | some e => return (some e, r.2)
  | none => k r.2

/-- `CreateWriteRing`. -/
def createWriteRing (name : String) (ch : Chan) : KernelM Partial := do
  match ← createMemfd X name (shmSize cap) with
  | .error e => return (some e, ch)
  | .ok fd =>
    let ch := { ch with writeMemfd := some fd }
    match ← mmapRegion cap X fd with
    | .error e => return (some e, ch)
    | .ok a =>
      sys X (.memset a)
      return (none, { ch with writeRegion := some a })

/-- The assignment of `notify_read_efd_`. -/
def createNotify (ch : Chan) : KernelM Partial := do
  match ← createEventfd X with
  | .error e => return (some e, ch)
  | .ok fd => return (none, { ch with notifyRead := some fd })

/-- `SendFd`. -/
def sendFd (fd : Int32) (tag : FdTag) : KernelM (Option String) := do
  match ← sys X (.sendmsg fd tag) with
  | .error e => return some ("sendmsg: " ++ e.text)
  | .ok n => if n < 256 then return some "sendmsg: partial send" else return none

/-- `SendLocalFds`. -/
def sendLocalFds (ch : Chan) : KernelM Partial := do
  match ← sendFd X (ch.writeMemfd.getD (-1)) kMemfd with
  | some e => return (some e, ch)
  | none =>
    let r ← sendFd X (ch.notifyRead.getD (-1)) kEventfd
    return (r, ch)

/-- The descriptors that `RecvFd` and `RecvFdExpect` close. -/
def closeAll : List Int32 → KernelM Unit
  | [] => return ()
  | fd :: l => do
    sys X (.close fd)
    closeAll l

/-- `RecvFdExpect`. -/
def recvExpect (tag : FdTag) : KernelM (Except String Int32) := do
  let r ← sys X .recvmsg
  closeAll X (recvFdExpect tag r).closed
  return (recvFdExpect tag r).result

/-- `RecvPeerFds`. -/
def recvPeer (ch : Chan) : KernelM Partial := do
  match ← recvExpect X kMemfd with
  | .error e => return (some e, ch)
  | .ok fd =>
    let ch := { ch with readMemfd := some fd }
    match ← mmapRegion cap X fd with
    | .error e => return (some e, ch)
    | .ok a =>
      let ch := { ch with readRegion := some a }
      match ← recvExpect X kEventfd with
      | .error e => return (some e, ch)
      | .ok efd => return (none, { ch with notifyWrite := some efd })

/-- The two orders of `CreateRingChannel`. -/
def roles : KernelM Partial :=
  match X with
  | .client => do
    let r ← createWriteRing cap .client "client_to_server" .empty
    let r ← andThen r (createNotify .client)
    let r ← andThen r (sendLocalFds .client)
    andThen r (recvPeer cap .client)
  | .server => do
    let r ← recvPeer cap .server .empty
    let r ← andThen r (createWriteRing cap .server "server_to_client")
    let r ← andThen r (createNotify .server)
    andThen r (sendLocalFds .server)

/-- `CreateRingChannel`, with `HandshakeGuard` around it. -/
def createRingChannel : KernelM (Except String Chan) := do
  sys X (.setTimeo true true)
  sys X (.setTimeo false true)
  let r ← roles cap X
  sys X (.setTimeo true false)
  sys X (.setTimeo false false)
  match r.1 with
  | some e =>
    r.2.destroy X
    return .error e
  | none => return .ok r.2

/-- A process: before the call, or with its result. -/
abbrev Loc : Type := Option (Except String Chan)

/-- What a process does: `CreateRingChannel`, and the socket is closed if it throws. -/
inductive Session : Loc → Net → KernelM Loc → Prop
  | create {g : Net} :
      Session none g (do
        let r ← createRingChannel cap X
        match r with
        | .error e =>
          sys X .closeSocket
          return some (.error e)
        | .ok ch => return some (.ok ch))

end ShmIpc.Conn.Exchange
