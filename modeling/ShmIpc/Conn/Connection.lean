import ShmIpc.Conn.SendCmd
import ShmIpc.Lib.Reentrant

/-! # The connection object: `shm_connection.hpp`

The methods of `ShmConnection` as programs over a world of connections, the entries of the event
loop and a log of what happened; `O` is the state of whoever owns the connections. What the outside
decides is asked for: what a turn of `DrainRing` finds in the ring, whether `WriteRaw` finds space,
which descriptor the kernel hands out. A callback is a command that hands control to the
application, which returns from it or throws.

`Touch` lists what the methods do to a connection between two callbacks; a property that it keeps is
kept by the methods. -/

namespace ShmIpc.Conn.Connection

open ShmIpc.Lib.RelyGuarantee ShmIpc.Lib.Reentrant Relation
open ShmIpc.Conn.DrainRing ShmIpc.Conn.SendCmd

/-! ### The world -/

/-- `comm::CloseType`. -/
inductive CloseType : Type
  | unknow
  | active
  | passive
  | keepLiveTimeOut
  deriving DecidableEq, Repr

/-- The members of a `ShmConnection`; of the callbacks, whether they are set, and of the contexts,
whether they hold a value. `verifyTimer` is `0` without a timer. -/
structure ShmConn where
  state : TcpConnStates
  closeType : CloseType
  codec : Bool
  verifycb : Bool
  connectioncb : Bool
  messagecb : Bool
  closecb : Bool
  keepalive : Bool
  context : Bool
  rpcContext : Bool
  verifyTimer : ℕ
  notifyFd : ℕ
  socketFd : ℕ
  deriving DecidableEq, Repr

/-- A connection as the constructor leaves it. -/
def ShmConn.new (notifyFd socketFd : ℕ) : ShmConn where
  state := .closeed
  closeType := .passive
  codec := false
  verifycb := false
  connectioncb := false
  messagecb := false
  closecb := false
  keepalive := false
  context := false
  rpcContext := false
  verifyTimer := 0
  notifyFd := notifyFd
  socketFd := socketFd

/-- What the callback of an entry of the event loop does, for which connection. -/
inductive Target : Type
  | verifyTimer (c : ℕ)
  | notify (c : ℕ)
  | socket (c : ℕ)
  | accept
  | handshake
  deriving DecidableEq, Repr

/-- An entry of the event loop. -/
structure Entry where
  fd : ℕ
  target : Target
  dead : Bool
  deriving DecidableEq, Repr

/-- `EventLoop::AddFd`. -/
def addFd (es : List Entry) (fd : ℕ) (t : Target) : List Entry := es ++ [⟨fd, t, false⟩]

/-- `EventLoop::RemoveFd`. -/
def removeFd (es : List Entry) (fd : ℕ) : List Entry :=
  es.map fun e => if e.fd = fd then { e with dead := true } else e

/-- The entries that are dispatched. -/
def live (es : List Entry) : List Entry := es.filter fun e => !e.dead

@[simp] theorem live_addFd (es : List Entry) (fd : ℕ) (t : Target) :
    live (addFd es fd t) = live es ++ [⟨fd, t, false⟩] := by
  simp [live, addFd]

@[simp] theorem live_removeFd (es : List Entry) (fd : ℕ) :
    live (removeFd es fd) = (live es).filter fun e => e.fd ≠ fd := by
  induction es with
  | nil => rfl
  | cons e es ih =>
    simp only [live, removeFd, List.map_cons, List.filter_cons] at ih ⊢
    rw [ih]
    by_cases hfd : e.fd = fd <;> cases hd : e.dead <;> simp [hfd, hd]

theorem mem_live {es : List Entry} {fd : ℕ} {t : Target} :
    ⟨fd, t, false⟩ ∈ live es ↔ ⟨fd, t, false⟩ ∈ es := by
  simp [live]

/-- What the log records of a connection. -/
inductive Event : Type
  /-- the callbacks -/
  | verify (c : ℕ)
  | connection (c : ℕ)
  | message (c : ℕ)
  | close (c : ℕ)
  /-- `Close` or `OnClose` takes effect -/
  | shut (c : ℕ)
  /-- `SendCmd` writes to the ring -/
  | wrote (c : ℕ)
  /-- `SendCmd` returns -/
  | sendCmd (c : ℕ) (ok : Bool)
  /-- a heartbeat is answered -/
  | keepAlive (c : ℕ)
  deriving DecidableEq, Repr

/-- The connections, the event loop, the log and the owner. -/
structure World (O : Type) where
  conns : ℕ → ShmConn
  entries : List Entry
  log : List Event
  owner : O

/-- What the outside is asked for. -/
inductive Query : Type
  /-- a turn of `DrainRing` on a connection, called for a socket event or not -/
  | turn (c : ℕ) (viaSocket : Bool)
  /-- the encoding loop of `SendCmd` or of the heartbeat -/
  | encode
  /-- does `WriteRaw` find space, does a factory or a system call succeed -/
  | succeeds
  /-- a new timer descriptor -/
  | fd
  /-- connect and handshake: the descriptors of the new connection, if they succeed -/
  | channel
  /-- does the codec factory return a codec -/
  | codec
  /-- does `AddFd` throw -/
  | throws
  /-- are there events on the socket, and what `read` returns -/
  | revents
  | read
  /-- the descriptors of the listening server, if it can listen -/
  | listen
  /-- the handshakes that are done -/
  | ready
  /-- the order in which a hash table is gone through -/
  | order
  /-- there is no answer: the program does not go on -/
  | never

/-- The answers. -/
@[reducible] def Query.Res : Query → Type
  | .turn _ _ => Turn Unit
  | .encode => Encoding
  | .succeeds | .codec | .throws | .revents => Bool
  | .fd => ℕ
  | .channel | .listen => Option (ℕ × ℕ)
  | .ready => List (ℕ × ℕ)
  | .read => ℤ
  | .order => List ℕ
  | .never => Empty

/-- The application's callbacks. -/
inductive Callback : Type
  /-- the codec factory -/
  | factory
  | verify (c : ℕ)
  | connection (c : ℕ)
  | message (c : ℕ) (viaSocket : Bool)
  | close (c : ℕ)
  /-- the action of the verify timer -/
  | timer (c : ℕ)
  /-- the client's error callback -/
  | error
  /-- the server's callbacks for its start -/
  | startSuccess
  | startFailed
  deriving DecidableEq, Repr

/-- The commands. -/
inductive Cmd (O : Type) : Type
  | get
  | modify (f : World O → World O)
  | ask (q : Query)
  | callback (x : Callback)

/-- The results; of a callback, whether it throws. -/
@[reducible] def Cmd.Res {O : Type} : Cmd O → Type
  | .get => World O
  | .ask q => q.Res
  | .modify _ => Unit
  | .callback _ => Bool

variable {O : Type}

abbrev ConnM (O : Type) : Type → Type := Throws (Cmd O) Cmd.Res

/-- The command hands control to the application. -/
def Cmd.IsCall : Cmd O → Prop
  | .callback _ => True
  | _ => False

/-- The outside: how it may answer, whether a callback may return and whether it may throw, and
which functions may be called, under the callbacks in progress. -/
structure Env (O : Type) where
  answers : List (Cmd O) → World O → (q : Query) → q.Res → Prop
  returns : List (Cmd O) → World O → Callback → Bool → Prop
  calls : List (Cmd O) → World O → ConnM O Unit → Prop

/-- What a command returns and does. -/
def Cmd.exec (e : Env O) (ks : List (Cmd O)) : (c : Cmd O) → World O → c.Res → World O → Prop
  | .get, w, r, w' => r = w ∧ w' = w
  | .modify f, w, _, w' => w' = f w
  | .ask q, w, r, w' => e.answers ks w q r ∧ w' = w
  | .callback x, w, threw, w' => e.returns ks w x threw ∧ w' = w

/-- The library in its environment. -/
def Env.machine (e : Env O) : Machine (Cmd O) Cmd.Res (World O) where
  isCall := Cmd.IsCall
  exec := Cmd.exec e
  calls ks w p := ∃ q, e.calls ks w q ∧ p = attempt q

def get : ConnM O (World O) := command Cmd.get
def modify (f : World O → World O) : ConnM O Unit := command (Cmd.modify f)
def ask (q : Query) : ConnM O q.Res := command (Cmd.ask q)

/-- Calls back; an exception of the callback goes on to the caller. -/
def callback (x : Callback) : ConnM O Unit := do
  if ← command (Cmd.callback x) then
    throw ()

/-- Undefined behaviour, or a loop beyond the turns that are looked at. -/
def never {α : Type} : ConnM O α := do
  let e ← ask .never
  nomatch e

/-- The world with a connection changed. -/
def World.setConn (w : World O) (c : ℕ) (f : ShmConn → ShmConn) : World O :=
  { w with conns := fun i => if i = c then f (w.conns c) else w.conns i }

/-- The world with an event logged. -/
def World.note (w : World O) (e : Event) : World O := { w with log := w.log ++ [e] }

/-- `Close` takes effect. -/
def World.shutDown (w : World O) (c : ℕ) : World O :=
  (w.setConn c fun x => { x with closeType := .active, state := .closeing }).note (.shut c)

/-- `OnClose` takes effect. -/
def World.closed (w : World O) (c : ℕ) : World O :=
  (w.setConn c fun x => { x with state := .closeed }).note (.shut c)

/-- `OnConnection` with a verify callback, up to it. -/
def World.verifing (w : World O) (c : ℕ) : World O :=
  (w.setConn c fun x => { x with state := .verifing }).note (.verify c)

/-- `OnConnection` without a verify callback, or `OnVerify(true)`. -/
def World.established (w : World O) (c : ℕ) : World O :=
  w.setConn c fun x => { x with state := .established }

/-- `OnClose` drops the contexts. -/
def World.dropContexts (w : World O) (c : ℕ) : World O :=
  w.setConn c fun x => { x with context := false, rpcContext := false }

/-- The timer `tfd` of a connection is removed and forgotten. -/
def World.dropTimer (w : World O) (c tfd : ℕ) : World O :=
  { w with entries := removeFd w.entries tfd }.setConn c fun x => { x with verifyTimer := 0 }

/-- A connection gets the timer `tfd`. -/
def World.addTimer (w : World O) (c tfd : ℕ) : World O :=
  { w with entries := addFd w.entries tfd (.verifyTimer c) }.setConn c
    fun x => { x with verifyTimer := tfd }

section World

variable (w : World O) (c : ℕ) (f : ShmConn → ShmConn) (e : Event) (tfd : ℕ)

@[simp] theorem World.setConn_self : (w.setConn c f).conns c = f (w.conns c) := if_pos rfl
theorem World.setConn_of_ne {i : ℕ} (h : i ≠ c) : (w.setConn c f).conns i = w.conns i := if_neg h
@[simp] theorem World.setConn_entries : (w.setConn c f).entries = w.entries := rfl
@[simp] theorem World.setConn_log : (w.setConn c f).log = w.log := rfl
@[simp] theorem World.setConn_owner : (w.setConn c f).owner = w.owner := rfl
@[simp] theorem World.note_conns : (w.note e).conns = w.conns := rfl
@[simp] theorem World.note_entries : (w.note e).entries = w.entries := rfl
@[simp] theorem World.note_log : (w.note e).log = w.log ++ [e] := rfl
@[simp] theorem World.note_owner : (w.note e).owner = w.owner := rfl

end World

/-! ### The methods -/

/-- `RemoveVerifyTimer`. -/
def removeVerifyTimer (c : ℕ) : ConnM O Unit := do
  let w ← get
  if (w.conns c).verifyTimer ≠ 0 then
    modify fun w => w.dropTimer c (w.conns c).verifyTimer

/-- `Close`. -/
def close (c : ℕ) : ConnM O Unit := do
  let w ← get
  if (w.conns c).state.IsOpen then
    modify fun w => w.shutDown c
  removeVerifyTimer c

/-- `WriteRaw` of `len` bytes, which `e` records. -/
def writeRaw (len : UInt32) (e : Event) : ConnM O Bool := do
  if len = 0 then
    return true
  if ← ask .succeeds then
    modify fun w => w.note e
    return true
  return false

/-- `SendCmd`. -/
def sendCmd (c : ℕ) : ConnM O Bool := do
  let w ← get
  if ¬ (w.conns c).state.IsOpen then
    return false
  if (w.conns c).codec = false then
    return false
  match ← ask .encode with
  | .fault => never
  | .skip => return true
  | .disconnect =>
    close c
    return false
  | .failed => return false
  | .bytes len => writeRaw len (.wrote c)

/-- `SendKeepaliveResponse`: only bytes are written, other results of the codec are dropped. -/
def sendKeepaliveResponse (c : ℕ) : ConnM O Unit := do
  let w ← get
  if (w.conns c).codec = false then
    return
  match ← ask .encode with
  | .fault => never
  | .bytes len =>
    let _ ← writeRaw len (.keepAlive c)
  | .skip | .disconnect | .failed => return

/-- `StartVerifyTimer`. -/
def startVerifyTimer (c : ℕ) : ConnM O Unit := do
  let w ← get
  if (w.conns c).verifyTimer = 0 then
    let tfd ← ask .fd
    modify fun w => w.addTimer c tfd

/-- The callback of the one-shot timer `tfd`: it removes itself, then runs the action. -/
def verifyTimerExpired (c tfd : ℕ) : ConnM O Unit := do
  modify fun w => w.dropTimer c tfd
  callback (.timer c)

/-- `OnConnection`. -/
def onConnection (c : ℕ) : ConnM O Unit := do
  let w ← get
  if (w.conns c).verifycb then
    modify fun w => w.verifing c
    callback (.verify c)
  else
    modify fun w => w.established c
  let w ← get
  if (w.conns c).connectioncb then
    modify fun w => w.note (.connection c)
    callback (.connection c)

/-- `OnMessage`. -/
def onMessage (c : ℕ) (viaSocket : Bool) : ConnM O Unit := do
  let w ← get
  if (w.conns c).messagecb ∧ (w.conns c).state.IsOpen then
    modify fun w => w.note (.message c)
    callback (.message c viaSocket)

/-- `OnVerify`. -/
def onVerify (c : ℕ) (succ : Bool) : ConnM O Unit := do
  removeVerifyTimer c
  if succ then
    modify fun w => w.established c
  else
    close c

/-- `OnClose`. -/
def onClose (c : ℕ) : ConnM O Unit := do
  let w ← get
  if (w.conns c).state ≠ .closeed then
    modify fun w => w.closed c
    if (w.conns c).closecb then
      modify fun w => w.note (.close c)
      callback (.close c)
  modify fun w => w.dropContexts c
  removeVerifyTimer c

/-- The loop of `DrainRing`, for at most `fuel` turns. -/
def drainLoop (c : ℕ) (viaSocket : Bool) : ℕ → ℤ → ConnM O ℤ
  | 0, _ => never
  | fuel + 1, count => do
    match ← ask (.turn c viaSocket) with
    | .fault => never
    | .error => return -1
    | .wait => return count
    | .heartbeat _ =>
      let w ← get
      if (w.conns c).keepalive then
        sendKeepaliveResponse c
      drainLoop c viaSocket fuel count
    | .package _ _ =>
      onMessage c viaSocket
      drainLoop c viaSocket fuel (count + 1)

/-- `DrainRing`; `viaSocket` only tells who called it. -/
def drainRing (c : ℕ) (viaSocket : Bool) (fuel : ℕ) : ConnM O ℤ := do
  let w ← get
  if (w.conns c).codec = false then
    return -1
  drainLoop c viaSocket fuel 0


/-! ### The rules for the commands -/

section Rules

variable {e : Env O} {ρ : Rule (Cmd O) (World O)} {ks : List (Cmd O)} {α : Type}
  {E : World O → Prop} {w : World O}

@[simp] theorem wpx_get {Q : World O → World O → Prop} :
    wpx e.machine ρ ks get Q E w ↔ Q w w := by
  refine (wpx_command (c := Cmd.get) id).trans ⟨fun h => (h w w ⟨rfl, rfl⟩).2, ?_⟩
  rintro h r w' ⟨rfl, rfl⟩
  exact ⟨ρ.refl _ _, h⟩

@[simp] theorem wpx_modify {f : World O → World O} {Q : Unit → World O → Prop} :
    wpx e.machine ρ ks (modify f) Q E w ↔ ρ.guar ks w (f w) ∧ Q () (f w) := by
  refine (wpx_command (c := Cmd.modify f) id).trans ⟨fun h => h () (f w) rfl, ?_⟩
  rintro h r w' rfl
  exact h

@[simp] theorem wpx_ask {q : Query} {Q : q.Res → World O → Prop} :
    wpx e.machine ρ ks (ask q) Q E w ↔ ∀ r, e.answers ks w q r → Q r w := by
  refine (wpx_command (c := Cmd.ask q) id).trans ⟨fun h r hr => (h r w ⟨hr, rfl⟩).2, ?_⟩
  rintro h r w' ⟨hr, rfl⟩
  exact ⟨ρ.refl _ _, h r hr⟩

@[simp] theorem wpx_never {Q : α → World O → Prop} : wpx e.machine ρ ks never Q E w := by
  rw [never, wpx_bind, wpx_ask]
  intro r
  exact r.elim

/-- What the code after a callback starts with. -/
def Rule.After (ρ : Rule (Cmd O) (World O)) (ks : List (Cmd O)) (x : Callback)
    (w w' : World O) : Prop :=
  ρ.guar (.callback x :: ks) w w' ∧ ρ.inv (.callback x :: ks) w'

theorem wpx_callback {x : Callback} {Q : Unit → World O → Prop} :
    wpx e.machine ρ ks (callback x) Q E w ↔ ρ.inv (.callback x :: ks) w ∧
      ∀ w', Rule.After ρ ks x w w' →
        (e.returns ks w' x false → Q () w') ∧ (e.returns ks w' x true → E w') := by
  rw [callback, wpx_bind, wpx_call (c := Cmd.callback x) trivial]
  refine and_congr_right fun _ => ⟨?_, ?_⟩
  · rintro h w' ⟨hG, hI⟩
    exact ⟨fun hr => (h w' hG hI false w' ⟨hr, rfl⟩).2, fun hr => (h w' hG hI true w' ⟨hr, rfl⟩).2⟩
  · rintro h w' hG hI r w'' ⟨hr, rfl⟩
    refine ⟨ρ.refl _ _, ?_⟩
    cases r
    · exact (h w'' ⟨hG, hI⟩).1 hr
    · exact (h w'' ⟨hG, hI⟩).2 hr

/-- **Runs of the library**: what every call keeps holds whenever the application has control, and
every step is within the guarantee. -/
theorem reach_inv (hcalls : ∀ ks w p, ρ.inv ks w → e.calls ks w p →
      wpx e.machine ρ ks p (fun _ => ρ.inv ks) (ρ.inv ks) w)
    {w₀ : World O} (h₀ : ρ.inv [] w₀) {cfg : Config (Cmd O) Cmd.Res (World O)}
    (h : Reach e.machine w₀ cfg) :
    (cfg.run = none → ρ.inv (callbacks cfg.stack) cfg.mem) ∧ ρ.guar [] w₀ cfg.mem := by
  have hok := reach_ok (ρ := ρ) (fun ks w p hI hp => ?_) h₀ h
  · refine ⟨fun hrun => ?_, hok.2⟩
    obtain ⟨mem, run, stack⟩ := cfg
    subst hrun
    exact hok.1.2
  · obtain ⟨q, hq, rfl⟩ := hp
    exact wp_attempt (hcalls ks w q hI hq)

end Rules

/-! ### What the methods do -/

theorem not_closeed {st : TcpConnStates} (h : st.IsOpen) : st ≠ .closeed := by
  rintro rfl
  simp [TcpConnStates.IsOpen] at h

/-- What the methods do to a connection between callbacks. -/
inductive Touch (c : ℕ) : World O → World O → Prop
  | shutDown {w : World O} (h : (w.conns c).state.IsOpen) : Touch c w (w.shutDown c)
  | dropTimer {w : World O} (h : (w.conns c).verifyTimer ≠ 0) :
      Touch c w (w.dropTimer c (w.conns c).verifyTimer)
  | established {w : World O} (h : (w.conns c).state.IsOpen) : Touch c w (w.established c)
  | dropContexts {w : World O} : Touch c w (w.dropContexts c)
  | wrote {w : World O} (h : (w.conns c).state.IsOpen) : Touch c w (w.note (.wrote c))
  | keepAlive {w : World O} : Touch c w (w.note (.keepAlive c))

theorem Touch.owner {c : ℕ} {w w' : World O} (h : Touch c w w') : w'.owner = w.owner := by
  cases h <;> rfl

/-- `J` survives what the methods do. -/
def Kept (ρ : Rule (Cmd O) (World O)) (ks : List (Cmd O)) (c : ℕ) (J : World O → Prop) : Prop :=
  ∀ w w', J w → Touch c w w' → ρ.guar ks w w' ∧ J w'

section Methods

variable {e : Env O} {ρ : Rule (Cmd O) (World O)} {ks : List (Cmd O)} {c : ℕ}
  {J E : World O → Prop} {w : World O}

theorem removeVerifyTimer_keeps (hJ : Kept ρ ks c J) (h : J w) :
    wpx e.machine ρ ks (removeVerifyTimer c) (fun _ => J) E w := by
  simp only [removeVerifyTimer, wpx_bind, wpx_get, wpx_ite, wpx_modify, wpx_pure]
  exact ⟨fun ht => hJ _ _ h (.dropTimer ht), fun _ => h⟩

theorem close_keeps (hJ : Kept ρ ks c J) (h : J w) :
    wpx e.machine ρ ks (close c) (fun _ => J) E w := by
  simp only [close, wpx_bind, wpx_get, wpx_ite, wpx_modify]
  refine ⟨fun ho => ?_, fun _ => removeVerifyTimer_keeps hJ h⟩
  have h1 := hJ _ _ h (.shutDown ho)
  exact ⟨h1.1, removeVerifyTimer_keeps hJ h1.2⟩

theorem writeRaw_keeps {len : UInt32} {ev : Event} {Q : Bool → World O → Prop}
    (h : ∀ b, Q b w) (hG : ρ.guar ks w (w.note ev)) (hw : Q true (w.note ev)) :
    wpx e.machine ρ ks (writeRaw len ev) Q E w := by
  rw [writeRaw, wpx_ite, wpx_bind]
  refine ⟨fun _ => h true, fun _ => wpx_ask.mpr fun b _ => ?_⟩
  rw [wpx_ite, wpx_bind, wpx_modify]
  exact ⟨fun _ => ⟨hG, hw⟩, fun _ => h false⟩

/-- `SendCmd` returns `true` only on an open connection. -/
theorem sendCmd_keeps (hJ : Kept ρ ks c J) (h : J w) :
    wpx e.machine ρ ks (sendCmd c)
      (fun ok w' => J w' ∧ (ok = true → (w'.conns c).state.IsOpen)) E w := by
  rw [sendCmd, wpx_bind, wpx_get, wpx_ite, wpx_ite, wpx_bind]
  refine ⟨fun _ => ⟨h, nofun⟩, fun ho => ⟨fun _ => ⟨h, nofun⟩, fun _ => ?_⟩⟩
  rw [not_not] at ho
  refine wpx_ask.mpr fun r _ => ?_
  cases r with
  | fault => exact wpx_never
  | skip => exact ⟨h, fun _ => ho⟩
  | disconnect =>
    refine wpx_bind.mpr (wpx_mono (fun _ w' hw' => ?_) (fun _ h => h) (close_keeps hJ h))
    exact ⟨hw', nofun⟩
  | failed => exact ⟨h, nofun⟩
  | bytes len =>
    have h1 := hJ _ _ h (.wrote ho)
    exact writeRaw_keeps (fun _ => ⟨h, fun _ => ho⟩) h1.1 ⟨h1.2, fun _ => ho⟩

theorem sendKeepaliveResponse_keeps (hJ : Kept ρ ks c J) (h : J w) :
    wpx e.machine ρ ks (sendKeepaliveResponse c) (fun _ => J) E w := by
  rw [sendKeepaliveResponse, wpx_bind, wpx_get, wpx_ite, wpx_bind]
  refine ⟨fun _ => h, fun _ => wpx_ask.mpr fun r _ => ?_⟩
  cases r with
  | fault => exact wpx_never
  | bytes len =>
    have h1 := hJ _ _ h .keepAlive
    exact wpx_bind.mpr (writeRaw_keeps (fun _ => h) h1.1 h1.2)
  | skip | disconnect | failed => exact h

/-- `OnVerify`, where `OnVerify(true)` is all right. -/
theorem onVerify_keeps_of {succ : Bool} (hJ : Kept ρ ks c J) (h : J w)
    (hs : succ = true → ∀ w', J w' → (w'.conns c).state = (w.conns c).state →
      ρ.guar ks w' (w'.established c) ∧ J (w'.established c)) :
    wpx e.machine ρ ks (onVerify c succ) (fun _ => J) E w := by
  have hK : ∀ w', J w' → (w'.conns c).state = (w.conns c).state →
      wpx e.machine ρ ks (if succ then modify fun w => w.established c else close c)
        (fun _ => J) E w' := by
    intro w' h' hst
    rw [wpx_ite, wpx_modify]
    exact ⟨fun h1 => hs h1 w' h' hst, fun _ => close_keeps hJ h'⟩
  simp only [onVerify, removeVerifyTimer, wpx_bind, wpx_get, wpx_ite (c := _ ≠ _), wpx_modify,
    wpx_pure]
  refine ⟨fun ht => ?_, fun _ => hK w h rfl⟩
  have h1 := hJ _ _ h (.dropTimer ht)
  exact ⟨h1.1, hK _ h1.2 (by simp [World.dropTimer, World.setConn])⟩

/-- `OnVerify(true)` on an open connection, or `OnVerify(false)`. -/
theorem onVerify_keeps {succ : Bool} (hJ : Kept ρ ks c J) (h : J w)
    (hs : succ = true → (w.conns c).state.IsOpen) :
    wpx e.machine ρ ks (onVerify c succ) (fun _ => J) E w :=
  onVerify_keeps_of hJ h fun h1 w' h' hst => hJ w' _ h' (.established (hst ▸ hs h1))

/-- `StartVerifyTimer`, where a new timer is all right. -/
theorem startVerifyTimer_keeps (h : J w)
    (ht : ∀ tfd, e.answers ks w .fd tfd → ρ.guar ks w (w.addTimer c tfd) ∧ J (w.addTimer c tfd)) :
    wpx e.machine ρ ks (startVerifyTimer c) (fun _ => J) E w := by
  rw [startVerifyTimer, wpx_bind, wpx_get, wpx_ite, wpx_bind]
  refine ⟨fun _ => wpx_ask.mpr fun tfd ha => ?_, fun _ => h⟩
  exact wpx_modify.mpr (ht tfd ha)

/-- `OnClose`: it acts on a connection that is not closed, and then calls back. -/
theorem onClose_keeps (hJ : Kept ρ ks c J) (h₀ : (w.conns c).state = .closeed → J w)
    (h₁ : (w.conns c).state ≠ .closeed → ρ.guar ks w (w.closed c) ∧
      ((w.conns c).closecb = false → J (w.closed c)) ∧
      ((w.conns c).closecb = true →
        ρ.guar ks (w.closed c) ((w.closed c).note (.close c)) ∧
        ρ.inv (.callback (.close c) :: ks) ((w.closed c).note (.close c)) ∧
        ∀ w', Rule.After ρ ks (.close c) ((w.closed c).note (.close c)) w' → J w')) :
    wpx e.machine ρ ks (onClose c) (fun _ => J) J w := by
  have htail : ∀ w', J w' → ρ.guar ks w' (w'.dropContexts c) ∧
      wpx e.machine ρ ks (removeVerifyTimer c) (fun _ => J) J (w'.dropContexts c) := by
    intro w' h'
    have h1 := hJ _ _ h' .dropContexts
    exact ⟨h1.1, removeVerifyTimer_keeps hJ h1.2⟩
  simp only [onClose, wpx_bind, wpx_get, wpx_ite, wpx_modify, wpx_callback]
  refine ⟨fun hst => ?_, fun hst => htail w (h₀ (not_not.mp hst))⟩
  obtain ⟨hG, hno, hcb⟩ := h₁ hst
  refine ⟨hG, fun hc => ?_, fun hc => htail _ (hno (by simpa using hc))⟩
  obtain ⟨hG', hI, hret⟩ := hcb hc
  exact ⟨hG', hI, fun w' hw' => ⟨fun _ => htail w' (hret w' hw'), fun _ => hret w' hw'⟩⟩

/-- `OnConnection`: `K` holds between its two callbacks. -/
theorem onConnection_keeps {K : World O → Prop}
    (hv : (w.conns c).verifycb = true → ρ.guar ks w (w.verifing c) ∧
      ρ.inv (.callback (.verify c) :: ks) (w.verifing c) ∧
      ∀ w', Rule.After ρ ks (.verify c) (w.verifing c) w' →
        (e.returns ks w' (.verify c) false → K w') ∧ (e.returns ks w' (.verify c) true → E w'))
    (hn : (w.conns c).verifycb = false → ρ.guar ks w (w.established c) ∧ K (w.established c))
    (hK : ∀ w', K w' → ((w'.conns c).connectioncb = false → J w') ∧
      ρ.guar ks w' (w'.note (.connection c)) ∧
      ρ.inv (.callback (.connection c) :: ks) (w'.note (.connection c)) ∧
      ∀ w'', Rule.After ρ ks (.connection c) (w'.note (.connection c)) w'' →
        (e.returns ks w'' (.connection c) false → J w'') ∧
        (e.returns ks w'' (.connection c) true → E w'')) :
    wpx e.machine ρ ks (onConnection c) (fun _ => J) E w := by
  have hrest : ∀ w', K w' → wpx e.machine ρ ks (do
      let w ← get
      if (w.conns c).connectioncb then
        modify fun w => w.note (.connection c)
        callback (.connection c)) (fun _ => J) E w' := by
    intro w' h'
    simp only [wpx_bind, wpx_get, wpx_ite, wpx_modify, wpx_callback, wpx_pure]
    exact ⟨fun _ => (hK w' h').2, fun hc => (hK w' h').1 (by simpa using hc)⟩
  simp only [onConnection]
  rw [wpx_bind, wpx_get, wpx_ite, wpx_bind, wpx_modify, wpx_bind, wpx_callback, wpx_bind,
    wpx_modify]
  refine ⟨fun h => ?_, fun h => ?_⟩
  · obtain ⟨hG, hI, hret⟩ := hv h
    exact ⟨hG, hI, fun w' hw' => ⟨fun hr => hrest w' ((hret w' hw').1 hr), (hret w' hw').2⟩⟩
  · obtain ⟨hG, h1⟩ := hn (by simpa using h)
    exact ⟨hG, hrest _ h1⟩

variable {viaSocket : Bool}

/-- A package may be given to the message callback of `c`, and `J` holds again after it. -/
def Delivers (ρ : Rule (Cmd O) (World O)) (ks : List (Cmd O)) (c : ℕ) (viaSocket : Bool)
    (J : World O → Prop) : Prop :=
  ∀ w, J w → (w.conns c).state.IsOpen → ρ.guar ks w (w.note (.message c)) ∧
    ρ.inv (.callback (.message c viaSocket) :: ks) (w.note (.message c)) ∧
    ∀ w', Rule.After ρ ks (.message c viaSocket) (w.note (.message c)) w' → J w'

theorem onMessage_keeps (hm : Delivers ρ ks c viaSocket J) (h : J w) :
    wpx e.machine ρ ks (onMessage c viaSocket) (fun _ => J) J w := by
  simp only [onMessage, wpx_bind, wpx_get, wpx_ite, wpx_modify, wpx_callback, wpx_pure]
  refine ⟨fun ho => ?_, fun _ => h⟩
  obtain ⟨hG, hI, hret⟩ := hm w h ho.2
  exact ⟨hG, hI, fun w' hw' => ⟨fun _ => hret w' hw', fun _ => hret w' hw'⟩⟩

/-- The loop of `DrainRing`; it returns `-1` only where a turn finds an error. -/
theorem drainLoop_keeps {X : World O → Prop} (hJ : Kept ρ ks c J)
    (hm : Delivers ρ ks c viaSocket J)
    (hX : ∀ w, J w → e.answers ks w (.turn c viaSocket) .error → X w) :
    ∀ (fuel : ℕ) {n : ℤ} {w : World O}, 0 ≤ n → J w →
      wpx e.machine ρ ks (drainLoop c viaSocket fuel n)
        (fun n w' => J w' ∧ (n < 0 → X w')) J w
  | 0, _, _, _, _ => wpx_never
  | fuel + 1, n, w, hn, h => by
    rw [drainLoop, wpx_bind, wpx_ask]
    intro r ha
    cases r with
    | fault => exact wpx_never
    | error => exact ⟨h, fun _ => hX w h ha⟩
    | wait => exact ⟨h, fun h' => absurd h' (not_lt.mpr hn)⟩
    | heartbeat len =>
      have hk : ∀ w', J w' → wpx e.machine ρ ks (drainLoop c viaSocket fuel n)
          (fun n w' => J w' ∧ (n < 0 → X w')) J w' :=
        fun w' h' => drainLoop_keeps hJ hm hX fuel hn h'
      simp only [wpx_bind, wpx_get, wpx_ite]
      refine ⟨fun _ => ?_, fun _ => hk w h⟩
      exact wpx_mono (fun _ => hk) (fun _ h => h) (sendKeepaliveResponse_keeps hJ h)
    | package len pkg =>
      rw [wpx_bind]
      refine wpx_mono (fun _ w' h' => ?_) (fun _ h => h) (onMessage_keeps hm h)
      exact drainLoop_keeps hJ hm hX fuel (by omega) h'

/-- `DrainRing`; it returns `-1` without a codec or where a turn finds an error. -/
theorem drainRing_keeps {X : World O → Prop} (hJ : Kept ρ ks c J)
    (hm : Delivers ρ ks c viaSocket J)
    (hX : ∀ w, J w → e.answers ks w (.turn c viaSocket) .error → X w) (h : J w)
    (hc : (w.conns c).codec = false → X w) (fuel : ℕ) :
    wpx e.machine ρ ks (drainRing c viaSocket fuel)
      (fun n w' => J w' ∧ (n < 0 → X w')) J w := by
  simp only [drainRing, wpx_bind, wpx_get, wpx_ite, wpx_pure]
  exact ⟨fun hf => ⟨h, fun _ => hc hf⟩, fun _ => drainLoop_keeps hJ hm hX fuel le_rfl h⟩

end Methods

/-! ### Runs -/

section Runs

variable {e : Env O} {w₀ w : World O} {st : List (Frame (Cmd O) Cmd.Res)}

/-- The program after the commands that need nobody else. -/
def settle : Prog (Cmd O) Cmd.Res Unit → World O → Prog (Cmd O) Cmd.Res Unit × World O
  | .op .get k, w => settle (k w) w
  | .op (.modify f) k, w => settle (k ()) (f w)
  | .op (.ask q) k, w => (.op (.ask q) k, w)
  | .op (.callback x) k, w => (.op (.callback x) k, w)
  | .ret a, w => (.ret a, w)

/-- The configuration in which a program has settled. -/
def settled (p : Prog (Cmd O) Cmd.Res Unit) (w : World O) (st : List (Frame (Cmd O) Cmd.Res)) :
    Config (Cmd O) Cmd.Res (World O) :=
  ⟨(settle p w).2, some (settle p w).1, st⟩

theorem reach_settled : ∀ {p : Prog (Cmd O) Cmd.Res Unit} {w : World O},
    Reach e.machine w₀ ⟨w, some p, st⟩ → Reach e.machine w₀ (settled p w st)
  | .op .get k, w, h => reach_settled (p := k w) (h.tail (.op id ⟨rfl, rfl⟩))
  | .op (.modify f) k, w, h => reach_settled (p := k ()) (w := f w) (h.tail (.op id rfl))
  | .op (.ask _) _, _, h | .op (.callback _) _, _, h | .ret _, _, h => h

/-- A function is called. -/
theorem reach_start (h : Reach e.machine w₀ ⟨w, none, st⟩) (q : ConnM O Unit)
    (hq : e.calls (callbacks st) w q) : Reach e.machine w₀ (settled (attempt q) w st) :=
  reach_settled (h.tail (.start ⟨q, hq, rfl⟩))

/-- A question is answered. -/
theorem reach_answer {q : Query} {k : q.Res → Prog (Cmd O) Cmd.Res Unit}
    (h : Reach e.machine w₀ ⟨w, some (.op (.ask q) k), st⟩) (r : q.Res)
    (hr : e.answers (callbacks st) w q r) : Reach e.machine w₀ (settled (k r) w st) :=
  reach_settled (h.tail (.op id ⟨hr, rfl⟩))

/-- A callback is entered. -/
theorem reach_enter {x : Callback} {k : Bool → Prog (Cmd O) Cmd.Res Unit}
    (h : Reach e.machine w₀ ⟨w, some (.op (.callback x) k), st⟩) :
    Reach e.machine w₀ ⟨w, none, ⟨.callback x, k⟩ :: st⟩ :=
  h.tail (.call trivial)

/-- A callback returns, or throws. -/
theorem reach_leave {x : Callback} {k : Bool → Prog (Cmd O) Cmd.Res Unit}
    (h : Reach e.machine w₀ ⟨w, none, ⟨.callback x, k⟩ :: st⟩) (threw : Bool)
    (hr : e.returns (callbacks st) w x threw) : Reach e.machine w₀ (settled (k threw) w st) :=
  reach_settled (h.tail (.back ⟨hr, rfl⟩))

/-- A function returns. -/
theorem reach_done (h : Reach e.machine w₀ ⟨w, some (.ret ()), st⟩) :
    Reach e.machine w₀ ⟨w, none, st⟩ :=
  h.tail .done

end Runs

end ShmIpc.Conn.Connection
