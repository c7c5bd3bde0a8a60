import ShmIpc.Conn.Connection

/-! # The client: `shm_async_client.hpp`

`ShmAsyncClient` over the connection objects: `Connect` makes a connection and registers its two
descriptors, `Close` and the handlers of the event loop tear the current one down. The callbacks may
call `Connect` and `Close` again, in any order.

The handlers keep the connection they were called for across `DrainRing`, but `Teardown` acts on the
one that is current when it is called. A run in which an event of an old connection tears down a new
one has to pass one of three points: a reconnect under a message callback of `OnSocket`, a reject of
leftover bytes by `OnNotify` after a reconnect, an exception out of `Connect` once `conn_` is set.
Without these no new connection is harmed, and each of them alone is enough for harm
(`harmless_iff`). The handler of `Connect` only resets the state, so the last of the three also
leaves a closed client with a connection (`consistent_iff`). -/

namespace ShmIpc.Conn.AsyncClient

open ShmIpc.Lib.RelyGuarantee ShmIpc.Lib.Reentrant
open ShmIpc.Conn.DrainRing ShmIpc.Conn.Connection

/-! ### The client -/

/-- `comm::TcpClientStates`. -/
inductive TcpClientStates : Type
  | established
  | connecting
  | closeing
  | close
  deriving DecidableEq, Repr

/-- The members of the client; of the callbacks that may be missing and of the context, whether they
are set. The last four fields are not in the source: the connections made so far, the connections
torn down, each with the connection of the handler that did it (`none` for `Close`), the connections
established since the last handler began and not closed by `Close`, and what the error callback
found whenever it was called: the state, the connection and the live entries. -/
structure Client where
  state : TcpClientStates
  conn : Option ℕ
  verifycb : Bool
  errorcb : Bool
  context : Bool
  next : ℕ
  torn : List (Option ℕ × ℕ)
  since : List ℕ
  failures : List (TcpClientStates × Option ℕ × List Entry)
  deriving DecidableEq, Repr

/-- The world with the client changed. -/
def withClient (w : World Client) (f : Client → Client) : World Client :=
  { w with owner := f w.owner }

/-- The client in another state. -/
def setState (st : TcpClientStates) (w : World Client) : World Client :=
  withClient w fun x => { x with state := st }

/-- The connection that `Connect` makes. -/
def newConn (x : Client) (fds : ℕ × ℕ) : ShmConn :=
  { ShmConn.new fds.1 fds.2 with
    codec := true
    verifycb := x.verifycb
    connectioncb := true
    messagecb := true
    closecb := true
    context := x.context }

/-- `Connect` up to `conn_ = conn`. -/
def made (w : World Client) (fds : ℕ × ℕ) : World Client :=
  withClient (w.setConn w.owner.next fun _ => newConn w.owner fds) fun x =>
    { x with conn := some x.next, next := x.next + 1 }

/-- `AddFd`, which may throw. -/
def register (fd : ℕ) (t : Target) : ConnM Client Unit := do
  if ← ask .throws then
    throw ()
  modify fun w => { w with entries := addFd w.entries fd t }

/-- The `try` block of `Connect`. -/
def connectTry : ConnM Client Unit := do
  match ← ask .channel with
  | none => throw ()
  | some fds =>
    callback .factory
    if ← ask .codec then
      let w ← get
      let c := w.owner.next
      modify fun w => made w fds
      register fds.1 (.notify c)
      register fds.2 (.socket c)
      modify fun w => withClient w fun x =>
        { x with state := .established, since := x.since ++ [c] }
      onConnection c
    else
      throw ()

/-- The error callback is about to be called. -/
def failed (w : World Client) : World Client :=
  withClient w fun x =>
    { x with failures := x.failures ++ [(x.state, x.conn, live w.entries)] }

/-- `Connect`. -/
def connect : ConnM Client Unit := do
  let w ← get
  if w.owner.state = .connecting ∨ w.owner.state = .established then
    return
  modify (setState .connecting)
  tryCatch connectTry fun _ => do
    modify (setState .close)
    if w.owner.errorcb then
      modify failed
      callback .error

/-- `Teardown` up to `OnClose`, called from the handler for a connection or from `Close`. -/
def released (handler : Option ℕ) (c : ℕ) (w : World Client) : World Client :=
  withClient
    { w with entries := removeFd (removeFd w.entries (w.conns c).notifyFd) (w.conns c).socketFd }
    fun x => { x with
      conn := none
      torn := x.torn ++ [(handler, c)]
      since := if handler = none then x.since.filter (· ≠ c) else x.since }

/-- `Teardown`. -/
def teardown (handler : Option ℕ) : ConnM Client Unit := do
  let w ← get
  if w.owner.state = .close then
    return
  modify (setState .close)
  match w.owner.conn with
  | none => return
  | some c =>
    modify (released handler c)
    onClose c

/-- `Close` of the client. -/
def closeClient : ConnM Client Unit := do
  let w ← get
  if w.owner.state ≠ .established then
    return
  modify (setState .closeing)
  match w.owner.conn with
  | none => teardown none
  | some c =>
    close c
    teardown none

/-- `SendCmd` of the client. -/
def sendCmdClient : ConnM Client Bool := do
  let w ← get
  match w.owner.conn with
  | none => return false
  | some c => if w.owner.state = .established then sendCmd c else return false

/-- A handler begins. -/
def handlerBegun (w : World Client) : World Client := withClient w fun x => { x with since := [] }

/-- `OnNotify`, invoked for an entry of connection `c`. -/
def onNotify (c fuel : ℕ) : ConnM Client Unit := do
  modify handlerBegun
  let w ← get
  match w.owner.conn with
  | none => return
  | some conn =>
    let n ← drainRing conn false fuel
    let w ← get
    if n < 0 ∨ (w.conns conn).state = .closeing then
      teardown (some c)

/-- `OnSocket`, invoked for an entry of connection `c`. -/
def onSocket (c fuel : ℕ) : ConnM Client Unit := do
  modify handlerBegun
  let w ← get
  match w.owner.conn with
  | none => return
  | some conn =>
    if ← ask .revents then
      let n ← ask .read
      if n ≤ 0 then
        let _ ← drainRing conn true fuel
        teardown (some c)

/-! ### The runs -/

/-- The calls: those of the application at any time, the handlers from the event loop. -/
inductive Calls (ks : List (Cmd Client)) (w : World Client) : ConnM Client Unit → Prop
  | connect : Calls ks w connect
  | closeClient : Calls ks w closeClient
  | sendCmdClient : Calls ks w (do let _ ← sendCmdClient)
  | close (c : ℕ) : Calls ks w (close c)
  | sendCmd (c : ℕ) : Calls ks w (do let _ ← sendCmd c)
  | onVerify (c : ℕ) (succ : Bool) (h : succ = true → (w.conns c).state.IsOpen) :
      Calls ks w (onVerify c succ)
  | onNotify (fd c fuel : ℕ) (hks : ks = []) (h : ⟨fd, .notify c, false⟩ ∈ w.entries) :
      Calls ks w (onNotify c fuel)
  | onSocket (fd c fuel : ℕ) (hks : ks = []) (h : ⟨fd, .socket c, false⟩ ∈ w.entries) :
      Calls ks w (onSocket c fuel)

/-- What a run may do: let `Connect` succeed under a message callback of `OnSocket`, reject bytes
in `OnNotify` after the connection was replaced, throw inside `Connect` once `conn_` is set. -/
structure Allowed where
  reconnect : Bool
  reject : Bool
  throws : Bool

/-- Any ring, any codec, any application, within what is allowed. -/
def env (a : Allowed) : Env Client where
  answers ks w q r :=
    match q, r with
    | .channel, some fds => fds.1 ≠ fds.2
    | .codec, true => a.reconnect = true ∨ ∀ c, Cmd.callback (.message c true) ∉ ks
    | .turn c false, .error =>
      a.reject = true ∨ w.owner.conn = none ∨ w.owner.conn = some c
    | .throws, threw => a.throws = true ∨ threw = false
    | _, _ => True
  returns _ _ x threw :=
    match x with
    | .verify _ | .connection _ => a.throws = true ∨ threw = false
    | _ => True
  calls ks w p := Calls ks w p

/-- A client before its first `Connect`. -/
def initial (verifycb errorcb context : Bool) : World Client where
  conns _ := ShmConn.new 0 0
  entries := []
  log := []
  owner := ⟨.close, none, verifycb, errorcb, context, 0, [], [], []⟩

/-- A handler only tears down the connection it was invoked for. -/
def OwnOnly (w : World Client) : Prop := ∀ x ∈ w.owner.torn, ∀ c, x.1 = some c → x.2 = c

/-- The connections established since the last handler began, and not closed by `Close`, are the
client's, with live entries. -/
def StillThere (w : World Client) : Prop :=
  ∀ c ∈ w.owner.since, w.owner.conn = some c ∧ w.owner.state = .established ∧
    ⟨(w.conns c).notifyFd, .notify c, false⟩ ∈ w.entries ∧
    ⟨(w.conns c).socketFd, .socket c, false⟩ ∈ w.entries

/-- No event of an old connection harms a new one. -/
def Harmless (a : Allowed) : Prop :=
  ∀ verifycb errorcb context cfg,
    Reach (env a).machine (initial verifycb errorcb context) cfg →
      OwnOnly cfg.mem ∧ (cfg.run = none → StillThere cfg.mem)

/-- State, connection and event loop agree: established means that there is a connection, which
means that there are two live entries, those of the connection. -/
def Represents (w : World Client) : Prop :=
  (w.owner.state = .established ↔ w.owner.conn ≠ none) ∧
  (w.owner.conn ≠ none ↔ (live w.entries).length = 2) ∧
  ∀ c, w.owner.conn = some c → live w.entries =
    [⟨(w.conns c).notifyFd, .notify c, false⟩, ⟨(w.conns c).socketFd, .socket c, false⟩]

/-- The error callback always finds the client closed, without a connection and without entries. -/
def CleanFailures (w : World Client) : Prop := ∀ f ∈ w.owner.failures, f = (.close, none, [])

/-- Whenever the application or the event loop has control the client is as it should be, and so it
was at every call of the error callback. -/
def Consistent (a : Allowed) : Prop :=
  ∀ verifycb errorcb context cfg,
    Reach (env a).machine (initial verifycb errorcb context) cfg →
      (cfg.run = none → Represents cfg.mem) ∧ CleanFailures cfg.mem

/-! ### The invariant -/

/-- Neither of the two that let an event of an old connection come to a new one. -/
def Allowed.Strict (a : Allowed) : Prop := a.reconnect = false ∧ a.reject = false

/-- Whenever the application has control, under the callbacks `ks`. -/
structure ClientInv (a : Allowed) (ks : List (Cmd Client)) (w : World Client) : Prop where
  idle : w.owner.conn = none → w.owner.state ≠ .established ∧ w.owner.state ≠ .closeing ∧
    live w.entries = []
  linked : ∀ c, w.owner.conn = some c → w.owner.state = .established ∧ c < w.owner.next ∧
    live w.entries =
      [⟨(w.conns c).notifyFd, .notify c, false⟩, ⟨(w.conns c).socketFd, .socket c, false⟩]
  connecting : w.owner.state = .connecting ↔ Cmd.callback .factory ∈ ks
  others : ∀ c, w.owner.conn ≠ some c → (w.conns c).state = .closeed
  timers : ∀ c, (w.conns c).verifyTimer = 0
  failures : CleanFailures w
  since : a.Strict → ∀ c ∈ w.owner.since, w.owner.conn = some c
  own : a.Strict → OwnOnly w
  handled : ∀ c b, Cmd.callback (.message c b) ∈ ks → c < w.owner.next ∧ c ∉ w.owner.since
  draining : a.reconnect = false → ∀ c, Cmd.callback (.message c true) ∈ ks →
    w.owner.conn = none ∨ w.owner.conn = some c

/-- What no step undoes. -/
def Sound (a : Allowed) (w : World Client) : Prop := (a.Strict → OwnOnly w) ∧ CleanFailures w

/-- The rule: teardowns by handlers and calls of the error callback are right at every step. -/
def rule (a : Allowed) : Rule (Cmd Client) (World Client) where
  guar _ w w' := Sound a w → Sound a w'
  inv := ClientInv a
  refl _ _ h := h
  trans _ _ _ _ h h' hw := h' (h hw)
  mono _ _ _ _ h := h

section Invariant

variable {a : Allowed} {ks : List (Cmd Client)} {w w' : World Client} {x : Callback} {c : ℕ}

theorem ClientInv.sound (h : ClientInv a ks w) : Sound a w := ⟨h.own, h.failures⟩

/-- Only the codec factory and the message callbacks matter among those in progress. -/
theorem ClientInv.under {ks' : List (Cmd Client)} (h : ClientInv a ks w)
    (hf : Cmd.callback .factory ∈ ks' ↔ Cmd.callback .factory ∈ ks)
    (hm : ∀ c b, Cmd.callback (.message c b) ∈ ks' → Cmd.callback (.message c b) ∈ ks) :
    ClientInv a ks' w :=
  { h with
    connecting := h.connecting.trans hf.symm
    handled := fun c b hc => h.handled c b (hm c b hc)
    draining := fun ha c hc => h.draining ha c (hm c true hc) }

theorem mem_callback_cons {y : Callback} (hy : y ≠ x) :
    (Cmd.callback y : Cmd Client) ∈ Cmd.callback x :: ks ↔ Cmd.callback y ∈ ks := by
  refine List.mem_cons.trans (or_iff_right fun he => hy ?_)
  exact Cmd.callback.inj he

theorem ClientInv.pop (h : ClientInv a (.callback x :: ks) w) (hx : x ≠ .factory) :
    ClientInv a ks w :=
  h.under (mem_callback_cons hx.symm).symm fun _ _ => List.mem_cons_of_mem _

theorem ClientInv.push (h : ClientInv a ks w) (hx : x ≠ .factory) (hm : ∀ c b, x ≠ .message c b) :
    ClientInv a (.callback x :: ks) w :=
  h.under (mem_callback_cons hx.symm) fun c b => (mem_callback_cons (hm c b).symm).mp

/-- A closed connection stays closed and the rest of it stays. -/
def Tame (x x' : ShmConn) : Prop :=
  x'.notifyFd = x.notifyFd ∧ x'.socketFd = x.socketFd ∧ x'.verifyTimer = x.verifyTimer ∧
    (x.state = .closeed → x'.state = .closeed)

theorem Tame.refl (x : ShmConn) : Tame x x := ⟨rfl, rfl, rfl, id⟩

theorem tame_setConn {f : ShmConn → ShmConn} (h : Tame (w.conns c) (f (w.conns c))) (i : ℕ) :
    Tame (w.conns i) ((w.setConn c f).conns i) := by
  by_cases hi : i = c
  · rw [hi, World.setConn_self]
    exact h
  · rw [World.setConn_of_ne w c f hi]
    exact .refl _

theorem ClientInv.tame (h : ClientInv a ks w) (ho : w'.owner = w.owner)
    (he : w'.entries = w.entries) (hc : ∀ i, Tame (w.conns i) (w'.conns i)) :
    ClientInv a ks w' where
  idle := by rw [ho, he]; exact h.idle
  linked c := by rw [ho, he, (hc c).1, (hc c).2.1]; exact h.linked c
  connecting := by rw [ho]; exact h.connecting
  others c := by rw [ho]; exact fun hn => (hc c).2.2.2 (h.others c hn)
  timers c := (hc c).2.2.1.trans (h.timers c)
  failures := by rw [CleanFailures, ho]; exact h.failures
  since := by rw [ho]; exact h.since
  own := by rw [OwnOnly, ho]; exact h.own
  handled := by rw [ho]; exact h.handled
  draining := by rw [ho]; exact h.draining

theorem ClientInv.note (h : ClientInv a ks w) (e : Event) : ClientInv a ks (w.note e) :=
  h.tame rfl rfl fun _ => .refl _

/-- The methods of the connections keep it. -/
theorem ClientInv.touch (h : ClientInv a ks w) (ht : Touch c w w') : ClientInv a ks w' := by
  cases ht with
  | shutDown ho =>
    have h1 : ClientInv a ks
        (w.setConn c fun x => { x with closeType := .active, state := .closeing }) :=
      h.tame rfl rfl (tame_setConn ⟨rfl, rfl, rfl, fun hc => absurd hc (not_closeed ho)⟩)
    exact h1.note _
  | dropTimer hne => exact absurd (h.timers c) hne
  | established ho =>
    exact h.tame rfl rfl (tame_setConn ⟨rfl, rfl, rfl, fun hc => absurd hc (not_closeed ho)⟩)
  | dropContexts => exact h.tame rfl rfl (tame_setConn ⟨rfl, rfl, rfl, id⟩)
  | wrote _ => exact h.note _
  | keepAlive => exact h.note _

theorem kept {ks' : List (Cmd Client)} : Kept (rule a) ks c (ClientInv a ks') :=
  fun _ _ h ht => ⟨fun _ => (h.touch ht).sound, h.touch ht⟩

theorem ClientInv.current {c' : ℕ} {fd : ℕ} (h : ClientInv a ks w)
    (he : ⟨fd, .notify c', false⟩ ∈ w.entries ∨ ⟨fd, .socket c', false⟩ ∈ w.entries) :
    w.owner.conn = some c' := by
  replace he := he.imp mem_live.mpr mem_live.mpr
  cases hc : w.owner.conn with
  | none => simp [(h.idle hc).2.2] at he
  | some c =>
    rw [(h.linked c hc).2.2] at he
    simp only [List.mem_cons, Entry.mk.injEq, Target.notify.injEq, Target.socket.injEq] at he
    grind

theorem ClientInv.stillThere (h : ClientInv a ks w) (ha : a.Strict) : StillThere w := by
  intro c hc
  have hcur := h.since ha c hc
  obtain ⟨hst, -, hlive⟩ := h.linked c hcur
  refine ⟨hcur, hst, ?_, ?_⟩
  · rw [← mem_live, hlive]; simp
  · rw [← mem_live, hlive]; simp

theorem ClientInv.represents (h : ClientInv a ks w) : Represents w := by
  cases hc : w.owner.conn with
  | none =>
    obtain ⟨hst, -, hlive⟩ := h.idle hc
    refine ⟨?_, ?_, fun c hc' => ?_⟩
    · simp [hc, hst]
    · simp [hc, hlive]
    · rw [hc] at hc'
      cases hc'
  | some c =>
    obtain ⟨hst, -, hlive⟩ := h.linked c hc
    refine ⟨?_, ?_, fun c' hc' => ?_⟩
    · simp [hc, hst]
    · simp [hc, hlive]
    · rw [hc] at hc'
      cases hc'
      exact hlive

/-- Without a connection, and not connecting, the client is closed. -/
theorem ClientInv.close_of_none (h : ClientInv a ks w) (hnone : w.owner.conn = none)
    (hks : Cmd.callback .factory ∉ ks) : w.owner.state = .close := by
  obtain ⟨h1, h2, -⟩ := h.idle hnone
  have h3 := (not_congr h.connecting).mpr hks
  cases hst : w.owner.state <;> simp_all

/-- `Connect` calls the codec factory. -/
theorem ClientInv.begun (h : ClientInv a ks w) (hnone : w.owner.conn = none) :
    ClientInv a (.callback .factory :: ks) (setState .connecting w) where
  idle _ := ⟨by simp [setState, withClient], by simp [setState, withClient], (h.idle hnone).2.2⟩
  linked c hc := by
    have hc' : w.owner.conn = some c := hc
    rw [hnone] at hc'
    cases hc'
  connecting := by simp [setState, withClient]
  others := h.others
  timers := h.timers
  failures := h.failures
  since := h.since
  own := h.own
  handled c b hm := h.handled c b ((mem_callback_cons (by simp)).mp hm)
  draining ha c hm := h.draining ha c ((mem_callback_cons (by simp)).mp hm)

/-- And has no connection when it is back. -/
theorem ClientInv.none_of_factory (h : ClientInv a (.callback .factory :: ks) w) :
    w.owner.conn = none := by
  cases hc : w.owner.conn with
  | none => rfl
  | some c =>
    have hst := h.connecting.mpr List.mem_cons_self
    rw [(h.linked c hc).1] at hst
    cases hst

/-- `Connect` gives up. -/
theorem ClientInv.givenUp (h : ClientInv a (.callback .factory :: ks) w)
    (hks : Cmd.callback .factory ∉ ks) : ClientInv a ks (setState .close w) where
  idle hc := ⟨by simp [setState, withClient], by simp [setState, withClient], (h.idle hc).2.2⟩
  linked c hc := by
    have hc' : w.owner.conn = some c := hc
    rw [h.none_of_factory] at hc'
    cases hc'
  connecting := by simpa [setState, withClient] using hks
  others := h.others
  timers := h.timers
  failures := h.failures
  since := h.since
  own := h.own
  handled c b hm := h.handled c b (List.mem_cons_of_mem _ hm)
  draining ha c hm := h.draining ha c (List.mem_cons_of_mem _ hm)

/-- The error callback is called. -/
theorem ClientInv.failed (h : ClientInv a ks w) (hnone : w.owner.conn = none)
    (hst : w.owner.state = .close) : ClientInv a ks (AsyncClient.failed w) := by
  refine ⟨h.idle, h.linked, h.connecting, h.others, h.timers, fun f hf => ?_, h.since, h.own,
    h.handled, h.draining⟩
  have hf' : f ∈ w.owner.failures ++ [(w.owner.state, w.owner.conn, live w.entries)] := hf
  rw [List.mem_append, List.mem_singleton] at hf'
  rcases hf' with hf' | rfl
  · exact h.failures f hf'
  · rw [hst, hnone, (h.idle hnone).2.2]

/-- `Connect` up to `OnConnection`. -/
def joined (w : World Client) (fds : ℕ × ℕ) : World Client :=
  withClient
    { made w fds with
      entries := addFd (addFd w.entries fds.1 (.notify w.owner.next)) fds.2
        (.socket w.owner.next) }
    fun x => { x with state := .established, since := x.since ++ [w.owner.next] }

/-- `Connect` has made a connection, and `OnConnection` set its state. -/
theorem ClientInv.joined {fds : ℕ × ℕ} {f : ShmConn → ShmConn}
    (h : ClientInv a (.callback .factory :: ks) w) (hfac : Cmd.callback .factory ∉ ks)
    (hks : a.reconnect = false → ∀ c, Cmd.callback (.message c true) ∉ ks)
    (hf : ∀ x, (f x).notifyFd = x.notifyFd ∧ (f x).socketFd = x.socketFd ∧
      (f x).verifyTimer = x.verifyTimer) :
    ClientInv a ks ((AsyncClient.joined w fds).setConn w.owner.next f) where
  idle hc := nomatch hc
  linked c hc := by
    obtain rfl : w.owner.next = c := Option.some.inj hc
    simp [AsyncClient.joined, withClient, made, newConn, ShmConn.new, (hf _).1, (hf _).2.1,
      (h.idle h.none_of_factory).2.2]
  connecting := by simpa [AsyncClient.joined, withClient] using hfac
  others c hc := by
    have hne : c ≠ w.owner.next := fun he => hc (by rw [he]; rfl)
    have h1 := h.others c (by simp [h.none_of_factory])
    simpa [AsyncClient.joined, withClient, made, World.setConn_of_ne, hne] using h1
  timers c := by
    by_cases hc : c = w.owner.next
    · simp [hc, AsyncClient.joined, withClient, made, newConn, ShmConn.new, (hf _).2.2]
    · simpa [AsyncClient.joined, withClient, made, World.setConn_of_ne, hc] using h.timers c
  failures := h.failures
  since ha c hc := by
    have hempty : c ∉ w.owner.since := fun hm => by
      simpa [h.none_of_factory] using h.since ha c hm
    have hc' : c ∈ w.owner.since ++ [w.owner.next] := hc
    rw [List.mem_append, List.mem_singleton] at hc'
    rw [hc'.resolve_left hempty]
    rfl
  own := h.own
  handled c b hm := by
    have h1 := h.handled c b (List.mem_cons_of_mem _ hm)
    have h2 : c ∉ w.owner.since ++ [w.owner.next] := by
      rw [List.mem_append, List.mem_singleton, not_or]
      exact ⟨h1.2, by omega⟩
    exact ⟨Nat.lt_succ_of_lt h1.1, h2⟩
  draining ha c hm := absurd hm (hks ha c)

/-- `Teardown` has released the current connection; `w'` is the world up to the connections, which
are closed. -/
theorem ClientInv.released {handler : Option ℕ} (h : ClientInv a ks (setState .established w))
    (hc : w.owner.conn = some c)
    (hh : a.Strict → ∀ c', handler = some c' → c = c' ∧ c ∉ w.owner.since)
    (ho : w'.owner = (AsyncClient.released handler c (setState .close w)).owner)
    (he : w'.entries = (AsyncClient.released handler c (setState .close w)).entries)
    (hs : ∀ i, (w'.conns i).state = .closeed) (ht : ∀ i, (w'.conns i).verifyTimer = 0) :
    ClientInv a ks w' := by
  have hconn : w'.owner.conn = none := by rw [ho]; rfl
  have hst : w'.owner.state = .close := by rw [ho]; rfl
  have hsub : ∀ i ∈ w'.owner.since, i ∈ w.owner.since ∧ (handler = none → i ≠ c) := by
    intro i hi
    simp only [ho, AsyncClient.released, withClient, setState] at hi
    split at hi
    · simpa using ⟨(List.mem_filter.mp hi).1, fun _ => by simpa using (List.mem_filter.mp hi).2⟩
    · exact ⟨hi, fun hn => absurd hn ‹_›⟩
  have hsince : a.Strict → ∀ i, i ∉ w'.owner.since := by
    intro ha i hi
    obtain ⟨hmem, hne⟩ := hsub i hi
    obtain rfl : c = i := by
      have h1 := h.since ha i hmem
      exact Option.some.inj (hc.symm.trans h1)
    cases handler with
    | none => exact hne rfl rfl
    | some c' => exact (hh ha c' rfl).2 hmem
  have hlive : live w'.entries = [] := by
    have h1 := (h.linked c hc).2.2
    simp only [setState, withClient] at h1
    simp [he, AsyncClient.released, withClient, setState, h1]
  refine ⟨fun _ => ⟨by simp [hst], by simp [hst], hlive⟩, fun i hi => ?_, ?_, fun i _ => hs i, ht,
    ?_, fun ha i hi => absurd hi (hsince ha i), fun ha => ?_, fun i b hm => ⟨?_, fun hi => ?_⟩,
    fun _ _ _ => .inl hconn⟩
  · rw [hconn] at hi; cases hi
  · have h1 := h.connecting
    rw [hst]
    simpa [setState, withClient] using h1
  · rw [CleanFailures, ho]
    exact h.failures
  · rw [OwnOnly, ho]
    intro x hx i hi
    simp only [AsyncClient.released, withClient, setState, List.mem_append,
      List.mem_singleton] at hx
    rcases hx with hx | rfl
    · exact h.own ha x hx i hi
    · exact (hh ha i hi).1
  · rw [ho]
    exact (h.handled i b hm).1
  · exact (h.handled i b hm).2 (hsub i hi).1

end Invariant

/-! ### The functions keep it -/

section Functions

variable {a : Allowed} {ks : List (Cmd Client)} {w : World Client} {c : ℕ}

theorem register_keeps (ha : a.throws = false) {fd : ℕ} {t : Target} {E : World Client → Prop}
    {Q : Unit → World Client → Prop} (h : Q () { w with entries := addFd w.entries fd t }) :
    wpx (env a).machine (rule a) ks (register fd t) Q E w := by
  rw [register, wpx_bind]
  refine wpx_ask.mpr fun threw hr => ?_
  obtain rfl : threw = false := by simpa [env, ha] using hr
  exact wpx_modify.mpr ⟨id, h⟩

/-- `Connect` once there is a codec. -/
theorem joining_keeps (ht : a.throws = false) {fds : ℕ × ℕ}
    (h : ClientInv a (.callback .factory :: ks) w) (hfac : Cmd.callback .factory ∉ ks)
    (hks : a.reconnect = false → ∀ c, Cmd.callback (.message c true) ∉ ks) :
    wpx (env a).machine (rule a) ks (onConnection w.owner.next) (fun _ => ClientInv a ks)
      (ClientInv a (.callback .factory :: ks)) (joined w fds) := by
  refine onConnection_keeps (K := ClientInv a ks) (fun _ => ?_) (fun _ => ?_) fun w' hw' => ?_
  · have h1 : ClientInv a ks
        ((joined w fds).setConn w.owner.next fun x => { x with state := .verifing }) :=
      h.joined hfac hks fun _ => ⟨rfl, rfl, rfl⟩
    refine ⟨id, (h1.note (.verify w.owner.next)).push (by simp) (by simp), fun w' hw' => ?_⟩
    refine ⟨fun _ => hw'.2.pop (by simp), fun hthrew => ?_⟩
    simp [env, ht] at hthrew
  · have h1 : ClientInv a ks ((joined w fds).established w.owner.next) :=
      h.joined hfac hks fun _ => ⟨rfl, rfl, rfl⟩
    exact ⟨id, h1⟩
  · refine ⟨fun _ => hw', id, (hw'.note _).push (by simp) (by simp), fun w'' hw'' => ?_⟩
    refine ⟨fun _ => hw''.2.pop (by simp), fun hthrew => ?_⟩
    simp [env, ht] at hthrew

/-- The `try` block either fails before it made a connection or goes through. -/
theorem connectTry_keeps (ht : a.throws = false) (h : ClientInv a ks w)
    (hnone : w.owner.conn = none) (hfac : Cmd.callback .factory ∉ ks) :
    wpx (env a).machine (rule a) ks connectTry (fun _ => ClientInv a ks)
      (ClientInv a (.callback .factory :: ks)) (setState .connecting w) := by
  rw [connectTry, wpx_bind]
  refine wpx_ask.mpr fun r _ => ?_
  cases r with
  | none => exact h.begun hnone
  | some fds =>
    rw [wpx_bind, wpx_callback]
    refine ⟨h.begun hnone, fun w' hw' => ⟨fun _ => ?_, fun _ => hw'.2⟩⟩
    rw [wpx_bind]
    refine wpx_ask.mpr fun codec hans => ?_
    rw [wpx_ite]
    refine ⟨fun hcodec => ?_, fun _ => hw'.2⟩
    have hks : a.reconnect = false → ∀ c, Cmd.callback (.message c true) ∉ ks := by
      intro hr
      rw [hcodec] at hans
      simpa [env, hr] using hans
    rw [wpx_bind, wpx_get, wpx_bind, wpx_modify, wpx_bind]
    refine ⟨id, register_keeps ht ?_⟩
    rw [wpx_bind]
    refine register_keeps ht ?_
    rw [wpx_bind, wpx_modify]
    exact ⟨id, joining_keeps ht hw'.2 hfac hks⟩

theorem connect_keeps (ht : a.throws = false) (h : ClientInv a ks w) :
    wpx (env a).machine (rule a) ks connect (fun _ => ClientInv a ks) (ClientInv a ks) w := by
  rw [connect, wpx_bind, wpx_get, wpx_ite]
  refine ⟨fun _ => h, fun hst => ?_⟩
  have hnone : w.owner.conn = none := by
    cases hc : w.owner.conn with
    | none => rfl
    | some c => exact absurd (.inr (h.linked c hc).1) hst
  have hfac : Cmd.callback .factory ∉ ks := fun hm => hst (.inl (h.connecting.mpr hm))
  rw [wpx_bind, wpx_modify, wpx_tryCatch]
  refine ⟨id, wpx_mono (fun _ _ h' => h') (fun w' hw' => ?_) (connectTry_keeps ht h hnone hfac)⟩
  have h1 := hw'.givenUp hfac
  have h2 := h1.failed hw'.none_of_factory rfl
  rw [wpx_bind, wpx_modify, wpx_ite, wpx_bind, wpx_modify, wpx_callback]
  refine ⟨id, fun _ => ⟨fun _ => h2.sound, h2.push (by simp) (by simp), fun w'' hw'' => ?_⟩,
    fun _ => h1⟩
  exact ⟨fun _ => hw''.2.pop (by simp), fun _ => hw''.2.pop (by simp)⟩

/-- `Teardown` of the current connection. -/
theorem teardown_current {handler : Option ℕ} (h : ClientInv a ks (setState .established w))
    (hst : w.owner.state ≠ .close) (hc : w.owner.conn = some c)
    (hh : a.Strict → ∀ c', handler = some c' → c = c' ∧ c ∉ w.owner.since) :
    wpx (env a).machine (rule a) ks (teardown handler) (fun _ => ClientInv a ks)
      (ClientInv a ks) w := by
  rw [teardown, wpx_bind, wpx_get, wpx_ite]
  refine ⟨fun hs => absurd hs hst, fun _ => ?_⟩
  rw [wpx_bind, wpx_modify, hc]
  refine ⟨id, ?_⟩
  dsimp only
  rw [wpx_bind, wpx_modify]
  have hothers : ∀ i, i ≠ c → (w.conns i).state = .closeed :=
    fun i hi => h.others i fun he => hi (Option.some.inj (hc.symm.trans he)).symm
  have hclosed : ClientInv a ks ((released handler c (setState .close w)).closed c) := by
    have h1 : ClientInv a ks ((released handler c (setState .close w)).setConn c
        fun x => { x with state := .closeed }) := by
      refine h.released hc hh rfl rfl (fun i => ?_) fun i => ?_
      · by_cases hi : i = c
        · rw [hi, World.setConn_self]
        · rw [World.setConn_of_ne _ _ _ hi]
          exact hothers i hi
      · by_cases hi : i = c
        · rw [hi, World.setConn_self]
          exact h.timers c
        · rw [World.setConn_of_ne _ _ _ hi]
          exact h.timers i
    exact h1.note _
  refine ⟨fun _ => ⟨hclosed.own, hclosed.failures⟩, onClose_keeps kept (fun hs => ?_) fun _ => ?_⟩
  · refine h.released hc hh rfl rfl (fun i => ?_) h.timers
    by_cases hi : i = c
    · rw [hi]
      exact hs
    · exact hothers i hi
  · refine ⟨id, fun _ => hclosed, fun _ => ?_⟩
    exact ⟨id, (hclosed.note _).push (by simp) (by simp), fun w' hw' => hw'.2.pop (by simp)⟩

/-- `Teardown` by the handler of `c`; if no event of an old connection comes to a new one, no other
connection is current. -/
theorem teardown_handler (h : ClientInv a [] w)
    (hcur : a.Strict → w.owner.conn = none ∨ w.owner.conn = some c) (hc : c ∉ w.owner.since) :
    wpx (env a).machine (rule a) [] (teardown (some c)) (fun _ => ClientInv a [])
      (ClientInv a []) w := by
  cases hnow : w.owner.conn with
  | none =>
    rw [teardown, wpx_bind, wpx_get, wpx_ite]
    exact ⟨fun _ => h, fun hst => absurd (h.close_of_none hnow List.not_mem_nil) hst⟩
  | some c' =>
    have hst := (h.linked c' hnow).1
    have hw : setState .established w = w := by simp only [setState, withClient, ← hst]
    refine teardown_current (hw.symm ▸ h) (by simp [hst]) hnow fun ha c'' hc'' => ?_
    cases hc''
    have hcc : c' = c := by simpa [hnow] using hcur ha
    exact ⟨hcc, hcc ▸ hc⟩

theorem closeClient_keeps (h : ClientInv a ks w) :
    wpx (env a).machine (rule a) ks closeClient (fun _ => ClientInv a ks) (ClientInv a ks) w := by
  rw [closeClient, wpx_bind, wpx_get, wpx_ite]
  refine ⟨fun _ => h, fun hst => ?_⟩
  rw [not_not] at hst
  cases hc : w.owner.conn with
  | none => exact absurd hst (h.idle hc).1
  | some c =>
    -- until `Teardown` everything is as before, but for the state of the client
    let J : World Client → Prop := fun w' =>
      w'.owner.state = .closeing ∧ w'.owner.conn = some c ∧
        ClientInv a ks (setState .established w')
    have hJ : Kept (rule a) ks c J := by
      rintro w₁ w₂ ⟨h1, h2, h3⟩ ht
      have h4 : Touch c (setState .established w₁) (setState .established w₂) := by
        cases ht with
        | shutDown ho => exact .shutDown ho
        | dropTimer hne => exact .dropTimer hne
        | established ho => exact .established ho
        | dropContexts => exact .dropContexts
        | wrote ho => exact .wrote ho
        | keepAlive => exact .keepAlive
      have h5 := h3.touch h4
      exact ⟨fun _ => h5.sound, (congrArg Client.state ht.owner).trans h1,
        (congrArg Client.conn ht.owner).trans h2, h5⟩
    have hw : setState .established (setState .closeing w) = w := by
      simp only [setState, withClient, ← hst]
    rw [wpx_bind, wpx_modify]
    refine ⟨id, ?_⟩
    dsimp only
    rw [wpx_bind]
    refine wpx_mono (fun _ w' hw' => ?_) (fun _ h => h)
      (close_keeps hJ ⟨rfl, hc, hw.symm ▸ h⟩)
    exact teardown_current hw'.2.2 (by simp [hw'.1]) hw'.2.1 fun _ _ hn => nomatch hn

theorem delivers {viaSocket : Bool} : Delivers (rule a) [] c viaSocket
    (ClientInv a [.callback (.message c viaSocket)]) :=
  fun _ h _ => ⟨id, h.note _, fun _ hw' => hw'.2⟩

theorem ClientInv.handlerBegun (h : ClientInv a ks w) : ClientInv a ks (handlerBegun w) :=
  { h with
    since := fun _ _ hc => nomatch hc
    handled := fun c b hm => ⟨(h.handled c b hm).1, List.not_mem_nil⟩ }

/-- The handler of `c` in `DrainRing`. -/
theorem ClientInv.draining_own {viaSocket : Bool} (h : ClientInv a [] w)
    (hc : w.owner.conn = some c) (hs : w.owner.since = []) :
    ClientInv a [.callback (.message c viaSocket)] w := by
  refine { h with connecting := ?_, handled := fun c' b hm => ?_, draining := fun _ c' hm => ?_ }
  · simpa using h.connecting
  · cases List.mem_singleton.mp hm
    exact ⟨(h.linked c hc).2.1, by simp [hs]⟩
  · cases List.mem_singleton.mp hm
    exact .inr hc

theorem onNotify_keeps {fd fuel : ℕ} (h : ClientInv a [] w)
    (he : ⟨fd, .notify c, false⟩ ∈ w.entries) :
    wpx (env a).machine (rule a) [] (onNotify c fuel) (fun _ => ClientInv a [])
      (ClientInv a []) w := by
  have hcur := h.current (.inl he)
  have hdrain : ClientInv a [.callback (.message c false)] (handlerBegun w) :=
    h.handlerBegun.draining_own hcur rfl
  rw [onNotify, wpx_bind, wpx_modify, wpx_bind, wpx_get]
  refine ⟨id, ?_⟩
  have hcur' : (handlerBegun w).owner.conn = some c := hcur
  rw [hcur']
  dsimp only
  rw [wpx_bind]
  refine wpx_mono (fun n w' hw' => ?_) (fun _ h => h.pop (by simp))
    (drainRing_keeps (X := fun w => a.reject = false →
        w.owner.conn = none ∨ w.owner.conn = some c) kept delivers
      (fun w' _ hans hreject => by simpa [env, hreject] using hans) hdrain
      (fun _ _ => .inr hcur) fuel)
  obtain ⟨h1, h2⟩ := hw'
  have h3 := h1.pop (by simp)
  rw [wpx_bind, wpx_get, wpx_ite]
  refine ⟨fun hend => teardown_handler h3 (fun ha => ?_)
    (h1.handled c false (List.mem_singleton.mpr rfl)).2, fun _ => h3⟩
  rcases hend with hn | hclosing
  · exact h2 hn ha.2
  · by_contra hno
    rw [not_or] at hno
    simp [h1.others c hno.2] at hclosing

theorem onSocket_keeps {fd fuel : ℕ} (h : ClientInv a [] w)
    (he : ⟨fd, .socket c, false⟩ ∈ w.entries) :
    wpx (env a).machine (rule a) [] (onSocket c fuel) (fun _ => ClientInv a [])
      (ClientInv a []) w := by
  have hcur := h.current (.inr he)
  have hdrain : ClientInv a [.callback (.message c true)] (handlerBegun w) :=
    h.handlerBegun.draining_own hcur rfl
  rw [onSocket, wpx_bind, wpx_modify, wpx_bind, wpx_get]
  refine ⟨id, ?_⟩
  have hcur' : (handlerBegun w).owner.conn = some c := hcur
  rw [hcur']
  dsimp only
  rw [wpx_bind]
  refine wpx_ask.mpr fun revents _ => ?_
  rw [wpx_ite, wpx_bind]
  refine ⟨fun _ => wpx_ask.mpr fun n _ => ?_, fun _ => h.handlerBegun⟩
  rw [wpx_ite, wpx_bind]
  refine ⟨fun _ => ?_, fun _ => h.handlerBegun⟩
  refine wpx_mono (fun n w' hw' => ?_) (fun _ h => h.pop (by simp))
    (drainRing_keeps (X := fun _ => True) kept delivers (fun _ _ _ => trivial) hdrain
      (fun _ => trivial) fuel)
  have hmem : Cmd.callback (.message c true) ∈ [(Cmd.callback (.message c true) : Cmd Client)] :=
    List.mem_singleton.mpr rfl
  exact teardown_handler (hw'.1.pop (by simp)) (fun ha => hw'.1.draining ha.1 c hmem)
    (hw'.1.handled c true hmem).2

/-- Every call keeps the invariant. -/
theorem calls_keep (ht : a.throws = false) {p : ConnM Client Unit} (h : ClientInv a ks w)
    (hp : Calls ks w p) :
    wpx (env a).machine (rule a) ks p (fun _ => ClientInv a ks) (ClientInv a ks) w := by
  have hsend : ∀ c, wpx (env a).machine (rule a) ks (sendCmd c) (fun _ => ClientInv a ks)
      (ClientInv a ks) w :=
    fun c => wpx_mono (fun _ _ h' => h'.1) (fun _ h' => h') (sendCmd_keeps kept h)
  cases hp with
  | connect => exact connect_keeps ht h
  | closeClient => exact closeClient_keeps h
  | sendCmdClient =>
    refine wpx_bind.mpr ?_
    rw [sendCmdClient, wpx_bind, wpx_get]
    cases w.owner.conn with
    | none => exact h
    | some c =>
      dsimp only
      rw [wpx_ite]
      exact ⟨fun _ => hsend c, fun _ => h⟩
  | close c => exact close_keeps kept h
  | sendCmd c => exact wpx_bind.mpr (hsend c)
  | onVerify c succ hs => exact onVerify_keeps kept h hs
  | onNotify fd c fuel hks he =>
    subst hks
    exact onNotify_keeps h he
  | onSocket fd c fuel hks he =>
    subst hks
    exact onSocket_keeps h he

end Functions

/-! ### When no new connection is harmed -/

theorem clientInv_initial (a : Allowed) (verifycb errorcb context : Bool) :
    ClientInv a [] (initial verifycb errorcb context) where
  idle _ := ⟨by simp [initial], by simp [initial], rfl⟩
  linked _ hc := nomatch hc
  connecting := by simp [initial]
  others _ _ := rfl
  timers _ := rfl
  failures _ hf := absurd hf List.not_mem_nil
  since _ _ hc := absurd hc List.not_mem_nil
  own _ _ hx := absurd hx List.not_mem_nil
  handled _ _ hm := absurd hm List.not_mem_nil
  draining _ _ hm := absurd hm List.not_mem_nil

/-- The invariant in every run without an exception once `conn_` is set. -/
theorem clientInv_reach {a : Allowed} (ht : a.throws = false) {verifycb errorcb context : Bool}
    {cfg : Config (Cmd Client) Cmd.Res (World Client)}
    (h : Reach (env a).machine (initial verifycb errorcb context) cfg) :
    (cfg.run = none → ClientInv a (callbacks cfg.stack) cfg.mem) ∧ Sound a cfg.mem := by
  have h₀ := clientInv_initial a verifycb errorcb context
  obtain ⟨hinv, hG⟩ := reach_inv (e := env a) (ρ := rule a) (fun _ _ _ => calls_keep ht) h₀ h
  exact ⟨hinv, hG h₀.sound⟩

theorem harmless {a : Allowed} (hr : a.reconnect = false) (hreject : a.reject = false)
    (ht : a.throws = false) : Harmless a := by
  intro verifycb errorcb context cfg hreach
  obtain ⟨hinv, hown, -⟩ := clientInv_reach ht hreach
  exact ⟨hown ⟨hr, hreject⟩, fun hrun => (hinv hrun).stillThere ⟨hr, hreject⟩⟩

/-- A client after a first `Connect`. -/
def connected : World Client :=
  ((joined (initial false false false) (5, 6)).established 0).note (.connection 0)

theorem reach_connected (a : Allowed) :
    Reach (env a).machine (initial false false false) ⟨connected, none, []⟩ := by
  have h0 : Reach (env a).machine (initial false false false)
      ⟨initial false false false, none, []⟩ := .refl
  have h1 := reach_enter (reach_answer (reach_start h0 _ .connect) (some (5, 6)) (by simp [env]))
  have h2 := reach_answer (reach_leave h1 false trivial) true (.inr (by simp [callbacks]))
  have h3 := reach_answer (reach_answer h2 false (.inr rfl)) false (.inr rfl)
  exact reach_done (reach_leave (reach_enter h3) false (.inr rfl))

/-- A handler of connection `0` that tore down connection `1` does harm. -/
theorem not_harmless {a : Allowed} {cfg : Config (Cmd Client) Cmd.Res (World Client)}
    (hreach : Reach (env a).machine (initial false false false) cfg)
    (htorn : (some 0, 1) ∈ cfg.mem.owner.torn) : ¬ Harmless a := by
  intro h
  have h1 : 1 = 0 := (h false false false cfg hreach).1 (some 0, 1) htorn 0 rfl
  exact one_ne_zero h1

/-- A reconnect under a message callback of `OnSocket`, which then tears down what is current. -/
theorem harmed_by_reconnect {a : Allowed} (ha : a.reconnect = true) : ¬ Harmless a := by
  have h1 := reach_start (reach_connected a) _ (.onSocket 6 0 2 rfl (by decide))
  have h2 := reach_answer (reach_answer h1 true trivial) (0 : ℤ) trivial
  have h3 := reach_enter (reach_answer h2 (.package 1 ()) trivial)
  have h4 := reach_enter (reach_start h3 _ .closeClient)
  have h5 := reach_done (reach_leave h4 false trivial)
  have h6 := reach_enter (reach_answer (reach_start h5 _ .connect) (some (7, 8)) (by simp [env]))
  have h7 := reach_answer (reach_leave h6 false trivial) true (.inl ha)
  have h8 := reach_answer (reach_answer h7 false (.inr rfl)) false (.inr rfl)
  have h9 := reach_done (reach_leave (reach_enter h8) false (.inr rfl))
  have h10 := reach_answer (reach_leave h9 false trivial) .wait trivial
  exact not_harmless h10 (by decide)

/-- Leftover bytes that the codec rejects in `OnNotify`, after a reconnect in its message
callback. -/
theorem harmed_by_reject {a : Allowed} (ha : a.reject = true) : ¬ Harmless a := by
  have h1 := reach_start (reach_connected a) _ (.onNotify 5 0 2 rfl (by decide))
  have h2 := reach_enter (reach_answer h1 (.package 1 ()) trivial)
  have h3 := reach_enter (reach_start h2 _ .closeClient)
  have h4 := reach_done (reach_leave h3 false trivial)
  have h5 := reach_enter (reach_answer (reach_start h4 _ .connect) (some (7, 8)) (by simp [env]))
  have h6 := reach_answer (reach_leave h5 false trivial) true (.inr (by simp [callbacks]))
  have h7 := reach_answer (reach_answer h6 false (.inr rfl)) false (.inr rfl)
  have h8 := reach_done (reach_leave (reach_enter h7) false (.inr rfl))
  have h9 := reach_answer (reach_leave h8 false trivial) .error (.inl ha)
  exact not_harmless h9 (by decide)

/-- An exception out of `Connect` leaves the entries of its connection live; after the next
`Connect` they still fire. -/
theorem harmed_by_throw {a : Allowed} (ha : a.throws = true) : ¬ Harmless a := by
  have h0 : Reach (env a).machine (initial false false false)
      ⟨initial false false false, none, []⟩ := .refl
  have h1 := reach_enter (reach_answer (reach_start h0 _ .connect) (some (5, 6)) (by simp [env]))
  have h2 := reach_answer (reach_leave h1 false trivial) true (.inr (by simp [callbacks]))
  have h3 := reach_answer (reach_answer h2 false (.inr rfl)) false (.inr rfl)
  have h4 := reach_done (reach_leave (reach_enter h3) true (.inl ha))
  have h5 := reach_enter (reach_answer (reach_start h4 _ .connect) (some (7, 8)) (by simp [env]))
  have h6 := reach_answer (reach_leave h5 false trivial) true (.inr (by simp [callbacks]))
  have h7 := reach_answer (reach_answer h6 false (.inr rfl)) false (.inr rfl)
  have h8 := reach_done (reach_leave (reach_enter h7) false (.inr rfl))
  have h9 := reach_start h8 _ (.onNotify 5 0 1 rfl (by decide))
  have h10 := reach_answer h9 .error (.inr (.inr rfl))
  exact not_harmless h10 (by decide)

/-- **No event of an old connection harms a new one if and only if a run may do none of the
three.** -/
theorem harmless_iff (a : Allowed) :
    Harmless a ↔ a.reconnect = false ∧ a.reject = false ∧ a.throws = false := by
  constructor
  · intro h
    refine ⟨?_, ?_, ?_⟩ <;> rw [← Bool.not_eq_true]
    · exact fun ha => harmed_by_reconnect ha h
    · exact fun ha => harmed_by_reject ha h
    · exact fun ha => harmed_by_throw ha h
  · rintro ⟨hr, hreject, ht⟩
    exact harmless hr hreject ht

/-- Without a condition, and even without exceptions, a new connection is torn down. -/
theorem new_connection_torn_down : ¬ Harmless ⟨true, true, false⟩ := harmed_by_reconnect rfl

/-! ### When the client is consistent -/

/-- The connection callback throws: the error callback finds the client closed, but with the
connection and its entries still there. -/
theorem inconsistent_by_throw {a : Allowed} (ha : a.throws = true) : ¬ Consistent a := by
  intro h
  have h0 : Reach (env a).machine (initial false true false)
      ⟨initial false true false, none, []⟩ := .refl
  have h1 := reach_enter (reach_answer (reach_start h0 _ .connect) (some (5, 6)) (by simp [env]))
  have h2 := reach_answer (reach_leave h1 false trivial) true (.inr (by simp [callbacks]))
  have h3 := reach_answer (reach_answer h2 false (.inr rfl)) false (.inr rfl)
  have h4 := reach_enter (reach_leave (reach_enter h3) true (.inl ha))
  have hclean := (h false true false _ h4).2 _ (List.mem_singleton.mpr rfl)
  revert hclean
  decide

/-- **State, connection and event loop agree in every run if and only if nothing throws inside
`Connect` once `conn_` is set.** -/
theorem consistent_iff (a : Allowed) : Consistent a ↔ a.throws = false := by
  constructor
  · intro h
    rw [← Bool.not_eq_true]
    exact fun ha => inconsistent_by_throw ha h
  · intro ht verifycb errorcb context cfg hreach
    obtain ⟨hinv, -, hclean⟩ := clientInv_reach ht hreach
    exact ⟨fun hrun => (hinv hrun).represents, hclean⟩

/-- Without a condition the error callback finds a connection. -/
theorem failed_connection_left : ¬ Consistent ⟨false, false, true⟩ := inconsistent_by_throw rfl

end ShmIpc.Conn.AsyncClient
