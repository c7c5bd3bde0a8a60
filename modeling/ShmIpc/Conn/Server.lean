import ShmIpc.Conn.Connection

/-! # The server: `shm_server.hpp`

The loop thread of `ShmServer` over the connection objects: accepting the connections whose
handshake is done, the handlers of the event loop, and `CloseConn`, `SendTo`, `Broadcast` and `Stop`
called from outside or from inside any callback. The handshake thread is only seen through the
handshakes that are done.

The callbacks of each connection come in the order verify, connection, messages, close, if and only
if no connection is removed, by `CloseConn` or by `Stop`, while its verify callback runs, and no
verify callback throws (`inOrder_iff`): `OnConnection` does not look at the state again after the
verify callback. -/

namespace ShmIpc.Conn.Server

open ShmIpc.Lib.RelyGuarantee ShmIpc.Lib.Reentrant
open ShmIpc.Conn.DrainRing ShmIpc.Conn.Connection

/-! ### The server -/

/-- The members of the server that the loop thread uses; of the callbacks that may be missing,
whether they are set. `conns` holds the keys of `conns_`. `ready` is the queue that
`OnHandshakeComplete` has taken over, a local there; `entered`, not in the source, the connections
that ever were in the table. -/
structure ShmServer where
  started : Bool
  conns : List ℕ
  nextId : ℕ
  maxClients : ℤ
  keepalive : Bool
  verifycb : Bool
  failedcb : Bool
  successcb : Bool
  listenFd : Option ℕ
  hsWakeFd : Option ℕ
  ready : List (ℕ × ℕ)
  entered : List ℕ
  deriving DecidableEq, Repr

/-- The world with the server changed. -/
def withServer (w : World ShmServer) (f : ShmServer → ShmServer) : World ShmServer :=
  { w with owner := f w.owner }

/-- `Listen` succeeds. -/
def listening (w : World ShmServer) (fds : ℕ × ℕ) : World ShmServer :=
  withServer { w with entries := addFd (addFd w.entries fds.1 .accept) fds.2 .handshake }
    fun x => { x with started := true, listenFd := some fds.1, hsWakeFd := some fds.2 }

/-- `Start`; it is `noexcept`. -/
def start : ConnM ShmServer Bool := tryCatch (do
  let w ← get
  if w.owner.started then
    return true
  match ← ask .listen with
  | none =>
    modify fun w => withServer w fun x => { x with listenFd := none }
    if w.owner.failedcb then
      callback .startFailed
    return false
  | some fds =>
    modify fun w => listening w fds
    if w.owner.successcb then
      callback .startSuccess
    return true) fun _ => never

/-- `RemoveConn` up to `OnClose`. -/
def released (c : ℕ) (w : World ShmServer) : World ShmServer :=
  withServer
    { w with entries := removeFd (removeFd w.entries (w.conns c).notifyFd) (w.conns c).socketFd }
    fun x => { x with conns := x.conns.filter (· ≠ c) }

/-- `RemoveConn`. -/
def removeConn (c : ℕ) : ConnM ShmServer Unit := do
  modify (released c)
  onClose c

/-- The loop of `Stop` over a copy of the table. -/
def removeConns : List ℕ → ConnM ShmServer Unit
  | [] => return
  | c :: cs => do
    removeConn c
    removeConns cs

/-- `Stop` up to the loop: the two descriptors are removed, one of them forgotten. -/
def unlistened (w : World ShmServer) : World ShmServer :=
  let remove (es : List Entry) (fd : Option ℕ) : List Entry := fd.elim es (removeFd es)
  withServer { w with entries := remove (remove w.entries w.owner.listenFd) w.owner.hsWakeFd }
    fun x => { x with listenFd := none }

/-- `Stop`. -/
def stop : ConnM ShmServer Unit := do
  let w ← get
  if w.owner.started then
    modify fun w => withServer w fun x => { x with started := false }
    modify unlistened
    let cs ← ask .order
    removeConns cs

/-- `SendTo`. -/
def sendTo (c : ℕ) : ConnM ShmServer Bool := do
  let w ← get
  if c ∈ w.owner.conns then sendCmd c else return false

/-- The loop of `Broadcast`. -/
def sendAll : List ℕ → ConnM ShmServer Unit
  | [] => return
  | c :: cs => do
    let _ ← sendCmd c
    sendAll cs

/-- `Broadcast`. -/
def broadcast : ConnM ShmServer Unit := do
  let cs ← ask .order
  sendAll cs

/-- `CloseConn`. -/
def closeConn (c : ℕ) : ConnM ShmServer Unit := do
  let w ← get
  if c ∈ w.owner.conns then
    close c
    removeConn c

/-- The connection that `FinishAccept` makes. -/
def newConn (x : ShmServer) (fds : ℕ × ℕ) : ShmConn :=
  { ShmConn.new fds.1 fds.2 with
    codec := true
    verifycb := x.verifycb
    connectioncb := true
    messagecb := true
    closecb := true
    keepalive := x.keepalive }

/-- `FinishAccept` up to `OnConnection`. -/
def admitted (w : World ShmServer) (fds : ℕ × ℕ) : World ShmServer :=
  withServer
    { w.setConn w.owner.nextId fun _ => newConn w.owner fds with
      entries := addFd (addFd w.entries fds.1 (.notify w.owner.nextId)) fds.2
        (.socket w.owner.nextId) }
    fun x => { x with
      conns := x.conns ++ [x.nextId]
      nextId := x.nextId + 1
      ready := x.ready.tail
      entered := x.entered ++ [x.nextId] }

/-- `FinishAccept`. -/
def finishAccept (fds : ℕ × ℕ) : ConnM ShmServer Unit := do
  let w ← get
  if w.owner.maxClients ≤ w.owner.conns.length then
    return
  callback .factory
  if ← ask .codec then
    let w ← get
    modify fun w => admitted w fds
    onConnection w.owner.nextId

/-- The queue of `OnHandshakeComplete`. -/
def withReady (ready : List (ℕ × ℕ)) (w : World ShmServer) : World ShmServer :=
  withServer w fun x => { x with ready := ready }

/-- The loop of `OnHandshakeComplete`. -/
def acceptReady : List (ℕ × ℕ) → ConnM ShmServer Unit
  | [] => return
  | fds :: ready => do
    let w ← get
    if w.owner.started then
      finishAccept fds
      modify (withReady ready)
      acceptReady ready
    else
      modify (withReady [])

/-- `OnHandshakeComplete`. -/
def onHandshakeComplete : ConnM ShmServer Unit := do
  let ready ← ask .ready
  modify (withReady ready)
  acceptReady ready

/-- `OnConnNotify`. -/
def onConnNotify (c fuel : ℕ) : ConnM ShmServer Unit := do
  let w ← get
  if c ∈ w.owner.conns then
    let n ← drainRing c false fuel
    let w ← get
    if n < 0 ∨ (w.conns c).state = .closeing then
      removeConn c

/-- `OnConnSocket`. -/
def onConnSocket (c fuel : ℕ) : ConnM ShmServer Unit := do
  let w ← get
  if c ∈ w.owner.conns then
    if ← ask .revents then
      let n ← ask .read
      if n ≤ 0 then
        let _ ← drainRing c true fuel
        removeConn c

/-! ### The runs -/

/-- A verify callback of the connection is in progress. -/
def Verifying (ks : List (Cmd ShmServer)) (c : ℕ) : Prop := Cmd.callback (.verify c) ∈ ks

/-- What a run may do while the verify callback of a connection runs: remove it with `CloseConn`,
or with `Stop`; and the callback may throw. -/
structure Allowed where
  closes : Bool
  stops : Bool
  throws : Bool

/-- The calls: those of the application at any time, the handlers from the event loop. -/
inductive Calls (a : Allowed) (ks : List (Cmd ShmServer)) (w : World ShmServer) :
    ConnM ShmServer Unit → Prop
  | start : Calls a ks w (do let _ ← start)
  | stop (h : a.stops = true ∨ w.owner.started = false ∨ ∀ c, ¬ Verifying ks c) :
      Calls a ks w stop
  | closeConn (c : ℕ) (h : a.closes = true ∨ c ∉ w.owner.conns ∨ ¬ Verifying ks c) :
      Calls a ks w (closeConn c)
  | sendTo (c : ℕ) : Calls a ks w (do let _ ← sendTo c)
  | broadcast : Calls a ks w broadcast
  | close (c : ℕ) : Calls a ks w (close c)
  | sendCmd (c : ℕ) : Calls a ks w (do let _ ← sendCmd c)
  | startVerifyTimer (c : ℕ) : Calls a ks w (startVerifyTimer c)
  | onVerify (c : ℕ) (succ : Bool) (h : succ = true → (w.conns c).state.IsOpen) :
      Calls a ks w (onVerify c succ)
  | onHandshakeComplete (fd : ℕ) (hks : ks = []) (h : ⟨fd, .handshake, false⟩ ∈ w.entries) :
      Calls a ks w onHandshakeComplete
  | onConnNotify (fd c fuel : ℕ) (hks : ks = []) (h : ⟨fd, .notify c, false⟩ ∈ w.entries) :
      Calls a ks w (onConnNotify c fuel)
  | onConnSocket (fd c fuel : ℕ) (hks : ks = []) (h : ⟨fd, .socket c, false⟩ ∈ w.entries) :
      Calls a ks w (onConnSocket c fuel)
  | verifyTimerExpired (c tfd : ℕ) (hks : ks = [])
      (h : ⟨tfd, .verifyTimer c, false⟩ ∈ w.entries) : Calls a ks w (verifyTimerExpired c tfd)

/-- Any rings, any codec, any application, within what is allowed. -/
def env (a : Allowed) : Env ShmServer where
  answers _ w q r :=
    match q, r with
    | .order, cs => cs.Perm w.owner.conns
    | _, _ => True
  returns _ _ x threw :=
    match x with
    | .verify _ => a.throws = true ∨ threw = false
    | _ => True
  calls ks w p := Calls a ks w p

/-- A server before its first `Start`. -/
def initial (maxClients : ℤ) (keepalive verifycb failedcb successcb : Bool) : World ShmServer where
  conns _ := ShmConn.new 0 0
  entries := []
  log := []
  owner := ⟨false, [], 1, maxClients, keepalive, verifycb, failedcb, successcb, none, none, [], []⟩

/-! ### The order of the callbacks -/

/-- The callbacks of a connection. -/
inductive Kind : Type
  | verify
  | connection
  | message
  | close
  deriving DecidableEq, Repr

/-- The callback of connection `c` that an event is. -/
def kind (c : ℕ) : Event → Option Kind
  | .verify i => if i = c then some .verify else none
  | .connection i => if i = c then some .connection else none
  | .message i => if i = c then some .message else none
  | .close i => if i = c then some .close else none
  | .shut _ | .wrote _ | .sendCmd _ _ | .keepAlive _ => none

/-- The callbacks of a connection so far. -/
def trace (w : World ShmServer) (c : ℕ) : List Kind := w.log.filterMap (kind c)

/-- The beginning of: verify or not, connection, any number of messages, close or not. -/
def Shape (l : List Kind) : Prop :=
  ∃ (v : List Kind) (n : ℕ) (e : List Kind), (v = [] ∨ v = [.verify]) ∧ (e = [] ∨ e = [.close]) ∧
    l <+: v ++ .connection :: (List.replicate n .message ++ e)

/-- The callbacks of every connection come in order, in every run. -/
def InOrder (a : Allowed) : Prop :=
  ∀ maxClients keepalive verifycb failedcb successcb cfg,
    Reach (env a).machine (initial maxClients keepalive verifycb failedcb successcb) cfg →
      ∀ c, Shape (trace cfg.mem c)

/-- How far the callbacks of a connection are. -/
inductive Phase : Type
  | fresh
  | verified
  | opened
  | done
  deriving DecidableEq, Repr

def Phase.next : Phase → Kind → Option Phase
  | .fresh, .verify => some .verified
  | .fresh, .connection | .verified, .connection => some .opened
  | .opened, .message => some .opened
  | .opened, .close => some .done
  | _, _ => none

/-- The phase after the callbacks `l`, if they came in order. -/
def phase (l : List Kind) : Option Phase := l.foldlM Phase.next .fresh

theorem phase_append (l l' : List Kind) :
    phase (l ++ l') = (phase l).bind fun p => l'.foldlM Phase.next p := by
  rw [phase, List.foldlM_append]
  rfl

theorem phase_concat (l : List Kind) (k : Kind) :
    phase (l ++ [k]) = (phase l).bind fun p => p.next k := by
  rw [phase_append]
  simp

/-- The callbacks that lead to a phase. -/
def Phase.Form (l : List Kind) : Phase → Prop
  | .fresh => l = []
  | .verified => l = [.verify]
  | .opened => ∃ (v : List Kind) (n : ℕ), (v = [] ∨ v = [.verify]) ∧
      l = v ++ .connection :: List.replicate n .message
  | .done => ∃ (v : List Kind) (n : ℕ), (v = [] ∨ v = [.verify]) ∧
      l = v ++ .connection :: (List.replicate n .message ++ [.close])

theorem form_of_phase {l : List Kind} : ∀ {p : Phase}, phase l = some p → p.Form l := by
  induction l using List.reverseRecOn with
  | nil =>
    intro p h
    cases Option.some.inj h
    rfl
  | append_singleton l k ih =>
    intro p h
    rw [phase_concat, Option.bind_eq_some_iff] at h
    obtain ⟨q, hq, hk⟩ := h
    have hl := ih hq
    cases q <;> cases k <;> cases hk
    · rw [show l = [] from hl]
      rfl
    · rw [show l = [] from hl]
      exact ⟨[], 0, .inl rfl, rfl⟩
    · rw [show l = [.verify] from hl]
      exact ⟨[.verify], 0, .inr rfl, rfl⟩
    · obtain ⟨v, n, hv, rfl⟩ := hl
      refine ⟨v, n + 1, hv, ?_⟩
      simp [List.replicate_succ']
    · obtain ⟨v, n, hv, rfl⟩ := hl
      refine ⟨v, n, hv, ?_⟩
      simp

theorem foldlM_messages (n : ℕ) :
    (List.replicate n Kind.message).foldlM Phase.next .opened = some .opened := by
  induction n with
  | zero => rfl
  | succ n ih => exact ih

/-- The automaton goes through exactly the traces in order. -/
theorem shape_iff {l : List Kind} : Shape l ↔ ∃ p, phase l = some p := by
  constructor
  · rintro ⟨v, n, e, hv, he, t, ht⟩
    have hall : ∃ p, phase (l ++ t) = some p := by
      have hpre : phase (v ++ .connection :: List.replicate n .message) = some .opened := by
        rcases hv with rfl | rfl <;> exact foldlM_messages n
      rw [ht, ← List.cons_append, ← List.append_assoc, phase_append, hpre]
      rcases he with rfl | rfl
      · exact ⟨.opened, rfl⟩
      · exact ⟨.done, rfl⟩
    obtain ⟨p, hp⟩ := hall
    rw [phase_append, Option.bind_eq_some_iff] at hp
    exact ⟨hp.choose, hp.choose_spec.1⟩
  · rintro ⟨p, hp⟩
    have hl := form_of_phase hp
    cases p with
    | fresh =>
      rw [show l = [] from hl]
      exact ⟨[], 0, [], .inl rfl, .inl rfl, by simp⟩
    | verified =>
      rw [show l = [.verify] from hl]
      exact ⟨[.verify], 0, [], .inr rfl, .inl rfl, by simp⟩
    | opened =>
      obtain ⟨v, n, hv, rfl⟩ := hl
      exact ⟨v, n, [], hv, .inl rfl, by simp⟩
    | done =>
      obtain ⟨v, n, hv, rfl⟩ := hl
      exact ⟨v, n, [.close], hv, .inr rfl, by simp⟩

/-! ### The invariant -/

/-- Whenever the application has control, under the callbacks `ks`. -/
structure ServerInv (ks : List (Cmd ShmServer)) (w : World ShmServer) : Prop where
  verified : ∀ c, Verifying ks c → c ∈ w.owner.conns ∧ phase (trace w c) = some .verified
  opened : ∀ c ∈ w.owner.conns, ¬ Verifying ks c → phase (trace w c) = some .opened
  here : ∀ c ∈ w.owner.conns, c < w.owner.nextId ∧ (w.conns c).state ≠ .closeed ∧
    (w.conns c).connectioncb = true
  gone : ∀ c, c ∉ w.owner.conns → (w.conns c).state = .closeed
  fresh : ∀ c, w.owner.nextId ≤ c → phase (trace w c) = some .fresh

/-- The callbacks came in order so far. -/
def AllInOrder (w : World ShmServer) : Prop := ∀ c, ∃ p, phase (trace w c) = some p

/-- The rule: the callbacks are in order at every step. -/
def rule : Rule (Cmd ShmServer) (World ShmServer) where
  guar _ w w' := AllInOrder w → AllInOrder w'
  inv := ServerInv
  refl _ _ h := h
  trans _ _ _ _ h h' hw := h' (h hw)
  mono _ _ _ _ h := h

section Invariant

variable {ks ks' : List (Cmd ShmServer)} {w w' : World ShmServer} {x : Callback} {c : ℕ}

theorem verifying_cons (hx : ∀ c, x ≠ .verify c) (c : ℕ) :
    Verifying (.callback x :: ks) c ↔ Verifying ks c := by
  rw [Verifying, List.mem_cons]
  refine or_iff_right fun h => hx c ?_
  exact (Cmd.callback.inj h).symm

theorem ServerInv.under (h : ServerInv ks w) (hks : ∀ c, Verifying ks' c ↔ Verifying ks c) :
    ServerInv ks' w :=
  { h with
    verified := fun c hv => h.verified c ((hks c).mp hv)
    opened := fun c hc hv => h.opened c hc fun hv' => hv ((hks c).mpr hv') }

theorem ServerInv.push (h : ServerInv ks w) (hx : ∀ c, x ≠ .verify c) :
    ServerInv (.callback x :: ks) w :=
  h.under fun c => verifying_cons hx c

theorem ServerInv.pop (h : ServerInv (.callback x :: ks) w) (hx : ∀ c, x ≠ .verify c) :
    ServerInv ks w :=
  h.under fun c => (verifying_cons hx c).symm

@[simp] theorem trace_note (w : World ShmServer) (e : Event) (c : ℕ) :
    trace (w.note e) c = trace w c ++ (kind c e).toList := by
  simp only [trace, World.note_log, List.filterMap_append]
  cases h : kind c e <;> simp [h]

/-- Nothing changes that the order of the callbacks depends on. -/
structure Quiet (w w' : World ShmServer) : Prop where
  conns : w'.owner.conns = w.owner.conns
  nextId : w'.owner.nextId = w.owner.nextId
  trace : ∀ c, trace w' c = trace w c
  conn : ∀ c, ((w'.conns c).state = .closeed ↔ (w.conns c).state = .closeed) ∧
    (w'.conns c).connectioncb = (w.conns c).connectioncb

theorem Quiet.note {e : Event} (he : ∀ c, kind c e = none) : Quiet w (w.note e) :=
  ⟨rfl, rfl, fun c => by simp [he c], fun _ => ⟨Iff.rfl, rfl⟩⟩

theorem Quiet.entries (es : List Entry) : Quiet w { w with entries := es } :=
  ⟨rfl, rfl, fun _ => rfl, fun _ => ⟨Iff.rfl, rfl⟩⟩

theorem Quiet.trans {w'' : World ShmServer} (h : Quiet w w') (h' : Quiet w' w'') : Quiet w w'' :=
  ⟨h'.conns.trans h.conns, h'.nextId.trans h.nextId, fun c => (h'.trace c).trans (h.trace c),
    fun c => ⟨(h'.conn c).1.trans (h.conn c).1, (h'.conn c).2.trans (h.conn c).2⟩⟩

theorem Quiet.setConn {f : ShmConn → ShmConn}
    (hs : (f (w.conns c)).state = .closeed ↔ (w.conns c).state = .closeed)
    (hc : (f (w.conns c)).connectioncb = (w.conns c).connectioncb) : Quiet w (w.setConn c f) := by
  refine ⟨rfl, rfl, fun _ => rfl, fun i => ?_⟩
  by_cases hi : i = c
  · rw [hi, World.setConn_self]
    exact ⟨hs, hc⟩
  · rw [World.setConn_of_ne w c f hi]
    exact ⟨Iff.rfl, rfl⟩

theorem ServerInv.quiet (h : ServerInv ks w) (hq : Quiet w w') : ServerInv ks w' where
  verified c hv := by rw [hq.conns, hq.trace]; exact h.verified c hv
  opened c hc hv := by rw [hq.trace]; exact h.opened c (hq.conns ▸ hc) hv
  here c hc := by
    rw [hq.nextId, (hq.conn c).2, ne_eq, (hq.conn c).1]
    exact h.here c (hq.conns ▸ hc)
  gone c hc := (hq.conn c).1.mpr (h.gone c (hq.conns ▸ hc))
  fresh c hc := by rw [hq.trace]; exact h.fresh c (hq.nextId ▸ hc)

theorem Quiet.inOrder (hq : Quiet w w') (h : AllInOrder w) : AllInOrder w' := by
  intro c
  rw [hq.trace]
  exact h c

theorem Quiet.dropTimer (tfd : ℕ) : Quiet w (w.dropTimer c tfd) :=
  (Quiet.entries _).trans (Quiet.setConn Iff.rfl rfl)

theorem Quiet.addTimer (tfd : ℕ) : Quiet w (w.addTimer c tfd) :=
  (Quiet.entries _).trans (Quiet.setConn Iff.rfl rfl)

theorem Quiet.touch (ht : Touch c w w') : Quiet w w' := by
  cases ht with
  | shutDown ho =>
    have h1 : Quiet w (w.setConn c fun x => { x with closeType := .active, state := .closeing }) :=
      Quiet.setConn (by simp [not_closeed ho]) rfl
    exact h1.trans (Quiet.note fun _ => rfl)
  | dropTimer _ => exact Quiet.dropTimer _
  | established ho => exact Quiet.setConn (by simp [not_closeed ho]) rfl
  | dropContexts => exact Quiet.setConn Iff.rfl rfl
  | wrote _ => exact Quiet.note fun _ => rfl
  | keepAlive => exact Quiet.note fun _ => rfl

theorem kept : Kept rule ks c (ServerInv ks) :=
  fun _ _ h ht => ⟨(Quiet.touch ht).inOrder, h.quiet (Quiet.touch ht)⟩

/-- A callback of connection `c` is logged in order. -/
theorem inOrder_note {e : Event} (he : ∀ i, i ≠ c → kind i e = none)
    (hc : ∃ p, phase (trace (w.note e) c) = some p) (h : AllInOrder w) :
    AllInOrder (w.note e) := by
  intro i
  by_cases hi : i = c
  · rw [hi]
    exact hc
  · simpa [he i hi] using h i

/-- `RemoveConn` of a connection in the table, after `OnClose` took effect; `w'` is the world up to
the log of the close callback. -/
theorem ServerInv.removed (h : ServerInv ks w) (hc : c ∈ w.owner.conns) (hv : ¬ Verifying ks c)
    (hconns : w'.owner.conns = w.owner.conns.filter (· ≠ c))
    (hnext : w'.owner.nextId = w.owner.nextId) (htr : ∀ i, i ≠ c → trace w' i = trace w i)
    (hs : (w'.conns c).state = .closeed) (hold : ∀ i, i ≠ c → w'.conns i = w.conns i) :
    ServerInv ks w' where
  verified i hi := by
    have hne : i ≠ c := fun he => hv (he ▸ hi)
    rw [hconns, htr i hne]
    have h1 := h.verified i hi
    exact ⟨List.mem_filter.mpr ⟨h1.1, by simpa using hne⟩, h1.2⟩
  opened i hi hvi := by
    rw [hconns, List.mem_filter, decide_eq_true_eq] at hi
    rw [htr i hi.2]
    exact h.opened i hi.1 hvi
  here i hi := by
    rw [hconns, List.mem_filter, decide_eq_true_eq] at hi
    rw [hnext, hold i hi.2]
    exact h.here i hi.1
  gone i hi := by
    by_cases hne : i = c
    · rw [hne]
      exact hs
    · rw [hold i hne]
      refine h.gone i fun hm => hi ?_
      rw [hconns]
      exact List.mem_filter.mpr ⟨hm, by simpa using hne⟩
  fresh i hi := by
    rw [hnext] at hi
    have hne : i ≠ c := by
      rintro rfl
      exact absurd (h.here i hc).1 (by omega)
    rw [htr i hne]
    exact h.fresh i hi

/-- `FinishAccept` has admitted a connection and `OnConnection` set its state and logged its first
callback. -/
theorem ServerInv.admitted {fds : ℕ × ℕ} {st : TcpConnStates} {e : Event} {k : Kind}
    (h : ServerInv ks w) (hst : st ≠ .closeed)
    (he : ∀ i, kind i e = if w.owner.nextId = i then some k else none)
    (hks : ∀ i, i ≠ w.owner.nextId → (Verifying ks' i ↔ Verifying ks i))
    (hv : Verifying ks' w.owner.nextId → k = .verify)
    (hn : ¬ Verifying ks' w.owner.nextId → k = .connection) :
    ServerInv ks' (((Server.admitted w fds).setConn w.owner.nextId
      fun x => { x with state := st }).note e) := by
  have hmem : ∀ i, i ∈ w.owner.conns ++ [w.owner.nextId] ↔
      i ∈ w.owner.conns ∨ i = w.owner.nextId :=
    fun i => List.mem_append.trans (or_congr_right List.mem_singleton)
  have hlt : ∀ i ∈ w.owner.conns, i ≠ w.owner.nextId := fun i hi => (h.here i hi).1.ne
  have htr : ∀ i, trace (((Server.admitted w fds).setConn w.owner.nextId
      fun x => { x with state := st }).note e) i = trace w i ++ (kind i e).toList :=
    fun i => trace_note _ e i
  have hold : ∀ i, i ≠ w.owner.nextId → (((Server.admitted w fds).setConn w.owner.nextId
      fun x => { x with state := st }).note e).conns i = w.conns i := by
    intro i hi
    rw [World.note_conns, World.setConn_of_ne _ _ _ hi]
    exact w.setConn_of_ne _ (fun _ => newConn w.owner fds) hi
  constructor
  case verified =>
    intro i hi
    rw [htr, he]
    by_cases hne : i = w.owner.nextId
    · subst hne
      refine ⟨(hmem _).mpr (.inr rfl), ?_⟩
      simp [phase_concat, h.fresh _ le_rfl, hv hi, Phase.next]
    · obtain ⟨h1, h2⟩ := h.verified i ((hks i hne).mp hi)
      refine ⟨(hmem i).mpr (.inl h1), ?_⟩
      simpa [Ne.symm hne] using h2
  case opened =>
    intro i hi hvi
    rw [htr, he]
    rcases (hmem i).mp hi with hi | rfl
    · have hne := hlt i hi
      have h1 := h.opened i hi fun hv' => hvi ((hks i hne).mpr hv')
      simpa [hne.symm] using h1
    · simp [phase_concat, h.fresh _ le_rfl, hn hvi, Phase.next]
  case here =>
    intro i hi
    rcases (hmem i).mp hi with hi | rfl
    · rw [hold i (hlt i hi)]
      exact ⟨Nat.lt_succ_of_lt (h.here i hi).1, (h.here i hi).2⟩
    · refine ⟨Nat.lt_succ_self _, ?_, ?_⟩
      · simpa using hst
      · simp [Server.admitted, withServer, newConn]
  case gone =>
    intro i hi
    have hi' := (not_congr (hmem i)).mp hi
    rw [not_or] at hi'
    rw [hold i hi'.2]
    exact h.gone i hi'.1
  case fresh =>
    intro i hi
    have hi' : w.owner.nextId + 1 ≤ i := hi
    rw [htr, he, if_neg (by omega)]
    simpa using h.fresh i (by omega)

/-- The connection callback after the verify callback. -/
theorem ServerInv.connected (h : ServerInv (.callback (.verify c) :: ks) w)
    (hv : ¬ Verifying ks c) : ServerInv ks (w.note (.connection c)) := by
  have hc := h.verified c List.mem_cons_self
  have htr : ∀ i, i ≠ c → trace (w.note (.connection c)) i = trace w i := by
    intro i hi
    simp [kind, hi.symm]
  constructor
  case verified =>
    intro i hi
    have hne : i ≠ c := fun he => hv (he ▸ hi)
    rw [htr i hne]
    exact h.verified i (List.mem_cons_of_mem _ hi)
  case opened =>
    intro i hi hvi
    by_cases hne : i = c
    · rw [hne]
      simp [kind, phase_concat, hc.2, Phase.next]
    · rw [htr i hne]
      refine h.opened i hi fun hv' => hvi ((List.mem_cons.mp hv').resolve_left fun he => hne ?_)
      exact Callback.verify.inj (Cmd.callback.inj he)
  case here => exact h.here
  case gone => exact h.gone
  case fresh =>
    intro i hi
    have hlt := (h.here c hc.1).1
    have hi' : w.owner.nextId ≤ i := hi
    rw [htr i (by omega)]
    exact h.fresh i hi

end Invariant

/-! ### The functions keep it -/

section Functions

variable {a : Allowed} {ks : List (Cmd ShmServer)} {w : World ShmServer} {c : ℕ}

theorem removeConn_keeps (h : ServerInv ks w) (hv : ¬ Verifying ks c) :
    wpx (env a).machine rule ks (removeConn c) (fun _ => ServerInv ks) (ServerInv ks) w := by
  rw [removeConn, wpx_bind, wpx_modify]
  refine ⟨id, ?_⟩
  by_cases hc : c ∈ w.owner.conns
  · have hst : ((released c w).conns c).state ≠ .closeed := (h.here c hc).2.1
    have hph := h.opened c hc hv
    have hold : ∀ i, i ≠ c → ((released c w).closed c).conns i = w.conns i := by
      intro i hi
      rw [World.closed, World.note_conns, World.setConn_of_ne _ _ _ hi]
      rfl
    have hs : (((released c w).closed c).conns c).state = .closeed := by simp [World.closed]
    have htr : ∀ i, trace ((released c w).closed c) i = trace w i := by
      intro i
      simp only [World.closed, trace_note, kind, Option.toList_none, List.append_nil]
      rfl
    have h1 : ServerInv ks ((released c w).closed c) :=
      h.removed hc hv rfl rfl (fun i _ => htr i) hs hold
    have h2 : ServerInv ks (((released c w).closed c).note (.close c)) := by
      refine h.removed hc hv rfl rfl (fun i hi => ?_) hs hold
      simp [htr, kind, hi.symm]
    refine onClose_keeps kept (fun hs' => absurd hs' hst) fun _ => ⟨?_, fun _ => h1, fun _ => ?_⟩
    · intro hord i
      rw [htr]
      exact hord i
    · refine ⟨inOrder_note (c := c) (fun i hi => by simp [kind, hi.symm]) ⟨.done, ?_⟩,
        h2.push (by simp), fun w' hw' => hw'.2.pop (by simp)⟩
      simp [htr, kind, phase_concat, hph, Phase.next]
  · have hst : ((released c w).conns c).state = .closeed := h.gone c hc
    have hq : Quiet w (released c w) := by
      refine ⟨?_, rfl, fun _ => rfl, fun _ => ⟨Iff.rfl, rfl⟩⟩
      refine List.filter_eq_self.mpr fun i hi => ?_
      simpa using fun he : i = c => hc (he ▸ hi)
    exact onClose_keeps kept (fun _ => h.quiet hq) fun hs' => absurd hst hs'

theorem removeConns_keeps (hv : ∀ c, ¬ Verifying ks c) :
    ∀ (cs : List ℕ) {w : World ShmServer}, ServerInv ks w →
      wpx (env a).machine rule ks (removeConns cs) (fun _ => ServerInv ks) (ServerInv ks) w
  | [], _, h => h
  | c :: cs, _, h => by
    rw [removeConns, wpx_bind]
    exact wpx_mono (fun _ _ h' => removeConns_keeps hv cs h') (fun _ h' => h')
      (removeConn_keeps h (hv c))

theorem stop_keeps (h : ServerInv ks w) (hv : w.owner.started = true → ∀ c, ¬ Verifying ks c) :
    wpx (env a).machine rule ks stop (fun _ => ServerInv ks) (ServerInv ks) w := by
  rw [stop, wpx_bind, wpx_get, wpx_ite]
  refine ⟨fun hs => ?_, fun _ => h⟩
  rw [wpx_bind, wpx_modify, wpx_bind, wpx_modify, wpx_bind]
  refine ⟨id, id, wpx_ask.mpr fun cs _ => removeConns_keeps (hv hs) cs (h.quiet ?_)⟩
  exact ⟨rfl, rfl, fun _ => rfl, fun _ => ⟨Iff.rfl, rfl⟩⟩

theorem closeConn_keeps (h : ServerInv ks w) (hv : c ∈ w.owner.conns → ¬ Verifying ks c) :
    wpx (env a).machine rule ks (closeConn c) (fun _ => ServerInv ks) (ServerInv ks) w := by
  rw [closeConn, wpx_bind, wpx_get, wpx_ite]
  refine ⟨fun hc => ?_, fun _ => h⟩
  rw [wpx_bind]
  exact wpx_mono (fun _ _ h' => removeConn_keeps h' (hv hc)) (fun _ h' => h') (close_keeps kept h)

theorem sendCmd_inv (h : ServerInv ks w) (c : ℕ) :
    wpx (env a).machine rule ks (sendCmd c) (fun _ => ServerInv ks) (ServerInv ks) w :=
  wpx_mono (fun _ _ h' => h'.1) (fun _ h' => h') (sendCmd_keeps kept h)

theorem sendAll_keeps : ∀ (cs : List ℕ) {w : World ShmServer}, ServerInv ks w →
    wpx (env a).machine rule ks (sendAll cs) (fun _ => ServerInv ks) (ServerInv ks) w
  | [], _, h => h
  | c :: cs, _, h => by
    rw [sendAll, wpx_bind]
    exact wpx_mono (fun _ _ h' => sendAll_keeps cs h') (fun _ h' => h') (sendCmd_inv h c)

/-- The queue of `OnHandshakeComplete` does not matter. -/
theorem quiet_withReady (ready : List (ℕ × ℕ)) (w : World ShmServer) :
    Quiet w (withReady ready w) :=
  ⟨rfl, rfl, fun _ => rfl, fun _ => ⟨Iff.rfl, rfl⟩⟩

/-- `FinishAccept` once there is a codec; the connection it admits is new. -/
theorem admitted_keeps (ht : a.throws = false) {fds : ℕ × ℕ} (h : ServerInv ks w) :
    wpx (env a).machine rule ks (onConnection w.owner.nextId) (fun _ => ServerInv ks)
      (ServerInv ks) (admitted w fds) := by
  have hnew : ¬ Verifying ks w.owner.nextId :=
    fun hv => absurd (h.here _ (h.verified _ hv).1).1 (lt_irrefl _)
  have hks : ∀ i, i ≠ w.owner.nextId →
      (Verifying (.callback (.verify w.owner.nextId) :: ks) i ↔ Verifying ks i) := by
    intro i hi
    refine List.mem_cons.trans (or_iff_right fun he => hi ?_)
    exact Callback.verify.inj (Cmd.callback.inj he)
  have hverifing : ServerInv (.callback (.verify w.owner.nextId) :: ks)
      ((admitted w fds).verifing w.owner.nextId) :=
    h.admitted (by simp) (fun _ => rfl) hks (fun _ => rfl) fun hv => absurd List.mem_cons_self hv
  have hestablished : ServerInv ks
      (((admitted w fds).established w.owner.nextId).note (.connection w.owner.nextId)) :=
    h.admitted (by simp) (fun _ => rfl) (fun _ _ => Iff.rfl) (fun hv => absurd hv hnew) fun _ => rfl
  refine onConnection_keeps (K := fun w' =>
    w.owner.nextId ∈ w'.owner.conns ∧ ServerInv ks (w'.note (.connection w.owner.nextId)))
    (fun _ => ?_) (fun _ => ?_) fun w' hw' => ?_
  · have hph := (hverifing.verified _ List.mem_cons_self).2
    refine ⟨inOrder_note (c := w.owner.nextId) (fun i hi => by simp [kind, hi.symm]) ⟨_, hph⟩,
      hverifing, fun w' hw' => ⟨fun _ => ?_, fun hthrew => ?_⟩⟩
    · exact ⟨(hw'.2.verified _ List.mem_cons_self).1, hw'.2.connected hnew⟩
    · simp [env, ht] at hthrew
  · exact ⟨id, List.mem_append_right _ List.mem_cons_self, hestablished⟩
  · obtain ⟨hmem, hinv⟩ := hw'
    refine ⟨fun hcb => ?_, ?_, hinv.push (by simp), fun w'' hw'' => ?_⟩
    · have h1 := (hinv.here _ hmem).2.2
      rw [World.note_conns, hcb] at h1
      cases h1
    · exact inOrder_note (c := w.owner.nextId) (fun i hi => by simp [kind, hi.symm])
        ⟨.opened, hinv.opened _ hmem hnew⟩
    · exact ⟨fun _ => hw''.2.pop (by simp), fun _ => hw''.2.pop (by simp)⟩

theorem finishAccept_keeps (ht : a.throws = false) {fds : ℕ × ℕ} (h : ServerInv ks w) :
    wpx (env a).machine rule ks (finishAccept fds) (fun _ => ServerInv ks) (ServerInv ks) w := by
  rw [finishAccept, wpx_bind, wpx_get, wpx_ite, wpx_bind, wpx_callback]
  refine ⟨fun _ => h, fun _ => ⟨h.push (by simp), fun w' hw' => ?_⟩⟩
  have h1 := hw'.2.pop (by simp)
  rw [wpx_bind]
  refine ⟨fun _ => wpx_ask.mpr fun codec _ => ?_, fun _ => h1⟩
  rw [wpx_ite, wpx_bind, wpx_get, wpx_bind, wpx_modify]
  exact ⟨fun _ => ⟨id, admitted_keeps ht h1⟩, fun _ => h1⟩

theorem acceptReady_keeps (ht : a.throws = false) :
    ∀ (ready : List (ℕ × ℕ)) {w : World ShmServer}, ServerInv ks w →
      wpx (env a).machine rule ks (acceptReady ready) (fun _ => ServerInv ks) (ServerInv ks) w
  | [], _, h => h
  | fds :: ready, w, h => by
    rw [acceptReady, wpx_bind, wpx_get, wpx_ite, wpx_bind, wpx_modify]
    refine ⟨fun _ => ?_, fun _ => ⟨id, h.quiet (quiet_withReady [] w)⟩⟩
    refine wpx_mono (fun _ w' h' => ?_) (fun _ h' => h') (finishAccept_keeps ht h)
    rw [wpx_bind, wpx_modify]
    exact ⟨id, acceptReady_keeps ht ready (h'.quiet (quiet_withReady ready w'))⟩

/-- The handlers run without callbacks in progress, so a package finds its connection opened. -/
theorem delivers {viaSocket : Bool} : Delivers rule [] c viaSocket (ServerInv []) := by
  intro w h ho
  have hmem : c ∈ w.owner.conns := by
    by_contra hc
    exact not_closeed ho (h.gone c hc)
  have hph := h.opened c hmem (List.not_mem_nil)
  have htr : ∀ i, i ≠ c → trace (w.note (.message c)) i = trace w i := by
    intro i hi
    simp [kind, hi.symm]
  have hmsg : phase (trace (w.note (.message c)) c) = some .opened := by
    simp [kind, phase_concat, hph, Phase.next]
  have h1 : ServerInv [] (w.note (.message c)) := by
    refine ⟨fun _ hv => absurd hv List.not_mem_nil, fun i hi hv => ?_, h.here, h.gone,
      fun i hi => ?_⟩
    · by_cases hne : i = c
      · rw [hne]
        exact hmsg
      · rw [htr i hne]
        exact h.opened i hi hv
    · have hlt := (h.here c hmem).1
      have hi' : w.owner.nextId ≤ i := hi
      rw [htr i (by omega)]
      exact h.fresh i hi
  exact ⟨inOrder_note (c := c) (fun i hi => by simp [kind, hi.symm]) ⟨.opened, hmsg⟩,
    h1.push (by simp), fun w' hw' => hw'.2.pop (by simp)⟩

theorem drainRing_inv {viaSocket : Bool} (h : ServerInv [] w) (fuel : ℕ) :
    wpx (env a).machine rule [] (drainRing c viaSocket fuel) (fun _ => ServerInv [])
      (ServerInv []) w :=
  wpx_mono (fun _ _ h' => h'.1) (fun _ h' => h')
    (drainRing_keeps (X := fun _ => True) kept delivers (fun _ _ _ => trivial) h
      (fun _ => trivial) fuel)

theorem onConnNotify_keeps {fuel : ℕ} (h : ServerInv [] w) :
    wpx (env a).machine rule [] (onConnNotify c fuel) (fun _ => ServerInv []) (ServerInv []) w := by
  rw [onConnNotify, wpx_bind, wpx_get, wpx_ite, wpx_bind]
  refine ⟨fun _ => ?_, fun _ => h⟩
  refine wpx_mono (fun n w' h' => ?_) (fun _ h' => h') (drainRing_inv h fuel)
  rw [wpx_bind, wpx_get, wpx_ite]
  exact ⟨fun _ => removeConn_keeps h' List.not_mem_nil, fun _ => h'⟩

theorem onConnSocket_keeps {fuel : ℕ} (h : ServerInv [] w) :
    wpx (env a).machine rule [] (onConnSocket c fuel) (fun _ => ServerInv []) (ServerInv []) w := by
  rw [onConnSocket, wpx_bind, wpx_get, wpx_ite, wpx_bind]
  refine ⟨fun _ => wpx_ask.mpr fun revents _ => ?_, fun _ => h⟩
  rw [wpx_ite, wpx_bind]
  refine ⟨fun _ => wpx_ask.mpr fun n _ => ?_, fun _ => h⟩
  rw [wpx_ite, wpx_bind]
  refine ⟨fun _ => ?_, fun _ => h⟩
  exact wpx_mono (fun _ _ h' => removeConn_keeps h' List.not_mem_nil) (fun _ h' => h')
    (drainRing_inv h fuel)

theorem start_keeps (h : ServerInv ks w) :
    wpx (env a).machine rule ks start (fun _ => ServerInv ks) (ServerInv ks) w := by
  have hcall : ∀ (x : Callback) (w' : World ShmServer), (∀ c, x ≠ .verify c) → ServerInv ks w' →
      wpx (env a).machine rule ks (callback x) (fun _ => ServerInv ks) (fun _ => True) w' := by
    intro x w' hx h'
    rw [wpx_callback]
    exact ⟨h'.push hx, fun w'' hw'' => ⟨fun _ => hw''.2.pop hx, fun _ => trivial⟩⟩
  have hquiet : ∀ w', Quiet w w' → ServerInv ks w' := fun _ hq => h.quiet hq
  rw [start, wpx_tryCatch]
  refine wpx_mono (fun _ _ h' => h') (fun _ _ => wpx_never) (E := fun _ => True) ?_
  rw [wpx_bind, wpx_get, wpx_ite, wpx_bind]
  refine ⟨fun _ => h, fun _ => wpx_ask.mpr fun fds _ => ?_⟩
  cases fds with
  | none =>
    have h1 := hquiet (withServer w fun x => { x with listenFd := none })
      ⟨rfl, rfl, fun _ => rfl, fun _ => ⟨Iff.rfl, rfl⟩⟩
    simp only [wpx_bind, wpx_modify, wpx_ite, wpx_pure]
    exact ⟨id, fun _ => hcall _ _ (by simp) h1, fun _ => h1⟩
  | some fds =>
    have h1 := hquiet (listening w fds) ⟨rfl, rfl, fun _ => rfl, fun _ => ⟨Iff.rfl, rfl⟩⟩
    simp only [wpx_bind, wpx_modify, wpx_ite, wpx_pure]
    exact ⟨id, fun _ => hcall _ _ (by simp) h1, fun _ => h1⟩

/-- Every call keeps the invariant. -/
theorem calls_keep (hc : a.closes = false) (hs : a.stops = false) (ht : a.throws = false)
    {p : ConnM ShmServer Unit} (h : ServerInv ks w) (hp : Calls a ks w p) :
    wpx (env a).machine rule ks p (fun _ => ServerInv ks) (ServerInv ks) w := by
  cases hp with
  | start => exact wpx_bind.mpr (start_keeps h)
  | stop hok =>
    refine stop_keeps h fun hst => ?_
    simpa [hs, hst] using hok
  | closeConn c hok =>
    refine closeConn_keeps h fun hmem => ?_
    simpa [hc, hmem] using hok
  | sendTo c =>
    refine wpx_bind.mpr ?_
    rw [sendTo, wpx_bind, wpx_get, wpx_ite]
    exact ⟨fun _ => sendCmd_inv h c, fun _ => h⟩
  | broadcast => exact wpx_bind.mpr (wpx_ask.mpr fun cs _ => sendAll_keeps cs h)
  | close c => exact close_keeps kept h
  | sendCmd c => exact wpx_bind.mpr (sendCmd_inv h c)
  | startVerifyTimer c =>
    refine startVerifyTimer_keeps h fun tfd _ => ?_
    exact ⟨(Quiet.addTimer tfd).inOrder, h.quiet (Quiet.addTimer tfd)⟩
  | onVerify c succ hok => exact onVerify_keeps kept h hok
  | onHandshakeComplete fd hks _ =>
    refine wpx_bind.mpr (wpx_ask.mpr fun ready _ => ?_)
    rw [wpx_bind, wpx_modify]
    exact ⟨id, acceptReady_keeps ht ready (h.quiet (quiet_withReady ready w))⟩
  | onConnNotify fd c fuel hks _ =>
    subst hks
    exact onConnNotify_keeps h
  | onConnSocket fd c fuel hks _ =>
    subst hks
    exact onConnSocket_keeps h
  | verifyTimerExpired c tfd hks _ =>
    rw [verifyTimerExpired, wpx_bind, wpx_modify, wpx_callback]
    refine ⟨(Quiet.dropTimer tfd).inOrder, (h.quiet (Quiet.dropTimer tfd)).push (by simp), ?_⟩
    exact fun w' hw' => ⟨fun _ => hw'.2.pop (by simp), fun _ => hw'.2.pop (by simp)⟩

end Functions

/-! ### When the callbacks come in order -/

theorem serverInv_initial (maxClients : ℤ) (keepalive verifycb failedcb successcb : Bool) :
    ServerInv [] (initial maxClients keepalive verifycb failedcb successcb) where
  verified _ hv := absurd hv List.not_mem_nil
  opened _ hc := absurd hc List.not_mem_nil
  here _ hc := absurd hc List.not_mem_nil
  gone _ _ := rfl
  fresh _ _ := rfl

theorem inOrder {a : Allowed} (hc : a.closes = false) (hs : a.stops = false)
    (ht : a.throws = false) : InOrder a := by
  intro maxClients keepalive verifycb failedcb successcb cfg hreach c
  have h₀ := serverInv_initial maxClients keepalive verifycb failedcb successcb
  have hreach' := reach_inv (e := env a) (ρ := rule) (fun _ _ _ => calls_keep hc hs ht) h₀
    hreach
  exact shape_iff.mpr (hreach'.2 (fun _ => ⟨.fresh, rfl⟩) c)

/-- A server with a verify callback. -/
def verifier : World ShmServer := initial 16 false true false false

theorem not_inOrder {a : Allowed} {cfg : Config (Cmd ShmServer) Cmd.Res (World ShmServer)}
    (hreach : Reach (env a).machine verifier cfg) (htr : phase (trace cfg.mem 1) = none) :
    ¬ InOrder a := by
  intro h
  obtain ⟨p, hp⟩ := shape_iff.mp (h 16 false true false false cfg hreach 1)
  rw [htr] at hp
  cases hp

theorem reach_listening (a : Allowed) :
    Reach (env a).machine verifier ⟨listening verifier (3, 4), none, []⟩ := by
  have h0 : Reach (env a).machine verifier ⟨verifier, none, []⟩ := .refl
  exact reach_done (reach_answer (reach_start h0 _ .start) (some (3, 4)) trivial)

/-- `CloseConn` in the verify callback: verify, close, connection. -/
theorem disordered_by_closeConn {a : Allowed} (ha : a.closes = true) : ¬ InOrder a := by
  have h1 := reach_start (reach_listening a) _ (.onHandshakeComplete 4 rfl (by decide))
  have h2 := reach_enter (reach_answer h1 [(5, 6)] trivial)
  have h3 := reach_enter (reach_answer (reach_leave h2 false trivial) true trivial)
  have h4 := reach_enter (reach_start h3 _ (.closeConn 1 (.inl ha)))
  have h5 := reach_done (reach_leave h4 false trivial)
  have h6 := reach_leave h5 false (.inr rfl)
  exact not_inOrder h6 (by decide)

/-- `Stop` in the verify callback: verify, close, connection. -/
theorem disordered_by_stop {a : Allowed} (ha : a.stops = true) : ¬ InOrder a := by
  have h1 := reach_start (reach_listening a) _ (.onHandshakeComplete 4 rfl (by decide))
  have h2 := reach_enter (reach_answer h1 [(5, 6)] trivial)
  have h3 := reach_enter (reach_answer (reach_leave h2 false trivial) true trivial)
  have h4 := reach_answer (reach_start h3 _ (.stop (.inl ha))) [1] (List.Perm.refl [1])
  have h5 := reach_done (reach_leave (reach_enter h4) false trivial)
  have h6 := reach_leave h5 false (.inr rfl)
  exact not_inOrder h6 (by decide)

/-- An exception of the verify callback: verify, message. -/
theorem disordered_by_throw {a : Allowed} (ha : a.throws = true) : ¬ InOrder a := by
  have h1 := reach_start (reach_listening a) _ (.onHandshakeComplete 4 rfl (by decide))
  have h2 := reach_enter (reach_answer h1 [(5, 6)] trivial)
  have h3 := reach_enter (reach_answer (reach_leave h2 false trivial) true trivial)
  have h4 := reach_done (reach_leave h3 true (.inl ha))
  have h5 := reach_start h4 _ (.onConnNotify 5 1 1 rfl (by decide))
  have h6 := reach_answer h5 (.package 1 ()) trivial
  exact not_inOrder h6 (by decide)

/-- **The callbacks come in order if and only if a run may do none of the three.** -/
theorem inOrder_iff (a : Allowed) :
    InOrder a ↔ a.closes = false ∧ a.stops = false ∧ a.throws = false := by
  constructor
  · intro h
    refine ⟨?_, ?_, ?_⟩ <;> rw [← Bool.not_eq_true]
    · exact fun ha => disordered_by_closeConn ha h
    · exact fun ha => disordered_by_stop ha h
    · exact fun ha => disordered_by_throw ha h
  · rintro ⟨hc, hs, ht⟩
    exact inOrder hc hs ht

/-- Without a condition, and even without exceptions, the connection callback comes after the close
callback. -/
theorem connection_after_close : ¬ InOrder ⟨true, true, false⟩ := disordered_by_closeConn rfl

end ShmIpc.Conn.Server
