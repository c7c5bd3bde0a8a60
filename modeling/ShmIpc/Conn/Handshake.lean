import ShmIpc.Lib.Reentrant
import ShmIpc.Lib.Trace
import Mathlib.Data.Int.Notation
import Mathlib.Tactic.Linarith

/-! # The handshake hand-off: `shm_server.hpp`

The loop thread accepts sockets and hands them to the handshake thread, which hands them back when
the channel is there. The state is what the two share under `hs_mtx_`, the table, and the locals of
the loop thread that own a socket; sockets are numbered as they are accepted.

A step is a section under the mutex, or between two of them. The functions of the loop thread give
control away where they hold no lock (`yield`, and `join` in `Stop`), and there the handshake thread
may take any number of its steps; so it may whenever the event loop or the application has control.
In a callback the application may also call `Stop` and `CloseConn`. -/

namespace ShmIpc.Conn.Handshake

open ShmIpc.Lib.RelyGuarantee ShmIpc.Lib.Reentrant ShmIpc.Lib.Trace

/-! ### The two threads -/

/-- Where `HandshakeWorker` is. -/
inductive Worker : Type
  /-- at the condition variable -/
  | waiting
  /-- in `CreateRingChannel`, and after it -/
  | shaking
  | shaken (ok : Bool)
  /-- about to write to the eventfd -/
  | notifying
  /-- returned, or not started -/
  | exited
  deriving DecidableEq, Repr

/-- What is recorded. -/
inductive Event : Type
  | start
  /-- `Stop` returns -/
  | stopped
  /-- a connection enters the table -/
  | enter (c : ℕ)
  deriving DecidableEq, Repr

/-- The server. `cfd` is the new socket of `OnAccept`, `ready` the queue of `OnHandshakeComplete`
with the one in hand; `accepted` counts, `closed`, `overLimit` (dropped by `FinishAccept` because of
the limit) and `trace` record. -/
structure ShmServer where
  started : Bool
  stopping : Bool
  pending : List ℕ
  current : Option ℕ
  done : List ℕ
  cfd : Option ℕ
  ready : List ℕ
  conns : List ℕ
  closed : List ℕ
  worker : Worker
  accepted : ℕ
  maxClients : ℤ
  overLimit : List ℕ
  trace : List Event
  deriving DecidableEq, Repr

/-- A server before its first `Start`. -/
def initial (maxClients : ℤ) : ShmServer where
  started := false
  stopping := false
  pending := []
  current := none
  done := []
  cfd := none
  ready := []
  conns := []
  closed := []
  worker := .exited
  accepted := 0
  maxClients := maxClients
  overLimit := []
  trace := []

/-- What the outside decides. -/
inductive Query : Type
  /-- does `accept` succeed -/
  | accept
  /-- does the codec factory return a codec -/
  | codec
  /-- can the server listen, and start its thread -/
  | listen
  | launch
  /-- does a handler find its connection closed -/
  | gone

/-- The commands. -/
inductive Cmd : Type
  | get
  | modify (f : ShmServer → ShmServer)
  | ask (q : Query)
  /-- no lock is held -/
  | yield
  /-- `hs_thread_.join()` -/
  | join
  /-- the application's callbacks -/
  | callback

/-- The results. -/
@[reducible] def Cmd.Res : Cmd → Type
  | .get => ShmServer
  | .ask _ => Bool
  | .modify _ | .yield | .join | .callback => Unit

abbrev HsM : Type → Type := Prog Cmd Cmd.Res

def get : HsM ShmServer := Prog.cmd Cmd.get
def modify (f : ShmServer → ShmServer) : HsM Unit := Prog.cmd (Cmd.modify f)
def ask (q : Query) : HsM Bool := Prog.cmd (Cmd.ask q)
def yield : HsM Unit := Prog.cmd Cmd.yield
def join : HsM Unit := Prog.cmd Cmd.join
def callback : HsM Unit := Prog.cmd Cmd.callback

namespace ShmServer

variable (s : ShmServer)

/-- `inflight` of `OnAccept`. -/
def inflight : ℕ := s.pending.length + s.done.length + s.current.toList.length

/-- Over the limit, a socket is accepted and closed. -/
def rejected : ShmServer :=
  { s with accepted := s.accepted + 1, closed := s.closed ++ [s.accepted] }

/-- A socket is accepted. -/
def gotSocket : ShmServer := { s with accepted := s.accepted + 1, cfd := some s.accepted }

/-- It goes to `hs_pending_`. -/
def enqueued : ShmServer := { s with pending := s.pending ++ s.cfd.toList, cfd := none }

/-- The queue of finished handshakes is taken over. -/
def taken : ShmServer := { s with ready := s.done, done := [] }

/-- The first of it enters the table. -/
def admitted (c : ℕ) : ShmServer :=
  { s with ready := s.ready.tail, conns := s.conns ++ [c], trace := s.trace ++ [.enter c] }

/-- The first of it is dropped. -/
def dropped (c : ℕ) : ShmServer := { s with ready := s.ready.tail, closed := s.closed ++ [c] }

/-- The rest of it is dropped. -/
def abandoned : ShmServer := { s with ready := [], closed := s.closed ++ s.ready }

/-- A connection leaves the table. -/
def removed (c : ℕ) : ShmServer :=
  { s with conns := s.conns.erase c, closed := s.closed ++ [c] }

/-- `Stop` clears the three places. -/
def cleared : ShmServer :=
  { s with
    closed := s.closed ++ (s.pending ++ s.done ++ s.current.toList)
    pending := []
    done := []
    current := none }

/-- `Start` goes through. -/
def launched : ShmServer :=
  { s with started := true, worker := .waiting, trace := s.trace ++ [.start] }

/-- The first section of the loop of `HandshakeWorker`. -/
def take : ShmServer :=
  match s.pending with
  | [] => { s with worker := .exited }
  | c :: rest => { s with current := some c, pending := rest, worker := .shaking }

/-- The second one. -/
def put (ok : Bool) : ShmServer :=
  if ok = true ∧ s.stopping = false then
    { s with done := s.done ++ s.current.toList, current := none, worker := .notifying }
  else
    { s with closed := s.closed ++ s.current.toList, current := none, worker := .waiting }

end ShmServer

/-- `OnAccept`. -/
def onAccept : HsM Unit := do
  let s ← get
  if s.maxClients ≤ 0 ∨ s.maxClients ≤ s.conns.length + s.inflight then
    -- still under the lock
    if ← ask .accept then
      modify ShmServer.rejected
  else
    yield
    if ← ask .accept then
      modify ShmServer.gotSocket
      yield
      modify ShmServer.enqueued

/-- `RemoveConn`. -/
def removeConn (c : ℕ) : HsM Unit := do
  let s ← get
  if c ∈ s.conns then
    modify fun s => s.removed c
    callback

/-- The loop of `Stop` over a copy of the table. -/
def removeConns : List ℕ → HsM Unit
  | [] => return
  | c :: cs => do
    removeConn c
    removeConns cs

/-- `Stop`. -/
def stop : HsM Unit := do
  let s ← get
  if s.started then
    modify fun s => { s with started := false }
    yield
    modify fun s => { s with stopping := true }
    join
    modify ShmServer.cleared
    let s ← get
    removeConns s.conns
  modify fun s => { s with trace := s.trace ++ [.stopped] }

/-- `FinishAccept`, of the first of the queue; its callbacks are one here. -/
def finishAccept (c : ℕ) : HsM Unit := do
  let s ← get
  if s.maxClients ≤ s.conns.length then
    modify fun s => { s.dropped c with overLimit := s.overLimit ++ [c] }
  else
    yield
    if ← ask .codec then
      modify fun s => s.admitted c
      callback
    else
      modify fun s => s.dropped c

/-- The loop of `OnHandshakeComplete`, for at most `n` turns. -/
def acceptLoop : ℕ → HsM Unit
  | 0 => return
  | n + 1 => do
    let s ← get
    match s.ready with
    | [] => return
    | c :: _ =>
      if s.started then
        finishAccept c
        acceptLoop n
      else
        modify ShmServer.abandoned

/-- `OnHandshakeComplete`. -/
def onHandshakeComplete : HsM Unit := do
  yield
  modify ShmServer.taken
  let s ← get
  acceptLoop s.ready.length

/-- `OnConnNotify` or `OnConnSocket`: message callbacks, and the connection is removed or not. -/
def onConnEvent (c : ℕ) : HsM Unit := do
  let s ← get
  if c ∈ s.conns then
    callback
    if ← ask .gone then
      removeConn c

/-- `Start`. -/
def start : HsM Unit := do
  let s ← get
  if s.started then
    return
  if ← ask .listen then
    modify fun s => { s with stopping := false }
    if ← ask .launch then
      modify ShmServer.launched

/-! ### The runs -/

/-- The loop thread is not between two sections. -/
def Free (ks : List Cmd) : Prop := Cmd.yield ∉ ks ∧ Cmd.join ∉ ks

/-- Who may do what: the handshake thread takes its steps, the application calls, and the event loop
calls the handlers, those of the listening socket and of the eventfd from `Start` to `Stop`. -/
inductive Calls (ks : List Cmd) (s : ShmServer) : HsM Unit → Prop
  | take (h : s.worker = .waiting) (hwake : s.stopping = true ∨ s.pending ≠ []) :
      Calls ks s (modify ShmServer.take)
  | shake (ok : Bool) (h : s.worker = .shaking) :
      Calls ks s (modify fun s => { s with worker := .shaken ok })
  | put (ok : Bool) (h : s.worker = .shaken ok) : Calls ks s (modify fun s => s.put ok)
  | notify (h : s.worker = .notifying) :
      Calls ks s (modify fun s => { s with worker := .waiting })
  | stop (hf : Free ks) : Calls ks s stop
  | closeConn (c : ℕ) (hf : Free ks) : Calls ks s (removeConn c)
  | start (hks : ks = []) : Calls ks s start
  | onAccept (hks : ks = []) (h : s.started = true) : Calls ks s onAccept
  | onHandshakeComplete (hks : ks = []) (h : s.started = true) : Calls ks s onHandshakeComplete
  | onConnEvent (c : ℕ) (hks : ks = []) : Calls ks s (onConnEvent c)

/-- The server in its environment; `join` returns when the thread has. -/
def machine : Machine Cmd Cmd.Res ShmServer where
  isCall
    | .yield | .join | .callback => True
    | .get | .modify _ | .ask _ => False
  exec
    | _, .get, s, r, s' => r = s ∧ s' = s
    | _, .modify f, s, _, s' => s' = f s
    | _, .join, s, _, s' => s.worker = .exited ∧ s' = s
    | _, .ask _, s, _, s' | _, .yield, s, _, s' | _, .callback, s, _, s' => s' = s
  calls := Calls

/-- In how many of the places a socket is. -/
def places (s : ShmServer) (c : ℕ) : ℕ :=
  s.pending.count c + s.current.toList.count c + s.done.count c + s.cfd.toList.count c +
    s.ready.count c + s.conns.count c + s.closed.count c

/-- `Stop` has returned, and no `Start` since. -/
def Stopped (t : List Event) : Prop := Since .stopped .start t

/-- The hand-off is at rest: the thread has exited and the three places are empty. -/
def AtRest (s : ShmServer) : Prop :=
  s.worker = .exited ∧ s.pending = [] ∧ s.current = none ∧ s.done = []

/-- Between any two steps, with the limit `m`. -/
structure HsInv (m : ℤ) (s : ShmServer) : Prop where
  place : ∀ c, places s c = if c < s.accepted then 1 else 0
  limit : (s.conns.length + s.inflight + s.ready.length + s.cfd.toList.length : ℤ) ≤ m
  maxClients : s.maxClients = m
  overLimit : s.overLimit = []
  /-- the thread has a socket in hand while it shakes hands -/
  busy : s.current = none ↔ s.worker ≠ .shaking ∧ ∀ ok, s.worker ≠ .shaken ok
  /-- and does not exit before `Stop` -/
  running : s.started = true → s.stopping = false ∧ s.worker ≠ .exited
  rest : Stopped s.trace → s.started = false ∧ AtRest s
  late : ∀ pre post, s.trace = pre ++ .stopped :: post → .start ∉ post → ∀ c, .enter c ∉ post

/-- What the application finds when it has control. -/
def Settled (s : ShmServer) : Prop := s.cfd = none ∧ (s.started = false → AtRest s)

/-- What the handshake thread leaves alone, and that it takes no new socket. -/
structure WorkerOnly (s s' : ShmServer) : Prop where
  started : s'.started = s.started
  stopping : s'.stopping = s.stopping
  cfd : s'.cfd = s.cfd
  ready : s'.ready = s.ready
  conns : s'.conns = s.conns
  inflight : s'.inflight ≤ s.inflight

/-- What a callback leaves alone: nothing is started in it. -/
structure InCallback (s s' : ShmServer) : Prop where
  started : s.started = false → s'.started = false
  ready : s'.ready = s.ready
  cfd : s'.cfd = s.cfd

/-- The rule. -/
def rule (m : ℤ) : Rule Cmd ShmServer where
  guar ks s s' := (HsInv m s → HsInv m s') ∧ (¬ Free ks → WorkerOnly s s') ∧
    (ks ≠ [] → InCallback s s')
  inv ks s := HsInv m s ∧ (Free ks → Settled s) ∧ (ks = [] → s.ready = [])
  refl _ _ := ⟨id, fun _ => ⟨rfl, rfl, rfl, rfl, rfl, le_rfl⟩, fun _ => ⟨id, rfl, rfl⟩⟩
  trans ks a b c h h' := by
    refine ⟨fun hi => h'.1 (h.1 hi), fun hf => ?_, fun hk => ?_⟩
    · have h1 := h.2.1 hf
      have h2 := h'.2.1 hf
      exact ⟨h2.started.trans h1.started, h2.stopping.trans h1.stopping, h2.cfd.trans h1.cfd,
        h2.ready.trans h1.ready, h2.conns.trans h1.conns, h2.inflight.trans h1.inflight⟩
    · have h1 := h.2.2 hk
      have h2 := h'.2.2 hk
      exact ⟨fun hs => h2.started (h1.started hs), h2.ready.trans h1.ready, h2.cfd.trans h1.cfd⟩
  mono c ks a b h := by
    refine ⟨h.1, fun hf => h.2.1 fun hf' => hf ⟨?_, ?_⟩, fun _ => h.2.2 (List.cons_ne_nil _ _)⟩
    · exact fun hm => hf'.1 (List.mem_cons_of_mem _ hm)
    · exact fun hm => hf'.2 (List.mem_cons_of_mem _ hm)

/-! ### The sections keep it -/

section Sections

variable {m : ℤ} {s s' : ShmServer} {c : ℕ}

theorem HsInv.not_stopped (h : HsInv m s) (hs : s.started = true) : ¬ Stopped s.trace := by
  intro hst
  rw [(h.rest hst).1] at hs
  cases hs

/-- A section that moves sockets, but neither starts nor stops anything. -/
theorem HsInv.moved (h : HsInv m s) (hplace : ∀ c, places s' c = if c < s'.accepted then 1 else 0)
    (hlimit : (s'.conns.length + s'.inflight + s'.ready.length + s'.cfd.toList.length : ℤ) ≤ m)
    (hmax : s'.maxClients = s.maxClients) (hover : s'.overLimit = s.overLimit)
    (hbusy : s'.current = none ↔ s'.worker ≠ .shaking ∧ ∀ ok, s'.worker ≠ .shaken ok)
    (hstarted : s'.started = s.started) (hstopping : s'.stopping = s.stopping)
    (hrun : s.started = true → s'.worker ≠ .exited) (htrace : s'.trace = s.trace)
    (hrest : s.started = false → AtRest s → AtRest s') : HsInv m s' where
  place := hplace
  limit := hlimit
  maxClients := hmax.trans h.maxClients
  overLimit := hover.trans h.overLimit
  busy := hbusy
  running hs := by
    rw [hstarted] at hs
    exact ⟨hstopping.trans (h.running hs).1, hrun hs⟩
  rest hs := by
    rw [htrace] at hs
    obtain ⟨h1, h2⟩ := h.rest hs
    exact ⟨hstarted.trans h1, hrest h1 h2⟩
  late := by rw [htrace]; exact h.late

/-- A new socket. -/
theorem place_new {n k k' : ℕ} (h : k = if c < n then 1 else 0)
    (h' : k' = k + if c = n then 1 else 0) : k' = if c < n + 1 then 1 else 0 := by
  split_ifs at h h' ⊢ <;> omega

theorem HsInv.rejected (h : HsInv m s) : HsInv m s.rejected := by
  refine h.moved (fun c => place_new (h.place c) ?_) h.limit rfl rfl h.busy rfl rfl
    (fun hs => (h.running hs).2) rfl fun _ hr => hr
  simp only [places, ShmServer.rejected, List.count_append, List.count_singleton, beq_iff_eq,
    eq_comm (a := c)]
  omega

theorem HsInv.gotSocket (h : HsInv m s) (hcfd : s.cfd = none)
    (hroom : (s.conns.length + s.inflight + s.ready.length + 1 : ℤ) ≤ m) :
    HsInv m s.gotSocket := by
  refine h.moved (fun c => place_new (h.place c) ?_) ?_ rfl rfl h.busy rfl rfl
    (fun hs => (h.running hs).2) rfl fun _ hr => hr
  · simp only [places, ShmServer.gotSocket, hcfd, Option.toList_some, Option.toList_none,
      List.count_nil, List.count_singleton, beq_iff_eq, eq_comm (a := c)]
    omega
  · exact hroom

theorem HsInv.enqueued (h : HsInv m s) (hs : s.started = true) : HsInv m s.enqueued := by
  refine h.moved (fun c => ?_) ?_ rfl rfl h.busy rfl rfl (fun hs => (h.running hs).2) rfl
    fun hs' => ?_
  · refine Eq.trans ?_ (h.place c)
    simp only [places, ShmServer.enqueued, List.count_append, Option.toList_none, List.count_nil]
    omega
  · have hl := h.limit
    simp only [ShmServer.inflight, ShmServer.enqueued, List.length_append, Option.toList_none,
      List.length_nil, Nat.cast_add] at hl ⊢
    omega
  · rw [hs] at hs'
    cases hs'

theorem HsInv.taken (h : HsInv m s) (hready : s.ready = []) : HsInv m s.taken := by
  refine h.moved (fun c => ?_) ?_ rfl rfl h.busy rfl rfl (fun hs => (h.running hs).2) rfl
    fun _ hr => ⟨hr.1, hr.2.1, hr.2.2.1, rfl⟩
  · refine Eq.trans ?_ (h.place c)
    simp only [places, ShmServer.taken, hready, List.count_nil]
    omega
  · have hl := h.limit
    simp only [ShmServer.inflight, ShmServer.taken, hready, List.length_nil, Nat.cast_add] at hl ⊢
    omega

theorem HsInv.dropped {rest : List ℕ} (h : HsInv m s) (hready : s.ready = c :: rest) :
    HsInv m (s.dropped c) := by
  refine h.moved (fun i => ?_) ?_ rfl rfl h.busy rfl rfl (fun hs => (h.running hs).2) rfl
    fun _ hr => hr
  · refine Eq.trans ?_ (h.place i)
    simp only [places, ShmServer.dropped, hready, List.tail_cons, List.count_append,
      List.count_cons, List.count_nil]
    omega
  · have hl := h.limit
    simp only [ShmServer.inflight, ShmServer.dropped, hready, List.tail_cons, List.length_cons,
      Nat.cast_add] at hl ⊢
    omega

theorem HsInv.abandoned (h : HsInv m s) : HsInv m s.abandoned := by
  refine h.moved (fun i => ?_) ?_ rfl rfl h.busy rfl rfl (fun hs => (h.running hs).2) rfl
    fun _ hr => hr
  · refine Eq.trans ?_ (h.place i)
    simp only [places, ShmServer.abandoned, List.count_append, List.count_nil]
    omega
  · have hl := h.limit
    simp only [ShmServer.inflight, ShmServer.abandoned, List.length_nil, Nat.cast_add] at hl ⊢
    omega

theorem HsInv.removed (h : HsInv m s) (hc : c ∈ s.conns) : HsInv m (s.removed c) := by
  have hlen := List.length_erase_of_mem hc
  refine h.moved (fun i => ?_) ?_ rfl rfl h.busy rfl rfl (fun hs => (h.running hs).2) rfl
    fun _ hr => hr
  · refine Eq.trans ?_ (h.place i)
    have hpos := List.count_pos_iff.mpr hc
    simp only [places, ShmServer.removed, List.count_append, List.count_singleton, beq_iff_eq]
    by_cases hi : c = i
    · subst hi
      rw [List.count_erase_self, if_pos rfl]
      omega
    · rw [List.count_erase_of_ne (Ne.symm hi), if_neg hi]
      omega
  · have hl := h.limit
    simp only [ShmServer.inflight, ShmServer.removed, hlen, Nat.cast_add] at hl ⊢
    omega

/-- A connection enters the table while the server runs. -/
theorem HsInv.admitted {rest : List ℕ} (h : HsInv m s) (hs : s.started = true)
    (hready : s.ready = c :: rest) : HsInv m (s.admitted c) where
  place i := by
    have hi := h.place i
    simp only [places, ShmServer.admitted, hready, List.tail_cons, List.count_append,
      List.count_cons, List.count_nil] at hi ⊢
    omega
  limit := by
    have hl := h.limit
    simp only [ShmServer.inflight, ShmServer.admitted, hready, List.tail_cons, List.length_cons,
      List.length_append, List.length_nil, Nat.cast_add] at hl ⊢
    omega
  maxClients := h.maxClients
  overLimit := h.overLimit
  busy := h.busy
  running := h.running
  rest hst := by
    exact absurd (Since.of_concat hst (by simp)).2 (h.not_stopped hs)
  late pre post hsplit hpost i hi := by
    refine h.not_stopped hs ?_
    have hst : Stopped (s.trace ++ [.enter c]) := ⟨pre, post, hsplit, hpost⟩
    exact (Since.of_concat hst (by simp)).2

/-- `Stop` begins. -/
theorem HsInv.unstarted (h : HsInv m s) (hs : s.started = true) :
    HsInv m { s with started := false } :=
  { h with
    running := fun hs' => nomatch hs'
    rest := fun hst => (h.not_stopped hs hst).elim }

/-- Without a server that runs the flag does not matter. -/
theorem HsInv.withStopping (h : HsInv m s) (hs : s.started = false) (b : Bool) :
    HsInv m { s with stopping := b } :=
  { h with
    running := fun hs' => by
      have hs'' : s.started = true := hs'
      rw [hs] at hs''
      cases hs'' }

theorem HsInv.cleared (h : HsInv m s) (hw : s.worker = .exited) :
    HsInv m s.cleared := by
  refine h.moved (fun c => ?_) ?_ rfl rfl ?_ rfl rfl (fun hs' => (h.running hs').2) rfl
    fun _ hr => ⟨hr.1, rfl, rfl, rfl⟩
  · refine Eq.trans ?_ (h.place c)
    simp only [places, ShmServer.cleared, List.count_append, Option.toList_none, List.count_nil]
    omega
  · have hl := h.limit
    simp only [ShmServer.inflight, ShmServer.cleared, Option.toList_none, List.length_nil,
      Nat.cast_add] at hl ⊢
    omega
  · simp [ShmServer.cleared, hw]

/-- `Stop` returns. -/
theorem HsInv.traceStopped (h : HsInv m s) (hs : s.started = false) (hr : AtRest s) :
    HsInv m { s with trace := s.trace ++ [.stopped] } :=
  { h with
    rest := fun _ => ⟨hs, hr⟩
    late := fun pre post hsplit hpost c hc => by
      rcases split_concat hsplit with ⟨-, -, rfl⟩ | ⟨post', h1, rfl⟩
      · cases hc
      · rw [List.mem_append, not_or] at hpost
        have hc' : .enter c ∈ post' := by simpa using hc
        exact h.late pre post' h1 hpost.1 c hc' }

theorem HsInv.launched (h : HsInv m s) (hstop : s.stopping = false) (hr : AtRest s) :
    HsInv m s.launched :=
  { h with
    busy := by simp [ShmServer.launched, hr.2.2.1]
    running := fun _ => ⟨hstop, by simp [ShmServer.launched]⟩
    rest := fun hst => absurd rfl (Since.of_concat hst (by simp)).1
    late := fun pre post hsplit hpost c hc => by
      rcases split_concat hsplit with ⟨-, -, rfl⟩ | ⟨post', h1, rfl⟩
      · cases hc
      · simp at hpost }

/-! ### The handshake thread -/

theorem HsInv.take (h : HsInv m s) (hw : s.worker = .waiting)
    (hwake : s.stopping = true ∨ s.pending ≠ []) : HsInv m s.take ∧ WorkerOnly s s.take := by
  have hcur : s.current = none := h.busy.mpr (by simp [hw])
  have hrest : AtRest s → AtRest s.take := by
    rintro ⟨hr, -⟩
    rw [hw] at hr
    cases hr
  cases hp : s.pending with
  | nil =>
    have e : s.take = { s with worker := .exited } := by simp [ShmServer.take, hp]
    rw [e] at hrest ⊢
    refine ⟨h.moved h.place h.limit rfl rfl ?_ rfl rfl (fun hs => ?_) rfl fun _ => hrest,
      rfl, rfl, rfl, rfl, rfl, le_rfl⟩
    · simp [hcur]
    · have h1 := (h.running hs).1
      simp [hp, h1] at hwake
  | cons c rest =>
    have e : s.take = { s with current := some c, pending := rest, worker := .shaking } := by
      simp [ShmServer.take, hp]
    rw [e] at hrest ⊢
    have hin : ({ s with current := some c, pending := rest, worker := .shaking } :
        ShmServer).inflight = s.inflight := by
      simp only [ShmServer.inflight, hp, hcur, Option.toList_some, Option.toList_none,
        List.length_cons, List.length_nil]
      omega
    refine ⟨h.moved (fun i => ?_) ?_ rfl rfl ?_ rfl rfl (fun _ => ?_) rfl fun _ => hrest,
      rfl, rfl, rfl, rfl, rfl, hin.le⟩
    · refine Eq.trans ?_ (h.place i)
      simp only [places, hp, hcur, Option.toList_some, Option.toList_none, List.count_cons,
        List.count_nil]
      omega
    · rw [hin]
      exact h.limit
    · simp
    · simp

theorem HsInv.shake (h : HsInv m s) (hw : s.worker = .shaking) (ok : Bool) :
    HsInv m { s with worker := .shaken ok } ∧ WorkerOnly s { s with worker := .shaken ok } := by
  have hcur : s.current ≠ none := fun hn => (h.busy.mp hn).1 hw
  refine ⟨h.moved h.place h.limit rfl rfl ?_ rfl rfl (fun _ => by simp) rfl fun _ hr => ?_,
    rfl, rfl, rfl, rfl, rfl, le_rfl⟩
  · simpa using hcur
  · exact absurd hr.2.2.1 hcur

theorem HsInv.notify (h : HsInv m s) (hw : s.worker = .notifying) :
    HsInv m { s with worker := .waiting } ∧ WorkerOnly s { s with worker := .waiting } := by
  have hcur : s.current = none := h.busy.mpr (by simp [hw])
  refine ⟨h.moved h.place h.limit rfl rfl ?_ rfl rfl (fun _ => by simp) rfl fun _ hr => ?_,
    rfl, rfl, rfl, rfl, rfl, le_rfl⟩
  · simp [hcur]
  · have h1 := hr.1
    rw [hw] at h1
    cases h1

theorem HsInv.put (h : HsInv m s) {ok : Bool} (hw : s.worker = .shaken ok) :
    HsInv m (s.put ok) ∧ WorkerOnly s (s.put ok) := by
  have hrest : ∀ {s' : ShmServer}, AtRest s → AtRest s' := by
    rintro s' ⟨hr, -⟩
    rw [hw] at hr
    cases hr
  have hl := h.limit
  by_cases hok : ok = true ∧ s.stopping = false
  · have e : s.put ok = { s with
        done := s.done ++ s.current.toList, current := none, worker := .notifying } := if_pos hok
    rw [e]
    have hin : ({ s with
        done := s.done ++ s.current.toList, current := none, worker := .notifying } :
        ShmServer).inflight = s.inflight := by
      simp only [ShmServer.inflight, List.length_append, Option.toList_none, List.length_nil]
      omega
    refine ⟨h.moved (fun i => ?_) ?_ rfl rfl ?_ rfl rfl (fun _ => by simp) rfl fun _ => hrest,
      rfl, rfl, rfl, rfl, rfl, hin.le⟩
    · refine Eq.trans ?_ (h.place i)
      simp only [places, List.count_append, Option.toList_none, List.count_nil]
      omega
    · rw [hin]
      exact hl
    · simp
  · have e : s.put ok = { s with
        closed := s.closed ++ s.current.toList, current := none, worker := .waiting } := if_neg hok
    rw [e]
    have hin : ({ s with
        closed := s.closed ++ s.current.toList, current := none, worker := .waiting } :
        ShmServer).inflight ≤ s.inflight := by
      simp only [ShmServer.inflight, Option.toList_none, List.length_nil]
      omega
    refine ⟨h.moved (fun i => ?_) ?_ rfl rfl ?_ rfl rfl (fun _ => by simp) rfl fun _ => hrest,
      rfl, rfl, rfl, rfl, rfl, hin⟩
    · refine Eq.trans ?_ (h.place i)
      simp only [places, List.count_append, Option.toList_none, List.count_nil]
      omega
    · have hin' := Nat.cast_le (α := ℤ).mpr hin
      dsimp only at hin' ⊢
      omega
    · simp

end Sections

/-! ### The functions keep it -/

section Functions

variable {m : ℤ} {ks : List Cmd} {s : ShmServer} {c : ℕ}

@[simp] theorem wp_get {Q : ShmServer → ShmServer → Prop} :
    wp machine (rule m) ks get Q s ↔ Q s s := by
  refine wp_op.trans ⟨fun h => (h.1 id s s ⟨rfl, rfl⟩).2, fun h => ⟨fun _ => ?_, False.elim⟩⟩
  rintro r s' ⟨rfl, rfl⟩
  exact ⟨(rule m).refl _ _, h⟩

@[simp] theorem wp_modify {f : ShmServer → ShmServer} {Q : Unit → ShmServer → Prop} :
    wp machine (rule m) ks (modify f) Q s ↔ (rule m).guar ks s (f s) ∧ Q () (f s) := by
  refine wp_op.trans ⟨fun h => h.1 id () (f s) rfl, fun h => ⟨fun _ => ?_, False.elim⟩⟩
  rintro r s' rfl
  exact h

@[simp] theorem wp_ask {q : Query} {Q : Bool → ShmServer → Prop} :
    wp machine (rule m) ks (ask q) Q s ↔ ∀ b, Q b s := by
  refine wp_op.trans ⟨fun h b => (h.1 id b s rfl).2, fun h => ⟨fun _ => ?_, False.elim⟩⟩
  rintro b s' rfl
  exact ⟨(rule m).refl _ _, h b⟩

theorem not_free {k : Cmd} (hk : k = .yield ∨ k = .join) : ¬ Free (k :: ks) := by
  rcases hk with rfl | rfl
  · exact fun hf => hf.1 List.mem_cons_self
  · exact fun hf => hf.2 List.mem_cons_self

/-- Where no lock is held, the handshake thread takes its steps. -/
theorem wp_yield {Q : Unit → ShmServer → Prop} (h : HsInv m s)
    (hQ : ∀ s', HsInv m s' → WorkerOnly s s' → Q () s') :
    wp machine (rule m) ks yield Q s := by
  have hf : ¬ Free (Cmd.yield :: ks) := not_free (.inl rfl)
  refine ⟨fun hn => absurd trivial hn, fun _ => ⟨⟨h, fun h' => absurd h' hf, fun h' => ?_⟩,
    fun s' hG hI r s'' he => ?_⟩⟩
  · exact absurd h' (List.cons_ne_nil _ _)
  · cases he
    exact ⟨(rule m).refl _ _, hQ s' hI.1 (hG.2.1 hf)⟩

theorem wp_join {Q : Unit → ShmServer → Prop} (h : HsInv m s)
    (hQ : ∀ s', HsInv m s' → WorkerOnly s s' → s'.worker = .exited → Q () s') :
    wp machine (rule m) ks join Q s := by
  have hf : ¬ Free (Cmd.join :: ks) := not_free (.inr rfl)
  refine ⟨fun hn => absurd trivial hn, fun _ => ⟨⟨h, fun h' => absurd h' hf, fun h' => ?_⟩,
    fun s' hG hI r s'' he => ?_⟩⟩
  · exact absurd h' (List.cons_ne_nil _ _)
  · obtain ⟨hw, rfl⟩ := he
    exact ⟨(rule m).refl _ _, hQ s'' hI.1 (hG.2.1 hf) hw⟩

/-- In a callback the application may do what it likes. -/
theorem wp_callback {Q : Unit → ShmServer → Prop} (h : HsInv m s) (hs : Settled s)
    (hf : Free ks) (hQ : ∀ s', HsInv m s' → Settled s' → InCallback s s' → Q () s') :
    wp machine (rule m) ks callback Q s := by
  have hf' : Free (Cmd.callback :: ks) := by
    refine ⟨fun hm => ?_, fun hm => ?_⟩
    · exact hf.1 ((List.mem_cons.mp hm).resolve_left nofun)
    · exact hf.2 ((List.mem_cons.mp hm).resolve_left (by simp))
  refine ⟨fun hn => absurd trivial hn, fun _ => ⟨⟨h, fun _ => hs, fun h' => ?_⟩,
    fun s' hG hI r s'' he => ?_⟩⟩
  · exact absurd h' (List.cons_ne_nil _ _)
  · cases he
    exact ⟨(rule m).refl _ _, hQ s' hI.1 (hI.2.1 hf') (hG.2.2 (List.cons_ne_nil _ _))⟩

theorem wp_ite {α : Type} {p : Prop} [Decidable p] {a b : HsM α} {Q : α → ShmServer → Prop} :
    wp machine (rule m) ks (if p then a else b) Q s ↔
      (p → wp machine (rule m) ks a Q s) ∧ (¬ p → wp machine (rule m) ks b Q s) := by
  by_cases h : p <;> simp [h]

/-- A section of the loop thread. -/
theorem guar_section {s' : ShmServer} (hf : Free ks) (h : HsInv m s')
    (hc : ks ≠ [] → InCallback s s') : (rule m).guar ks s s' :=
  ⟨fun _ => h, fun hn => absurd hf hn, hc⟩

theorem free_nil : Free [] := ⟨List.not_mem_nil, List.not_mem_nil⟩

/-- A section of a handler. -/
theorem guar_handler {s' : ShmServer} (h : HsInv m s') : (rule m).guar [] s s' :=
  guar_section free_nil h fun hn => absurd rfl hn

/-- What a function of the loop thread knows between its callbacks, and leaves behind: `r` is the
queue, and `b` whether the server may still run. -/
structure Local (m : ℤ) (r : List ℕ) (b : Bool) (s : ShmServer) : Prop where
  inv : HsInv m s
  settled : Settled s
  ready : s.ready = r
  started : b = false → s.started = false

variable {r : List ℕ} {b : Bool}

theorem Local.of_settled (h : HsInv m s) (hs : Settled s) (hr : s.ready = r) :
    Local m r true s :=
  ⟨h, hs, hr, fun hb => nomatch hb⟩

theorem settled_of_started (hs : s.started = true) (hcfd : s.cfd = none) : Settled s := by
  refine ⟨hcfd, fun hn => ?_⟩
  rw [hs] at hn
  cases hn

theorem removeConn_keeps (hf : Free ks) (h : Local m r b s) :
    wp machine (rule m) ks (removeConn c) (fun _ => Local m r b) s := by
  rw [removeConn, wp_bind, wp_get, wp_ite]
  refine ⟨fun hc => ?_, fun _ => h⟩
  have h1 := h.inv.removed hc
  rw [wp_bind, wp_modify]
  refine ⟨guar_section hf h1 fun _ => ⟨id, rfl, rfl⟩, ?_⟩
  refine wp_callback h1 h.settled hf fun s' h' hs' hc' => ?_
  exact ⟨h', hs', hc'.ready.trans h.ready, fun hb => hc'.started (h.started hb)⟩

theorem removeConns_keeps (hf : Free ks) : ∀ (cs : List ℕ) {s : ShmServer}, Local m r b s →
    wp machine (rule m) ks (removeConns cs) (fun _ => Local m r b) s
  | [], _, h => h
  | c :: cs, _, h => by
    rw [removeConns, wp_bind]
    exact wp_mono (fun _ _ h' => removeConns_keeps hf cs h') (removeConn_keeps hf h)

/-- `Stop` returns with the hand-off at rest. -/
theorem stopped_keeps (hf : Free ks) (h : Local m r false s) :
    wp machine (rule m) ks (modify fun s => { s with trace := s.trace ++ [.stopped] })
      (fun _ => Local m r false) s := by
  have hs := h.started rfl
  have h1 := h.inv.traceStopped hs (h.settled.2 hs)
  exact wp_modify.mpr ⟨guar_section hf h1 fun _ => ⟨id, rfl, rfl⟩, h1, h.settled, h.ready,
    fun _ => hs⟩

theorem stop_keeps (hf : Free ks) (h : Local m r true s) :
    wp machine (rule m) ks stop (fun _ => Local m r false) s := by
  rw [stop, wp_bind, wp_get, wp_ite]
  refine ⟨fun hs => ?_, fun hs => stopped_keeps hf ⟨h.inv, h.settled, h.ready, fun _ => ?_⟩⟩
  · have h1 := h.inv.unstarted hs
    rw [wp_bind, wp_modify, wp_bind]
    refine ⟨guar_section hf h1 fun _ => ⟨fun _ => rfl, rfl, rfl⟩, wp_yield h1 fun s₁ i₁ w₁ => ?_⟩
    have h2 := i₁.withStopping w₁.started true
    rw [wp_bind, wp_modify, wp_bind]
    refine ⟨guar_section hf h2 fun _ => ⟨id, rfl, rfl⟩, wp_join h2 fun s₂ i₂ w₂ hexit => ?_⟩
    have h3 := i₂.cleared hexit
    have hs₂ : s₂.started = false := w₂.started.trans w₁.started
    have hlocal : Local m r false s₂.cleared := by
      refine ⟨h3, ⟨?_, fun _ => ⟨hexit, rfl, rfl, rfl⟩⟩, ?_, fun _ => hs₂⟩
      · exact (w₂.cfd.trans w₁.cfd).trans h.settled.1
      · exact (w₂.ready.trans w₁.ready).trans h.ready
    rw [wp_bind, wp_modify, wp_bind, wp_get, wp_bind]
    refine ⟨guar_section hf h3 fun _ => ⟨id, rfl, rfl⟩, ?_⟩
    exact wp_mono (fun _ _ h' => stopped_keeps hf h') (removeConns_keeps hf _ hlocal)
  · simpa using hs

/-- `FinishAccept` finds room, for the one in hand is counted. -/
theorem finishAccept_keeps {rest : List ℕ} (h : Local m (c :: rest) true s)
    (hs : s.started = true) :
    wp machine (rule m) [] (finishAccept c) (fun _ => Local m rest true) s := by
  have hroom : ¬ s.maxClients ≤ s.conns.length := by
    have hl := h.inv.limit
    rw [h.inv.maxClients]
    rw [h.ready, List.length_cons] at hl
    push_cast at hl
    omega
  rw [finishAccept, wp_bind, wp_get, wp_ite]
  refine ⟨fun hfull => absurd hfull hroom, fun _ => ?_⟩
  rw [wp_bind]
  refine wp_yield h.inv fun s₁ i₁ w₁ => ?_
  have hready : s₁.ready = c :: rest := w₁.ready.trans h.ready
  have hs₁ : s₁.started = true := w₁.started.trans hs
  have hsettled := settled_of_started hs₁ (w₁.cfd.trans h.settled.1)
  have htail : s₁.ready.tail = rest := by rw [hready, List.tail_cons]
  rw [wp_bind, wp_ask]
  intro codec
  rw [wp_ite]
  refine ⟨fun _ => ?_, fun _ => ?_⟩
  · have h1 := i₁.admitted hs₁ hready
    rw [wp_bind, wp_modify]
    refine ⟨guar_handler h1, wp_callback h1 hsettled free_nil fun s₂ i₂ hs₂ hc₂ => ?_⟩
    exact .of_settled i₂ hs₂ (hc₂.ready.trans htail)
  · have h1 := i₁.dropped hready
    rw [wp_modify]
    exact ⟨guar_handler h1, .of_settled h1 hsettled htail⟩

theorem acceptLoop_keeps : ∀ (n : ℕ) (r : List ℕ) {s : ShmServer}, r.length ≤ n →
    Local m r true s → wp machine (rule m) [] (acceptLoop n) (fun _ => Local m [] true) s
  | 0, r, _, hlen, h => by
    rw [List.length_eq_zero_iff.mp (Nat.le_zero.mp hlen)] at h
    exact h
  | n + 1, r, s, hlen, h => by
    rw [acceptLoop, wp_bind, wp_get, h.ready]
    cases r with
    | nil => exact h
    | cons c rest =>
      dsimp only
      rw [wp_ite, wp_bind, wp_modify]
      refine ⟨fun hs => ?_, fun _ => ?_⟩
      · refine wp_mono (fun _ _ h' => ?_) (finishAccept_keeps h hs)
        exact acceptLoop_keeps n rest (Nat.le_of_succ_le_succ hlen) h'
      · have h1 := h.inv.abandoned
        exact ⟨guar_handler h1, .of_settled h1 h.settled rfl⟩

theorem onHandshakeComplete_keeps (h : Local m [] true s) (hs : s.started = true) :
    wp machine (rule m) [] onHandshakeComplete (fun _ => Local m [] true) s := by
  rw [onHandshakeComplete, wp_bind]
  refine wp_yield h.inv fun s₁ i₁ w₁ => ?_
  have h1 := i₁.taken (w₁.ready.trans h.ready)
  have hsettled : Settled s₁.taken :=
    settled_of_started (w₁.started.trans hs) (w₁.cfd.trans h.settled.1)
  rw [wp_bind, wp_modify, wp_bind, wp_get]
  exact ⟨guar_handler h1, acceptLoop_keeps _ _ le_rfl (.of_settled h1 hsettled rfl)⟩

theorem onAccept_keeps (h : Local m [] true s) (hs : s.started = true) :
    wp machine (rule m) [] onAccept (fun _ => Local m [] true) s := by
  rw [onAccept, wp_bind, wp_get, wp_ite]
  refine ⟨fun _ => ?_, fun hroom => ?_⟩
  · rw [wp_bind, wp_ask]
    intro ok
    rw [wp_ite, wp_modify]
    have h1 := h.inv.rejected
    exact ⟨fun _ => ⟨guar_handler h1, .of_settled h1 h.settled h.ready⟩, fun _ => h⟩
  · rw [wp_bind]
    refine wp_yield h.inv fun s₁ i₁ w₁ => ?_
    have hcfd : s₁.cfd = none := w₁.cfd.trans h.settled.1
    have hready : s₁.ready = [] := w₁.ready.trans h.ready
    have hs₁ : s₁.started = true := w₁.started.trans hs
    rw [wp_bind, wp_ask]
    intro ok
    rw [wp_ite, wp_bind, wp_modify, wp_bind]
    refine ⟨fun _ => ?_, fun _ => .of_settled i₁ (settled_of_started hs₁ hcfd) hready⟩
    have h1 : HsInv m s₁.gotSocket := by
      refine i₁.gotSocket hcfd ?_
      have hin := w₁.inflight
      rw [not_or, h.inv.maxClients] at hroom
      rw [w₁.conns, hready, List.length_nil]
      push_cast at hroom ⊢
      omega
    refine ⟨guar_handler h1, wp_yield h1 fun s₂ i₂ w₂ => ?_⟩
    have hs₂ : s₂.started = true := w₂.started.trans hs₁
    have h2 := i₂.enqueued hs₂
    rw [wp_modify]
    exact ⟨guar_handler h2, .of_settled h2 (settled_of_started hs₂ rfl) (w₂.ready.trans hready)⟩

theorem onConnEvent_keeps (h : Local m [] true s) :
    wp machine (rule m) [] (onConnEvent c) (fun _ => Local m [] true) s := by
  rw [onConnEvent, wp_bind, wp_get, wp_ite, wp_bind]
  refine ⟨fun _ => ?_, fun _ => h⟩
  refine wp_callback h.inv h.settled free_nil fun s' h' hs' hc' => ?_
  have h1 : Local m [] true s' := .of_settled h' hs' (hc'.ready.trans h.ready)
  rw [wp_bind, wp_ask]
  intro gone
  rw [wp_ite]
  exact ⟨fun _ => removeConn_keeps free_nil h1, fun _ => h1⟩

theorem start_keeps (h : Local m [] true s) :
    wp machine (rule m) [] start (fun _ => Local m [] true) s := by
  rw [start, wp_bind, wp_get, wp_ite]
  refine ⟨fun _ => h, fun hs => ?_⟩
  have hs' : s.started = false := by simpa using hs
  have h1 := h.inv.withStopping hs' false
  have hrest := h.settled.2 hs'
  rw [wp_bind, wp_ask]
  intro listens
  rw [wp_ite, wp_bind, wp_modify, wp_bind, wp_ask]
  refine ⟨fun _ => ⟨guar_handler h1, fun launches => ?_⟩, fun _ => h⟩
  rw [wp_ite, wp_modify]
  refine ⟨fun _ => ?_, fun _ => .of_settled h1 h.settled h.ready⟩
  have h2 := h1.launched rfl hrest
  exact ⟨guar_handler h2, .of_settled h2 (settled_of_started rfl h.settled.1) h.ready⟩

/-- A step of the handshake thread. -/
theorem worker_keeps {f : ShmServer → ShmServer} (h : (rule m).inv ks s)
    (hstep : HsInv m (f s) ∧ WorkerOnly s (f s)) (hrest : AtRest s → AtRest (f s)) :
    wp machine (rule m) ks (modify f) (fun _ => (rule m).inv ks) s := by
  obtain ⟨h1, hw⟩ := hstep
  refine wp_modify.mpr ⟨⟨fun _ => h1, fun _ => hw, fun _ => ?_⟩, h1, fun hf => ?_, fun hks => ?_⟩
  · exact ⟨fun hs => hw.started.trans hs, hw.ready, hw.cfd⟩
  · obtain ⟨hcfd, hr⟩ := h.2.1 hf
    exact ⟨hw.cfd.trans hcfd, fun hs => hrest (hr (hw.started.symm.trans hs))⟩
  · exact hw.ready.trans (h.2.2 hks)

/-- Every call keeps the invariant. -/
theorem calls_keep {p : HsM Unit} (h : (rule m).inv ks s) (hp : Calls ks s p) :
    wp machine (rule m) ks p (fun _ => (rule m).inv ks) s := by
  have hexit : ∀ {s' : ShmServer}, s.worker ≠ .exited → AtRest s → AtRest s' :=
    fun hw hr => absurd hr.1 hw
  have hlocal : Free ks → Local m s.ready true s := fun hf => .of_settled h.1 (h.2.1 hf) rfl
  have hdone : ∀ {b : Bool} (s' : ShmServer), Local m s.ready b s' → (rule m).inv ks s' :=
    fun s' h' => ⟨h'.inv, fun _ => h'.settled, fun hks => h'.ready.trans (h.2.2 hks)⟩
  have hnil : ks = [] → Local m [] true s := by
    rintro rfl
    exact .of_settled h.1 (h.2.1 free_nil) (h.2.2 rfl)
  have hdone' : ∀ s' : ShmServer, Local m [] true s' → (rule m).inv ks s' :=
    fun s' h' => ⟨h'.inv, fun _ => h'.settled, fun _ => h'.ready⟩
  cases hp with
  | take hw hwake => exact worker_keeps h (h.1.take hw hwake) (hexit (by simp [hw]))
  | shake ok hw => exact worker_keeps h (h.1.shake hw ok) (hexit (by simp [hw]))
  | put ok hw => exact worker_keeps h (h.1.put hw) (hexit (by simp [hw]))
  | notify hw => exact worker_keeps h (h.1.notify hw) (hexit (by simp [hw]))
  | stop hf => exact wp_mono (fun _ => hdone) (stop_keeps hf (hlocal hf))
  | closeConn c hf => exact wp_mono (fun _ => hdone) (removeConn_keeps hf (hlocal hf))
  | start hks =>
    have h1 := hnil hks
    subst hks
    exact wp_mono (fun _ => hdone') (start_keeps h1)
  | onAccept hks hs =>
    have h1 := hnil hks
    subst hks
    exact wp_mono (fun _ => hdone') (onAccept_keeps h1 hs)
  | onHandshakeComplete hks hs =>
    have h1 := hnil hks
    subst hks
    exact wp_mono (fun _ => hdone') (onHandshakeComplete_keeps h1 hs)
  | onConnEvent c hks =>
    have h1 := hnil hks
    subst hks
    exact wp_mono (fun _ => hdone') (onConnEvent_keeps h1)

end Functions

/-- A server that has started and accepted one socket. -/
def oneAccepted : ShmServer :=
  { initial 2 with
    started := true
    pending := [0]
    worker := .waiting
    accepted := 1
    trace := [.start] }

theorem reach_oneAccepted : Reach machine (initial 2) ⟨oneAccepted, none, []⟩ := by
  have h1 : Reach machine (initial 2) ⟨initial 2, some start, []⟩ :=
    .tail .refl (.start (.start rfl))
  have h2 := (h1.tail (.op id ⟨rfl, rfl⟩)).tail (.op (r := true) id rfl)
  have h3 := ((h2.tail (.op (r := ()) id rfl)).tail (.op (r := true) id rfl)).tail
    (.op (r := ()) id rfl)
  have h4 := (h3.tail .done).tail (.start (.onAccept rfl rfl))
  have h5 := ((h4.tail (.op id ⟨rfl, rfl⟩)).tail (.call trivial)).tail (.back (r := ()) rfl)
  have h6 := (h5.tail (.op (r := true) id rfl)).tail (.op (r := ()) id rfl)
  have h7 := ((h6.tail (.call trivial)).tail (.back (r := ()) rfl)).tail (.op (r := ()) id rfl)
  exact h7.tail .done

end ShmIpc.Conn.Handshake
