import Mathlib.Logic.Relation
import Mathlib.Order.Basic

/-! # Waking the handshake thread: `shm_server.hpp`

`OnAccept` and `Stop` change what `hs_mtx_` protects in one section and notify `hs_cv_` after it;
`HandshakeWorker` tests its condition and goes to sleep in one section. Back to the loop thread, the
worker puts a finished handshake into `hs_done_` in one section and writes to the eventfd after it,
and `OnHandshakeComplete` reads the eventfd first and empties the queue in a section after that.

A section is one step, and so is what a thread does between two of them. How many sockets there are
is not followed here, only which of them `Stop` has shut down. `no_lost_wake`: in every run neither
thread waits for something that is already there. `stop_returns`: the `join` of `Stop` comes to an
end. -/

namespace ShmIpc.Conn.HandshakeWake

open Relation

/-! ### The two threads -/

/-- A socket under handshake. -/
inductive Socket : Type
  | up
  /-- after `shutdown` -/
  | shut
  deriving DecidableEq, Repr

/-- Where `HandshakeWorker` is. -/
inductive Worker : Type
  /-- before the section at the top of its loop, and awake -/
  | checking
  /-- in `hs_cv_.wait` -/
  | asleep
  /-- in `CreateRingChannel`, and after it -/
  | shaking
  | shaken (ok : Bool)
  /-- before the `write` to the eventfd -/
  | writing
  /-- returned, or not started -/
  | exited
  deriving DecidableEq, Repr

/-- Where the loop thread is. -/
inductive Loop : Type
  /-- in the event loop or in a callback of the application -/
  | free
  /-- in `OnAccept`, before the socket is in the queue and after it -/
  | accepted
  | notifyOne
  /-- in `OnHandshakeComplete`, after `DrainNotify` -/
  | drained
  /-- in `Stop`: before its first section, after it, in `join`, and before the second section -/
  | stop
  | notifyAll
  | join
  | clear
  deriving DecidableEq, Repr

/-- The server. `done` is the length of `hs_done_` and `efd` the counter of `hs_wake_fd_`. -/
structure ShmServer where
  started : Bool
  stopping : Bool
  pending : List Socket
  current : Option Socket
  done : ℕ
  efd : ℕ
  worker : Worker
  loop : Loop
  deriving DecidableEq, Repr

/-- A server before its first `Start`. -/
def initial : ShmServer where
  started := false
  stopping := false
  pending := []
  current := none
  done := 0
  efd := 0
  worker := .exited
  loop := .free

/-- `write` of 1 to an eventfd; it fails if the counter has reached its maximum. -/
def ring (n : ℕ) : ℕ := if n < 18446744073709551614 then n + 1 else n

namespace ShmServer

variable (s : ShmServer)

/-- The first section of the worker: `hs_cv_.wait`, and the next socket. -/
def check : ShmServer :=
  match s.stopping, s.pending with
  | false, [] => { s with worker := .asleep }
  | true, [] => { s with worker := .exited }
  | _, c :: rest => { s with pending := rest, current := some c, worker := .shaking }

/-- The second one. -/
def put (ok : Bool) : ShmServer :=
  if ok = true ∧ s.stopping = false then
    { s with done := s.done + 1, current := none, worker := .writing }
  else { s with current := none, worker := .checking }

/-- A notification of `hs_cv_`; only the worker ever waits for it. -/
def notify : ShmServer :=
  if s.worker = .asleep then { s with worker := .checking } else s

/-- The first section of `Stop`. -/
def shutdown : ShmServer :=
  { s with
    stopping := true
    pending := s.pending.map fun _ => .shut
    current := s.current.map fun _ => .shut }

/-- The second one. -/
def cleared : ShmServer := { s with pending := [], current := none, done := 0 }

end ShmServer

/-- A step of the worker. -/
inductive WorkerStep (s : ShmServer) : ShmServer → Prop
  | check (h : s.worker = .checking) : WorkerStep s s.check
  /-- `wait` may return without a notification -/
  | wake (h : s.worker = .asleep) : WorkerStep s { s with worker := .checking }
  | shake (ok : Bool) (h : s.worker = .shaking) : WorkerStep s { s with worker := .shaken ok }
  | put (ok : Bool) (h : s.worker = .shaken ok) : WorkerStep s (s.put ok)
  | write (h : s.worker = .writing) :
      WorkerStep s { s with efd := ring s.efd, worker := .checking }

/-- A step of the loop thread. An `OnAccept` that rejects changes nothing here; a connection that
`OnHandshakeComplete` has taken over is no longer of interest. -/
inductive LoopStep (s : ShmServer) : ShmServer → Prop
  | accept (h : s.loop = .free) (hs : s.started = true) : LoopStep s { s with loop := .accepted }
  | push (h : s.loop = .accepted) :
      LoopStep s { s with pending := s.pending ++ [.up], loop := .notifyOne }
  | notifyOne (h : s.loop = .notifyOne) : LoopStep s { s.notify with loop := .free }
  | drain (h : s.loop = .free) (hs : s.started = true) (hefd : 0 < s.efd) :
      LoopStep s { s with efd := 0, loop := .drained }
  | swap (h : s.loop = .drained) : LoopStep s { s with done := 0, loop := .free }
  /-- `Start`, and one that fails after its section -/
  | start (h : s.loop = .free) (hs : s.started = false) :
      LoopStep s { s with stopping := false, efd := 0, worker := .checking, started := true }
  | unstarted (h : s.loop = .free) (hs : s.started = false) :
      LoopStep s { s with stopping := false }
  | stop (h : s.loop = .free) (hs : s.started = true) :
      LoopStep s { s with started := false, loop := .stop }
  | shutdown (h : s.loop = .stop) : LoopStep s { s.shutdown with loop := .notifyAll }
  | notifyAll (h : s.loop = .notifyAll) : LoopStep s { s.notify with loop := .join }
  | join (h : s.loop = .join) (hw : s.worker = .exited) : LoopStep s { s with loop := .clear }
  | clear (h : s.loop = .clear) : LoopStep s { s.cleared with loop := .free }

/-- A step of the server. -/
def Step (s s' : ShmServer) : Prop := WorkerStep s s' ∨ LoopStep s s'

/-! ### What every step keeps -/

/-- Every socket that the worker may still work on was shut down. -/
def AllShut (s : ShmServer) : Prop := ∀ c ∈ s.pending ++ s.current.toList, c = .shut

/-- The hand-off is at rest. -/
structure AtRest (s : ShmServer) : Prop where
  worker : s.worker = .exited
  pending : s.pending = []
  current : s.current = none
  done : s.done = 0

/-- What the place of the loop thread says about the rest. -/
def LoopOk (s : ShmServer) : Prop :=
  match s.loop with
  | .free => if s.started then s.stopping = false ∧ s.worker ≠ .exited else AtRest s
  | .accepted | .notifyOne | .drained =>
    s.started = true ∧ s.stopping = false ∧ s.worker ≠ .exited
  | .stop => s.started = false ∧ s.stopping = false ∧ s.worker ≠ .exited
  | .notifyAll => s.started = false ∧ s.stopping = true ∧ AllShut s
  | .join => s.started = false ∧ s.stopping = true ∧ AllShut s ∧ s.worker ≠ .asleep
  | .clear => s.started = false ∧ s.stopping = true ∧ s.worker = .exited

/-- The worker sleeps only while there is nothing to do, or a notification is due. -/
def Sleeps (s : ShmServer) : Prop :=
  s.worker = .asleep → (s.pending = [] ∨ s.loop = .notifyOne) ∧
    (s.stopping = false ∨ s.loop = .notifyAll)

/-- A finished handshake is announced, or its announcement is due, or it is being fetched. -/
def Announced (s : ShmServer) : Prop :=
  0 < s.done → 0 < s.efd ∨ s.worker = .writing ∨ s.loop = .drained

/-- The invariant. -/
structure Inv (s : ShmServer) : Prop where
  loop : LoopOk s
  sleeps : Sleeps s
  announced : Announced s

variable {s s' : ShmServer}

/-! ### The worker -/

/-- A step of the worker that exits only after `Stop`'s section and sleeps only before it. -/
theorem LoopOk.worker (h : LoopOk s) (hw : s.worker ≠ .exited) (hloop : s'.loop = s.loop)
    (hstarted : s'.started = s.started) (hstopping : s'.stopping = s.stopping)
    (hexit : s'.worker = .exited → s.stopping = true)
    (hsleep : s'.worker = .asleep → s.stopping = false) (hshut : AllShut s → AllShut s') :
    LoopOk s' := by
  have hlive : s.stopping = false → s'.worker ≠ .exited := by
    intro hst he
    rw [hexit he] at hst
    cases hst
  unfold LoopOk at h ⊢
  rw [hloop, hstarted, hstopping]
  cases hl : s.loop <;> simp only [hl] at h ⊢
  case free =>
    split_ifs with hs
    · rw [if_pos hs] at h
      exact ⟨h.1, hlive h.1⟩
    · rw [if_neg hs] at h
      exact absurd h.worker hw
  case accepted | notifyOne | drained | stop => exact ⟨h.1, h.2.1, hlive h.2.1⟩
  case notifyAll => exact ⟨h.1, h.2.1, hshut h.2.2⟩
  case join =>
    refine ⟨h.1, h.2.1, hshut h.2.2.1, fun he => ?_⟩
    rw [hsleep he] at h
    cases h.2.1
  case clear => exact absurd h.2.2 hw

/-- The first section: what is left to do is done, or the worker sleeps or exits rightly. -/
theorem Inv.check (h : Inv s) (hw : s.worker = .checking) : Inv s.check := by
  obtain ⟨hl, -, ha⟩ := h
  have hw' : s.worker ≠ .exited := by simp [hw]
  have hdone : 0 < s.done → 0 < s.efd ∨ s.loop = .drained := by
    intro hd
    have := ha hd
    simpa [hw] using this
  unfold ShmServer.check
  split
  next hst hp =>
    refine ⟨hl.worker hw' rfl rfl rfl (fun he => by cases he) (fun _ => hst) fun hsh => hsh,
      fun _ => ⟨Or.inl hp, Or.inl hst⟩, fun hd => ?_⟩
    exact (hdone hd).imp_right Or.inr
  next hst hp =>
    refine ⟨hl.worker hw' rfl rfl rfl (fun _ => hst) (fun he => by cases he) fun hsh => hsh,
      (fun he => by cases he), fun hd => ?_⟩
    exact (hdone hd).imp_right Or.inr
  next c rest hp =>
    refine ⟨hl.worker hw' rfl rfl rfl (fun he => by cases he) (fun he => by cases he) ?_,
      (fun he => by cases he), fun hd => ?_⟩
    · -- the socket only changes its place
      intro hsh d hd
      refine hsh d ?_
      rw [hp]
      rcases List.mem_append.mp hd with hd | hd
      · exact List.mem_append_left _ (List.mem_cons_of_mem c hd)
      · rw [List.mem_singleton.mp hd]
        exact List.mem_append_left _ List.mem_cons_self
    · exact (hdone hd).imp_right Or.inr

theorem Inv.put (h : Inv s) {ok : Bool} (hw : s.worker = .shaken ok) : Inv (s.put ok) := by
  obtain ⟨hl, -, ha⟩ := h
  have hw' : s.worker ≠ .exited := by simp [hw]
  have hshut : ∀ w d, AllShut s → AllShut { s with current := none, worker := w, done := d } :=
    fun _ _ hsh c hc => hsh c (List.mem_append_left _ (by simpa using hc))
  unfold ShmServer.put
  split_ifs with hok
  · exact ⟨hl.worker hw' rfl rfl rfl (fun he => by cases he) (fun he => by cases he) (hshut _ _),
      (fun he => by cases he), fun _ => Or.inr (Or.inl rfl)⟩
  · refine ⟨hl.worker hw' rfl rfl rfl (fun he => by cases he) (fun he => by cases he) (hshut _ _),
      (fun he => by cases he), fun hd => ?_⟩
    have := ha hd
    simpa [hw] using this

theorem ring_pos (n : ℕ) : 0 < ring n := by
  unfold ring
  split_ifs <;> omega

theorem WorkerStep.inv (hstep : WorkerStep s s') (h : Inv s) : Inv s' := by
  have hwake : ∀ w e, s.worker ≠ .exited → w ≠ .exited → w ≠ .asleep →
      (0 < s.done → 0 < e ∨ w = .writing ∨ s.loop = .drained) →
      Inv { s with worker := w, efd := e } := by
    intro w e hw hx hs hd
    exact ⟨h.loop.worker hw rfl rfl rfl (fun he => absurd he hx) (fun he => absurd he hs)
      fun hsh => hsh, fun he => absurd he hs, hd⟩
  cases hstep with
  | check hw => exact h.check hw
  | wake hw =>
    refine hwake _ _ (by simp [hw]) (by simp) (by simp) fun hd => ?_
    simpa [hw] using h.announced hd
  | shake ok hw =>
    refine hwake _ _ (by simp [hw]) (by simp) (by simp) fun hd => ?_
    simpa [hw] using h.announced hd
  | put ok hw => exact h.put hw
  | write hw => exact hwake _ _ (by simp [hw]) (by simp) (by simp) fun _ => Or.inl (ring_pos _)

/-! ### The loop thread -/

theorem notify_worker (s : ShmServer) : s.notify.worker ≠ .asleep := by
  unfold ShmServer.notify
  split_ifs with h
  · simp
  · exact h

/-- A notification leaves everything but a sleeping worker as it is. -/
theorem notify_eq (s : ShmServer) : ∃ w, s.notify = { s with worker := w } ∧
    (w = .exited ↔ s.worker = .exited) ∧ (w = .writing ↔ s.worker = .writing) := by
  unfold ShmServer.notify
  split_ifs with h
  · exact ⟨_, rfl, by simp [h], by simp [h]⟩
  · exact ⟨_, rfl, Iff.rfl, Iff.rfl⟩

theorem allShut_shutdown (s : ShmServer) : AllShut s.shutdown := by
  intro c hc
  rcases List.mem_append.mp hc with hc | hc
  · obtain ⟨d, -, rfl⟩ := List.mem_map.mp hc
    rfl
  · obtain ⟨d, -, rfl⟩ := Option.map_eq_some_iff.mp (Option.mem_toList.mp hc)
    rfl

theorem LoopStep.inv (hstep : LoopStep s s') (h : Inv s) : Inv s' := by
  obtain ⟨hl, hs, ha⟩ := h
  unfold LoopOk at hl
  unfold Sleeps at hs
  unfold Announced at ha
  cases hstep with
  | accept hloop hst =>
    simp only [hloop, hst, if_true] at hl hs ha
    exact ⟨⟨hst, hl⟩, fun hw => ⟨Or.inl ((hs hw).1.resolve_right (by simp)), Or.inl hl.1⟩,
      fun hd => (ha hd).imp_right fun h => h.imp_right (by simp)⟩
  | push hloop =>
    simp only [hloop] at hl hs ha
    exact ⟨hl, fun _ => ⟨Or.inr rfl, Or.inl hl.2.1⟩,
      fun hd => (ha hd).imp_right fun h => h.imp_right (by simp)⟩
  | notifyOne hloop =>
    simp only [hloop] at hl hs ha
    obtain ⟨w, he, hx, hwr⟩ := notify_eq s
    refine ⟨?_, fun hw => absurd hw (notify_worker s), fun hd => ?_⟩
    · rw [he]
      simp only [LoopOk, hl.1, if_true]
      exact ⟨hl.2.1, fun h => hl.2.2 (hx.mp h)⟩
    · rw [he] at hd ⊢
      exact (ha hd).imp_right fun h => Or.inl (hwr.mpr (h.resolve_right (by simp)))
  | drain hloop hst hefd =>
    simp only [hloop, hst, if_true] at hl hs ha
    exact ⟨⟨hst, hl⟩, fun hw => ⟨Or.inl ((hs hw).1.resolve_right (by simp)), Or.inl hl.1⟩,
      fun _ => Or.inr (Or.inr rfl)⟩
  | swap hloop =>
    simp only [hloop] at hl hs ha
    refine ⟨?_, fun hw => ⟨Or.inl ((hs hw).1.resolve_right (by simp)), Or.inl hl.2.1⟩,
      fun hd => absurd hd (by simp)⟩
    simp only [LoopOk, hl.1, if_true]
    exact hl.2
  | start hloop hst =>
    simp only [hloop, hst] at hl
    refine ⟨?_, (fun hw => by cases hw), fun hd => absurd hd (by simp [hl.done])⟩
    simp only [LoopOk, hloop, if_true]
    simp
  | unstarted hloop hst =>
    simp only [hloop, hst] at hl
    refine ⟨?_, fun hw => absurd hw (by simp [hl.worker]), fun hd => absurd hd (by simp [hl.done])⟩
    simp only [LoopOk, hloop, hst]
    exact ⟨hl.worker, hl.pending, hl.current, hl.done⟩
  | stop hloop hst =>
    simp only [hloop, hst, if_true] at hl hs ha
    exact ⟨⟨rfl, hl⟩, fun hw => ⟨Or.inl ((hs hw).1.resolve_right (by simp)), Or.inl hl.1⟩,
      fun hd => (ha hd).imp_right fun h => h.imp_right (by simp)⟩
  | shutdown hloop =>
    simp only [hloop] at hl hs ha
    refine ⟨⟨hl.1, rfl, allShut_shutdown s⟩, fun hw => ⟨Or.inl ?_, Or.inr rfl⟩,
      fun hd => (ha hd).imp_right fun h => h.imp_right (by simp)⟩
    have hp : s.pending = [] := (hs hw).1.resolve_right (by simp)
    simp [ShmServer.shutdown, hp]
  | notifyAll hloop =>
    simp only [hloop] at hl hs ha
    obtain ⟨w, he, hx, hwr⟩ := notify_eq s
    refine ⟨⟨?_, ?_, ?_, notify_worker s⟩, fun hw => absurd hw (notify_worker s), fun hd => ?_⟩
    · rw [he]; exact hl.1
    · rw [he]; exact hl.2.1
    · rw [he]; exact hl.2.2
    · rw [he] at hd ⊢
      exact (ha hd).imp_right fun h => Or.inl (hwr.mpr (h.resolve_right (by simp)))
  | join hloop hw =>
    simp only [hloop] at hl hs ha
    exact ⟨⟨hl.1, hl.2.1, hw⟩, fun hw' => absurd (hw.symm.trans hw') (by simp),
      fun hd => (ha hd).imp_right fun h => h.imp_right (by simp)⟩
  | clear hloop =>
    simp only [hloop] at hl
    refine ⟨?_, fun hw => absurd (hl.2.2.symm.trans hw) (by simp),
      fun hd => absurd hd (by simp [ShmServer.cleared])⟩
    simp only [LoopOk, ShmServer.cleared, hl.1]
    exact ⟨hl.2.2, rfl, rfl, rfl⟩

theorem inv_initial : Inv initial :=
  ⟨⟨rfl, rfl, rfl, rfl⟩, (fun hw => by cases hw), fun hd => absurd hd (by simp [initial])⟩

theorem run_inv (h : ReflTransGen Step initial s) : Inv s := by
  induction h with
  | refl => exact inv_initial
  | tail _ hstep ih =>
    rcases hstep with hw | hl
    · exact hw.inv ih
    · exact hl.inv ih

/-! ### Nobody waits in vain -/

/-- What holds whenever the loop thread is in the event loop or in the application. -/
structure Awake (s : ShmServer) : Prop where
  /-- the worker sleeps only if no socket is in the queue and the server is not being stopped -/
  worker : s.worker = .asleep → s.pending = [] ∧ s.stopping = false
  /-- a finished handshake is announced, or is about to be -/
  loop : 0 < s.done → 0 < s.efd ∨ s.worker = .writing
  /-- the worker of a server that is not started has exited and left nothing behind -/
  rest : s.started = false → AtRest s
  /-- the worker of a started server is there -/
  live : s.started = true → s.worker ≠ .exited

/-- **No wake-up is lost.** In every run of the two threads, whenever the loop thread is in the
event loop: the worker does not sleep while there is something for it to do, and a finished
handshake is not left waiting for an event that will never come. -/
theorem no_lost_wake (h : ReflTransGen Step initial s) (hfree : s.loop = .free) : Awake s := by
  obtain ⟨hl, hs, ha⟩ := run_inv h
  unfold LoopOk at hl
  simp only [hfree] at hl
  refine ⟨fun hw => ?_, fun hd => ?_, fun hst => ?_, fun hst => ?_⟩
  · obtain ⟨hp, hst⟩ := hs hw
    exact ⟨hp.resolve_right (by simp [hfree]), hst.resolve_right (by simp [hfree])⟩
  · exact (ha hd).imp_right fun h => h.resolve_right (by simp [hfree])
  · rw [hst] at hl
    exact hl
  · rw [if_pos hst] at hl
    exact hl.2

/-- A server that was started and has accepted one socket. -/
def oneAccepted : ShmServer :=
  { initial with started := true, pending := [.up], worker := .checking }

theorem reach_oneAccepted : ReflTransGen Step initial oneAccepted := by
  have h1 : ReflTransGen Step initial { initial with started := true, worker := .checking } :=
    .tail .refl (Or.inr (.start rfl rfl))
  exact ((h1.tail (Or.inr (.accept rfl rfl))).tail (Or.inr (.push rfl))).tail
    (Or.inr (.notifyOne rfl))

/-- Its handshake is done, and the announcement is due. -/
def oneDone : ShmServer :=
  { initial with started := true, done := 1, worker := .writing }

theorem reach_oneDone : ReflTransGen Step initial oneDone :=
  ((reach_oneAccepted.tail (Or.inl (.check rfl))).tail (Or.inl (.shake true rfl))).tail
    (Or.inl (.put true rfl))

theorem no_lost_wake_done : oneDone.loop = .free ∧ oneDone.done = 1 ∧ Awake oneDone :=
  ⟨rfl, rfl, no_lost_wake reach_oneDone rfl⟩

/-! ### `Stop` returns -/

/-- How many steps the worker can still take after `Stop`'s first section. -/
def rank (s : ShmServer) : ℕ :=
  4 * s.pending.length +
    match s.worker with
    | .checking => 1
    | .asleep | .writing => 2
    | .shaken _ => 3
    | .shaking => 4
    | .exited => 0

/-- `n` steps of the worker. -/
inductive WorkerSteps : ℕ → ShmServer → ShmServer → Prop
  | refl (s : ShmServer) : WorkerSteps 0 s s
  | tail {n : ℕ} {s s' s'' : ShmServer} (h : WorkerSteps n s s') (hstep : WorkerStep s' s'') :
      WorkerSteps (n + 1) s s''

/-- The worker is not delayed, and each step brings it nearer to its end. -/
theorem WorkerStep.rank_lt (hstep : WorkerStep s s') (hst : s.stopping = true) :
    rank s' < rank s := by
  cases hstep with
  | check hw =>
    unfold ShmServer.check
    split
    next hf _ => rw [hst] at hf; cases hf
    next => simp [rank, hw]
    next c rest hp =>
      simp only [rank, hw, hp, List.length_cons]
      omega
  | wake hw => simp [rank, hw]
  | shake ok hw => simp [rank, hw]
  | put ok hw =>
    unfold ShmServer.put
    rw [if_neg (by simp [hst])]
    simp [rank, hw]
  | write hw => simp [rank, hw]

theorem WorkerStep.frame (hstep : WorkerStep s s') : s'.loop = s.loop := by
  cases hstep with
  | check hw => unfold ShmServer.check; split <;> rfl
  | put ok hw => unfold ShmServer.put; split_ifs <;> rfl
  | _ => rfl

theorem enabled_of_not_exited (hw : s.worker ≠ .exited) : ∃ s', WorkerStep s s' := by
  cases h : s.worker with
  | checking => exact ⟨_, .check h⟩
  | asleep => exact ⟨_, .wake h⟩
  | shaking => exact ⟨_, .shake true h⟩
  | shaken ok => exact ⟨_, .put ok h⟩
  | writing => exact ⟨_, .write h⟩
  | exited => exact absurd h hw

/-- **`Stop` returns.** Whenever `Stop` waits for the worker, every socket the worker may still work
on was shut down, the worker does not sleep, and after at most `rank s` further steps of the worker,
whichever it takes, it has exited and the `join` returns. -/
theorem stop_returns (h : ReflTransGen Step initial s) (hjoin : s.loop = .join) :
    AllShut s ∧ rank s ≤ 4 * s.pending.length + 4 ∧ ∀ n s', WorkerSteps n s s' →
      n + rank s' ≤ rank s ∧ s'.worker ≠ .asleep ∧
      ((∃ s'', WorkerStep s' s'') ∨ ∃ s'', LoopStep s' s'' ∧ s''.loop = .clear) := by
  have hinv := run_inv h
  have hrun : ∀ n s', WorkerSteps n s s' → Inv s' ∧ s'.loop = .join ∧ n + rank s' ≤ rank s := by
    intro n s' hn
    induction hn with
    | refl => exact ⟨hinv, hjoin, by omega⟩
    | tail _ hstep ih =>
      obtain ⟨hi, hloop, hle⟩ := ih h hjoin hinv
      have hl := hi.loop
      unfold LoopOk at hl
      rw [hloop] at hl
      have hlt := hstep.rank_lt hl.2.1
      exact ⟨hstep.inv hi, hstep.frame.trans hloop, by omega⟩
  have hl := hinv.loop
  unfold LoopOk at hl
  rw [hjoin] at hl
  refine ⟨hl.2.2.1, ?_, fun n s' hn => ?_⟩
  · unfold rank
    cases s.worker <;> simp
  · obtain ⟨hi, hloop, hle⟩ := hrun n s' hn
    have hl' := hi.loop
    unfold LoopOk at hl'
    rw [hloop] at hl'
    refine ⟨hle, hl'.2.2.2, ?_⟩
    by_cases hw : s'.worker = .exited
    · exact Or.inr ⟨_, .join hloop hw, rfl⟩
    · exact Or.inl (enabled_of_not_exited hw)

/-- `Stop` while the socket waits for its handshake. -/
def stopWaiting : ShmServer :=
  { initial with stopping := true, pending := [.shut], worker := .checking, loop := .join }

theorem reach_stopWaiting : ReflTransGen Step initial stopWaiting :=
  ((reach_oneAccepted.tail (Or.inr (.stop rfl rfl))).tail (Or.inr (.shutdown rfl))).tail
    (Or.inr (.notifyAll rfl))

theorem stop_returns_waiting : stopWaiting.pending = [.shut] ∧ AllShut stopWaiting ∧
    ∀ n s', WorkerSteps n stopWaiting s' → n ≤ 5 := by
  obtain ⟨hshut, -, hrun⟩ := stop_returns reach_stopWaiting rfl
  refine ⟨rfl, hshut, fun n s' hn => ?_⟩
  have hle : n + rank s' ≤ 5 := (hrun n s' hn).1
  omega

end ShmIpc.Conn.HandshakeWake
