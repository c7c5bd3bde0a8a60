import ShmIpc.Lib.Trace
import Mathlib.Data.List.Sublists
import Mathlib.Data.Int.Notation

/-! # The event loop: `event_loop.hpp`

`Run` takes an index map of the live entries, polls, and goes through the map while the callbacks
append to the same entries and mark some of them dead; the dead ones are dropped at the end of the
round. Callbacks are not programs here: what one of them does in a round is any list of operations
of the loop (`Turn`), with the descriptors the kernel returned in it, and it may throw. Entries are
numbered as they are registered, and a trace records what happened; neither is read by the loop.

`replay` is what the loop means without the marks: a list of entries to which a registration appends
and from which a removal deletes. `RoundOk` is what a round does in these terms. -/

namespace ShmIpc.Conn.EventLoop

open ShmIpc.Lib.Trace

/-! ### The loop -/

/-- The callback of an entry. -/
inductive Callback : Type
  /-- an empty `std::function` -/
  | empty
  /-- one of the application's -/
  | app
  /-- the wrapper that `AddOneShotTimer` makes around one of the application's -/
  | oneShot (tfd : ℤ)
  deriving DecidableEq, Repr

/-- `EventLoop::Entry`, with its number. -/
structure Entry where
  id : ℕ
  fd : ℤ
  events : ℤ
  dead : Bool
  cb : Callback
  deriving DecidableEq, Repr

/-- What the trace records. -/
inductive Event : Type
  | add (e : Entry)
  | remove (fd : ℤ)
  | stop
  /-- the loop comes to an entry -/
  | visit (id : ℕ)
  /-- and calls it -/
  | invoke (id : ℕ)
  deriving DecidableEq, Repr

/-- `EventLoop`. -/
structure Loop where
  entries : List Entry
  ownedTimerfds : List ℤ
  running : Bool
  nextId : ℕ
  trace : List Event

namespace Loop

/-- A new loop. -/
def empty : Loop where
  entries := []
  ownedTimerfds := []
  running := false
  nextId := 0
  trace := []

/-- The loop with an event recorded. -/
def note (l : Loop) (e : Event) : Loop := { l with trace := l.trace ++ [e] }

/-- `POLLIN`. -/
def pollin : ℤ := 1

/-- `AddFd`. -/
def addFd (l : Loop) (fd : ℤ) (cb : Callback) (events : ℤ) : Loop :=
  let e : Entry := { id := l.nextId, fd := fd, events := events, dead := false, cb := cb }
  { l with entries := l.entries ++ [e], nextId := l.nextId + 1 }.note (.add e)

/-- The entries after `RemoveFd`. -/
def marked (es : List Entry) (fd : ℤ) : List Entry :=
  es.map fun e => if e.fd = fd then { e with dead := true } else e

/-- `RemoveFd`. -/
def removeFd (l : Loop) (fd : ℤ) : Loop :=
  { l with entries := marked l.entries fd }.note (.remove fd)

/-- `AddTimer`, given the descriptor of the new timer. -/
def addTimer (l : Loop) (tfd : ℤ) (cb : Callback) : Loop :=
  { l with ownedTimerfds := l.ownedTimerfds ++ [tfd] }.addFd tfd cb pollin

/-- `AddOneShotTimer`, given the descriptor of the new timer. -/
def addOneShotTimer (l : Loop) (tfd : ℤ) : Loop :=
  { l with ownedTimerfds := l.ownedTimerfds ++ [tfd] }.addFd tfd (.oneShot tfd) pollin

/-- `RemoveTimer`. -/
def removeTimer (l : Loop) (tfd : ℤ) : Loop :=
  { l.removeFd tfd with ownedTimerfds := l.ownedTimerfds.erase tfd }

/-- `Stop`. -/
def stop (l : Loop) : Loop := { l with running := false }.note .stop

end Loop

/-- The operations of the loop; a callback passed to one of them may be empty. -/
inductive Op : Type
  | addFd (fd : ℤ) (hasCb : Bool) (events : ℤ)
  | removeFd (fd : ℤ)
  | addTimer (tfd : ℤ) (hasCb : Bool)
  | addOneShotTimer (tfd : ℤ)
  | removeTimer (tfd : ℤ)
  | stop
  deriving DecidableEq, Repr

/-- The callback that is passed. -/
def callbackOf (hasCb : Bool) : Callback := if hasCb then .app else .empty

/-- One operation. -/
def Loop.apply (l : Loop) : Op → Loop
  | .addFd fd hasCb events => l.addFd fd (callbackOf hasCb) events
  | .removeFd fd => l.removeFd fd
  | .addTimer tfd hasCb => l.addTimer tfd (callbackOf hasCb)
  | .addOneShotTimer tfd => l.addOneShotTimer tfd
  | .removeTimer tfd => l.removeTimer tfd
  | .stop => l.stop

/-- Operations in turn. -/
def Loop.applyAll (l : Loop) (ops : List Op) : Loop := ops.foldl Loop.apply l

/-- What a callback does when it is called. -/
structure Turn where
  ops : List Op
  throws : Bool

/-- What `poll` returns: a failure, or the `revents` of each entry of its array. -/
inductive Poll : Type
  | eintr
  | error
  | ready (revents : ℕ → ℤ)

/-- What the outside does in a round: the result of `poll`, a `Stop` from elsewhere before the loop
comes to a place of the array, and what the callbacks do. -/
structure Round where
  poll : Poll
  interrupt : ℕ → Bool
  act : ℕ → Turn

namespace Loop

/-- The callback of `e` is called; the flag is whether it throws. -/
def invoke (l : Loop) (e : Entry) (a : Turn) : Loop × Bool :=
  let l := l.note (.invoke e.id)
  let l := match e.cb with
    | .oneShot tfd => l.removeTimer tfd
    | .empty | .app => l
  (l.applyAll a.ops, a.throws)

/-- The dispatch loop from place `i` of the array on, whose entries are at the indices `idx`. -/
def dispatch (r : Round) (revents : ℕ → ℤ) : ℕ → List ℕ → Loop → Loop × Bool
  | _, [], l => (l, false)
  | i, k :: idx, l =>
    let l := if r.interrupt i then l.stop else l
    if l.running = false then (l, false)
    else
      match l.entries[k]? with
      | none => (l, false)
      | some e =>
        let l := l.note (.visit e.id)
        if e.dead = false ∧ revents i ≠ 0 ∧ e.cb ≠ .empty then
          let (l, threw) := l.invoke e (r.act e.id)
          if threw then (l, true) else dispatch r revents (i + 1) idx l
        else dispatch r revents (i + 1) idx l

/-- `idx`: the indices of the entries that are polled. -/
def build (es : List Entry) : List ℕ :=
  (es.zipIdx.filter fun p => !p.1.dead).map Prod.snd

/-- The entries that are not dead. -/
def live (es : List Entry) : List Entry := es.filter fun e => !e.dead

/-- `CompactDead`. -/
def compactDead (l : Loop) : Loop := { l with entries := live l.entries }

/-- One turn of the loop of `Run`; the flag is whether it throws. -/
def round (l : Loop) (r : Round) : Loop × Bool :=
  match r.poll with
  | .eintr => (l, false)
  | .error => (l, true)
  | .ready revents =>
    let (l', threw) := dispatch r revents 0 (build l.entries) l
    (l'.compactDead, threw)

/-- The loop of `Run`, for as many rounds as are given. -/
def runRounds : List Round → Loop → Loop × Bool
  | [], l => (l, false)
  | r :: rs, l =>
    if l.running = false then (l, false)
    else
      let (l, threw) := l.round r
      if threw then (l, true) else runRounds rs l

/-- `Run`. -/
def run (rs : List Round) (l : Loop) : Loop × Bool := runRounds rs { l with running := true }

/-- The rounds that `runRounds` goes through, each with the loop before it. -/
def roundsOf : List Round → Loop → List (Loop × Round)
  | [], _ => []
  | r :: rs, l =>
    if l.running = false then []
    else (l, r) :: if (l.round r).2 then [] else roundsOf rs (l.round r).1

end Loop

/-- The loops that a program can have: made, used and run any number of times. -/
inductive Built : Loop → Prop
  | empty : Built .empty
  | apply {l : Loop} (h : Built l) (o : Op) : Built (l.apply o)
  | run {l : Loop} (h : Built l) (rs : List Round) : Built (l.run rs).1

/-! ### What the trace says of the entries -/

open Loop

/-- The entries after an event, with the marks. -/
def step (es : List Entry) : Event → List Entry
  | .add e => es ++ [e]
  | .remove fd => marked es fd
  | .stop | .visit _ | .invoke _ => es

/-- The entries after an event, without them. -/
def replayStep (es : List Entry) : Event → List Entry
  | .add e => es ++ [e]
  | .remove fd => es.filter fun e => e.fd ≠ fd
  | .stop | .visit _ | .invoke _ => es

/-- **The entries that are registered and not removed since**, in the order of registration. -/
def replay (t : List Event) (es : List Entry) : List Entry := t.foldl replayStep es

/-- The entry that an event registers. -/
def Event.added : Event → Option Entry
  | .add e => some e
  | _ => none

/-- The entry that an event calls. -/
def Event.invoked : Event → Option ℕ
  | .invoke id => some id
  | _ => none

/-- The loop has gone from `l` to `l'` by the events `t`. -/
structure Grows (l l' : Loop) (t : List Event) : Prop where
  trace : l'.trace = l.trace ++ t
  entries : l'.entries = t.foldl step l.entries
  running : l'.running = true ↔ l.running = true ∧ Event.stop ∉ t
  /-- new entries are numbered on -/
  ids : (t.filterMap Event.added).map Entry.id = List.range' l.nextId (l'.nextId - l.nextId)
  next : l.nextId ≤ l'.nextId
  /-- they are not dead, and a one-shot timer knows its own descriptor -/
  fresh : ∀ e, Event.add e ∈ t → e.dead = false ∧ ∀ tfd, e.cb = .oneShot tfd → tfd = e.fd

variable {l l' l'' : Loop} {t t' : List Event} {es : List Entry}

theorem grows_refl (l : Loop) : Grows l l [] := by
  refine ⟨by simp, rfl, by simp, by simp, le_rfl, fun e h => ?_⟩
  cases h

theorem Grows.trans (h : Grows l l' t) (h' : Grows l' l'' t') : Grows l l'' (t ++ t') := by
  have h1 := h.next
  have h2 := h'.next
  refine ⟨?_, ?_, ?_, ?_, h1.trans h2, fun e he => ?_⟩
  · rw [h'.trace, h.trace, List.append_assoc]
  · rw [h'.entries, h.entries, List.foldl_append]
  · rw [h'.running, h.running, List.mem_append, not_or, and_assoc]
  · obtain ⟨a, ha⟩ := Nat.le.dest h1
    obtain ⟨b, hb⟩ := Nat.le.dest h2
    have hsum : l.nextId + a + b - l.nextId = a + b := by omega
    rw [List.filterMap_append, List.map_append, h.ids, h'.ids, ← hb, ← ha,
      Nat.add_sub_cancel_left, Nat.add_sub_cancel_left, hsum]
    exact List.range'_append_1
  · rcases List.mem_append.mp he with he | he
    · exact h.fresh e he
    · exact h'.fresh e he

/-- An event that neither adds nor stops. -/
theorem grows_note {e : Event} (hs : e ≠ .stop) (ha : e.added = none)
    (he : step l.entries e = l.entries) : Grows l (l.note e) [e] := by
  refine ⟨rfl, he.symm, ?_, by simp [ha, note], le_rfl, fun e' he' => ?_⟩
  · simp [note, Ne.symm hs]
  · rw [List.mem_singleton] at he'
    rw [← he'] at ha
    cases ha

theorem grows_addFd (l : Loop) (fd : ℤ) (cb : Callback) (events : ℤ)
    (hcb : ∀ tfd, cb = .oneShot tfd → tfd = fd) : ∃ e, Grows l (l.addFd fd cb events) [.add e] := by
  refine ⟨⟨l.nextId, fd, events, false, cb⟩, rfl, rfl, ?_, ?_, ?_, fun e he => ?_⟩
  · simp [addFd, note]
  · simp [addFd, note, Event.added]
  · simp [addFd, note]
  · rw [List.mem_singleton] at he
    cases he
    exact ⟨rfl, hcb⟩

theorem grows_removeFd (fd : ℤ) : Grows l (l.removeFd fd) [.remove fd] := by
  refine ⟨rfl, rfl, ?_, ?_, le_rfl, fun e he => ?_⟩
  · simp [removeFd, note]
  · simp [removeFd, note, Event.added]
  · rw [List.mem_singleton] at he
    cases he

theorem grows_stop : Grows l l.stop [.stop] := by
  refine ⟨rfl, rfl, ?_, ?_, le_rfl, fun e he => ?_⟩
  · simp [stop, note]
  · simp [stop, note, Event.added]
  · rw [List.mem_singleton] at he
    cases he

/-- What a `Grows` says does not depend on the owned descriptors. -/
theorem Grows.owned (h : Grows l l' t) (fds fds' : List ℤ) :
    Grows { l with ownedTimerfds := fds } { l' with ownedTimerfds := fds' } t :=
  ⟨h.trace, h.entries, h.running, h.ids, h.next, h.fresh⟩

theorem grows_removeTimer (l : Loop) (tfd : ℤ) : Grows l (l.removeTimer tfd) [.remove tfd] :=
  (grows_removeFd tfd).owned l.ownedTimerfds _

/-- The trace has nothing of the dispatch loop. -/
def Quiet (t : List Event) : Prop := ∀ id, Event.visit id ∉ t ∧ Event.invoke id ∉ t

theorem Quiet.append (h : Quiet t) (h' : Quiet t') : Quiet (t ++ t') := by
  intro id
  simp only [List.mem_append, not_or]
  exact ⟨⟨(h id).1, (h' id).1⟩, (h id).2, (h' id).2⟩

/-- **One operation.** -/
theorem grows_apply (l : Loop) (o : Op) : ∃ t, Grows l (l.apply o) t ∧ Quiet t := by
  have hcb : ∀ {fd : ℤ} (hasCb : Bool) (tfd : ℤ), callbackOf hasCb = .oneShot tfd → tfd = fd := by
    rintro fd (_ | _) tfd h <;> cases h
  cases o with
  | addFd fd hasCb events =>
    obtain ⟨e, h⟩ := grows_addFd l fd (callbackOf hasCb) events (hcb hasCb)
    exact ⟨_, h, by simp [Quiet]⟩
  | removeFd fd => exact ⟨_, grows_removeFd fd, by simp [Quiet]⟩
  | addTimer tfd hasCb =>
    obtain ⟨e, h⟩ := grows_addFd l tfd (callbackOf hasCb) pollin (hcb hasCb)
    exact ⟨_, h.owned l.ownedTimerfds _, by simp [Quiet]⟩
  | addOneShotTimer tfd =>
    obtain ⟨e, h⟩ := grows_addFd l tfd (.oneShot tfd) pollin (by rintro _ ⟨⟩; rfl)
    exact ⟨_, h.owned l.ownedTimerfds _, by simp [Quiet]⟩
  | removeTimer tfd => exact ⟨_, grows_removeTimer l tfd, by simp [Quiet]⟩
  | stop => exact ⟨_, grows_stop, by simp [Quiet]⟩

theorem grows_applyAll : ∀ (ops : List Op) (l : Loop), ∃ t, Grows l (l.applyAll ops) t ∧ Quiet t
  | [], l => ⟨[], grows_refl l, by simp [Quiet]⟩
  | o :: ops, l => by
    obtain ⟨t, h, hq⟩ := grows_apply l o
    obtain ⟨t', h', hq'⟩ := grows_applyAll ops (l.apply o)
    exact ⟨t ++ t', h.trans h', hq.append hq'⟩

/-! ### Marks and removals -/

/-- An entry after the removals of a trace. -/
def markedBy (t : List Event) (e : Entry) : Entry :=
  { e with dead := e.dead || t.contains (.remove e.fd) }

theorem markedBy_append (t t' : List Event) (e : Entry) :
    markedBy (t ++ t') e = markedBy t' (markedBy t e) := by
  simp only [markedBy, List.contains_append, Bool.or_assoc]

theorem markedBy_of_notMem {e : Entry} (h : Event.remove e.fd ∉ t) : markedBy t e = e := by
  have hc : t.contains (Event.remove e.fd) = false := by simpa using h
  unfold markedBy
  rw [hc, Bool.or_false]

theorem dead_markedBy {e : Entry} :
    (markedBy t e).dead = false ↔ e.dead = false ∧ Event.remove e.fd ∉ t := by
  simp [markedBy]

/-- Entries stay where they are, up to their marks. -/
theorem getElem?_step {k : ℕ} (hk : k < es.length) (ev : Event) :
    (step es ev)[k]? = (es[k]?).map (markedBy [ev]) := by
  have hsame : (∀ fd, ev ≠ .remove fd) → es[k]? = (es[k]?).map (markedBy [ev]) := by
    intro h
    rw [List.getElem?_eq_getElem hk, Option.map_some, markedBy_of_notMem]
    rw [List.mem_singleton]
    exact fun he => h _ he.symm
  cases ev with
  | add e =>
    rw [step, List.getElem?_append_left hk]
    exact hsame (by simp)
  | remove fd =>
    rw [step, marked, List.getElem?_map, List.getElem?_eq_getElem hk, Option.map_some,
      Option.map_some]
    by_cases he : es[k].fd = fd
    · rw [if_pos he]
      simp [markedBy, he]
    · rw [if_neg he, markedBy_of_notMem]
      rw [List.mem_singleton]
      rintro ⟨⟩
      exact he rfl
  | stop => exact hsame (by simp)
  | visit id => exact hsame (by simp)
  | invoke id => exact hsame (by simp)

theorem length_step_le (es : List Entry) (ev : Event) : es.length ≤ (step es ev).length := by
  cases ev <;> simp [step, marked]

theorem length_foldl_step_le : ∀ (t : List Event) (es : List Entry),
    es.length ≤ (t.foldl step es).length
  | [], _ => le_rfl
  | ev :: t, es => (length_step_le es ev).trans (length_foldl_step_le t (step es ev))

theorem getElem?_foldl_step {k : ℕ} : ∀ (t : List Event) {es : List Entry}, k < es.length →
    (t.foldl step es)[k]? = (es[k]?).map (markedBy t)
  | [], es, hk => by
    rw [List.foldl_nil, List.getElem?_eq_getElem hk, Option.map_some,
      markedBy_of_notMem (by simp)]
  | ev :: t, es, hk => by
    rw [List.foldl_cons, getElem?_foldl_step t (hk.trans_le (length_step_le es ev)),
      getElem?_step hk, Option.map_map]
    congr 1
    funext e
    exact (markedBy_append [ev] t e).symm

theorem live_step (es : List Entry) (ev : Event) (h : ∀ e, ev = .add e → e.dead = false) :
    live (step es ev) = replayStep (live es) ev := by
  cases ev with
  | add e => simp [step, replayStep, live, h e rfl]
  | remove fd =>
    simp only [step, replayStep, live, marked]
    induction es with
    | nil => rfl
    | cons e es ih =>
      rw [List.map_cons, List.filter_cons, List.filter_cons]
      by_cases hfd : e.fd = fd <;> cases hd : e.dead <;> simp [hfd, hd, ih]
  | stop => rfl
  | visit id => rfl
  | invoke id => rfl

/-- **The marks mean removal.** -/
theorem live_foldl_step : ∀ (t : List Event) (es : List Entry),
    (∀ e, Event.add e ∈ t → e.dead = false) → live (t.foldl step es) = replay t (live es)
  | [], _, _ => rfl
  | ev :: t, es, h => by
    have h1 := live_step es ev fun e he => h e (by rw [he]; exact List.mem_cons_self)
    have h2 := live_foldl_step t (step es ev) fun e he => h e (List.mem_cons_of_mem _ he)
    rw [List.foldl_cons, h2, h1]
    rfl

theorem replay_append (t t' : List Event) (es : List Entry) :
    replay (t ++ t') es = replay t' (replay t es) := List.foldl_append

/-- An entry stays until it is removed. -/
theorem mem_replay {e : Entry} : ∀ (t : List Event) (es : List Entry), e ∈ es →
    Event.remove e.fd ∉ t → e ∈ replay t es
  | [], _, h, _ => h
  | ev :: t, es, h, hr => by
    rw [List.mem_cons, not_or] at hr
    refine mem_replay t (replayStep es ev) ?_ hr.2
    cases ev with
    | add e' => exact List.mem_append_left _ h
    | remove fd =>
      refine List.mem_filter.mpr ⟨h, ?_⟩
      simp only [ne_eq, decide_not, Bool.not_eq_eq_eq_not, Bool.not_true, decide_eq_false_iff_not]
      intro he
      exact hr.1 (by rw [he])
    | stop => exact h
    | visit id => exact h
    | invoke id => exact h

/-- What is there was there before, or has been added. -/
theorem mem_of_mem_replay {e : Entry} : ∀ (t : List Event) (es : List Entry), e ∈ replay t es →
    e ∈ es ∨ Event.add e ∈ t
  | [], _, h => Or.inl h
  | ev :: t, es, h => by
    rcases mem_of_mem_replay t (replayStep es ev) h with h | h
    · cases ev with
      | add e' =>
        rcases List.mem_append.mp h with h | h
        · exact Or.inl h
        · rw [List.mem_singleton.mp h]
          exact Or.inr List.mem_cons_self
      | remove fd => exact Or.inl (List.mem_filter.mp h).1
      | stop => exact Or.inl h
      | visit id => exact Or.inl h
      | invoke id => exact Or.inl h
    · exact Or.inr (List.mem_cons_of_mem _ h)

/-! ### The dispatch loop -/

/-- What the dispatch loop does from place `i` of the array on: `t` are its events, and `threw` says
whether a callback has thrown. -/
structure Dispatched (revents : ℕ → ℤ) (i : ℕ) (idx : List ℕ) (l : Loop) (t : List Event)
    (threw : Bool) : Prop where
  only : ∀ pre id post, t = pre ++ .invoke id :: post → ∃ j k e, idx[j]? = some k ∧
    l.entries[k]? = some e ∧ e.id = id ∧ e.dead = false ∧ revents (i + j) ≠ 0 ∧ e.cb ≠ .empty ∧
    Event.remove e.fd ∉ pre ∧ ∀ tfd, e.cb = .oneShot tfd → ∃ post', post = .remove tfd :: post'
  once : (t.filterMap Event.invoked).Sublist ((idx.filterMap (l.entries[·]?)).map Entry.id)
  visits : threw = false → Event.stop ∉ t → l.running = true → ∀ k ∈ idx, ∀ e,
    l.entries[k]? = some e → Event.visit e.id ∈ t
  all : threw = false → Event.stop ∉ t → l.running = true → ∀ j k e, idx[j]? = some k →
    l.entries[k]? = some e → e.dead = false → revents (i + j) ≠ 0 → e.cb ≠ .empty →
    Event.invoke e.id ∈ t ∨ ∃ pre post, t = pre ++ .visit e.id :: post ∧ Event.remove e.fd ∈ pre

/-- What the loop does at one entry: nothing but the visit, or the call and what it does. -/
inductive Block (revents : ℕ → ℤ) (i : ℕ) (e : Entry) : List Event → Prop
  | skip (h : ¬ (e.dead = false ∧ revents i ≠ 0 ∧ e.cb ≠ .empty)) :
      Block revents i e [.visit e.id]
  | call {q : List Event} (h : e.dead = false ∧ revents i ≠ 0 ∧ e.cb ≠ .empty) (hq : Quiet q)
      (hone : ∀ tfd, e.cb = .oneShot tfd → ∃ q', q = .remove tfd :: q') :
      Block revents i e (.visit e.id :: .invoke e.id :: q)

variable {revents : ℕ → ℤ} {i k : ℕ} {idx : List ℕ} {e : Entry} {q : List Event} {threw : Bool}

theorem Quiet.invoked (h : Quiet q) : q.filterMap Event.invoked = [] := by
  rw [List.filterMap_eq_nil_iff]
  intro ev hev
  cases ev with
  | invoke id => exact absurd hev (h id).2
  | add e | remove fd | stop | visit id => rfl

/-- The call in a block is the call of its entry, right after the visit. -/
theorem Block.only {B pre post : List Event} {id : ℕ} (h : Block revents i e B)
    (hB : B = pre ++ .invoke id :: post) :
    pre = [.visit e.id] ∧ id = e.id ∧ (e.dead = false ∧ revents i ≠ 0 ∧ e.cb ≠ .empty) ∧
      ∀ tfd, e.cb = .oneShot tfd → ∃ post', post = .remove tfd :: post' := by
  cases h with
  | skip h =>
    rcases pre with _ | ⟨x, pre⟩
    · cases hB
    · rw [List.cons_append, List.cons.injEq] at hB
      exact absurd hB.2.symm (by simp)
  | call h hq hone =>
    rcases pre with _ | ⟨x, _ | ⟨y, pre⟩⟩
    · cases hB
    · cases hB
      exact ⟨rfl, rfl, h, hone⟩
    · simp only [List.cons_append, List.cons.injEq] at hB
      exact absurd (show Event.invoke id ∈ _ by rw [hB.2.2]; simp) (hq id).2

/-- The rest of the array sees the same entries, up to the marks of the block. -/
theorem Grows.getElem? (h : Grows l l' t) (hk : k < l.entries.length) :
    l'.entries[k]? = (l.entries[k]?).map (markedBy t) := by
  rw [h.entries]
  exact getElem?_foldl_step t hk

theorem filterMap_markedBy (h : Grows l l' t) (hidx : ∀ k ∈ idx, k < l.entries.length) :
    (idx.filterMap (l'.entries[·]?)).map Entry.id =
      (idx.filterMap (l.entries[·]?)).map Entry.id := by
  induction idx with
  | nil => rfl
  | cons k idx ih =>
    have hk := hidx k List.mem_cons_self
    have ih := ih fun k' hk' => hidx k' (List.mem_cons_of_mem _ hk')
    have he := h.getElem? hk
    rw [List.getElem?_eq_getElem hk, Option.map_some] at he
    rw [List.filterMap_cons_some he, List.filterMap_cons_some (List.getElem?_eq_getElem hk),
      List.map_cons, List.map_cons, ih]
    rfl

/-- **One more entry**, before the rest of the array. -/
theorem Dispatched.cons {B : List Event} (hidx : ∀ k' ∈ k :: idx, k' < l.entries.length)
    (he : l.entries[k]? = some e) (hB : Block revents i e B) (hg : Grows l l' B)
    (h : Dispatched revents (i + 1) idx l' t threw) :
    Dispatched revents i (k :: idx) l (B ++ t) threw where
  only pre id post hsplit := by
    rcases split_append hsplit with ⟨c, h1, h2⟩ | ⟨c, h1, h2⟩
    · obtain ⟨rfl, rfl, h3, h4⟩ := hB.only h1
      refine ⟨0, k, e, rfl, he, rfl, h3.1, h3.2.1, h3.2.2, by simp, fun tfd htfd => ?_⟩
      obtain ⟨c', rfl⟩ := h4 tfd htfd
      exact ⟨c' ++ t, h2⟩
    · obtain ⟨j, k', e', h3, h4, h5, h6, h7, h8, h9, h10⟩ := h.only c id post h2
      have hk' := hidx k' (List.mem_cons_of_mem _ (List.mem_of_getElem? h3))
      rw [hg.getElem? hk', Option.map_eq_some_iff] at h4
      obtain ⟨e₀, he₀, rfl⟩ := h4
      obtain ⟨h11, h12⟩ := dead_markedBy.mp h6
      refine ⟨j + 1, k', e₀, h3, he₀, h5, h11, ?_, h8, ?_, h10⟩
      · rw [show i + (j + 1) = i + 1 + j by omega]
        exact h7
      · rw [h1, List.mem_append, not_or]
        exact ⟨h12, h9⟩
  once := by
    have hrest := h.once
    rw [filterMap_markedBy hg fun k' hk' => hidx k' (List.mem_cons_of_mem _ hk')] at hrest
    rw [List.filterMap_append, List.filterMap_cons_some he, List.map_cons]
    cases hB with
    | skip _ => exact hrest.trans (List.sublist_cons_self _ _)
    | @call q _ hq _ =>
      have hb : (Event.visit e.id :: Event.invoke e.id :: q).filterMap Event.invoked =
        e.id :: q.filterMap Event.invoked := rfl
      rw [hb, hq.invoked]
      exact hrest.cons_cons _
  visits hthrew hstop hrun k' hk' e' he' := by
    rw [List.mem_append, not_or] at hstop
    rcases List.mem_cons.mp hk' with rfl | hmem
    · rw [he] at he'
      cases he'
      refine List.mem_append_left _ ?_
      cases hB <;> simp
    · have h4 := hg.getElem? (hidx k' hk')
      rw [he', Option.map_some] at h4
      have hvis := h.visits hthrew hstop.2 (hg.running.mpr ⟨hrun, hstop.1⟩) k' hmem _ h4
      exact List.mem_append_right _ hvis
  all hthrew hstop hrun j k' e' hj he' hdead hrev hcb := by
    rw [List.mem_append, not_or] at hstop
    rcases j with _ | j
    · cases hj
      rw [he] at he'
      cases he'
      cases hB with
      | skip hno => exact absurd ⟨hdead, hrev, hcb⟩ hno
      | call _ _ _ => exact Or.inl (by simp)
    · have hk' := hidx k' (List.mem_cons_of_mem _ (List.mem_of_getElem? (show idx[j]? = _ from hj)))
      have hrun' := hg.running.mpr ⟨hrun, hstop.1⟩
      have h4 := hg.getElem? hk'
      rw [he', Option.map_some] at h4
      by_cases hrem : Event.remove e'.fd ∈ B
      · -- removed by this block, before its turn
        have hvis := h.visits hthrew hstop.2 hrun' k' (List.mem_of_getElem? hj) _ h4
        obtain ⟨pre, post, h5⟩ := List.append_of_mem hvis
        exact Or.inr ⟨B ++ pre, post, by rw [h5, List.append_assoc]; rfl,
          List.mem_append_left _ hrem⟩
      · rw [markedBy_of_notMem hrem] at h4
        rw [show i + (j + 1) = i + 1 + j by omega] at hrev
        rcases h.all hthrew hstop.2 hrun' j k' e' hj h4 hdead hrev hcb
          with h5 | ⟨pre, post, h5, h6⟩
        · exact Or.inl (List.mem_append_right _ h5)
        · refine Or.inr ⟨B ++ pre, post, ?_, List.mem_append_right _ h6⟩
          rw [h5, List.append_assoc]

/-- A loop that ends here. -/
theorem dispatched_of_cut (hq : ∀ id, Event.invoke id ∉ t)
    (h : threw = false → Event.stop ∉ t → l.running = true → idx = []) :
    Dispatched revents i idx l t threw where
  only pre id post hsplit := absurd (show Event.invoke id ∈ t by rw [hsplit]; simp) (hq id)
  once := by
    have hnil : t.filterMap Event.invoked = [] := by
      rw [List.filterMap_eq_nil_iff]
      intro ev hev
      cases ev with
      | invoke id => exact absurd hev (hq id)
      | add e | remove fd | stop | visit id => rfl
    rw [hnil]
    exact List.nil_sublist _
  visits hthrew hstop hrun k hk := by
    rw [h hthrew hstop hrun] at hk
    cases hk
  all hthrew hstop hrun j k e hj := by
    rw [h hthrew hstop hrun] at hj
    cases hj

theorem grows_invoke (l : Loop) (e : Entry) (a : Turn) : ∃ q, Quiet q ∧
    (∀ tfd, e.cb = .oneShot tfd → ∃ q', q = .remove tfd :: q') ∧
    Grows l (l.invoke e a).1 (.invoke e.id :: q) := by
  have hnote : Grows l (l.note (.invoke e.id)) [.invoke e.id] := grows_note (by simp) rfl rfl
  cases hcb : e.cb with
  | oneShot tfd =>
    obtain ⟨q, hq, hquiet⟩ := grows_applyAll a.ops ((l.note (.invoke e.id)).removeTimer tfd)
    have hrem := grows_removeTimer (l.note (.invoke e.id)) tfd
    refine ⟨.remove tfd :: q, ?_, ?_, ?_⟩
    · exact Quiet.append (t := [.remove tfd]) (by simp [Quiet]) hquiet
    · rintro tfd' ⟨⟩
      exact ⟨q, rfl⟩
    · have h := hnote.trans (hrem.trans hq)
      unfold Loop.invoke
      rw [hcb]
      exact h
  | empty =>
    obtain ⟨q, hq, hquiet⟩ := grows_applyAll a.ops (l.note (.invoke e.id))
    refine ⟨q, hquiet, by simp, ?_⟩
    unfold Loop.invoke
    rw [hcb]
    exact hnote.trans hq
  | app =>
    obtain ⟨q, hq, hquiet⟩ := grows_applyAll a.ops (l.note (.invoke e.id))
    refine ⟨q, hquiet, by simp, ?_⟩
    unfold Loop.invoke
    rw [hcb]
    exact hnote.trans hq

/-- **The dispatch loop.** -/
theorem dispatch_spec (r : Round) (revents : ℕ → ℤ) : ∀ (idx : List ℕ) (i : ℕ) (l : Loop),
    (∀ k ∈ idx, k < l.entries.length) → ∃ t, Grows l (dispatch r revents i idx l).1 t ∧
      Dispatched revents i idx l t (dispatch r revents i idx l).2
  | [], i, l, _ => ⟨[], grows_refl l, dispatched_of_cut (by simp) fun _ _ _ => rfl⟩
  | k :: idx, i, l, hidx => by
    have hk := hidx k List.mem_cons_self
    have he := List.getElem?_eq_getElem hk
    by_cases hint : r.interrupt i = true
    · refine ⟨[.stop], ?_, dispatched_of_cut (by simp) fun _ h _ => by simp at h⟩
      have e1 : dispatch r revents i (k :: idx) l = (l.stop, false) := by
        simp [dispatch, hint, stop, note]
      rw [e1]
      exact grows_stop
    by_cases hrun : l.running = false
    · have e1 : dispatch r revents i (k :: idx) l = (l, false) := by
        simp [dispatch, hint, hrun]
      rw [e1]
      refine ⟨[], grows_refl l, dispatched_of_cut (by simp) fun _ _ h => ?_⟩
      rw [hrun] at h
      cases h
    have hvisit : Grows l (l.note (.visit l.entries[k].id)) [.visit l.entries[k].id] :=
      grows_note (by simp) rfl rfl
    have hrest : ∀ {l' : Loop} {t' : List Event}, Grows l l' t' →
        ∀ k' ∈ idx, k' < l'.entries.length := by
      intro l' t' hg k' hk'
      rw [hg.entries]
      exact (hidx k' (List.mem_cons_of_mem _ hk')).trans_le (length_foldl_step_le _ _)
    by_cases hcall : l.entries[k].dead = false ∧ revents i ≠ 0 ∧ l.entries[k].cb ≠ .empty
    · obtain ⟨q, hq, hone, hinv⟩ := grows_invoke (l.note (.visit l.entries[k].id)) l.entries[k]
        (r.act l.entries[k].id)
      have hblock := hvisit.trans hinv
      have hB : Block revents i l.entries[k] ([.visit l.entries[k].id] ++
        .invoke l.entries[k].id :: q) := .call hcall hq hone
      by_cases hthrew : (r.act l.entries[k].id).throws = true
      · have e1 : dispatch r revents i (k :: idx) l =
            (((l.note (.visit l.entries[k].id)).invoke l.entries[k] (r.act l.entries[k].id)).1,
              true) := by
          simp [dispatch, hint, hrun, he, hcall, hthrew, Loop.invoke]
        rw [e1]
        refine ⟨_, hblock, ?_⟩
        have hend : ∀ l₁, Dispatched revents (i + 1) idx l₁ [] true :=
          fun _ => dispatched_of_cut (by simp) (by simp)
        have h := Dispatched.cons hidx he hB hblock (hend _)
        rw [List.append_nil] at h
        exact h
      · have e1 : dispatch r revents i (k :: idx) l = dispatch r revents (i + 1) idx
            ((l.note (.visit l.entries[k].id)).invoke l.entries[k] (r.act l.entries[k].id)).1 := by
          simp [dispatch, hint, hrun, he, hcall, hthrew, Loop.invoke]
        obtain ⟨t, hg, hd⟩ := dispatch_spec r revents idx (i + 1) _ (hrest hblock)
        rw [e1]
        exact ⟨_, hblock.trans hg, Dispatched.cons hidx he hB hblock hd⟩
    · have e1 : dispatch r revents i (k :: idx) l =
          dispatch r revents (i + 1) idx (l.note (.visit l.entries[k].id)) := by
        simp [dispatch, hint, hrun, he, hcall]
      obtain ⟨t, hg, hd⟩ := dispatch_spec r revents idx (i + 1) _ (hrest hvisit)
      rw [e1]
      exact ⟨_, hvisit.trans hg, Dispatched.cons hidx he (.skip hcall) hvisit hd⟩

/-! ### A round -/

theorem live_eq_zipIdx (es : List Entry) :
    live es = (es.zipIdx.filter fun p => !p.1.dead).map Prod.fst := by
  unfold live
  conv_lhs => rw [← List.zipIdx_map_fst 0 es]
  rw [List.filter_map]
  rfl

/-- The array of `poll` is made of the live entries. -/
theorem filterMap_build (es : List Entry) : (build es).filterMap (es[·]?) = live es := by
  have hmem : ∀ p ∈ es.zipIdx.filter fun p => !p.1.dead, es[p.2]? = some p.1 := by
    intro p hp
    exact List.mem_zipIdx_iff_getElem?.mp (List.mem_filter.mp hp).1
  unfold build
  rw [live_eq_zipIdx, List.filterMap_map]
  exact (List.filterMap_congr hmem).trans (congrFun List.filterMap_eq_map _)

theorem getElem?_build {i k : ℕ} (h : (build es)[i]? = some k) :
    ∃ e, es[k]? = some e ∧ (live es)[i]? = some e := by
  unfold build at h
  rw [List.getElem?_map, Option.map_eq_some_iff] at h
  obtain ⟨⟨e, k'⟩, h, rfl⟩ := h
  have hmem := (List.mem_filter.mp (List.mem_of_getElem? h)).1
  refine ⟨e, List.mem_zipIdx_iff_getElem?.mp hmem, ?_⟩
  rw [live_eq_zipIdx, List.getElem?_map, h]
  rfl

theorem lt_of_mem_build {k : ℕ} (h : k ∈ build es) : k < es.length := by
  obtain ⟨i, hi⟩ := List.getElem?_of_mem h
  obtain ⟨e, he, -⟩ := getElem?_build hi
  exact (List.getElem?_eq_some_iff.mp he).1

/-- The place of a live entry in the array. -/
theorem build_of_live {i : ℕ} (h : (live es)[i]? = some e) :
    ∃ k, (build es)[i]? = some k ∧ es[k]? = some e := by
  have hlen : (build es).length = (live es).length := by
    rw [live_eq_zipIdx, build, List.length_map, List.length_map]
  have hi : i < (build es).length := hlen ▸ (List.getElem?_eq_some_iff.mp h).1
  have hk := List.getElem?_eq_getElem hi
  obtain ⟨e', h1, h2⟩ := getElem?_build hk
  rw [h2] at h
  cases h
  exact ⟨_, hk, h1⟩

/-- What a round does, by the events `t`: every call is of an entry of the array that had events and
is not removed before; none is called twice; each is called at its turn unless it is removed before
or the round is cut; a new entry waits for the next round; and afterwards the entries are those
registered and not removed since, in order, and all of them are polled next. -/
structure RoundOk (l : Loop) (revents : ℕ → ℤ) (t : List Event) (l' : Loop) (threw : Bool) :
    Prop where
  only : ∀ pre id post, t = pre ++ .invoke id :: post → ∃ i e, (live l.entries)[i]? = some e ∧
    e.id = id ∧ revents i ≠ 0 ∧ Event.remove e.fd ∉ pre
  atMostOnce : (t.filterMap Event.invoked).Nodup
  exactlyOnce : threw = false → Event.stop ∉ t → ∀ i e, (live l.entries)[i]? = some e →
    revents i ≠ 0 → e.cb ≠ .empty →
    Event.invoke e.id ∈ t ∨ ∃ pre post, t = pre ++ .visit e.id :: post ∧ Event.remove e.fd ∈ pre
  added : ∀ e, Event.add e ∈ t → Event.invoke e.id ∉ t
  entries : l'.entries = replay t (live l.entries)
  addedPolled : ∀ pre e post, t = pre ++ .add e :: post → Event.remove e.fd ∉ post →
    e ∈ l'.entries
  polled : (build l'.entries).filterMap (l'.entries[·]?) = l'.entries

/-- The numbers of the entries are in order and below the next one. -/
def Numbered (l : Loop) : Prop := (l.entries.map Entry.id).Sublist (List.range l.nextId)

theorem Numbered.lt (h : Numbered l) (he : e ∈ l.entries) : e.id < l.nextId :=
  List.mem_range.mp (h.subset (List.mem_map_of_mem he))

theorem live_live (es : List Entry) : live (live es) = live es := by
  simp [live, List.filter_filter]

/-- New entries have new numbers. -/
theorem Grows.le_id (h : Grows l l' t) (he : Event.add e ∈ t) : l.nextId ≤ e.id := by
  have hmem : e.id ∈ (t.filterMap Event.added).map Entry.id :=
    List.mem_map_of_mem (List.mem_filterMap.mpr ⟨_, he, rfl⟩)
  rw [h.ids, List.mem_range'_1] at hmem
  exact hmem.1

/-- **The dispatch loop and `CompactDead`.** -/
theorem Dispatched.roundOk (hnum : Numbered l) (hrun : l.running = true) (hg : Grows l l' t)
    (h : Dispatched revents 0 (build l.entries) l t threw) :
    RoundOk l revents t l'.compactDead threw := by
  have hentries : l'.compactDead.entries = replay t (live l.entries) := by
    show live l'.entries = _
    rw [hg.entries]
    exact live_foldl_step t l.entries fun e he => (hg.fresh e he).1
  refine ⟨fun pre id post hsplit => ?_, ?_, fun hthrew hstop i e hi hrev hcb => ?_,
    fun e he hinv => ?_, hentries, fun pre e post hsplit hrem => ?_, ?_⟩
  · obtain ⟨j, k, e, h1, h2, h3, -, h5, -, h7, -⟩ := h.only pre id post hsplit
    obtain ⟨e', h8, h9⟩ := getElem?_build h1
    rw [h2] at h8
    cases h8
    rw [Nat.zero_add] at h5
    exact ⟨j, e, h9, h3, h5, h7⟩
  · have hsub := h.once
    rw [filterMap_build] at hsub
    have hall := hsub.trans ((List.filter_sublist.map _).trans hnum)
    exact hall.nodup List.nodup_range
  · obtain ⟨k, h1, h2⟩ := build_of_live hi
    have hdead : e.dead = false := by
      have := (List.mem_filter.mp (List.mem_of_getElem? hi)).2
      simpa using this
    exact h.all hthrew hstop hrun i k e h1 h2 hdead (by rw [Nat.zero_add]; exact hrev) hcb
  · obtain ⟨pre, post, hsplit⟩ := List.append_of_mem hinv
    obtain ⟨j, k, e', -, h2, h3, -⟩ := h.only pre e.id post hsplit
    have h4 := hnum.lt (List.mem_of_getElem? h2)
    have h5 := hg.le_id he
    omega
  · rw [hentries, hsplit, replay_append]
    exact mem_replay post _ (List.mem_append_right _ (List.mem_singleton_self e)) hrem
  · rw [filterMap_build]
    exact live_live l'.entries

/-! ### Every loop a program can have -/

theorem map_id_step (es : List Entry) (ev : Event) :
    (step es ev).map Entry.id = es.map Entry.id ++ ([ev].filterMap Event.added).map Entry.id := by
  cases ev with
  | add e => simp [step, Event.added]
  | remove fd =>
    simp only [step, marked, List.map_map, Event.added, List.filterMap_cons, List.filterMap_nil,
      List.map_nil, List.append_nil]
    refine List.map_congr_left fun e _ => ?_
    by_cases h : e.fd = fd <;> simp [h]
  | stop => simp [step, Event.added]
  | visit id => simp [step, Event.added]
  | invoke id => simp [step, Event.added]

theorem map_id_foldl_step : ∀ (t : List Event) (es : List Entry), (t.foldl step es).map Entry.id =
    es.map Entry.id ++ (t.filterMap Event.added).map Entry.id
  | [], es => by simp
  | ev :: t, es => by
    have hcons : (ev :: t).filterMap Event.added =
      [ev].filterMap Event.added ++ t.filterMap Event.added := List.filterMap_append (l := [ev])
    rw [List.foldl_cons, map_id_foldl_step t (step es ev), map_id_step, hcons, List.map_append,
      List.append_assoc]

theorem range_append_range' {m n : ℕ} (h : m ≤ n) :
    List.range m ++ List.range' m (n - m) = List.range n := by
  rw [List.range_eq_range', List.range_eq_range']
  have happ := List.range'_append_1 (s := 0) (m := m) (n := n - m)
  rw [Nat.zero_add, Nat.add_sub_cancel' h] at happ
  exact happ

theorem Numbered.grows (h : Numbered l) (hg : Grows l l' t) : Numbered l' := by
  unfold Numbered
  rw [hg.entries, map_id_foldl_step, hg.ids, ← range_append_range' hg.next]
  exact List.Sublist.append h (List.Sublist.refl _)

/-- The trace accounts for the entries, and for every call. -/
structure Traced (l : Loop) : Prop where
  numbered : Numbered l
  live : live l.entries = replay l.trace []
  ids : (l.trace.filterMap Event.added).map Entry.id = List.range l.nextId
  fresh : ∀ e, Event.add e ∈ l.trace → e.dead = false ∧ ∀ tfd, e.cb = .oneShot tfd → tfd = e.fd
  /-- a call is of an entry that is there, and a one-shot timer first takes itself out -/
  invoked : ∀ pre id post, l.trace = pre ++ .invoke id :: post → ∃ e ∈ replay pre [], e.id = id ∧
    ∀ tfd, e.cb = .oneShot tfd → ∃ post', post = .remove tfd :: post'

theorem traced_empty : Traced .empty := by
  refine ⟨List.nil_sublist _, rfl, rfl, fun e he => ?_, fun pre id post h => ?_⟩
  · cases he
  · rcases pre with _ | ⟨ev, pre⟩ <;> cases h

theorem Traced.grows (h : Traced l) (hg : Grows l l' t)
    (hinv : ∀ pre id post, t = pre ++ .invoke id :: post → ∃ e ∈ Loop.live l.entries, e.id = id ∧
      Event.remove e.fd ∉ pre ∧ ∀ tfd, e.cb = .oneShot tfd → ∃ post', post = .remove tfd :: post') :
    Traced l' where
  numbered := h.numbered.grows hg
  live := by
    rw [hg.entries, live_foldl_step t l.entries fun e he => (hg.fresh e he).1, h.live, hg.trace,
      replay_append]
  ids := by
    rw [hg.trace, List.filterMap_append, List.map_append, h.ids, hg.ids,
      range_append_range' hg.next]
  fresh e he := by
    rw [hg.trace, List.mem_append] at he
    rcases he with he | he
    · exact h.fresh e he
    · exact hg.fresh e he
  invoked pre id post hsplit := by
    rw [hg.trace] at hsplit
    rcases split_append hsplit with ⟨c, h1, rfl⟩ | ⟨c, rfl, h2⟩
    · obtain ⟨e, he, hid, hone⟩ := h.invoked pre id c h1
      refine ⟨e, he, hid, fun tfd htfd => ?_⟩
      obtain ⟨post', rfl⟩ := hone tfd htfd
      exact ⟨post' ++ t, rfl⟩
    · obtain ⟨e, he, hid, hrem, hone⟩ := hinv c id post h2
      refine ⟨e, ?_, hid, hone⟩
      rw [replay_append, ← h.live]
      exact mem_replay c _ he hrem

theorem Traced.apply (h : Traced l) (o : Op) : Traced (l.apply o) := by
  obtain ⟨t, hg, hq⟩ := grows_apply l o
  refine h.grows hg fun pre id post hsplit => ?_
  exact absurd (show Event.invoke id ∈ t by rw [hsplit]; simp) (hq id).2

theorem Traced.compactDead (h : Traced l) : Traced l.compactDead := by
  have hsub := (List.filter_sublist (l := l.entries) (p := fun e => !e.dead)).map Entry.id
  exact ⟨hsub.trans h.numbered, (live_live l.entries).trans h.live, h.ids, h.fresh, h.invoked⟩

/-- **One round.** -/
theorem Traced.round (h : Traced l) (hrun : l.running = true) (r : Round) :
    Traced (l.round r).1 ∧ match r.poll with
      | .eintr | .error => (l.round r).1 = l
      | .ready revents => ∃ t, (l.round r).1.trace = l.trace ++ t ∧
          RoundOk l revents t (l.round r).1 (l.round r).2 := by
  unfold Loop.round
  cases r.poll with
  | eintr => exact ⟨h, rfl⟩
  | error => exact ⟨h, rfl⟩
  | ready revents =>
    obtain ⟨t, hg, hd⟩ := dispatch_spec r revents (build l.entries) 0 l fun k => lt_of_mem_build
    refine ⟨(h.grows hg fun pre id post hsplit => ?_).compactDead, t, hg.trace,
      hd.roundOk h.numbered hrun hg⟩
    obtain ⟨j, k, e, h1, h2, h3, -, -, -, h7, h8⟩ := hd.only pre id post hsplit
    obtain ⟨e', h9, h10⟩ := getElem?_build h1
    rw [h2] at h9
    cases h9
    exact ⟨e, List.mem_of_getElem? h10, h3, h7, h8⟩

theorem Traced.runRounds : ∀ (rs : List Round) {l : Loop}, Traced l → Traced (runRounds rs l).1
  | [], _, h => h
  | r :: rs, l, h => by
    unfold Loop.runRounds
    by_cases hrun : l.running = false
    · rw [if_pos hrun]
      exact h
    · rw [if_neg hrun]
      have h1 := (h.round (by simpa using hrun) r).1
      by_cases hthrew : (l.round r).2 = true
      · simp only [hthrew, if_true]
        exact h1
      · simp only [hthrew]
        exact Traced.runRounds rs h1

/-- Whether the loop is running is not in the trace. -/
theorem Traced.running (h : Traced l) (b : Bool) : Traced { l with running := b } :=
  ⟨h.numbered, h.live, h.ids, h.fresh, h.invoked⟩

theorem Built.traced (h : Built l) : Traced l := by
  induction h with
  | empty => exact traced_empty
  | apply _ o ih => exact ih.apply o
  | run _ rs ih => exact Traced.runRounds rs (ih.running true)

theorem Traced.roundsOf : ∀ (rs : List Round) {l : Loop}, Traced l →
    ∀ l₁ r, (l₁, r) ∈ roundsOf rs l → Traced l₁ ∧ l₁.running = true
  | [], _, _, _, _, hmem => by cases hmem
  | r :: rs, l, h, l₁, r₁, hmem => by
    unfold Loop.roundsOf at hmem
    by_cases hrun : l.running = false
    · rw [if_pos hrun] at hmem
      cases hmem
    · have hrun' : l.running = true := by simpa using hrun
      rw [if_neg hrun] at hmem
      rcases List.mem_cons.mp hmem with heq | hmem
      · cases heq
        exact ⟨h, hrun'⟩
      · by_cases hthrew : (l.round r).2 = true
        · rw [if_pos hthrew] at hmem
          cases hmem
        · rw [if_neg hthrew] at hmem
          exact Traced.roundsOf rs (h.round hrun' r).1 l₁ r₁ hmem

/-! ### One-shot timers -/

theorem Traced.nodup (h : Traced l) : ((l.trace.filterMap Event.added).map Entry.id).Nodup := by
  rw [h.ids]
  exact List.nodup_range

/-- An entry is known by its number. -/
theorem Traced.add_inj (h : Traced l) {e e' : Entry} (he : Event.add e ∈ l.trace)
    (he' : Event.add e' ∈ l.trace) (hid : e.id = e'.id) : e = e' :=
  List.inj_on_of_nodup_map h.nodup (List.mem_filterMap.mpr ⟨_, he, rfl⟩)
    (List.mem_filterMap.mpr ⟨_, he', rfl⟩) hid

/-- And is registered once. -/
theorem Traced.add_once (h : Traced l) {a b : List Event} (hsplit : l.trace = a ++ b)
    (ha : Event.add e ∈ a) : Event.add e ∉ b := by
  intro hb
  have hnodup := h.nodup
  rw [hsplit, List.filterMap_append, List.map_append] at hnodup
  exact List.disjoint_of_nodup_append hnodup
    (List.mem_map_of_mem (List.mem_filterMap.mpr ⟨_, ha, rfl⟩))
    (List.mem_map_of_mem (List.mem_filterMap.mpr ⟨_, hb, rfl⟩))

/-- **An entry that is removed is not called again.** -/
theorem Traced.not_invoke_of_remove (h : Traced l) (pre post : List Event)
    (hsplit : l.trace = pre ++ .remove e.fd :: post) (he : Event.add e ∈ pre) :
    Event.invoke e.id ∉ post := by
  intro hinv
  obtain ⟨c, c', rfl⟩ := List.append_of_mem hinv
  have hat : l.trace = (pre ++ .remove e.fd :: c) ++ .invoke e.id :: c' := by
    rw [hsplit, List.append_assoc, List.cons_append]
  obtain ⟨e', he', hid, -⟩ := h.invoked _ _ _ hat
  have hadd' : Event.add e' ∈ pre ++ .remove e.fd :: c := by
    rcases mem_of_mem_replay _ _ he' with hmem | hmem
    · cases hmem
    · exact hmem
  have hin : Event.add e ∈ l.trace := by rw [hsplit]; exact List.mem_append_left _ he
  have hin' : Event.add e' ∈ l.trace := by rw [hat]; exact List.mem_append_left _ hadd'
  obtain rfl := h.add_inj hin' hin hid
  -- it is not there after the removal, so it has been added again
  rw [replay_append] at he'
  rcases mem_of_mem_replay c (replayStep (replay pre []) (.remove e'.fd)) he' with hmem | hmem
  · have hne := (List.mem_filter.mp hmem).2
    simp at hne
  · refine h.add_once hsplit he (List.mem_cons_of_mem _ ?_)
    exact List.mem_append_left _ hmem

/-- A one-shot timer, called, is not called again. -/
theorem Traced.oneShot_once (h : Traced l) {tfd : ℤ} (he : Event.add e ∈ l.trace)
    (hcb : e.cb = .oneShot tfd) : l.trace.count (.invoke e.id) ≤ 1 := by
  by_cases hinv : Event.invoke e.id ∈ l.trace
  · obtain ⟨pre, post, hsplit, hpre⟩ := List.eq_append_cons_of_mem hinv
    obtain ⟨e', he', hid, hone⟩ := h.invoked pre e.id post hsplit
    have hadd' : Event.add e' ∈ pre := by
      rcases mem_of_mem_replay _ _ he' with hmem | hmem
      · cases hmem
      · exact hmem
    have hin' : Event.add e' ∈ l.trace := by rw [hsplit]; exact List.mem_append_left _ hadd'
    obtain rfl := h.add_inj hin' he hid
    obtain ⟨post', rfl⟩ := hone tfd hcb
    obtain rfl := (h.fresh e' he).2 tfd hcb
    have hpost : Event.invoke e'.id ∉ post' := by
      refine h.not_invoke_of_remove (pre ++ [.invoke e'.id]) post' ?_
        (List.mem_append_left _ hadd')
      rw [hsplit, List.append_assoc, List.singleton_append]
    rw [hsplit, List.count_append, List.count_eq_zero_of_not_mem hpre, List.count_cons_self,
      List.count_cons_of_ne (by simp), List.count_eq_zero_of_not_mem hpost]
  · rw [List.count_eq_zero_of_not_mem hinv]
    exact Nat.zero_le 1

/-- **Every `Run` of every loop**: each round is as `RoundOk` says and leaves exactly the entries
registered and not removed since, a failed `poll` leaves the loop alone, and a one-shot timer is
called at most once and never after it is removed. -/
theorem run_dispatches (h : Built l) (rs : List Round) :
    (∀ l₁ r, (l₁, r) ∈ roundsOf rs { l with running := true } → match r.poll with
      | .eintr | .error => (l₁.round r).1 = l₁
      | .ready revents => ∃ t, (l₁.round r).1.trace = l₁.trace ++ t ∧
          RoundOk l₁ revents t (l₁.round r).1 (l₁.round r).2 ∧
          (l₁.round r).1.entries = replay (l₁.round r).1.trace []) ∧
    ∀ e tfd, Event.add e ∈ (l.run rs).1.trace → e.cb = .oneShot tfd →
      (l.run rs).1.trace.count (.invoke e.id) ≤ 1 ∧
      ∀ pre post, (l.run rs).1.trace = pre ++ .remove tfd :: post → Event.add e ∈ pre →
        Event.invoke e.id ∉ post := by
  constructor
  · intro l₁ r hmem
    obtain ⟨htr, hrun⟩ := Traced.roundsOf rs (h.traced.running true) l₁ r hmem
    obtain ⟨htr', hround⟩ := htr.round hrun r
    cases hp : r.poll with
    | eintr | error =>
      rw [hp] at hround
      exact hround
    | ready revents =>
      rw [hp] at hround
      obtain ⟨t, h1, h2⟩ := hround
      refine ⟨t, h1, h2, ?_⟩
      rw [← htr'.live, ← filterMap_build]
      exact h2.polled.symm
  · intro e tfd he hcb
    have htr := (h.run rs).traced
    obtain rfl := (htr.fresh e he).2 tfd hcb
    exact ⟨htr.oneShot_once he hcb, htr.not_invoke_of_remove⟩

/-- A one-shot timer on 5 and a connection on 6. -/
def timerAndConn : Loop := ((Loop.empty.apply (.addOneShotTimer 5)).apply (.addFd 6 true 1))

/-- Both are ready; the timer closes the connection and accepts one with the same descriptor. -/
def reuseRound : Round where
  poll := .ready fun _ => 1
  interrupt := fun _ => false
  act := fun id => ⟨if id = 0 then [.removeFd 6, .addFd 6 true 1] else [], false⟩

/-- The old connection is not called for its events, nor is the new one. -/
theorem run_dispatches_reuse :
    (timerAndConn.run [reuseRound]).1.trace =
      [.add ⟨0, 5, 1, false, .oneShot 5⟩, .add ⟨1, 6, 1, false, .app⟩, .visit 0, .invoke 0,
        .remove 5, .remove 6, .add ⟨2, 6, 1, false, .app⟩, .visit 1] ∧
    (timerAndConn.run [reuseRound]).1.entries = [⟨2, 6, 1, false, .app⟩] ∧
    (timerAndConn.run [reuseRound]).1.trace.count (.invoke 0) ≤ 1 ∧
    ∃ t, (timerAndConn.run [reuseRound]).1.trace = timerAndConn.trace ++ t ∧
      RoundOk { timerAndConn with running := true } (fun _ => 1) t
        (timerAndConn.run [reuseRound]).1 (timerAndConn.run [reuseRound]).2 := by
  have hbuilt : Built timerAndConn := (Built.empty.apply _).apply _
  obtain ⟨hrounds, hone⟩ := run_dispatches hbuilt [reuseRound]
  refine ⟨by decide, by decide, (hone ⟨0, 5, 1, false, .oneShot 5⟩ 5 (by decide) rfl).1, ?_⟩
  obtain ⟨t, h1, h2, -⟩ := hrounds _ reuseRound List.mem_cons_self
  exact ⟨t, h1, h2⟩

end ShmIpc.Conn.EventLoop
