import ShmIpc.Conn.Connection
import ShmIpc.Lib.Trace

/-! # The verify timer

The callback of a verify timer holds a bare pointer to its connection, so no timer may be left in
the event loop when the connection goes. Any number of connections share the loop; their methods are
called in any order, also from inside the callbacks, and timers fire at any time while their entry
is live. What happened is recorded in the owner's state (`Mark`).

A connection keeps the descriptor of its timer and takes `0` for none. The timers are contained if
and only if the kernel never returns `0` for a timer and no timer is started after `OnClose` is
through (`contains_iff`): descriptor `0` is never removed, and `StartVerifyTimer` does not look at
the state. -/

namespace ShmIpc.Conn.VerifyTimer

open ShmIpc.Lib.RelyGuarantee ShmIpc.Lib.Reentrant ShmIpc.Lib.Trace
open ShmIpc.Conn.DrainRing ShmIpc.Conn.Connection

/-! ### The calls -/

/-- What is recorded; entries of the event loop are known by their index. -/
inductive Mark : Type
  /-- the loop calls an entry of the connection -/
  | fired (c i : ℕ)
  /-- `Close`, `OnVerify` or `OnClose` has returned, when there were `n` entries -/
  | returned (c n : ℕ)
  /-- `OnClose` has completed, or the destructor of the client -/
  | completed (c : ℕ)
  deriving DecidableEq, Repr

/-- The world with a mark. -/
def marked (w : World (List Mark)) (m : Mark) : World (List Mark) :=
  { w with owner := w.owner ++ [m] }

/-- A method of `c` returns. -/
def returning (c : ℕ) : ConnM (List Mark) Unit :=
  modify fun w => marked w (.returned c w.entries.length)

/-- `OnClose` of `c` or the destructor of its client completes. -/
def completing (c : ℕ) : ConnM (List Mark) Unit := do
  returning c
  modify fun w => marked w (.completed c)

/-- `~ShmAsyncClient`, with the connection `c`. -/
def destroyClient (c : ℕ) : ConnM (List Mark) Unit := do
  close c
  modify fun w => { w with
    entries := removeFd (removeFd w.entries (w.conns c).notifyFd) (w.conns c).socketFd }

/-- What a run may do: get `0` from the kernel for a timer, start a timer after `OnClose` has
completed. -/
structure Allowed where
  zero : Bool
  late : Bool

/-- The methods of the connections, and the timers. -/
inductive Calls (a : Allowed) (w : World (List Mark)) : ConnM (List Mark) Unit → Prop
  | startVerifyTimer (c : ℕ) (h : a.late = true ∨ .completed c ∉ w.owner) :
      Calls a w (startVerifyTimer c)
  | verifyTimerExpired (c i tfd : ℕ) (h : w.entries[i]? = some ⟨tfd, .verifyTimer c, false⟩) :
      Calls a w (do
        modify fun w => marked w (.fired c i)
        verifyTimerExpired c tfd)
  | onVerify (c : ℕ) (succ : Bool) : Calls a w (do
      onVerify c succ
      returning c)
  | close (c : ℕ) : Calls a w (do
      close c
      returning c)
  | onClose (c : ℕ) : Calls a w (do
      onClose c
      completing c)
  | destroyClient (c : ℕ) : Calls a w (do
      destroyClient c
      completing c)
  | onConnection (c : ℕ) : Calls a w (onConnection c)
  | onMessage (c : ℕ) (viaSocket : Bool) : Calls a w (onMessage c viaSocket)
  | sendCmd (c : ℕ) : Calls a w (do let _ ← sendCmd c)
  | drainRing (c : ℕ) (viaSocket : Bool) (fuel : ℕ) : Calls a w (do
      let _ ← drainRing c viaSocket fuel)

/-- Any rings, any codec, any application, any descriptors, within what is allowed. -/
def env (a : Allowed) : Env (List Mark) where
  answers _ _ q r :=
    match q, r with
    | .fd, tfd => a.zero = true ∨ tfd ≠ 0
    | _, _ => True
  returns _ _ _ _ := True
  calls _ w p := Calls a w p

/-- The world with new connections. -/
def initial (conns : ℕ → ShmConn) : World (List Mark) := ⟨conns, [], [], []⟩

/-- The live entries that capture a connection. -/
def timerEntries (w : World (List Mark)) (c : ℕ) : List Entry :=
  (live w.entries).filter fun e => e.target = .verifyTimer c

/-- If entry `i` is a timer of `c`, it is dead. -/
def DeadAt (w : World (List Mark)) (c i : ℕ) : Prop :=
  ∀ e, w.entries[i]? = some e → e.target = .verifyTimer c → e.dead = true

/-- At most one live entry captures a connection; once a method that removes the timer has returned,
no earlier entry is live or fires any more; and once the connection is done with, none captures
it. -/
def Contained (w : World (List Mark)) (c : ℕ) : Prop :=
  (timerEntries w c).length ≤ 1 ∧
  (∀ pre n post, w.owner = pre ++ .returned c n :: post →
    ∀ i < n, .fired c i ∉ post ∧ DeadAt w c i) ∧
  (.completed c ∈ w.owner → timerEntries w c = [])

/-- No timer outlives its connection, in every run. -/
def Contains (a : Allowed) : Prop :=
  ∀ conns, (∀ c, (conns c).verifyTimer = 0) →
    ∀ cfg, Reach (env a).machine (initial conns) cfg → ∀ c, Contained cfg.mem c

/-! ### The invariant -/

/-- Between any two steps. -/
structure TimerInv (w : World (List Mark)) : Prop where
  timers : ∀ c, timerEntries w c = [] ∨ (w.conns c).verifyTimer ≠ 0 ∧
    timerEntries w c = [⟨(w.conns c).verifyTimer, .verifyTimer c, false⟩]
  returned : ∀ pre c n post, w.owner = pre ++ .returned c n :: post →
    n ≤ w.entries.length ∧ ∀ i < n, .fired c i ∉ post ∧ DeadAt w c i
  completed : ∀ c, .completed c ∈ w.owner → (w.conns c).verifyTimer = 0

section Invariant

variable {w w' : World (List Mark)} {c i n fd : ℕ} {m : Mark}

/-- A connection without a descriptor has no timer. -/
theorem TimerInv.none_of_zero (h : TimerInv w) (hz : (w.conns c).verifyTimer = 0) :
    timerEntries w c = [] :=
  (h.timers c).resolve_right fun h' => h'.1 hz

theorem TimerInv.contained (h : TimerInv w) (c : ℕ) : Contained w c := by
  refine ⟨?_, fun pre n post hw => (h.returned pre c n post hw).2, fun hc => ?_⟩
  · rcases h.timers c with h1 | ⟨-, h1⟩ <;> simp [h1]
  · exact h.none_of_zero (h.completed c hc)

theorem deadAt_of_none (h : timerEntries w c = []) (i : ℕ) : DeadAt w c i := by
  intro e he ht
  by_contra hd
  have hmem : e ∈ timerEntries w c := by
    refine List.mem_filter.mpr ⟨List.mem_filter.mpr ⟨List.mem_of_getElem? he, ?_⟩, ?_⟩
    · simpa using hd
    · simpa using ht
  rw [h] at hmem
  cases hmem

/-- The invariant looks at the entries, the marks and the descriptors of the timers. -/
theorem TimerInv.congr (h : TimerInv w) (he : w'.entries = w.entries) (ho : w'.owner = w.owner)
    (hc : ∀ c, (w'.conns c).verifyTimer = (w.conns c).verifyTimer) : TimerInv w' where
  timers c := by rw [timerEntries, he, hc]; exact h.timers c
  returned := by
    unfold DeadAt
    rw [ho, he]
    exact h.returned
  completed c := by rw [ho, hc]; exact h.completed c

theorem TimerInv.note (h : TimerInv w) (e : Event) : TimerInv (w.note e) :=
  h.congr rfl rfl fun _ => rfl

theorem TimerInv.setConn (h : TimerInv w) {f : ShmConn → ShmConn}
    (hf : (f (w.conns c)).verifyTimer = (w.conns c).verifyTimer) : TimerInv (w.setConn c f) := by
  refine h.congr rfl rfl fun i => ?_
  by_cases hi : i = c
  · rw [hi, World.setConn_self]
    exact hf
  · rw [World.setConn_of_ne w c f hi]

theorem timerEntries_removeFd (fd : ℕ) :
    timerEntries { w with entries := removeFd w.entries fd } c =
      (timerEntries w c).filter fun e => e.fd ≠ fd := by
  simp only [timerEntries, live_removeFd, List.filter_filter]
  exact List.filter_congr fun e _ => Bool.and_comm _ _

theorem deadAt_removeFd (h : DeadAt w c i) (fd : ℕ) :
    DeadAt { w with entries := removeFd w.entries fd } c i := by
  intro e he ht
  simp only [removeFd, List.getElem?_map, Option.map_eq_some_iff] at he
  obtain ⟨e₀, he₀, rfl⟩ := he
  by_cases hfd : e₀.fd = fd
  · rw [if_pos hfd]
  · rw [if_neg hfd] at ht ⊢
    exact h e₀ he₀ ht

/-- Whatever is removed, at most what there was is left. -/
theorem TimerInv.removeFd (h : TimerInv w) (fd : ℕ) :
    TimerInv { w with entries := removeFd w.entries fd } where
  timers c := by
    rw [timerEntries_removeFd]
    rcases h.timers c with h1 | ⟨h1, h2⟩
    · exact .inl (by rw [h1, List.filter_nil])
    · rw [h2, List.filter_singleton]
      by_cases hfd : (w.conns c).verifyTimer ≠ fd
      · exact .inr ⟨h1, by simp [hfd]⟩
      · exact .inl (by simp [hfd])
  returned pre c n post hw := by
    obtain ⟨h1, h2⟩ := h.returned pre c n post hw
    refine ⟨by simpa [Connection.removeFd] using h1, fun i hi => ?_⟩
    exact ⟨(h2 i hi).1, deadAt_removeFd (h2 i hi).2 fd⟩
  completed := h.completed

/-- A connection drops its timer. -/
theorem TimerInv.dropTimer (h : TimerInv w)
    (hfd : timerEntries w c = [] ∨ (w.conns c).verifyTimer = fd) :
    TimerInv (w.dropTimer c fd) where
  timers i := by
    have h1 := (h.removeFd fd).timers i
    by_cases hi : i = c
    · subst hi
      refine .inl ?_
      show timerEntries { w with entries := Connection.removeFd w.entries fd } i = []
      rw [timerEntries_removeFd]
      rcases h.timers i with h2 | ⟨-, h2⟩
      · rw [h2, List.filter_nil]
      · rcases hfd with hfd | hfd
        · rw [hfd, List.filter_nil]
        · simp [h2, hfd]
    · rw [World.dropTimer, World.setConn_of_ne _ _ _ hi]
      exact h1
  returned := (h.removeFd fd).returned
  completed i hi := by
    by_cases hc : i = c
    · rw [hc, World.dropTimer, World.setConn_self]
    · rw [World.dropTimer, World.setConn_of_ne _ _ _ hc]
      exact h.completed i hi

/-- A connection without a timer gets one. -/
theorem TimerInv.addTimer (h : TimerInv w) (hz : (w.conns c).verifyTimer = 0) (hfd : fd ≠ 0)
    (hc : .completed c ∉ w.owner) : TimerInv (w.addTimer c fd) where
  timers i := by
    have he : timerEntries (w.addTimer c fd) i =
        timerEntries w i ++ if i = c then [⟨fd, .verifyTimer c, false⟩] else [] := by
      show ((live (addFd w.entries fd (.verifyTimer c))).filter _) = _
      rw [live_addFd, List.filter_append]
      by_cases hi : i = c
      · simp [hi, timerEntries]
      · simp [hi, Ne.symm hi, timerEntries]
    rw [he]
    by_cases hi : i = c
    · subst hi
      refine .inr ⟨?_, ?_⟩
      · rw [World.addTimer, World.setConn_self]
        exact hfd
      · rw [World.addTimer, World.setConn_self, h.none_of_zero hz, if_pos rfl, List.nil_append]
    · rw [World.addTimer, World.setConn_of_ne _ _ _ hi, if_neg hi, List.append_nil]
      exact h.timers i
  returned pre i n post hw := by
    obtain ⟨h1, h2⟩ := h.returned pre i n post hw
    have hlen : (w.addTimer c fd).entries.length = w.entries.length + 1 := by
      simp [World.addTimer, addFd]
    refine ⟨by omega, fun j hj => ⟨(h2 j hj).1, fun e he ht => (h2 j hj).2 e ?_ ht⟩⟩
    have he' : (w.entries ++ [⟨fd, .verifyTimer c, false⟩])[j]? = some e := he
    rwa [List.getElem?_append_left (by omega)] at he'
  completed i hi := by
    have hne : i ≠ c := by
      rintro rfl
      exact hc hi
    rw [World.addTimer, World.setConn_of_ne _ _ _ hne]
    exact h.completed i hi

/-- A mark: a method returns without a timer, a live entry fires, a connection is done with. -/
theorem TimerInv.marked (h : TimerInv w)
    (hret : ∀ c n, m = .returned c n → n ≤ w.entries.length ∧ timerEntries w c = [])
    (hfired : ∀ c i, m = .fired c i → ∃ fd, w.entries[i]? = some ⟨fd, .verifyTimer c, false⟩)
    (hcomp : ∀ c, m = .completed c → (w.conns c).verifyTimer = 0) :
    TimerInv (VerifyTimer.marked w m) where
  timers := h.timers
  returned pre c n post hw := by
    rcases split_concat hw with ⟨h1, -, rfl⟩ | ⟨post', h1, rfl⟩
    · obtain ⟨h2, h3⟩ := hret c n h1.symm
      exact ⟨h2, fun i _ => ⟨List.not_mem_nil, deadAt_of_none h3 i⟩⟩
    · obtain ⟨h2, h3⟩ := h.returned pre c n post' h1
      refine ⟨h2, fun i hi => ⟨?_, (h3 i hi).2⟩⟩
      rw [List.mem_append, List.mem_singleton, not_or]
      refine ⟨(h3 i hi).1, fun hm => ?_⟩
      -- the entry that fires is live
      obtain ⟨fd, hfd⟩ := hfired c i hm.symm
      have hdead := (h3 i hi).2 _ hfd rfl
      cases hdead
  completed c hc := by
    have hc' : .completed c ∈ w.owner ++ [m] := hc
    rw [List.mem_append, List.mem_singleton] at hc'
    rcases hc' with hc' | hc'
    · exact h.completed c hc'
    · exact hcomp c hc'.symm

theorem TimerInv.touch (h : TimerInv w) (ht : Touch c w w') : TimerInv w' := by
  cases ht with
  | shutDown _ =>
    have h1 : TimerInv
        (w.setConn c fun x => { x with closeType := .active, state := .closeing }) := h.setConn rfl
    exact h1.note _
  | dropTimer _ => exact h.dropTimer (.inr rfl)
  | established _ => exact h.setConn rfl
  | dropContexts => exact h.setConn rfl
  | wrote _ => exact h.note _
  | keepAlive => exact h.note _

end Invariant

/-! ### The methods keep it -/

/-- The rule: all code keeps the invariant, at every step. -/
def rule : Rule (Cmd (List Mark)) (World (List Mark)) where
  guar _ w w' := TimerInv w → TimerInv w'
  inv _ := TimerInv
  refl _ _ h := h
  trans _ _ _ _ h h' hw := h' (h hw)
  mono _ _ _ _ h := h

section Methods

variable {a : Allowed} {ks : List (Cmd (List Mark))} {w : World (List Mark)} {c : ℕ}
  {E : World (List Mark) → Prop}

/-- `c` has no timer. -/
def Bare (c : ℕ) (w : World (List Mark)) : Prop := TimerInv w ∧ (w.conns c).verifyTimer = 0

theorem kept : Kept rule ks c TimerInv := fun _ _ h ht => ⟨fun _ => h.touch ht, h.touch ht⟩

theorem delivers {viaSocket : Bool} : Delivers rule ks c viaSocket TimerInv :=
  fun _ h _ => ⟨fun h => h.note _, h.note _, fun _ hw' => hw'.2⟩

theorem removeVerifyTimer_bare (h : TimerInv w) :
    wpx (env a).machine rule ks (removeVerifyTimer c) (fun _ => Bare c) E w := by
  simp only [removeVerifyTimer, wpx_bind, wpx_get, wpx_ite, wpx_modify, wpx_pure]
  refine ⟨fun _ => ?_, fun hz => ⟨h, not_not.mp hz⟩⟩
  have h1 := h.dropTimer (c := c) (.inr rfl)
  exact ⟨fun _ => h1, h1, by simp [World.dropTimer]⟩

theorem close_bare (h : TimerInv w) :
    wpx (env a).machine rule ks (close c) (fun _ => Bare c) E w := by
  simp only [close, wpx_bind, wpx_get, wpx_ite, wpx_modify]
  refine ⟨fun ho => ?_, fun _ => removeVerifyTimer_bare h⟩
  have h1 := h.touch (.shutDown ho)
  exact ⟨fun _ => h1, removeVerifyTimer_bare h1⟩

theorem onVerify_bare (h : TimerInv w) {succ : Bool} :
    wpx (env a).machine rule ks (onVerify c succ) (fun _ => Bare c) E w := by
  rw [onVerify, wpx_bind]
  refine wpx_mono (fun _ w' h' => ?_) (fun _ h' => h') (removeVerifyTimer_bare h)
  rw [wpx_ite, wpx_modify]
  have h1 : TimerInv (w'.established c) := h'.1.setConn rfl
  refine ⟨fun _ => ⟨fun _ => h1, h1, ?_⟩, fun _ => close_bare h'.1⟩
  rw [World.established, World.setConn_self]
  exact h'.2

theorem onClose_bare (h : TimerInv w) :
    wpx (env a).machine rule ks (onClose c) (fun _ => Bare c) TimerInv w := by
  have htail : ∀ w', TimerInv w' → (TimerInv w' → TimerInv (w'.dropContexts c)) ∧
      wpx (env a).machine rule ks (removeVerifyTimer c) (fun _ => Bare c) TimerInv
        (w'.dropContexts c) := by
    intro w' h'
    have h1 : TimerInv (w'.dropContexts c) := h'.setConn rfl
    exact ⟨fun _ => h1, removeVerifyTimer_bare h1⟩
  have h1 : TimerInv (w.setConn c fun x => { x with state := .closeed }) := h.setConn rfl
  have h2 : TimerInv (w.closed c) := h1.note _
  simp only [onClose, wpx_bind, wpx_get, wpx_ite, wpx_modify, wpx_callback]
  refine ⟨fun _ => ⟨fun _ => h2, fun _ => ⟨fun _ => h2.note _, h2.note _, fun w' hw' => ?_⟩,
    fun _ => htail _ h2⟩, fun _ => htail w h⟩
  exact ⟨fun _ => htail w' hw'.2, fun _ => hw'.2⟩

/-- A method that removes the timer returns. -/
theorem returning_bare (h : Bare c w) :
    wpx (env a).machine rule ks (returning c) (fun _ => Bare c) E w := by
  have h1 : TimerInv (marked w (.returned c w.entries.length)) := by
    refine h.1.marked (fun c' n hm => ?_) (by simp) (by simp)
    cases hm
    exact ⟨le_rfl, h.1.none_of_zero h.2⟩
  exact wpx_modify.mpr ⟨fun _ => h1, h1, h.2⟩

theorem completing_bare (h : Bare c w) :
    wpx (env a).machine rule ks (completing c) (fun _ => TimerInv) E w := by
  rw [completing, wpx_bind]
  refine wpx_mono (fun _ w' h' => ?_) (fun _ h' => h') (returning_bare h)
  have h1 : TimerInv (marked w' (.completed c)) := by
    refine h'.1.marked (by simp) (by simp) fun c' hm => ?_
    cases hm
    exact h'.2
  exact wpx_modify.mpr ⟨fun _ => h1, h1⟩

theorem onConnection_inv (h : TimerInv w) :
    wpx (env a).machine rule ks (onConnection c) (fun _ => TimerInv) TimerInv w := by
  have h1 : TimerInv (w.setConn c fun x => { x with state := .verifing }) := h.setConn rfl
  have h2 : TimerInv (w.established c) := h.setConn rfl
  refine onConnection_keeps (K := TimerInv) (fun _ => ?_) (fun _ => ⟨fun _ => h2, h2⟩) ?_
  · exact ⟨fun _ => h1.note _, h1.note _, fun w' hw' => ⟨fun _ => hw'.2, fun _ => hw'.2⟩⟩
  · intro w' h'
    exact ⟨fun _ => h', fun _ => h'.note _, h'.note _,
      fun w'' hw'' => ⟨fun _ => hw''.2, fun _ => hw''.2⟩⟩

/-- Every call keeps the invariant. -/
theorem calls_keep (hz : a.zero = false) (hl : a.late = false) {p : ConnM (List Mark) Unit}
    (h : TimerInv w) (hp : Calls a w p) :
    wpx (env a).machine rule ks p (fun _ => TimerInv) TimerInv w := by
  have hret : ∀ (c : ℕ) (w' : World (List Mark)), Bare c w' →
      wpx (env a).machine rule ks (returning c) (fun _ => TimerInv) TimerInv w' :=
    fun c w' h' => wpx_mono (fun _ _ h'' => h''.1) (fun _ h'' => h'') (returning_bare h')
  cases hp with
  | startVerifyTimer c hc =>
    have hc' : .completed c ∉ w.owner := by simpa [hl] using hc
    rw [startVerifyTimer, wpx_bind, wpx_get, wpx_ite, wpx_bind]
    refine ⟨fun hnone => wpx_ask.mpr fun tfd ha => ?_, fun _ => h⟩
    have hfd : tfd ≠ 0 := by simpa [env, hz] using ha
    have h1 := h.addTimer hnone hfd hc'
    exact wpx_modify.mpr ⟨fun _ => h1, h1⟩
  | verifyTimerExpired c i tfd he =>
    have h1 : TimerInv (marked w (.fired c i)) := by
      refine h.marked (by simp) (fun c' i' hm => ?_) (by simp)
      cases hm
      exact ⟨tfd, he⟩
    have hcur : (w.conns c).verifyTimer = tfd := by
      have hmem : ⟨tfd, .verifyTimer c, false⟩ ∈ timerEntries w c :=
        List.mem_filter.mpr ⟨mem_live.mpr (List.mem_of_getElem? he), by simp⟩
      rcases h.timers c with h2 | ⟨-, h2⟩
      · rw [h2] at hmem
        cases hmem
      · rw [h2, List.mem_singleton] at hmem
        exact (congrArg Entry.fd hmem).symm
    have h2 : TimerInv ((marked w (.fired c i)).dropTimer c tfd) := h1.dropTimer (.inr hcur)
    rw [wpx_bind, wpx_modify, verifyTimerExpired, wpx_bind, wpx_modify, wpx_callback]
    exact ⟨fun _ => h1, fun _ => h2, h2, fun w' hw' => ⟨fun _ => hw'.2, fun _ => hw'.2⟩⟩
  | onVerify c succ =>
    exact wpx_bind.mpr (wpx_mono (fun _ => hret c) (fun _ h' => h') (onVerify_bare h))
  | close c => exact wpx_bind.mpr (wpx_mono (fun _ => hret c) (fun _ h' => h') (close_bare h))
  | onClose c =>
    exact wpx_bind.mpr (wpx_mono (fun _ _ => completing_bare) (fun _ h' => h') (onClose_bare h))
  | destroyClient c =>
    rw [wpx_bind, destroyClient, wpx_bind]
    refine wpx_mono (fun _ w' h' => ?_) (fun _ h' => h') (close_bare h)
    have h1 := (h'.1.removeFd (w'.conns c).notifyFd).removeFd (w'.conns c).socketFd
    exact wpx_modify.mpr ⟨fun _ => h1, completing_bare ⟨h1, h'.2⟩⟩
  | onConnection c => exact onConnection_inv h
  | onMessage c viaSocket => exact onMessage_keeps delivers h
  | sendCmd c =>
    exact wpx_bind.mpr (wpx_mono (fun _ _ h' => h'.1) (fun _ h' => h') (sendCmd_keeps kept h))
  | drainRing c viaSocket fuel =>
    have hm : Delivers rule ks c viaSocket TimerInv := delivers
    have hd := drainRing_keeps (e := env a) (X := fun _ => True) kept hm (fun _ _ _ => trivial) h
      (fun _ => trivial) fuel
    exact wpx_bind.mpr (wpx_mono (fun _ _ hw' => hw'.1) (fun _ h => h) hd)

end Methods

/-! ### When the timers are contained -/

theorem TimerInv.initial {conns : ℕ → ShmConn} (h : ∀ c, (conns c).verifyTimer = 0) :
    TimerInv (initial conns) where
  timers _ := .inl rfl
  returned pre c n post hw := by
    rcases pre with _ | ⟨m, pre⟩ <;> cases hw
  completed c _ := h c

theorem contains {a : Allowed} (hz : a.zero = false) (hl : a.late = false) : Contains a := by
  intro conns hconns cfg hreach c
  have h₀ := TimerInv.initial hconns
  have hG := (reach_inv (e := env a) (ρ := rule) (fun _ _ _ => calls_keep hz hl) h₀ hreach).2
  exact (hG h₀).contained c

/-- Connections without callbacks. -/
def plain : ℕ → ShmConn := fun _ => ShmConn.new 3 4

end ShmIpc.Conn.VerifyTimer
