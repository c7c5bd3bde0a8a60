import Mathlib.Data.Int.Notation
import Mathlib.Order.Basic
import Mathlib.Logic.Relation

/-! # The synchronous client: `shm_client.hpp`

`ReadMessage` with its time-out, statement by statement, together with `Close` from other threads,
the peer and the clock. The two statements of `Close` are two steps, and so is every load of
`closed_`, every look at the ring, the clock, `poll` and `read` of the reader. Of the ring only the
number of readable bytes is kept here.

The clock counts nanoseconds. The time left is computed in milliseconds from the seconds and the
nanoseconds by two divisions that round towards zero, so it may be up to a millisecond off in either
direction (`msLeft_close`). -/

namespace ShmIpc.Conn.SyncClient

open Relation

/-! ### The clock -/

/-- `timespec`. -/
structure Timespec where
  sec : ℤ
  nsec : ℤ
  deriving DecidableEq, Repr

/-- `clock_gettime(CLOCK_MONOTONIC)` at the time `t`. -/
def clockGettime (t : ℤ) : Timespec := ⟨t / 1000000000, t % 1000000000⟩

/-- `deadline`, from the time of the call. -/
def deadlineOf (now : Timespec) (timeoutMs : Int32) : Timespec :=
  let sec := now.sec + timeoutMs.toInt.tdiv 1000
  let nsec := now.nsec + timeoutMs.toInt.tmod 1000 * 1000000
  ⟨sec + nsec.tdiv 1000000000, nsec.tmod 1000000000⟩

/-- `ms`. -/
def msLeft (deadline now : Timespec) : ℤ :=
  (deadline.sec - now.sec) * 1000 + (deadline.nsec - now.nsec).tdiv 1000000

/-! ### The client and its surroundings -/

/-- A call of `ReadMessage`, with the time at which it read the clock. -/
structure Call where
  bsize : ℕ
  timeoutMs : Int32
  deadline : Timespec
  begun : ℤ
  deriving DecidableEq, Repr

/-- When the time of a call is up. -/
def Call.due (c : Call) : ℤ := c.begun + c.timeoutMs.toInt * 1000000

/-- Where the reader is. -/
inductive Pc : Type
  | out
  /-- before the clock is read for the deadline -/
  | entered (bsize : ℕ) (timeoutMs : Int32)
  /-- before `closed_` is loaded at the head of the loop -/
  | top (c : Call)
  | tryRead (c : Call)
  /-- before the clock is read for the time left -/
  | clock (c : Call)
  /-- in `poll`, called at the time `since` -/
  | polling (c : Call) (waitMs : Int32) (since : ℤ)
  /-- `poll` has returned with these events -/
  | woken (c : Call) (socket efd : Bool)
  /-- before `read` on the socket -/
  | reading (c : Call) (efd : Bool)
  /-- before the last look at the ring -/
  | lastRead (c : Call)
  /-- before `DrainNotify` -/
  | draining (c : Call)
  deriving DecidableEq, Repr

/-- A call that has returned `code` at the time `time`. -/
structure Return where
  code : ℤ
  call : Call
  time : ℤ
  deriving DecidableEq, Repr

/-- The client, the channel and the clock. -/
structure Sys where
  closed : Bool
  /-- `socket_fd_` holds a descriptor -/
  socket : Bool
  /-- `shutdown` was called on the socket -/
  shut : Bool
  /-- the peer has closed its end -/
  hungUp : Bool
  /-- bytes on the socket -/
  queue : ℕ
  /-- readable bytes in the ring -/
  avail : ℕ
  efd : ℕ
  now : ℤ
  /-- threads between the two statements of `Close` -/
  closers : ℕ
  pc : Pc
  log : List Return
  deriving DecidableEq, Repr

namespace Sys

/-- `Connected`. -/
def connected (s : Sys) : Bool := s.socket && !s.closed

/-- The socket has `POLLIN`, `POLLHUP` or `POLLERR`. -/
def readable (s : Sys) : Bool := s.shut || s.hungUp || decide (0 < s.queue)

/-- The call returns. -/
def returns (s : Sys) (c : Call) (code : ℤ) : Sys :=
  { s with pc := .out, log := s.log ++ [⟨code, c, s.now⟩] }

/-- What `TryRead` reads; the buffer size is passed on in 32 bits. -/
def taken (s : Sys) (c : Call) : ℕ := min s.avail (UInt32.ofNat c.bsize).toNat

/-- `TryRead` has read something. -/
def takes (s : Sys) (c : Call) : Sys :=
  { s with avail := s.avail - s.taken c }.returns c (s.taken c)

/-- `Connect`. -/
def connect (s : Sys) (ok : Bool) : Sys :=
  { s with
    closed := !ok
    socket := ok
    shut := false
    hungUp := false
    queue := 0
    avail := 0
    efd := 0 }

/-- `poll` is called. -/
def polls (s : Sys) (c : Call) (waitMs : Int32) : Sys := { s with pc := .polling c waitMs s.now }

/-- After a wake-up: drain the eventfd if it was signalled, and start over. -/
def goesOn (s : Sys) (c : Call) (efd : Bool) : Sys :=
  { s with pc := if efd then .draining c else .top c }

end Sys

/-- A step of the thread that calls `ReadMessage`. -/
inductive ReaderStep : Sys → Sys → Prop
  | call {s : Sys} (bsize : ℕ) (timeoutMs : Int32) (h : s.pc = .out) (hc : s.connected = true) :
      ReaderStep s { s with pc := .entered bsize timeoutMs }
  | refused {s : Sys} (bsize : ℕ) (timeoutMs : Int32) (h : s.pc = .out)
      (hc : s.connected = false) :
      ReaderStep s (s.returns ⟨bsize, timeoutMs, ⟨0, 0⟩, s.now⟩ (-1))
  | start {s : Sys} {bsize : ℕ} {timeoutMs : Int32} (h : s.pc = .entered bsize timeoutMs) :
      ReaderStep s { s with
        pc := .top ⟨bsize, timeoutMs,
          if 0 ≤ timeoutMs then deadlineOf (clockGettime s.now) timeoutMs else ⟨0, 0⟩, s.now⟩ }
  | top {s : Sys} {c : Call} (h : s.pc = .top c) :
      ReaderStep s (if s.closed then s.returns c (-1) else { s with pc := .tryRead c })
  | tryRead {s : Sys} {c : Call} (h : s.pc = .tryRead c) :
      ReaderStep s (if 0 < s.taken c then s.takes c
        else if 0 ≤ c.timeoutMs then { s with pc := .clock c } else s.polls c c.timeoutMs)
  | clock {s : Sys} {c : Call} (h : s.pc = .clock c) :
      ReaderStep s (if msLeft c.deadline (clockGettime s.now) ≤ 0 then s.returns c (-2)
        else s.polls c (Int32.ofInt (msLeft c.deadline (clockGettime s.now))))
  | interrupted {s : Sys} {c : Call} {w : Int32} {t : ℤ} (h : s.pc = .polling c w t) :
      ReaderStep s { s with pc := .top c }
  | pollError {s : Sys} {c : Call} {w : Int32} {t : ℤ} (h : s.pc = .polling c w t) :
      ReaderStep s (s.returns c (-1))
  /-- `poll` returns `0` when its time is up, and never without a limit -/
  | timedOut {s : Sys} {c : Call} {w : Int32} {t : ℤ} (h : s.pc = .polling c w t)
      (hw : 0 ≤ w) (ht : t + w.toInt * 1000000 ≤ s.now) (hs : s.readable = false)
      (he : s.efd = 0) : ReaderStep s (s.returns c (-2))
  | ready {s : Sys} {c : Call} {w : Int32} {t : ℤ} (h : s.pc = .polling c w t)
      (hr : s.readable = true ∨ 0 < s.efd) :
      ReaderStep s { s with pc := .woken c s.readable (decide (0 < s.efd)) }
  | woken {s : Sys} {c : Call} {sock efd : Bool} (h : s.pc = .woken c sock efd) :
      ReaderStep s (if sock then
          if s.closed then s.returns c (-1) else { s with pc := .reading c efd }
        else s.goesOn c efd)
  | readByte {s : Sys} {c : Call} {efd : Bool} (h : s.pc = .reading c efd) (hq : 0 < s.queue) :
      ReaderStep s ({ s with queue := s.queue - 1 }.goesOn c efd)
  | readEnd {s : Sys} {c : Call} {efd : Bool} (h : s.pc = .reading c efd) (hq : s.queue = 0)
      (he : s.shut = true ∨ s.hungUp = true) : ReaderStep s { s with pc := .lastRead c }
  | lastRead {s : Sys} {c : Call} (h : s.pc = .lastRead c) :
      ReaderStep s (if 0 < s.taken c then s.takes c
        else { s with socket := false }.returns c 0)
  | drain {s : Sys} {c : Call} (h : s.pc = .draining c) :
      ReaderStep s { s with efd := 0, pc := .top c }
  /-- `Connect`, between two calls -/
  | connect {s : Sys} (h : s.pc = .out) (ok : Bool) :
      ReaderStep s (s.connect ok)

/-- A step of the other threads, the peer and the clock. -/
inductive OtherStep : Sys → Sys → Prop
  /-- the first statement of `Close` -/
  | store {s : Sys} : OtherStep s { s with closed := true, closers := s.closers + 1 }
  /-- and the second -/
  | shutdown {s : Sys} (h : 0 < s.closers) :
      OtherStep s { s with shut := s.shut || s.socket, closers := s.closers - 1 }
  | hangUp {s : Sys} : OtherStep s { s with hungUp := true }
  | byte {s : Sys} : OtherStep s { s with queue := s.queue + 1 }
  | publish {s : Sys} (n : ℕ) : OtherStep s { s with avail := s.avail + n }
  | ring {s : Sys} : OtherStep s { s with efd := s.efd + 1 }
  | pass {s : Sys} (t : ℤ) (h : s.now ≤ t) : OtherStep s { s with now := t }

/-- A step of the system. -/
def Step (s s' : Sys) : Prop := ReaderStep s s' ∨ OtherStep s s'

/-- A new client at the time `t`. -/
def init (t : ℤ) : Sys where
  closed := true
  socket := false
  shut := false
  hungUp := false
  queue := 0
  avail := 0
  efd := 0
  now := t
  closers := 0
  pc := .out
  log := []

/-! ### The arithmetic of the deadline -/

theorem nsec_clockGettime (t : ℤ) :
    0 ≤ (clockGettime t).nsec ∧ (clockGettime t).nsec < 1000000000 := by
  unfold clockGettime
  dsimp only
  omega

theorem ns_clockGettime (t : ℤ) :
    (clockGettime t).sec * 1000000000 + (clockGettime t).nsec = t := by
  unfold clockGettime
  dsimp only
  omega

/-- The deadline is the time-out after the call. -/
theorem ns_deadlineOf {t : ℤ} {timeoutMs : Int32} (h : 0 ≤ timeoutMs.toInt) :
    (deadlineOf (clockGettime t) timeoutMs).sec * 1000000000 +
        (deadlineOf (clockGettime t) timeoutMs).nsec = t + timeoutMs.toInt * 1000000 ∧
      0 ≤ (deadlineOf (clockGettime t) timeoutMs).nsec ∧
      (deadlineOf (clockGettime t) timeoutMs).nsec < 1000000000 := by
  have hns := ns_clockGettime t
  have hnn := nsec_clockGettime t
  unfold deadlineOf
  dsimp only
  generalize timeoutMs.toInt = m at h ⊢
  generalize (clockGettime t).sec = sec at hns ⊢
  generalize (clockGettime t).nsec = nsec at hns hnn ⊢
  have hmod : 0 ≤ m.tmod 1000 := Int.tmod_nonneg _ h
  rw [Int.tdiv_eq_ediv_of_nonneg h, Int.tmod_eq_emod_of_nonneg h] at *
  have hn : 0 ≤ nsec + m % 1000 * 1000000 := by omega
  rw [Int.tdiv_eq_ediv_of_nonneg hn, Int.tmod_eq_emod_of_nonneg hn]
  omega

/-- The time left, less than a millisecond off. -/
theorem msLeft_close {d : Timespec} (t : ℤ) :
    msLeft d (clockGettime t) * 1000000 < d.sec * 1000000000 + d.nsec - t + 1000000 ∧
      d.sec * 1000000000 + d.nsec - t < msLeft d (clockGettime t) * 1000000 + 1000000 := by
  have hns := ns_clockGettime t
  unfold msLeft
  generalize (clockGettime t).sec = sec at hns ⊢
  generalize (clockGettime t).nsec = nsec at hns ⊢
  have hdiv := Int.mul_tdiv_add_tmod (d.nsec - nsec) 1000000
  have hlt := Int.tmod_lt_of_pos (d.nsec - nsec) (show (0 : ℤ) < 1000000 by decide)
  have hgt := Int.lt_tmod_of_pos (d.nsec - nsec) (show (0 : ℤ) < 1000000 by decide)
  omega

/-! ### `Close` wakes the reader -/

variable {s s' : Sys} {c : Call}

/-- How many steps of the reader a closed client may still take, at most. -/
def left : Pc → ℕ
  | .out => 0
  | .top _ | .lastRead _ | .woken _ true _ => 1
  | .entered _ _ | .polling _ _ _ | .draining _ => 2
  | .clock _ | .reading _ _ | .woken _ false _ => 3
  | .tryRead _ => 4

theorem left_goesOn (s : Sys) (c : Call) (efd : Bool) : left (s.goesOn c efd).pc ≤ 2 := by
  cases efd <;> simp [left, Sys.goesOn]

/-- `Close` has been called and has shut the socket down. -/
structure Closed (s : Sys) : Prop where
  closed : s.closed = true
  shut : s.shut = true

/-- A step of the reader in a closed client brings it nearer to the end of the call. -/
theorem ReaderStep.nearer (h : ReaderStep s s') (hc : Closed s) (hin : s.pc ≠ .out) :
    Closed s' ∧ left s'.pc < left s.pc := by
  obtain ⟨h1, h2⟩ := hc
  have hread : s.readable = true := by simp [Sys.readable, h2]
  cases h with
  | call bsize t hp => exact absurd hp hin
  | refused bsize t hp => exact absurd hp hin
  | connect hp => exact absurd hp hin
  | start hp =>
    rw [hp]
    exact ⟨⟨h1, h2⟩, by simp [left]⟩
  | top hp =>
    rw [hp, if_pos h1]
    exact ⟨⟨h1, h2⟩, by simp [left, Sys.returns]⟩
  | tryRead hp =>
    rw [hp]
    split_ifs
    · exact ⟨⟨h1, h2⟩, by simp [left, Sys.takes, Sys.returns]⟩
    · exact ⟨⟨h1, h2⟩, by simp [left]⟩
    · exact ⟨⟨h1, h2⟩, by simp [left, Sys.polls]⟩
  | clock hp =>
    rw [hp]
    split_ifs
    · exact ⟨⟨h1, h2⟩, by simp [left, Sys.returns]⟩
    · exact ⟨⟨h1, h2⟩, by simp [left, Sys.polls]⟩
  | interrupted hp =>
    rw [hp]
    exact ⟨⟨h1, h2⟩, by simp [left]⟩
  | pollError hp =>
    rw [hp]
    exact ⟨⟨h1, h2⟩, by simp [left, Sys.returns]⟩
  | timedOut hp hw ht hs =>
    rw [hread] at hs
    cases hs
  | ready hp =>
    rw [hp, hread]
    exact ⟨⟨h1, h2⟩, by simp [left]⟩
  | @woken c sock efd hp =>
    rw [hp]
    cases sock with
    | true =>
      rw [if_pos rfl, if_pos h1]
      exact ⟨⟨h1, h2⟩, by simp [left, Sys.returns]⟩
    | false =>
      rw [if_neg (by decide)]
      exact ⟨⟨h1, h2⟩, Nat.lt_succ_of_le (left_goesOn s c efd)⟩
  | @readByte c efd hp =>
    rw [hp]
    exact ⟨⟨h1, h2⟩, Nat.lt_succ_of_le (left_goesOn _ c efd)⟩
  | readEnd hp =>
    rw [hp]
    exact ⟨⟨h1, h2⟩, by simp [left]⟩
  | lastRead hp =>
    rw [hp]
    split_ifs
    · exact ⟨⟨h1, h2⟩, by simp [left, Sys.takes, Sys.returns]⟩
    · exact ⟨⟨h1, h2⟩, by simp [left, Sys.returns]⟩
  | drain hp =>
    rw [hp]
    exact ⟨⟨h1, h2⟩, by simp [left]⟩

theorem OtherStep.closed (h : OtherStep s s') (hc : Closed s) :
    Closed s' ∧ s'.pc = s.pc := by
  obtain ⟨h1, h2⟩ := hc
  cases h with
  | store => exact ⟨⟨rfl, h2⟩, rfl⟩
  | shutdown _ => exact ⟨⟨h1, by simp [h2]⟩, rfl⟩
  | hangUp | byte | publish | ring | pass => exact ⟨⟨h1, h2⟩, rfl⟩

/-- A part of a run in which the reader takes `n` steps and does not return. -/
inductive Busy (s : Sys) : ℕ → Sys → Prop
  | refl : Busy s 0 s
  | reader {n : ℕ} {s₁ s₂ : Sys} (h : Busy s n s₁) (hr : ReaderStep s₁ s₂) (hin : s₂.pc ≠ .out) :
      Busy s (n + 1) s₂
  | other {n : ℕ} {s₁ s₂ : Sys} (h : Busy s n s₁) (ho : OtherStep s₁ s₂) : Busy s n s₂

theorem Busy.closed {n : ℕ} (h : Busy s n s') (hc : Closed s) (hin : s.pc ≠ .out) :
    Closed s' ∧ s'.pc ≠ .out ∧ n + left s'.pc ≤ left s.pc := by
  induction h with
  | refl => exact ⟨hc, hin, by omega⟩
  | reader _ hr hin' ih =>
    obtain ⟨hc', hin₁, hle⟩ := ih
    obtain ⟨hc₂, hlt⟩ := hr.nearer hc' hin₁
    exact ⟨hc₂, hin', by omega⟩
  | other _ ho ih =>
    obtain ⟨hc', hin₁, hle⟩ := ih
    obtain ⟨hc₂, hpc⟩ := ho.closed hc'
    rw [hpc]
    exact ⟨hc₂, hin₁, hle⟩

/-- A call of `ReadMessage` has a socket, and a closed socket is shut down by whoever closed it. -/
structure Held (s : Sys) : Prop where
  socket : s.pc ≠ .out → s.socket = true
  shut : s.socket = true → s.closed = true → s.shut = true ∨ 0 < s.closers

/-- What a step of the reader leaves alone. -/
theorem ReaderStep.frame (h : ReaderStep s s') (hin : s.pc ≠ .out) :
    s'.closed = s.closed ∧ s'.shut = s.shut ∧ s'.closers = s.closers ∧ s'.now = s.now ∧
      (s'.socket = s.socket ∨ s'.socket = false ∧ s'.pc = .out) := by
  cases h with
  | call bsize t hp => exact absurd hp hin
  | refused bsize t hp => exact absurd hp hin
  | connect hp => exact absurd hp hin
  | top hp => split_ifs <;> exact ⟨rfl, rfl, rfl, rfl, Or.inl rfl⟩
  | tryRead hp => split_ifs <;> exact ⟨rfl, rfl, rfl, rfl, Or.inl rfl⟩
  | clock hp => split_ifs <;> exact ⟨rfl, rfl, rfl, rfl, Or.inl rfl⟩
  | woken hp => split_ifs <;> exact ⟨rfl, rfl, rfl, rfl, Or.inl rfl⟩
  | lastRead hp =>
    split_ifs
    · exact ⟨rfl, rfl, rfl, rfl, Or.inl rfl⟩
    · exact ⟨rfl, rfl, rfl, rfl, Or.inr ⟨rfl, rfl⟩⟩
  | start | interrupted | pollError | timedOut | ready | readByte | readEnd | drain =>
    exact ⟨rfl, rfl, rfl, rfl, Or.inl rfl⟩

theorem Step.held (h : Step s s') (hs : Held s) : Held s' := by
  obtain ⟨hsock, hshut⟩ := hs
  rcases h with h | h
  · by_cases hin : s.pc = .out
    · cases h with
      | call bsize t hp hcon =>
        rw [Sys.connected, Bool.and_eq_true] at hcon
        exact ⟨fun _ => hcon.1, hshut⟩
      | refused => exact ⟨fun hout => absurd rfl hout, hshut⟩
      | connect hp ok =>
        refine ⟨fun hout => absurd hp hout, fun h1 h2 => ?_⟩
        cases ok with
        | true => cases h2
        | false => cases h1
      | start hp | top hp | tryRead hp | clock hp | interrupted hp | pollError hp | timedOut hp
      | ready hp | woken hp | readByte hp | readEnd hp | lastRead hp | drain hp =>
        rw [hin] at hp
        cases hp
    · obtain ⟨h1, h2, h3, -, h5⟩ := h.frame hin
      refine ⟨fun hout => ?_, fun hso hcl => ?_⟩
      · rcases h5 with h5 | ⟨-, h5⟩
        · rw [h5]
          exact hsock hin
        · exact absurd h5 hout
      · rcases h5 with h5 | ⟨h5, -⟩
        · rw [h2, h3]
          exact hshut (h5 ▸ hso) (h1 ▸ hcl)
        · rw [h5] at hso
          cases hso
  · cases h with
    | store => exact ⟨hsock, fun _ _ => Or.inr (Nat.succ_pos _)⟩
    | shutdown hpos => exact ⟨hsock, fun hso _ => Or.inl (by dsimp only at hso ⊢; simp [hso])⟩
    | hangUp | byte | publish | ring | pass => exact ⟨hsock, hshut⟩

/-- The call that the reader is in, once it has its deadline. -/
def Pc.call : Pc → Option Call
  | .out | .entered _ _ => none
  | .top c | .tryRead c | .clock c | .polling c _ _ | .woken c _ _ | .reading c _ | .lastRead c
  | .draining c => some c

theorem nonneg_iff {x : Int32} : 0 ≤ x ↔ 0 ≤ x.toInt := by
  rw [Int32.le_iff_toInt_le, Int32.toInt_zero]

/-- The deadline of a call is right. -/
structure Dated (c : Call) (now : ℤ) : Prop where
  begun : c.begun ≤ now
  due : 0 ≤ c.timeoutMs.toInt → c.deadline.sec * 1000000000 + c.deadline.nsec = c.due

/-- The wait of a `poll` that was called at the time `t`: with a time-out it is a positive number of
milliseconds, at most the time-out, and it ends less than a millisecond before or after the time of
the call is up; without one it has no limit. -/
def Waits (c : Call) (w : Int32) (t : ℤ) : Prop :=
  if 0 ≤ c.timeoutMs.toInt then
    1 ≤ w.toInt ∧ w.toInt ≤ c.timeoutMs.toInt ∧ t + w.toInt * 1000000 < c.due + 1000000 ∧
      c.due < t + w.toInt * 1000000 + 1000000
  else w = c.timeoutMs

/-- A call that has timed out had a time-out, and less than a millisecond of it was left. -/
def TimedOut (r : Return) : Prop :=
  0 ≤ r.call.timeoutMs.toInt ∧ r.call.due < r.time + 1000000

/-- The reader is in time. -/
structure Timed (s : Sys) : Prop where
  call : ∀ c, s.pc.call = some c → Dated c s.now
  clock : ∀ c, s.pc = .clock c → 0 ≤ c.timeoutMs.toInt
  poll : ∀ c w t, s.pc = .polling c w t → Waits c w t
  log : ∀ r ∈ s.log, r.code = -2 → TimedOut r

theorem timed_init (t : ℤ) : Timed (init t) :=
  ⟨fun _ h => (by cases h), fun _ h => (by cases h), fun _ _ _ h => (by cases h),
    fun _ h => absurd h List.not_mem_nil⟩

/-- The call returns. -/
theorem Timed.returns {code : ℤ} (hs : Timed s) (h : code = -2 → TimedOut ⟨code, c, s.now⟩) :
    Timed (s.returns c code) := by
  refine ⟨fun _ h => (by cases h), fun _ h => (by cases h), fun _ _ _ h => (by cases h),
    fun r hr => ?_⟩
  rcases List.mem_append.mp hr with hr | hr
  · exact hs.log r hr
  · rw [List.mem_singleton.mp hr]
    exact h

/-- The reader goes on with the same call, outside `poll`. -/
theorem Timed.goes {p : Pc} (hs : Timed s) (hc : Dated c s.now) (hp : p.call = some c)
    (hclock : ∀ c, p ≠ .clock c) (hpoll : ∀ c w t, p ≠ .polling c w t) :
    Timed { s with pc := p } := by
  refine ⟨fun c' h => ?_, fun c' h => absurd h (hclock c'),
    fun c' w t h => absurd h (hpoll c' w t), hs.log⟩
  rw [hp] at h
  cases h
  exact hc

theorem Timed.goesOn (hs : Timed s) (hc : Dated c s.now) (efd : Bool) :
    Timed (s.goesOn c efd) := by
  cases efd with
  | true => exact hs.goes hc rfl (fun _ h => by cases h) fun _ _ _ h => by cases h
  | false => exact hs.goes hc rfl (fun _ h => by cases h) fun _ _ _ h => by cases h

/-- A change outside the reader. -/
theorem Timed.same (hs : Timed s) (hp : s'.pc = s.pc) (hn : s.now ≤ s'.now) (hl : s'.log = s.log) :
    Timed s' := by
  refine ⟨fun c h => ?_, fun c h => hs.clock c (hp ▸ h), fun c w t h => hs.poll c w t (hp ▸ h),
    by rw [hl]; exact hs.log⟩
  obtain ⟨h1, h2⟩ := hs.call c (hp ▸ h)
  exact ⟨Int.le_trans h1 hn, h2⟩

theorem Timed.takes (hs : Timed s) (c : Call) : Timed (s.takes c) := by
  have hs' : Timed { s with avail := s.avail - s.taken c } :=
    Timed.same hs rfl (Int.le_refl _) rfl
  exact hs'.returns fun h => by omega

/-- `poll` is called with the time left. -/
theorem waits_msLeft (hc : Dated c s.now) (ht : 0 ≤ c.timeoutMs.toInt)
    (h : ¬ msLeft c.deadline (clockGettime s.now) ≤ 0) :
    Waits c (Int32.ofInt (msLeft c.deadline (clockGettime s.now))) s.now := by
  obtain ⟨h1, h2⟩ := msLeft_close (d := c.deadline) s.now
  rw [hc.due ht] at h1 h2
  have hb := hc.begun
  have hmax := Int32.toInt_lt c.timeoutMs
  unfold Waits
  rw [if_pos ht]
  unfold Call.due at h1 h2 ⊢
  generalize msLeft c.deadline (clockGettime s.now) = ms at h h1 h2 ⊢
  rw [Int32.toInt_ofInt_of_le (by omega) (by omega)]
  omega

theorem ReaderStep.timed (h : ReaderStep s s') (hs : Timed s) : Timed s' := by
  have hcall : ∀ {c : Call} {p : Pc}, s.pc = p → p.call = some c → Dated c s.now :=
    fun hp hc => hs.call _ (by rw [hp]; exact hc)
  have hno : ∀ {code : ℤ} {c : Call}, 0 ≤ code + 1 → code = -2 → TimedOut ⟨code, c, s.now⟩ :=
    fun h1 h2 => by omega
  cases h with
  | call bsize t hp =>
    exact ⟨fun _ h => (by cases h), fun _ h => (by cases h), fun _ _ _ h => (by cases h), hs.log⟩
  | refused bsize t hp => exact hs.returns (hno (by decide))
  | @start bsize t hp =>
    refine hs.goes (c := ⟨bsize, t, if 0 ≤ t then deadlineOf (clockGettime s.now) t else ⟨0, 0⟩,
      s.now⟩) ⟨Int.le_refl _, fun ht => ?_⟩ rfl (fun _ h => by cases h) fun _ _ _ h => by cases h
    dsimp only at ht ⊢
    rw [if_pos (nonneg_iff.mpr ht)]
    exact (ns_deadlineOf ht).1
  | @top c hp =>
    split_ifs
    · exact hs.returns (hno (by decide))
    · exact hs.goes (hcall hp rfl) rfl (fun _ h => by cases h) fun _ _ _ h => by cases h
  | @tryRead c hp =>
    split_ifs with h1 h2
    · exact hs.takes _
    · refine ⟨fun c' h => ?_, fun c' h => ?_, fun _ _ _ h => (by cases h), hs.log⟩
      · cases h
        exact hcall hp rfl
      · cases h
        exact nonneg_iff.mp h2
    · refine ⟨fun c' h => ?_, fun _ h => (by cases h), fun c' w t h => ?_, hs.log⟩
      · cases h
        exact hcall hp rfl
      · cases h
        unfold Waits
        rw [if_neg (fun h => h2 (nonneg_iff.mpr h))]
  | @clock c hp =>
    have hc := hcall hp rfl
    have ht := hs.clock c hp
    split_ifs with h
    · refine hs.returns fun _ => ⟨ht, ?_⟩
      have h2 := (msLeft_close (d := c.deadline) s.now).2
      rw [hc.due ht] at h2
      dsimp only
      omega
    · refine ⟨fun c' h' => ?_, fun _ h' => (by cases h'), fun c' w t h' => ?_, hs.log⟩
      · cases h'
        exact hc
      · cases h'
        exact waits_msLeft hc ht h
  | @interrupted c w t hp =>
    exact hs.goes (hcall hp rfl) rfl (fun _ h => by cases h) fun _ _ _ h => by cases h
  | pollError hp => exact hs.returns (hno (by decide))
  | @timedOut c w t hp hw ht =>
    -- the wait was over
    have hwait := hs.poll c w t hp
    refine hs.returns fun _ => ?_
    unfold Waits at hwait
    split_ifs at hwait with hpos
    · exact ⟨hpos, by dsimp only; omega⟩
    · rw [hwait] at hw
      exact absurd (nonneg_iff.mp hw) hpos
  | @ready c w t hp =>
    exact hs.goes (hcall hp rfl) rfl (fun _ h => by cases h) fun _ _ _ h => by cases h
  | @woken c sock efd hp =>
    split_ifs
    · exact hs.returns (hno (by decide))
    · exact hs.goes (hcall hp rfl) rfl (fun _ h => by cases h) fun _ _ _ h => by cases h
    · exact hs.goesOn (hcall hp rfl) efd
  | @readByte c efd hp =>
    have hs' : Timed { s with queue := s.queue - 1 } := Timed.same hs rfl (Int.le_refl _) rfl
    exact hs'.goesOn (hcall hp rfl) efd
  | @readEnd c efd hp =>
    exact hs.goes (hcall hp rfl) rfl (fun _ h => by cases h) fun _ _ _ h => by cases h
  | lastRead hp =>
    split_ifs with h1
    · exact hs.takes _
    · have hs' : Timed { s with socket := false } := Timed.same hs rfl (Int.le_refl _) rfl
      exact hs'.returns fun h => absurd h (by decide)
  | @drain c hp =>
    have hs' : Timed { s with efd := 0 } := Timed.same hs rfl (Int.le_refl _) rfl
    exact hs'.goes (hcall hp rfl) rfl (fun _ h => by cases h) fun _ _ _ h => by cases h
  | connect hp ok => exact Timed.same hs rfl (Int.le_refl _) rfl

theorem run_timed {t : ℤ} (h : ReflTransGen Step (init t) s) : Timed s := by
  induction h with
  | refl => exact timed_init t
  | tail _ hstep ih =>
    rcases hstep with hr | ho
    · exact hr.timed ih
    · cases ho with
      | pass t' ht => exact Timed.same ih rfl ht rfl
      | store | shutdown | hangUp | byte | publish | ring =>
        exact Timed.same ih rfl (Int.le_refl _) rfl

/-- **The time-out is kept.** In every run, with any number of wake-ups and signals in a call: every
`poll` waits as `Waits` says, and a call that returns `-2` had a time-out of which less than a
millisecond was left. -/
theorem timeout_kept {t : ℤ} (h : ReflTransGen Step (init t) s) :
    (∀ c w t, s.pc = .polling c w t → Waits c w t) ∧
      ∀ r ∈ s.log, r.code = -2 → TimedOut r :=
  ⟨(run_timed h).poll, (run_timed h).log⟩

/-- A call with a time-out of 5 ms, begun at 3 s, that has timed out. -/
def timedOutCall : Call := ⟨64, 5, ⟨3, 5000000⟩, 3000000000⟩

/-- Nothing comes for 5 ms. -/
theorem timeout_kept_five : ∃ s, ReflTransGen Step (init 3000000000) s ∧
    s.log = [⟨-2, timedOutCall, 3005000000⟩] ∧ TimedOut ⟨-2, timedOutCall, 3005000000⟩ := by
  have hrun : ReflTransGen Step (init 3000000000) _ :=
    .head (Or.inl (.connect rfl true)) (.head (Or.inl (.call 64 5 rfl rfl))
      (.head (Or.inl (.start rfl)) (.head (Or.inl (.top rfl)) (.head (Or.inl (.tryRead rfl))
        (.head (Or.inl (.clock (c := timedOutCall) rfl))
          (.head (Or.inr (.pass 3005000000 (by decide)))
            (.head (Or.inl (.timedOut (c := timedOutCall) (w := 5) (t := 3000000000) rfl
              (by decide) (by decide) rfl rfl)) .refl)))))))
  exact ⟨_, hrun, rfl, (timeout_kept hrun).2 _ (List.mem_singleton.mpr rfl) rfl⟩

end ShmIpc.Conn.SyncClient
