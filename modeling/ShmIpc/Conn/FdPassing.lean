import ShmIpc.Lib.LittleEndian
import Mathlib.Data.List.GetD

/-! # Receiving file descriptors: `common.hpp`

When `recvmsg` returns, the kernel has installed the descriptors of the message in the process,
whatever the program thinks of the message afterwards: as many as fit the control buffer, and
`MSG_CTRUNC` says that there were more. The buffer is made for one descriptor, and its alignment has
room for a second. `Msg` is such a message with what the kernel promises of it.

`RecvFd` closes all descriptors of a message with too many of them, and its comments name the leak
that would be there otherwise. But two of its checks come before it looks at the control message:
`no_leak_iff` says that exactly these lose descriptors. -/

namespace ShmIpc.Conn.FdPassing

open ShmIpc.Lib.LittleEndian

/-! ### What `recvmsg` leaves -/

/-- `CMSG_LEN`, with the 16 bytes of a `cmsghdr`. -/
def cmsgLen (n : ℕ) : ℕ := 16 + n

/-- `CMSG_SPACE`: the data is padded to a multiple of eight. -/
def cmsgSpace (n : ℕ) : ℕ := 16 + (n + 7) / 8 * 8

/-- The first control message. -/
structure Cmsg where
  /-- the level is `SOL_SOCKET` and the type `SCM_RIGHTS` -/
  rights : Bool
  /-- `cmsg_len` -/
  len : ℕ
  /-- the `int`s behind `CMSG_DATA` -/
  data : List Int32
  deriving DecidableEq, Repr

/-- A message that `recvmsg` has delivered to `RecvFd`. The peer has sent `sent` descriptors with
it, and `installed` are those that the kernel has installed. -/
structure Msg where
  received : ℕ
  data : List UInt8
  ctrunc : Bool
  cmsg : Option Cmsg
  sent : ℕ
  installed : List Int32
  length_data : data.length = 256
  received_le : received ≤ 256
  installed_le : installed.length ≤ sent
  truncated : installed.length < sent → ctrunc = true
  fits : cmsgLen (4 * installed.length) ≤ cmsgSpace 4
  nonneg : ∀ fd ∈ installed, 0 ≤ fd
  nodup : installed.Nodup
  carried : installed ≠ [] → ∃ c, cmsg = some c ∧ c.rights = true
  described : ∀ c, cmsg = some c → c.rights = true →
    c.len = cmsgLen (4 * installed.length) ∧ c.data.take installed.length = installed

/-- The result of `recvmsg`: a negative one with the text of `errno`, or a message. -/
inductive Recv : Type
  | failed (errno : String)
  | msg (m : Msg)

/-! ### The program -/

/-- `FdTag`; any value may come from the peer. -/
structure FdTag where
  val : UInt32
  deriving DecidableEq, Repr

/-- `FdTag::kMemfd`. -/
def kMemfd : FdTag := ⟨0x4D454D46⟩

/-- `FdTag::kEventfd`. -/
def kEventfd : FdTag := ⟨0x45564644⟩

/-- `TaggedFd`. -/
structure TaggedFd where
  fd : Int32
  tag : FdTag
  deriving DecidableEq, Repr

/-- What a call has done: the descriptors that its `recvmsg` calls installed, those it closed, and
its result or what it threw. -/
structure Outcome (α : Type) where
  installed : List Int32
  closed : List Int32
  result : Except String α

/-- The loop of `RecvFd` over the descriptors of a control message: those that it closes. -/
def closeExtras (c : Cmsg) : List Int32 :=
  ((List.range ((c.len - cmsgLen 0) / 4)).map fun i => c.data.getD i (-1)).filter (0 ≤ ·)

/-- `RecvFd` on a message: the descriptors that it closes, and its result. -/
def recvFdMsg (m : Msg) : List Int32 × Except String TaggedFd :=
  if m.received = 0 then ([], .error "recvmsg: connection closed during fd transfer")
  else if m.received < 4 then ([], .error "recvmsg: message too short for fd tag")
  else if m.ctrunc then ([], .error "recvmsg: control message truncated")
  else
    match m.cmsg with
    | none => ([], .error "RecvFd: no SCM_RIGHTS in control message")
    | some c =>
      if c.rights = false then ([], .error "RecvFd: no SCM_RIGHTS in control message")
      else if c.len < cmsgLen 4 then ([], .error "RecvFd: control message too short for fd")
      else if cmsgLen 4 < c.len then
        (closeExtras c, .error "RecvFd: multiple fds in one message")
      else ([], .ok ⟨c.data.getD 0 (-1), ⟨ofLe m.data⟩⟩)

/-- `RecvFd`. -/
def recvFd : Recv → Outcome TaggedFd
  | .failed errno => ⟨[], [], .error ("recvmsg: " ++ errno)⟩
  | .msg m => ⟨m.installed, (recvFdMsg m).1, (recvFdMsg m).2⟩

/-- `~UniqueFd`: the descriptor that it closes. -/
def destroyFd (fd : Int32) : List Int32 := if 0 ≤ fd then [fd] else []

/-- The text of `RecvFdExpect` about a wrong tag. -/
def wrongTag (expected tag : FdTag) : String :=
  let exp := if expected = kMemfd then "memfd" else "eventfd"
  let got := if tag = kMemfd then "memfd" else if tag = kEventfd then "eventfd" else "unknown"
  "recv_fd: expected " ++ exp ++ " but got " ++ got

/-- `RecvFdExpect`. -/
def recvFdExpect (expected : FdTag) (r : Recv) : Outcome Int32 :=
  let o := recvFd r
  match o.result with
  | .error e => ⟨o.installed, o.closed, .error e⟩
  | .ok t =>
    if t.tag ≠ expected then
      ⟨o.installed, o.closed ++ destroyFd t.fd, .error (wrongTag expected t.tag)⟩
    else ⟨o.installed, o.closed, .ok t.fd⟩

/-- `RingChannel::RecvPeerFds` with the results of the two `recvmsg` and of `mmap` (`some errno` is
that it fails). If it throws, the channel is destroyed. -/
def recvPeerFds (r : Recv) (mmap : Option String) (r' : Recv) : Outcome (Int32 × Int32) :=
  let o := recvFdExpect kMemfd r
  match o.result with
  | .error e => ⟨o.installed, o.closed, .error e⟩
  | .ok memfd =>
    match mmap with
    | some errno => ⟨o.installed, o.closed ++ destroyFd memfd, .error ("mmap: " ++ errno)⟩
    | none =>
      let o' := recvFdExpect kEventfd r'
      match o'.result with
      | .error e =>
        ⟨o.installed ++ o'.installed, o.closed ++ (o'.closed ++ destroyFd memfd), .error e⟩
      | .ok efd => ⟨o.installed ++ o'.installed, o.closed ++ o'.closed, .ok (memfd, efd)⟩

/-! ### Accounting for the descriptors -/

variable {α : Type}

/-- The call returns what it owns, all that was installed and nothing closed; or it throws, with
everything closed that was installed. -/
def Outcome.Clean (owned : α → List Int32) (o : Outcome α) : Prop :=
  match o.result with
  | .ok a => o.installed = owned a ∧ o.closed = []
  | .error _ => o.closed.Perm o.installed

/-- The message has no descriptors, or it passes the checks that come before them: it has the bytes
of a tag, and its control data is not truncated. -/
def Recv.Regular : Recv → Prop
  | .failed _ => True
  | .msg m => m.installed = [] ∨ (4 ≤ m.received ∧ m.ctrunc = false)

theorem map_getD_range {l : List α} {d : α} {n : ℕ} (h : n ≤ l.length) :
    (List.range n).map (fun i => l.getD i d) = l.take n := by
  refine List.ext_getElem (by simp [h]) fun i h1 h2 => ?_
  have hi : i < l.length := by
    rw [List.length_take] at h2
    omega
  rw [List.getElem_map, List.getElem_range, List.getElem_take, List.getD_eq_getElem _ _ hi]

variable {m : Msg} {c : Cmsg}

/-- The control message holds the installed descriptors. -/
theorem length_installed_le (hc : m.cmsg = some c) (hr : c.rights = true) :
    m.installed.length ≤ c.data.length := by
  have h := congrArg List.length (m.described c hc hr).2
  rw [List.length_take] at h
  omega

/-- The loop closes all of them. -/
theorem closeExtras_eq (hc : m.cmsg = some c) (hr : c.rights = true) :
    closeExtras c = m.installed := by
  obtain ⟨hlen, hdata⟩ := m.described c hc hr
  have hn : (c.len - cmsgLen 0) / 4 = m.installed.length := by
    rw [hlen]
    unfold cmsgLen
    omega
  unfold closeExtras
  rw [hn, map_getD_range (length_installed_le hc hr), hdata]
  exact List.filter_eq_self.mpr fun fd hfd => decide_eq_true (m.nonneg fd hfd)

/-- The only descriptor of a message is the one that is read. -/
theorem installed_eq_single (hc : m.cmsg = some c) (hr : c.rights = true)
    (hlen : c.len = cmsgLen 4) : m.installed = [c.data.getD 0 (-1)] := by
  obtain ⟨hlen', hdata⟩ := m.described c hc hr
  have hn : m.installed.length = 1 := by
    rw [hlen] at hlen'
    unfold cmsgLen at hlen'
    omega
  have hle := length_installed_le hc hr
  rw [hn] at hle hdata
  rw [← hdata, ← map_getD_range hle]
  rfl

/-- Before it looks at the control message, `RecvFd` closes nothing. -/
theorem recvFd_early (h : m.received < 4 ∨ m.ctrunc = true) :
    ∃ e, recvFd (.msg m) = ⟨m.installed, [], .error e⟩ := by
  have hmsg : ∃ e, recvFdMsg m = ([], .error e) := by
    unfold recvFdMsg
    split_ifs with h1 h2 h3
    · exact ⟨_, rfl⟩
    · exact ⟨_, rfl⟩
    · exact ⟨_, rfl⟩
    · rcases h with h | h
      · exact absurd h h2
      · exact absurd h h3
  obtain ⟨e, he⟩ := hmsg
  refine ⟨e, ?_⟩
  show (⟨m.installed, (recvFdMsg m).1, (recvFdMsg m).2⟩ : Outcome TaggedFd) = _
  rw [he]

/-- After the early checks all descriptors are accounted for. -/
theorem recvFd_late (h : 4 ≤ m.received) (ht : m.ctrunc = false) :
    (recvFd (.msg m)).Clean fun t => [t.fd] := by
  have hnone : (∀ c, m.cmsg = some c → c.rights = false) → m.installed = [] := by
    intro hno
    by_contra hne
    obtain ⟨c, hc, hr⟩ := m.carried hne
    rw [hno c hc] at hr
    cases hr
  unfold recvFd recvFdMsg
  simp only []
  rw [if_neg (by omega), if_neg (by omega), if_neg (by rw [ht]; exact Bool.false_ne_true)]
  cases hc : m.cmsg with
  | none =>
    rw [hnone fun c h => by rw [hc] at h; cases h]
    exact List.Perm.refl []
  | some c =>
    simp only []
    split_ifs with hr hshort hlong
    · rw [hnone fun c' h' => by rw [hc] at h'; cases h'; exact hr]
      exact List.Perm.refl []
    · have hr' : c.rights = true := by simpa using hr
      have hlen := (m.described c hc hr').1
      have hnil : m.installed = [] := by
        apply List.eq_nil_of_length_eq_zero
        unfold cmsgLen at hshort hlen
        omega
      rw [hnil]
      exact List.Perm.refl []
    · have hr' : c.rights = true := by simpa using hr
      rw [closeExtras_eq hc hr']
      exact List.Perm.refl _
    · have hr' : c.rights = true := by simpa using hr
      exact ⟨installed_eq_single hc hr' (by omega), rfl⟩

/-- A message that fails an early check is not regular, unless it has no descriptors. -/
theorem regular_iff (h : m.received < 4 ∨ m.ctrunc = true) :
    (Recv.msg m).Regular ↔ m.installed = [] := by
  unfold Recv.Regular
  refine or_iff_left fun hno => ?_
  rcases h with h | h
  · omega
  · rw [hno.2] at h
    cases h

theorem recvFd_regular {r : Recv} (h : r.Regular) : (recvFd r).Clean fun t => [t.fd] := by
  cases r with
  | failed errno => exact List.Perm.refl []
  | msg m =>
    by_cases hearly : m.received < 4 ∨ m.ctrunc = true
    · obtain ⟨e, he⟩ := recvFd_early hearly
      rw [he, (regular_iff hearly).mp h]
      exact List.Perm.refl []
    · rw [not_or, not_lt, Bool.not_eq_true] at hearly
      exact recvFd_late hearly.1 hearly.2

/-- Where an early check comes between, the installed descriptors are lost. -/
theorem recvFd_irregular {r : Recv} (h : ¬ r.Regular) :
    ∃ fds e, recvFd r = ⟨fds, [], .error e⟩ ∧ fds ≠ [] := by
  cases r with
  | failed errno => exact absurd trivial h
  | msg m =>
    have hearly : m.received < 4 ∨ m.ctrunc = true := by
      by_contra hno
      rw [not_or, not_lt, Bool.not_eq_true] at hno
      exact h (Or.inr hno)
    obtain ⟨e, he⟩ := recvFd_early hearly
    exact ⟨m.installed, e, he, fun hnil => h ((regular_iff hearly).mpr hnil)⟩

theorem clean_ok {owned : α → List Int32} {o : Outcome α} {a : α} (h : o.result = .ok a) :
    o.Clean owned ↔ o.installed = owned a ∧ o.closed = [] := by
  unfold Outcome.Clean
  rw [h]

theorem clean_error {owned : α → List Int32} {o : Outcome α} {e : String}
    (h : o.result = .error e) : o.Clean owned ↔ o.closed.Perm o.installed := by
  unfold Outcome.Clean
  rw [h]

/-! ### The expected tag -/

/-- `RecvFd` returns a descriptor that is one, with the tag of the message. -/
theorem recvFd_ok {r : Recv} {t : TaggedFd} (h : (recvFd r).result = .ok t) :
    (recvFd r).installed = [t.fd] ∧ (recvFd r).closed = [] ∧ 0 ≤ t.fd ∧
      ∃ m, r = .msg m ∧ ofLe m.data = t.tag.val := by
  have hreg : r.Regular := by
    by_contra hno
    obtain ⟨fds, e, he, -⟩ := recvFd_irregular hno
    rw [he] at h
    cases h
  obtain ⟨hinst, hclosed⟩ := (clean_ok h).mp (recvFd_regular hreg)
  cases r with
  | failed errno => cases h
  | msg m =>
    have hmem : t.fd ∈ m.installed := by
      have heq : m.installed = [t.fd] := hinst
      rw [heq]
      exact List.mem_singleton_self _
    refine ⟨hinst, hclosed, m.nonneg _ hmem, m, rfl, ?_⟩
    unfold recvFd recvFdMsg at h
    simp only [] at h
    split_ifs at h
    cases hc : m.cmsg with
    | none =>
      rw [hc] at h
      cases h
    | some c =>
      rw [hc] at h
      simp only [] at h
      split_ifs at h
      cases h
      rfl

/-- What `RecvFdExpect` makes of `RecvFd`: an exception goes on, a wrong tag closes the
descriptor. -/
theorem recvFdExpect_cases (expected : FdTag) (r : Recv) :
    (∃ e, (recvFd r).result = .error e ∧
      recvFdExpect expected r = ⟨(recvFd r).installed, (recvFd r).closed, .error e⟩) ∨
    (∃ t, (recvFd r).result = .ok t ∧ t.tag = expected ∧
      recvFdExpect expected r = ⟨[t.fd], [], .ok t.fd⟩) ∨
    ∃ t e, (recvFd r).result = .ok t ∧ recvFdExpect expected r = ⟨[t.fd], [t.fd], .error e⟩ := by
  unfold recvFdExpect
  simp only []
  cases h : (recvFd r).result with
  | error e => exact Or.inl ⟨e, rfl, rfl⟩
  | ok t =>
    obtain ⟨hinst, hclosed, hpos, -⟩ := recvFd_ok h
    refine Or.inr ?_
    simp only []
    split_ifs with htag
    · refine Or.inr ⟨t, wrongTag expected t.tag, rfl, ?_⟩
      unfold destroyFd
      rw [hinst, hclosed, if_pos hpos, List.nil_append]
    · refine Or.inl ⟨t, rfl, not_not.mp htag, ?_⟩
      rw [hinst, hclosed]

/-- `RecvFdExpect` closes or returns what `RecvFd` returns. -/
theorem recvFdExpect_clean_iff (expected : FdTag) (r : Recv) :
    (recvFdExpect expected r).Clean (fun fd => [fd]) ↔
      (recvFd r).Clean fun t => [t.fd] := by
  rcases recvFdExpect_cases expected r with ⟨e, h, he⟩ | ⟨t, h, -, he⟩ | ⟨t, e, h, he⟩
  · rw [he, clean_error rfl, clean_error h]
  · rw [he, clean_ok rfl, clean_ok h]
    obtain ⟨hinst, hclosed, -⟩ := recvFd_ok h
    exact iff_of_true ⟨rfl, rfl⟩ ⟨hinst, hclosed⟩
  · rw [he, clean_error rfl, clean_ok h]
    obtain ⟨hinst, hclosed, -⟩ := recvFd_ok h
    exact iff_of_true (List.Perm.refl _) ⟨hinst, hclosed⟩

/-- **`RecvFd` accounts for the descriptors** exactly on those messages that have none or pass the
early checks. -/
theorem recvFd_clean_iff (r : Recv) : (recvFd r).Clean (fun t => [t.fd]) ↔ r.Regular := by
  refine ⟨fun h => ?_, recvFd_regular⟩
  by_contra hno
  obtain ⟨fds, e, he, hne⟩ := recvFd_irregular hno
  rw [he, clean_error rfl] at h
  exact hne (List.Perm.nil_eq h).symm

/-- **No descriptor leaks** in `RecvFd`, nor in `RecvFdExpect` with any expected tag, exactly on
those messages that have no descriptors or pass the early checks. -/
theorem no_leak_iff (r : Recv) :
    ((recvFd r).Clean (fun t => [t.fd]) ↔ r.Regular) ∧
    ∀ expected, ((recvFdExpect expected r).Clean (fun fd => [fd]) ∧
      ∀ fd, (recvFdExpect expected r).result = .ok fd →
        ∃ m, r = .msg m ∧ ofLe m.data = expected.val) ↔ r.Regular := by
  refine ⟨recvFd_clean_iff r, fun expected => ?_⟩
  rw [recvFdExpect_clean_iff, recvFd_clean_iff]
  refine and_iff_left fun fd hfd => ?_
  rcases recvFdExpect_cases expected r with ⟨e, h, he⟩ | ⟨t, h, htag, he⟩ | ⟨t, e, h, he⟩
  · rw [he] at hfd
    cases hfd
  · obtain ⟨-, -, -, m, hm, hdata⟩ := recvFd_ok h
    exact ⟨m, hm, by rw [hdata, htag]⟩
  · rw [he] at hfd
    cases hfd

/-- Three descriptors sent with the tag of a memfd: two of them fit. -/
def threeFds : Msg where
  received := 256
  data := le32 kMemfd.val ++ List.replicate 252 0
  ctrunc := true
  cmsg := some ⟨true, 24, [5, 6]⟩
  sent := 3
  installed := [5, 6]
  length_data := by rw [List.length_append, List.length_replicate]; rfl
  received_le := by decide
  installed_le := by decide
  truncated _ := rfl
  fits := by decide
  nonneg := by simp
  nodup := by simp
  carried _ := ⟨_, rfl, rfl⟩
  described := by
    rintro c ⟨⟩ _
    exact ⟨rfl, rfl⟩

/-- Both stay open. -/
theorem three_fds_leak :
    ¬ (recvFd (.msg threeFds)).Clean (fun t => [t.fd]) ∧
      ¬ (recvFdExpect kMemfd (.msg threeFds)).Clean fun fd => [fd] := by
  have hno : ¬ (Recv.msg threeFds).Regular := by
    rintro (h | ⟨-, h⟩)
    · cases h
    · cases h
  refine ⟨fun h => hno ((recvFd_clean_iff _).mp h), fun h => hno ?_⟩
  exact (recvFd_clean_iff _).mp ((recvFdExpect_clean_iff _ _).mp h)

/-! ### Both descriptors of a peer -/

/-- `RecvPeerFds` gets to its second `recvmsg`. -/
def GoesOn (r : Recv) (mmap : Option String) : Prop :=
  (∃ fd, (recvFdExpect kMemfd r).result = .ok fd) ∧ mmap = none

theorem recvFdExpect_ok {expected : FdTag} {r : Recv} {fd : Int32}
    (h : (recvFdExpect expected r).result = .ok fd) :
    recvFdExpect expected r = ⟨[fd], [], .ok fd⟩ ∧ 0 ≤ fd ∧ r.Regular := by
  rcases recvFdExpect_cases expected r with ⟨e, -, he⟩ | ⟨t, ht, -, he⟩ | ⟨t, e, -, he⟩
  · rw [he] at h
    cases h
  · rw [he] at h
    cases h
    obtain ⟨hinst, hclosed, hpos, -⟩ := recvFd_ok ht
    exact ⟨he, hpos, (recvFd_clean_iff r).mp ((clean_ok ht).mpr ⟨hinst, hclosed⟩)⟩
  · rw [he] at h
    cases h

/-- Where it does not get there, only the first message counts. -/
theorem recvPeerFds_stops {r : Recv} {mmap : Option String} (r' : Recv) (h : ¬ GoesOn r mmap) :
    (recvPeerFds r mmap r').Clean (fun p => [p.1, p.2]) ↔ r.Regular := by
  unfold recvPeerFds
  simp only []
  cases hr : (recvFdExpect kMemfd r).result with
  | error e => rw [clean_error rfl, ← clean_error hr, recvFdExpect_clean_iff, recvFd_clean_iff]
  | ok fd =>
    obtain ⟨he, hpos, hreg⟩ := recvFdExpect_ok hr
    cases mmap with
    | none => exact absurd ⟨⟨fd, hr⟩, rfl⟩ h
    | some errno =>
      simp only [he, destroyFd, if_pos hpos]
      exact iff_of_true (List.Perm.refl _) hreg

/-- Where it does, the first descriptor is owned or closed, and only the second message counts. -/
theorem recvPeerFds_goesOn {r : Recv} {mmap : Option String} (r' : Recv) (h : GoesOn r mmap) :
    (recvPeerFds r mmap r').Clean (fun p => [p.1, p.2]) ↔ r'.Regular := by
  obtain ⟨⟨fd, hr⟩, rfl⟩ := h
  obtain ⟨he, hpos, -⟩ := recvFdExpect_ok hr
  unfold recvPeerFds
  simp only [he, destroyFd, if_pos hpos]
  cases hr' : (recvFdExpect kEventfd r').result with
  | error e =>
    have hperm : ∀ closed installed : List Int32,
        (closed ++ [fd]).Perm (fd :: installed) ↔ closed.Perm installed := by
      intro closed installed
      rw [(List.perm_append_singleton fd closed).congr_left, List.perm_cons]
    rw [← recvFd_clean_iff, ← recvFdExpect_clean_iff kEventfd, clean_error hr']
    exact hperm _ _
  | ok efd =>
    obtain ⟨he', -, hreg⟩ := recvFdExpect_ok hr'
    rw [he']
    exact iff_of_true ⟨rfl, rfl⟩ hreg

/-- **`RecvPeerFds` accounts for the descriptors** of the messages that it receives exactly if all
of these have none or pass the early checks. -/
theorem recvPeerFds_clean_iff (r : Recv) (mmap : Option String) (r' : Recv) :
    (recvPeerFds r mmap r').Clean (fun p => [p.1, p.2]) ↔
      r.Regular ∧ (GoesOn r mmap → r'.Regular) := by
  by_cases h : GoesOn r mmap
  · obtain ⟨fd, hfd⟩ := h.1
    have hreg := (recvFdExpect_ok hfd).2.2
    rw [recvPeerFds_goesOn r' h]
    exact ⟨fun h' => ⟨hreg, fun _ => h'⟩, fun h' => h'.2 h⟩
  · rw [recvPeerFds_stops r' h]
    exact (and_iff_left fun hgo => absurd hgo h).symm

end ShmIpc.Conn.FdPassing
