import ShmIpc.Conn.Server
import Mathlib.Data.List.Flatten
import Mathlib.Data.List.Nodup

/-! # The connection table and the event loop

`RemoveFd` goes by number, and the kernel hands numbers out again. A connection is removed twice
when a callback removes it under the handler that is going to, or under the loop of `Stop`; the
second removal comes when others may be in the table. It does no harm because whoever is going to
remove a connection holds it, so its descriptors are open, and because the table only grows while no
callback runs (`rule`). `TableInv` holds whenever the application or the event loop has control. -/

namespace ShmIpc.Conn.Table

open ShmIpc.Lib.RelyGuarantee ShmIpc.Lib.Reentrant
open ShmIpc.Conn.DrainRing ShmIpc.Conn.Connection ShmIpc.Conn.Server

/-! ### The runs -/

/-- The descriptors of a connection. -/
def fdsOf (w : World ShmServer) (c : ℕ) : List ℕ := [(w.conns c).notifyFd, (w.conns c).socketFd]

/-- The descriptors of finished handshakes. -/
def pairs (ready : List (ℕ × ℕ)) : List ℕ := ready.flatMap fun p => [p.1, p.2]

/-- The descriptors of the connections in the table, and of those about to enter it. -/
def descriptors (w : World ShmServer) : List ℕ :=
  w.owner.conns.flatMap (fdsOf w) ++ pairs w.owner.ready

/-- The other open descriptors: those of the server itself, and the timers. -/
def Other (w : World ShmServer) (fd : ℕ) : Prop :=
  w.owner.listenFd = some fd ∨ w.owner.hsWakeFd = some fd ∨
    (∃ c, (w.conns c).verifyTimer = fd ∧ fd ≠ 0) ∨ ∃ c, ⟨fd, .verifyTimer c, false⟩ ∈ w.entries

/-- The descriptor is open. -/
def Busy (w : World ShmServer) (fd : ℕ) : Prop := fd ∈ descriptors w ∨ Other w fd

/-- The calls: `CloseConn` and `Stop` at any time, `OnVerify(true)` on any connection that is not
closed. -/
inductive Calls (ks : List (Cmd ShmServer)) (w : World ShmServer) : ConnM ShmServer Unit → Prop
  | server {p : ConnM ShmServer Unit} (h : Server.Calls ⟨true, true, false⟩ ks w p) : Calls ks w p
  | onVerify (c : ℕ) (succ : Bool) (h : (w.conns c).state ≠ .closeed) : Calls ks w (onVerify c succ)

/-- Any rings, any codec, any application whose callbacks do not throw, and a kernel that never
hands out a descriptor that is open. -/
def env : Env ShmServer where
  answers _ w q r :=
    match q, r with
    | .order, cs => cs.Perm w.owner.conns
    | .ready, ready => (pairs ready).Nodup ∧ ∀ fd ∈ pairs ready, ¬ Busy w fd
    | .fd, tfd => ¬ Busy w tfd
    | .listen, some fds => ¬ Busy w fds.1 ∧ ¬ Busy w fds.2
    | _, _ => True
  returns _ _ _ threw := threw = false
  calls ks w p := Calls ks w p

/-- The live entries of a connection. -/
def connEntries (w : World ShmServer) (c : ℕ) : List Entry :=
  (live w.entries).filter fun e => e.target = .notify c ∨ e.target = .socket c

/-- The entries that a connection in the table has. -/
def expected (w : World ShmServer) (c : ℕ) : List Entry :=
  if c ∈ w.owner.conns then
    [⟨(w.conns c).notifyFd, .notify c, false⟩, ⟨(w.conns c).socketFd, .socket c, false⟩]
  else []

/-- Table and event loop are in step. -/
structure InStep (w : World ShmServer) : Prop where
  entries : ∀ c, connEntries w c = expected w c
  ids : w.owner.entered.Nodup
  known : ∀ c ∈ w.owner.conns, c ∈ w.owner.entered
  closes : ∀ c ∈ w.owner.entered, w.log.count (.close c) = if c ∈ w.owner.conns then 0 else 1

/-! ### The invariant -/

/-- Whenever the application has control. -/
structure TableInv (w : World ShmServer) : Prop where
  entries : ∀ c, connEntries w c = expected w c
  nodup : (descriptors w).Nodup
  other : ∀ fd ∈ descriptors w, ¬ Other w fd
  here : ∀ c, c ∈ w.owner.conns ↔ (w.conns c).state ≠ .closeed
  closecb : ∀ c ∈ w.owner.conns, (w.conns c).closecb = true
  known : ∀ c ∈ w.owner.conns, c ∈ w.owner.entered
  below : ∀ c ∈ w.owner.entered, c < w.owner.nextId
  ids : w.owner.entered.Nodup
  closes : ∀ c, w.log.count (.close c) =
    if c ∈ w.owner.entered ∧ c ∉ w.owner.conns then 1 else 0

theorem TableInv.inStep {w : World ShmServer} (h : TableInv w) : InStep w := by
  refine ⟨h.entries, h.ids, h.known, fun c hc => ?_⟩
  rw [h.closes c]
  by_cases hm : c ∈ w.owner.conns <;> simp [hc, hm]

/-- The table shrinks, and the descriptors of the connections stay. -/
structure Shrinks (w w' : World ShmServer) : Prop where
  conns : w'.owner.conns ⊆ w.owner.conns
  ready : w'.owner.ready = w.owner.ready
  fds : ∀ c, fdsOf w' c = fdsOf w c

theorem Shrinks.trans {w w' w'' : World ShmServer} (h : Shrinks w w') (h' : Shrinks w' w'') :
    Shrinks w w'' :=
  ⟨fun _ hc => h.conns (h'.conns hc), h'.ready.trans h.ready, fun c => (h'.fds c).trans (h.fds c)⟩

/-- The rule: while a callback runs, no connection enters the table. -/
def rule : Rule (Cmd ShmServer) (World ShmServer) where
  guar ks w w' := ks ≠ [] → Shrinks w w'
  inv ks w := TableInv w ∧ (ks = [] → w.owner.ready = [])
  refl _ _ _ := ⟨List.Subset.refl _, rfl, fun _ => rfl⟩
  trans _ _ _ _ h h' hks := (h hks).trans (h' hks)
  mono _ _ _ _ h _ := h (List.cons_ne_nil _ _)

section Invariant

variable {ks : List (Cmd ShmServer)} {w w' : World ShmServer} {x : Callback} {c fd : ℕ}
  {hs : List ℕ} {r : List (ℕ × ℕ)}

/-- The descriptors of `c` are not those of another connection in the table. -/
def Held (c : ℕ) (w : World ShmServer) : Prop :=
  ∀ c' ∈ w.owner.conns, c' ≠ c → ∀ fd ∈ fdsOf w c, fd ∉ fdsOf w c'

theorem Held.shrinks (h : Held c w) (hs : Shrinks w w') : Held c w' := by
  intro c' hc' hne fd hfd
  rw [hs.fds] at hfd ⊢
  exact h c' (hs.conns hc') hne fd hfd

/-- What code knows between its callbacks: it holds the connections `hs`, and `r` is the queue. -/
structure Local (hs : List ℕ) (r : List (ℕ × ℕ)) (w : World ShmServer) : Prop where
  inv : TableInv w
  held : ∀ c ∈ hs, Held c w
  ready : w.owner.ready = r

/-- And knows again after a callback. -/
theorem Local.after (h : Local hs r w) (hw : Rule.After rule ks x w w') : Local hs r w' := by
  have hsh := hw.1 (List.cons_ne_nil _ _)
  exact ⟨hw.2.1, fun c hc => (h.held c hc).shrinks hsh, hsh.ready.trans h.ready⟩

theorem Local.entry (h : Local hs r w) : rule.inv (.callback x :: ks) w :=
  ⟨h.inv, fun hn => absurd hn (List.cons_ne_nil _ _)⟩

theorem mem_fds (hc : c ∈ w.owner.conns) (hfd : fd ∈ fdsOf w c) : fd ∈ descriptors w :=
  List.mem_append_left _ (List.mem_flatMap.mpr ⟨c, hc, hfd⟩)

/-- Connections in the table have their descriptors for themselves. -/
theorem TableInv.held (h : TableInv w) (hc : c ∈ w.owner.conns) : Held c w := by
  intro c' hc' hne fd hfd hfd'
  have hnodup := (List.nodup_append.mp h.nodup).1
  have hsymm : Std.Symm (Function.onFun List.Disjoint (fdsOf w)) :=
    ⟨fun _ _ hd _ ha hb => hd hb ha⟩
  exact (List.nodup_flatMap.mp hnodup).2.forall hc' hc hne hfd' hfd

theorem TableInv.not_other (h : TableInv w) (hc : c ∈ w.owner.conns) (hfd : fd ∈ fdsOf w c) :
    ¬ Other w fd :=
  h.other fd (mem_fds hc hfd)

/-- The entries of the connections only depend on the live entries. -/
theorem connEntries_removeFd (fd : ℕ) :
    connEntries { w with entries := removeFd w.entries fd } c =
      (connEntries w c).filter fun e => e.fd ≠ fd := by
  simp only [connEntries, live_removeFd, List.filter_filter]
  exact List.filter_congr fun e _ => Bool.and_comm _ _

/-- A descriptor that no connection in the table has. -/
theorem TableInv.removeFd (h : TableInv w) (hfd : ∀ c ∈ w.owner.conns, fd ∉ fdsOf w c) (c : ℕ) :
    connEntries { w with entries := removeFd w.entries fd } c = connEntries w c := by
  rw [connEntries_removeFd, h.entries c, expected]
  by_cases hc : c ∈ w.owner.conns
  · have hne := hfd c hc
    simp only [fdsOf, List.mem_cons, List.not_mem_nil, or_false, not_or] at hne
    simp [hc, Ne.symm hne.1, Ne.symm hne.2]
  · simp [hc]

theorem connEntries_addFd {t : Target} (ht : ∀ c, t ≠ .notify c ∧ t ≠ .socket c) (fd : ℕ) :
    connEntries { w with entries := addFd w.entries fd t } c = connEntries w c := by
  simp [connEntries, (ht c).1, (ht c).2]

/-- Nothing changes that the invariant looks at, but for other descriptors. -/
structure Same (w w' : World ShmServer) : Prop where
  conns : w'.owner.conns = w.owner.conns
  ready : w'.owner.ready = w.owner.ready
  entered : w'.owner.entered = w.owner.entered
  nextId : w'.owner.nextId = w.owner.nextId
  conn : ∀ c, (w'.conns c).notifyFd = (w.conns c).notifyFd ∧
    (w'.conns c).socketFd = (w.conns c).socketFd ∧ (w'.conns c).closecb = (w.conns c).closecb ∧
    ((w'.conns c).state = .closeed ↔ (w.conns c).state = .closeed)
  closes : ∀ c, w'.log.count (.close c) = w.log.count (.close c)
  entries : ∀ c, connEntries w' c = connEntries w c
  other : ∀ fd ∈ descriptors w, ¬ Other w fd → ¬ Other w' fd

theorem Same.fdsOf (h : Same w w') (c : ℕ) : fdsOf w' c = fdsOf w c := by
  unfold Table.fdsOf
  rw [(h.conn c).1, (h.conn c).2.1]

theorem Same.descriptors (h : Same w w') : descriptors w' = descriptors w := by
  have hfds : Table.fdsOf w' = Table.fdsOf w := funext h.fdsOf
  unfold Table.descriptors
  rw [h.conns, h.ready, hfds]

theorem Same.shrinks (h : Same w w') : Shrinks w w' :=
  ⟨fun _ hc => h.conns ▸ hc, h.ready, h.fdsOf⟩

theorem TableInv.same (h : TableInv w) (hs : Same w w') : TableInv w' where
  entries c := by
    rw [hs.entries, h.entries, expected, expected, hs.conns, (hs.conn c).1, (hs.conn c).2.1]
  nodup := by rw [hs.descriptors]; exact h.nodup
  other fd hfd := by
    rw [hs.descriptors] at hfd
    exact hs.other fd hfd (h.other fd hfd)
  here c := by rw [hs.conns, ne_eq, (hs.conn c).2.2.2]; exact h.here c
  closecb c hc := by rw [(hs.conn c).2.2.1]; exact h.closecb c (hs.conns ▸ hc)
  known c hc := by rw [hs.entered]; exact h.known c (hs.conns ▸ hc)
  below c hc := by rw [hs.nextId]; exact h.below c (hs.entered ▸ hc)
  ids := by rw [hs.entered]; exact h.ids
  closes c := by rw [hs.closes, hs.entered, hs.conns]; exact h.closes c

theorem Local.same (h : Local hs r w) (hs' : Same w w') : Local hs r w' :=
  ⟨h.inv.same hs', fun c hc => (h.held c hc).shrinks hs'.shrinks, hs'.ready.trans h.ready⟩

/-! ### What keeps it -/

theorem same_note {e : Event} (he : ∀ c, e ≠ .close c) : Same w (w.note e) := by
  refine ⟨rfl, rfl, rfl, rfl, fun _ => ⟨rfl, rfl, rfl, Iff.rfl⟩, fun c => ?_, fun _ => rfl,
    fun _ _ h => h⟩
  simp [he c]

/-- A connection changes, but neither its descriptors nor whether it is closed. -/
theorem same_setConn {f : ShmConn → ShmConn}
    (hfd : (f (w.conns c)).notifyFd = (w.conns c).notifyFd ∧
      (f (w.conns c)).socketFd = (w.conns c).socketFd ∧
      (f (w.conns c)).closecb = (w.conns c).closecb)
    (hst : (f (w.conns c)).state = .closeed ↔ (w.conns c).state = .closeed)
    (ht : (f (w.conns c)).verifyTimer = (w.conns c).verifyTimer ∨
      (f (w.conns c)).verifyTimer = 0) : Same w (w.setConn c f) := by
  refine ⟨rfl, rfl, rfl, rfl, fun i => ?_, fun _ => rfl, fun _ => rfl, fun fd _ hno => ?_⟩
  · by_cases hi : i = c
    · rw [hi, World.setConn_self]
      exact ⟨hfd.1, hfd.2.1, hfd.2.2, hst⟩
    · rw [World.setConn_of_ne w c f hi]
      exact ⟨rfl, rfl, rfl, Iff.rfl⟩
  · rintro (h | h | ⟨i, h, hz⟩ | h)
    · exact hno (.inl h)
    · exact hno (.inr (.inl h))
    · refine hno (.inr (.inr (.inl ⟨i, ?_, hz⟩)))
      by_cases hi : i = c
      · rw [hi, World.setConn_self] at h
        rw [hi]
        rcases ht with ht | ht
        · exact ht ▸ h
        · exact absurd (h.symm.trans ht) hz
      · rw [World.setConn_of_ne w c f hi] at h
        exact h
    · exact hno (.inr (.inr (.inr h)))

theorem Same.trans {w'' : World ShmServer} (h : Same w w') (h' : Same w' w'') : Same w w'' where
  conns := h'.conns.trans h.conns
  ready := h'.ready.trans h.ready
  entered := h'.entered.trans h.entered
  nextId := h'.nextId.trans h.nextId
  conn c := by
    obtain ⟨h1, h2, h3, h4⟩ := h.conn c
    obtain ⟨h5, h6, h7, h8⟩ := h'.conn c
    exact ⟨h5.trans h1, h6.trans h2, h7.trans h3, h8.trans h4⟩
  closes c := (h'.closes c).trans (h.closes c)
  entries c := (h'.entries c).trans (h.entries c)
  other fd hfd hno := h'.other fd (h.descriptors ▸ hfd) (h.other fd hfd hno)

/-- Another descriptor is removed from the event loop. -/
theorem TableInv.same_removeFd (h : TableInv w) (hfd : Other w fd) :
    Same w { w with entries := Connection.removeFd w.entries fd } := by
  refine ⟨rfl, rfl, rfl, rfl, fun _ => ⟨rfl, rfl, rfl, Iff.rfl⟩, fun _ => rfl, fun c => ?_,
    fun fd' _ hno => ?_⟩
  · exact h.removeFd (fun c hc hmem => h.not_other hc hmem hfd) c
  · rintro (h1 | h1 | h1 | ⟨c, h1⟩)
    · exact hno (.inl h1)
    · exact hno (.inr (.inl h1))
    · exact hno (.inr (.inr (.inl h1)))
    · refine hno (.inr (.inr (.inr ⟨c, ?_⟩)))
      rw [← mem_live, live_removeFd] at h1
      exact mem_live.mp (List.mem_filter.mp h1).1

theorem TableInv.same_dropTimer (h : TableInv w) (hfd : Other w fd) :
    Same w (w.dropTimer c fd) :=
  (h.same_removeFd hfd).trans (same_setConn ⟨rfl, rfl, rfl⟩ Iff.rfl (.inr rfl))

theorem TableInv.same_addTimer (h : ¬ Busy w fd) : Same w (w.addTimer c fd) := by
  have hconn : ∀ i, ((w.addTimer c fd).conns i).notifyFd = (w.conns i).notifyFd ∧
      ((w.addTimer c fd).conns i).socketFd = (w.conns i).socketFd ∧
      ((w.addTimer c fd).conns i).closecb = (w.conns i).closecb ∧
      (((w.addTimer c fd).conns i).state = .closeed ↔ (w.conns i).state = .closeed) := by
    intro i
    by_cases hi : i = c
    · rw [hi, World.addTimer, World.setConn_self]
      exact ⟨rfl, rfl, rfl, Iff.rfl⟩
    · rw [World.addTimer, World.setConn_of_ne _ _ _ hi]
      exact ⟨rfl, rfl, rfl, Iff.rfl⟩
  refine ⟨rfl, rfl, rfl, rfl, hconn, fun _ => rfl, fun i => ?_, fun fd' hfd' hno => ?_⟩
  · exact connEntries_addFd (t := .verifyTimer c) (by simp) fd
  · have hne : fd' ≠ fd := fun he => h (.inl (he ▸ hfd'))
    rintro (h1 | h1 | ⟨i, h1, hz⟩ | ⟨i, h1⟩)
    · exact hno (.inl h1)
    · exact hno (.inr (.inl h1))
    · refine hno (.inr (.inr (.inl ⟨i, ?_, hz⟩)))
      by_cases hi : i = c
      · rw [hi, World.addTimer, World.setConn_self] at h1
        exact absurd h1.symm hne
      · rw [World.addTimer, World.setConn_of_ne _ _ _ hi] at h1
        exact h1
    · refine hno (.inr (.inr (.inr ⟨i, ?_⟩)))
      have h2 : ⟨fd', .verifyTimer i, false⟩ ∈ w.entries ++ [⟨fd, .verifyTimer c, false⟩] := h1
      rw [List.mem_append, List.mem_singleton] at h2
      refine h2.resolve_right fun he => hne ?_
      exact congrArg Entry.fd he

theorem TableInv.touch (h : TableInv w) (ht : Touch c w w') : Same w w' := by
  cases ht with
  | shutDown ho =>
    have h1 : Same w (w.setConn c fun x => { x with closeType := .active, state := .closeing }) :=
      same_setConn ⟨rfl, rfl, rfl⟩ (by simp [not_closeed ho]) (.inl rfl)
    exact h1.trans (same_note (by simp))
  | dropTimer hne => exact h.same_dropTimer (.inr (.inr (.inl ⟨c, rfl, hne⟩)))
  | established ho => exact same_setConn ⟨rfl, rfl, rfl⟩ (by simp [not_closeed ho]) (.inl rfl)
  | dropContexts => exact same_setConn ⟨rfl, rfl, rfl⟩ Iff.rfl (.inl rfl)
  | wrote _ => exact same_note (by simp)
  | keepAlive => exact same_note (by simp)

theorem kept : Kept rule ks c (Local hs r) := by
  intro w w' h ht
  have hs := h.inv.touch ht
  exact ⟨fun _ => hs.shrinks, h.same hs⟩

/-! ### Removal -/

theorem other_released (h : Other (released c w) fd) : Other w fd := by
  rcases h with h | h | h | ⟨i, h⟩
  · exact .inl h
  · exact .inr (.inl h)
  · exact .inr (.inr (.inl h))
  · refine .inr (.inr (.inr ⟨i, ?_⟩))
    rw [← mem_live] at h ⊢
    simp only [released, withServer, live_removeFd] at h
    exact (List.mem_filter.mp (List.mem_filter.mp h).1).1

/-- `RemoveConn` takes the entries of its connection, and no other. -/
theorem TableInv.connEntries_released (h : TableInv w) (hheld : Held c w) (i : ℕ) :
    connEntries (released c w) i = if i = c then [] else connEntries w i := by
  have hrel : connEntries (released c w) i = ((connEntries w i).filter fun e =>
      e.fd ≠ (w.conns c).notifyFd).filter fun e => e.fd ≠ (w.conns c).socketFd := by
    rw [← connEntries_removeFd, ← connEntries_removeFd]
    rfl
  rw [hrel, h.entries i, expected]
  by_cases hi : i ∈ w.owner.conns
  · by_cases hic : i = c
    · subst hic
      simp [hi]
    · have h1 := hheld i hi hic (w.conns c).notifyFd (by simp [fdsOf])
      have h2 := hheld i hi hic (w.conns c).socketFd (by simp [fdsOf])
      simp only [fdsOf, List.mem_cons, List.not_mem_nil, or_false, not_or] at h1 h2
      simp [hi, hic, Ne.symm h1.1, Ne.symm h1.2, Ne.symm h2.1, Ne.symm h2.2]
  · simp [hi]

/-- `RemoveConn` up to `OnClose` of a connection that is no longer in the table. -/
theorem TableInv.same_released (h : TableInv w) (hheld : Held c w) (hc : c ∉ w.owner.conns) :
    Same w (released c w) := by
  refine ⟨?_, rfl, rfl, rfl, fun _ => ⟨rfl, rfl, rfl, Iff.rfl⟩, fun _ => rfl, fun i => ?_,
    fun fd _ hno h' => hno (other_released h')⟩
  · refine List.filter_eq_self.mpr fun i hi => ?_
    simpa using fun he : i = c => hc (he ▸ hi)
  · rw [h.connEntries_released hheld i]
    by_cases hi : i = c
    · rw [if_pos hi, hi, h.entries c, expected, if_neg hc]
    · rw [if_neg hi]

theorem shrinks_released (c : ℕ) (w : World ShmServer) : Shrinks w (released c w) :=
  ⟨fun _ hc => (List.mem_filter.mp hc).1, rfl, fun _ => rfl⟩

theorem shrinks_note (e : Event) (w : World ShmServer) : Shrinks w (w.note e) :=
  ⟨List.Subset.refl _, rfl, fun _ => rfl⟩

theorem shrinks_closed (c : ℕ) (w : World ShmServer) : Shrinks w (w.closed c) := by
  refine ⟨List.Subset.refl _, rfl, fun i => ?_⟩
  unfold fdsOf World.closed
  rw [World.note_conns]
  by_cases hi : i = c
  · rw [hi, World.setConn_self]
  · rw [World.setConn_of_ne w c _ hi]

/-- `RemoveConn` of a connection in the table; `w'` is the world at the close callback. -/
theorem TableInv.removed (h : TableInv w) (hc : c ∈ w.owner.conns)
    (ho : w'.owner = (released c w).owner) (he : w'.entries = (released c w).entries)
    (hold : ∀ i, i ≠ c → w'.conns i = w.conns i)
    (hnew : w'.conns c = { w.conns c with state := .closeed })
    (hlog : w'.log = w.log ++ [.shut c, .close c]) : TableInv w' := by
  have hmem : ∀ i, i ∈ w'.owner.conns ↔ i ∈ w.owner.conns ∧ i ≠ c := by
    intro i
    rw [ho]
    simp [released, withServer]
  have hentries : ∀ i, connEntries w' i = if i = c then [] else connEntries w i := by
    intro i
    rw [← h.connEntries_released (h.held hc) i, connEntries, connEntries, he]
  have hfds : fdsOf w' = fdsOf w := by
    funext i
    unfold fdsOf
    by_cases hi : i = c
    · rw [hi, hnew]
    · rw [hold i hi]
  have hsub : (descriptors w').Sublist (descriptors w) := by
    unfold descriptors
    rw [hfds, ho]
    exact (List.filter_sublist.flatMap _).append (List.Sublist.refl _)
  have hother : ∀ fd, Other w' fd → Other w fd := by
    intro fd hfd
    refine other_released (c := c) ?_
    unfold Other at hfd ⊢
    rw [ho, he] at hfd
    refine hfd.imp_right (Or.imp_right (Or.imp_left ?_))
    rintro ⟨i, h1, hz⟩
    refine ⟨i, ?_, hz⟩
    by_cases hi : i = c
    · rw [hi, hnew] at h1
      rw [hi]
      exact h1
    · rw [hold i hi] at h1
      exact h1
  constructor
  case entries =>
    intro i
    rw [hentries, expected]
    by_cases hi : i = c
    · rw [if_pos hi, if_neg fun hm => ((hmem i).mp hm).2 hi]
    · rw [if_neg hi, h.entries i, expected, hold i hi]
      simp [hmem, hi]
  case nodup => exact hsub.nodup h.nodup
  case other => exact fun fd hfd hfd' => h.other fd (hsub.subset hfd) (hother fd hfd')
  case here =>
    intro i
    rw [hmem]
    by_cases hi : i = c
    · rw [hi, hnew]
      simp
    · rw [hold i hi, ← h.here i]
      simp [hi]
  case closecb =>
    intro i hi
    obtain ⟨h1, h2⟩ := (hmem i).mp hi
    rw [hold i h2]
    exact h.closecb i h1
  case known =>
    intro i hi
    rw [ho]
    exact h.known i ((hmem i).mp hi).1
  case below => rw [ho]; exact h.below
  case ids => rw [ho]; exact h.ids
  case closes =>
    intro i
    have hent : w'.owner.entered = w.owner.entered := by rw [ho]; rfl
    rw [hlog, List.count_append, h.closes i, hent]
    by_cases hi : i = c
    · have hknown := h.known c hc
      simp [hi, hc, hmem, hknown]
    · simp [hmem, hi, Ne.symm hi]

/-! ### Admission -/

/-- The server changes, but not its table. -/
theorem same_withServer {f : ShmServer → ShmServer} (hc : (f w.owner).conns = w.owner.conns)
    (hr : (f w.owner).ready = w.owner.ready) (he : (f w.owner).entered = w.owner.entered)
    (hn : (f w.owner).nextId = w.owner.nextId)
    (hother : ∀ fd ∈ descriptors w, ¬ Other w fd →
      (f w.owner).listenFd ≠ some fd ∧ (f w.owner).hsWakeFd ≠ some fd) :
    Same w (withServer w f) := by
  refine ⟨hc, hr, he, hn, fun _ => ⟨rfl, rfl, rfl, Iff.rfl⟩, fun _ => rfl, fun _ => rfl,
    fun fd hfd hno => ?_⟩
  obtain ⟨h1, h2⟩ := hother fd hfd hno
  rintro (h | h | h)
  · exact h1 h
  · exact h2 h
  · exact hno (.inr (.inr h))

/-- The queue of `OnHandshakeComplete` gets shorter. -/
theorem Local.shorter {r' : List (ℕ × ℕ)} (h : Local hs r w) (hsub : r' <:+ r) :
    Local hs r' (withReady r' w) := by
  obtain ⟨hinv, hheld, rfl⟩ := h
  have hsub' : (descriptors (withReady r' w)).Sublist (descriptors w) :=
    (List.Sublist.refl _).append (hsub.sublist.flatMap _)
  refine ⟨⟨hinv.entries, hsub'.nodup hinv.nodup, fun fd hfd => ?_, hinv.here, hinv.closecb,
    hinv.known, hinv.below, hinv.ids, hinv.closes⟩, hheld, rfl⟩
  exact hinv.other fd (hsub'.subset hfd)

/-- `OnHandshakeComplete` takes the queue over. -/
theorem Local.taken (h : Local hs [] w) (hnodup : (pairs r).Nodup)
    (hfree : ∀ fd ∈ pairs r, ¬ Busy w fd) : Local hs r (withReady r w) := by
  obtain ⟨hinv, hheld, hready⟩ := h
  have hold : descriptors w = w.owner.conns.flatMap (fdsOf w) := by
    rw [descriptors, hready, pairs, List.flatMap_nil, List.append_nil]
  have hnew : descriptors (withReady r w) = descriptors w ++ pairs r := by
    rw [hold]
    rfl
  refine ⟨⟨hinv.entries, ?_, fun fd hfd => ?_, hinv.here, hinv.closecb, hinv.known, hinv.below,
    hinv.ids, hinv.closes⟩, hheld, rfl⟩
  · rw [hnew, List.nodup_append]
    refine ⟨hinv.nodup, hnodup, fun fd hfd fd' hfd' he => ?_⟩
    exact hfree fd' hfd' (.inl (he ▸ hfd))
  · rw [hnew, List.mem_append] at hfd
    rcases hfd with hfd | hfd
    · exact hinv.other fd hfd
    · exact fun ho => hfree fd hfd (.inr ho)

/-- What the admission of a connection changes, `OnConnection` having set its state. -/
structure Joins (fds : ℕ × ℕ) (st : TcpConnStates) (w w' : World ShmServer) : Prop where
  conns : w'.owner.conns = w.owner.conns ++ [w.owner.nextId]
  entered : w'.owner.entered = w.owner.entered ++ [w.owner.nextId]
  ready : w'.owner.ready = w.owner.ready.tail
  nextId : w'.owner.nextId = w.owner.nextId + 1
  listenFd : w'.owner.listenFd = w.owner.listenFd
  hsWakeFd : w'.owner.hsWakeFd = w.owner.hsWakeFd
  new : w'.conns w.owner.nextId = { newConn w.owner fds with state := st }
  old : ∀ i, i ≠ w.owner.nextId → w'.conns i = w.conns i
  entries : w'.entries = w.entries ++
    [⟨fds.1, .notify w.owner.nextId, false⟩, ⟨fds.2, .socket w.owner.nextId, false⟩]
  log : w'.log = w.log

theorem joins_admitted (w : World ShmServer) (fds : ℕ × ℕ) (st : TcpConnStates) :
    Joins fds st w ((admitted w fds).setConn w.owner.nextId fun x => { x with state := st }) where
  conns := rfl
  entered := rfl
  ready := rfl
  nextId := rfl
  listenFd := rfl
  hsWakeFd := rfl
  new := by
    rw [World.setConn_self]
    simp [Server.admitted, withServer]
  old i hi := by
    rw [World.setConn_of_ne _ _ _ hi]
    exact w.setConn_of_ne _ (fun _ => newConn w.owner fds) hi
  entries := by simp [Server.admitted, withServer, addFd]
  log := rfl

section Joins

variable {fds : ℕ × ℕ} {st : TcpConnStates} (hj : Joins fds st w w')

include hj

theorem Joins.mem_conns (i : ℕ) :
    i ∈ w'.owner.conns ↔ i ∈ w.owner.conns ∨ i = w.owner.nextId := by
  rw [hj.conns, List.mem_append, List.mem_singleton]

/-- The descriptors move from the queue to the table. -/
theorem Joins.descriptors (hnew : w.owner.nextId ∉ w.owner.conns)
    (hready : w.owner.ready = fds :: r) : descriptors w' = descriptors w := by
  have hflat : w.owner.conns.flatMap (fdsOf w') = w.owner.conns.flatMap (fdsOf w) := by
    refine List.flatMap_congr fun i hi => ?_
    unfold fdsOf
    rw [hj.old i fun he => hnew (he ▸ hi)]
  have hfds : fdsOf w' w.owner.nextId = [fds.1, fds.2] := by
    unfold fdsOf
    rw [hj.new]
    rfl
  rw [Table.descriptors, Table.descriptors, hj.conns, hj.ready, hready, List.flatMap_append, hflat,
    List.append_assoc, List.flatMap_singleton, hfds]
  rfl

theorem Joins.connEntries (i : ℕ) : connEntries w' i = connEntries w i ++
    if i = w.owner.nextId then [⟨fds.1, .notify i, false⟩, ⟨fds.2, .socket i, false⟩] else [] := by
  have hlive : live w'.entries = live w.entries ++
      [⟨fds.1, .notify w.owner.nextId, false⟩, ⟨fds.2, .socket w.owner.nextId, false⟩] := by
    rw [hj.entries]
    simp [live]
  unfold Table.connEntries
  rw [hlive, List.filter_append]
  by_cases hi : i = w.owner.nextId
  · subst hi
    simp
  · simp [hi, Ne.symm hi]

theorem Joins.other (h : Other w' fd) : Other w fd := by
  rcases h with h1 | h1 | ⟨i, h1, hz⟩ | ⟨i, h1⟩
  · exact .inl (hj.listenFd.symm.trans h1)
  · exact .inr (.inl (hj.hsWakeFd.symm.trans h1))
  · refine .inr (.inr (.inl ⟨i, ?_, hz⟩))
    by_cases hi : i = w.owner.nextId
    · rw [hi, hj.new] at h1
      exact absurd h1.symm hz
    · rw [hj.old i hi] at h1
      exact h1
  · refine .inr (.inr (.inr ⟨i, ?_⟩))
    rw [hj.entries] at h1
    simpa using h1

theorem TableInv.joins (h : TableInv w) (hst : st ≠ .closeed) (hready : w.owner.ready = fds :: r) :
    TableInv w' := by
  have hfresh : w.owner.nextId ∉ w.owner.entered := fun hm => (h.below _ hm).false
  have hnew : w.owner.nextId ∉ w.owner.conns := fun hm => hfresh (h.known _ hm)
  have hdesc := hj.descriptors hnew hready
  have hmem := hj.mem_conns
  constructor
  case entries =>
    intro i
    rw [hj.connEntries, h.entries i, expected, expected]
    by_cases hi : i = w.owner.nextId
    · subst hi
      rw [if_neg hnew, if_pos rfl, if_pos ((hmem _).mpr (.inr rfl)), hj.new]
      rfl
    · rw [hj.old i hi, if_neg hi, List.append_nil]
      simp [hmem, hi]
  case nodup => rw [hdesc]; exact h.nodup
  case other =>
    intro fd hfd hfd'
    rw [hdesc] at hfd
    exact h.other fd hfd (hj.other hfd')
  case here =>
    intro i
    rw [hmem]
    by_cases hi : i = w.owner.nextId
    · rw [hi, hj.new]
      simp [hst]
    · rw [hj.old i hi, ← h.here i]
      simp [hi]
  case closecb =>
    intro i hi
    by_cases hin : i = w.owner.nextId
    · rw [hin, hj.new]
      rfl
    · rw [hj.old i hin]
      exact h.closecb i (((hmem i).mp hi).resolve_right hin)
  case known =>
    intro i hi
    rw [hj.entered, List.mem_append, List.mem_singleton]
    exact ((hmem i).mp hi).imp_left (h.known i)
  case below =>
    intro i hi
    rw [hj.entered, List.mem_append, List.mem_singleton] at hi
    rw [hj.nextId]
    rcases hi with hi | rfl
    · exact Nat.lt_succ_of_lt (h.below i hi)
    · exact Nat.lt_succ_self _
  case ids =>
    rw [hj.entered, ← List.concat_eq_append]
    exact h.ids.concat hfresh
  case closes =>
    intro i
    rw [hj.log, h.closes i, hj.entered]
    by_cases hi : i = w.owner.nextId
    · subst hi
      simp [hfresh, hmem]
    · simp [hi, hmem]

end Joins

/-- `FinishAccept` has admitted a connection, and `OnConnection` set its state. -/
theorem Local.admitted {fds : ℕ × ℕ} {st : TcpConnStates} (h : Local [] (fds :: r) w)
    (hst : st ≠ .closeed) : Local [] r ((admitted w fds).setConn w.owner.nextId
      fun x => { x with state := st }) := by
  have hj := joins_admitted w fds st
  refine ⟨h.inv.joins hj hst h.ready, fun _ hc => absurd hc List.not_mem_nil, ?_⟩
  rw [hj.ready, h.ready]
  rfl

end Invariant

/-! ### The functions -/

section Functions

variable {ks : List (Cmd ShmServer)} {w w' : World ShmServer} {x : Callback} {c fd : ℕ}
  {hs : List ℕ} {r : List (ℕ × ℕ)}

/-- `RemoveConn` of a connection that is held. -/
theorem removeConn_keeps (h : Local hs r w) (hc : c ∈ hs) :
    wpx env.machine rule ks (removeConn c) (fun _ => Local hs r) (Local hs r) w := by
  rw [removeConn, wpx_bind, wpx_modify]
  refine ⟨fun _ => shrinks_released c w, ?_⟩
  by_cases hmem : c ∈ w.owner.conns
  · have hst := (h.inv.here c).mp hmem
    have hinv : TableInv (((released c w).closed c).note (.close c)) := by
      refine h.inv.removed hmem rfl rfl (fun i hi => ?_) ?_ ?_
      · exact (released c w).setConn_of_ne c (fun x => { x with state := .closeed }) hi
      · exact (released c w).setConn_self c fun x => { x with state := .closeed }
      · simp [released, withServer, World.closed]
    have hshrinks : Shrinks w (((released c w).closed c).note (.close c)) :=
      ((shrinks_released c w).trans (shrinks_closed c _)).trans (shrinks_note _ _)
    have hlocal : Local hs r (((released c w).closed c).note (.close c)) :=
      ⟨hinv, fun i hi => (h.held i hi).shrinks hshrinks, h.ready⟩
    refine onClose_keeps kept (fun hs' => absurd hs' hst) fun _ =>
      ⟨fun _ => shrinks_closed c _, fun hcb => ?_,
        fun _ => ⟨fun _ => shrinks_note _ _, hlocal.entry, fun w' hw' => hlocal.after hw'⟩⟩
    have h1 := h.inv.closecb c hmem
    have h2 : (w.conns c).closecb = false := hcb
    rw [h1] at h2
    cases h2
  · have hsame := h.inv.same_released (h.held c hc) hmem
    refine onClose_keeps kept (fun _ => h.same hsame) fun hst => absurd ?_ hst
    exact not_not.mp fun hst' => hmem ((h.inv.here c).mpr hst')

theorem Local.hold {hs' : List ℕ} (h : Local hs r w) (hc : ∀ c ∈ hs', c ∈ w.owner.conns) :
    Local hs' r w :=
  ⟨h.inv, fun c hm => h.inv.held (hc c hm), h.ready⟩

theorem Local.letGo (h : Local hs r w) : Local [] r w :=
  ⟨h.inv, fun _ hc => absurd hc List.not_mem_nil, h.ready⟩

theorem removeConns_keeps : ∀ (cs : List ℕ) {w : World ShmServer}, (∀ c ∈ cs, c ∈ hs) →
    Local hs r w →
    wpx env.machine rule ks (removeConns cs) (fun _ => Local hs r) (Local hs r) w
  | [], _, _, h => h
  | c :: cs, _, hcs, h => by
    rw [removeConns, wpx_bind]
    refine wpx_mono (fun _ _ h' => ?_) (fun _ h' => h')
      (removeConn_keeps h (hcs c List.mem_cons_self))
    exact removeConns_keeps cs (fun c' hc' => hcs c' (List.mem_cons_of_mem _ hc')) h'

/-- `Stop` takes the server's own descriptors out of the event loop. -/
theorem TableInv.same_unlistened (h : TableInv w) : Same w (unlistened w) := by
  have hremove : ∀ {w' : World ShmServer} (o : Option ℕ), TableInv w' →
      (∀ fd, o = some fd → Other w' fd) →
      Same w' { w' with entries := o.elim w'.entries (Connection.removeFd w'.entries) } := by
    rintro w' (_ | fd) h' hfd
    · exact ⟨rfl, rfl, rfl, rfl, fun _ => ⟨rfl, rfl, rfl, Iff.rfl⟩, fun _ => rfl, fun _ => rfl,
        fun _ _ hno => hno⟩
    · exact h'.same_removeFd (hfd fd rfl)
  have h1 := hremove w.owner.listenFd h fun fd hfd => .inl hfd
  have h2 := hremove w.owner.hsWakeFd (h.same h1) fun fd hfd => .inr (.inl hfd)
  have h3 : Same _ (unlistened w) :=
    same_withServer (f := fun x => { x with listenFd := none }) rfl rfl rfl rfl fun fd _ hno =>
      ⟨by simp, fun hw => hno (.inr (.inl hw))⟩
  exact (h1.trans h2).trans h3

theorem stop_keeps (h : Local [] r w) :
    wpx env.machine rule ks stop (fun _ => Local [] r) (Local [] r) w := by
  rw [stop, wpx_bind, wpx_get, wpx_ite]
  refine ⟨fun _ => ?_, fun _ => h⟩
  have hstopped : Same w (withServer w fun x => { x with started := false }) :=
    same_withServer rfl rfl rfl rfl fun fd _ hno =>
      ⟨fun hl => hno (.inl hl), fun hw => hno (.inr (.inl hw))⟩
  have h1 := h.same hstopped
  have h2 := h1.same h1.inv.same_unlistened
  rw [wpx_bind, wpx_modify, wpx_bind, wpx_modify, wpx_bind]
  refine ⟨fun _ => hstopped.shrinks, fun _ => h1.inv.same_unlistened.shrinks, ?_⟩
  refine wpx_ask.mpr fun cs hcs => ?_
  have h3 : Local cs r (unlistened (withServer w fun x => { x with started := false })) :=
    h2.hold fun c hc => (List.Perm.mem_iff hcs).mp hc
  exact wpx_mono (fun _ _ h' => h'.letGo) (fun _ h' => h'.letGo)
    (removeConns_keeps cs (fun _ hc => hc) h3)

theorem closeConn_keeps (h : Local [] r w) :
    wpx env.machine rule ks (closeConn c) (fun _ => Local [] r) (Local [] r) w := by
  rw [closeConn, wpx_bind, wpx_get, wpx_ite]
  refine ⟨fun hc => ?_, fun _ => h⟩
  have h1 : Local [c] r w := h.hold fun c' hc' => List.mem_singleton.mp hc' ▸ hc
  rw [wpx_bind]
  refine wpx_mono (fun _ _ h' => ?_) (fun _ h' => h') (close_keeps kept h1)
  exact wpx_mono (fun _ _ h'' => h''.letGo) (fun _ h'' => h''.letGo)
    (removeConn_keeps h' (List.mem_singleton.mpr rfl))

theorem sendCmd_local (h : Local hs r w) (c : ℕ) :
    wpx env.machine rule ks (sendCmd c) (fun _ => Local hs r) (Local hs r) w :=
  wpx_mono (fun _ _ h' => h'.1) (fun _ h' => h') (sendCmd_keeps kept h)

theorem sendAll_keeps : ∀ (cs : List ℕ) {w : World ShmServer}, Local hs r w →
    wpx env.machine rule ks (sendAll cs) (fun _ => Local hs r) (Local hs r) w
  | [], _, h => h
  | c :: cs, _, h => by
    rw [sendAll, wpx_bind]
    exact wpx_mono (fun _ _ h' => sendAll_keeps cs h') (fun _ h' => h') (sendCmd_local h c)

theorem not_throws {A : Prop} (h : env.returns ks w x true) : A :=
  absurd (show true = false from h) (by decide)

/-- A callback, of an application that does not throw. -/
theorem callback_keeps (h : Local hs r w) (x : Callback) {E : World ShmServer → Prop} :
    wpx env.machine rule ks (callback x) (fun _ => Local hs r) E w := by
  rw [wpx_callback]
  exact ⟨h.entry, fun w' hw' => ⟨fun _ => h.after hw', not_throws⟩⟩

/-- `FinishAccept`, in the handler: the first of the queue is admitted or dropped. -/
theorem finishAccept_keeps {fds : ℕ × ℕ} {E : World ShmServer → Prop} (h : Local [] (fds :: r) w) :
    wpx env.machine rule [] (finishAccept fds)
      (fun _ w' => ∃ r', r <:+ r' ∧ Local [] r' w') E w := by
  have hdropped : ∀ {w'}, Local [] (fds :: r) w' → ∃ r', r <:+ r' ∧ Local [] r' w' :=
    fun h' => ⟨_, List.suffix_cons _ _, h'⟩
  have hadmitted : ∀ {w'}, Local [] r w' → ∃ r', r <:+ r' ∧ Local [] r' w' :=
    fun h' => ⟨_, List.suffix_refl _, h'⟩
  rw [finishAccept, wpx_bind, wpx_get, wpx_ite, wpx_bind]
  refine ⟨fun _ => hdropped h, fun _ => ?_⟩
  refine wpx_mono (fun _ w' h' => ?_) (fun _ h' => h') (callback_keeps h .factory)
  rw [wpx_bind]
  refine wpx_ask.mpr fun codec _ => ?_
  rw [wpx_ite, wpx_bind, wpx_get, wpx_bind, wpx_modify]
  refine ⟨fun _ => ⟨fun hn => absurd rfl hn, ?_⟩, fun _ => hdropped h'⟩
  have hguar : ∀ a b : World ShmServer, rule.guar [] a b := fun _ _ hn => absurd rfl hn
  have hconnection : ∀ w'', Local [] r w'' → Local [] r (w''.note (.connection w'.owner.nextId)) :=
    fun w'' h'' => h''.same (same_note (by simp))
  refine onConnection_keeps (K := Local [] r) (fun _ => ?_) (fun _ => ?_) fun w'' h'' => ?_
  · have h1 : Local [] r ((admitted w' fds).verifing w'.owner.nextId) :=
      (h'.admitted (by simp)).same (same_note (by simp))
    refine ⟨hguar _ _, h1.entry, fun w'' hw'' => ⟨fun _ => h1.after hw'', not_throws⟩⟩
  · exact ⟨hguar _ _, h'.admitted (by simp)⟩
  · have h1 := hconnection w'' h''
    exact ⟨fun _ => hadmitted h'', hguar _ _, h1.entry,
      fun w₁ hw₁ => ⟨fun _ => hadmitted (h1.after hw₁), not_throws⟩⟩

theorem acceptReady_keeps {E : World ShmServer → Prop} : ∀ (r : List (ℕ × ℕ))
    {w : World ShmServer}, Local [] r w →
    wpx env.machine rule [] (acceptReady r) (fun _ => Local [] []) E w
  | [], _, h => h
  | fds :: r, w, h => by
    rw [acceptReady, wpx_bind, wpx_get, wpx_ite, wpx_bind, wpx_modify]
    refine ⟨fun _ => ?_, fun _ => ⟨fun hn => absurd rfl hn, h.shorter List.nil_suffix⟩⟩
    refine wpx_mono (fun _ w' h' => ?_) (fun _ h' => h') (finishAccept_keeps h)
    obtain ⟨r', hsuf, h1⟩ := h'
    rw [wpx_bind, wpx_modify]
    exact ⟨fun hn => absurd rfl hn, acceptReady_keeps r (h1.shorter hsuf)⟩

theorem delivers {viaSocket : Bool} : Delivers rule ks c viaSocket (Local hs r) := by
  intro w h _
  have hs := same_note (w := w) (e := .message c) (by simp)
  exact ⟨fun _ => hs.shrinks, (h.same hs).entry, fun w' hw' => (h.same hs).after hw'⟩

theorem drainRing_local {viaSocket : Bool} (h : Local hs r w) (fuel : ℕ) :
    wpx env.machine rule ks (drainRing c viaSocket fuel) (fun _ => Local hs r) (Local hs r) w :=
  wpx_mono (fun _ _ h' => h'.1) (fun _ h' => h')
    (drainRing_keeps (X := fun _ => True) kept delivers (fun _ _ _ => trivial) h
      (fun _ => trivial) fuel)

/-- The handlers hold the connection that they are called for. -/
theorem removeConn_handler (h : Local [c] r w) :
    wpx env.machine rule ks (removeConn c) (fun _ => Local [] r) (Local [] r) w :=
  wpx_mono (fun _ _ h' => h'.letGo) (fun _ h' => h'.letGo)
    (removeConn_keeps h (List.mem_singleton.mpr rfl))

theorem onConnNotify_keeps {fuel : ℕ} (h : Local [] r w) :
    wpx env.machine rule ks (onConnNotify c fuel) (fun _ => Local [] r) (Local [] r) w := by
  rw [onConnNotify, wpx_bind, wpx_get, wpx_ite, wpx_bind]
  refine ⟨fun hc => ?_, fun _ => h⟩
  have h1 : Local [c] r w := h.hold fun c' hc' => List.mem_singleton.mp hc' ▸ hc
  refine wpx_mono (fun n w' h' => ?_) (fun _ h' => h'.letGo) (drainRing_local h1 fuel)
  rw [wpx_bind, wpx_get, wpx_ite]
  exact ⟨fun _ => removeConn_handler h', fun _ => h'.letGo⟩

theorem onConnSocket_keeps {fuel : ℕ} (h : Local [] r w) :
    wpx env.machine rule ks (onConnSocket c fuel) (fun _ => Local [] r) (Local [] r) w := by
  rw [onConnSocket, wpx_bind, wpx_get, wpx_ite, wpx_bind]
  refine ⟨fun hc => wpx_ask.mpr fun revents _ => ?_, fun _ => h⟩
  have h1 : Local [c] r w := h.hold fun c' hc' => List.mem_singleton.mp hc' ▸ hc
  rw [wpx_ite, wpx_bind]
  refine ⟨fun _ => wpx_ask.mpr fun n _ => ?_, fun _ => h⟩
  rw [wpx_ite, wpx_bind]
  refine ⟨fun _ => ?_, fun _ => h⟩
  exact wpx_mono (fun _ _ h' => removeConn_handler h') (fun _ h' => h'.letGo)
    (drainRing_local h1 fuel)

/-- `Start` has got its descriptors. -/
theorem same_listening {fds : ℕ × ℕ} (h1 : ¬ Busy w fds.1) (h2 : ¬ Busy w fds.2) :
    Same w (listening w fds) := by
  refine ⟨rfl, rfl, rfl, rfl, fun _ => ⟨rfl, rfl, rfl, Iff.rfl⟩, fun _ => rfl, fun c => ?_,
    fun fd hfd hno => ?_⟩
  · simp [connEntries, listening, withServer]
  · rintro (h | h | h | ⟨c, h⟩)
    · exact h1 (.inl (Option.some.inj h ▸ hfd))
    · exact h2 (.inl (Option.some.inj h ▸ hfd))
    · exact hno (.inr (.inr (.inl h)))
    · refine hno (.inr (.inr (.inr ⟨c, ?_⟩)))
      simpa [listening, withServer, addFd] using h

theorem start_keeps (h : Local [] r w) {E : World ShmServer → Prop} :
    wpx env.machine rule ks start (fun _ => Local [] r) E w := by
  rw [start, wpx_tryCatch]
  refine wpx_mono (fun _ _ h' => h') (fun _ _ => wpx_never) (E := fun _ => True) ?_
  rw [wpx_bind, wpx_get, wpx_ite, wpx_bind]
  refine ⟨fun _ => h, fun _ => wpx_ask.mpr fun fds hfds => ?_⟩
  cases fds with
  | none =>
    have hs : Same w (withServer w fun x => { x with listenFd := none }) :=
      same_withServer rfl rfl rfl rfl fun fd _ hno =>
        ⟨by simp, fun hw => hno (.inr (.inl hw))⟩
    simp only [wpx_bind, wpx_modify, wpx_ite, wpx_pure]
    exact ⟨fun _ => hs.shrinks, fun _ => callback_keeps (h.same hs) _, fun _ => h.same hs⟩
  | some fds =>
    have hs := same_listening hfds.1 hfds.2
    simp only [wpx_bind, wpx_modify, wpx_ite, wpx_pure]
    exact ⟨fun _ => hs.shrinks, fun _ => callback_keeps (h.same hs) _, fun _ => h.same hs⟩

/-- Every call keeps the invariant. -/
theorem calls_keep {p : ConnM ShmServer Unit} (h : rule.inv ks w) (hp : Calls ks w p) :
    wpx env.machine rule ks p (fun _ => rule.inv ks) (rule.inv ks) w := by
  obtain ⟨hinv, hidle⟩ := h
  have h : Local [] w.owner.ready w := ⟨hinv, fun _ hc => absurd hc List.not_mem_nil, rfl⟩
  have hdone : ∀ w', Local [] w.owner.ready w' → rule.inv ks w' :=
    fun w' h' => ⟨h'.inv, fun hks => h'.ready.trans (hidle hks)⟩
  have hkeeps : wpx env.machine rule ks p (fun _ => Local [] w.owner.ready)
      (Local [] w.owner.ready) w := by
    cases hp with
    | onVerify c succ hst =>
      refine onVerify_keeps_of kept h fun _ w' h' hst' => ?_
      have hs : Same w' (w'.established c) :=
        same_setConn ⟨rfl, rfl, rfl⟩ (by simp [hst', hst]) (.inl rfl)
      exact ⟨fun _ => hs.shrinks, h'.same hs⟩
    | server hp =>
      cases hp with
      | start => exact wpx_bind.mpr (start_keeps h)
      | stop _ => exact stop_keeps h
      | closeConn c _ => exact closeConn_keeps h
      | sendTo c =>
        refine wpx_bind.mpr ?_
        rw [sendTo, wpx_bind, wpx_get, wpx_ite]
        exact ⟨fun _ => sendCmd_local h c, fun _ => h⟩
      | broadcast => exact wpx_bind.mpr (wpx_ask.mpr fun cs _ => sendAll_keeps cs h)
      | close c => exact close_keeps kept h
      | sendCmd c => exact wpx_bind.mpr (sendCmd_local h c)
      | startVerifyTimer c =>
        refine startVerifyTimer_keeps h fun tfd hfree => ?_
        have hs := TableInv.same_addTimer (c := c) hfree
        exact ⟨fun _ => hs.shrinks, h.same hs⟩
      | onVerify c succ hopen => exact onVerify_keeps kept h hopen
      | onHandshakeComplete fd hks _ =>
        subst hks
        have hnil := hidle rfl
        rw [hnil] at h ⊢
        refine wpx_bind.mpr (wpx_ask.mpr fun ready hready => ?_)
        rw [wpx_bind, wpx_modify]
        exact ⟨fun hn => absurd rfl hn, acceptReady_keeps ready (h.taken hready.1 hready.2)⟩
      | onConnNotify fd c fuel hks _ => exact onConnNotify_keeps h
      | onConnSocket fd c fuel hks _ => exact onConnSocket_keeps h
      | verifyTimerExpired c tfd hks he =>
        have hs := h.inv.same_dropTimer (c := c) (.inr (.inr (.inr ⟨c, he⟩)))
        rw [verifyTimerExpired, wpx_bind, wpx_modify]
        exact ⟨fun _ => hs.shrinks, callback_keeps (h.same hs) _⟩
  exact wpx_mono (fun _ => hdone) hdone hkeeps

end Functions

theorem tableInv_initial (maxClients : ℤ) (keepalive verifycb failedcb successcb : Bool) :
    TableInv (initial maxClients keepalive verifycb failedcb successcb) where
  entries _ := rfl
  nodup := List.nodup_nil
  other _ hfd := absurd hfd List.not_mem_nil
  here c := by simp [initial, ShmConn.new]
  closecb _ hc := absurd hc List.not_mem_nil
  known _ hc := absurd hc List.not_mem_nil
  below _ hc := absurd hc List.not_mem_nil
  ids := List.nodup_nil
  closes c := by simp [initial]

/-- **Table and event loop are in step whenever the event loop, or the application, has control**:
the live entries are those of the connections in the table, numbers are not given twice, and who
left the table has had one close callback. -/
theorem table_in_step {maxClients : ℤ} {keepalive verifycb failedcb successcb : Bool}
    {cfg : Config (Cmd ShmServer) Cmd.Res (World ShmServer)}
    (h : Reach env.machine (initial maxClients keepalive verifycb failedcb successcb) cfg)
    (hrun : cfg.run = none) : InStep cfg.mem := by
  have h₀ : rule.inv [] (initial maxClients keepalive verifycb failedcb successcb) :=
    ⟨tableInv_initial maxClients keepalive verifycb failedcb successcb, fun _ => rfl⟩
  have hinv := (reach_inv (e := env) (ρ := rule) (fun _ _ _ => calls_keep) h₀ h).1 hrun
  exact hinv.1.inStep

/-- Two clients connect; the message callback of the first closes it, under the handler that removes
it again. -/
theorem table_in_step_removed_twice : ∃ cfg,
    Reach env.machine (initial 16 false false false false) cfg ∧ cfg.run = none ∧
    cfg.mem.owner.conns = [2] ∧ cfg.mem.owner.entered = [1, 2] ∧ InStep cfg.mem := by
  have h0 : Reach env.machine (initial 16 false false false false)
      ⟨initial 16 false false false false, none, []⟩ := .refl
  have hfree : ∀ fd, ¬ Busy (initial 16 false false false false) fd := by
    simp [Busy, Other, descriptors, pairs, initial, ShmConn.new]
  have hfree' : ∀ fd ∈ pairs [(5, 6), (7, 8)],
      ¬ Busy (listening (initial 16 false false false false) (3, 4)) fd := by
    intro fd hfd
    have hlt : 4 < fd := by revert fd; decide
    simp [Busy, Other, descriptors, pairs, listening, withServer, addFd, initial, ShmConn.new]
    omega
  have h1 := reach_done (reach_answer (reach_start h0 _ (.server .start)) (some (3, 4))
    ⟨hfree 3, hfree 4⟩)
  have h2 := reach_start h1 _ (.server (.onHandshakeComplete 4 rfl (by decide)))
  have h3 := reach_enter (reach_answer h2 [(5, 6), (7, 8)] ⟨by decide, hfree'⟩)
  have h4 := reach_enter (reach_answer (reach_leave h3 false rfl) true trivial)
  have h5 := reach_enter (reach_leave h4 false rfl)
  have h6 := reach_enter (reach_answer (reach_leave h5 false rfl) true trivial)
  have h7 := reach_done (reach_leave h6 false rfl)
  have h8 := reach_start h7 _ (.server (.onConnNotify 5 1 2 rfl (by decide)))
  have h9 := reach_enter (reach_answer h8 (.package 1 ()) trivial)
  have h10 := reach_enter (reach_start h9 _ (.server (.closeConn 1 (.inl rfl))))
  have h11 := reach_done (reach_leave h10 false rfl)
  have h12 := reach_done (reach_answer (reach_leave h11 false rfl) .wait trivial)
  exact ⟨_, h12, rfl, by decide, by decide, table_in_step h12 rfl⟩

end ShmIpc.Conn.Table
