import ShmIpc.Conn.Syscalls
import ShmIpc.Lib.Answers

/-! # The four ends meet

`CreateRingChannel` on both ends of a socket, in every order of the calls of the two processes and
with all fates: a side that returns a channel has the peer's ring, complete and initialised before
it was sent, and the peer's eventfd; if both return one, the four ends meet; a side that throws has
closed and unmapped what it had; and it throws only because a call failed, its own or a send of the
peer that went out cut, or because nothing came in time. -/

namespace ShmIpc.Conn.Wiring

open Relation
open ShmIpc.Lib.RelyGuarantee ShmIpc.Lib.Threads ShmIpc.Lib.Answers
open ShmIpc.Ring.RingBuf
open ShmIpc.Conn.FdPassing ShmIpc.Conn.Exchange ShmIpc.Conn.Syscalls

variable {cap : Capacity} {X : Side} {g g' : Net} {fate : Side → ℕ → Fate} {k : Mine}

/-! ### The channel under construction -/

/-- The descriptors of a channel. -/
def fds (ch : Chan) : List Int32 :=
  ch.writeMemfd.toList ++ ch.readMemfd.toList ++ ch.notifyWrite.toList ++ ch.notifyRead.toList

/-- A mapping less. -/
def eraseOpt (a : Option ℕ) (maps : List ℕ) : List ℕ :=
  match a with
  | some a => maps.erase a
  | none => maps

/-- The channel holds what `X` has more than in `k₀`. -/
structure Built (ch : Chan) (k₀ k : Mine) : Prop where
  tab : k.clean = true → ∃ l, k.tab = l ++ k₀.tab ∧ ∀ p ∈ l, p.1 ∈ fds ch
  free : ∀ fd ∈ fds ch, FreeIn k₀.tab fd
  maps : eraseOpt ch.writeRegion (eraseOpt ch.readRegion k.maps) = k₀.maps
  rcv : k.rcv = k₀.rcv
  snd : k.snd = k₀.snd

/-- A step has thrown, and the channel holds what there is to be undone. -/
def Failed (cap : Capacity) (X : Side) (k₀ : Mine) (ch : Chan) (g : Net) : Prop :=
  ∃ k, Own cap X k g ∧ Built ch k₀ k ∧ k.blamed = true

theorem Built.worse {ch : Chan} {k₀ k' : Mine} (h : Built ch k₀ k) (hw : Worse k k') :
    Built ch k₀ k' where
  tab hc := by
    obtain ⟨hc', ht⟩ := hw.tab hc
    rw [ht]
    exact h.tab hc'
  free := h.free
  maps := by rw [hw.maps]; exact h.maps
  rcv := by rw [hw.rcv]; exact h.rcv
  snd := by rw [hw.snd]; exact h.snd

theorem closeFd_spec {fd : Option Int32} {Q : Unit → Net → Prop} (ho : Own cap X k g)
    (h : ∀ g', Own cap X { k with tab := k.tab.filter fun p => p.1 ∉ fd.toList } g' → Q () g') :
    wpX cap X fate (closeFd X fd) Q g := by
  cases fd with
  | none =>
    have e : k.tab.filter (fun p => p.1 ∉ (none : Option Int32).toList) = k.tab := by simp
    have h' := h g
    rw [e] at h'
    exact h' ho
  | some fd =>
    refine close_spec ho fun g' ho' => h g' ?_
    simpa using ho'

theorem unmap_spec {a : Option ℕ} {Q : Unit → Net → Prop} (ho : Own cap X k g)
    (h : ∀ g', Own cap X { k with maps := eraseOpt a k.maps } g' → Q () g') :
    wpX cap X fate (unmap X a) Q g := by
  cases a with
  | none => exact h g ho
  | some a => exact munmap_spec ho h

/-- `~RingChannel` gives back what the channel holds. -/
theorem destroy_spec {ch : Chan} {k₀ : Mine} {Q : Unit → Net → Prop} (ho : Own cap X k g)
    (hb : Built ch k₀ k)
    (h : ∀ k' g', Own cap X k' g' → (k'.clean = true → k'.tab = k₀.tab) → k'.maps = k₀.maps →
      k'.blamed = k.blamed → k'.rcv = k.rcv → k'.snd = k.snd → Q () g') :
    wpX cap X fate (ch.destroy X) Q g := by
  unfold Chan.destroy
  refine Prog.wp_bind.mpr (closeFd_spec ho fun g₁ ho₁ => ?_)
  refine Prog.wp_bind.mpr (closeFd_spec ho₁ fun g₂ ho₂ => ?_)
  refine Prog.wp_bind.mpr (unmap_spec ho₂ fun g₃ ho₃ => ?_)
  refine Prog.wp_bind.mpr (closeFd_spec ho₃ fun g₄ ho₄ => ?_)
  refine Prog.wp_bind.mpr (unmap_spec ho₄ fun g₅ ho₅ => ?_)
  refine closeFd_spec ho₅ fun g₆ ho₆ => h _ g₆ ho₆ (fun hc => ?_) hb.maps rfl rfl rfl
  obtain ⟨l, hl, hin⟩ := hb.tab hc
  show (((k.tab.filter _).filter _).filter _).filter _ = k₀.tab
  rw [hl]
  simp only [List.filter_filter, List.filter_append]
  have h1 : l.filter (fun p => decide (p.1 ∉ ch.writeMemfd.toList) &&
      (decide (p.1 ∉ ch.readMemfd.toList) && (decide (p.1 ∉ ch.notifyWrite.toList) &&
        decide (p.1 ∉ ch.notifyRead.toList)))) = [] := by
    refine List.filter_eq_nil_iff.mpr fun p hp hcontra => ?_
    have hin' := hin p hp
    unfold fds at hin'
    simp only [Bool.and_eq_true, decide_eq_true_eq] at hcontra
    simp only [List.mem_append] at hin'
    tauto
  have h2 : k₀.tab.filter (fun p => decide (p.1 ∉ ch.writeMemfd.toList) &&
      (decide (p.1 ∉ ch.readMemfd.toList) && (decide (p.1 ∉ ch.notifyWrite.toList) &&
        decide (p.1 ∉ ch.notifyRead.toList)))) = k₀.tab := by
    refine List.filter_eq_self.mpr fun p hp => ?_
    have hfree : p.1 ∉ fds ch := fun hmem => hb.free _ hmem p hp rfl
    unfold fds at hfree
    simp only [List.mem_append] at hfree
    simp only [Bool.and_eq_true, decide_eq_true_eq]
    tauto
  rw [h1, h2, List.nil_append]

theorem Built.open {ch ch' : Chan} {k₀ k' : Mine} {fd : Int32} {o : ℕ} (h : Built ch k₀ k)
    (hc : k.clean = true) (hfree : FreeIn k.tab fd)
    (hfds : ∀ x, x ∈ fds ch' ↔ x = fd ∨ x ∈ fds ch) (hw : ch'.writeRegion = ch.writeRegion)
    (hr : ch'.readRegion = ch.readRegion) (htab : k'.tab = (fd, o) :: k.tab)
    (hmaps : k'.maps = k.maps) (hrcv : k'.rcv = k.rcv) (hsnd : k'.snd = k.snd) :
    Built ch' k₀ k' := by
  obtain ⟨l, hl, hin⟩ := h.tab hc
  refine ⟨fun _ => ⟨(fd, o) :: l, ?_, fun p hp => ?_⟩, fun x hx => ?_, ?_, ?_, ?_⟩
  · rw [htab, hl, List.cons_append]
  · rw [hfds]
    rcases List.mem_cons.mp hp with rfl | hp
    · exact Or.inl rfl
    · exact Or.inr (hin p hp)
  · rcases (hfds x).mp hx with rfl | hx
    · intro p hp
      exact hfree p (by rw [hl]; exact List.mem_append_right _ hp)
    · exact h.free x hx
  · rw [hw, hr, hmaps]; exact h.maps
  · rw [hrcv]; exact h.rcv
  · rw [hsnd]; exact h.snd

theorem eraseOpt_comm (a b : Option ℕ) (maps : List ℕ) :
    eraseOpt a (eraseOpt b maps) = eraseOpt b (eraseOpt a maps) := by
  cases a with
  | none => rfl
  | some a =>
    cases b with
    | none => rfl
    | some b => exact List.erase_comm b a

theorem eraseOpt_cons (a : ℕ) (maps : List ℕ) : eraseOpt (some a) (a :: maps) = maps :=
  List.erase_cons_head a maps

theorem Built.mapWrite {ch : Chan} {k₀ k' : Mine} {o : ℕ} (h : Built ch k₀ k)
    (hr : ch.writeRegion = none) (hclean : k'.clean = k.clean) (htab : k'.tab = k.tab)
    (hmaps : k'.maps = o :: k.maps) (hrcv : k'.rcv = k.rcv) (hsnd : k'.snd = k.snd) :
    Built { ch with writeRegion := some o } k₀ k' where
  tab hc := by rw [htab]; exact h.tab (by rw [← hclean]; exact hc)
  free := h.free
  maps := by
    have hm := h.maps
    rw [hr] at hm
    show eraseOpt (some o) (eraseOpt ch.readRegion k'.maps) = _
    rw [eraseOpt_comm, hmaps, eraseOpt_cons]
    exact hm
  rcv := by rw [hrcv]; exact h.rcv
  snd := by rw [hsnd]; exact h.snd

theorem Built.mapRead {ch : Chan} {k₀ k' : Mine} {o : ℕ} (h : Built ch k₀ k)
    (hr : ch.readRegion = none) (hclean : k'.clean = k.clean) (htab : k'.tab = k.tab)
    (hmaps : k'.maps = o :: k.maps) (hrcv : k'.rcv = k.rcv) (hsnd : k'.snd = k.snd) :
    Built { ch with readRegion := some o } k₀ k' where
  tab hc := by rw [htab]; exact h.tab (by rw [← hclean]; exact hc)
  free := h.free
  maps := by
    have hm := h.maps
    rw [hr] at hm
    show eraseOpt ch.writeRegion (eraseOpt (some o) k'.maps) = _
    rw [hmaps, eraseOpt_cons]
    exact hm
  rcv := by rw [hrcv]; exact h.rcv
  snd := by rw [hsnd]; exact h.snd

theorem worse_blamed (k : Mine) : Worse k { k with blamed := true } :=
  ⟨fun h => ⟨h, rfl⟩, rfl, rfl, rfl, rfl⟩

theorem failed_of_blamed {k₀ : Mine} {ch : Chan} (ho : Own cap X { k with blamed := true } g)
    (hb : Built ch k₀ k) : Failed cap X k₀ ch g := ⟨_, ho, hb.worse (worse_blamed k), rfl⟩

theorem mmapRegion_spec {fd : Int32} {o : ℕ} {Q : Except String ℕ → Net → Prop}
    (ho : Own cap X k g) (hc : k.clean = true) (hfd : look k.tab fd = some o)
    (hok : ∀ g', Own cap X { k with maps := o :: k.maps } g' → Q (.ok o) g')
    (herr : ∀ e g', Own cap X { k with blamed := true } g' → Q (.error e) g') :
    wpX cap X fate (mmapRegion cap X fd) Q g :=
  Prog.wp_bind.mpr (mmap_spec ho hc hfd hok fun _ g' ho' => herr _ g' ho')

/-- The knowledge with a write ring. -/
def withRing (cap : Capacity) (X : Side) (k : Mine) (fd : Int32) (o : ℕ) (s b : Bool) : Mine :=
  { k with tab := (fd, o) :: k.tab, maps := o :: k.maps, objs := [(o, whole cap X s b)] }

theorem createWriteRing_spec {name : String} {ch : Chan} {k₀ : Mine} {Q : Partial → Net → Prop}
    (ho : Own cap X k g) (hc : k.clean = true) (hk : k.objs = []) (hb : Built ch k₀ k)
    (hm : ch.writeMemfd = none) (hr : ch.writeRegion = none)
    (hok : ∀ fd o s b g', FreeIn k.tab fd → Own cap X (withRing cap X k fd o s b) g' →
      Built { ch with writeMemfd := some fd, writeRegion := some o } k₀
        (withRing cap X k fd o s b) →
      Q (none, { ch with writeMemfd := some fd, writeRegion := some o }) g')
    (herr : ∀ e ch' g', Failed cap X k₀ ch' g' → Q (some e, ch') g') :
    wpX cap X fate (createWriteRing cap X name ch) Q g := by
  refine Prog.wp_bind.mpr (createMemfd_spec ho hc hk (fun fd o s b g₁ hf ho₁ => ?_)
    fun e g₁ ho₁ => herr _ _ g₁ (failed_of_blamed ho₁ hb))
  have hb₁ : Built { ch with writeMemfd := some fd } k₀ (fresh k fd o (raw X (shmSize cap) s b)) :=
    hb.open hc hf (fun x => by simp [fds, hm]) rfl rfl rfl rfl rfl rfl
  refine Prog.wp_bind.mpr (mmapRegion_spec ho₁ hc (look_cons fd o _) (fun g₂ ho₂ => ?_)
    fun e g₂ ho₂ => herr _ _ g₂ (failed_of_blamed ho₂ hb₁))
  refine Prog.wp_bind.mpr (memset_spec ho₂ rfl fun g₃ ho₃ => ?_)
  exact hok fd o s b g₃ hf ho₃ (hb₁.mapWrite hr rfl rfl rfl rfl rfl)

theorem createNotify_spec {ch : Chan} {k₀ : Mine} {Q : Partial → Net → Prop}
    (ho : Own cap X k g) (hc : k.clean = true) (hb : Built ch k₀ k) (hn : ch.notifyRead = none)
    (hok : ∀ fd o g', FreeIn k.tab fd →
      Own cap X { k with tab := (fd, o) :: k.tab, objs := (o, bell X) :: k.objs } g' →
      Built { ch with notifyRead := some fd } k₀
        { k with tab := (fd, o) :: k.tab, objs := (o, bell X) :: k.objs } →
      Q (none, { ch with notifyRead := some fd }) g')
    (herr : ∀ e ch' g', Failed cap X k₀ ch' g' → Q (some e, ch') g') :
    wpX cap X fate (createNotify X ch) Q g := by
  refine Prog.wp_bind.mpr (Prog.wp_bind.mpr (eventfd_spec ho hc (fun fd o g₁ hf ho₁ => ?_)
    fun e g₁ ho₁ => ?_))
  · exact hok fd o g₁ hf ho₁ (hb.open hc hf (fun x => by simp [fds, hn]; tauto) rfl rfl rfl rfl rfl
      rfl)
  · exact herr _ _ g₁ (failed_of_blamed ho₁ hb)

theorem sendFd_spec {fd : Int32} {tag : FdTag} {o : ℕ} {Q : Option String → Net → Prop}
    (ho : Own cap X k g) (hc : k.clean = true) (hsnd : k.snd = true)
    (hfd : look k.tab fd = some o) (hn : ∀ n g, Own cap X k g → Next cap X k.sent ⟨n, tag, o⟩ g)
    (hok : ∀ g', Own cap X { k with sent := k.sent ++ [⟨256, tag, o⟩] } g' → Q none g')
    (herr : ∀ e k' g', Own cap X k' g' → Worse k k' → Q (some e) g') :
    wpX cap X fate (sendFd X fd tag) Q g := by
  refine Prog.wp_bind.mpr (sendmsg_spec ho hc hsnd hfd hn (fun g₁ ho₁ => ?_)
    (fun n g₁ hlt ho₁ => ?_) fun e g₁ ho₁ => ?_)
  · show wpX cap X fate (if 256 < 256 then _ else _) Q g₁
    rw [if_neg (by omega)]
    exact hok g₁ ho₁
  · show wpX cap X fate (if n < 256 then _ else _) Q g₁
    rw [if_pos hlt]
    exact herr _ _ g₁ ho₁ ⟨fun h => ⟨h, rfl⟩, rfl, rfl, rfl, rfl⟩
  · exact herr _ _ g₁ ho₁ (worse_blamed k)

theorem sendLocalFds_spec {ch : Chan} {k₀ : Mine} {wm nr : Int32} {w e : ℕ} {s b : Bool}
    {Q : Partial → Net → Prop} (ho : Own cap X k g) (hc : k.clean = true) (hsnd : k.snd = true)
    (hb : Built ch k₀ k) (hm : ch.writeMemfd = some wm) (hn : ch.notifyRead = some nr)
    (hwm : look k.tab wm = some w) (hnr : look k.tab nr = some e)
    (hw : (w, whole cap X s b) ∈ k.objs) (he : (e, bell X) ∈ k.objs) (hsent : k.sent = [])
    (hok : ∀ g', Own cap X { k with sent := [⟨256, kMemfd, w⟩, ⟨256, kEventfd, e⟩] } g' →
      Q (none, ch) g')
    (herr : ∀ e ch' g', Failed cap X k₀ ch' g' → Q (some e, ch') g') :
    wpX cap X fate (sendLocalFds X ch) Q g := by
  have hfail : ∀ {k' : Mine} {e g'}, Own cap X k' g' → Worse k k' → Q (some e, ch) g' := by
    intro k' e g' ho' hw'
    exact herr _ _ _ ⟨k', ho', hb.worse hw', hw'.blamed⟩
  unfold sendLocalFds
  rw [hm, hn]
  refine Prog.wp_bind.mpr (sendFd_spec ho hc hsnd hwm (fun n g ho => ?_) (fun g₁ ho₁ => ?_)
    fun _ _ _ ho' hw' => hfail ho' hw')
  · exact ⟨fun _ => ⟨rfl, ho.isRing hw⟩, fun hl => by rw [hsent] at hl; cases hl⟩
  · rw [hsent] at ho₁
    refine Prog.wp_bind.mpr (sendFd_spec ho₁ hc hsnd hnr (fun n g ho => ?_) (fun g₂ ho₂ => ?_)
      fun _ k' _ ho' hw' => ?_)
    · exact ⟨fun hl => absurd hl (by simp), fun _ => ⟨rfl, ho.isBell he⟩⟩
    · exact hok g₂ ho₂
    · exact hfail ho' ⟨hw'.tab, hw'.maps, hw'.blamed, hw'.rcv, hw'.snd⟩

theorem recvExpect_spec {tag : FdTag} {Q : Except String Int32 → Net → Prop}
    (ho : Own cap X k g) (hc : k.clean = true) (hrcv : k.rcv = true) (he : Expects k tag)
    (hok : ∀ fd o g', FreeIn k.tab fd →
      Own cap X { k with tab := (fd, o) :: k.tab, got := k.got ++ [o] } g' → Q (.ok fd) g')
    (herr : ∀ e k' g', Own cap X k' g' → Worse k k' → Q (.error e) g') :
    wpX cap X fate (recvExpect X tag) Q g := by
  refine Prog.wp_bind.mpr (recvmsg_spec ho hc hrcv he (fun r fd o g₁ hr hf ho₁ => ?_)
    fun r e k' g₁ hcl hres ho₁ hw => ?_)
  · rw [hr]
    exact hok fd o g₁ hf ho₁
  · rw [hcl, hres]
    exact herr e k' g₁ ho₁ hw

/-- The knowledge with a read ring and the peer's eventfd. -/
def withPeer (k : Mine) (rm nw : Int32) (r b : ℕ) : Mine :=
  { k with tab := (nw, b) :: (rm, r) :: k.tab, maps := r :: k.maps, got := [r, b] }

theorem recvPeer_spec {ch : Chan} {k₀ : Mine} {Q : Partial → Net → Prop} (ho : Own cap X k g)
    (hc : k.clean = true) (hrcv : k.rcv = true) (hgot : k.got = []) (hb : Built ch k₀ k)
    (hm : ch.readMemfd = none) (hr : ch.readRegion = none) (hn : ch.notifyWrite = none)
    (hok : ∀ rm nw r b g', Own cap X (withPeer k rm nw r b) g' →
      Built { ch with readMemfd := some rm, readRegion := some r, notifyWrite := some nw } k₀
        (withPeer k rm nw r b) →
      Q (none, { ch with readMemfd := some rm, readRegion := some r, notifyWrite := some nw }) g')
    (herr : ∀ e ch' g', Failed cap X k₀ ch' g' → Q (some e, ch') g') :
    wpX cap X fate (recvPeer cap X ch) Q g := by
  refine Prog.wp_bind.mpr (recvExpect_spec ho hc hrcv (Or.inl ⟨by rw [hgot]; rfl, rfl⟩)
    (fun rm r g₁ hf ho₁ => ?_) fun e k' g₁ ho₁ hw =>
      herr _ _ g₁ ⟨k', ho₁, hb.worse hw, hw.blamed⟩)
  rw [hgot, List.nil_append] at ho₁
  have hb₁ : Built { ch with readMemfd := some rm } k₀
      { k with tab := (rm, r) :: k.tab, got := [r] } :=
    hb.open hc hf (fun x => by simp [fds, hm]; tauto) rfl rfl rfl rfl rfl rfl
  refine Prog.wp_bind.mpr (mmapRegion_spec ho₁ hc (look_cons rm r _) (fun g₂ ho₂ => ?_)
    fun e g₂ ho₂ => herr _ _ g₂ (failed_of_blamed ho₂ hb₁))
  have hb₂ : Built { ch with readMemfd := some rm, readRegion := some r } k₀
      { k with tab := (rm, r) :: k.tab, got := [r], maps := r :: k.maps } :=
    hb₁.mapRead hr rfl rfl rfl rfl rfl
  refine Prog.wp_bind.mpr (recvExpect_spec ho₂ hc hrcv (Or.inr ⟨rfl, rfl⟩)
    (fun nw b g₃ hf₃ ho₃ => ?_) fun e k' g₃ ho₃ hw =>
      herr _ _ g₃ ⟨k', ho₃, hb₂.worse hw, hw.blamed⟩)
  exact hok rm nw r b g₃ ho₃
    (hb₂.open hc hf₃ (fun x => by simp [fds, hn]; tauto) rfl rfl rfl rfl rfl rfl)

/-- `X` has a whole channel: it holds its ring `w` and its eventfd `e`, has sent both, and has got
the peer's ring `r` and eventfd `b`. -/
structure Joined (ch : Chan) (k : Mine) (w e r b : ℕ) : Prop where
  clean : k.clean = true
  writeMemfd : ∃ fd, ch.writeMemfd = some fd ∧ (fd, w) ∈ k.tab
  writeRegion : ch.writeRegion = some w ∧ w ∈ k.maps
  readMemfd : ∃ fd, ch.readMemfd = some fd ∧ (fd, r) ∈ k.tab
  readRegion : ch.readRegion = some r ∧ r ∈ k.maps
  notifyWrite : ∃ fd, ch.notifyWrite = some fd ∧ (fd, b) ∈ k.tab
  notifyRead : ∃ fd, ch.notifyRead = some fd ∧ (fd, e) ∈ k.tab
  sent : k.sent = [⟨256, kMemfd, w⟩, ⟨256, kEventfd, e⟩]
  got : k.got = [r, b]

/-- What the two orders of the exchange lead to. -/
def RolesPost (cap : Capacity) (X : Side) (k₀ : Mine) (r : Partial) (g : Net) : Prop :=
  (r.1 = none → ∃ k w e r' b, Own cap X k g ∧ Joined r.2 k w e r' b) ∧
    ∀ e, r.1 = some e → Failed cap X k₀ r.2 g

theorem rolesPost_failed {k₀ : Mine} {e : String} {ch : Chan} (h : Failed cap X k₀ ch g) :
    RolesPost cap X k₀ (some e, ch) g :=
  ⟨fun h => absurd h (by simp), fun _ _ => h⟩

theorem rolesPost_joined {k₀ : Mine} {ch : Chan} {w e r b : ℕ} (ho : Own cap X k g)
    (hj : Joined ch k w e r b) : RolesPost cap X k₀ (none, ch) g :=
  ⟨fun _ => ⟨k, w, e, r, b, ho, hj⟩, fun _ h => absurd h (by simp)⟩

theorem roles_spec {tab : List (Int32 × ℕ)} {maps : List ℕ}
    (ho : Own cap X (.start tab maps true) g) :
    wpX cap X fate (roles cap X) (RolesPost cap X (.start tab maps true)) g := by
  have hb : Built .empty (.start tab maps true) (.start tab maps true) :=
    ⟨fun _ => ⟨[], rfl, fun p hp => absurd hp List.not_mem_nil⟩,
      fun fd hfd => absurd hfd (by simp [fds, Chan.empty]), rfl, rfl, rfl⟩
  cases X with
  | client =>
    refine Prog.wp_bind.mpr (createWriteRing_spec ho rfl rfl hb rfl rfl
      (fun wm w s b g₁ hf₁ ho₁ hb₁ => ?_) fun _ _ _ hfail => rolesPost_failed hfail)
    refine Prog.wp_bind.mpr (createNotify_spec ho₁ rfl hb₁ rfl (fun nr e g₂ hf₂ ho₂ hb₂ => ?_)
      fun _ _ _ hfail => rolesPost_failed hfail)
    have hne : nr ≠ wm := fun h => hf₂ (wm, w) List.mem_cons_self h.symm
    refine Prog.wp_bind.mpr (sendLocalFds_spec ho₂ rfl rfl hb₂ rfl rfl
      ((look_cons_of_ne hne).trans (look_cons wm w _)) (look_cons nr e _)
      (List.mem_cons_of_mem _ List.mem_cons_self) List.mem_cons_self rfl (fun g₃ ho₃ => ?_)
      fun _ _ _ hfail => rolesPost_failed hfail)
    refine recvPeer_spec ho₃ rfl rfl rfl ⟨hb₂.tab, hb₂.free, hb₂.maps, hb₂.rcv, hb₂.snd⟩ rfl rfl
      rfl (fun rm nw r b' g₄ ho₄ _ => ?_) fun _ _ _ hfail => rolesPost_failed hfail
    exact rolesPost_joined ho₄ ⟨rfl, ⟨wm, rfl, by simp [withPeer, withRing]⟩,
      ⟨rfl, by simp [withPeer, withRing]⟩, ⟨rm, rfl, by simp [withPeer]⟩,
      ⟨rfl, by simp [withPeer]⟩, ⟨nw, rfl, by simp [withPeer]⟩, ⟨nr, rfl, by simp [withPeer]⟩,
      rfl, rfl⟩
  | server =>
    refine Prog.wp_bind.mpr (recvPeer_spec ho rfl rfl rfl hb rfl rfl rfl
      (fun rm nw r b' g₁ ho₁ hb₁ => ?_) fun _ _ _ hfail => rolesPost_failed hfail)
    refine Prog.wp_bind.mpr (createWriteRing_spec ho₁ rfl rfl hb₁ rfl rfl
      (fun wm w s b g₂ hf₂ ho₂ hb₂ => ?_) fun _ _ _ hfail => rolesPost_failed hfail)
    refine Prog.wp_bind.mpr (createNotify_spec ho₂ rfl hb₂ rfl (fun nr e g₃ hf₃ ho₃ hb₃ => ?_)
      fun _ _ _ hfail => rolesPost_failed hfail)
    have hne : nr ≠ wm := fun h => hf₃ (wm, w) List.mem_cons_self h.symm
    refine sendLocalFds_spec ho₃ rfl rfl hb₃ rfl rfl
      ((look_cons_of_ne hne).trans (look_cons wm w _)) (look_cons nr e _)
      (List.mem_cons_of_mem _ List.mem_cons_self) List.mem_cons_self rfl (fun g₄ ho₄ => ?_)
      fun _ _ _ hfail => rolesPost_failed hfail
    exact rolesPost_joined ho₄ ⟨rfl, ⟨wm, rfl, by simp [withRing]⟩, ⟨rfl, by simp [withRing]⟩,
      ⟨rm, rfl, by simp [withRing, withPeer]⟩, ⟨rfl, by simp [withRing, withPeer]⟩,
      ⟨nw, rfl, by simp [withRing, withPeer]⟩, ⟨nr, rfl, by simp⟩, rfl, rfl⟩

/-! ### `CreateRingChannel` -/

/-- What a side keeps before and after the call: nothing is known to have been sent or got before; a
channel that was returned is whole; if the call threw, what it had is given back, unless a
descriptor came without a tag. The socket has no time limit before and after. -/
def Kept (cap : Capacity) (X : Side) (tab : List (Int32 × ℕ)) (maps : List ℕ) :
    Loc → Net → Prop
  | none, g => Own cap X (.start tab maps false) g
  | some (.ok ch), g => ∃ k w e r b, Own cap X k g ∧ Joined ch k w e r b ∧ k.rcv = false ∧
    k.snd = false
  | some (.error _), g => ∃ k, Own cap X k g ∧ (k.clean = true → k.tab = tab) ∧ k.maps = maps ∧
    k.blamed = true ∧ k.rcv = false ∧ k.snd = false

theorem Joined.timeo {ch : Chan} {w e r b : ℕ} {rcv snd : Bool} (h : Joined ch k w e r b) :
    Joined ch { k with rcv := rcv, snd := snd } w e r b :=
  ⟨h.clean, h.writeMemfd, h.writeRegion, h.readMemfd, h.readRegion, h.notifyWrite, h.notifyRead,
    h.sent, h.got⟩

theorem createRingChannel_spec {tab : List (Int32 × ℕ)} {maps : List ℕ}
    (ho : Own cap X (.start tab maps false) g) :
    wpX cap X fate (createRingChannel cap X) (fun r g => Kept cap X tab maps (some r) g) g := by
  refine Prog.wp_bind.mpr (setRcvTimeo_spec ho fun g₁ ho₁ => ?_)
  refine Prog.wp_bind.mpr (setSndTimeo_spec ho₁ fun g₂ ho₂ => ?_)
  refine Prog.wp_bind.mpr (Prog.wp_mono ?_ (roles_spec ho₂))
  rintro ⟨out, ch⟩ g₃ ⟨hok, herr⟩
  cases out with
  | none =>
    obtain ⟨k, w, e, r, b, ho₃, hj⟩ := hok rfl
    refine Prog.wp_bind.mpr (setRcvTimeo_spec ho₃ fun g₄ ho₄ => ?_)
    refine Prog.wp_bind.mpr (setSndTimeo_spec ho₄ fun g₅ ho₅ => ?_)
    exact ⟨_, w, e, r, b, ho₅, hj.timeo, rfl, rfl⟩
  | some e =>
    obtain ⟨k, ho₃, hb, hbl⟩ := herr e rfl
    refine Prog.wp_bind.mpr (setRcvTimeo_spec ho₃ fun g₄ ho₄ => ?_)
    refine Prog.wp_bind.mpr (setSndTimeo_spec ho₄ fun g₅ ho₅ => ?_)
    have hb' : Built ch (.start tab maps false) { k with rcv := false, snd := false } :=
      ⟨hb.tab, hb.free, hb.maps, rfl, rfl⟩
    refine Prog.wp_bind.mpr (destroy_spec ho₅ hb' fun k' g₆ ho₆ h1 h2 h3 h4 h5 => ?_)
    exact ⟨k', ho₆, h1, h2, h3.trans hbl, h4, h5⟩

theorem session_spec {tab : List (Int32 × ℕ)} {maps : List ℕ} {l : Loc} {p : KernelM Loc}
    (h : Kept cap X tab maps l g) (hc : Session cap X l g p) :
    wpX cap X fate p (Kept cap X tab maps) g := by
  cases hc with
  | create =>
    refine Prog.wp_bind.mpr (Prog.wp_mono (fun r g₁ hk => ?_) (createRingChannel_spec h))
    cases r with
    | ok ch => exact hk
    | error e =>
      obtain ⟨k, ho, h1, h2, h3, h4, h5⟩ := hk
      exact Prog.wp_bind.mpr (closeSocket_spec ho fun g₂ ho₂ => ⟨k, ho₂, h1, h2, h3, h4, h5⟩)

/-- At every moment, what a side has sent is right, and no call of it waits without a limit. -/
structure Steady (cap : Capacity) (X : Side) (g : Net) : Prop where
  sentOk : SentOk cap X g
  endless : (g.host X).endless = false

theorem Kept.own {tab : List (Int32 × ℕ)} {maps : List ℕ} {l : Loc}
    (h : Kept cap X tab maps l g) : ∃ k, Own cap X k g := by
  rcases l with _ | e | ch
  · exact ⟨_, h⟩
  · obtain ⟨k, ho, -⟩ := h
    exact ⟨k, ho⟩
  · obtain ⟨k, w, e, r, b, ho, -⟩ := h
    exact ⟨k, ho⟩

theorem Kept.does {tab : List (Int32 × ℕ)} {maps : List ℕ} {l : Loc}
    (h : Kept cap X tab maps l g) (hd : Does cap X.peer g g') : Kept cap X tab maps l g' := by
  rcases l with _ | e | ch
  · exact Own.does h hd
  · obtain ⟨k, ho, h⟩ := h
    exact ⟨k, ho.does hd, h⟩
  · obtain ⟨k, w, e, r, b, ho, h⟩ := h
    exact ⟨k, w, e, r, b, ho.does hd, h⟩

theorem session_contract (cap : Capacity) (X : Side) (fate : Side → ℕ → Fate)
    (tab : List (Int32 × ℕ)) (maps : List ℕ) :
    Contract (Net.exec fate) (Does cap X.peer) (Does cap X) (Session cap X)
      (fun l g => Kept cap X tab maps l g ∧ (g.host X).endless = false)
      (fun _ g => Steady cap X g) where
  call h hc := wp_conseq (fun _ _ hr => hr) (fun _ _ hg => hg.2)
    (wp_keep (K := fun g => (g.host X).endless = false) (fun _ _ he hd => hd.endless_peer he)
      (fun _ _ he hd => hd.endless he) h.2 (session_spec h.1 hc))
  stable h hd := ⟨h.1.does hd, hd.endless_peer h.2⟩
  weak h := by
    obtain ⟨k, ho⟩ := h.1.own
    exact ⟨ho.sentOk, h.2⟩
  keepRely h hd := ⟨h.sentOk.does hd, hd.endless_peer h.endless⟩
  keepGuar h hd := ⟨hd.sentOk h.sentOk, hd.endless h.endless⟩

/-! ### Both -/

/-- A connected pair of sockets, before the exchange. -/
structure Start (g : Net) : Prop where
  sent : ∀ X, (g.host X).sent = []
  taken : ∀ X, (g.host X).taken = 0
  rcvTimeo : ∀ X, (g.host X).rcvTimeo = false
  sndTimeo : ∀ X, (g.host X).sndTimeo = false
  endless : ∀ X, (g.host X).endless = false

/-- The two processes. -/
abbrev Pair : Type := Duo (Side × Call) (fun c => c.2.Res) Loc Loc Net

/-- One system call, or the start of `CreateRingChannel`, of either process. -/
abbrev PairStep (cap : Capacity) (fate : Side → ℕ → Fate) : Pair → Pair → Prop :=
  Step (Net.exec fate) (Session cap .client) (Session cap .server)

/-- The process of a side. -/
def process (s : Pair) : Side → Thread (Side × Call) (fun c => c.2.Res) Loc
  | .client => s.fst
  | .server => s.snd

/-- The channel `ch` of `X` ends in the rings `w`, to write, and `r`, to read, and in the eventfds
`e`, that wakes `X`, and `b`, that wakes the peer: the rings are whole and initialised, each object
was made by the side it belongs to, and the socket has no time limit left. -/
structure Ends (cap : Capacity) (X : Side) (ch : Chan) (g : Net) (w e r b : ℕ) : Prop where
  writeMemfd : ∃ fd, ch.writeMemfd = some fd ∧ (fd, w) ∈ (g.host X).tab
  writeRegion : ch.writeRegion = some w ∧ w ∈ (g.host X).maps
  readMemfd : ∃ fd, ch.readMemfd = some fd ∧ (fd, r) ∈ (g.host X).tab
  readRegion : ch.readRegion = some r ∧ r ∈ (g.host X).maps
  notifyWrite : ∃ fd, ch.notifyWrite = some fd ∧ (fd, b) ∈ (g.host X).tab
  notifyRead : ∃ fd, ch.notifyRead = some fd ∧ (fd, e) ∈ (g.host X).tab
  ring : IsRing cap X g w
  bell : IsBell X g e
  peerRing : IsRing cap X.peer g r
  peerBell : IsBell X.peer g b
  rcvTimeo : (g.host X).rcvTimeo = false
  sndTimeo : (g.host X).sndTimeo = false

/-- `X` has given back what it had, unless the peer has sent a descriptor without a tag. -/
structure GivenBack (X : Side) (g₀ g : Net) : Prop where
  tab : ¬ Short X.peer g → (g.host X).tab = (g₀.host X).tab
  maps : (g.host X).maps = (g₀.host X).maps
  rcvTimeo : (g.host X).rcvTimeo = false
  sndTimeo : (g.host X).sndTimeo = false

theorem ends_of_joined {ch : Chan} {w e r b : ℕ} (ho : Own cap X k g) (hj : Joined ch k w e r b)
    (hrcv : k.rcv = false) (hsnd : k.snd = false) : Ends cap X ch g w e r b := by
  have htab := ho.tab hj.clean
  have hsent := ho.sent.trans hj.sent
  have hgot := ho.got
  rw [hj.got] at hgot
  have h0 : ∃ x, (g.host X.peer).sent[0]? = some x ∧ x.obj = r := by
    have := congrArg (fun l => l[0]?) hgot
    simpa [List.getElem?_take] using this
  have h1 : ∃ x, (g.host X.peer).sent[1]? = some x ∧ x.obj = b := by
    have := congrArg (fun l => l[1]?) hgot
    simpa [List.getElem?_take] using this
  obtain ⟨x, hx, rfl⟩ := h0
  obtain ⟨y, hy, rfl⟩ := h1
  refine ⟨?_, ?_, ?_, ?_, ?_, ?_, ?_, ?_, (ho.peerOk.first x hx).2, (ho.peerOk.second y hy).2,
    ho.rcv.trans hrcv, ho.snd.trans hsnd⟩
  · rw [htab]; exact hj.writeMemfd
  · rw [ho.maps]; exact hj.writeRegion
  · rw [htab]; exact hj.readMemfd
  · rw [ho.maps]; exact hj.readRegion
  · rw [htab]; exact hj.notifyWrite
  · rw [htab]; exact hj.notifyRead
  · exact (ho.sentOk.first ⟨256, kMemfd, w⟩ (by rw [hsent]; rfl)).2
  · exact (ho.sentOk.second ⟨256, kEventfd, e⟩ (by rw [hsent]; rfl)).2

/-- What the peer got is what the side has sent. -/
theorem meet_of_joined {k' : Mine} {ch ch' : Chan} {w e r b w' e' r' b' : ℕ} (ho : Own cap X k g)
    (hj : Joined ch k w e r b) (ho' : Own cap X.peer k' g) (hj' : Joined ch' k' w' e' r' b') :
    r' = w ∧ b' = e := by
  have hgot := ho'.got
  rw [peer_peer, ho.sent, hj.sent, hj'.got] at hgot
  simpa [eq_comm] using hgot

theorem kept_pair {g₀ : Net} (h₀ : Start g₀) {s : Pair}
    (h : ReflTransGen (PairStep cap fate) ⟨.idle none, .idle none, g₀⟩ s) (X : Side) :
    Steady cap X s.mem ∧ ∀ l, process s X = .idle l →
      Kept cap X (g₀.host X).tab (g₀.host X).maps l s.mem := by
  have hok : ∀ Y, SentOk cap Y g₀ := fun Y => by
    refine ⟨fun w hw => ?_, fun w hw => ?_, fun w hw => ?_⟩ <;> rw [h₀.sent Y] at hw <;> cases hw
  have hown : ∀ Y, Kept cap Y (g₀.host Y).tab (g₀.host Y).maps none g₀ := fun Y =>
    ⟨fun _ => rfl, fun hc => (by cases hc), rfl, h₀.sent Y, h₀.taken Y, by simp [Mine.start],
      fun p hp => absurd hp List.not_mem_nil, fun hb => (by cases hb), h₀.rcvTimeo Y, h₀.sndTimeo Y,
      hok Y, hok Y.peer⟩
  have hc := session_contract cap .client fate (g₀.host .client).tab (g₀.host .client).maps
  have hs := session_contract cap .server fate (g₀.host .server).tab (g₀.host .server).maps
  obtain ⟨h1, h2⟩ := duo_ok does_refl does_refl (fun _ _ _ => Does.trans) (fun _ _ _ => Does.trans)
    hc hs (s := ⟨.idle none, .idle none, g₀⟩)
    ⟨⟨hown .client, h₀.endless .client⟩, ⟨hown .server, h₀.endless .server⟩⟩ h
  cases X with
  | client =>
    refine ⟨threadOk_loc hc h1, fun l hl => ?_⟩
    rw [show s.fst = .idle l from hl] at h1
    exact h1.1
  | server =>
    refine ⟨threadOk_loc hs h2, fun l hl => ?_⟩
    rw [show s.snd = .idle l from hl] at h2
    exact h2.1

/-- **The four ends meet.** In every order of the system calls of the two processes and whatever
becomes of each of them: a side that returns a channel has whole and initialised rings and the
eventfds of both sides, and if both return one, each side reads where the other writes and wakes
where the other waits; a side that throws has closed and unmapped everything, and a system call of
one of them has failed or nothing came in time; no call on the socket waits without a limit. -/
theorem exchange (cap : Capacity) (fate : Side → ℕ → Fate) {g₀ : Net} (h₀ : Start g₀) {s : Pair}
    (h : ReflTransGen (PairStep cap fate) ⟨.idle none, .idle none, g₀⟩ s) :
    (∀ X, (s.mem.host X).endless = false) ∧
    (∀ X ch, process s X = .idle (some (.ok ch)) → ∃ w e r b, Ends cap X ch s.mem w e r b) ∧
    (∀ ch ch', process s .client = .idle (some (.ok ch)) →
      process s .server = .idle (some (.ok ch')) →
      ∃ w e r b, Ends cap .client ch s.mem w e r b ∧ Ends cap .server ch' s.mem r b w e) ∧
    ∀ X err, process s X = .idle (some (.error err)) →
      GivenBack X g₀ s.mem ∧ Blamed X s.mem := by
  refine ⟨fun X => (kept_pair h₀ h X).1.endless, fun X ch hX => ?_, fun ch ch' hc hs => ?_,
    fun X err hX => ?_⟩
  · obtain ⟨k, w, e, r, b, ho, hj, h1, h2⟩ := (kept_pair h₀ h X).2 _ hX
    exact ⟨w, e, r, b, ends_of_joined ho hj h1 h2⟩
  · obtain ⟨k, w, e, r, b, ho, hj, h1, h2⟩ := (kept_pair h₀ h .client).2 _ hc
    obtain ⟨k', w', e', r', b', ho', hj', h1', h2'⟩ := (kept_pair h₀ h .server).2 _ hs
    obtain ⟨rfl, rfl⟩ := meet_of_joined ho hj ho' hj'
    obtain ⟨rfl, rfl⟩ := meet_of_joined ho' hj' ho hj
    exact ⟨_, _, _, _, ends_of_joined ho hj h1 h2, ends_of_joined ho' hj' h1' h2'⟩
  · obtain ⟨k, ho, h1, h2, h3, h4, h5⟩ := (kept_pair h₀ h X).2 _ hX
    refine ⟨⟨fun hshort => ?_, ho.maps.trans h2, ho.rcv.trans h4, ho.snd.trans h5⟩, ho.blamed h3⟩
    have hclean : k.clean = true := by
      by_contra hne
      exact hshort (ho.short (by simpa using hne))
    exact (ho.tab hclean).trans (h1 hclean)

/-- Two processes that hold nothing yet. -/
def quiet : Net := ⟨[], fun _ => ⟨[], [], false, false, [], 0, false, 0, false, false, false⟩⟩

/-- No call fails, and descriptors are counted up. -/
def smooth : Side → ℕ → Fate := fun _ n => ⟨none, Int32.ofNat (10 + n), 256, false⟩

/-- The client sends, the server does all of its part, and the client receives. -/
theorem exchange_smooth : ∃ s ch ch', ReflTransGen (PairStep .min smooth)
    ⟨.idle none, .idle none, quiet⟩ s ∧ process s .client = .idle (some (.ok ch)) ∧
      process s .server = .idle (some (.ok ch')) ∧ Start quiet ∧
      ∃ w e r b, Ends .min .client ch s.mem w e r b ∧ Ends .min .server ch' s.mem r b w e := by
  have h₀ : Start quiet := ⟨fun _ => rfl, fun _ => rfl, fun _ => rfl, fun _ => rfl, fun _ => rfl⟩
  have hrun : ReflTransGen (PairStep .min smooth) ⟨.idle none, .idle none, quiet⟩ _ :=
    (ReflTransGen.head (.call₁ .create) (resume_steps₁ 10 _ _)).trans
      ((call_run₂ .create).trans (resume_run₁ _ _))
  refine ⟨_, ⟨some 12, some 0, some 19, some 2, some 21, some 16⟩,
    ⟨some 15, some 2, some 12, some 0, some 14, some 19⟩, hrun, rfl, rfl, h₀, ?_⟩
  exact (exchange .min smooth h₀ hrun).2.2.1 _ _ rfl rfl

end ShmIpc.Conn.Wiring
