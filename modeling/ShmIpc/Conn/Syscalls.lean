import ShmIpc.Conn.Exchange

/-! # What each system call of the exchange does to a side's knowledge

Two processes share the kernel of `Exchange`. `Does` is what a step of one side may do, and `Own` is
what a side knows of its own end: its descriptors and mappings, what it has sent and got, the
objects it has made, and whether there is a cause to fail. The knowledge survives the steps of the
peer (`Own.does`), so each system call has one lemma that says how it changes the knowledge of the
side that makes it, whatever the peer does meanwhile. -/

namespace ShmIpc.Conn.Syscalls

open ShmIpc.Lib.RelyGuarantee ShmIpc.Lib.LittleEndian
open ShmIpc.Ring.RingBuf
open ShmIpc.Conn.FdPassing ShmIpc.Conn.Exchange

/-! ### What the two sides keep -/

variable {cap : Capacity} {X : Side} {g g' g'' : Net} {fate : Side → ℕ → Fate} {α : Type}

@[simp] theorem peer_peer (X : Side) : X.peer.peer = X := by cases X <;> rfl

theorem ne_peer (X : Side) : X ≠ X.peer := by cases X <;> decide

@[simp] theorem set_host_self (g : Net) (X : Side) (h : Host) : (g.set X h).host X = h := if_pos rfl

@[simp] theorem set_host_peer (g : Net) (X : Side) (h : Host) :
    (g.set X h).host X.peer = g.host X.peer := if_neg (Ne.symm (ne_peer X))

/-- The object does not change any more. -/
def Ready (o : Obj) : Prop := o.ring = false ∨ o.init = true

/-- The object is a whole ring of `X`, initialised. -/
def IsRing (cap : Capacity) (X : Side) (g : Net) (i : ℕ) : Prop :=
  ∃ o, g.objs[i]? = some o ∧ o.owner = X ∧ o.ring = true ∧ o.size = shmSize cap ∧ o.init = true

/-- The object is an eventfd of `X`. -/
def IsBell (X : Side) (g : Net) (i : ℕ) : Prop :=
  ∃ o, g.objs[i]? = some o ∧ o.owner = X ∧ o.ring = false

/-- What `X` has sent is what the peer expects: its ring, ready for use, and then its eventfd. -/
structure SentOk (cap : Capacity) (X : Side) (g : Net) : Prop where
  first : ∀ w, (g.host X).sent[0]? = some w → w.tag = kMemfd ∧ IsRing cap X g w.obj
  second : ∀ w, (g.host X).sent[1]? = some w → w.tag = kEventfd ∧ IsBell X g w.obj
  cut : ∀ w ∈ (g.host X).sent, w.bytes < 256 → (g.host X).refused = true

/-- What a step of `X` may do. -/
structure Does (cap : Capacity) (X : Side) (g g' : Net) : Prop where
  host : g'.host X.peer = g.host X.peer
  objs : ∀ (i : ℕ) (o : Obj), g.objs[i]? = some o → o.owner ≠ X ∨ Ready o → g'.objs[i]? = some o
  sent : (g.host X).sent <+: (g'.host X).sent
  sentOk : SentOk cap X g → SentOk cap X g'
  refused : (g.host X).refused = true → (g'.host X).refused = true
  endless : (g.host X).endless = false → (g'.host X).endless = false

theorem does_refl (g : Net) : Does cap X g g :=
  ⟨rfl, fun _ _ h _ => h, List.prefix_rfl, id, id, id⟩

theorem Does.trans (h : Does cap X g g') (h' : Does cap X g' g'') : Does cap X g g'' where
  host := h'.host.trans h.host
  objs i o hi ho := h'.objs i o (h.objs i o hi ho) ho
  sent := h.sent.trans h'.sent
  sentOk hs := h'.sentOk (h.sentOk hs)
  refused hr := h'.refused (h.refused hr)
  endless he := h'.endless (h.endless he)

/-- Objects that others rely on are kept. -/
theorem IsRing.does {Y : Side} {i : ℕ} (h : IsRing cap Y g i) (hd : Does cap X g g') :
    IsRing cap Y g' i := by
  obtain ⟨o, hi, h1, h2, h3, h4⟩ := h
  exact ⟨o, hd.objs i o hi (Or.inr (Or.inr h4)), h1, h2, h3, h4⟩

theorem IsBell.does {Y : Side} {i : ℕ} (h : IsBell Y g i) (hd : Does cap X g g') :
    IsBell Y g' i := by
  obtain ⟨o, hi, h1, h2⟩ := h
  exact ⟨o, hd.objs i o hi (Or.inr (Or.inl h2)), h1, h2⟩

/-- A step of the peer leaves what `X` has sent as it is. -/
theorem SentOk.does (h : SentOk cap X g) (hd : Does cap X.peer g g') : SentOk cap X g' := by
  have hh : g'.host X = g.host X := by simpa using hd.host
  refine ⟨fun w hw => ?_, fun w hw => ?_, fun w hw => ?_⟩
  · rw [hh] at hw
    exact ⟨(h.first w hw).1, (h.first w hw).2.does hd⟩
  · rw [hh] at hw
    exact ⟨(h.second w hw).1, (h.second w hw).2.does hd⟩
  · rw [hh] at hw ⊢
    exact h.cut w hw

/-- A failure of `X` has a cause: a system call of it or of the peer, or nothing came. -/
def Blamed (X : Side) (g : Net) : Prop :=
  (g.host X).refused = true ∨ (g.host X).starved = true ∨ (g.host X.peer).refused = true

/-- A message of `X` has gone out without its tag. -/
def Short (X : Side) (g : Net) : Prop := ∃ w ∈ (g.host X).sent, w.bytes < 4

/-- What `X` knows of its own end: its descriptors and mappings, what it has sent, the objects that
it has got from the peer, those that it has made, and whether there is a cause to fail. Unless
`clean`, it has lost a descriptor that came without a tag. -/
structure Mine where
  tab : List (Int32 × ℕ)
  maps : List ℕ
  sent : List Wire
  got : List ℕ
  objs : List (ℕ × Obj)
  blamed : Bool
  clean : Bool
  rcv : Bool
  snd : Bool

/-- What a side starts from. -/
def Mine.start (tab : List (Int32 × ℕ)) (maps : List ℕ) (timeo : Bool) : Mine :=
  ⟨tab, maps, [], [], [], false, true, timeo, timeo⟩

/-- The knowledge is right. -/
structure Own (cap : Capacity) (X : Side) (k : Mine) (g : Net) : Prop where
  tab : k.clean = true → (g.host X).tab = k.tab
  short : k.clean = false → Short X.peer g
  maps : (g.host X).maps = k.maps
  sent : (g.host X).sent = k.sent
  taken : (g.host X).taken = k.got.length
  got : ((g.host X.peer).sent.take k.got.length).map Wire.obj = k.got
  objs : ∀ p ∈ k.objs, g.objs[p.1]? = some p.2 ∧ p.2.owner = X
  blamed : k.blamed = true → Blamed X g
  rcv : (g.host X).rcvTimeo = k.rcv
  snd : (g.host X).sndTimeo = k.snd
  sentOk : SentOk cap X g
  peerOk : SentOk cap X.peer g

variable {k : Mine}

/-- It stays right when the peer moves. -/
theorem Own.does (h : Own cap X k g) (hd : Does cap X.peer g g') : Own cap X k g' := by
  have hh : g'.host X = g.host X := by simpa using hd.host
  refine ⟨?_, fun hc => ?_, ?_, ?_, ?_, ?_, fun p hp => ?_, fun hb => ?_, ?_, ?_, h.sentOk.does hd,
    hd.sentOk h.peerOk⟩
  · rw [hh]; exact h.tab
  · obtain ⟨w, hw, hlt⟩ := h.short hc
    exact ⟨w, hd.sent.subset hw, hlt⟩
  · rw [hh]; exact h.maps
  · rw [hh]; exact h.sent
  · rw [hh]; exact h.taken
  · obtain ⟨t, ht⟩ := hd.sent
    have hlen : k.got.length ≤ (g.host X.peer).sent.length := by
      have := congrArg List.length h.got
      rw [List.length_map, List.length_take] at this
      omega
    rw [← ht, List.take_append_of_le_length hlen]
    exact h.got
  · obtain ⟨h1, h2⟩ := h.objs p hp
    exact ⟨hd.objs _ _ h1 (Or.inl (by rw [h2]; exact ne_peer X)), h2⟩
  · rcases h.blamed hb with h1 | h1 | h1
    · exact Or.inl (by rw [hh]; exact h1)
    · exact Or.inr (Or.inl (by rw [hh]; exact h1))
    · exact Or.inr (Or.inr (hd.refused h1))
  · rw [hh]; exact h.rcv
  · rw [hh]; exact h.snd

/-- The precondition of a program of `X`. -/
abbrev wpX (cap : Capacity) (X : Side) (fate : Side → ℕ → Fate) (p : KernelM α)
    (Q : α → Net → Prop) (g : Net) : Prop :=
  p.wp (Net.exec fate) (Does cap X.peer) (Does cap X) Q g

/-- One system call: it is enough to look at it in a state with the same knowledge. -/
theorem sys_spec {c : Call} {Q : c.Res → Net → Prop} (ho : Own cap X k g)
    (h : ∀ g, Own cap X k g → Does cap X g (Net.exec fate (X, c) g).2 ∧
      Q (Net.exec fate (X, c) g).1 (Net.exec fate (X, c) g).2) :
    wpX cap X fate (sys X c) Q g := by
  intro g₁ hd
  exact h g₁ (ho.does hd)

theorem Does.endless_peer (hd : Does cap X.peer g g') (h : (g.host X).endless = false) :
    (g'.host X).endless = false := by
  rw [← h, ← peer_peer X, hd.host]

/-! ### The calls that change only the process -/

theorem SentOk.set (hs : SentOk cap X g) {h : Host} (hsent : h.sent = (g.host X).sent)
    (hr : (g.host X).refused = true → h.refused = true) : SentOk cap X (g.set X h) := by
  refine ⟨fun w hw => ?_, fun w hw => ?_, fun w hw hlt => ?_⟩
  · rw [set_host_self, hsent] at hw
    exact hs.first w hw
  · rw [set_host_self, hsent] at hw
    exact hs.second w hw
  · rw [set_host_self, hsent] at hw
    rw [set_host_self]
    exact hr (hs.cut w hw hlt)

theorem SentOk.set_peer (hs : SentOk cap X.peer g) (h : Host) : SentOk cap X.peer (g.set X h) := by
  refine ⟨fun w hw => ?_, fun w hw => ?_, fun w hw hlt => ?_⟩
  · rw [set_host_peer] at hw
    exact hs.first w hw
  · rw [set_host_peer] at hw
    exact hs.second w hw
  · rw [set_host_peer] at hw ⊢
    exact hs.cut w hw hlt

theorem does_set {h : Host} (hsent : h.sent = (g.host X).sent)
    (hr : (g.host X).refused = true → h.refused = true)
    (he : (g.host X).endless = false → h.endless = false) : Does cap X g (g.set X h) where
  host := set_host_peer g X h
  objs _ _ hi _ := hi
  sent := ⟨[], by rw [set_host_self, hsent, List.append_nil]⟩
  sentOk hs := hs.set hsent hr
  refused h := by rw [set_host_self]; exact hr h
  endless h := by rw [set_host_self]; exact he h

/-- The knowledge after a call that changes only the process. -/
theorem Own.set {h : Host} {tab : List (Int32 × ℕ)} {maps : List ℕ} {blamed rcv snd : Bool}
    (ho : Own cap X k g) (htab : k.clean = true → h.tab = tab) (hmaps : h.maps = maps)
    (hsent : h.sent = (g.host X).sent) (htaken : h.taken = (g.host X).taken)
    (hr : (g.host X).refused = true → h.refused = true)
    (hst : (g.host X).starved = true → h.starved = true)
    (hb : blamed = true → k.blamed = true ∨ h.refused = true ∨ h.starved = true)
    (hrcv : h.rcvTimeo = rcv) (hsnd : h.sndTimeo = snd) :
    Own cap X { k with tab := tab, maps := maps, blamed := blamed, rcv := rcv, snd := snd }
      (g.set X h) where
  tab hc := by rw [set_host_self]; exact htab hc
  short hc := by
    obtain ⟨w, hw, hlt⟩ := ho.short hc
    exact ⟨w, by rw [set_host_peer]; exact hw, hlt⟩
  maps := by rw [set_host_self]; exact hmaps
  sent := by rw [set_host_self, hsent]; exact ho.sent
  taken := by rw [set_host_self, htaken]; exact ho.taken
  got := by rw [set_host_peer]; exact ho.got
  objs := ho.objs
  blamed hb' := by
    unfold Blamed
    rw [set_host_self, set_host_peer]
    rcases hb hb' with h1 | h1 | h1
    · rcases ho.blamed h1 with h2 | h2 | h2
      · exact Or.inl (hr h2)
      · exact Or.inr (Or.inl (hst h2))
      · exact Or.inr (Or.inr h2)
    · exact Or.inl h1
    · exact Or.inr (Or.inl h1)
  rcv := by rw [set_host_self]; exact hrcv
  snd := by rw [set_host_self]; exact hsnd
  sentOk := ho.sentOk.set hsent hr
  peerOk := ho.peerOk.set_peer h

/-- A call that failed. -/
theorem Own.refuse (ho : Own cap X k g) :
    Does cap X g (g.set X (g.host X).refuse) ∧
      Own cap X { k with blamed := true } (g.set X (g.host X).refuse) :=
  ⟨does_set rfl (fun _ => rfl) id,
    ho.set (fun hc => ho.tab hc) ho.maps rfl rfl (fun _ => rfl) id (fun _ => Or.inr (Or.inl rfl))
      ho.rcv ho.snd⟩

theorem setRcvTimeo_spec {on : Bool} {Q : Unit → Net → Prop} (ho : Own cap X k g)
    (h : ∀ g', Own cap X { k with rcv := on } g' → Q () g') :
    wpX cap X fate (sys X (.setTimeo true on)) Q g :=
  sys_spec ho fun _ ho => ⟨does_set rfl id id,
    h _ (ho.set (fun hc => ho.tab hc) ho.maps rfl rfl id id Or.inl rfl ho.snd)⟩

theorem setSndTimeo_spec {on : Bool} {Q : Unit → Net → Prop} (ho : Own cap X k g)
    (h : ∀ g', Own cap X { k with snd := on } g' → Q () g') :
    wpX cap X fate (sys X (.setTimeo false on)) Q g :=
  sys_spec ho fun _ ho => ⟨does_set rfl id id,
    h _ (ho.set (fun hc => ho.tab hc) ho.maps rfl rfl id id Or.inl ho.rcv rfl)⟩

theorem close_spec {fd : Int32} {Q : Unit → Net → Prop} (ho : Own cap X k g)
    (h : ∀ g', Own cap X { k with tab := k.tab.filter fun p => p.1 ≠ fd } g' → Q () g') :
    wpX cap X fate (sys X (.close fd)) Q g :=
  sys_spec ho fun _ ho => ⟨does_set rfl id id,
    h _ (ho.set (fun hc => by rw [ho.tab hc]) ho.maps rfl rfl id id Or.inl ho.rcv ho.snd)⟩

theorem munmap_spec {a : ℕ} {Q : Unit → Net → Prop} (ho : Own cap X k g)
    (h : ∀ g', Own cap X { k with maps := k.maps.erase a } g' → Q () g') :
    wpX cap X fate (sys X (.munmap a)) Q g :=
  sys_spec ho fun _ ho => ⟨does_set rfl id id,
    h _ (ho.set (fun hc => ho.tab hc) (by rw [← ho.maps]) rfl rfl id id Or.inl ho.rcv ho.snd)⟩

theorem closeSocket_spec {Q : Unit → Net → Prop} (ho : Own cap X k g)
    (h : ∀ g', Own cap X k g' → Q () g') : wpX cap X fate (sys X .closeSocket) Q g :=
  sys_spec ho fun _ ho => ⟨does_set rfl id id,
    h _ (ho.set (fun hc => ho.tab hc) ho.maps rfl rfl id id Or.inl ho.rcv ho.snd)⟩

/-- What a descriptor stands for. -/
def look (tab : List (Int32 × ℕ)) (fd : Int32) : Option ℕ :=
  (tab.find? fun p => p.1 = fd).map Prod.snd

theorem Own.lookup (ho : Own cap X k g) (hc : k.clean = true) (fd : Int32) :
    (g.host X).lookup fd = look k.tab fd := by
  rw [← ho.tab hc]
  rfl

theorem mmap_spec {fd : Int32} {size o : ℕ} {Q : Except Errno ℕ → Net → Prop}
    (ho : Own cap X k g) (hc : k.clean = true) (hfd : look k.tab fd = some o)
    (hok : ∀ g', Own cap X { k with maps := o :: k.maps } g' → Q (.ok o) g')
    (herr : ∀ e g', Own cap X { k with blamed := true } g' → Q (.error e) g') :
    wpX cap X fate (sys X (.mmap fd size)) Q g := by
  refine sys_spec ho fun g ho => ?_
  have hl := (ho.lookup hc fd).trans hfd
  unfold Net.exec
  simp only [hl]
  rcases (fate X (g.host X).clock).errno with _ | e
  · exact ⟨does_set rfl id id, hok _ (ho.set (fun hc => ho.tab hc) (by rw [← ho.maps]) rfl rfl id id
      Or.inl ho.rcv ho.snd)⟩
  · exact ⟨ho.refuse.1, herr e _ ho.refuse.2⟩

/-! ### The calls that change objects -/

/-- New objects, and objects of `X` that nobody relies on yet, may change. -/
theorem does_objs {objs : List Obj} (h : ∀ (i : ℕ) (o : Obj), g.objs[i]? = some o →
    o.owner ≠ X ∨ Ready o → objs[i]? = some o) : Does cap X g { g with objs := objs } where
  host := rfl
  objs := h
  sent := List.prefix_rfl
  sentOk hs := by
    refine ⟨fun w hw => ⟨(hs.first w hw).1, ?_⟩, fun w hw => ⟨(hs.second w hw).1, ?_⟩, hs.cut⟩
    · obtain ⟨o, hi, h1, h2, h3, h4⟩ := (hs.first w hw).2
      exact ⟨o, h _ o hi (Or.inr (Or.inr h4)), h1, h2, h3, h4⟩
    · obtain ⟨o, hi, h1, h2⟩ := (hs.second w hw).2
      exact ⟨o, h _ o hi (Or.inr (Or.inl h2)), h1, h2⟩
  refused := id
  endless := id

theorem Own.objs_of {objs : List Obj} {ks : List (ℕ × Obj)} (ho : Own cap X k g)
    (h : ∀ (i : ℕ) (o : Obj), g.objs[i]? = some o → o.owner ≠ X ∨ Ready o → objs[i]? = some o)
    (hks : ∀ p ∈ ks, objs[p.1]? = some p.2 ∧ p.2.owner = X) :
    Own cap X { k with objs := ks } { g with objs := objs } where
  tab := ho.tab
  short := ho.short
  maps := ho.maps
  sent := ho.sent
  taken := ho.taken
  got := ho.got
  objs := hks
  blamed := ho.blamed
  rcv := ho.rcv
  snd := ho.snd
  sentOk := (does_objs h).sentOk ho.sentOk
  peerOk := by
    refine ⟨fun w hw => ⟨(ho.peerOk.first w hw).1, ?_⟩, fun w hw => ⟨(ho.peerOk.second w hw).1, ?_⟩,
      ho.peerOk.cut⟩
    · obtain ⟨o, hi, h1, h2, h3, h4⟩ := (ho.peerOk.first w hw).2
      exact ⟨o, h _ o hi (Or.inr (Or.inr h4)), h1, h2, h3, h4⟩
    · obtain ⟨o, hi, h1, h2⟩ := (ho.peerOk.second w hw).2
      exact ⟨o, h _ o hi (Or.inr (Or.inl h2)), h1, h2⟩

/-- A free descriptor of a table. -/
def FreeIn (tab : List (Int32 × ℕ)) (fd : Int32) : Prop := ∀ p ∈ tab, p.1 ≠ fd

theorem look_cons (fd : Int32) (o : ℕ) (tab : List (Int32 × ℕ)) :
    look ((fd, o) :: tab) fd = some o := by
  simp [look]

theorem look_cons_of_ne {fd fd' : Int32} {o : ℕ} {tab : List (Int32 × ℕ)} (h : fd' ≠ fd) :
    look ((fd', o) :: tab) fd = look tab fd := by
  simp [look, h]

/-- A new object. -/
theorem create_spec {f : Fate} {ob : Obj} (ho : Own cap X k g) (hc : k.clean = true)
    (hob : ob.owner = X) {Q : Except Errno Int32 → Net → Prop}
    (hok : ∀ fd o g', FreeIn k.tab fd →
      Own cap X { k with tab := (fd, o) :: k.tab, objs := (o, ob) :: k.objs } g' → Q (.ok fd) g')
    (herr : ∀ e g', Own cap X { k with blamed := true } g' → Q (.error e) g') :
    Does cap X g (g.create X f ob).2 ∧ Q (g.create X f ob).1 (g.create X f ob).2 := by
  have hnew : ∀ (i : ℕ) (o : Obj), g.objs[i]? = some o → o.owner ≠ X ∨ Ready o →
      (g.objs ++ [ob])[i]? = some o := by
    intro i o hi _
    rw [List.getElem?_append_left (List.getElem?_eq_some_iff.mp hi).1]
    exact hi
  unfold Net.create
  rcases f.errno with _ | e
  · dsimp only
    split_ifs with hfree
    · have hd : Does cap X g (g.set X { (g.host X).tick with
          tab := (f.fd, g.objs.length) :: (g.host X).tab }) := does_set rfl id id
      refine ⟨hd.trans (does_objs hnew), hok f.fd g.objs.length _ ?_ ?_⟩
      · intro p hp
        rw [← ho.tab hc] at hp
        exact hfree.2 p hp
      · have hs : Own cap X { k with tab := (f.fd, g.objs.length) :: k.tab }
            (g.set X { (g.host X).tick with tab := (f.fd, g.objs.length) :: (g.host X).tab }) :=
          ho.set (fun hc => by rw [ho.tab hc]) ho.maps rfl rfl id id Or.inl ho.rcv ho.snd
        refine hs.objs_of hnew fun p hp => ?_
        rcases List.mem_cons.mp hp with rfl | hp
        · exact ⟨by simp, hob⟩
        · obtain ⟨h1, h2⟩ := ho.objs p hp
          refine ⟨?_, h2⟩
          rw [List.getElem?_append_left (List.getElem?_eq_some_iff.mp h1).1]
          exact h1
    · exact ⟨ho.refuse.1, herr _ _ ho.refuse.2⟩
  · exact ⟨ho.refuse.1, herr e _ ho.refuse.2⟩

/-- The one object that `X` is making, changed before anybody has it. -/
theorem modify_spec {o : ℕ} {ob : Obj} {f : Obj → Obj} (ho : Own cap X k g)
    (hk : k.objs = [(o, ob)]) (hring : ob.ring = true) (hinit : ob.init = false)
    (hf : (f ob).owner = X) :
    Does cap X g (g.modify o f) ∧ Own cap X { k with objs := [(o, f ob)] } (g.modify o f) := by
  obtain ⟨h1, h2⟩ := ho.objs (o, ob) (by rw [hk]; exact List.mem_singleton_self _)
  have hkeep : ∀ (i : ℕ) (p : Obj), g.objs[i]? = some p → p.owner ≠ X ∨ Ready p →
      (g.objs.modify o f)[i]? = some p := by
    intro i p hi hp
    have hne : o ≠ i := by
      rintro rfl
      rw [h1] at hi
      cases hi
      rcases hp with hp | hp | hp
      · exact hp h2
      · rw [hring] at hp; cases hp
      · rw [hinit] at hp; cases hp
    rw [List.getElem?_modify_ne _ _ hne]
    exact hi
  refine ⟨does_objs hkeep, ho.objs_of hkeep fun p hp => ?_⟩
  rw [List.mem_singleton.mp hp]
  refine ⟨?_, hf⟩
  show (g.objs.modify o f)[o]? = _
  rw [List.getElem?_modify_eq, h1]
  rfl

/-! ### The socket -/

theorem set_self (g : Net) (X : Side) : g.set X (g.host X) = g := by
  have h : (fun Y => if Y = X then g.host X else g.host Y) = g.host := by
    funext Y
    split_ifs with h
    · rw [h]
    · rfl
  unfold Net.set
  rw [h]

/-- A message that is the next one the peer expects. -/
structure Next (cap : Capacity) (X : Side) (sent : List Wire) (w : Wire) (g : Net) : Prop where
  first : sent = [] → w.tag = kMemfd ∧ IsRing cap X g w.obj
  second : sent.length = 1 → w.tag = kEventfd ∧ IsBell X g w.obj

theorem getElem?_snoc {l : List Wire} {w w' : Wire} {i : ℕ} (h : (l ++ [w])[i]? = some w') :
    l[i]? = some w' ∨ (i = l.length ∧ w' = w) := by
  rcases Nat.lt_trichotomy i l.length with hi | hi | hi
  · rw [List.getElem?_append_left hi] at h
    exact Or.inl h
  · rw [hi, List.getElem?_concat_length] at h
    cases h
    exact Or.inr ⟨hi, rfl⟩
  · rw [List.getElem?_eq_none (by simp; omega)] at h
    cases h

theorem SentOk.snoc {h : Host} {w : Wire} (hs : SentOk cap X g)
    (hsent : h.sent = (g.host X).sent ++ [w]) (hn : Next cap X (g.host X).sent w g)
    (hr : (g.host X).refused = true → h.refused = true) (hcut : w.bytes < 256 → h.refused = true) :
    SentOk cap X (g.set X h) := by
  refine ⟨fun w' hw => ?_, fun w' hw => ?_, fun w' hw hlt => ?_⟩
  · rw [set_host_self, hsent] at hw
    rcases getElem?_snoc hw with hw | ⟨hl, rfl⟩
    · exact hs.first w' hw
    · exact hn.first (List.eq_nil_of_length_eq_zero hl.symm)
  · rw [set_host_self, hsent] at hw
    rcases getElem?_snoc hw with hw | ⟨hl, rfl⟩
    · exact hs.second w' hw
    · exact hn.second hl.symm
  · rw [set_host_self, hsent] at hw
    rw [set_host_self]
    rcases List.mem_append.mp hw with hw | hw
    · exact hr (hs.cut w' hw hlt)
    · rw [List.mem_singleton.mp hw] at hlt
      exact hcut hlt

/-- The knowledge after a message has gone out. -/
theorem Own.send {h : Host} {w : Wire} (ho : Own cap X k g) (blamed : Bool)
    (htab : h.tab = (g.host X).tab) (hmaps : h.maps = (g.host X).maps)
    (hsent : h.sent = (g.host X).sent ++ [w]) (htaken : h.taken = (g.host X).taken)
    (hrcv : h.rcvTimeo = (g.host X).rcvTimeo) (hsnd : h.sndTimeo = (g.host X).sndTimeo)
    (hend : h.endless = (g.host X).endless)
    (hn : Next cap X (g.host X).sent w g) (hr : (g.host X).refused = true → h.refused = true)
    (hst : h.starved = (g.host X).starved) (hcut : w.bytes < 256 → h.refused = true)
    (hb : blamed = true → k.blamed = true ∨ h.refused = true) :
    Does cap X g (g.set X h) ∧
      Own cap X { k with sent := k.sent ++ [w], blamed := blamed } (g.set X h) := by
  have hok := ho.sentOk.snoc hsent hn hr hcut
  refine ⟨⟨set_host_peer g X h, fun _ _ hi _ => hi, ?_, fun _ => hok, ?_, ?_⟩, ?_⟩
  · rw [set_host_self, hsent]
    exact List.prefix_append _ _
  · intro h'
    rw [set_host_self]
    exact hr h'
  · intro h'
    rw [set_host_self, hend]
    exact h'
  · refine ⟨fun hc => ?_, fun hc => ?_, ?_, ?_, ?_, ?_, ho.objs, fun hb' => ?_, ?_, ?_, hok,
      ho.peerOk.set_peer h⟩
    · rw [set_host_self, htab]; exact ho.tab hc
    · obtain ⟨w', hw, hlt⟩ := ho.short hc
      exact ⟨w', by rw [set_host_peer]; exact hw, hlt⟩
    · rw [set_host_self, hmaps]; exact ho.maps
    · rw [set_host_self, hsent, ho.sent]
    · rw [set_host_self, htaken]; exact ho.taken
    · rw [set_host_peer]; exact ho.got
    · unfold Blamed
      rw [set_host_self, set_host_peer, hst]
      rcases hb hb' with h1 | h1
      · rcases ho.blamed h1 with h2 | h2
        · exact Or.inl (hr h2)
        · exact Or.inr h2
      · exact Or.inl h1
    · rw [set_host_self, hrcv]; exact ho.rcv
    · rw [set_host_self, hsnd]; exact ho.snd

theorem sendmsg_spec {fd : Int32} {tag : FdTag} {o : ℕ} {Q : Except Errno ℕ → Net → Prop}
    (ho : Own cap X k g) (hc : k.clean = true) (hsnd : k.snd = true)
    (hfd : look k.tab fd = some o)
    (hn : ∀ n g, Own cap X k g → Next cap X k.sent ⟨n, tag, o⟩ g)
    (hok : ∀ g', Own cap X { k with sent := k.sent ++ [⟨256, tag, o⟩] } g' → Q (.ok 256) g')
    (hcut : ∀ n g', n < 256 →
      Own cap X { k with sent := k.sent ++ [⟨n, tag, o⟩], blamed := true } g' → Q (.ok n) g')
    (herr : ∀ e g', Own cap X { k with blamed := true } g' → Q (.error e) g') :
    wpX cap X fate (sys X (.sendmsg fd tag)) Q g := by
  refine sys_spec ho fun g ho => ?_
  have hl := (ho.lookup hc fd).trans hfd
  have hw : (g.host X).wait (g.host X).sndTimeo = g.host X := by
    rw [ho.snd, hsnd]
    rfl
  unfold Net.exec
  dsimp only
  rw [hw, set_self]
  unfold Net.send
  simp only [hl]
  rcases (fate X (g.host X).clock).errno with _ | e
  · dsimp only
    have hn' : ∀ n, Next cap X (g.host X).sent ⟨n, tag, o⟩ g := by
      intro n
      rw [ho.sent]
      exact hn n g ho
    split_ifs with h1 h2
    · exact ⟨ho.refuse.1, herr _ _ ho.refuse.2⟩
    · have hs := ho.send (h := { (g.host X).refuse with
          sent := (g.host X).sent ++ [⟨(fate X (g.host X).clock).bytes, tag, o⟩] })
        true rfl rfl rfl rfl rfl rfl rfl (hn' _) (fun _ => rfl) rfl (fun _ => rfl)
        (fun _ => Or.inr rfl)
      exact ⟨hs.1, hcut _ _ h2 hs.2⟩
    · have hs := ho.send (h := { (g.host X).tick with
          sent := (g.host X).sent ++ [⟨256, tag, o⟩] })
        k.blamed rfl rfl rfl rfl rfl rfl rfl (hn' _) id rfl
        (fun h => absurd h (by simp)) Or.inl
      exact ⟨hs.1, hok _ hs.2⟩
  · exact ⟨ho.refuse.1, herr e _ ho.refuse.2⟩

/-! ### What `RecvFdExpect` makes of the messages -/

/-- A message that fails a check before its descriptor is looked at. -/
theorem recvFdExpect_early {m : Msg} (h : m.received < 4 ∨ m.ctrunc = true) (tag : FdTag) :
    ∃ e, recvFdExpect tag (.msg m) = ⟨m.installed, [], .error e⟩ := by
  obtain ⟨e, he⟩ := recvFd_early h
  refine ⟨e, ?_⟩
  unfold recvFdExpect
  rw [he]

/-- A message with its tag is taken. -/
theorem recvFdExpect_delivered {n : ℕ} (hn : 4 ≤ n) (tag : FdTag) {fd : Int32} (h : 0 ≤ fd) :
    recvFdExpect tag (.msg (delivered n tag fd h)) = ⟨[fd], [], .ok fd⟩ := by
  have hdata : ofLe (delivered n tag fd h).data = tag.val := by
    show ofLe ((dummy tag).take (min n 256) ++ _) = _
    unfold dummy
    rw [List.take_append, List.take_of_length_le (by rw [length_le32]; omega), List.append_assoc]
    exact ofLe_le32 _ _
  have hmsg : recvFdMsg (delivered n tag fd h) = ([], .ok ⟨fd, tag⟩) := by
    have h0 : ¬ (delivered n tag fd h).received = 0 := show ¬ min n 256 = 0 by omega
    have h4 : ¬ (delivered n tag fd h).received < 4 := show ¬ min n 256 < 4 by omega
    unfold recvFdMsg
    rw [hdata, if_neg h0, if_neg h4]
    rfl
  have hfd : recvFd (.msg (delivered n tag fd h)) = ⟨[fd], [], .ok ⟨fd, tag⟩⟩ := by
    unfold recvFd
    simp only [hmsg]
    rfl
  unfold recvFdExpect
  rw [hfd]
  simp

/-- The knowledge `k'` is `k` after something has failed: what was acquired is still known, unless
a descriptor was lost. -/
structure Worse (k k' : Mine) : Prop where
  tab : k'.clean = true → k.clean = true ∧ k'.tab = k.tab
  maps : k'.maps = k.maps
  blamed : k'.blamed = true
  rcv : k'.rcv = k.rcv
  snd : k'.snd = k.snd

/-- The knowledge after a message has been taken off the socket. -/
theorem Own.take {h : Host} {w : Wire} (ho : Own cap X k g) (tab : List (Int32 × ℕ))
    (blamed clean : Bool) (hw : (g.host X.peer).sent[k.got.length]? = some w)
    (htab : clean = true → h.tab = tab) (hshort : clean = false → Short X.peer g)
    (hmaps : h.maps = (g.host X).maps) (hsent : h.sent = (g.host X).sent)
    (htaken : h.taken = (g.host X).taken + 1) (hrcv : h.rcvTimeo = (g.host X).rcvTimeo)
    (hsnd : h.sndTimeo = (g.host X).sndTimeo)
    (hr : (g.host X).refused = true → h.refused = true) (hst : h.starved = (g.host X).starved)
    (hb : blamed = true → k.blamed = true ∨ h.refused = true ∨ (g.host X.peer).refused = true) :
    Own cap X { k with tab := tab, got := k.got ++ [w.obj], blamed := blamed, clean := clean }
      (g.set X h) where
  tab hc := by rw [set_host_self]; exact htab hc
  short hc := by
    obtain ⟨w, hw, hlt⟩ := hshort hc
    exact ⟨w, by rw [set_host_peer]; exact hw, hlt⟩
  maps := by rw [set_host_self, hmaps]; exact ho.maps
  sent := by rw [set_host_self, hsent]; exact ho.sent
  taken := by rw [set_host_self, htaken, ho.taken, List.length_append]; rfl
  got := by
    rw [set_host_peer, List.length_append, List.length_singleton, List.take_add_one, hw,
      List.map_append, ho.got]
    rfl
  objs := ho.objs
  blamed hb' := by
    unfold Blamed
    rw [set_host_self, set_host_peer, hst]
    rcases hb hb' with h1 | h1 | h1
    · rcases ho.blamed h1 with h2 | h2
      · exact Or.inl (hr h2)
      · exact Or.inr h2
    · exact Or.inl h1
    · exact Or.inr (Or.inr h1)
  rcv := by rw [set_host_self, hrcv]; exact ho.rcv
  snd := by rw [set_host_self, hsnd]; exact ho.snd
  sentOk := ho.sentOk.set hsent hr
  peerOk := ho.peerOk.set_peer h

/-- The tag that is expected is that of the peer's next message. -/
def Expects (k : Mine) (tag : FdTag) : Prop :=
  (k.got.length = 0 ∧ tag = kMemfd) ∨ (k.got.length = 1 ∧ tag = kEventfd)

theorem Own.tag_eq (ho : Own cap X k g) {tag : FdTag} (he : Expects k tag) {w : Wire}
    (hw : (g.host X.peer).sent[k.got.length]? = some w) : w.tag = tag := by
  rcases he with ⟨hl, rfl⟩ | ⟨hl, rfl⟩ <;> rw [hl] at hw
  · exact (ho.peerOk.first w hw).1
  · exact (ho.peerOk.second w hw).1

theorem recvmsg_spec {tag : FdTag} {Q : Recv → Net → Prop} (ho : Own cap X k g)
    (hc : k.clean = true) (hrcv : k.rcv = true) (he : Expects k tag)
    (hok : ∀ r fd o g', recvFdExpect tag r = ⟨[fd], [], .ok fd⟩ → FreeIn k.tab fd →
      Own cap X { k with tab := (fd, o) :: k.tab, got := k.got ++ [o] } g' → Q r g')
    (herr : ∀ r e k' g', (recvFdExpect tag r).closed = [] → (recvFdExpect tag r).result = .error e →
      Own cap X k' g' → Worse k k' → Q r g') :
    wpX cap X fate (sys X .recvmsg) Q g := by
  refine sys_spec ho fun g ho => ?_
  have hwait : (g.host X).wait (g.host X).rcvTimeo = g.host X := by
    rw [ho.rcv, hrcv]
    rfl
  unfold Net.exec
  dsimp only
  rw [hwait, set_self]
  unfold Net.recv
  rcases (fate X (g.host X).clock).errno with _ | e
  · dsimp only
    rw [ho.taken]
    rcases hw : (g.host X.peer).sent[k.got.length]? with _ | w
    · -- nothing has come
      have hs : Own cap X { k with blamed := true }
          (g.set X { (g.host X).tick with starved := true }) :=
        ho.set (fun hc => ho.tab hc) ho.maps rfl rfl id (fun _ => rfl)
          (fun _ => Or.inr (Or.inr rfl)) ho.rcv ho.snd
      have hworse : Worse k { k with blamed := true } := ⟨fun h => ⟨h, rfl⟩, rfl, rfl, rfl, rfl⟩
      dsimp only
      refine ⟨does_set rfl id id, ?_⟩
      split_ifs
      · obtain ⟨e, hx⟩ := recvFdExpect_early (m := endOfStream) (Or.inl (by decide)) tag
        exact herr _ e _ _ (by rw [hx]) (by rw [hx]) hs hworse
      · exact herr _ _ _ _ rfl rfl hs hworse
    · dsimp only
      have htag := ho.tag_eq he hw
      split_ifs with hfree
      · refine ⟨does_set rfl id id, ?_⟩
        by_cases hn : 4 ≤ w.bytes
        · have hs := ho.take (h := { (g.host X).tick with
              taken := k.got.length + 1
              tab := ((fate X (g.host X).clock).fd, w.obj) :: (g.host X).tab })
            (((fate X (g.host X).clock).fd, w.obj) :: k.tab) k.blamed k.clean hw
            (fun hc => by rw [← ho.tab hc]) ho.short rfl rfl (by rw [ho.taken]) rfl rfl id rfl
            Or.inl
          refine hok _ _ w.obj _ ?_ ?_ hs
          · rw [htag]
            exact recvFdExpect_delivered hn tag hfree.1.1
          · intro p hp
            rw [← ho.tab hc] at hp
            exact hfree.1.2 p hp
        · -- the descriptor is installed, but the message has no tag
          have hs := ho.take (h := { (g.host X).tick with
              taken := k.got.length + 1
              tab := ((fate X (g.host X).clock).fd, w.obj) :: (g.host X).tab })
            k.tab true false hw
            (fun h => by cases h) (fun _ => ⟨w, List.mem_of_getElem? hw, by omega⟩) rfl rfl
            (by rw [ho.taken]) rfl rfl id rfl
            (fun _ => Or.inr (Or.inr (ho.peerOk.cut w (List.mem_of_getElem? hw) (by omega))))
          obtain ⟨e, hx⟩ := recvFdExpect_early
            (m := delivered w.bytes w.tag (fate X (g.host X).clock).fd hfree.1.1)
            (Or.inl (show min w.bytes 256 < 4 by omega)) tag
          exact herr _ e _ _ (by rw [hx]) (by rw [hx]) hs
            ⟨fun h => absurd h (by simp), rfl, rfl, rfl, rfl⟩
      · have hs := ho.take (h := { (g.host X).refuse with taken := k.got.length + 1 })
          k.tab true k.clean hw ho.tab ho.short rfl rfl
          (by rw [ho.taken]) rfl rfl (fun _ => rfl) rfl (fun _ => Or.inr (Or.inl rfl))
        obtain ⟨e, hx⟩ := recvFdExpect_early (m := truncated w.bytes w.tag) (Or.inr rfl) tag
        exact ⟨does_set rfl (fun _ => rfl) id, herr _ e _ _ (by rw [hx]) (by rw [hx])
          hs ⟨fun h => ⟨h, rfl⟩, rfl, rfl, rfl, rfl⟩⟩
  · exact ⟨ho.refuse.1, herr _ _ _ _ rfl rfl ho.refuse.2 ⟨fun h => ⟨h, rfl⟩, rfl, rfl, rfl, rfl⟩⟩

/-! ### Making a ring and an eventfd -/

theorem Own.forget (ho : Own cap X k g) : Own cap X { k with objs := [] } g :=
  ⟨ho.tab, ho.short, ho.maps, ho.sent, ho.taken, ho.got, fun _ hp => absurd hp List.not_mem_nil,
    ho.blamed, ho.rcv, ho.snd, ho.sentOk, ho.peerOk⟩

theorem Own.calm {b : Bool} (ho : Own cap X k g) (hb : b = true → k.blamed = true) :
    Own cap X { k with blamed := b } g :=
  ⟨ho.tab, ho.short, ho.maps, ho.sent, ho.taken, ho.got, ho.objs, fun h => ho.blamed (hb h), ho.rcv,
    ho.snd, ho.sentOk, ho.peerOk⟩

theorem filter_free {tab : List (Int32 × ℕ)} {fd : Int32} (h : FreeIn tab fd) :
    tab.filter (fun p => p.1 ≠ fd) = tab :=
  List.filter_eq_self.mpr fun p hp => decide_eq_true (h p hp)

theorem filter_cons_free {tab : List (Int32 × ℕ)} {fd : Int32} {o : ℕ} (h : FreeIn tab fd) :
    ((fd, o) :: tab).filter (fun p => p.1 ≠ fd) = tab := by
  rw [List.filter_cons_of_neg (by simp), filter_free h]

/-- A ring under construction. -/
def raw (X : Side) (size : ℕ) (sealable fixed : Bool) : Obj :=
  ⟨X, true, size, sealable, fixed, false⟩

theorem ftruncate_spec {fd : Int32} {size o : ℕ} {s : Bool} {Q : Except Errno Unit → Net → Prop}
    (ho : Own cap X k g) (hc : k.clean = true) (hfd : look k.tab fd = some o)
    (hk : k.objs = [(o, raw X 0 s false)])
    (hok : ∀ g', Own cap X { k with objs := [(o, raw X size s false)] } g' → Q (.ok ()) g')
    (herr : ∀ e g', Own cap X { k with blamed := true } g' → Q (.error e) g') :
    wpX cap X fate (sys X (.ftruncate fd size)) Q g := by
  refine sys_spec ho fun g ho => ?_
  have hl := (ho.lookup hc fd).trans hfd
  unfold Net.exec
  simp only [hl]
  rcases (fate X (g.host X).clock).errno with _ | e
  · obtain ⟨hd, ho'⟩ := modify_spec (f := fun ob => { ob with size := size }) ho hk rfl rfl rfl
    exact ⟨hd.trans (does_set rfl id id), hok _ (ho'.set (fun hc => ho'.tab hc) ho'.maps rfl rfl id
      id Or.inl ho'.rcv ho'.snd)⟩
  · exact ⟨ho.refuse.1, herr e _ ho.refuse.2⟩

theorem addSeals_spec {fd : Int32} {size o : ℕ} {s : Bool} {Q : Unit → Net → Prop}
    (ho : Own cap X k g) (hc : k.clean = true) (hfd : look k.tab fd = some o)
    (hk : k.objs = [(o, raw X size s false)])
    (h : ∀ b g', Own cap X { k with objs := [(o, raw X size s b)] } g' → Q () g') :
    wpX cap X fate (sys X (.addSeals fd)) Q g := by
  refine sys_spec ho fun g ho => ?_
  have hl := (ho.lookup hc fd).trans hfd
  unfold Net.exec
  simp only [hl]
  rcases (fate X (g.host X).clock).errno with _ | e
  · obtain ⟨hd, ho'⟩ := modify_spec (f := fun ob => { ob with fixed := ob.sealable }) ho hk rfl rfl
      rfl
    exact ⟨hd.trans (does_set rfl id id), h s _ (ho'.set (fun hc => ho'.tab hc) ho'.maps rfl rfl id
      id Or.inl ho'.rcv ho'.snd)⟩
  · have hs := ho.refuse.2.calm (b := k.blamed) (fun _ => rfl)
    have h' := h false
    rw [← hk] at h'
    exact ⟨ho.refuse.1, h' _ hs⟩

/-- The first known object. -/
def fresh (k : Mine) (fd : Int32) (o : ℕ) (ob : Obj) : Mine :=
  { k with tab := (fd, o) :: k.tab, objs := [(o, ob)] }

theorem sizeMemfd_spec {size o : ℕ} {s : Bool} {fd : Int32} {Q : Except String Int32 → Net → Prop}
    (hc : k.clean = true) (hk : k.objs = []) (hfree : FreeIn k.tab fd)
    (ho : Own cap X (fresh k fd o (raw X 0 s false)) g)
    (hok : ∀ b g', Own cap X (fresh k fd o (raw X size s b)) g' → Q (.ok fd) g')
    (herr : ∀ e g', Own cap X { k with blamed := true } g' → Q (.error e) g') :
    wpX cap X fate (sizeMemfd X size (.ok fd)) Q g := by
  refine Prog.wp_bind.mpr (ftruncate_spec ho hc (look_cons fd o _) rfl (fun g₁ ho₁ => ?_)
    fun e g₁ ho₁ => ?_)
  · refine Prog.wp_bind.mpr (addSeals_spec ho₁ hc (look_cons fd o _) rfl fun b g₂ ho₂ => ?_)
    exact hok b g₂ ho₂
  · refine Prog.wp_bind.mpr (close_spec ho₁ fun g₂ ho₂ => ?_)
    have ho₂' := ho₂.forget
    unfold fresh at ho₂'
    rw [filter_cons_free hfree, ← hk] at ho₂'
    exact herr _ g₂ ho₂'

theorem memfdCreate_spec {name : String} {s : Bool} {Q : Except Errno Int32 → Net → Prop}
    (ho : Own cap X k g) (hc : k.clean = true) (hk : k.objs = [])
    (hok : ∀ fd o g', FreeIn k.tab fd → Own cap X (fresh k fd o (raw X 0 s false)) g' →
      Q (.ok fd) g')
    (herr : ∀ e g', Own cap X { k with blamed := true } g' → Q (.error e) g') :
    wpX cap X fate (sys X (.memfdCreate name s)) Q g := by
  refine sys_spec ho fun g ho => create_spec ho hc rfl (fun fd o g' hf ho' => ?_) herr
  rw [hk] at ho'
  exact hok fd o g' hf ho'

theorem createMemfd_spec {name : String} {size : ℕ} {Q : Except String Int32 → Net → Prop}
    (ho : Own cap X k g) (hc : k.clean = true) (hk : k.objs = [])
    (hok : ∀ fd o s b g', FreeIn k.tab fd → Own cap X (fresh k fd o (raw X size s b)) g' →
      Q (.ok fd) g')
    (herr : ∀ e g', Own cap X { k with blamed := true } g' → Q (.error e) g') :
    wpX cap X fate (createMemfd X name size) Q g := by
  refine Prog.wp_bind.mpr (memfdCreate_spec ho hc hk (fun fd o g₁ hf ho₁ => ?_) fun e g₁ ho₁ => ?_)
  · exact sizeMemfd_spec hc hk hf ho₁ (fun b g₂ ho₂ => hok fd o true b g₂ hf ho₂) herr
  · show wpX cap X fate (if e.invalid then _ else _) Q g₁
    split_ifs
    · have ho₁' := ho₁.calm (b := k.blamed) fun _ => rfl
      refine Prog.wp_bind.mpr (memfdCreate_spec (k := k) ho₁' hc hk (fun fd o g₂ hf ho₂ => ?_)
        fun e g₂ ho₂ => herr _ g₂ ho₂)
      exact sizeMemfd_spec hc hk hf ho₂ (fun b g₃ ho₃ => hok fd o false b g₃ hf ho₃) herr
    · exact herr _ g₁ ho₁

/-- A ring ready for use. -/
def whole (cap : Capacity) (X : Side) (s b : Bool) : Obj :=
  { raw X (shmSize cap) s b with init := true }

/-- An eventfd. -/
def bell (X : Side) : Obj := ⟨X, false, 0, false, false, false⟩

theorem memset_spec {o size : ℕ} {s b : Bool} {Q : Unit → Net → Prop} (ho : Own cap X k g)
    (hk : k.objs = [(o, raw X size s b)])
    (h : ∀ g', Own cap X { k with objs := [(o, { raw X size s b with init := true })] } g' →
      Q () g') :
    wpX cap X fate (sys X (.memset o)) Q g :=
  sys_spec ho fun g ho => by
    obtain ⟨hd, ho'⟩ := modify_spec (f := fun ob => { ob with init := true }) ho hk rfl rfl rfl
    exact ⟨hd, h _ ho'⟩

theorem eventfd_spec {Q : Except Errno Int32 → Net → Prop} (ho : Own cap X k g)
    (hc : k.clean = true)
    (hok : ∀ fd o g', FreeIn k.tab fd →
      Own cap X { k with tab := (fd, o) :: k.tab, objs := (o, bell X) :: k.objs } g' →
      Q (.ok fd) g')
    (herr : ∀ e g', Own cap X { k with blamed := true } g' → Q (.error e) g') :
    wpX cap X fate (sys X .eventfd) Q g :=
  sys_spec ho fun _ ho => create_spec ho hc rfl hok herr

theorem Own.isRing {o : ℕ} {s b : Bool} (ho : Own cap X k g)
    (h : (o, whole cap X s b) ∈ k.objs) : IsRing cap X g o :=
  ⟨_, (ho.objs _ h).1, rfl, rfl, rfl, rfl⟩

theorem Own.isBell {o : ℕ} (ho : Own cap X k g) (h : (o, bell X) ∈ k.objs) : IsBell X g o :=
  ⟨_, (ho.objs _ h).1, rfl, rfl⟩

end ShmIpc.Conn.Syscalls
