import ShmIpc.Conn.Connection

/-! # Closing a connection

A connection under every order of calls of its methods, from the event loop and from inside its
callbacks. `OnConnection` comes once; when `OnVerify(true)` may come is a parameter, a condition on
the state it finds. Closing is irreversible if and only if `OnVerify(true)` only finds open
connections (`irreversible_iff`): it sets `established` whatever the state was. -/

namespace ShmIpc.Conn.Lifecycle

open ShmIpc.Lib.RelyGuarantee ShmIpc.Lib.Reentrant
open ShmIpc.Conn.DrainRing ShmIpc.Conn.Connection

/-! ### The calls -/

/-- The methods of connection `0`. The owner remembers that `OnConnection` was called; `ok` is what
`OnVerify(true)` finds. -/
inductive Calls (ok : TcpConnStates → Prop) (w : World Bool) : ConnM Bool Unit → Prop
  | onConnection (h : w.owner = false) : Calls ok w (do
      modify fun w => { w with owner := true }
      onConnection 0)
  | onVerify (h : ok (w.conns 0).state) : Calls ok w (onVerify 0 true)
  | onVerifyFailed : Calls ok w (onVerify 0 false)
  | close : Calls ok w (close 0)
  | onClose : Calls ok w (onClose 0)
  | sendCmd : Calls ok w (do
      let sent ← sendCmd 0
      modify fun w => w.note (.sendCmd 0 sent))
  | drainRing (viaSocket : Bool) (fuel : ℕ) : Calls ok w (do
      let _ ← drainRing 0 viaSocket fuel)
  | onMessage (viaSocket : Bool) : Calls ok w (onMessage 0 viaSocket)
  | startVerifyTimer : Calls ok w (startVerifyTimer 0)
  | verifyTimerExpired (tfd : ℕ) (h : ⟨tfd, .verifyTimer 0, false⟩ ∈ w.entries) :
      Calls ok w (verifyTimerExpired 0 tfd)

/-- Any ring, any codec, any application. -/
def env (ok : TcpConnStates → Prop) : Env Bool where
  answers _ _ _ _ := True
  returns _ _ _ _ := True
  calls _ w p := Calls ok w p

/-- The world with the new connection `x`. -/
def initial (x : ShmConn) : World Bool := ⟨fun _ => x, [], [], false⟩

/-- After `Close` or `OnClose` took effect the connection is not open, no message is delivered and
`SendCmd` returns `false` and writes nothing; the close callback comes at most once. -/
def Final (w : World Bool) : Prop :=
  (∀ l l', w.log = l ++ .shut 0 :: l' → ¬ (w.conns 0).state.IsOpen ∧
    .message 0 ∉ l' ∧ .wrote 0 ∉ l' ∧ .sendCmd 0 true ∉ l') ∧
  w.log.count (.close 0) ≤ 1

/-- Closing is irreversible, for every connection in every run. -/
def Irreversible (ok : TcpConnStates → Prop) : Prop :=
  ∀ x : ShmConn, x.state = .closeed →
    ∀ c, Reach (env ok).machine (initial x) c → Final c.mem

/-! ### The invariant -/

/-- The event may come after the connection was closed. -/
def Late (e : Event) : Prop := e ≠ .message 0 ∧ e ≠ .wrote 0 ∧ e ≠ .sendCmd 0 true

/-- Between any two steps. -/
structure LifeInv (w : World Bool) : Prop where
  shut : .shut 0 ∈ w.log → ¬ (w.conns 0).state.IsOpen
  unopened : w.owner = false → (w.conns 0).state = .closeed ∧ .shut 0 ∉ w.log
  closed : .close 0 ∈ w.log → (w.conns 0).state = .closeed ∧ .shut 0 ∈ w.log
  once : w.log.count (.close 0) ≤ 1
  order : w.log.Pairwise fun a b => a = .shut 0 → Late b

theorem LifeInv.final {w : World Bool} (h : LifeInv w) : Final w := by
  refine ⟨fun l l' hl => ?_, h.once⟩
  have hord := h.order
  rw [hl, List.pairwise_append, List.pairwise_cons] at hord
  have hlate : ∀ e ∈ l', Late e := fun e he => hord.2.1.1 e he rfl
  refine ⟨h.shut (by simp [hl]), fun hm => ?_, fun hm => ?_, fun hm => ?_⟩
  · exact (hlate _ hm).1 rfl
  · exact (hlate _ hm).2.1 rfl
  · exact (hlate _ hm).2.2 rfl

theorem LifeInv.initial {x : ShmConn} (hx : x.state = .closeed) : LifeInv (initial x) where
  shut := by simp [Lifecycle.initial]
  unopened := by simp [Lifecycle.initial, hx]
  closed := by simp [Lifecycle.initial]
  once := by simp [Lifecycle.initial]
  order := by simp [Lifecycle.initial]

/-- The invariant only looks at the state, the log and the owner. -/
theorem LifeInv.congr {w w' : World Bool} (h : LifeInv w)
    (hs : (w'.conns 0).state = (w.conns 0).state) (hl : w'.log = w.log)
    (ho : w'.owner = w.owner) : LifeInv w' where
  shut := by rw [hl, hs]; exact h.shut
  unopened := by rw [hl, hs, ho]; exact h.unopened
  closed := by rw [hl, hs]; exact h.closed
  once := by rw [hl]; exact h.once
  order := by rw [hl]; exact h.order

theorem LifeInv.order_append {w : World Bool} (h : LifeInv w) {e : Event}
    (he : .shut 0 ∈ w.log → Late e) :
    (w.log ++ [e]).Pairwise fun a b => a = .shut 0 → Late b := by
  rw [List.pairwise_append]
  refine ⟨h.order, List.pairwise_singleton _ _, fun a ha b hb hab => ?_⟩
  rw [List.mem_singleton.mp hb]
  exact he (hab ▸ ha)

/-- An event that does not close the connection. -/
theorem LifeInv.note {w : World Bool} (h : LifeInv w) {e : Event} (hs : e ≠ .shut 0)
    (hc : e ≠ .close 0) (he : (w.conns 0).state.IsOpen ∨ Late e) : LifeInv (w.note e) where
  shut := by simpa [hs.symm] using h.shut
  unopened := by simpa [hs.symm] using h.unopened
  closed := by simpa [hc.symm, hs.symm] using h.closed
  once := by simpa [hc] using h.once
  order := h.order_append fun hm => he.resolve_left (h.shut hm)

/-- `Close` or `OnClose` takes effect. -/
theorem LifeInv.shutting {w w' : World Bool} (h : LifeInv w) (hw : (w.conns 0).state ≠ .closeed)
    (hs : ¬ (w'.conns 0).state.IsOpen) (hl : w'.log = w.log ++ [.shut 0])
    (ho : w'.owner = w.owner) : LifeInv w' where
  shut _ := hs
  unopened h' := absurd (h.unopened (ho ▸ h')).1 hw
  closed h' := by
    rw [hl, List.mem_append, List.mem_singleton] at h'
    exact absurd (h.closed (h'.resolve_right nofun)).1 hw
  once := by simpa [hl] using h.once
  order := by
    rw [hl]
    exact h.order_append fun _ => by simp [Late]

/-- The close callback is due after `OnClose` took effect. -/
theorem LifeInv.closing {w : World Bool} (h : LifeInv w) (hw : (w.conns 0).state ≠ .closeed) :
    LifeInv ((w.closed 0).note (.close 0)) where
  shut _ := by simp [World.closed, TcpConnStates.IsOpen]
  unopened h' := absurd (h.unopened h').1 hw
  closed _ := by simp [World.closed]
  once := by
    have h0 : w.log.count (.close 0) = 0 :=
      List.count_eq_zero.mpr fun hm => hw (h.closed hm).1
    simp [World.closed, h0]
  order := by
    have h1 : LifeInv (w.closed 0) :=
      h.shutting hw (by simp [World.closed, TcpConnStates.IsOpen]) rfl rfl
    exact h1.order_append fun _ => by simp [Late]

/-- `OnConnection` sets the state of a connection on which nothing happened. -/
theorem LifeInv.opening {w w' : World Bool} (h : LifeInv w) (hw : w.owner = false)
    (hl : w'.log = w.log) (ho : w'.owner = true) : LifeInv w' where
  shut h' := absurd (hl ▸ h') (h.unopened hw).2
  unopened h' := by simp [ho] at h'
  closed h' := absurd (h.closed (hl ▸ h')).2 (h.unopened hw).2
  once := by rw [hl]; exact h.once
  order := by rw [hl]; exact h.order

/-! ### The methods keep it -/

/-- The rule: all code keeps the invariant, at every step. -/
def rule : Rule (Cmd Bool) (World Bool) where
  guar _ w w' := LifeInv w → LifeInv w'
  inv _ := LifeInv
  refl _ _ h := h
  trans _ _ _ _ h h' hw := h' (h hw)
  mono _ _ _ _ h := h

variable {ok : TcpConnStates → Prop} {ks : List (Cmd Bool)} {w : World Bool}

theorem LifeInv.touch {w' : World Bool} (h : LifeInv w) (ht : Touch 0 w w') : LifeInv w' := by
  cases ht with
  | shutDown ho =>
    exact h.shutting (not_closeed ho) (by simp [World.shutDown, TcpConnStates.IsOpen]) rfl rfl
  | dropTimer _ => exact h.congr (by simp [World.dropTimer]) rfl rfl
  | established ho =>
    refine ⟨fun hm => absurd ho (h.shut hm), fun hw => ?_, fun hm => ?_, h.once, h.order⟩
    · exact absurd (h.unopened hw).1 (not_closeed ho)
    · exact absurd (h.closed hm).1 (not_closeed ho)
  | dropContexts => exact h.congr (by simp [World.dropContexts]) rfl rfl
  | wrote ho => exact h.note (by simp) (by simp) (.inl ho)
  | keepAlive => exact h.note (by simp) (by simp) (.inr (by simp [Late]))

theorem kept : Kept rule ks 0 LifeInv := fun _ _ h ht => ⟨fun _ => h.touch ht, h.touch ht⟩

theorem delivers {viaSocket : Bool} : Delivers rule ks 0 viaSocket LifeInv := by
  intro w h ho
  have h1 : LifeInv (w.note (.message 0)) := h.note (by simp) (by simp) (.inl ho)
  exact ⟨fun _ => h1, h1, fun w' hw' => hw'.2⟩

theorem onConnection_once (h : LifeInv w) (hw : w.owner = false) :
    wpx (env ok).machine rule ks (do
      modify fun w => { w with owner := true }
      onConnection 0) (fun _ => LifeInv) LifeInv w := by
  have h0 : LifeInv { w with owner := true } := h.opening hw rfl rfl
  have hverifing : LifeInv ({ w with owner := true }.verifing 0) := by
    have h1 : LifeInv ({ w with owner := true }.setConn 0 fun x => { x with state := .verifing }) :=
      h.opening hw rfl rfl
    exact h1.note (by simp) (by simp) (.inr (by simp [Late]))
  have hestablished : LifeInv ({ w with owner := true }.established 0) := h.opening hw rfl rfl
  have hconnection : ∀ {w : World Bool}, LifeInv w → LifeInv (w.note (.connection 0)) :=
    fun h' => h'.note (by simp) (by simp) (.inr (by simp [Late]))
  rw [wpx_bind, wpx_modify]
  refine ⟨fun _ => h0, onConnection_keeps (K := LifeInv) (fun _ => ?_) (fun _ => ?_) ?_⟩
  · exact ⟨fun _ => hverifing, hverifing, fun w' hw' => ⟨fun _ => hw'.2, fun _ => hw'.2⟩⟩
  · exact ⟨fun _ => hestablished, hestablished⟩
  · intro w' h'
    have h1 := hconnection h'
    exact ⟨fun _ => h', fun _ => h1, h1, fun w'' hw'' => ⟨fun _ => hw''.2, fun _ => hw''.2⟩⟩

/-- Every call keeps the invariant. -/
theorem calls_keep (hok : ∀ st, ok st → st.IsOpen) {p : ConnM Bool Unit} (h : LifeInv w)
    (hp : Calls ok w p) : wpx (env ok).machine rule ks p (fun _ => LifeInv) LifeInv w := by
  cases hp with
  | onConnection hw => exact onConnection_once h hw
  | onVerify hst => exact onVerify_keeps kept h fun _ => hok _ hst
  | onVerifyFailed => exact onVerify_keeps kept h nofun
  | close => exact close_keeps kept h
  | onClose =>
    refine onClose_keeps kept (fun _ => h) fun hst => ?_
    have h1 : LifeInv (w.closed 0) :=
      h.shutting hst (by simp [World.closed, TcpConnStates.IsOpen]) rfl rfl
    have h2 := h.closing hst
    exact ⟨fun _ => h1, fun _ => h1, fun _ => ⟨fun _ => h2, h2, fun w' hw' => hw'.2⟩⟩
  | sendCmd =>
    refine wpx_bind.mpr (wpx_mono (fun sent w' hw' => ?_) (fun _ h => h) (sendCmd_keeps kept h))
    have h1 : LifeInv (w'.note (.sendCmd 0 sent)) := by
      refine hw'.1.note (by simp) (by simp) ?_
      cases sent with
      | true => exact .inl (hw'.2 rfl)
      | false => exact .inr (by simp [Late])
    exact wpx_modify.mpr ⟨fun _ => h1, h1⟩
  | drainRing viaSocket fuel =>
    have hm : Delivers rule ks 0 viaSocket LifeInv := delivers
    have hd := drainRing_keeps (e := env ok) (X := fun _ => True) kept hm (fun _ _ _ => trivial) h
      (fun _ => trivial) fuel
    exact wpx_bind.mpr (wpx_mono (fun _ _ hw' => hw'.1) (fun _ h => h) hd)
  | onMessage viaSocket => exact onMessage_keeps delivers h
  | startVerifyTimer =>
    refine startVerifyTimer_keeps h fun tfd _ => ?_
    have h1 : LifeInv (w.addTimer 0 tfd) := h.congr (by simp [World.addTimer]) rfl rfl
    exact ⟨fun _ => h1, h1⟩
  | verifyTimerExpired tfd _ =>
    have h1 : LifeInv (w.dropTimer 0 tfd) := h.congr (by simp [World.dropTimer]) rfl rfl
    rw [verifyTimerExpired, wpx_bind, wpx_modify, wpx_callback]
    exact ⟨fun _ => h1, h1, fun w' hw' => ⟨fun _ => hw'.2, fun _ => hw'.2⟩⟩

/-- The invariant holds in every configuration of every run. -/
theorem lifeInv_reach (hok : ∀ st, ok st → st.IsOpen) {x : ShmConn} (hx : x.state = .closeed)
    {c : Config (Cmd Bool) Cmd.Res (World Bool)} (h : Reach (env ok).machine (initial x) c) :
    LifeInv c.mem := by
  have h₀ := LifeInv.initial hx
  exact (reach_inv (e := env ok) (ρ := rule) (fun _ _ _ => calls_keep hok) h₀ h).2 h₀

/-! ### When closing is irreversible -/

/-- A connection without callbacks. -/
def plain : ShmConn := ShmConn.new 3 4

/-- `OnVerify(true)` on a connection that is closing, or closed, opens it again. -/
theorem not_irreversible {st : TcpConnStates} (hst : ok st) (hopen : ¬ st.IsOpen) :
    ¬ Irreversible ok := by
  intro h
  have h0 : Reach (env ok).machine (initial plain) ⟨initial plain, none, []⟩ := .refl
  have h1 := reach_done (reach_start h0 _ (.onConnection rfl))
  cases st with
  | verifing => exact hopen (.inr rfl)
  | established => exact hopen (.inl rfl)
  | closeing =>
    have h2 := reach_done (reach_start h1 _ .close)
    have h3 := reach_start h2 _ (.onVerify hst)
    exact ((h plain rfl _ h3).1 [] [] rfl).1 (.inl rfl)
  | closeed =>
    have h2 := reach_done (reach_start h1 _ .onClose)
    have h3 := reach_start h2 _ (.onVerify hst)
    exact ((h plain rfl _ h3).1 [] [] rfl).1 (.inl rfl)

/-- **Closing is irreversible if and only if `OnVerify(true)` only comes to open connections.** -/
theorem irreversible_iff (ok : TcpConnStates → Prop) :
    Irreversible ok ↔ ∀ st, ok st → st.IsOpen := by
  constructor
  · intro h st hst
    by_contra hopen
    exact not_irreversible hst hopen h
  · intro hok x hx c hc
    exact (lifeInv_reach hok hx hc).final

/-- Without a condition on `OnVerify(true)` a closed connection is opened again. -/
theorem reopened_by_verify : ¬ Irreversible fun _ => True := by
  have hopen : ¬ TcpConnStates.closeing.IsOpen := by decide
  exact not_irreversible trivial hopen

end ShmIpc.Conn.Lifecycle
