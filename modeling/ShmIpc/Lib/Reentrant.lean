import ShmIpc.Lib.RelyGuarantee

/-! # Programs that call back

The functions of a single-threaded library are programs some of whose commands hand control to the
application; it may call any function again before it returns, to any depth. A configuration is the
memory, the program that runs, and the callers that wait for a callback to return.

`wp` is the rule for such programs: before a callback the invariant has to hold, and after it only
what the code that ran meanwhile guarantees is known. The guarantee and the invariant may depend on
the callbacks in progress. `reach_ok`: if every function, called where the invariant holds, keeps
guarantee and invariant, so does every run. `wpx` is the rule for programs that may also throw. -/

namespace ShmIpc.Lib.Reentrant

open ShmIpc.Lib.RelyGuarantee Relation

variable {C : Type} {R : C → Type} {S α β : Type}

/-- A caller that waits: the callback, and how it goes on. -/
abbrev Frame (C : Type) (R : C → Type) : Type := Σ c : C, R c → Prog C R Unit

/-- The memory, the running program (`none` while the application has control) and the callers that
wait, innermost first. -/
structure Config (C : Type) (R : C → Type) (S : Type) : Type where
  mem : S
  run : Option (Prog C R Unit)
  stack : List (Frame C R)

/-- The callbacks in progress. -/
def callbacks (st : List (Frame C R)) : List C := st.map Sigma.fst

/-- A library: which commands are callbacks, what a command returns and does (a callback: when the
application returns), and which functions the application may call. The last two may depend on the
callbacks in progress. -/
structure Machine (C : Type) (R : C → Type) (S : Type) where
  isCall : C → Prop
  exec : List C → (c : C) → S → R c → S → Prop
  calls : List C → S → Prog C R Unit → Prop

/-- One step. -/
inductive Step (m : Machine C R S) : Config C R S → Config C R S → Prop
  | start {s : S} {p : Prog C R Unit} {st : List (Frame C R)} (h : m.calls (callbacks st) s p) :
      Step m ⟨s, none, st⟩ ⟨s, some p, st⟩
  | done {s : S} {st : List (Frame C R)} : Step m ⟨s, some (.ret ()), st⟩ ⟨s, none, st⟩
  | op {s s' : S} {c : C} {r : R c} {k : R c → Prog C R Unit} {st : List (Frame C R)}
      (hc : ¬ m.isCall c) (h : m.exec (callbacks st) c s r s') :
      Step m ⟨s, some (.op c k), st⟩ ⟨s', some (k r), st⟩
  | call {s : S} {c : C} {k : R c → Prog C R Unit} {st : List (Frame C R)} (hc : m.isCall c) :
      Step m ⟨s, some (.op c k), st⟩ ⟨s, none, ⟨c, k⟩ :: st⟩
  | back {s s' : S} {c : C} {r : R c} {k : R c → Prog C R Unit} {st : List (Frame C R)}
      (h : m.exec (callbacks st) c s r s') :
      Step m ⟨s, none, ⟨c, k⟩ :: st⟩ ⟨s', some (k r), st⟩

/-- A configuration that a run from `s₀` comes to. -/
def Reach (m : Machine C R S) (s₀ : S) : Config C R S → Prop :=
  ReflTransGen (Step m) ⟨s₀, none, []⟩

/-! ### The rule -/

/-- What all code guarantees under the callbacks in progress, and what holds whenever the
application has control. -/
structure Rule (C S : Type) where
  guar : List C → S → S → Prop
  inv : List C → S → Prop
  refl : ∀ ks s, guar ks s s
  trans : ∀ ks a b c, guar ks a b → guar ks b c → guar ks a c
  mono : ∀ c ks a b, guar (c :: ks) a b → guar ks a b

variable (m : Machine C R S) (ρ : Rule C S)

/-- The precondition of `Q` for a program that runs under the callbacks `ks`. -/
def wp (ks : List C) : Prog C R α → (α → S → Prop) → S → Prop
  | .ret a, Q, s => Q a s
  | .op c k, Q, s =>
    (¬ m.isCall c → ∀ r s', m.exec ks c s r s' → ρ.guar ks s s' ∧ wp ks (k r) Q s') ∧
    (m.isCall c → ρ.inv (c :: ks) s ∧ ∀ s', ρ.guar (c :: ks) s s' → ρ.inv (c :: ks) s' →
      ∀ r s'', m.exec ks c s' r s'' → ρ.guar ks s' s'' ∧ wp ks (k r) Q s'')

/-- The callers that wait can go on after whatever the code above them may do. -/
def StackOk : List (Frame C R) → S → Prop
  | [], _ => True
  | ⟨c, k⟩ :: st, s =>
    (∀ s', ρ.guar (c :: callbacks st) s s' → ρ.inv (c :: callbacks st) s' → ∀ r s'',
      m.exec (callbacks st) c s' r s'' → ρ.guar (callbacks st) s' s'' ∧
        wp m ρ (callbacks st) (k r) (fun _ => ρ.inv (callbacks st)) s'') ∧
    StackOk st s

/-- The configuration is where the rule allows it to be. -/
def ConfigOk (c : Config C R S) : Prop :=
  StackOk m ρ c.stack c.mem ∧
    match c.run with
    | none => ρ.inv (callbacks c.stack) c.mem
    | some p => wp m ρ (callbacks c.stack) p (fun _ => ρ.inv (callbacks c.stack)) c.mem

variable {m ρ}

theorem wp_op {ks : List C} {c : C} {k : R c → Prog C R α} {Q : α → S → Prop} {s : S} :
    wp m ρ ks (.op c k) Q s ↔
      (¬ m.isCall c → ∀ r s', m.exec ks c s r s' → ρ.guar ks s s' ∧ wp m ρ ks (k r) Q s') ∧
      (m.isCall c → ρ.inv (c :: ks) s ∧ ∀ s', ρ.guar (c :: ks) s s' → ρ.inv (c :: ks) s' →
        ∀ r s'', m.exec ks c s' r s'' → ρ.guar ks s' s'' ∧ wp m ρ ks (k r) Q s'') :=
  Iff.rfl

theorem wp_mono {ks : List C} {Q Q' : α → S → Prop} (h : ∀ a s, Q a s → Q' a s) :
    ∀ {p : Prog C R α} {s : S}, wp m ρ ks p Q s → wp m ρ ks p Q' s
  | .ret a, s, hp => h a s hp
  | .op _ _, _, hp => by
    refine ⟨fun hc r s' he => ?_, fun hc => ⟨(hp.2 hc).1, fun s' hG hI r s'' he => ?_⟩⟩
    · exact ⟨(hp.1 hc r s' he).1, wp_mono h (hp.1 hc r s' he).2⟩
    · exact ⟨((hp.2 hc).2 s' hG hI r s'' he).1, wp_mono h ((hp.2 hc).2 s' hG hI r s'' he).2⟩

theorem wp_bind {ks : List C} {f : α → Prog C R β} {Q : β → S → Prop} :
    ∀ {p : Prog C R α} {s : S}, wp m ρ ks (p >>= f) Q s ↔
      wp m ρ ks p (fun a s => wp m ρ ks (f a) Q s) s
  | .ret _, _ => Iff.rfl
  | .op c k, s => by
    rw [Prog.op_bind, wp_op, wp_op]
    simp only [wp_bind]

/-- The callers that wait do not mind what the code above them does. -/
theorem stackOk_stable : ∀ {st : List (Frame C R)} {s s' : S}, StackOk m ρ st s →
    ρ.guar (callbacks st) s s' → StackOk m ρ st s'
  | [], _, _, _, _ => trivial
  | ⟨c, _⟩ :: _, s, s', h, hG =>
    ⟨fun s₁ h₁ hI => h.1 s₁ (ρ.trans _ s s' s₁ hG h₁) hI,
      stackOk_stable h.2 (ρ.mono c _ s s' hG)⟩

theorem Rule.guar_nil (ρ : Rule C S) : ∀ {ks : List C} {a b : S}, ρ.guar ks a b → ρ.guar [] a b
  | [], _, _, h => h
  | c :: _, a, b, h => ρ.guar_nil (ρ.mono c _ a b h)

/-- **The rule for programs that call back.** -/
theorem reach_ok
    (hcalls : ∀ ks s p, ρ.inv ks s → m.calls ks s p → wp m ρ ks p (fun _ => ρ.inv ks) s)
    {s₀ : S} (h₀ : ρ.inv [] s₀) {c : Config C R S} (h : Reach m s₀ c) :
    ConfigOk m ρ c ∧ ρ.guar [] s₀ c.mem := by
  induction h with
  | refl => exact ⟨⟨trivial, h₀⟩, ρ.refl _ _⟩
  | tail _ hstep ih =>
    obtain ⟨⟨hst, hrun⟩, hG⟩ := ih
    cases hstep with
    | start hcall => exact ⟨⟨hst, hcalls _ _ _ hrun hcall⟩, hG⟩
    | done => exact ⟨⟨hst, hrun⟩, hG⟩
    | op hc he =>
      obtain ⟨h1, h2⟩ := hrun.1 hc _ _ he
      exact ⟨⟨stackOk_stable hst h1, h2⟩, ρ.trans _ _ _ _ hG (ρ.guar_nil h1)⟩
    | call hc =>
      obtain ⟨h1, h2⟩ := hrun.2 hc
      exact ⟨⟨⟨h2, hst⟩, h1⟩, hG⟩
    | @back s s' c r k st he =>
      obtain ⟨h1, h2⟩ := hst.1 s (ρ.refl _ _) hrun _ _ he
      exact ⟨⟨stackOk_stable hst.2 h1, h2⟩, ρ.trans _ _ _ _ hG (ρ.guar_nil h1)⟩

/-! ### Programs that may throw -/

/-- A program that may throw. -/
abbrev Throws (C : Type) (R : C → Type) : Type → Type := ExceptT Unit (Prog C R)

/-- The program of one command. -/
def command (c : C) : Throws C R (R c) := ExceptT.lift (Prog.cmd c)

/-- The program as the application calls it: it gets control back either way. -/
def attempt (p : Throws C R α) : Prog C R Unit := p.run >>= fun _ => .ret ()

/-- `Q` for the programs that return, `E` for those that throw. -/
def post (Q : α → S → Prop) (E : S → Prop) : Except Unit α → S → Prop
  | .ok a, s => Q a s
  | .error _, s => E s

variable (m ρ)

/-- The precondition of `Q`, or `E` if the program throws. -/
def wpx (ks : List C) (p : Throws C R α) (Q : α → S → Prop) (E : S → Prop) (s : S) : Prop :=
  wp m ρ ks p.run (post Q E) s

variable {m ρ} {ks : List C} {Q Q' : α → S → Prop} {E E' : S → Prop} {s : S}

theorem wpx_pure {a : α} : wpx m ρ ks (pure a) Q E s ↔ Q a s := Iff.rfl

theorem wpx_mono {p : Throws C R α} (hQ : ∀ a s, Q a s → Q' a s) (hE : ∀ s, E s → E' s)
    (h : wpx m ρ ks p Q E s) : wpx m ρ ks p Q' E' s :=
  wp_mono (fun r s hr => match r with | .ok a => hQ a s hr | .error _ => hE s hr) h

theorem wpx_bind {p : Throws C R β} {f : β → Throws C R α} :
    wpx m ρ ks (p >>= f) Q E s ↔ wpx m ρ ks p (fun b => wpx m ρ ks (f b) Q E) E s := by
  refine wp_bind.trans ?_
  constructor <;>
  · refine wp_mono fun r s hr => ?_
    cases r <;> exact hr

theorem wpx_ite {c : Prop} [Decidable c] {p q : Throws C R α} :
    wpx m ρ ks (if c then p else q) Q E s ↔
      (c → wpx m ρ ks p Q E s) ∧ (¬ c → wpx m ρ ks q Q E s) := by
  by_cases h : c <;> simp [h]

theorem wpx_tryCatch {p : Throws C R α} {f : Unit → Throws C R α} :
    wpx m ρ ks (tryCatch p f) Q E s ↔ wpx m ρ ks p Q (fun s => wpx m ρ ks (f ()) Q E s) s := by
  refine wp_bind.trans ?_
  constructor <;>
  · refine wp_mono fun r s hr => ?_
    cases r <;> exact hr

/-- A command that is no callback. -/
theorem wpx_command {c : C} {Q : R c → S → Prop} (hc : ¬ m.isCall c) :
    wpx m ρ ks (command c) Q E s ↔
      ∀ r s', m.exec ks c s r s' → ρ.guar ks s s' ∧ Q r s' := by
  constructor
  · exact fun h => h.1 hc
  · exact fun h => ⟨fun _ => h, fun h' => absurd h' hc⟩

/-- A callback. -/
theorem wpx_call {c : C} {Q : R c → S → Prop} (hc : m.isCall c) :
    wpx m ρ ks (command c) Q E s ↔
      ρ.inv (c :: ks) s ∧ ∀ s', ρ.guar (c :: ks) s s' → ρ.inv (c :: ks) s' →
        ∀ r s'', m.exec ks c s' r s'' → ρ.guar ks s' s'' ∧ Q r s'' := by
  constructor
  · exact fun h => h.2 hc
  · exact fun h => ⟨fun h' => absurd hc h', fun _ => h⟩

/-- A function that keeps the invariant, however it ends. -/
theorem wp_attempt {p : Throws C R α}
    (h : wpx m ρ ks p (fun _ => ρ.inv ks) (ρ.inv ks) s) :
    wp m ρ ks (attempt p) (fun _ => ρ.inv ks) s := by
  refine wp_bind.mpr (wp_mono (fun r s hr => ?_) h)
  cases r <;> exact hr

end ShmIpc.Lib.Reentrant
