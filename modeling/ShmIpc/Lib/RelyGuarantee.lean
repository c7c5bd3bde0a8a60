import Mathlib.Logic.Relation

/-! # Programs over a shared memory, run under interference

A program issues commands and goes on with their results. `run` is the sequential meaning, `Exec`
the meaning with steps of other threads between any two commands, and `wp` the rely/guarantee
precondition: whatever the others do within `rely`, each command stays within `guar` and the
result satisfies the postcondition. `issued` lists the commands of a sequential run. `wp_bind` cuts
a program where it is composed, `wp_rely` says that a thread's claim survives the others' steps,
`wp_exec` that it is right about every run. `lift` takes a program to a larger memory with more
commands, and `wp_lift` takes what is known of it there. -/

namespace ShmIpc.Lib.RelyGuarantee

/-- A program: it returns, or issues a command and goes on with the command's result. -/
inductive Prog (C : Type) (R : C → Type) (α : Type) : Type
  | ret (a : α) : Prog C R α
  | op (c : C) (k : R c → Prog C R α) : Prog C R α

namespace Prog

variable {C : Type} {R : C → Type} {α β : Type}

protected def bind : Prog C R α → (α → Prog C R β) → Prog C R β
  | .ret a, f => f a
  | .op c k, f => .op c fun r => (k r).bind f

instance : Monad (Prog C R) where
  pure := .ret
  bind := .bind

/-- The program of one command. -/
def cmd (c : C) : Prog C R (R c) := .op c .ret

@[simp] theorem pure_def (a : α) : (pure a : Prog C R α) = .ret a := rfl

@[simp] theorem ret_bind (a : α) (f : α → Prog C R β) : (.ret a : Prog C R α) >>= f = f a := rfl

@[simp] theorem op_bind (c : C) (k : R c → Prog C R α) (f : α → Prog C R β) :
    (.op c k : Prog C R α) >>= f = .op c fun r => k r >>= f := rfl

theorem bind_bind {γ : Type} (f : α → Prog C R β) (h : β → Prog C R γ) :
    ∀ p : Prog C R α, p >>= f >>= h = p >>= fun a => f a >>= h
  | .ret _ => rfl
  | .op c k => congrArg (Prog.op c) (funext fun r => bind_bind f h (k r))

/-! ### Runs -/

variable {S : Type} (exec : (c : C) → S → R c × S)

/-- The sequential run. -/
def run : Prog C R α → S → α × S
  | .ret a, s => (a, s)
  | .op c k, s => (k (exec c s).1).run (exec c s).2

theorem run_bind (f : α → Prog C R β) : ∀ (p : Prog C R α) (s : S),
    (p >>= f).run exec s = (f (p.run exec s).1).run exec (p.run exec s).2
  | .ret _, _ => rfl
  | .op c k, s => run_bind f (k (exec c s).1) (exec c s).2

/-- `Exec exec rely p s a s'`: started in `s`, with steps in `rely` before any of its commands,
the program returns `a` in `s'`. -/
inductive Exec (rely : S → S → Prop) : Prog C R α → S → α → S → Prop
  | ret (a : α) (s : S) : Exec rely (.ret a) s a s
  | op {c : C} {k : R c → Prog C R α} {s s₁ s' : S} {a : α} (hr : rely s s₁)
      (h : Exec rely (k (exec c s₁).1) (exec c s₁).2 a s') : Exec rely (.op c k) s a s'

variable {exec}

theorem exec_ret_iff {rely : S → S → Prop} {a a' : α} {s s' : S} :
    Exec exec rely (.ret a) s a' s' ↔ a' = a ∧ s' = s := by
  constructor
  · intro h; cases h; exact ⟨rfl, rfl⟩
  · rintro ⟨rfl, rfl⟩; exact .ret _ _

theorem exec_op_iff {rely : S → S → Prop} {c : C} {k : R c → Prog C R α} {a : α} {s s' : S} :
    Exec exec rely (.op c k) s a s' ↔
      ∃ s₁, rely s s₁ ∧ Exec exec rely (k (exec c s₁).1) (exec c s₁).2 a s' := by
  constructor
  · intro h; cases h with | op hr h => exact ⟨_, hr, h⟩
  · rintro ⟨s₁, hr, h⟩; exact .op hr h

/-- A run of a composed program is a run of the first part and then one of the second. -/
theorem exec_bind {rely : S → S → Prop} {f : α → Prog C R β} {b : β} {s' : S} :
    ∀ {p : Prog C R α} {s : S}, Exec exec rely (p >>= f) s b s' ↔
      ∃ a s₁, Exec exec rely p s a s₁ ∧ Exec exec rely (f a) s₁ b s'
  | .ret a, s => by
    constructor
    · intro h; exact ⟨a, s, .ret _ _, h⟩
    · rintro ⟨a', s₁, h, h'⟩
      obtain ⟨rfl, rfl⟩ := exec_ret_iff.mp h
      exact h'
  | .op c k, s => by
    rw [op_bind, exec_op_iff]
    constructor
    · rintro ⟨s₁, hr, h⟩
      obtain ⟨a, s₂, h1, h2⟩ := exec_bind.mp h
      exact ⟨a, s₂, .op hr h1, h2⟩
    · rintro ⟨a, s₂, h, h'⟩
      obtain ⟨s₁, hr, h1⟩ := exec_op_iff.mp h
      exact ⟨s₁, hr, exec_bind.mpr ⟨a, s₂, h1, h'⟩⟩

variable (exec)

/-- The sequential run is the run without interference. -/
theorem exec_run {rely : S → S → Prop} (hrefl : ∀ s, rely s s) :
    ∀ (p : Prog C R α) (s : S), Exec exec rely p s (p.run exec s).1 (p.run exec s).2
  | .ret a, s => .ret a s
  | .op c k, s => .op (hrefl s) (exec_run hrefl (k (exec c s).1) (exec c s).2)

/-! ### Footprints -/

/-- The commands that the sequential run issues. -/
def issued : Prog C R α → S → List C
  | .ret _, _ => []
  | .op c k, s => c :: (k (exec c s).1).issued (exec c s).2

/-- The sequential run issues only commands in `P`, and its result satisfies `Q`. -/
def Safe (P : C → Prop) (p : Prog C R α) (Q : α → S → Prop) (s : S) : Prop :=
  (∀ c ∈ p.issued exec s, P c) ∧ Q (p.run exec s).1 (p.run exec s).2

variable {exec}

theorem issued_bind (f : α → Prog C R β) : ∀ (p : Prog C R α) (s : S),
    (p >>= f).issued exec s =
      p.issued exec s ++ (f (p.run exec s).1).issued exec (p.run exec s).2
  | .ret _, _ => rfl
  | .op c k, s => congrArg (c :: ·) (issued_bind f (k (exec c s).1) (exec c s).2)

theorem safe_ret {P : C → Prop} {a : α} {Q : α → S → Prop} {s : S} :
    Safe exec P (.ret a) Q s ↔ Q a s := by
  simp [Safe, issued, run]

theorem safe_bind {P : C → Prop} {p : Prog C R α} {f : α → Prog C R β} {Q : β → S → Prop} {s : S} :
    Safe exec P (p >>= f) Q s ↔ Safe exec P p (fun a s => Safe exec P (f a) Q s) s := by
  simp only [Safe, issued_bind, run_bind, List.mem_append]
  constructor
  · rintro ⟨h, hq⟩
    exact ⟨fun c hc => h c (Or.inl hc), fun c hc => h c (Or.inr hc), hq⟩
  · rintro ⟨h, h', hq⟩
    refine ⟨?_, hq⟩
    rintro c (hc | hc)
    · exact h c hc
    · exact h' c hc

variable (exec)

/-! ### Rely and guarantee -/

/-- The rely/guarantee precondition of `Q`. -/
def wp (rely guar : S → S → Prop) : Prog C R α → (α → S → Prop) → S → Prop
  | .ret a, Q, s => Q a s
  | .op c k, Q, s => ∀ s', rely s s' →
      guar s' (exec c s').2 ∧ (k (exec c s').1).wp rely guar Q (exec c s').2

variable {exec} {rely guar : S → S → Prop}

theorem wp_ret {a : α} {Q : α → S → Prop} {s : S} : wp exec rely guar (.ret a) Q s ↔ Q a s :=
  Iff.rfl

theorem wp_op {c : C} {k : R c → Prog C R α} {Q : α → S → Prop} {s : S} :
    wp exec rely guar (.op c k) Q s ↔ ∀ s', rely s s' →
      guar s' (exec c s').2 ∧ wp exec rely guar (k (exec c s').1) Q (exec c s').2 :=
  Iff.rfl

theorem wp_mono {Q Q' : α → S → Prop} (h : ∀ a s, Q a s → Q' a s) :
    ∀ {p : Prog C R α} {s : S}, wp exec rely guar p Q s → wp exec rely guar p Q' s
  | .ret a, s, hp => h a s hp
  | .op _ _, _, hp => fun s' hr => ⟨(hp s' hr).1, wp_mono h (hp s' hr).2⟩

theorem wp_bind {f : α → Prog C R β} {Q : β → S → Prop} :
    ∀ {p : Prog C R α} {s : S}, wp exec rely guar (p >>= f) Q s ↔
      wp exec rely guar p (fun a s => wp exec rely guar (f a) Q s) s
  | .ret _, _ => Iff.rfl
  | .op c k, s => by
    rw [op_bind, wp_op, wp_op]
    exact forall_congr' fun s' => forall_congr' fun _ => and_congr_right fun _ => wp_bind

/-- A precondition survives the steps of the others, if the postcondition does. -/
theorem wp_rely (htrans : ∀ a b c, rely a b → rely b c → rely a c) {Q : α → S → Prop}
    (hQ : ∀ a s s', Q a s → rely s s' → Q a s') :
    ∀ {p : Prog C R α} {s s' : S}, wp exec rely guar p Q s → rely s s' → wp exec rely guar p Q s'
  | .ret a, s, s', hp, hr => hQ a s s' hp hr
  | .op _ _, s, s', hp, hr => fun s'' hr' => hp s'' (htrans s s' s'' hr hr')

/-- The postcondition holds after every run. -/
theorem wp_exec {Q : α → S → Prop} {p : Prog C R α} {s s' : S} {a : α}
    (h : Exec exec rely p s a s') (hp : wp exec rely guar p Q s) : Q a s' := by
  induction h with
  | ret a s => exact hp
  | op hr _ ih => exact ih (hp _ hr).2

/-- The run without interference stays within the guarantee as a whole. -/
theorem wp_run (hrely : ∀ s, rely s s) (hrefl : ∀ s, guar s s)
    (htrans : ∀ a b c, guar a b → guar b c → guar a c) {Q : α → S → Prop} :
    ∀ {p : Prog C R α} {s : S}, wp exec rely guar p Q s → guar s (p.run exec s).2
  | .ret _, s, _ => hrefl s
  | .op _ _, s, hp => by
    obtain ⟨hg, hw⟩ := hp s (hrely s)
    exact htrans _ _ _ hg (wp_run hrely hrefl htrans hw)

/-! ### A larger memory -/

section Lift

variable {D X : Type} {R₂ : D → Type}

/-- The program among more commands. -/
def lift : Prog C R α → Prog (C ⊕ D) (Sum.elim R R₂) α
  | .ret a => .ret a
  | .op c k => .op (.inl c) fun r => (k r).lift

/-- The commands act on the first part of the memory, the new ones on all of it. -/
def liftExec (exec : (c : C) → S → R c × S) (exec₂ : (d : D) → S × X → R₂ d × S × X) :
    (c : C ⊕ D) → S × X → Sum.elim R R₂ c × S × X
  | .inl c, m => ((exec c m.1).1, (exec c m.1).2, m.2)
  | .inr d, m => exec₂ d m

theorem run_lift (exec : (c : C) → S → R c × S) (exec₂ : (d : D) → S × X → R₂ d × S × X) :
    ∀ (p : Prog C R α) (m : S × X), p.lift.run (liftExec exec exec₂) m =
      ((p.run exec m.1).1, (p.run exec m.1).2, m.2)
  | .ret _, _ => rfl
  | .op c k, m => run_lift exec exec₂ (k (exec c m.1).1) ((exec c m.1).2, m.2)

variable {exec₂ : (d : D) → S × X → R₂ d × S × X} {rely' guar' : S × X → S × X → Prop}
  {K : S × X → Prop}

/-- A precondition on the first part of the memory, and what both sides keep besides. -/
theorem wp_lift (hrely : ∀ m m', K m → rely' m m' → rely m.1 m'.1 ∧ K m')
    (hguar : ∀ m s, K m → guar m.1 s → guar' m (s, m.2) ∧ K (s, m.2)) {Q : α → S → Prop} :
    ∀ {p : Prog C R α} {m : S × X}, wp exec rely guar p Q m.1 → K m →
      wp (liftExec exec exec₂) rely' guar' p.lift (fun a m' => Q a m'.1 ∧ K m') m
  | .ret _, _, hp, hK => ⟨hp, hK⟩
  | .op c _, m, hp, hK => by
    intro m' hr
    obtain ⟨hr', hK'⟩ := hrely m m' hK hr
    obtain ⟨hg, hw⟩ := hp m'.1 hr'
    obtain ⟨hg', hK''⟩ := hguar m' _ hK' hg
    exact ⟨hg', wp_lift hrely hguar (m := ((exec c m'.1).2, m'.2)) hw hK''⟩

end Lift

end Prog

end ShmIpc.Lib.RelyGuarantee
