import ShmIpc.Lib.Threads

/-! # Programs whose answers are not to be trusted

`Always P p Q`: whatever each command returns, the program issues commands in `P` only and returns
a result in `Q`. Nothing is assumed of the memory, so this also holds while another party changes it
at will (`duo_always`).

`Once P p Q`: whatever each command returns, the program issues at most one command in `P`. If only
commands in `P` change an observation of the memory, such a program changes it in one step:
`wp_atomic` says that between the accesses of the program the observation has the value from before,
or already the one from the end. -/

namespace ShmIpc.Lib.Answers

open ShmIpc.Lib.RelyGuarantee ShmIpc.Lib.Threads

variable {C : Type} {R : C → Type} {α β : Type} {P : C → Prop}

/-! ### All answers -/

/-- Only commands in `P` are issued and the result is in `Q`, whatever the commands return. -/
def Always (P : C → Prop) : Prog C R α → (α → Prop) → Prop
  | .ret a, Q => Q a
  | .op c k, Q => P c ∧ ∀ r, Always P (k r) Q

theorem always_bind {f : α → Prog C R β} {Q : β → Prop} : ∀ {p : Prog C R α},
    Always P (p >>= f) Q ↔ Always P p fun a => Always P (f a) Q
  | .ret _ => Iff.rfl
  | .op c k => by
    rw [Prog.op_bind]
    exact and_congr_right fun _ => forall_congr' fun _ => always_bind

theorem Always.mono {Q Q' : α → Prop} (h : ∀ a, Q a → Q' a) : ∀ {p : Prog C R α},
    Always P p Q → Always P p Q'
  | .ret a, hp => h a hp
  | .op _ _, hp => ⟨hp.1, fun r => (hp.2 r).mono h⟩

theorem always_of_forall {Q : α → Prop} (h : ∀ a, Q a) :
    ∀ p : Prog C R α, Always (fun _ => True) p Q
  | .ret a => h a
  | .op _ k => ⟨trivial, fun r => always_of_forall h (k r)⟩

section Adversary

variable {S L₁ L₂ : Type} {exec : (c : C) → S → R c × S} {calls₁ : L₁ → S → Prog C R L₁ → Prop}
  {calls₂ : L₂ → S → Prog C R L₂ → Prop} {I : L₁ → Prop}

/-- The thread is confined: `I` between calls, and the rest of a call leads back to it. -/
def Confined (P : C → Prop) (I : L₁ → Prop) : Thread C R L₁ → Prop
  | .idle l => I l
  | .busy _ p => Always P p I

theorem confined_resume {l : L₁} : ∀ {p : Prog C R L₁}, Always P p I → Confined P I (.resume l p)
  | .ret _, hp => hp
  | .op _ _, hp => hp

/-- **A thread whose calls are confined stays so**, whatever the other thread does. -/
theorem duo_always (hcall : ∀ l m p, I l → calls₁ l m p → Always P p I)
    {s s' : Duo C R L₁ L₂ S} (hs : Confined P I s.fst)
    (h : Relation.ReflTransGen (Step exec calls₁ calls₂) s s') : Confined P I s'.fst := by
  induction h with
  | refl => exact hs
  | tail _ hstep ih =>
    cases hstep with
    | call₁ hc => exact confined_resume (hcall _ _ _ ih hc)
    | op₁ => exact confined_resume (ih.2 _)
    | call₂ _ => exact ih
    | op₂ => exact ih

end Adversary

/-! ### At most one command -/

/-- At most one command in `P` is issued and the result is in `Q`, whatever the commands return. -/
inductive Once (P : C → Prop) (Q : α → Prop) : Prog C R α → Prop
  | ret {a : α} (h : Q a) : Once P Q (.ret a)
  | skip {c : C} {k : R c → Prog C R α} (hc : ¬ P c) (h : ∀ r, Once P Q (k r)) : Once P Q (.op c k)
  | fire {c : C} {k : R c → Prog C R α} (h : ∀ r, Always (fun c => ¬ P c) (k r) Q) :
      Once P Q (.op c k)

theorem Always.once {Q : α → Prop} : ∀ {p : Prog C R α}, Always (fun c => ¬ P c) p Q → Once P Q p
  | .ret _, hp => .ret hp
  | .op _ _, hp => .skip hp.1 fun r => (hp.2 r).once

/-- Nothing is issued after the first part. -/
theorem Once.bind {f : α → Prog C R β} {A : α → Prop} {Q : β → Prop} {p : Prog C R α}
    (hp : Once P A p) (hf : ∀ a, A a → Always (fun c => ¬ P c) (f a) Q) : Once P Q (p >>= f) := by
  induction hp with
  | ret ha => exact (hf _ ha).once
  | skip hc _ ih => exact .skip hc ih
  | fire h => exact .fire fun r => always_bind.mpr ((h r).mono hf)

/-- Nothing is issued before the second part. -/
theorem Always.bind_once {f : α → Prog C R β} {A : α → Prop} {Q : β → Prop} :
    ∀ {p : Prog C R α}, Always (fun c => ¬ P c) p A → (∀ a, A a → Once P Q (f a)) →
      Once P Q (p >>= f)
  | .ret _, hp, hf => hf _ hp
  | .op _ _, hp, hf => .skip hp.1 fun r => (hp.2 r).bind_once hf

/-! ### Consequence -/

variable {S : Type} {exec : (c : C) → S → R c × S} {rely rely' guar guar' : S → S → Prop}

/-- Others that do less, and a guarantee that says less. -/
theorem wp_conseq (hrely : ∀ s s', rely' s s' → rely s s') (hguar : ∀ s s', guar s s' → guar' s s')
    {Q : α → S → Prop} : ∀ {p : Prog C R α} {s : S}, p.wp exec rely guar Q s →
      p.wp exec rely' guar' Q s
  | .ret _, _, hp => hp
  | .op _ _, _, hp => fun s' hr =>
    ⟨hguar _ _ (hp s' (hrely _ _ hr)).1, wp_conseq hrely hguar (hp s' (hrely _ _ hr)).2⟩

/-- A claim about a program, and what it returns in any case. -/
theorem wp_result {Q : α → S → Prop} {A : α → Prop} : ∀ {p : Prog C R α} {s : S}, Always P p A →
    p.wp exec rely guar Q s → p.wp exec rely guar (fun a s => Q a s ∧ A a) s
  | .ret _, _, ha, hp => ⟨hp, ha⟩
  | .op _ _, _, ha, hp => fun s' hr => ⟨(hp s' hr).1, wp_result (ha.2 _) (hp s' hr).2⟩

/-- Two claims about one program. -/
theorem wp_and {Q Q' : α → S → Prop} : ∀ {p : Prog C R α} {s : S}, p.wp exec rely guar Q s →
    p.wp exec rely guar' Q' s →
      p.wp exec rely (fun s s' => guar s s' ∧ guar' s s') (fun a s => Q a s ∧ Q' a s) s
  | .ret _, _, hp, hp' => ⟨hp, hp'⟩
  | .op _ _, _, hp, hp' => fun s' hr =>
    ⟨⟨(hp s' hr).1, (hp' s' hr).1⟩, wp_and (hp s' hr).2 (hp' s' hr).2⟩

/-- What both sides keep holds at every access. -/
theorem wp_keep {K : S → Prop} (hrely : ∀ s s', K s → rely s s' → K s')
    (hguar : ∀ s s', K s → guar s s' → K s') {Q : α → S → Prop} : ∀ {p : Prog C R α} {s : S},
      K s → p.wp exec rely guar Q s →
      p.wp exec rely (fun s s' => K s ∧ guar s s') (fun a s => Q a s ∧ K s) s
  | .ret _, _, hK, hp => ⟨hp, hK⟩
  | .op _ _, _, hK, hp => fun s' hr => by
    have hK' := hrely _ s' hK hr
    obtain ⟨hg, hw⟩ := hp s' hr
    exact ⟨⟨hK', hg⟩, wp_keep hrely hguar (hguar _ _ hK' hg) hw⟩

/-! ### One step -/

variable {O : Type} (obs : S → O) {T : O → Prop} {Q : α → S → Prop} {A : α → Prop}

/-- Where no command changes the observation, it has its last value already. -/
theorem obs_of_never (hrefl : ∀ s, rely s s)
    (hexec : ∀ c s, ¬ P c → obs (exec c s).2 = obs s) (hQ : ∀ a s, A a → Q a s → T (obs s)) :
    ∀ {p : Prog C R α} {s : S}, Always (fun c => ¬ P c) p A → p.wp exec rely guar Q s → T (obs s)
  | .ret a, s, ha, hp => hQ a s ha hp
  | .op c k, s, ha, hp => by
    have ht := obs_of_never hrefl hexec hQ (ha.2 (exec c s).1) (hp s (hrefl s)).2
    rwa [hexec c s ha.1] at ht

theorem wp_never (hexec : ∀ c s, ¬ P c → obs (exec c s).2 = obs s) :
    ∀ {p : Prog C R α} {s : S}, Always (fun c => ¬ P c) p A → p.wp exec rely guar Q s →
      p.wp exec rely (fun s s' => guar s s' ∧ obs s' = obs s) Q s
  | .ret _, _, _, hp => hp
  | .op c _, _, ha, hp => fun s' hr =>
    ⟨⟨(hp s' hr).1, hexec c s' ha.1⟩, wp_never hexec (ha.2 _) (hp s' hr).2⟩

/-- **One step.** If the others leave the observation alone and the program issues at most one
command that changes it, each of its accesses leaves the observation as it is or takes it from its
value at the start, `o`, to one that the postcondition allows. -/
theorem wp_atomic (hrefl : ∀ s, rely s s) (hrely : ∀ s s', rely s s' → obs s' = obs s)
    (hexec : ∀ c s, ¬ P c → obs (exec c s).2 = obs s) (hQ : ∀ a s, A a → Q a s → T (obs s)) {o : O}
    {p : Prog C R α} (hp : Once P A p) : ∀ {s : S}, obs s = o → p.wp exec rely guar Q s →
      p.wp exec rely (fun s s' => guar s s' ∧ (obs s' = obs s ∨ obs s = o ∧ T (obs s'))) Q s := by
  induction hp with
  | ret _ => intro s _ hw; exact hw
  | @skip c k hc _ ih =>
    intro s hs hw s' hr
    have hs' : obs (exec c s').2 = obs s' := hexec c s' hc
    obtain ⟨hg, hk⟩ := hw s' hr
    exact ⟨⟨hg, Or.inl hs'⟩, ih _ (by rw [hs', hrely s s' hr, hs]) hk⟩
  | @fire c k h =>
    intro s hs hw s' hr
    obtain ⟨hg, hk⟩ := hw s' hr
    refine ⟨⟨hg, Or.inr ⟨by rw [hrely s s' hr, hs], obs_of_never obs hrefl hexec hQ (h _) hk⟩⟩, ?_⟩
    exact wp_conseq (fun _ _ hr => hr) (fun _ _ hg => ⟨hg.1, Or.inl hg.2⟩)
      (wp_never obs hexec (h _) hk)

end ShmIpc.Lib.Answers
