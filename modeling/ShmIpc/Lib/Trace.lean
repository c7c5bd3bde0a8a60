import Mathlib.Data.List.Basic

/-! # Traces

Splitting a trace at one of its events; what holds at each occurrence of an event (`AtEach x P t`:
`P` holds of all that was before it); and what has happened since an event (`Since x y t`: `x` is in
`t` with no `y` after it). -/

namespace ShmIpc.Lib.Trace

variable {α : Type} {t t' pre post : List α} {x y z : α}

/-- An event of a list in two parts is in one of them. -/
theorem split_append (h : t ++ t' = pre ++ x :: post) :
    (∃ c, t = pre ++ x :: c ∧ post = c ++ t') ∨ ∃ c, pre = t ++ c ∧ t' = c ++ x :: post := by
  rcases List.append_eq_append_iff.mp h with ⟨c, h1, h2⟩ | ⟨c, h1, h2⟩
  · exact Or.inr ⟨c, h1, h2⟩
  · rcases c with _ | ⟨y, c⟩
    · exact Or.inr ⟨[], by rw [h1]; simp, by simpa using h2.symm⟩
    · rw [List.cons_append, List.cons.injEq] at h2
      exact Or.inl ⟨c, by rw [h1, h2.1], h2.2⟩

/-- An event of a list with one more at the end is that one, or was there before. -/
theorem split_concat (h : t ++ [y] = pre ++ x :: post) :
    (x = y ∧ pre = t ∧ post = []) ∨ ∃ c, t = pre ++ x :: c ∧ post = c ++ [y] := by
  rcases split_append h with hc | ⟨c, h1, h2⟩
  · exact Or.inr hc
  · rcases c with _ | ⟨z, c⟩
    · rw [List.append_nil] at h1
      cases h2
      exact Or.inl ⟨rfl, h1, rfl⟩
    · rw [List.cons_append, List.cons.injEq] at h2
      exact absurd h2.2.symm (by simp)

/-- Whenever `x` happened, `P` held of the trace before it. -/
def AtEach (x : α) (P : List α → Prop) (t : List α) : Prop :=
  ∀ pre post, t = pre ++ x :: post → P pre

theorem atEach_nil (x : α) (P : List α → Prop) : AtEach x P [] :=
  fun _ _ h => absurd h (by simp)

theorem AtEach.mono {P P' : List α → Prop} (h : AtEach x P t) (hP : ∀ pre, P pre → P' pre) :
    AtEach x P' t :=
  fun pre post hsplit => hP pre (h pre post hsplit)

/-- One more event. -/
theorem AtEach.concat {P : List α → Prop} (h : AtEach x P t) (hy : y = x → P t) :
    AtEach x P (t ++ [y]) := by
  intro pre post hsplit
  rcases split_concat hsplit with ⟨hx, rfl, -⟩ | ⟨c, hc, -⟩
  · exact hy hx.symm
  · exact h pre c hc

/-- `x` has happened, and no `y` after it. -/
def Since (x y : α) (t : List α) : Prop := ∃ pre post, t = pre ++ x :: post ∧ y ∉ post

/-- One more event. -/
theorem Since.of_concat (h : Since x y (t ++ [z])) (hz : z ≠ x) : z ≠ y ∧ Since x y t := by
  obtain ⟨pre, post, hsplit, hpost⟩ := h
  rcases split_concat hsplit with ⟨hx, -, -⟩ | ⟨c, h1, rfl⟩
  · exact absurd hx.symm hz
  · rw [List.mem_append, List.mem_singleton, not_or] at hpost
    exact ⟨fun he => hpost.2 he.symm, pre, c, h1, hpost.1⟩

end ShmIpc.Lib.Trace
