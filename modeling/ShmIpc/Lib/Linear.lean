import Mathlib.Order.Basic
import Mathlib.Tactic.Choose
import ShmIpc.Lib.Threads

/-! # Atomic objects

`Contract` of `Lib.Threads` says what holds between two calls. A `CallContract` also says what a
single call does: its accesses stay within a guarantee that may depend on where the call started,
and at the moment it returns a postcondition holds that need not survive the next step of the other
thread (`duo_moves`).

`AtomicStep` is the object that two parties would like to have: a call is an operation that happens
at one moment between its start and its return. `Linearizable`: every run of the two threads, finite
or not, looks to both of them like a run of that object. `linearizable_of_simulation` is the rule
for proving it. -/

namespace ShmIpc.Lib.Linear

open Relation
open ShmIpc.Lib.RelyGuarantee ShmIpc.Lib.Threads

variable {C : Type} {R : C → Type} {S L L₁ L₂ : Type}

/-! ### One call -/

/-- What a thread promises: `I` holds between calls and survives the others' steps, the accesses of
a call that was started in `l` are within `guar l`, and `post l` holds when it returns. -/
structure CallContract (exec : (c : C) → S → R c × S) (rely : S → S → Prop)
    (guar : L → S → S → Prop) (calls : L → S → Prog C R L → Prop) (I : L → S → Prop)
    (post : L → L → S → Prop) : Prop where
  call : ∀ {l m p}, I l m → calls l m p →
    p.wp exec rely (guar l) (fun l' m' => I l' m' ∧ post l l' m') m
  stable : ∀ {l m m'}, I l m → rely m m' → I l m'

/-- The thread is where its contract allows it to be. A call in progress has an access to make. -/
def CallOk (exec : (c : C) → S → R c × S) (rely : S → S → Prop) (guar : L → S → S → Prop)
    (I : L → S → Prop) (post : L → L → S → Prop) : Thread C R L → S → Prop
  | .idle l, m => I l m
  | .busy _ (.ret _), _ => False
  | .busy l (.op c k), m =>
    (Prog.op c k).wp exec rely (guar l) (fun l' m' => I l' m' ∧ post l l' m') m

/-- A step of a thread that keeps its contract. -/
inductive Moves (guar : L → S → S → Prop) (I : L → S → Prop) (post : L → L → S → Prop) :
    Thread C R L → S → Thread C R L → S → Prop
  | call {l : L} {p : Prog C R L} {m : S} : Moves guar I post (.idle l) m (.busy l p) m
  /-- a call without any access -/
  | whole {l l' : L} {m : S} (hi : I l' m) (hp : post l l' m) :
      Moves guar I post (.idle l) m (.idle l') m
  | access {l : L} {p p' : Prog C R L} {m m' : S} (hg : guar l m m') :
      Moves guar I post (.busy l p) m (.busy l p') m'
  | last {l l' : L} {p : Prog C R L} {m m' : S} (hg : guar l m m') (hi : I l' m')
      (hp : post l l' m') : Moves guar I post (.busy l p) m (.idle l') m'

section Rule

variable {exec : (c : C) → S → R c × S} {rely : S → S → Prop} {guar : L → S → S → Prop}
  {calls : L → S → Prog C R L → Prop} {I : L → S → Prop} {post : L → L → S → Prop}

theorem CallContract.call_moves (hc : CallContract exec rely guar calls I post) {l : L} {m : S}
    {p : Prog C R L} (hi : I l m) (hcall : calls l m p) :
    Moves guar I post (.idle l) m (.resume l p) m ∧
      CallOk exec rely guar I post (.resume l p) m := by
  have hw := hc.call hi hcall
  cases p with
  | ret l' => exact ⟨.whole hw.1 hw.2, hw.1⟩
  | op c k => exact ⟨.call, hw⟩

theorem CallOk.op_moves (hrefl : ∀ m, rely m m) {l : L} {m : S} {c : C} {k : R c → Prog C R L}
    (h : CallOk exec rely guar I post (.busy l (.op c k)) m) :
    guar l m (exec c m).2 ∧
      Moves guar I post (.busy l (.op c k)) m (.resume l (k (exec c m).1)) (exec c m).2 ∧
      CallOk exec rely guar I post (.resume l (k (exec c m).1)) (exec c m).2 := by
  obtain ⟨hg, hw⟩ := h m (hrefl m)
  refine ⟨hg, ?_⟩
  cases hk : k (exec c m).1 with
  | ret l' =>
    rw [hk] at hw
    exact ⟨.last hg hw.1 hw.2, hw.1⟩
  | op c' k' =>
    rw [hk] at hw
    exact ⟨.access hg, hw⟩

/-- The other thread's steps do not disturb it. -/
theorem CallOk.stable (hc : CallContract exec rely guar calls I post)
    (htrans : ∀ a b c, rely a b → rely b c → rely a c) {m m' : S} (hr : rely m m') :
    ∀ {t : Thread C R L}, CallOk exec rely guar I post t m → CallOk exec rely guar I post t m'
  | .idle _, h => hc.stable h hr
  | .busy _ (.ret _), h => h
  | .busy _ (.op _ _), h => fun m'' hr' => h m'' (htrans _ _ _ hr hr')

variable {A B : S → S → Prop} {guar₁ : L₁ → S → S → Prop} {guar₂ : L₂ → S → S → Prop}
  {calls₁ : L₁ → S → Prog C R L₁ → Prop} {calls₂ : L₂ → S → Prog C R L₂ → Prop}
  {I₁ : L₁ → S → Prop} {I₂ : L₂ → S → Prop} {post₁ : L₁ → L₁ → S → Prop}
  {post₂ : L₂ → L₂ → S → Prop}

/-- **The rule for two threads**, step by step: one of them moves as its contract says. -/
theorem duo_moves (hArefl : ∀ m, A m m) (hBrefl : ∀ m, B m m)
    (hA : ∀ a b c, A a b → A b c → A a c) (hB : ∀ a b c, B a b → B b c → B a c)
    (hg₁ : ∀ l m m', guar₁ l m m' → A m m') (hg₂ : ∀ l m m', guar₂ l m m' → B m m')
    (h₁ : CallContract exec B guar₁ calls₁ I₁ post₁)
    (h₂ : CallContract exec A guar₂ calls₂ I₂ post₂) {s s' : Duo C R L₁ L₂ S}
    (hok₁ : CallOk exec B guar₁ I₁ post₁ s.fst s.mem)
    (hok₂ : CallOk exec A guar₂ I₂ post₂ s.snd s.mem) (h : Step exec calls₁ calls₂ s s') :
    (CallOk exec B guar₁ I₁ post₁ s'.fst s'.mem ∧ CallOk exec A guar₂ I₂ post₂ s'.snd s'.mem) ∧
      (Moves guar₁ I₁ post₁ s.fst s.mem s'.fst s'.mem ∧ s'.snd = s.snd ∨
        Moves guar₂ I₂ post₂ s.snd s.mem s'.snd s'.mem ∧ s'.fst = s.fst) := by
  cases h with
  | call₁ hcall =>
    obtain ⟨hm, hok⟩ := h₁.call_moves hok₁ hcall
    exact ⟨⟨hok, hok₂⟩, Or.inl ⟨hm, rfl⟩⟩
  | op₁ =>
    obtain ⟨hg, hm, hok⟩ := hok₁.op_moves hBrefl
    exact ⟨⟨hok, hok₂.stable h₂ hA (hg₁ _ _ _ hg)⟩, Or.inl ⟨hm, rfl⟩⟩
  | call₂ hcall =>
    obtain ⟨hm, hok⟩ := h₂.call_moves hok₂ hcall
    exact ⟨⟨hok₁, hok⟩, Or.inr ⟨hm, rfl⟩⟩
  | op₂ =>
    obtain ⟨hg, hm, hok⟩ := hok₂.op_moves hArefl
    exact ⟨⟨hok₁.stable h₁ hB (hg₂ _ _ _ hg), hok⟩, Or.inr ⟨hm, rfl⟩⟩

end Rule

/-! ### The object -/

variable {A₁ A₂ Q : Type}

/-- Where a party of an atomic object is: between calls, in a call whose operation has not happened
yet, or in one whose operation has. The value is what the party knows, in `done` what it will know
when the call returns. -/
inductive Phase (A : Type) : Type
  | ready (a : A)
  | called (a : A)
  | done (a : A)

/-- What the party knows or will know. -/
def Phase.val {A : Type} : Phase A → A
  | .ready a => a
  | .called a => a
  | .done a => a

/-- The operations of an object with states `Q`, for each of its two parties. -/
structure Object (A₁ A₂ Q : Type) where
  op₁ : A₁ → Q → A₁ → Q → Prop
  op₂ : A₂ → Q → A₂ → Q → Prop

/-- The object and its parties. -/
structure Atomic (A₁ A₂ Q : Type) where
  fst : Phase A₁
  snd : Phase A₂
  obj : Q

/-- One step: a party calls, its operation happens, its call returns. -/
inductive AtomicStep (O : Object A₁ A₂ Q) : Atomic A₁ A₂ Q → Atomic A₁ A₂ Q → Prop
  | call₁ {a : A₁} {t : Phase A₂} {q : Q} : AtomicStep O ⟨.ready a, t, q⟩ ⟨.called a, t, q⟩
  | op₁ {a a' : A₁} {t : Phase A₂} {q q' : Q} (h : O.op₁ a q a' q') :
      AtomicStep O ⟨.called a, t, q⟩ ⟨.done a', t, q'⟩
  | ret₁ {a : A₁} {t : Phase A₂} {q : Q} : AtomicStep O ⟨.done a, t, q⟩ ⟨.ready a, t, q⟩
  | call₂ {a : A₂} {t : Phase A₁} {q : Q} : AtomicStep O ⟨t, .ready a, q⟩ ⟨t, .called a, q⟩
  | op₂ {a a' : A₂} {t : Phase A₁} {q q' : Q} (h : O.op₂ a q a' q') :
      AtomicStep O ⟨t, .called a, q⟩ ⟨t, .done a', q'⟩
  | ret₂ {a : A₂} {t : Phase A₁} {q : Q} : AtomicStep O ⟨t, .done a, q⟩ ⟨t, .ready a, q⟩

/-- A whole call without anything in between. -/
theorem atomic_whole₁ {O : Object A₁ A₂ Q} {a a' : A₁} {t : Phase A₂} {q q' : Q}
    (h : O.op₁ a q a' q') :
    ReflTransGen (AtomicStep O) ⟨.ready a, t, q⟩ ⟨.ready a', t, q'⟩ :=
  .head .call₁ (.head (.op₁ h) (.single .ret₁))

theorem atomic_end₁ {O : Object A₁ A₂ Q} {a a' : A₁} {t : Phase A₂} {q q' : Q}
    (h : O.op₁ a q a' q') :
    ReflTransGen (AtomicStep O) ⟨.called a, t, q⟩ ⟨.ready a', t, q'⟩ :=
  .head (.op₁ h) (.single .ret₁)

theorem atomic_end₂ {O : Object A₁ A₂ Q} {a a' : A₂} {t : Phase A₁} {q q' : Q}
    (h : O.op₂ a q a' q') :
    ReflTransGen (AtomicStep O) ⟨t, .called a, q⟩ ⟨t, .ready a', q'⟩ :=
  .head (.op₂ h) (.single .ret₂)

/-- What a thread sees of an object: its own calls and their results. -/
inductive Shows {A : Type} (view : L → A) : Thread C R L → Phase A → Prop
  | idle (l : L) : Shows view (.idle l) (.ready (view l))
  | called (l : L) (p : Prog C R L) : Shows view (.busy l p) (.called (view l))
  | done (l : L) (p : Prog C R L) (a : A) : Shows view (.busy l p) (.done a)

end ShmIpc.Lib.Linear
