import ShmIpc.Lib.Threads

/-! # Threads that see different memories

On real hardware two threads need not agree on what the memory holds: a thread may still see an old
value of what the other one has already changed. Here the memory `G` is anything, and what an access
of a thread returns is a relation. To each thread `G` looks like a memory of the kind its programs
were verified for, its view; the two views may differ.

`views_ok` is the rule for this: if an access does to the thread's own view what it would do to a
memory, after the other one's steps have reached it, and looks to the other view like a step within
the guarantee, then what the contracts of `Lib.Threads` promise holds in the views.

For that one may have to know more of a thread than its guarantee: `Foot F` says that each command
is in `F` at the moment it is issued. -/

namespace ShmIpc.Lib.Views

open Relation
open ShmIpc.Lib.RelyGuarantee ShmIpc.Lib.Threads

variable {C : Type} {R : C → Type} {S G L L₁ L₂ α β : Type}

/-! ### Footprints -/

/-- Whatever the others do within `rely`, each command of the program is in `F` when it is
issued. -/
def Foot (exec : (c : C) → S → R c × S) (rely : S → S → Prop) (F : C → S → Prop) :
    Prog C R α → S → Prop
  | .ret _, _ => True
  | .op c k, s => ∀ s', rely s s' → F c s' ∧ Foot exec rely F (k (exec c s').1) (exec c s').2

section Footprints

variable {exec : (c : C) → S → R c × S} {rely guar : S → S → Prop} {F : C → S → Prop}

theorem foot_cmd {c : C} {s : S} (h : ∀ s, F c s) : Foot exec rely F (Prog.cmd c) s :=
  fun s' _ => ⟨h s', trivial⟩

/-- A composed program: the second part starts where the first one may end. -/
theorem foot_bind {f : α → Prog C R β} : ∀ {p : Prog C R α} {s : S}, Foot exec rely F p s →
    p.wp exec rely guar (fun a s => Foot exec rely F (f a) s) s → Foot exec rely F (p >>= f) s
  | .ret _, _, _, hw => hw
  | .op _ _, _, hp, hw => fun s' hr => ⟨(hp s' hr).1, foot_bind (hp s' hr).2 (hw s' hr).2⟩

/-- Nothing is issued after the first part. -/
theorem foot_bind_ret {f : α → Prog C R β} (hf : ∀ a, ∃ b, f a = .ret b) :
    ∀ {p : Prog C R α} {s : S}, Foot exec rely F p s → Foot exec rely F (p >>= f) s
  | .ret a, s, _ => by
    obtain ⟨b, hb⟩ := hf a
    show Foot exec rely F (f a) s
    rw [hb]
    trivial
  | .op _ _, _, hp => fun s' hr => ⟨(hp s' hr).1, foot_bind_ret hf (hp s' hr).2⟩

/-- The others' steps do not change the footprint. -/
theorem Foot.stable (htrans : ∀ a b c, rely a b → rely b c → rely a c) {s s' : S}
    (hr : rely s s') : ∀ {p : Prog C R α}, Foot exec rely F p s → Foot exec rely F p s'
  | .ret _, _ => trivial
  | .op _ _, hp => fun s'' hr' => hp s'' (htrans _ _ _ hr hr')

end Footprints

/-! ### The rule -/

/-- One step of one thread; `mem₁` and `mem₂` are what the threads' accesses may do. -/
inductive ViewStep (mem₁ mem₂ : (c : C) → G → R c → G → Prop)
    (calls₁ : L₁ → G → Prog C R L₁ → Prop) (calls₂ : L₂ → G → Prog C R L₂ → Prop) :
    Duo C R L₁ L₂ G → Duo C R L₁ L₂ G → Prop
  | call₁ {l : L₁} {t : Thread C R L₂} {m : G} {p : Prog C R L₁} (h : calls₁ l m p) :
      ViewStep mem₁ mem₂ calls₁ calls₂ ⟨.idle l, t, m⟩ ⟨.resume l p, t, m⟩
  | op₁ {l : L₁} {t : Thread C R L₂} {m m' : G} {c : C} {k : R c → Prog C R L₁} {r : R c}
      (h : mem₁ c m r m') :
      ViewStep mem₁ mem₂ calls₁ calls₂ ⟨.busy l (.op c k), t, m⟩ ⟨.resume l (k r), t, m'⟩
  | call₂ {l : L₂} {t : Thread C R L₁} {m : G} {p : Prog C R L₂} (h : calls₂ l m p) :
      ViewStep mem₁ mem₂ calls₁ calls₂ ⟨t, .idle l, m⟩ ⟨t, .resume l p, m⟩
  | op₂ {l : L₂} {t : Thread C R L₁} {m m' : G} {c : C} {k : R c → Prog C R L₂} {r : R c}
      (h : mem₂ c m r m') :
      ViewStep mem₁ mem₂ calls₁ calls₂ ⟨t, .busy l (.op c k), m⟩ ⟨t, .resume l (k r), m'⟩

/-- The rest of a call keeps the footprint, and something is left of it. -/
def ThreadFoot (exec : (c : C) → S → R c × S) (rely : S → S → Prop) (F : C → S → Prop) :
    Thread C R L → S → Prop
  | .idle _, _ => True
  | .busy _ (.ret _), _ => False
  | .busy _ (.op c k), s => Foot exec rely F (.op c k) s

/-- What a thread promises about its view: the contract, and the footprint of each call. -/
structure ViewContract (exec : (c : C) → S → R c × S) (rely guar : S → S → Prop)
    (F : C → S → Prop) (calls : L → S → Prog C R L → Prop) (I J : L → S → Prop) : Prop where
  contract : Contract exec rely guar calls I J
  foot : ∀ {l s p}, I l s → calls l s p → Foot exec rely F p s

section Rule

variable {exec : (c : C) → S → R c × S}

theorem threadFoot_resume {rely : S → S → Prop} {F : C → S → Prop} {l : L} {s : S} :
    ∀ {p : Prog C R L}, Foot exec rely F p s → ThreadFoot exec rely F (.resume l p) s
  | .ret _, _ => trivial
  | .op _ _, hp => hp

theorem threadFoot_rely {rely : S → S → Prop} {F : C → S → Prop}
    (htrans : ∀ a b c, rely a b → rely b c → rely a c) {s s' : S} (hr : rely s s') :
    ∀ {t : Thread C R L}, ThreadFoot exec rely F t s → ThreadFoot exec rely F t s'
  | .idle _, _ => trivial
  | .busy _ (.op _ _), h => Foot.stable htrans hr h

/-- What holds of a thread and its view. -/
structure ViewOk (exec : (c : C) → S → R c × S) (rely guar : S → S → Prop) (F : C → S → Prop)
    (I J : L → S → Prop) (t : Thread C R L) (s : S) : Prop where
  ok : ThreadOk exec rely guar I J t s
  foot : ThreadFoot exec rely F t s

variable {A B : S → S → Prop} {F F₁ F₂ : C → S → Prop}
  {mem mem₁ mem₂ : (c : C) → G → R c → G → Prop}
  {calls : L → S → Prog C R L → Prop} {calls₁ : L₁ → G → Prog C R L₁ → Prop}
  {calls₂ : L₂ → G → Prog C R L₂ → Prop} {views₁ : L₁ → S → Prog C R L₁ → Prop}
  {views₂ : L₂ → S → Prog C R L₂ → Prop} {I J : L → S → Prop} {I₁ J₁ : L₁ → S → Prop}
  {I₂ J₂ : L₂ → S → Prop} {Rel : G → S → S → Prop}

theorem ViewOk.call (hc : ViewContract exec B A F calls I J) {l : L} {s : S} {p : Prog C R L}
    (h : ViewOk exec B A F I J (.idle l) s) (hcall : calls l s p) :
    ViewOk exec B A F I J (.resume l p) s :=
  ⟨threadOk_resume (hc.contract.weak h.ok) (hc.contract.call h.ok hcall),
    threadFoot_resume (hc.foot h.ok hcall)⟩

/-- A command, in a view that the other thread's steps have reached. -/
theorem ViewOk.op (hc : ViewContract exec B A F calls I J)
    (htrans : ∀ a b c, B a b → B b c → B a c) {l : L} {s s' : S} {c : C} {k : R c → Prog C R L}
    (hrefl : ∀ s, B s s) (h : ViewOk exec B A F I J (.busy l (.op c k)) s) (hr : B s s') :
    F c s' ∧ A s' (exec c s').2 ∧
      ViewOk exec B A F I J (.resume l (k (exec c s').1)) (exec c s').2 := by
  have hok := threadOk_rely hc.contract htrans h.ok hr
  obtain ⟨hg, hok'⟩ := threadOk_op hc.contract hrefl hok
  obtain ⟨hF, hfoot⟩ := h.foot s' hr
  exact ⟨hF, hg, hok', threadFoot_resume hfoot⟩

theorem ViewOk.stable (hc : ViewContract exec B A F calls I J)
    (htrans : ∀ a b c, B a b → B b c → B a c) {t : Thread C R L} {s s' : S}
    (h : ViewOk exec B A F I J t s) (hr : B s s') : ViewOk exec B A F I J t s' :=
  ⟨threadOk_rely hc.contract htrans h.ok hr, threadFoot_rely htrans hr h.foot⟩

/-- An access of the thread whose view is `s` while the other one sees `o`. -/
def Simulates (exec : (c : C) → S → R c × S) (rely guar : S → S → Prop) (F : C → S → Prop)
    (mem : (c : C) → G → R c → G → Prop) (Rel : G → S → S → Prop) : Prop :=
  ∀ {c m r m' s o}, Rel m s o → mem c m r m' → ∃ s', rely s s' ∧
    (F c s' → guar s' (exec c s').2 → (exec c s').1 = r ∧
      ∃ o', guar o o' ∧ Rel m' (exec c s').2 o')

/-- **The rule for views.** A call that the memory allows is one that the thread's view allows. -/
theorem views_ok (hArefl : ∀ s, A s s) (hBrefl : ∀ s, B s s)
    (hA : ∀ a b c, A a b → A b c → A a c) (hB : ∀ a b c, B a b → B b c → B a c)
    (h₁ : ViewContract exec B A F₁ views₁ I₁ J₁) (h₂ : ViewContract exec A B F₂ views₂ I₂ J₂)
    (hcalls₁ : ∀ {m v₁ v₂ l p}, Rel m v₁ v₂ → calls₁ l m p → views₁ l v₁ p)
    (hcalls₂ : ∀ {m v₁ v₂ l p}, Rel m v₁ v₂ → calls₂ l m p → views₂ l v₂ p)
    (hsim₁ : Simulates exec B A F₁ mem₁ Rel)
    (hsim₂ : Simulates exec A B F₂ mem₂ fun m s o => Rel m o s) {s s' : Duo C R L₁ L₂ G}
    (hs : ∃ v₁ v₂, Rel s.mem v₁ v₂ ∧ ViewOk exec B A F₁ I₁ J₁ s.fst v₁ ∧
      ViewOk exec A B F₂ I₂ J₂ s.snd v₂)
    (h : ReflTransGen (ViewStep mem₁ mem₂ calls₁ calls₂) s s') :
    ∃ v₁ v₂, Rel s'.mem v₁ v₂ ∧ ViewOk exec B A F₁ I₁ J₁ s'.fst v₁ ∧
      ViewOk exec A B F₂ I₂ J₂ s'.snd v₂ := by
  induction h with
  | refl => exact hs
  | tail _ hstep ih =>
    obtain ⟨v₁, v₂, hrel, hok₁, hok₂⟩ := ih
    cases hstep with
    | call₁ hcall => exact ⟨v₁, v₂, hrel, hok₁.call h₁ (hcalls₁ hrel hcall), hok₂⟩
    | op₁ hmem =>
      obtain ⟨v, hr, hsim⟩ := hsim₁ hrel hmem
      obtain ⟨hF, hg, hok⟩ := hok₁.op h₁ hB hBrefl hr
      obtain ⟨rfl, o', ho, hrel'⟩ := hsim hF hg
      exact ⟨_, o', hrel', hok, hok₂.stable h₂ hA ho⟩
    | call₂ hcall => exact ⟨v₁, v₂, hrel, hok₁, hok₂.call h₂ (hcalls₂ hrel hcall)⟩
    | op₂ hmem =>
      obtain ⟨v, hr, hsim⟩ := hsim₂ hrel hmem
      obtain ⟨hF, hg, hok⟩ := hok₂.op h₂ hA hArefl hr
      obtain ⟨rfl, o', ho, hrel'⟩ := hsim hF hg
      exact ⟨o', _, hrel', hok₁.stable h₁ hB ho, hok⟩

/-- A thread inside a call can go on, if each command in its footprint has an outcome. -/
theorem ViewOk.enabled (hrefl : ∀ s, B s s) {l : L} {p : Prog C R L} {m : G} {s : S}
    (henabled : ∀ c, F c s → ∃ r m', mem c m r m') (h : ViewOk exec B A F I J (.busy l p) s) :
    ∃ c k, p = .op c k ∧ ∃ r m', mem c m r m' := by
  obtain ⟨-, hfoot⟩ := h
  cases p with
  | ret a => exact hfoot.elim
  | op c k => exact ⟨c, k, rfl, henabled c (hfoot s (hrefl s)).1⟩

end Rule

end ShmIpc.Lib.Views
