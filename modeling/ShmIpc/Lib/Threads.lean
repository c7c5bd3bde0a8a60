import ShmIpc.Lib.RelyGuarantee

/-! # Two threads on one memory

Each thread is between calls, with a local state, or in the middle of one. Between calls it may
start any call its local state (and the memory, for calls that wait) allows; inside a call one
command is one step, and the step of the last command also ends the call. `duo_ok` is the rule:
if each thread keeps its contract while the other stays within its guarantee, both local
invariants hold in every reachable state. -/

namespace ShmIpc.Lib.Threads

open ShmIpc.Lib.RelyGuarantee

variable {C : Type} {R : C → Type} {S L L₁ L₂ : Type}

/-- A thread: between calls, or inside a call that was started in the local state `l`. -/
inductive Thread (C : Type) (R : C → Type) (L : Type) : Type
  | idle (l : L) : Thread C R L
  | busy (l : L) (p : Prog C R L) : Thread C R L

namespace Thread

/-- The thread whose call goes on with `p`. -/
def resume (l : L) : Prog C R L → Thread C R L
  | .ret l' => .idle l'
  | .op c k => .busy l (.op c k)

/-- The local state, that of the start of the call inside one. -/
def loc : Thread C R L → L
  | .idle l => l
  | .busy l _ => l

end Thread

/-- The memory and the two threads. -/
structure Duo (C : Type) (R : C → Type) (L₁ L₂ S : Type) : Type where
  fst : Thread C R L₁
  snd : Thread C R L₂
  mem : S

variable (exec : (c : C) → S → R c × S)

/-- One step of one thread. -/
inductive Step (calls₁ : L₁ → S → Prog C R L₁ → Prop) (calls₂ : L₂ → S → Prog C R L₂ → Prop) :
    Duo C R L₁ L₂ S → Duo C R L₁ L₂ S → Prop
  | call₁ {l : L₁} {t : Thread C R L₂} {m : S} {p : Prog C R L₁} (h : calls₁ l m p) :
      Step calls₁ calls₂ ⟨.idle l, t, m⟩ ⟨.resume l p, t, m⟩
  | op₁ {l : L₁} {t : Thread C R L₂} {m : S} {c : C} {k : R c → Prog C R L₁} :
      Step calls₁ calls₂ ⟨.busy l (.op c k), t, m⟩
        ⟨.resume l (k (exec c m).1), t, (exec c m).2⟩
  | call₂ {l : L₂} {t : Thread C R L₁} {m : S} {p : Prog C R L₂} (h : calls₂ l m p) :
      Step calls₁ calls₂ ⟨t, .idle l, m⟩ ⟨t, .resume l p, m⟩
  | op₂ {l : L₂} {t : Thread C R L₁} {m : S} {c : C} {k : R c → Prog C R L₂} :
      Step calls₁ calls₂ ⟨t, .busy l (.op c k), m⟩
        ⟨t, .resume l (k (exec c m).1), (exec c m).2⟩

/-- What a thread promises: `I` holds between calls and survives the others' steps, every call
keeps it within `guar`, and `J`, which also holds inside a call, survives everything. -/
structure Contract (rely guar : S → S → Prop) (calls : L → S → Prog C R L → Prop)
    (I J : L → S → Prop) : Prop where
  call : ∀ {l m p}, I l m → calls l m p → p.wp exec rely guar I m
  stable : ∀ {l m m'}, I l m → rely m m' → I l m'
  weak : ∀ {l m}, I l m → J l m
  keepRely : ∀ {l m m'}, J l m → rely m m' → J l m'
  keepGuar : ∀ {l m m'}, J l m → guar m m' → J l m'

/-- The thread is where its contract allows it to be. -/
def ThreadOk (rely guar : S → S → Prop) (I J : L → S → Prop) : Thread C R L → S → Prop
  | .idle l, m => I l m
  | .busy l p, m => J l m ∧ p.wp exec rely guar I m

variable {exec} {rely guar : S → S → Prop} {I J : L → S → Prop}
  {calls : L → S → Prog C R L → Prop}

theorem threadOk_resume {l : L} {m : S} (hJ : J l m) :
    ∀ {p : Prog C R L}, p.wp exec rely guar I m → ThreadOk exec rely guar I J (.resume l p) m
  | .ret _, hp => hp
  | .op _ _, hp => ⟨hJ, hp⟩

/-- Inside a call and between calls, `J` holds. -/
theorem threadOk_loc (hc : Contract exec rely guar calls I J) {t : Thread C R L} {m : S}
    (h : ThreadOk exec rely guar I J t m) : J t.loc m := by
  cases t with
  | idle l => exact hc.weak h
  | busy l p => exact h.1

theorem threadOk_rely (hc : Contract exec rely guar calls I J)
    (htrans : ∀ a b c, rely a b → rely b c → rely a c) {t : Thread C R L} {m m' : S}
    (h : ThreadOk exec rely guar I J t m) (hr : rely m m') :
    ThreadOk exec rely guar I J t m' := by
  cases t with
  | idle l => exact hc.stable h hr
  | busy l p =>
    exact ⟨hc.keepRely h.1 hr, Prog.wp_rely htrans (Q := I) (fun _ _ _ hQ hr => hc.stable hQ hr)
      h.2 hr⟩

/-- A command of a thread that keeps its contract is within the guarantee. -/
theorem threadOk_op (hc : Contract exec rely guar calls I J) (hrefl : ∀ s, rely s s) {l : L}
    {c : C} {k : R c → Prog C R L} {m : S}
    (h : ThreadOk exec rely guar I J (.busy l (.op c k)) m) :
    guar m (exec c m).2 ∧
      ThreadOk exec rely guar I J (.resume l (k (exec c m).1)) (exec c m).2 := by
  obtain ⟨hg, hw⟩ := h.2 m (hrefl m)
  exact ⟨hg, threadOk_resume (hc.keepGuar h.1 hg) hw⟩

/-- **The rule for two threads.** -/
theorem duo_ok {A B : S → S → Prop} {calls₁ : L₁ → S → Prog C R L₁ → Prop}
    {calls₂ : L₂ → S → Prog C R L₂ → Prop} {I₁ J₁ : L₁ → S → Prop} {I₂ J₂ : L₂ → S → Prop}
    (hArefl : ∀ s, A s s) (hBrefl : ∀ s, B s s)
    (hA : ∀ a b c, A a b → A b c → A a c) (hB : ∀ a b c, B a b → B b c → B a c)
    (h₁ : Contract exec B A calls₁ I₁ J₁) (h₂ : Contract exec A B calls₂ I₂ J₂)
    {s s' : Duo C R L₁ L₂ S}
    (hs : ThreadOk exec B A I₁ J₁ s.fst s.mem ∧ ThreadOk exec A B I₂ J₂ s.snd s.mem)
    (h : Relation.ReflTransGen (Step exec calls₁ calls₂) s s') :
    ThreadOk exec B A I₁ J₁ s'.fst s'.mem ∧ ThreadOk exec A B I₂ J₂ s'.snd s'.mem := by
  induction h with
  | refl => exact hs
  | tail _ hstep ih =>
    obtain ⟨ih₁, ih₂⟩ := ih
    cases hstep with
    | call₁ hcall => exact ⟨threadOk_resume (h₁.weak ih₁) (h₁.call ih₁ hcall), ih₂⟩
    | op₁ =>
      obtain ⟨hg, hok⟩ := threadOk_op h₁ hBrefl ih₁
      exact ⟨hok, threadOk_rely h₂ hA ih₂ hg⟩
    | call₂ hcall => exact ⟨ih₁, threadOk_resume (h₂.weak ih₂) (h₂.call ih₂ hcall)⟩
    | op₂ =>
      obtain ⟨hg, hok⟩ := threadOk_op h₂ hArefl ih₂
      exact ⟨threadOk_rely h₁ hB ih₁ hg, hok⟩

/-! ### Calls without interference -/

theorem resume_run₁ {calls₁ : L₁ → S → Prog C R L₁ → Prop} {calls₂ : L₂ → S → Prog C R L₂ → Prop}
    {l : L₁} {t : Thread C R L₂} : ∀ (p : Prog C R L₁) (m : S),
      Relation.ReflTransGen (Step exec calls₁ calls₂) ⟨.resume l p, t, m⟩
        ⟨.idle (p.run exec m).1, t, (p.run exec m).2⟩
  | .ret _, _ => .refl
  | .op c k, m => .head .op₁ (resume_run₁ (k (exec c m).1) (exec c m).2)

theorem resume_run₂ {calls₁ : L₁ → S → Prog C R L₁ → Prop} {calls₂ : L₂ → S → Prog C R L₂ → Prop}
    {l : L₂} {t : Thread C R L₁} : ∀ (p : Prog C R L₂) (m : S),
      Relation.ReflTransGen (Step exec calls₁ calls₂) ⟨t, .resume l p, m⟩
        ⟨t, .idle (p.run exec m).1, (p.run exec m).2⟩
  | .ret _, _ => .refl
  | .op c k, m => .head .op₂ (resume_run₂ (k (exec c m).1) (exec c m).2)

/-- The first thread makes a call and the second one waits. -/
theorem call_run₁ {calls₁ : L₁ → S → Prog C R L₁ → Prop} {calls₂ : L₂ → S → Prog C R L₂ → Prop}
    {l : L₁} {t : Thread C R L₂} {p : Prog C R L₁} {m : S} (h : calls₁ l m p) :
    Relation.ReflTransGen (Step exec calls₁ calls₂) ⟨.idle l, t, m⟩
      ⟨.idle (p.run exec m).1, t, (p.run exec m).2⟩ :=
  .head (.call₁ h) (resume_run₁ p m)

/-- The second thread makes a call and the first one waits. -/
theorem call_run₂ {calls₁ : L₁ → S → Prog C R L₁ → Prop} {calls₂ : L₂ → S → Prog C R L₂ → Prop}
    {l : L₂} {t : Thread C R L₁} {p : Prog C R L₂} {m : S} (h : calls₂ l m p) :
    Relation.ReflTransGen (Step exec calls₁ calls₂) ⟨t, .idle l, m⟩
      ⟨t, .idle (p.run exec m).1, (p.run exec m).2⟩ :=
  .head (.call₂ h) (resume_run₂ p m)

/-- The program and the memory after `n` commands of it. -/
def steps (exec : (c : C) → S → R c × S) {L : Type} : Nat → Prog C R L → S → Prog C R L × S
  | 0, p, m => (p, m)
  | _ + 1, .ret l, m => (.ret l, m)
  | n + 1, .op c k, m => steps exec n (k (exec c m).1) (exec c m).2

theorem resume_steps₁ {calls₁ : L₁ → S → Prog C R L₁ → Prop}
    {calls₂ : L₂ → S → Prog C R L₂ → Prop} {l : L₁} {t : Thread C R L₂} :
    ∀ (n : Nat) (p : Prog C R L₁) (m : S), Relation.ReflTransGen (Step exec calls₁ calls₂)
      ⟨.resume l p, t, m⟩ ⟨.resume l (steps exec n p m).1, t, (steps exec n p m).2⟩
  | 0, _, _ => .refl
  | _ + 1, .ret _, _ => .refl
  | n + 1, .op c k, m => .head .op₁ (resume_steps₁ n (k (exec c m).1) (exec c m).2)

end ShmIpc.Lib.Threads
