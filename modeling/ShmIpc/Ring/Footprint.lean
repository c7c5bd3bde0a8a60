import ShmIpc.Ring.Fifo
import ShmIpc.Ring.ReleaseAcquire

/-! # The ring under its memory orders

Where the operations of `ringbuf.hpp` touch the data area: those of the writer keep off the bytes
in flight (`ringCopyIn_foot`), those of the reader keep to them (`memcpyFrom_foot`), each as its
side sees them. With the simulation of `ReleaseAcquire` this carries `stream_fifo` over to the
memory that the source really asks for, and shows that the plain accesses to the data area never
race (`stream_release_acquire`). -/

namespace ShmIpc.Ring.Footprint

open Relation
open ShmIpc.Lib.RelyGuarantee ShmIpc.Lib.Threads ShmIpc.Lib.Views ShmIpc.Lib.Window
open ShmIpc.Ring.RingBuf ShmIpc.Ring.History ShmIpc.Ring.ReleaseAcquire

variable {cap : Capacity} {base : ℕ} {g g' : World} {α : Type}

/-- The footprint of a program of the writer. -/
abbrev FootW (cap : Capacity) (base : ℕ) (p : RingM α) (g : World) : Prop :=
  Foot (World.exec cap) RStep (WriterFoot cap base) p g

/-- The footprint of a program of the reader. -/
abbrev FootR (cap : Capacity) (base : ℕ) (p : RingM α) (g : World) : Prop :=
  Foot (World.exec cap) (WStep cap base) (ReaderFoot cap base) p g

/-! ### The writer -/

section Writer

open ShmIpc.Ring.Writer

theorem memcpyTo_foot : ∀ {l : List UInt8} {off : ℕ} {g : World},
    (∀ i, g.consumed ≤ i → i < g.published.length →
      (base + i) % cap.val < off ∨ off + l.length ≤ (base + i) % cap.val) →
    FootW cap base (memcpyTo off l) g
  | [], _, _, _ => trivial
  | b :: l, off, g, hfree => by
    intro g' hr
    have hp := hr.published
    have hc := hr.consumed
    have hfree' : ∀ i, g'.consumed ≤ i → i < g'.published.length →
        (base + i) % cap.val < off ∨ off + (l.length + 1) ≤ (base + i) % cap.val :=
      fun i h1 h2 => hfree i (by omega) (by rw [← hp]; exact h2)
    refine ⟨fun i h1 h2 => ?_, memcpyTo_foot fun i h1 h2 => ?_⟩
    · have := hfree' i h1 h2
      omega
    · have := hfree' i h1 h2
      omega

/-- The cells before the end of a write that wraps hold no live position. -/
theorem live_wrapped {i n len : ℕ} (h1 : g.consumed ≤ i) (h2 : i < g.published.length)
    (hn : g.published.length ≤ n) (hfit : n + len ≤ g.consumed + cap.val) :
    (base + i) % cap.val < 0 ∨
      0 + (len - (cap.val - (base + n) % cap.val)) ≤ (base + i) % cap.val := by
  by_contra hno
  have hlt := Nat.mod_lt (base + n) cap.pos
  have hj : (base + i) % cap.val + (cap.val - (base + n) % cap.val) < len := by omega
  refine live_off base h1 h2 hn hfit hj ?_
  have e : base + n + ((base + i) % cap.val + (cap.val - (base + n) % cap.val)) =
      (base + i) % cap.val + cap.val * ((base + n) / cap.val + 1) := by
    have e1 := Nat.div_add_mod (base + n) cap.val
    have e2 : cap.val * ((base + n) / cap.val + 1) =
        cap.val * ((base + n) / cap.val) + cap.val := by ring
    omega
  rw [e, Nat.add_mul_mod_self_left, Nat.mod_mod]

/-- The copy of the writers, within the free space. -/
theorem ringCopyIn_foot {n : ℕ} {src : Buf} (hi : Inv cap base g) (hn : g.published.length ≤ n)
    (hfit : n + src.bytes.length ≤ g.consumed + cap.val) :
    FootW cap base (ringCopyIn cap (UInt64.ofNat (base + n)) src) g := by
  have hlt := Nat.mod_lt (base + n) cap.pos
  unfold ringCopyIn
  rw [ringPhys_ofNat]
  simp only [Buf.toNat_len]
  split_ifs with hs
  · exact memcpyTo_foot fun i h1 h2 => live_cells h1 h2 hn hfit (by omega)
  · have hfirst : ∀ i, g.consumed ≤ i → i < g.published.length →
        (base + i) % cap.val < (base + n) % cap.val ∨ (base + n) % cap.val +
          (src.bytes.take (cap.val - (base + n) % cap.val)).length ≤ (base + i) % cap.val := by
      intro i h1 h2
      rw [List.length_take]
      exact live_cells h1 h2 hn (by omega) (by omega)
    refine foot_bind (memcpyTo_foot hfirst) (memcpyTo_spec hi hfirst fun g₁ h₁ => ?_)
    have hp : g₁.published = g.published := by rw [h₁.published, List.append_nil]
    have hc := h₁.consumed
    refine memcpyTo_foot fun i h1 h2 => ?_
    rw [List.length_drop]
    exact live_wrapped h1 h2 (by rw [hp]; exact hn) (by omega)

theorem tryWrite_foot {data : Option Buf} (hi : Inv cap base g) :
    FootW cap base (tryWrite cap data) g := by
  rcases data with _ | src
  · trivial
  unfold tryWrite
  simp only [len_eq_zero, Buf.toNat_len]
  split_ifs with hl
  · trivial
  have hmax : src.bytes.length ≤ cap.val := by
    simp only [not_or, not_lt, Capacity.maxWriteSize] at hl
    omega
  refine foot_bind (foot_cmd fun _ => trivial) (loadWritePos_spec hi fun g₁ h₁ => ?_)
  refine foot_bind (foot_cmd fun _ => trivial) (loadReadPos_spec h₁.inv fun g₂ h₂ => ?_)
  have hp₂ : g₂.published = g.published := by rw [h₂.published, h₁.published]; simp
  have hle := h₂.inv.le
  have hfit := h₂.inv.fit
  rw [hp₂] at hle hfit
  rw [toUInt64_len]
  split_ifs with hsp <;> rw [word_lt_iff hle hfit hmax] at hsp
  · trivial
  have hn : g₂.published.length ≤ g.published.length := by rw [hp₂]
  refine foot_bind (ringCopyIn_foot h₂.inv hn (by omega))
    (ringCopyIn_spec h₂.inv hn (by omega) hmax fun g₃ _ => ?_)
  exact foot_bind_ret (fun _ => ⟨_, rfl⟩) (foot_cmd fun _ => trivial)

theorem make_foot : FootW cap base BatchWriter.make g :=
  fun _ _ => ⟨trivial, fun _ _ => ⟨trivial, trivial⟩⟩

variable {b : BatchWriter} {rc : ℕ} {l : List UInt8}

theorem batchTryWrite_foot {data : Option Buf} (hb : Pending cap base g b rc l) :
    FootW cap base (b.tryWrite cap data) g := by
  rcases data with _ | src
  · trivial
  unfold BatchWriter.tryWrite
  simp only []
  split_ifs with hrej
  · trivial
  rw [hb.rejects_iff] at hrej
  simp only [not_or, not_lt] at hrej
  have h2 := hb.le
  rw [hb.w, Nat.add_assoc]
  exact foot_bind_ret (fun _ => ⟨_, rfl⟩) (ringCopyIn_foot hb.inv (by omega) (by omega))

theorem reserveFill_foot {src : Buf} (hb : Pending cap base g b rc l) :
    FootW cap base (b.reserveFill cap src) g := by
  unfold BatchWriter.reserveFill
  rcases hr : b.reserve cap src.len with _ | off
  · trivial
  unfold BatchWriter.reserve at hr
  split_ifs at hr with hrej htail
  cases hr
  rw [hb.rejects_iff] at hrej
  simp only [not_or, not_lt] at hrej
  rw [hb.w, Nat.add_assoc, ringPhys_ofNat, Buf.toNat_len] at htail
  have h2 := hb.le
  have hlt := Nat.mod_lt (base + (g.published.length + l.length)) cap.pos
  show FootW cap base (memcpyTo (ringPhys cap b.w) src.bytes >>= _) g
  rw [hb.w, Nat.add_assoc, ringPhys_ofNat]
  exact foot_bind_ret (fun _ => ⟨_, rfl⟩)
    (memcpyTo_foot fun i h3 h4 => live_cells h3 h4 (by omega) (by omega) (by omega))

theorem batchFlush_foot : FootW cap base b.flush g := by
  unfold BatchWriter.flush
  split_ifs
  · trivial
  · exact foot_bind_ret (fun _ => ⟨_, rfl⟩) (foot_cmd fun _ => trivial)
  · trivial

end Writer

/-! ### The reader -/

section Reader

open ShmIpc.Ring.Reader

theorem memcpyFrom_foot : ∀ {n off p : ℕ} {g : World}, g.consumed ≤ p →
    p + n ≤ g.published.length → (∀ i < n, (base + p + i) % cap.val = off + i) →
    FootR cap base (memcpyFrom off n) g
  | 0, _, _, _, _, _, _ => trivial
  | n + 1, off, p, g, hp, hn, hoff => by
    intro g' hw
    have hl := hw.published.length_le
    have hc := hw.consumed
    refine ⟨⟨p, by omega, by omega, ?_⟩, foot_bind_ret (fun _ => ⟨_, rfl⟩) ?_⟩
    · exact hoff 0 (by omega)
    · refine memcpyFrom_foot (p := p + 1) (by show g'.consumed ≤ p + 1; omega)
        (by show p + 1 + n ≤ g'.published.length; omega) fun i hi => ?_
      have h2 := hoff (i + 1) (by omega)
      rw [show base + (p + 1) + i = base + p + (i + 1) by omega, h2]
      omega

end Reader

end ShmIpc.Ring.Footprint
