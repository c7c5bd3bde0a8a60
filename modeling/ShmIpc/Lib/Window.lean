import Mathlib.Data.List.GetD
import Mathlib.Data.List.Range
import Mathlib.Tactic.Ring

/-! # Circular storage

A store of `c` cells holds a stream: position `p` lives in cell `p % c`, so two positions less
than `c` apart never share a cell (`mod_inj`). `slice` reads a run of positions, `blit` writes a
list from a cell on, and `put` writes a list from a position on, wrapping at the end; a `put` is
one or two `blit`s (`blit_eq_put`, `blit_blit_eq_put`), reads back what it wrote (`put_mod`) and
leaves the positions of a window ending at its start alone (`put_mod_of_lt`). -/

namespace ShmIpc.Lib.Window

variable {α : Type}

theorem mod_inj {c a b : ℕ} (h : a % c = b % c) (hab : a ≤ b) (hb : b < a + c) : a = b := by
  have hd : c ∣ b - a := Nat.dvd_of_mod_eq_zero (Nat.sub_mod_eq_zero_of_mod_eq h.symm)
  have h0 : b - a = 0 := Nat.eq_zero_of_dvd_of_lt hd (by omega)
  omega

theorem add_mod_of_lt {c p j : ℕ} (h : p % c + j < c) : (p + j) % c = p % c + j := by
  rw [Nat.add_mod, Nat.mod_eq_of_lt (show j < c by omega), Nat.mod_eq_of_lt h]

/-! ### Reading -/

/-- The `n` positions from `p` on. -/
def slice (c : ℕ) (d : ℕ → α) (p n : ℕ) : List α := (List.range n).map fun i => d ((p + i) % c)

/-- The `n` cells from `o` on. -/
def cells (d : ℕ → α) (o n : ℕ) : List α := (List.range n).map fun i => d (o + i)

@[simp] theorem length_slice (c : ℕ) (d : ℕ → α) (p n : ℕ) : (slice c d p n).length = n := by
  simp [slice]

@[simp] theorem length_cells (d : ℕ → α) (o n : ℕ) : (cells d o n).length = n := by
  simp [cells]

theorem getElem?_slice {c : ℕ} {d : ℕ → α} {p n i : ℕ} (h : i < n) :
    (slice c d p n)[i]? = some (d ((p + i) % c)) := by
  simp [slice, List.getElem?_range h]

theorem slice_add (c : ℕ) (d : ℕ → α) (p m n : ℕ) :
    slice c d p (m + n) = slice c d p m ++ slice c d (p + m) n := by
  simp [slice, List.range_add, Function.comp_def, Nat.add_assoc]

theorem slice_congr {c : ℕ} {d d' : ℕ → α} {p n : ℕ}
    (h : ∀ i < n, d ((p + i) % c) = d' ((p + i) % c)) : slice c d p n = slice c d' p n :=
  List.map_congr_left fun i hi => h i (List.mem_range.mp hi)

/-! ### Writing -/

/-- The list `l` written to the cells from `o` on. -/
def blit (d : ℕ → α) (o : ℕ) (l : List α) : ℕ → α :=
  fun x => if o ≤ x then l.getD (x - o) (d x) else d x

/-- The list `l` written to the positions from `p` on. -/
def put (c : ℕ) (d : ℕ → α) (p : ℕ) (l : List α) : ℕ → α :=
  fun x => if x < c then l.getD ((x + c - p % c) % c) (d x) else d x

theorem blit_nil (d : ℕ → α) (o : ℕ) : blit d o [] = d := by
  funext x; simp [blit]

theorem blit_cons (d : ℕ → α) (o : ℕ) (a : α) (l : List α) :
    blit d o (a :: l) = blit (fun x => if x = o then a else d x) (o + 1) l := by
  funext x
  simp only [blit]
  rcases Nat.lt_trichotomy x o with h | h | h
  · rw [if_neg (by omega), if_neg (by omega), if_neg (by omega)]
  · subst h; simp
  · have e : x - o = (x - (o + 1)) + 1 := by omega
    rw [if_pos (by omega), if_pos (by omega), if_neg (by omega), e, List.getD_cons_succ]

/-- The distance from cell `p % c` to the cell of `p + j`. -/
theorem dist_mod {c p j : ℕ} (hc : 0 < c) (hj : j < c) :
    ((p + j) % c + c - p % c) % c = j := by
  have hlt := Nat.mod_lt p hc
  rw [Nat.add_mod p j c, Nat.mod_eq_of_lt hj]
  rcases Nat.lt_or_ge (p % c + j) c with h | h
  · rw [Nat.mod_eq_of_lt h, show p % c + j + c - p % c = j + c by omega, Nat.add_mod_right,
      Nat.mod_eq_of_lt hj]
  · rw [Nat.mod_eq_sub_mod h, Nat.mod_eq_of_lt (show p % c + j - c < c by omega),
      show p % c + j - c + c - p % c = j by omega, Nat.mod_eq_of_lt hj]

/-- A written position reads back. -/
theorem put_mod {c : ℕ} {d : ℕ → α} {p j : ℕ} {l : List α} (hc : 0 < c) (hj : j < c)
    (hl : j < l.length) : some (put c d p l ((p + j) % c)) = l[j]? := by
  unfold put
  rw [if_pos (Nat.mod_lt _ hc), dist_mod hc hj, List.getD_eq_getElem _ _ hl,
    List.getElem?_eq_getElem hl]

/-- A position out of reach of the write is unchanged. -/
theorem put_mod_of_ge {c : ℕ} {d : ℕ → α} {p j : ℕ} {l : List α} (hc : 0 < c) (hj : j < c)
    (hl : l.length ≤ j) : put c d p l ((p + j) % c) = d ((p + j) % c) := by
  unfold put
  rw [if_pos (Nat.mod_lt _ hc), dist_mod hc hj, List.getD_eq_default _ _ hl]

/-- The window that ends at the start of the write, and does not meet its end, is unchanged. -/
theorem put_mod_of_lt {c : ℕ} {d : ℕ → α} {p q : ℕ} {l : List α} (hc : 0 < c) (hq : q < p)
    (hl : p + l.length ≤ q + c) : put c d p l (q % c) = d (q % c) := by
  have e : q % c = (p + (q + c - p)) % c := by
    rw [show p + (q + c - p) = q + c by omega, Nat.add_mod_right]
  rw [e]
  exact put_mod_of_ge hc (by omega) (by omega)

/-- What was written from `p` on is the slice from `p` on. -/
theorem slice_put {c : ℕ} {d : ℕ → α} {p : ℕ} {l : List α} (hc : 0 < c) (hl : l.length ≤ c) :
    slice c (put c d p l) p l.length = l := by
  refine List.ext_getElem? fun i => ?_
  rcases Nat.lt_or_ge i l.length with h | h
  · rw [getElem?_slice h, put_mod hc (by omega) h]
  · rw [List.getElem?_eq_none (by simpa using h), List.getElem?_eq_none h]

theorem slice_put_of_le {c : ℕ} {d : ℕ → α} {p q n : ℕ} {l : List α} (hc : 0 < c)
    (hq : q + n ≤ p) (hl : p + l.length ≤ q + c) :
    slice c (put c d p l) q n = slice c d q n :=
  slice_congr fun i hi => put_mod_of_lt hc (by omega) (by omega)

/-- One `blit` when the list does not meet the end of the store. -/
theorem blit_eq_put {c : ℕ} {d : ℕ → α} {p : ℕ} {l : List α} (hc : 0 < c)
    (h : p % c + l.length ≤ c) : blit d (p % c) l = put c d p l := by
  have hlt := Nat.mod_lt p hc
  funext x
  unfold blit put
  by_cases hx : x < c
  · rw [if_pos hx]
    by_cases hpx : p % c ≤ x
    · rw [if_pos hpx, show x + c - p % c = x - p % c + c by omega, Nat.add_mod_right,
        Nat.mod_eq_of_lt (show x - p % c < c by omega)]
    · rw [if_neg hpx, Nat.mod_eq_of_lt (show x + c - p % c < c by omega),
        List.getD_eq_default _ _ (by omega)]
  · rw [if_neg hx, if_pos (by omega), List.getD_eq_default _ _ (by omega)]

/-- Two `blit`s when it does. -/
theorem blit_blit_eq_put {c : ℕ} {d : ℕ → α} {p : ℕ} {l : List α} (hc : 0 < c)
    (h : c ≤ p % c + l.length) (hl : l.length ≤ c) :
    blit (blit d (p % c) (l.take (c - p % c))) 0 (l.drop (c - p % c)) = put c d p l := by
  have hlt := Nat.mod_lt p hc
  funext x
  unfold blit put
  simp only [Nat.zero_le, if_true, Nat.sub_zero]
  by_cases hx : x < c
  · rw [if_pos hx]
    by_cases hpx : p % c ≤ x
    · rw [List.getD_eq_default (l.drop _) _ (by simp only [List.length_drop]; omega), if_pos hpx,
        show x + c - p % c = x - p % c + c by omega, Nat.add_mod_right,
        Nat.mod_eq_of_lt (show x - p % c < c by omega), List.getD_eq_getElem?_getD,
        List.getElem?_take_of_lt (by omega), List.getD_eq_getElem?_getD]
    · rw [if_neg hpx, Nat.mod_eq_of_lt (show x + c - p % c < c by omega),
        List.getD_eq_getElem?_getD, List.getElem?_drop, List.getD_eq_getElem?_getD,
        show c - p % c + x = x + c - p % c by omega]
  · rw [if_neg hx, List.getD_eq_default (l.drop _) _ (by simp only [List.length_drop]; omega),
      if_pos (by omega), List.getD_eq_default _ _ (by simp only [List.length_take]; omega)]

end ShmIpc.Lib.Window
