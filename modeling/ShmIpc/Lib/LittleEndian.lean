import Mathlib.Tactic.Ring

/-! # Little-endian words

The bytes of a word, lowest first, and the number of a list of bytes. Both are inverse to each
other, for words of 32 bits (`ofLe_le32`, `le32_ofLe`) and of 16 (`leNat_le16`, `le16_ofLe16`). -/

namespace ShmIpc.Lib.LittleEndian

/-- The bytes of a word. -/
def le32 (n : UInt32) : List UInt8 :=
  [UInt8.ofNat n.toNat, UInt8.ofNat (n.toNat / 256), UInt8.ofNat (n.toNat / 65536),
    UInt8.ofNat (n.toNat / 16777216)]

/-- The number of a list of bytes. -/
def leNat : List UInt8 → ℕ
  | [] => 0
  | b :: l => b.toNat + 256 * leNat l

/-- The word of the first four bytes. -/
def ofLe (l : List UInt8) : UInt32 := UInt32.ofNat (leNat (l.take 4))

@[simp] theorem length_le32 (n : UInt32) : (le32 n).length = 4 := rfl

/-- A word is read back, whatever follows it. -/
theorem ofLe_le32 (n : UInt32) (l : List UInt8) : ofLe (le32 n ++ l) = n := by
  have h := n.toNat_lt
  apply UInt32.toNat_inj.mp
  simp only [ofLe, le32, List.cons_append, List.nil_append, List.take_succ_cons, List.take_zero,
    leNat, UInt8.toNat_ofNat', UInt32.toNat_ofNat']
  omega

/-- Four bytes are those of the word they give. -/
theorem le32_ofLe {l : List UInt8} (h : 4 ≤ l.length) : le32 (ofLe l) ++ l.drop 4 = l := by
  obtain ⟨a, b, c, d, t, rfl⟩ : ∃ a b c d t, l = a :: b :: c :: d :: t := by
    match l, h with
    | a :: b :: c :: d :: t, _ => exact ⟨a, b, c, d, t, rfl⟩
  have ha := a.toNat_lt
  have hb := b.toNat_lt
  have hc := c.toNat_lt
  have hd := d.toNat_lt
  have hn : (ofLe (a :: b :: c :: d :: t)).toNat =
      a.toNat + 256 * (b.toNat + 256 * (c.toNat + 256 * d.toNat)) := by
    simp only [ofLe, List.take_succ_cons, List.take_zero, leNat, UInt32.toNat_ofNat']
    omega
  have e : le32 (ofLe (a :: b :: c :: d :: t)) = [a, b, c, d] := by
    simp only [le32, hn, List.cons.injEq, and_true, ← UInt8.toNat_inj, UInt8.toNat_ofNat']
    omega
  rw [e]
  rfl

/-- The bytes of a 16-bit word. -/
def le16 (n : UInt16) : List UInt8 := [UInt8.ofNat n.toNat, UInt8.ofNat (n.toNat / 256)]

@[simp] theorem length_le16 (n : UInt16) : (le16 n).length = 2 := rfl

theorem leNat_le16 (n : UInt16) : leNat (le16 n) = n.toNat := by
  have h := n.toNat_lt
  simp only [le16, leNat, UInt8.toNat_ofNat']
  omega

/-- The 16-bit word of the first two bytes. -/
def ofLe16 (l : List UInt8) : UInt16 := UInt16.ofNat (leNat (l.take 2))

theorem toNat_ofLe16 (l : List UInt8) : (ofLe16 l).toNat = leNat (l.take 2) := by
  have hlt : leNat (l.take 2) < 65536 := by
    match l with
    | [] => exact Nat.zero_lt_succ _
    | [a] =>
      have ha := a.toNat_lt
      simp only [List.take_succ_cons, List.take_nil, leNat]
      omega
    | a :: b :: t =>
      have ha := a.toNat_lt
      have hb := b.toNat_lt
      simp only [List.take_succ_cons, List.take_zero, leNat]
      omega
  unfold ofLe16
  rw [UInt16.toNat_ofNat', Nat.mod_eq_of_lt hlt]

/-- Two bytes are those of the word they give. -/
theorem le16_ofLe16 {l : List UInt8} (h : 2 ≤ l.length) : le16 (ofLe16 l) ++ l.drop 2 = l := by
  obtain ⟨a, b, t, rfl⟩ : ∃ a b t, l = a :: b :: t := by
    match l, h with
    | a :: b :: t, _ => exact ⟨a, b, t, rfl⟩
  have ha := a.toNat_lt
  have hb := b.toNat_lt
  have hn := toNat_ofLe16 (a :: b :: t)
  simp only [List.take_succ_cons, List.take_zero, leNat] at hn
  have e : le16 (ofLe16 (a :: b :: t)) = [a, b] := by
    simp only [le16, hn, List.cons.injEq, and_true, ← UInt8.toNat_inj, UInt8.toNat_ofNat']
    omega
  rw [e]
  rfl

end ShmIpc.Lib.LittleEndian
