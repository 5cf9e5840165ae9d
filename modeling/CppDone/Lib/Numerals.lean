import Mathlib.Algebra.Group.Nat.Defs
import Mathlib.Data.Char
import Mathlib.Data.List.Lex
import Mathlib.Order.Lattice

/-!
# Decimal numerals of a fixed width

Numbers printed with leading zeros to one width are ordered, as texts, like the numbers. So are
texts put together from such numerals field by field, because the first fields that differ
decide in the text as they do in the record (`append_lt_append_iff`).
-/

set_option autoImplicit false

namespace CppDone

/-! ## The order of texts

The lexicographic order, as far as beginnings of equal length go. -/

/-- Behind beginnings of one length the rest counts only if the beginnings are the same. -/
theorem append_lt_append_iff {α : Type} [LinearOrder α] {xs ys us vs : List α}
    (h : xs.length = ys.length) : xs ++ us < ys ++ vs ↔ xs < ys ∨ xs = ys ∧ us < vs := by
  -- on both beginnings at once, which have one length
  induction xs generalizing ys with
  | nil =>
    obtain rfl : ys = [] := List.length_eq_zero_iff.mp h.symm
    simp
  | cons x xs ih =>
    cases ys with
    | nil => cases h
    | cons y ys =>
      have hlen : xs.length = ys.length := Nat.succ.inj h
      rw [List.cons_append, List.cons_append, List.cons_lt_cons_iff, List.cons_lt_cons_iff,
        ih hlen]
      constructor
      · rintro (hxy | ⟨rfl, hlt | ⟨rfl, hlt⟩⟩)
        · exact Or.inl (Or.inl hxy)
        · exact Or.inl (Or.inr ⟨rfl, hlt⟩)
        · exact Or.inr ⟨rfl, hlt⟩
      · rintro ((hxy | ⟨rfl, hlt⟩) | ⟨heq, hlt⟩)
        · exact Or.inl hxy
        · exact Or.inr ⟨rfl, Or.inl hlt⟩
        · obtain ⟨rfl, rfl⟩ := List.cons.inj heq
          exact Or.inr ⟨rfl, Or.inr ⟨rfl, hlt⟩⟩

/-! ## Numerals

The digits from the last to the first, filled up to a width. Equal widths make the order of the
texts that of the numbers. -/

/-- `%0wd`: the digits of `n`, with zeros in front up to the width `w`. -/
def numeral (w n : Nat) : List Char := (Nat.toDigits 10 n).leftpad w '0'

/-- The last digit stands behind the numeral of the others. -/
theorem numeral_succ {w : Nat} (hw : 0 < w) (n : Nat) :
    numeral (w + 1) n = numeral w (n / 10) ++ [(n % 10).digitChar] := by
  unfold numeral List.leftpad
  rw [Nat.toDigits_eq_if (by decide)]
  split
  · next hlt =>
    obtain ⟨k, rfl⟩ : ∃ k, w = k + 1 := ⟨w - 1, by omega⟩
    rw [Nat.div_eq_of_lt hlt, Nat.mod_eq_of_lt hlt, Nat.toDigits_zero]
    simp [List.replicate_succ']
  · rw [List.length_append, List.length_singleton, Nat.add_sub_add_right, List.append_assoc]

theorem numeral_one {n : Nat} (hn : n < 10) : numeral 1 n = [n.digitChar] := by
  unfold numeral
  rw [Nat.toDigits_of_lt_base hn]
  rfl

theorem length_numeral {w n : Nat} (hw : 0 < w) (hn : n < 10 ^ w) : (numeral w n).length = w := by
  unfold numeral
  rw [List.length_leftpad]
  exact Nat.max_eq_left ((Nat.length_toDigits_le_iff (by decide) hw).mpr hn)

theorem digitChar_lt_iff {c d : Nat} (hc : c < 10) (hd : d < 10) :
    c.digitChar < d.digitChar ↔ c < d := by
  have hall : ∀ c < 10, ∀ d < 10, (c.digitChar < d.digitChar ↔ c < d) := by decide
  exact hall c hc d hd

/-- What keeps the order in both directions keeps things apart. -/
theorem eq_iff_of_lt_iff {α β : Type} [LinearOrder α] [LinearOrder β] {a a' : α} {b b' : β}
    (h : a < a' ↔ b < b') (h' : a' < a ↔ b' < b) : a = a' ↔ b = b' := by
  constructor
  · rintro rfl
    apply le_antisymm
    · exact le_of_not_gt fun hlt => lt_irrefl a (h'.mpr hlt)
    · exact le_of_not_gt fun hlt => lt_irrefl a (h.mpr hlt)
  · rintro rfl
    apply le_antisymm
    · exact le_of_not_gt fun hlt => lt_irrefl b (h'.mp hlt)
    · exact le_of_not_gt fun hlt => lt_irrefl b (h.mp hlt)

theorem lt_iff_digits (n k : Nat) :
    n < k ↔ n / 10 < k / 10 ∨ n / 10 = k / 10 ∧ n % 10 < k % 10 := by
  omega

/-- **Numerals of one width** are ordered like the numbers. -/
theorem numeral_lt_iff {w n k : Nat} (hw : 0 < w) (hn : n < 10 ^ w) (hk : k < 10 ^ w) :
    numeral w n < numeral w k ↔ n < k := by
  induction w, hw using Nat.le_induction generalizing n k with
  | base =>
    rw [numeral_one hn, numeral_one hk, List.cons_lt_cons_iff, digitChar_lt_iff hn hk]
    simp
  | succ w hw ih =>
    have hn' : n / 10 < 10 ^ w := Nat.div_lt_of_lt_mul (by rwa [Nat.mul_comm, ← Nat.pow_succ])
    have hk' : k / 10 < 10 ^ w := Nat.div_lt_of_lt_mul (by rwa [Nat.mul_comm, ← Nat.pow_succ])
    have heq : numeral w (n / 10) = numeral w (k / 10) ↔ n / 10 = k / 10 :=
      eq_iff_of_lt_iff (ih hn' hk') (ih hk' hn')
    rw [numeral_succ hw, numeral_succ hw,
      append_lt_append_iff ((length_numeral hw hn').trans (length_numeral hw hk').symm),
      ih hn' hk', heq, List.cons_lt_cons_iff,
      digitChar_lt_iff (Nat.mod_lt n (by decide)) (Nat.mod_lt k (by decide)), lt_iff_digits n k]
    simp

theorem numeral_inj {w n k : Nat} (hw : 0 < w) (hn : n < 10 ^ w) (hk : k < 10 ^ w) :
    numeral w n = numeral w k ↔ n = k :=
  eq_iff_of_lt_iff (numeral_lt_iff hw hn hk) (numeral_lt_iff hw hk hn)

/-- A field of a record, with the same character behind it in both texts. -/
theorem numeral_append_lt_iff {w n k : Nat} (hw : 0 < w) (hn : n < 10 ^ w) (hk : k < 10 ^ w)
    (c : Char) (us vs : List Char) :
    numeral w n ++ c :: us < numeral w k ++ c :: vs ↔ n < k ∨ n = k ∧ us < vs := by
  rw [append_lt_append_iff ((length_numeral hw hn).trans (length_numeral hw hk).symm),
    numeral_lt_iff hw hn hk, numeral_inj hw hn hk, List.cons_lt_cons_iff]
  simp

end CppDone
