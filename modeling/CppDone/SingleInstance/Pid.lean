import Mathlib.Algebra.Order.Ring.Nat
import Mathlib.Algebra.Ring.Int.Defs
import Mathlib.Data.List.TakeWhile

/-!
# Process ids as text

What `WritePidIntoFd` writes and what `CheckPidFile` makes of what it reads: `sprintf` with `%d`,
and `atol`, whose result goes into a `pid_t`. `atol` skips white space, takes a sign and the
digits that follow, and stays within a `long`; the assignment keeps the low 32 bits.
-/

set_option autoImplicit false

namespace CppDone.SingleInstance

abbrev Bytes := List Char

/-- `sprintf(buf, "%d", pid_)` of a process id. -/
def decimal (pid : Nat) : Bytes := Nat.toDigits 10 pid

def isspace (c : Char) : Bool := c = ' ' || '\t' ≤ c && c ≤ '\r'

/-- The value of the leading digits. -/
def digits (s : Bytes) : Nat := Nat.ofDigitChars 10 (s.takeWhile Char.isDigit) 0

def atol (s : Bytes) : Int :=
  match s.dropWhile isspace with
  | '-' :: s => max (-2 ^ 63) (-(digits s : Int))
  | '+' :: s => min (2 ^ 63 - 1) (digits s)
  | s => min (2 ^ 63 - 1) (digits s)

/-- `pid_t old_pid = atol(buf)`. -/
def oldPid (buf : Bytes) : Int := (atol buf).bmod (2 ^ 32)

/-- The ids a process can have. -/
def IsPid (pid : Nat) : Prop := 0 < pid ∧ pid < 2 ^ 31

instance (pid : Nat) : Decidable (IsPid pid) := inferInstanceAs (Decidable (_ ∧ _))

theorem decimal_ne_nil (pid : Nat) : decimal pid ≠ [] := Nat.toDigits_ne_nil

theorem isDigit_of_mem_decimal {pid : Nat} {c : Char} (h : c ∈ decimal pid) :
    c.isDigit = true :=
  Nat.isDigit_of_mem_toDigits (by decide) (by decide) h

theorem isspace_of_isDigit {c : Char} (h : c.isDigit = true) : isspace c = false := by
  have hdigit : '0'.toNat ≤ c.toNat := by
    simp only [Char.isDigit, Bool.and_eq_true, decide_eq_true_eq] at h
    exact UInt32.le_iff_toNat_le.mp h.1
  have hblank : c ≠ ' ' := by
    rintro rfl
    exact absurd h (by decide)
  have hcontrol : ¬ c ≤ '\r' := by
    intro hle
    have hle' : c.toNat ≤ '\r'.toNat := UInt32.le_iff_toNat_le.mp hle
    have hlt : '\r'.toNat < '0'.toNat := by decide
    omega
  simp [isspace, hblank, hcontrol]

theorem digits_decimal (pid : Nat) : digits (decimal pid) = pid := by
  have hall : (decimal pid).takeWhile Char.isDigit = decimal pid :=
    List.takeWhile_eq_self_iff.mpr fun _ h => isDigit_of_mem_decimal h
  rw [digits, hall]
  exact Nat.ofDigitChars_ten_toDigits

/-- No white space and no sign stands before the digits. -/
theorem atol_decimal {pid : Nat} (h : IsPid pid) : atol (decimal pid) = pid := by
  -- a process id fits into a `long`
  have hvalue : min (2 ^ 63 - 1) (digits (decimal pid) : Int) = pid := by
    rw [digits_decimal]
    have hlt := h.2
    omega
  cases hd : decimal pid with
  | nil => exact absurd hd (decimal_ne_nil pid)
  | cons c s =>
    have hc : c.isDigit = true := isDigit_of_mem_decimal (hd ▸ List.mem_cons_self)
    have hskip : (c :: s).dropWhile isspace = c :: s := by
      rw [List.dropWhile_cons, isspace_of_isDigit hc]
      rfl
    rw [hd] at hvalue
    unfold atol
    rw [hskip]
    split
    · next heq =>
      cases heq
      exact absurd hc (by decide)
    · next heq =>
      cases heq
      exact absurd hc (by decide)
    · exact hvalue

/-- A process id has at most ten digits, and so fits into `kBufLenForPid`. -/
theorem length_decimal_le {pid : Nat} (h : IsPid pid) : (decimal pid).length ≤ 10 := by
  have hlt := h.2
  exact (Nat.length_toDigits_le_iff (by decide) (by decide)).mpr (by omega)

/-! ## Digits behind what is there

What a process id becomes that is written behind other bytes: digits behind a number that runs to
the end make it longer, and digits behind anything else are not reached. -/

/-- What follows a sign. -/
def unsigned : Bytes → Bytes
  | '-' :: s | '+' :: s => s
  | s => s

def negative (s : Bytes) : Bool := (s.dropWhile isspace).head? = some '-'

/-- What follows white space and a sign. -/
def number (s : Bytes) : Bytes := unsigned (s.dropWhile isspace)

theorem atol_eq (s : Bytes) :
    atol s = if negative s then max (-2 ^ 63) (-(digits (number s) : Int))
      else min (2 ^ 63 - 1) (digits (number s)) := by
  unfold atol negative number
  cases s.dropWhile isspace with
  | nil => rfl
  | cons c t =>
    -- by the first character behind the white space
    split
    · next heq =>
      cases heq
      rfl
    · next heq =>
      cases heq
      rfl
    · next hminus hplus =>
      have hne : ¬ (c :: t).head? = some '-' := by
        rintro heq
        obtain rfl := Option.some.inj heq
        exact hminus t rfl
      have hsame : unsigned (c :: t) = c :: t := by
        unfold unsigned
        split
        · next heq => exact absurd heq (hminus _)
        · next heq => exact absurd heq (hplus _)
        · rfl
      rw [decide_eq_false hne, hsame]
      rfl

section Append

variable {s e : Bytes} (he : e.all Char.isDigit = true)

include he

theorem dropWhile_isspace_append :
    (s ++ e).dropWhile isspace = s.dropWhile isspace ++ e := by
  rw [List.dropWhile_append]
  split
  · next hnil =>
    rw [List.isEmpty_iff.mp hnil, List.nil_append]
    cases e with
    | nil => rfl
    | cons c e =>
      have hc := List.all_eq_true.mp he c List.mem_cons_self
      rw [List.dropWhile_cons, isspace_of_isDigit hc]
      rfl
  · rfl

/-! ### Behind a number

White space and a sign are in front of the number, so digits that are added at the end come behind
it. They are read with it if it is digits to its end, and otherwise not at all. -/

theorem number_append : number (s ++ e) = number s ++ e := by
  rw [number, number, dropWhile_isspace_append he]
  generalize s.dropWhile isspace = t
  -- the appended bytes come behind the digits, if there is anything before them
  cases t with
  | cons c t =>
    rw [List.cons_append]
    unfold unsigned
    split
    · next heq =>
      cases heq
      rfl
    · next heq =>
      cases heq
      rfl
    · next hminus hplus =>
      split
      · next heq =>
        cases heq
        exact absurd rfl (hminus _)
      · next heq =>
        cases heq
        exact absurd rfl (hplus _)
      · rfl
  | nil =>
    rw [List.nil_append]
    show unsigned e = e
    unfold unsigned
    split
    · cases List.all_eq_true.mp he '-' List.mem_cons_self
    · cases List.all_eq_true.mp he '+' List.mem_cons_self
    · rfl

theorem negative_append : negative (s ++ e) = negative s := by
  rw [negative, negative, dropWhile_isspace_append he]
  cases s.dropWhile isspace with
  | cons c t => rfl
  | nil =>
    cases e with
    | nil => rfl
    | cons c e =>
      have hne : ¬ some c = some '-' := by
        intro hc
        obtain rfl := Option.some.inj hc
        cases List.all_eq_true.mp he '-' List.mem_cons_self
      exact decide_eq_false hne

/-- Digits behind digits are read with them. -/
theorem digits_append_of_all (hs : s.all Char.isDigit = true) :
    digits (s ++ e) = Nat.ofDigitChars 10 (s ++ e) 0 := by
  have hall : (s ++ e).takeWhile Char.isDigit = s ++ e := by
    refine List.takeWhile_eq_self_iff.mpr fun c hc => ?_
    rcases List.mem_append.mp hc with hc | hc
    · exact List.all_eq_true.mp hs c hc
    · exact List.all_eq_true.mp he c hc
  rw [digits, hall]

omit he in
/-- Digits behind anything else are not read. -/
theorem digits_append_of_not_all (hs : s.all Char.isDigit = false) :
    digits (s ++ e) = digits s := by
  have hshort : (s.takeWhile Char.isDigit).length ≠ s.length := by
    intro hlen
    have hself := (List.takeWhile_prefix Char.isDigit).eq_of_length hlen
    have hall : s.all Char.isDigit = true :=
      List.all_eq_true.mpr (List.takeWhile_eq_self_iff.mp hself)
    rw [hall] at hs
    cases hs
  rw [digits, digits, List.takeWhile_append, if_neg hshort]

end Append

/-- What `oldPid` makes of a number: beyond a `long` no process id comes out. -/
theorem oldPid_eq_iff {s : Bytes} {pid : Nat} (h : IsPid pid) :
    oldPid s = pid ↔ digits (number s) < 2 ^ 63 ∧
      ((if negative s then -(digits (number s) : Int) else digits (number s)) - pid) % 2 ^ 32 =
        0 := by
  obtain ⟨hpos, hlt⟩ := h
  rw [oldPid, atol_eq]
  generalize digits (number s) = n
  cases negative s with
  | true =>
    simp only [if_true, Int.bmod]
    omega
  | false =>
    simp only [Bool.false_eq_true, if_false, Int.bmod]
    omega

/-- **A process id reads back as it was written.** -/
theorem oldPid_decimal {pid : Nat} (h : IsPid pid) : oldPid (decimal pid) = pid := by
  have hlt := h.2
  rw [oldPid, atol_decimal h, Int.bmod_eq_of_le] <;> omega

end CppDone.SingleInstance
