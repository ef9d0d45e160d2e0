import OsgiManager.Lib.Json
import OsgiManager.Lib.Response
import Mathlib.Algebra.Ring.Nat

namespace OsgiManager.Lib.Decimal

/-!
# Decimal numbers

The decimal digits of a natural number, cut into groups.

* `text`, `digits` — a number without leading zeros, and its last digits with them;
* `text_mul_add`, `text_append_digits` — a number with more digits after it;
* `text_eq_four` — up to four digits, each of which is there only if the number reaches it;
* `value_text`, `intText_text` — what a text stands for, and that it is the integer part of a
  JSON number.
-/

/-- A digit. -/
def digit (d : Nat) : Byte := (Nat.digitChar d).toUInt8

/-- A number. -/
def text (n : Nat) : Bytes := (Nat.toDigits 10 n).map Char.toUInt8

/-- The last `w` digits of a number. -/
def digits : Nat → Nat → Bytes
  | 0, _     => []
  | w + 1, n => digits w (n / 10) ++ [digit (n % 10)]

/-- The number that some digits write after those of `n`. -/
def valueFrom (n : Nat) (ds : Bytes) : Nat := ds.foldl Response.naturalStep n

/-- The number that some digits write. -/
def value (ds : Bytes) : Nat := valueFrom 0 ds

variable {n m w : Nat}

theorem text_of_lt (h : n < 10) : text n = [digit n] := by
  rw [text, Nat.toDigits_of_lt_base h]
  rfl

theorem text_of_le (h : 10 ≤ n) : text n = text (n / 10) ++ [digit (n % 10)] := by
  rw [text, Nat.toDigits_of_base_le (by decide) h, List.map_append]
  rfl

/-- More digits after a number that is not zero. -/
theorem text_mul_add (hn : 0 < n) (hm : m < 10 ^ w) :
    text (n * 10 ^ w + m) = text n ++ digits w m := by
  induction w generalizing m with
  | zero =>
    obtain rfl : m = 0 := by simpa using hm
    rw [digits, List.append_nil, Nat.pow_zero, Nat.mul_one, Nat.add_zero]
  | succ w ih =>
    rw [Nat.pow_succ] at hm
    have hpos : 0 < 10 ^ w := Nat.pow_pos (by decide)
    have hle : 10 ^ w ≤ n * 10 ^ w := Nat.le_mul_of_pos_left _ hn
    have hdiv : (n * 10 ^ (w + 1) + m) / 10 = n * 10 ^ w + m / 10 := by
      rw [Nat.pow_succ, ← Nat.mul_assoc]
      omega
    have hmod : (n * 10 ^ (w + 1) + m) % 10 = m % 10 := by
      rw [Nat.pow_succ, ← Nat.mul_assoc]
      omega
    rw [text_of_le (by rw [Nat.pow_succ, ← Nat.mul_assoc]; omega), hdiv, hmod, ih (by omega),
      digits, List.append_assoc]

/-- The last digits, in two groups. -/
theorem digits_add (v w n : Nat) : digits (v + w) n = digits v (n / 10 ^ w) ++ digits w n := by
  induction w generalizing n with
  | zero => rw [digits, List.append_nil, Nat.add_zero, Nat.pow_zero, Nat.div_one]
  | succ w ih =>
    rw [← Nat.add_assoc, digits, ih, digits, Nat.pow_succ, Nat.mul_comm, Nat.div_div_eq_div_mul,
      List.append_assoc]

/-- The last digits do not depend on the others. -/
theorem digits_mod (w n : Nat) : digits w (n % 10 ^ w) = digits w n := by
  induction w generalizing n with
  | zero => rfl
  | succ w ih =>
    have hdiv : n % 10 ^ (w + 1) / 10 = n / 10 % 10 ^ w := by
      rw [Nat.pow_succ, Nat.mul_comm, Nat.mod_mul_right_div_self]
    have hmod : n % 10 ^ (w + 1) % 10 = n % 10 := by
      rw [Nat.pow_succ, Nat.mul_comm, Nat.mod_mul_right_mod]
    rw [digits, hdiv, hmod, ih, digits]

/-- Twice as many digits. -/
theorem digits_append (w n : Nat) :
    digits w (n / 10 ^ w) ++ digits w (n % 10 ^ w) = digits (w + w) n := by
  rw [digits_add w w n, digits_mod]

/-- A number, cut before its last digits. -/
theorem text_append_digits (w : Nat) (h : 10 ^ w ≤ n) :
    text (n / 10 ^ w) ++ digits w (n % 10 ^ w) = text n := by
  have hpos : 0 < 10 ^ w := Nat.pow_pos (by decide)
  rw [← text_mul_add (Nat.div_pos h hpos) (Nat.mod_lt n hpos), Nat.div_add_mod']

/-- Four digits, two and two. -/
theorem digits_four (h : n < 10000) : digits 4 n =
    [digit (n / 100 / 10), digit (n / 100 % 10), digit (n % 100 / 10), digit (n % 100 % 10)] := by
  have hfirst : n / 10 / 10 / 10 % 10 = n / 100 / 10 := by omega
  have hsecond : n / 10 / 10 % 10 = n / 100 % 10 := by omega
  have hthird : n / 10 % 10 = n % 100 / 10 := by omega
  have hfourth : n % 10 = n % 100 % 10 := by omega
  simp only [digits, hfirst, hsecond, hthird, ← hfourth, List.nil_append, List.cons_append]

/-- A number of at most four digits: each but the last is there only if the number reaches it. -/
theorem text_eq_four (h : n < 10000) : text n =
    (if n ≥ 1000 then [digit (n / 100 / 10)] else []) ++
      ((if n ≥ 100 then [digit (n / 100 % 10)] else []) ++
        ((if n ≥ 10 then [digit (n % 100 / 10)] else []) ++ [digit (n % 100 % 10)])) := by
  have hlast : n % 10 = n % 100 % 10 := by omega
  have hsecond : n / 10 % 10 = n % 100 / 10 := by omega
  have hthird : n / 10 / 10 = n / 100 := Nat.div_div_eq_div_mul n 10 10
  rcases lt_or_ge n 10 with h1 | h1
  · rw [text_of_lt h1, if_neg (by omega), if_neg (by omega), if_neg (by omega), ← hlast,
      Nat.mod_eq_of_lt h1]
    rfl
  rw [text_of_le h1, if_pos h1, hlast]
  rcases lt_or_ge n 100 with h2 | h2
  · rw [text_of_lt (by omega), if_neg (by omega), if_neg (by omega), ← hsecond,
      Nat.mod_eq_of_lt (show n / 10 < 10 by omega)]
    rfl
  rw [text_of_le (show 10 ≤ n / 10 by omega), if_pos h2, hsecond, hthird]
  rcases lt_or_ge n 1000 with h3 | h3
  · rw [text_of_lt (by omega), if_neg (by omega), Nat.mod_eq_of_lt (show n / 100 < 10 by omega)]
    rfl
  · rw [text_of_le (show 10 ≤ n / 100 by omega), text_of_lt (by omega), if_pos h3]
    simp only [List.append_assoc]

/-! ### What a text stands for -/

theorem value_text (n : Nat) : value (text n) = n := (Response.toDigits_spec n).2

theorem isDigit_of_mem_text {b : Byte} (hb : b ∈ text n) : Json.isDigit b = true :=
  List.all_eq_true.mp (Response.toDigits_spec n).1 b hb

theorem digit_spec {d : Nat} (h : d < 10) : Json.isDigit (digit d) = true ∧
    (0 < d → '1'.toUInt8 ≤ digit d ∧ digit d ≤ '9'.toUInt8) := by
  have key : ∀ d < 10, Json.isDigit (digit d) = true ∧
      (0 < d → '1'.toUInt8 ≤ digit d ∧ digit d ≤ '9'.toUInt8) := by decide
  exact key d h

/-- The first digit of a number is no zero. -/
theorem intText_text (n : Nat) : Json.IntText (text n) := by
  rcases Nat.eq_zero_or_pos n with rfl | hn
  · exact .inl rfl
  refine .inr ?_
  induction n using Nat.strong_induction_on with
  | _ n ih =>
    rcases lt_or_ge n 10 with h | h
    · exact ⟨digit n, [], text_of_lt h, (digit_spec h).2 hn, by simp⟩
    · obtain ⟨d, ds, heq, hd, hds⟩ := ih (n / 10) (by omega) (by omega)
      refine ⟨d, ds ++ [digit (n % 10)], by rw [text_of_le h, heq, List.cons_append], hd, ?_⟩
      intro b hb
      rcases List.mem_append.mp hb with hb | hb
      · exact hds b hb
      · rw [List.mem_singleton.mp hb]
        exact (digit_spec (Nat.mod_lt n (by decide))).1

end OsgiManager.Lib.Decimal
