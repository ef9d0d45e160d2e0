import OsgiManager.Lib.Decimal

namespace OsgiManager.Rapidjson

open OsgiManager.Lib

/-!
# Integers to text

`internal/itoa.h` writes an integer two digits at a time, from a table of all pairs, and leaves
out the digits in front that the value does not reach.  Its arithmetic never wraps, so it is done
here on natural numbers.

* `u32toa`, `u64toa` — the functions for unsigned values, branch by branch;
* `i32toa`, `i64toa` — those for signed ones;
* `u32toa_eq`, `u64toa_eq` — what is written is the decimal number.
-/

/-- `GetDigitsLut`. -/
def digitsLut : Bytes :=
  ofString "00010203040506070809101112131415161718192021222324" ++
    ofString "25262728293031323334353637383940414243444546474849" ++
    ofString "50515253545556575859606162636465666768697071727374" ++
    ofString "75767778798081828384858687888990919293949596979899"

/-- `cDigitsLut[i]`. -/
def cDigitsLut (i : Nat) : Byte := digitsLut.getD i 0

/-- `u32toa`. -/
def u32toa (value : Nat) : Bytes :=
  if value < 10000 then
    let d1 := (value / 100) <<< 1
    let d2 := (value % 100) <<< 1
    (if value ≥ 1000 then [cDigitsLut d1] else []) ++
      ((if value ≥ 100 then [cDigitsLut (d1 + 1)] else []) ++
        ((if value ≥ 10 then [cDigitsLut d2] else []) ++ [cDigitsLut (d2 + 1)]))
  else if value < 100000000 then
    -- value = bbbbcccc
    let b := value / 10000
    let c := value % 10000
    let d1 := (b / 100) <<< 1
    let d2 := (b % 100) <<< 1
    let d3 := (c / 100) <<< 1
    let d4 := (c % 100) <<< 1
    (if value ≥ 10000000 then [cDigitsLut d1] else []) ++
      ((if value ≥ 1000000 then [cDigitsLut (d1 + 1)] else []) ++
        ((if value ≥ 100000 then [cDigitsLut d2] else []) ++ [cDigitsLut (d2 + 1)])) ++
      [cDigitsLut d3, cDigitsLut (d3 + 1), cDigitsLut d4, cDigitsLut (d4 + 1)]
  else
    -- value = aabbbbcccc in decimal
    let a := value / 100000000
    let rest := value % 100000000
    let i := a <<< 1
    let b := rest / 10000
    let c := rest % 10000
    let d1 := (b / 100) <<< 1
    let d2 := (b % 100) <<< 1
    let d3 := (c / 100) <<< 1
    let d4 := (c % 100) <<< 1
    (if a ≥ 10 then [cDigitsLut i, cDigitsLut (i + 1)] else [.ofNat ('0'.toNat + a)]) ++
      ([cDigitsLut d1, cDigitsLut (d1 + 1), cDigitsLut d2, cDigitsLut (d2 + 1)] ++
        [cDigitsLut d3, cDigitsLut (d3 + 1), cDigitsLut d4, cDigitsLut (d4 + 1)])

/-- `i32toa`. -/
def i32toa (value : BitVec 32) : Bytes :=
  if value.toInt < 0 then '-'.toUInt8 :: u32toa (~~~value + 1).toNat else u32toa value.toNat

/-- `u64toa`. -/
def u64toa (value : Nat) : Bytes :=
  if value < 100000000 then
    if value < 10000 then
      let d1 := (value / 100) <<< 1
      let d2 := (value % 100) <<< 1
      (if value ≥ 1000 then [cDigitsLut d1] else []) ++
        ((if value ≥ 100 then [cDigitsLut (d1 + 1)] else []) ++
          ((if value ≥ 10 then [cDigitsLut d2] else []) ++ [cDigitsLut (d2 + 1)]))
    else
      -- value = bbbbcccc
      let b := value / 10000
      let c := value % 10000
      let d1 := (b / 100) <<< 1
      let d2 := (b % 100) <<< 1
      let d3 := (c / 100) <<< 1
      let d4 := (c % 100) <<< 1
      (if value ≥ 10000000 then [cDigitsLut d1] else []) ++
        ((if value ≥ 1000000 then [cDigitsLut (d1 + 1)] else []) ++
          ((if value ≥ 100000 then [cDigitsLut d2] else []) ++ [cDigitsLut (d2 + 1)])) ++
        [cDigitsLut d3, cDigitsLut (d3 + 1), cDigitsLut d4, cDigitsLut (d4 + 1)]
  else if value < 10000000000000000 then
    let v0 := value / 100000000
    let v1 := value % 100000000
    let b0 := v0 / 10000
    let c0 := v0 % 10000
    let d1 := (b0 / 100) <<< 1
    let d2 := (b0 % 100) <<< 1
    let d3 := (c0 / 100) <<< 1
    let d4 := (c0 % 100) <<< 1
    let b1 := v1 / 10000
    let c1 := v1 % 10000
    let d5 := (b1 / 100) <<< 1
    let d6 := (b1 % 100) <<< 1
    let d7 := (c1 / 100) <<< 1
    let d8 := (c1 % 100) <<< 1
    (if value ≥ 1000000000000000 then [cDigitsLut d1] else []) ++
      ((if value ≥ 100000000000000 then [cDigitsLut (d1 + 1)] else []) ++
        ((if value ≥ 10000000000000 then [cDigitsLut d2] else []) ++
          (if value ≥ 1000000000000 then [cDigitsLut (d2 + 1)] else []))) ++
      ((if value ≥ 100000000000 then [cDigitsLut d3] else []) ++
        ((if value ≥ 10000000000 then [cDigitsLut (d3 + 1)] else []) ++
          ((if value ≥ 1000000000 then [cDigitsLut d4] else []) ++
            (if value ≥ 100000000 then [cDigitsLut (d4 + 1)] else [])))) ++
      ([cDigitsLut d5, cDigitsLut (d5 + 1), cDigitsLut d6, cDigitsLut (d6 + 1)] ++
        [cDigitsLut d7, cDigitsLut (d7 + 1), cDigitsLut d8, cDigitsLut (d8 + 1)])
  else
    let a := value / 10000000000000000
    let rest := value % 10000000000000000
    let v0 := rest / 100000000
    let v1 := rest % 100000000
    let b0 := v0 / 10000
    let c0 := v0 % 10000
    let d1 := (b0 / 100) <<< 1
    let d2 := (b0 % 100) <<< 1
    let d3 := (c0 / 100) <<< 1
    let d4 := (c0 % 100) <<< 1
    let b1 := v1 / 10000
    let c1 := v1 % 10000
    let d5 := (b1 / 100) <<< 1
    let d6 := (b1 % 100) <<< 1
    let d7 := (c1 / 100) <<< 1
    let d8 := (c1 % 100) <<< 1
    (if a < 10 then [.ofNat ('0'.toNat + a)]
      else if a < 100 then
        let i := a <<< 1
        [cDigitsLut i, cDigitsLut (i + 1)]
      else if a < 1000 then
        let i := (a % 100) <<< 1
        [.ofNat ('0'.toNat + a / 100), cDigitsLut i, cDigitsLut (i + 1)]
      else
        let i := (a / 100) <<< 1
        let j := (a % 100) <<< 1
        [cDigitsLut i, cDigitsLut (i + 1), cDigitsLut j, cDigitsLut (j + 1)]) ++
      (([cDigitsLut d1, cDigitsLut (d1 + 1), cDigitsLut d2, cDigitsLut (d2 + 1)] ++
        [cDigitsLut d3, cDigitsLut (d3 + 1), cDigitsLut d4, cDigitsLut (d4 + 1)]) ++
        ([cDigitsLut d5, cDigitsLut (d5 + 1), cDigitsLut d6, cDigitsLut (d6 + 1)] ++
        [cDigitsLut d7, cDigitsLut (d7 + 1), cDigitsLut d8, cDigitsLut (d8 + 1)]))

/-- `i64toa`. -/
def i64toa (value : BitVec 64) : Bytes :=
  if value.toInt < 0 then '-'.toUInt8 :: u64toa (~~~value + 1).toNat else u64toa value.toNat

/-! ### What is written -/

open Decimal (digit digits text)

/-- The table holds the two digits of each number below a hundred. -/
theorem cDigitsLut_pair {k : Nat} (h : k < 100) :
    cDigitsLut (k <<< 1) = digit (k / 10) ∧ cDigitsLut (k <<< 1 + 1) = digit (k % 10) := by
  have key : ∀ k < 100, cDigitsLut (k <<< 1) = digit (k / 10) ∧
      cDigitsLut (k <<< 1 + 1) = digit (k % 10) := by decide +kernel
  exact key k h

theorem ofNat_digit {d : Nat} (h : d < 10) : UInt8.ofNat ('0'.toNat + d) = digit d := by
  have key : ∀ d < 10, UInt8.ofNat ('0'.toNat + d) = digit d := by decide
  exact key d h

/-- Two pairs are four digits. -/
theorem pairs_eq {n : Nat} (h : n < 10000) :
    [cDigitsLut ((n / 100) <<< 1), cDigitsLut ((n / 100) <<< 1 + 1),
      cDigitsLut ((n % 100) <<< 1), cDigitsLut ((n % 100) <<< 1 + 1)] = digits 4 n := by
  obtain ⟨h₁, h₂⟩ := cDigitsLut_pair (show n / 100 < 100 by omega)
  obtain ⟨h₃, h₄⟩ := cDigitsLut_pair (show n % 100 < 100 by omega)
  rw [h₁, h₂, h₃, h₄, Decimal.digits_four h]

/-- The digits in front that the number reaches. -/
theorem leading_eq {n : Nat} (h : n < 10000) :
    (if n ≥ 1000 then [cDigitsLut ((n / 100) <<< 1)] else []) ++
      ((if n ≥ 100 then [cDigitsLut ((n / 100) <<< 1 + 1)] else []) ++
        ((if n ≥ 10 then [cDigitsLut ((n % 100) <<< 1)] else []) ++
          [cDigitsLut ((n % 100) <<< 1 + 1)])) = text n := by
  obtain ⟨h₁, h₂⟩ := cDigitsLut_pair (show n / 100 < 100 by omega)
  obtain ⟨h₃, h₄⟩ := cDigitsLut_pair (show n % 100 < 100 by omega)
  rw [h₁, h₂, h₃, h₄, Decimal.text_eq_four h]

/-- Eight digits, four and four. -/
theorem eight_eq {n : Nat} (h : n < 100000000) :
    [cDigitsLut ((n / 10000 / 100) <<< 1), cDigitsLut ((n / 10000 / 100) <<< 1 + 1),
        cDigitsLut ((n / 10000 % 100) <<< 1), cDigitsLut ((n / 10000 % 100) <<< 1 + 1)] ++
      [cDigitsLut ((n % 10000 / 100) <<< 1), cDigitsLut ((n % 10000 / 100) <<< 1 + 1),
        cDigitsLut ((n % 10000 % 100) <<< 1), cDigitsLut ((n % 10000 % 100) <<< 1 + 1)] =
      digits 8 n := by
  rw [pairs_eq (show n / 10000 < 10000 by omega), pairs_eq (show n % 10000 < 10000 by omega)]
  exact Decimal.digits_append 4 n

/-- Five to eight digits: those in front are tested against the whole value. -/
theorem grouped_eq {n : Nat} (h : 10000 ≤ n) (hn : n < 100000000) :
    (if n ≥ 10000000 then [cDigitsLut ((n / 10000 / 100) <<< 1)] else []) ++
      ((if n ≥ 1000000 then [cDigitsLut ((n / 10000 / 100) <<< 1 + 1)] else []) ++
        ((if n ≥ 100000 then [cDigitsLut ((n / 10000 % 100) <<< 1)] else []) ++
          [cDigitsLut ((n / 10000 % 100) <<< 1 + 1)])) ++
      [cDigitsLut ((n % 10000 / 100) <<< 1), cDigitsLut ((n % 10000 / 100) <<< 1 + 1),
        cDigitsLut ((n % 10000 % 100) <<< 1), cDigitsLut ((n % 10000 % 100) <<< 1 + 1)] =
      text n := by
  have h₁ : n ≥ 10000000 ↔ n / 10000 ≥ 1000 := by omega
  have h₂ : n ≥ 1000000 ↔ n / 10000 ≥ 100 := by omega
  have h₃ : n ≥ 100000 ↔ n / 10000 ≥ 10 := by omega
  simp only [h₁, h₂, h₃]
  rw [leading_eq (show n / 10000 < 10000 by omega), pairs_eq (show n % 10000 < 10000 by omega)]
  exact Decimal.text_append_digits 4 h

/-- The one or two digits in front of eight others. -/
theorem front_eq {a : Nat} (h : a < 100) :
    (if a ≥ 10 then [cDigitsLut (a <<< 1), cDigitsLut (a <<< 1 + 1)]
      else [UInt8.ofNat ('0'.toNat + a)]) = text a := by
  obtain ⟨h₁, h₂⟩ := cDigitsLut_pair h
  rw [h₁, h₂]
  split_ifs with ha
  · rw [Decimal.text_of_le ha, Decimal.text_of_lt (by omega)]
    rfl
  · rw [ofNat_digit (by omega), Decimal.text_of_lt (by omega)]

/-- **The 32 bit function.** -/
theorem u32toa_eq {value : Nat} (h : value < 10000000000) : u32toa value = text value := by
  rw [u32toa]
  by_cases h4 : value < 10000
  · rw [if_pos h4]
    exact leading_eq h4
  rw [if_neg h4]
  by_cases h8 : value < 100000000
  · rw [if_pos h8]
    exact grouped_eq (by omega) h8
  · rw [if_neg h8]
    have hfront := front_eq (show value / 100000000 < 100 by omega)
    have htail := eight_eq (show value % 100000000 < 100000000 by omega)
    exact (congrArg₂ (· ++ ·) hfront htail).trans (Decimal.text_append_digits 8 (by omega))

/-- One to four digits in front of sixteen others. -/
theorem front4_eq {a : Nat} (h : a < 10000) :
    (if a < 10 then [UInt8.ofNat ('0'.toNat + a)]
      else if a < 100 then [cDigitsLut (a <<< 1), cDigitsLut (a <<< 1 + 1)]
      else if a < 1000 then [UInt8.ofNat ('0'.toNat + a / 100), cDigitsLut ((a % 100) <<< 1),
        cDigitsLut ((a % 100) <<< 1 + 1)]
      else [cDigitsLut ((a / 100) <<< 1), cDigitsLut ((a / 100) <<< 1 + 1),
        cDigitsLut ((a % 100) <<< 1), cDigitsLut ((a % 100) <<< 1 + 1)]) = text a := by
  rw [Decimal.text_eq_four h]
  by_cases h1 : a < 10
  · rw [if_pos h1, if_neg (by omega), if_neg (by omega), if_neg (by omega), ofNat_digit h1,
      Nat.mod_eq_of_lt (show a < 100 by omega), Nat.mod_eq_of_lt h1]
    rfl
  rw [if_neg h1, if_pos (show a ≥ 10 by omega)]
  by_cases h2 : a < 100
  · obtain ⟨hfirst, hsecond⟩ := cDigitsLut_pair h2
    rw [if_pos h2, if_neg (by omega), if_neg (by omega), hfirst, hsecond, Nat.mod_eq_of_lt h2]
    rfl
  obtain ⟨h₃, h₄⟩ := cDigitsLut_pair (show a % 100 < 100 by omega)
  rw [if_neg h2, if_pos (show a ≥ 100 by omega), h₃, h₄]
  by_cases h3 : a < 1000
  · rw [if_pos h3, if_neg (by omega), ofNat_digit (by omega),
      Nat.mod_eq_of_lt (show a / 100 < 10 by omega)]
    rfl
  · obtain ⟨h₁, h₂⟩ := cDigitsLut_pair (show a / 100 < 100 by omega)
    rw [if_neg h3, if_pos (by omega), h₁, h₂]
    rfl

/-- Nine to sixteen digits. -/
theorem leading8_eq {n : Nat} (h : 100000000 ≤ n) (hn : n < 10000000000000000) :
    (if n ≥ 1000000000000000 then [cDigitsLut ((n / 100000000 / 10000 / 100) <<< 1)] else []) ++
      ((if n ≥ 100000000000000 then [cDigitsLut ((n / 100000000 / 10000 / 100) <<< 1 + 1)]
          else []) ++
        ((if n ≥ 10000000000000 then [cDigitsLut ((n / 100000000 / 10000 % 100) <<< 1)] else []) ++
          (if n ≥ 1000000000000 then [cDigitsLut ((n / 100000000 / 10000 % 100) <<< 1 + 1)]
            else []))) ++
      ((if n ≥ 100000000000 then [cDigitsLut ((n / 100000000 % 10000 / 100) <<< 1)] else []) ++
        ((if n ≥ 10000000000 then [cDigitsLut ((n / 100000000 % 10000 / 100) <<< 1 + 1)]
            else []) ++
          ((if n ≥ 1000000000 then [cDigitsLut ((n / 100000000 % 10000 % 100) <<< 1)] else []) ++
            (if n ≥ 100000000 then [cDigitsLut ((n / 100000000 % 10000 % 100) <<< 1 + 1)]
              else [])))) =
      text (n / 100000000) := by
  rw [if_pos (show n ≥ 100000000 from h)]
  by_cases hfour : n < 1000000000000
  · -- the first four of eight digits are zeros
    have h₁ : n ≥ 100000000000 ↔ n / 100000000 ≥ 1000 := by omega
    have h₂ : n ≥ 10000000000 ↔ n / 100000000 ≥ 100 := by omega
    have h₃ : n ≥ 1000000000 ↔ n / 100000000 ≥ 10 := by omega
    rw [if_neg (by omega), if_neg (by omega), if_neg (by omega), if_neg (by omega),
      Nat.mod_eq_of_lt (show n / 100000000 < 10000 by omega)]
    simp only [h₁, h₂, h₃]
    exact leading_eq (by omega)
  · have h₁ : n ≥ 1000000000000000 ↔ n / 100000000 / 10000 ≥ 1000 := by omega
    have h₂ : n ≥ 100000000000000 ↔ n / 100000000 / 10000 ≥ 100 := by omega
    have h₃ : n ≥ 10000000000000 ↔ n / 100000000 / 10000 ≥ 10 := by omega
    have hfront := leading_eq (show n / 100000000 / 10000 < 10000 by omega)
    have htail := pairs_eq (show n / 100000000 % 10000 < 10000 by omega)
    rw [if_pos (show n ≥ 1000000000000 by omega), if_pos (show n ≥ 100000000000 by omega),
      if_pos (show n ≥ 10000000000 by omega), if_pos (show n ≥ 1000000000 by omega)]
    simp only [h₁, h₂, h₃]
    exact (congrArg₂ (· ++ ·) hfront htail).trans (Decimal.text_append_digits 4 (by omega))

/-- **The 64 bit function.** -/
theorem u64toa_eq {value : Nat} (h : value < 100000000000000000000) :
    u64toa value = text value := by
  rw [u64toa]
  by_cases h8 : value < 100000000
  · rw [if_pos h8]
    by_cases h4 : value < 10000
    · rw [if_pos h4]
      exact leading_eq h4
    · rw [if_neg h4]
      exact grouped_eq (by omega) h8
  rw [if_neg h8]
  by_cases h16 : value < 10000000000000000
  · rw [if_pos h16]
    have hfront := leading8_eq (by omega) h16
    have htail := eight_eq (show value % 100000000 < 100000000 by omega)
    exact (congrArg₂ (· ++ ·) hfront htail).trans (Decimal.text_append_digits 8 (by omega))
  · rw [if_neg h16]
    have hfront := front4_eq (show value / 10000000000000000 < 10000 by omega)
    have hmiddle := eight_eq (show value % 10000000000000000 / 100000000 < 100000000 by omega)
    have htail := eight_eq (show value % 10000000000000000 % 100000000 < 100000000 by omega)
    have hsixteen := (congrArg₂ (· ++ ·) hmiddle htail).trans (Decimal.digits_append 8 _)
    exact (congrArg₂ (· ++ ·) hfront hsixteen).trans (Decimal.text_append_digits 16 (by omega))

end OsgiManager.Rapidjson
