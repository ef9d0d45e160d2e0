import OsgiManager.Rapidjson.Strings

namespace OsgiManager.Rapidjson

open OsgiManager.Lib

/-!
# Reading numbers

`ParseNumber` takes the longest number in front of a stream.  What it takes is always the text
of a number; and it takes the whole of a number that is followed by nothing that could be a
part of one (`Stops`), as the numbers of a JSON text are.
-/

/-- The stream goes on with nothing that could be a part of a number. -/
structure Stops (r : Bytes) : Prop where
  digit : Json.isDigit (peek r) = false
  point : peek r ≠ '.'.toUInt8
  exp : peek r ≠ 'e'.toUInt8 ∧ peek r ≠ 'E'.toUInt8

/-! ### Digits -/

theorem takeDigits_append {ds r : Bytes} (hds : ∀ b ∈ ds, Json.isDigit b = true)
    (hr : Json.isDigit (peek r) = false) : takeDigits (ds ++ r) = (ds, r) := by
  have hstop : r.takeWhile Json.isDigit = [] ∧ r.dropWhile Json.isDigit = r := by
    cases r with
    | nil => exact ⟨rfl, rfl⟩
    | cons b r =>
      have hb : Json.isDigit b = false := hr
      simp [hb]
  rw [takeDigits, List.takeWhile_append_of_pos hds, List.dropWhile_append_of_pos hds, hstop.1,
    hstop.2, List.append_nil]

theorem takeDigits_spec (s : Bytes) :
    s = (takeDigits s).1 ++ (takeDigits s).2 ∧ ∀ b ∈ (takeDigits s).1, Json.isDigit b = true :=
  ⟨List.takeWhile_append_dropWhile.symm, fun _ hb => List.mem_takeWhile_imp hb⟩

/-- Digits that start with one. -/
theorem digits_takeDigits {s : Bytes} (h : Json.isDigit (peek s) = true) :
    Json.Digits (takeDigits s).1 := by
  refine ⟨?_, (takeDigits_spec s).2⟩
  cases s with
  | nil => exact absurd h (by decide)
  | cons b s =>
    have hb : Json.isDigit b = true := h
    rw [takeDigits, List.takeWhile_cons, if_pos hb]
    exact List.cons_ne_nil _ _

theorem isDigit_of_nonzero {b : Byte} (h : '1'.toUInt8 ≤ b ∧ b ≤ '9'.toUInt8) :
    Json.isDigit b = true := by
  have hle : '0'.toUInt8 ≤ b := UInt8.le_trans (by decide) h.1
  simp [Json.isDigit, hle, h.2]

/-- A digit is looked at only where there is one. -/
theorem eq_cons_of_digit {s : Bytes} (h : Json.isDigit (peek s) = true) : s = peek s :: s.tail :=
  eq_cons_of_peek rfl fun h0 => by
    rw [h0] at h
    exact absurd h (by decide)

/-! ### The parts of a number -/

theorem parseInt_append {t r : Bytes} (h : Json.IntText t) (hr : Json.isDigit (peek r) = false) :
    parseInt (t ++ r) = some (t, r) := by
  rcases h with rfl | ⟨d, ds, rfl, hd, hds⟩
  · rfl
  · have hzero : d ≠ '0'.toUInt8 := by
      rintro rfl
      exact absurd hd.1 (by decide)
    rw [parseInt, List.cons_append, peek_cons, if_neg hzero, if_pos hd, List.tail_cons,
      takeDigits_append hds hr]

theorem parseInt_sound {s t r : Bytes} (h : parseInt s = some (t, r)) :
    s = t ++ r ∧ Json.IntText t := by
  rw [parseInt] at h
  split_ifs at h with hzero hd
  · cases h
    rw [hzero]
    exact ⟨eq_cons_of_peek hzero (by decide), .inl rfl⟩
  · cases h
    obtain ⟨hcut, hdigits⟩ := takeDigits_spec s.tail
    refine ⟨?_, .inr ⟨_, _, rfl, hd, hdigits⟩⟩
    rw [List.cons_append, ← hcut]
    exact eq_cons_of_digit (isDigit_of_nonzero hd)

theorem parseFrac_append {t r : Bytes} (h : Json.FracText t) (hr : Json.isDigit (peek r) = false)
    (hpoint : peek r ≠ '.'.toUInt8) : parseFrac (t ++ r) = some (t, r) := by
  rcases h with rfl | ⟨ds, rfl, hne, hds⟩
  · rw [List.nil_append, parseFrac, if_neg hpoint]
  · have hfirst : Json.isDigit (peek (ds ++ r)) = true := by
      obtain ⟨d, ds', rfl⟩ := List.exists_cons_of_ne_nil hne
      exact hds d List.mem_cons_self
    rw [parseFrac, List.cons_append, peek_cons, if_pos rfl, List.tail_cons, if_pos hfirst,
      takeDigits_append hds hr]

theorem parseFrac_sound {s t r : Bytes} (h : parseFrac s = some (t, r)) :
    s = t ++ r ∧ Json.FracText t := by
  rw [parseFrac] at h
  split_ifs at h with hpoint hdigit
  · cases h
    refine ⟨?_, .inr ⟨_, by rw [hpoint], digits_takeDigits hdigit⟩⟩
    rw [List.cons_append, ← (takeDigits_spec s.tail).1]
    exact eq_cons_of_peek rfl (by rw [hpoint]; decide)
  · cases h
    exact ⟨rfl, .inl rfl⟩

theorem parseExpSign_append {sign s : Bytes}
    (h : sign = [] ∨ sign = ['+'.toUInt8] ∨ sign = ['-'.toUInt8])
    (hs : Json.isDigit (peek s) = true) : parseExpSign (sign ++ s) = (sign, s) := by
  rcases h with rfl | rfl | rfl
  · have hnot : ¬ (peek s = '+'.toUInt8 ∨ peek s = '-'.toUInt8) := by
      rintro (h | h) <;> rw [h] at hs <;> exact absurd hs (by decide)
    rw [List.nil_append, parseExpSign, if_neg hnot]
  · rfl
  · rfl

theorem parseExpSign_spec (s : Bytes) : s = (parseExpSign s).1 ++ (parseExpSign s).2 ∧
    ((parseExpSign s).1 = [] ∨ (parseExpSign s).1 = ['+'.toUInt8] ∨
      (parseExpSign s).1 = ['-'.toUInt8]) := by
  rw [parseExpSign]
  split_ifs with h
  · refine ⟨eq_cons_of_peek rfl ?_, .inr ?_⟩
    · rcases h with h | h <;> rw [h] <;> decide
    · exact h.imp (by rintro h; rw [h]) (by rintro h; rw [h])
  · exact ⟨rfl, .inl rfl⟩

theorem parseExp_append {t r : Bytes} (h : Json.ExpText t) (hr : Json.isDigit (peek r) = false)
    (hexp : peek r ≠ 'e'.toUInt8 ∧ peek r ≠ 'E'.toUInt8) : parseExp (t ++ r) = some (t, r) := by
  rcases h with rfl | ⟨e, sign, ds, rfl, he, hsign, hne, hds⟩
  · rw [List.nil_append, parseExp, if_neg fun h => h.elim hexp.1 hexp.2]
  · have hfirst : Json.isDigit (peek (ds ++ r)) = true := by
      obtain ⟨d, ds', rfl⟩ := List.exists_cons_of_ne_nil hne
      exact hds d List.mem_cons_self
    rw [parseExp, List.cons_append, peek_cons, if_pos he, List.tail_cons, List.append_assoc,
      parseExpSign_append hsign hfirst]
    rw [if_pos hfirst, takeDigits_append hds hr]

theorem parseExp_sound {s t r : Bytes} (h : parseExp s = some (t, r)) :
    s = t ++ r ∧ Json.ExpText t := by
  rw [parseExp] at h
  split_ifs at h with he hdigit
  · cases h
    obtain ⟨hcut, hsign⟩ := parseExpSign_spec s.tail
    refine ⟨?_, .inr ⟨_, _, _, rfl, he, hsign, digits_takeDigits hdigit⟩⟩
    rw [List.cons_append, List.append_assoc, ← (takeDigits_spec (parseExpSign s.tail).2).1, ← hcut]
    exact eq_cons_of_peek rfl (by rcases he with h | h <;> rw [h] <;> decide)
  · cases h
    exact ⟨rfl, .inl rfl⟩

theorem parseMinus_append {sign s : Bytes} (h : sign = [] ∨ sign = ['-'.toUInt8])
    (hs : peek s ≠ '-'.toUInt8) : parseMinus (sign ++ s) = (sign, s) := by
  rcases h with rfl | rfl
  · rw [List.nil_append, parseMinus, if_neg hs]
  · rfl

theorem parseMinus_spec (s : Bytes) : s = (parseMinus s).1 ++ (parseMinus s).2 ∧
    ((parseMinus s).1 = [] ∨ (parseMinus s).1 = ['-'.toUInt8]) := by
  rw [parseMinus]
  split_ifs with h
  · refine ⟨eq_cons_of_peek rfl (by rw [h]; decide), .inr ?_⟩
    rw [h]
  · exact ⟨rfl, .inl rfl⟩

/-! ### The whole number -/

theorem peek_intText {t : Bytes} (h : Json.IntText t) (r : Bytes) :
    Json.isDigit (peek (t ++ r)) = true := by
  rcases h with rfl | ⟨d, ds, rfl, hd, -⟩
  · rfl
  · exact isDigit_of_nonzero hd

/-- After the integer part, nothing starts with a digit; after the fraction, with a point. -/
theorem stops_exp {t r : Bytes} (h : Json.ExpText t) (hr : Stops r) :
    Json.isDigit (peek (t ++ r)) = false ∧ peek (t ++ r) ≠ '.'.toUInt8 := by
  rcases h with rfl | ⟨e, sign, ds, rfl, rfl | rfl, -⟩
  · exact ⟨hr.digit, hr.point⟩
  · rw [List.cons_append, peek_cons]
    decide
  · rw [List.cons_append, peek_cons]
    decide

theorem stops_frac {t s : Bytes} (h : Json.FracText t) (hs : Json.isDigit (peek s) = false) :
    Json.isDigit (peek (t ++ s)) = false := by
  rcases h with rfl | ⟨ds, rfl, -⟩
  · exact hs
  · rfl

/-- A number starts with a digit or a minus, and with no other character. -/
theorem peek_numberText {t : Bytes} (h : Json.NumberText t) (r : Bytes) {c : Byte}
    (hc : Json.isDigit c = false ∧ c ≠ '-'.toUInt8) : peek (t ++ r) ≠ c := by
  rintro rfl
  obtain ⟨sign, int, frac, exp, rfl, rfl | rfl, hint, -⟩ := h
  · rw [List.nil_append, List.append_assoc, peek_intText hint _] at hc
    exact absurd hc.1 (by decide)
  · exact hc.2 rfl

/-- **Numbers, read.**  A number that is followed by no part of one is read as a whole. -/
theorem parseNumber_append {tooBig : Bytes → Bool} {t r : Bytes} (h : Json.NumberText t)
    (hfits : tooBig t = false) (hr : Stops r) :
    parseNumber tooBig (t ++ r) = some (.number t, r) := by
  obtain ⟨sign, int, frac, exp, rfl, hsign, hint, hfrac, hexp⟩ := h
  obtain ⟨hdigit, hpoint⟩ := stops_exp hexp hr
  have hminus : peek (int ++ (frac ++ (exp ++ r))) ≠ '-'.toUInt8 := by
    intro h
    have := peek_intText hint (frac ++ (exp ++ r))
    rw [h] at this
    exact absurd this (by decide)
  rw [List.append_assoc, List.append_assoc, List.append_assoc, parseNumber,
    parseMinus_append hsign hminus, parseInt_append hint (stops_frac hfrac hdigit),
    Option.bind_some, parseFrac_append hfrac hdigit hpoint, Option.bind_some,
    parseExp_append hexp hr.digit hr.exp, Option.bind_some]
  exact if_neg (by rw [hfits]; exact Bool.false_ne_true)

/-- **Numbers, only.**  What is read is a number. -/
theorem parseNumber_sound {tooBig : Bytes → Bool} {is r : Bytes} {j : Json}
    (h : parseNumber tooBig is = some (j, r)) :
    ∃ t, is = t ++ r ∧ j = .number t ∧ Json.NumberText t ∧ tooBig t = false := by
  rw [parseNumber] at h
  obtain ⟨hcut, hsign⟩ := parseMinus_spec is
  obtain ⟨⟨int, s₁⟩, hint, h₁⟩ := Option.bind_eq_some_iff.mp h
  obtain ⟨⟨frac, s₂⟩, hfrac, h₂⟩ := Option.bind_eq_some_iff.mp h₁
  obtain ⟨⟨exp, s₃⟩, hexp, h₃⟩ := Option.bind_eq_some_iff.mp h₂
  obtain ⟨hcut₁, hintText⟩ := parseInt_sound hint
  obtain ⟨hcut₂, hfracText⟩ := parseFrac_sound hfrac
  obtain ⟨hcut₃, hexpText⟩ := parseExp_sound hexp
  simp only at h₃ hcut₂ hcut₃
  split_ifs at h₃ with hbig
  cases h₃
  refine ⟨_, ?_, rfl, ⟨_, _, _, _, rfl, hsign, hintText, hfracText, hexpText⟩, by simpa using hbig⟩
  calc is = (parseMinus is).1 ++ (parseMinus is).2 := hcut
    _ = (parseMinus is).1 ++ (int ++ (frac ++ exp)) ++ r := by
      rw [hcut₁, hcut₂, hcut₃]
      simp only [List.append_assoc]

end OsgiManager.Rapidjson
