import OsgiManager.Http.RequestHandler

namespace OsgiManager.Http

open OsgiManager.Lib

/-!
# Percent-encoding

What an encoding of a byte string is, and how `url_decode` compares with it.  Every encoding is
decoded to its string.  The converse fails: the stream extraction takes some pairs of characters
for a number that are not two hexadecimal digits.

* `Encodes` — a string and one of its encodings;
* `percent_round_trip` — encodings are decoded;
* `Lax`, `escapes` — the pairs that are accepted without being two digits, and the pairs a
  string has;
* `decodes_strictly_iff` — what is decoded is an encoding, exactly without such pairs.
-/

/-- `enc` writes the bytes of `s` one after the other: as themselves, as a percent sign and two
    hexadecimal digits in either case, or, for a space, as a plus sign. -/
inductive Encodes : Bytes → Bytes → Prop
  | nil : Encodes [] []
  | plain {c : Byte} {s enc : Bytes} (percent : c ≠ '%'.toUInt8) (plus : c ≠ '+'.toUInt8)
      (rest : Encodes s enc) : Encodes (c :: s) (c :: enc)
  | plus {s enc : Bytes} (rest : Encodes s enc) : Encodes (' '.toUInt8 :: s) ('+'.toUInt8 :: enc)
  | escape {a b c : Byte} {high low : Nat} {s enc : Bytes} (first : hexDigit a = some high)
      (second : hexDigit b = some low) (value : c.toNat = 16 * high + low)
      (rest : Encodes s enc) : Encodes (c :: s) ('%'.toUInt8 :: a :: b :: enc)

/-! ### What the extraction accepts -/

/-- Two hexadecimal digits. -/
def TwoDigits (a b : Byte) : Prop := (hexDigit a).isSome ∧ (hexDigit b).isSome

/-- A pair that is accepted without being two digits: a space or a sign before a digit, or a
    digit before another character, unless the two are a base prefix. -/
def Lax (a b : Byte) : Prop :=
  ((isSpace a ∨ a = '-'.toUInt8 ∨ a = '+'.toUInt8) ∧ (hexDigit b).isSome) ∨
    ((hexDigit a).isSome ∧ ¬ (hexDigit b).isSome ∧
      ¬ (a = '0'.toUInt8 ∧ (b = 'x'.toUInt8 ∨ b = 'X'.toUInt8)))

instance (a b : Byte) : Decidable (TwoDigits a b) := inferInstanceAs (Decidable (_ ∧ _))

instance (a b : Byte) : Decidable (Lax a b) := inferInstanceAs (Decidable (_ ∨ _))

/-- A digit is neither a space nor a sign. -/
theorem digit_not_lead : ∀ a : Byte, (hexDigit a).isSome = true →
    isSpace a = false ∧ a ≠ '-'.toUInt8 ∧ a ≠ '+'.toUInt8 := forall_byte (by decide +kernel)

theorem Lax.not_twoDigits {a b : Byte} (h : Lax a b) : ¬ TwoDigits a b := by
  rintro ⟨ha, hb⟩
  obtain ⟨hspace, hminus, hplus⟩ := digit_not_lead a ha
  rcases h with ⟨hlead, _⟩ | ⟨_, hnot, _⟩
  · rcases hlead with h | h | h
    · rw [hspace] at h
      cases h
    · exact hminus h
    · exact hplus h
  · exact hnot hb

/-- Past a space, and past a sign, one character is left to extract. -/
theorem extractHex_lead {a : Byte} (b : Byte)
    (h : isSpace a = true ∨ a = '-'.toUInt8 ∨ a = '+'.toUInt8) :
    (extractHex [a, b]).isSome = (hexDigit b).isSome := by
  have hone : ∀ b : Byte, (extractHex [b]).isSome = (hexDigit b).isSome :=
    forall_byte (by decide +kernel)
  have hminus : ∀ b : Byte, (extractHex ['-'.toUInt8, b]).isSome = (hexDigit b).isSome :=
    forall_byte (by decide +kernel)
  have hplus : ∀ b : Byte, (extractHex ['+'.toUInt8, b]).isSome = (hexDigit b).isSome :=
    forall_byte (by decide +kernel)
  rcases h with h | rfl | rfl
  · rw [← hone b, extractHex, List.dropWhile_cons_of_pos h]
    rfl
  · exact hminus b
  · exact hplus b

/-- Without a space or a sign, the digits are extracted at once. -/
theorem extractHex_of_not_lead {a : Byte} (b : Byte) (hspace : isSpace a = false)
    (hminus : a ≠ '-'.toUInt8) (hplus : a ≠ '+'.toUInt8) :
    extractHex [a, b] = (extractDigits [a, b]).map Int.ofNat := by
  rw [extractHex, List.dropWhile_cons_of_neg (by rw [hspace]; decide)]
  split
  · rename_i rest heq
    exact absurd (List.cons.inj heq).1 hminus
  · rename_i rest heq
    exact absurd (List.cons.inj heq).1 hplus
  · rfl

/-- What is extracted from two digits. -/
theorem extractHex_twoDigits {a b : Byte} {high low : Nat} (ha : hexDigit a = some high)
    (hb : hexDigit b = some low) : extractHex [a, b] = some ((16 * high + low : Nat) : Int) := by
  obtain ⟨hspace, hminus, hplus⟩ := digit_not_lead a (by rw [ha]; rfl)
  have hx : b ≠ 'x'.toUInt8 ∧ b ≠ 'X'.toUInt8 := by
    constructor
    · rintro rfl
      cases hb
    · rintro rfl
      cases hb
  have hdigits : extractDigits [a, b] = some (16 * high + low) := by
    unfold extractDigits
    split
    · rename_i heq
      exact absurd (List.cons.inj (List.cons.inj heq).2).1 hx.1
    · rename_i heq
      exact absurd (List.cons.inj (List.cons.inj heq).2).1 hx.2
    · simp [hexDigits, ha, hb]
  rw [extractHex_of_not_lead b hspace hminus hplus, hdigits]
  rfl

/-- Digits are extracted from every pair that starts with one, except a base prefix. -/
theorem extractDigits_isSome_iff (a b : Byte) : (extractDigits [a, b]).isSome = true ↔
    (hexDigit a).isSome ∧ ¬ (a = '0'.toUInt8 ∧ (b = 'x'.toUInt8 ∨ b = 'X'.toUInt8)) := by
  unfold extractDigits
  split
  · rename_i heq
    obtain ⟨ha, hb, hrest⟩ : a = 48 ∧ b = 120 ∧ [] = _ := by simpa using heq
    subst ha hb hrest
    decide
  · rename_i heq
    obtain ⟨ha, hb, hrest⟩ : a = 48 ∧ b = 88 ∧ [] = _ := by simpa using heq
    subst ha hb hrest
    decide
  · rename_i hx hX
    rw [Option.isSome_map, List.head?_cons, Option.bind_some]
    refine ⟨fun h => ⟨h, ?_⟩, fun h => h.1⟩
    rintro ⟨rfl, rfl | rfl⟩
    · exact hx [] rfl
    · exact hX [] rfl

/-- **The extraction** accepts two digits and the lax pairs. -/
theorem extractHex_isSome_iff (a b : Byte) :
    (extractHex [a, b]).isSome = true ↔ TwoDigits a b ∨ Lax a b := by
  by_cases hlead : isSpace a = true ∨ a = '-'.toUInt8 ∨ a = '+'.toUInt8
  · rw [extractHex_lead b hlead]
    have hdigit : (hexDigit a).isSome = false := by
      rw [Bool.eq_false_iff]
      intro ha
      obtain ⟨hspace, hminus, hplus⟩ := digit_not_lead a ha
      rw [hspace] at hlead
      simp [hminus, hplus] at hlead
    simp [TwoDigits, Lax, hdigit, hlead]
  · obtain ⟨hspace, hminus, hplus⟩ : isSpace a = false ∧ a ≠ '-'.toUInt8 ∧ a ≠ '+'.toUInt8 := by
      simpa only [not_or, Bool.not_eq_true] using hlead
    rw [extractHex_of_not_lead b hspace hminus hplus, Option.isSome_map,
      extractDigits_isSome_iff]
    -- the second of two digits is no base letter
    have hletter : (hexDigit b).isSome = true → ¬ (b = 'x'.toUInt8 ∨ b = 'X'.toUInt8) := by
      rintro h (rfl | rfl)
      · cases h
      · cases h
    constructor
    · rintro ⟨ha, hprefix⟩
      by_cases hb : (hexDigit b).isSome = true
      · exact .inl ⟨ha, hb⟩
      · exact .inr (.inr ⟨ha, hb, hprefix⟩)
    · rintro (⟨ha, hb⟩ | ⟨h, _⟩ | ⟨ha, _, hprefix⟩)
      · exact ⟨ha, fun h => hletter hb h.2⟩
      · exact absurd h hlead
      · exact ⟨ha, hprefix⟩

/-! ### The loop -/

/-- The pairs of characters after the percent signs that the loop takes for escapes; `none` when
    one of them has fewer than two characters after it. -/
def escapes : Bytes → Option (List (Byte × Byte))
  | [] => some []
  | 37 :: a :: b :: rest => (escapes rest).map ((a, b) :: ·)
  | 37 :: _   => none
  | _ :: rest => escapes rest

/-- Every pair is accepted, and one of them only by laxity. -/
def LaxlyAccepted (s : Bytes) : Prop :=
  ∃ pairs, escapes s = some pairs ∧ (∀ p ∈ pairs, TwoDigits p.1 p.2 ∨ Lax p.1 p.2) ∧
    ∃ p ∈ pairs, Lax p.1 p.2

theorem urlDecode_plain {c : Byte} (percent : c ≠ '%'.toUInt8) (plus : c ≠ '+'.toUInt8)
    (rest : Bytes) : urlDecode (c :: rest) = (urlDecode rest).map (c :: ·) := by
  rw [urlDecode]
  · exact fun _ _ _ h _ => percent h
  · exact percent
  · exact plus

theorem escapes_plain {c : Byte} (percent : c ≠ '%'.toUInt8) (rest : Bytes) :
    escapes (c :: rest) = escapes rest := by
  rw [escapes]
  · exact fun _ _ _ h _ => percent h
  · exact percent

theorem urlDecode_escape {a b : Byte} {value : Int} (h : extractHex [a, b] = some value)
    (rest : Bytes) : urlDecode ('%'.toUInt8 :: a :: b :: rest) =
      (urlDecode rest).map (UInt8.ofInt value :: ·) := by
  show urlDecode (37 :: a :: b :: rest) = _
  rw [urlDecode, h]

/-- The characters of a string one by one, as the loop goes over them. -/
theorem bytes_cases {P : Bytes → Prop} (nil : P [])
    (escape : ∀ a b rest, P rest → P ('%'.toUInt8 :: a :: b :: rest))
    (short : ∀ rest, rest.length < 2 → P ('%'.toUInt8 :: rest))
    (plus : ∀ rest, P rest → P ('+'.toUInt8 :: rest))
    (plain : ∀ c rest, c ≠ '%'.toUInt8 → c ≠ '+'.toUInt8 → P rest → P (c :: rest)) : ∀ s, P s := by
  intro s
  induction s using escapes.induct with
  | case1 => exact nil
  | case2 a b rest ih => exact escape a b rest ih
  | case3 rest hshort =>
    refine short rest ?_
    rcases rest with _ | ⟨a, _ | ⟨b, rest⟩⟩
    · exact Nat.zero_lt_two
    · exact Nat.one_lt_two
    · exact absurd rfl (hshort a b rest)
  | case4 c rest _ hc ih =>
    by_cases hplus : c = '+'.toUInt8
    · rw [hplus]
      exact plus rest ih
    · exact plain c rest hc hplus ih

theorem urlDecode_short {rest : Bytes} (h : rest.length < 2) :
    urlDecode ('%'.toUInt8 :: rest) = none := by
  rcases rest with _ | ⟨a, _ | ⟨b, rest⟩⟩
  · rfl
  · rfl
  · simp only [List.length_cons] at h
    omega

theorem escapes_short {rest : Bytes} (h : rest.length < 2) :
    escapes ('%'.toUInt8 :: rest) = none := by
  rcases rest with _ | ⟨a, _ | ⟨b, rest⟩⟩
  · rfl
  · rfl
  · simp only [List.length_cons] at h
    omega

/-- A string is decoded when every percent sign has an accepted pair after it. -/
theorem urlDecode_isSome_iff (s : Bytes) : (urlDecode s).isSome = true ↔
    ∃ pairs, escapes s = some pairs ∧ ∀ p ∈ pairs, TwoDigits p.1 p.2 ∨ Lax p.1 p.2 := by
  induction s using bytes_cases with
  | nil => exact ⟨fun _ => ⟨[], rfl, fun p hp => absurd hp List.not_mem_nil⟩, fun _ => rfl⟩
  | escape a b rest ih =>
    have hesc : escapes ('%'.toUInt8 :: a :: b :: rest) = (escapes rest).map ((a, b) :: ·) := rfl
    rw [hesc]
    cases hval : extractHex [a, b] with
    | some value =>
      have hpair : TwoDigits a b ∨ Lax a b := (extractHex_isSome_iff a b).mp (by rw [hval]; rfl)
      rw [urlDecode_escape hval, Option.isSome_map, ih]
      constructor
      · rintro ⟨pairs, hpairs, hall⟩
        refine ⟨(a, b) :: pairs, by rw [hpairs]; rfl, ?_⟩
        exact List.forall_mem_cons.mpr ⟨hpair, hall⟩
      · rintro ⟨pairs, hpairs, hall⟩
        obtain ⟨pairs', hrest, rfl⟩ := Option.map_eq_some_iff.mp hpairs
        exact ⟨pairs', hrest, (List.forall_mem_cons.mp hall).2⟩
    | none =>
      have hdec : urlDecode ('%'.toUInt8 :: a :: b :: rest) = none := by
        show urlDecode (37 :: a :: b :: rest) = _
        rw [urlDecode, hval]
      rw [hdec]
      refine ⟨fun h => absurd h (by decide), ?_⟩
      rintro ⟨pairs, hpairs, hall⟩
      obtain ⟨pairs', _, rfl⟩ := Option.map_eq_some_iff.mp hpairs
      have hpair := (extractHex_isSome_iff a b).mpr (List.forall_mem_cons.mp hall).1
      rw [hval] at hpair
      exact absurd hpair (by decide)
  | short rest hlen =>
    rw [urlDecode_short hlen, escapes_short hlen]
    refine ⟨fun h => absurd h (by decide), ?_⟩
    rintro ⟨pairs, hpairs, _⟩
    cases hpairs
  | plus rest ih =>
    have hdec : urlDecode ('+'.toUInt8 :: rest) = (urlDecode rest).map (' '.toUInt8 :: ·) := rfl
    rw [hdec, Option.isSome_map, escapes_plain (by decide), ih]
  | plain c rest hpercent hplus ih =>
    rw [urlDecode_plain hpercent hplus, Option.isSome_map, escapes_plain hpercent, ih]

/-- In an encoding, all pairs are two digits. -/
theorem Encodes.escapes_twoDigits {s enc : Bytes} (h : Encodes s enc) :
    ∃ pairs, escapes enc = some pairs ∧ ∀ p ∈ pairs, TwoDigits p.1 p.2 := by
  induction h with
  | nil => exact ⟨[], rfl, fun p hp => absurd hp List.not_mem_nil⟩
  | plain percent _ _ ih => rwa [escapes_plain percent]
  | plus _ ih => rwa [escapes_plain (by decide)]
  | @escape a b c high low s enc first second _ _ ih =>
    obtain ⟨pairs, hpairs, hall⟩ := ih
    have hesc : escapes ('%'.toUInt8 :: a :: b :: enc) = (escapes enc).map ((a, b) :: ·) := rfl
    refine ⟨(a, b) :: pairs, by rw [hesc, hpairs]; rfl, ?_⟩
    exact List.forall_mem_cons.mpr ⟨⟨by rw [first]; rfl, by rw [second]; rfl⟩, hall⟩

/-- A hexadecimal digit stands for less than 16. -/
theorem hexDigit_lt : ∀ c : Byte, ∀ d ∈ hexDigit c, d < 16 := forall_byte (by decide +kernel)

/-- The cast of the value of two digits to a character keeps it. -/
theorem toNat_ofInt_twoDigits {a b : Byte} {high low : Nat} (ha : hexDigit a = some high)
    (hb : hexDigit b = some low) :
    (UInt8.ofInt ((16 * high + low : Nat) : Int)).toNat = 16 * high + low := by
  have hhigh : high < 16 := hexDigit_lt a high ha
  have hlow : low < 16 := hexDigit_lt b low hb
  rw [UInt8.ofInt, UInt8.toNat_ofNat']
  omega

/-- With two digits in every pair, what is decoded is encoded by the input. -/
theorem encodes_of_twoDigits {s : Bytes} : ∀ {pairs : List (Byte × Byte)} {out : Bytes},
    escapes s = some pairs → (∀ p ∈ pairs, TwoDigits p.1 p.2) → urlDecode s = some out →
    Encodes out s := by
  induction s using bytes_cases with
  | nil =>
    rintro pairs out - - hout
    cases hout
    exact .nil
  | escape a b rest ih =>
    intro pairs out hpairs hall hout
    obtain ⟨pairs', hrest, rfl⟩ := Option.map_eq_some_iff.mp hpairs
    obtain ⟨⟨ha, hb⟩, hall⟩ := List.forall_mem_cons.mp hall
    obtain ⟨high, ha⟩ := Option.isSome_iff_exists.mp ha
    obtain ⟨low, hb⟩ := Option.isSome_iff_exists.mp hb
    rw [urlDecode_escape (extractHex_twoDigits ha hb)] at hout
    obtain ⟨out', hout', rfl⟩ := Option.map_eq_some_iff.mp hout
    exact .escape ha hb (toNat_ofInt_twoDigits ha hb) (ih hrest hall hout')
  | short rest hlen =>
    intro pairs out hpairs
    rw [escapes_short hlen] at hpairs
    cases hpairs
  | plus rest ih =>
    intro pairs out hpairs hall hout
    rw [escapes_plain (by decide)] at hpairs
    obtain ⟨out', hout', rfl⟩ := Option.map_eq_some_iff.mp hout
    exact .plus (ih hpairs hall hout')
  | plain c rest hpercent hplus ih =>
    intro pairs out hpairs hall hout
    rw [escapes_plain hpercent] at hpairs
    rw [urlDecode_plain hpercent hplus] at hout
    obtain ⟨out', hout', rfl⟩ := Option.map_eq_some_iff.mp hout
    exact .plain hpercent hplus (ih hpairs hall hout')

/-! ### Decoding and encoding -/

/-- **Percent-encoding round trip.**  Every encoding of a string is decoded to that string. -/
theorem percent_round_trip {s enc : Bytes} (h : Encodes s enc) : urlDecode enc = some s := by
  induction h with
  | nil => rfl
  | plain percent plus _ ih => rw [urlDecode_plain percent plus, ih, Option.map_some]
  | plus _ ih => exact congrArg (Option.map (' '.toUInt8 :: ·)) ih
  | escape first second value _ ih =>
    rw [urlDecode_escape (extractHex_twoDigits first second), ih, Option.map_some,
      Option.some.injEq, List.cons.injEq]
    refine ⟨?_, rfl⟩
    rw [← UInt8.toNat_inj, toNat_ofInt_twoDigits first second, value]

/-- Bytes 0, 255 and 171, a space in two ways, and escapes that touch each other and the end. -/
theorem percent_round_trip_mixed :
    urlDecode (ofString "a%00%fF+%20%Ab") = some [97, 0, 255, 32, 32, 171] :=
  percent_round_trip (.plain (by decide) (by decide) (.escape rfl rfl rfl (.escape rfl rfl rfl
    (.plus (.escape rfl rfl rfl (.escape rfl rfl rfl .nil))))))

/-- **Strict percent-decoding.**  A string that is decoded is an encoding of the result, with two
    hexadecimal digits after every percent sign, exactly when it is not accepted through a pair
    that only the stream extraction takes for a number. -/
theorem decodes_strictly_iff (s : Bytes) :
    (∀ out, urlDecode s = some out → Encodes out s) ↔ ¬ LaxlyAccepted s := by
  constructor
  · rintro hstrict ⟨pairs, hpairs, hall, p, hp, hlax⟩
    obtain ⟨out, hout⟩ := Option.isSome_iff_exists.mp
      ((urlDecode_isSome_iff s).mpr ⟨pairs, hpairs, hall⟩)
    obtain ⟨pairs', hpairs', hdigits⟩ := (hstrict out hout).escapes_twoDigits
    rw [hpairs, Option.some.injEq] at hpairs'
    rw [← hpairs'] at hdigits
    exact hlax.not_twoDigits (hdigits p hp)
  · intro hlax out hout
    obtain ⟨pairs, hpairs, hall⟩ := (urlDecode_isSome_iff s).mp (by rw [hout]; rfl)
    refine encodes_of_twoDigits hpairs (fun p hp => ?_) hout
    exact (hall p hp).resolve_right fun h => hlax ⟨pairs, hpairs, hall, p, hp, h⟩

/-- A sign before the digit: the escape is accepted, and skipped as a whole. -/
theorem decodes_strictly_sign : urlDecode (ofString "/%+1") = some [47, 1] ∧
    ¬ Encodes [47, 1] (ofString "/%+1") := by
  refine ⟨by decide, fun h => ?_⟩
  obtain ⟨pairs, hpairs, hall⟩ := h.escapes_twoDigits
  cases hpairs
  exact absurd (hall _ List.mem_cons_self) (by decide)

end OsgiManager.Http
