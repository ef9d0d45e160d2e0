import OsgiManager.Rapidjson.Reader
import Mathlib.Algebra.Group.Nat.Defs

namespace OsgiManager.Rapidjson

open OsgiManager.Lib

/-!
# Reading strings

`ParseString` reads exactly the texts of strings: what it gives is what the text stands for.

* `encode_eq_utf8` — `UTF8::Encode`, without the bit operations;
* `parseUnicode_append`, `parseUnicode_sound` — the code units and surrogate pairs;
* `stringBody_char`, `char_of_stringBody` — one pass of the loop is one character;
* `parseString_eq_some_iff` — the whole loop.
-/

@[simp] theorem peek_cons (b : Byte) (is : Bytes) : peek (b :: is) = b := rfl

/-- A character that is no zero is looked at only where there is one. -/
theorem eq_cons_of_peek {is : Bytes} {b : Byte} (h : peek is = b) (hb : b ≠ 0) :
    is = b :: is.tail := by
  cases is with
  | nil => exact absurd h.symm hb
  | cons c is => rw [show c = b from h, List.tail_cons]

theorem consume_eq_some_iff {expect : Byte} (hb : expect ≠ 0) {is r : Bytes} :
    consume expect is = some r ↔ is = expect :: r := by
  rw [consume, Option.ite_none_right_eq_some, Option.some.injEq]
  constructor
  · rintro ⟨hpeek, rfl⟩
    exact eq_cons_of_peek hpeek hb
  · rintro rfl
    exact ⟨rfl, rfl⟩

/-! ### Code units -/

theorem hexStep_eq_some_iff {u v : Nat} {is r : Bytes} :
    hexStep (u, is) = some (v, r) ↔ ∃ b h, is = b :: r ∧ Json.hexValue b = some h ∧
      v = u * 16 + h := by
  have hstep : ∀ b r, hexStep (u, b :: r) = (Json.hexValue b).map fun h => (u * 16 + h, r) := by
    intro b r
    unfold hexStep Json.hexValue Json.isDigit
    simp only [peek_cons, List.tail_cons, Nat.shiftLeft_eq, Bool.and_eq_true, decide_eq_true_eq,
      UInt8.le_iff_toNat_le]
    split_ifs with hdigit hupper hlower
    · have h48 : 48 ≤ b.toNat := hdigit.1
      simp only [Option.map_some, Option.some.injEq, Prod.mk.injEq, and_true]
      show u * 16 + b.toNat - 48 = u * 16 + (b.toNat - 48)
      omega
    · have h65 : 65 ≤ b.toNat := hupper.1
      simp only [Option.map_some, Option.some.injEq, Prod.mk.injEq, and_true]
      show u * 16 + b.toNat - 55 = u * 16 + (b.toNat - 55)
      omega
    · have h97 : 97 ≤ b.toNat := hlower.1
      simp only [Option.map_some, Option.some.injEq, Prod.mk.injEq, and_true]
      show u * 16 + b.toNat - 87 = u * 16 + (b.toNat - 87)
      omega
    · rfl
  cases is with
  | nil => simp [show hexStep (u, []) = none from rfl]
  | cons b is =>
    rw [hstep, Option.map_eq_some_iff]
    constructor
    · rintro ⟨h, hb, heq⟩
      cases heq
      exact ⟨b, h, rfl, hb, rfl⟩
    · rintro ⟨b', h, hcons, hb, rfl⟩
      cases hcons
      exact ⟨h, hb, rfl⟩

theorem parseHex4_eq_some_iff {is r : Bytes} {u : Nat} :
    parseHex4 is = some (u, r) ↔ ∃ t, is = t ++ r ∧ Json.Hex4 t u := by
  rw [parseHex4]
  constructor
  · intro h
    obtain ⟨⟨u₃, r₃⟩, h, h₄⟩ := Option.bind_eq_some_iff.mp h
    obtain ⟨⟨u₂, r₂⟩, h, h₃⟩ := Option.bind_eq_some_iff.mp h
    obtain ⟨⟨u₁, r₁⟩, h₁, h₂⟩ := Option.bind_eq_some_iff.mp h
    obtain ⟨a, h, rfl, ha, rfl⟩ := hexStep_eq_some_iff.mp h₁
    obtain ⟨b, i, rfl, hb, rfl⟩ := hexStep_eq_some_iff.mp h₂
    obtain ⟨c, j, rfl, hc, rfl⟩ := hexStep_eq_some_iff.mp h₃
    obtain ⟨d, k, rfl, hd, rfl⟩ := hexStep_eq_some_iff.mp h₄
    refine ⟨[a, b, c, d], rfl, ?_⟩
    rw [Nat.zero_mul, Nat.zero_add]
    exact .mk ha hb hc hd
  · rintro ⟨t, rfl, ht⟩
    cases ht with
    | @mk a b c d h i j k ha hb hc hd =>
      have h₁ : hexStep (0, [a, b, c, d] ++ r) = some (h, b :: c :: d :: r) :=
        hexStep_eq_some_iff.mpr ⟨a, h, rfl, ha, by omega⟩
      have h₂ : hexStep (h, b :: c :: d :: r) = some (h * 16 + i, c :: d :: r) :=
        hexStep_eq_some_iff.mpr ⟨b, i, rfl, hb, rfl⟩
      have h₃ : hexStep (h * 16 + i, c :: d :: r) = some ((h * 16 + i) * 16 + j, d :: r) :=
        hexStep_eq_some_iff.mpr ⟨c, j, rfl, hc, rfl⟩
      rw [h₁, Option.bind_some, h₂, Option.bind_some, h₃, Option.bind_some]
      exact hexStep_eq_some_iff.mpr ⟨d, k, rfl, hd, rfl⟩

theorem hexValue_lt {b : Byte} {h : Nat} (hb : Json.hexValue b = some h) : h < 16 := by
  simp only [Json.hexValue, Json.isDigit, Bool.and_eq_true, decide_eq_true_eq,
    UInt8.le_iff_toNat_le] at hb
  split_ifs at hb with hdigit hupper hlower
  · have h57 : b.toNat ≤ 57 := hdigit.2
    rw [Option.some.injEq] at hb
    omega
  · have h70 : b.toNat ≤ 70 := hupper.2
    rw [Option.some.injEq] at hb
    omega
  · have h102 : b.toNat ≤ 102 := hlower.2
    rw [Option.some.injEq] at hb
    omega

theorem hex4_lt {t : Bytes} {u : Nat} (h : Json.Hex4 t u) : u < 0x10000 := by
  cases h with
  | mk ha hb hc hd =>
    have := hexValue_lt ha
    have := hexValue_lt hb
    have := hexValue_lt hc
    have := hexValue_lt hd
    omega

/-- Low bits beside high ones: the bitwise or is a sum. -/
theorem or_low {b : Nat} (i a : Nat) (hb : b < 2 ^ i) : 2 ^ i * a ||| b = 2 ^ i * a + b :=
  (Nat.two_pow_add_eq_or_of_lt hb a).symm

/-- `UTF8::Encode` gives the bytes of a code point. -/
theorem encode_eq_utf8 {u : Nat} (h : u < 0x110000) : encode u = Json.utf8 u := by
  have hlow : ∀ n, n &&& 0x3F = n % 64 := fun n => Nat.and_two_pow_sub_one_eq_mod n 6
  have hbyte : ∀ n, n &&& 0xFF = n % 256 := fun n => Nat.and_two_pow_sub_one_eq_mod n 8
  have htail : ∀ n, 0x80 ||| n % 64 = 0x80 + n % 64 := fun n =>
    or_low 6 2 (Nat.mod_lt n (by decide))
  have h64 : u >>> 6 = u / 64 := Nat.shiftRight_eq_div_pow u 6
  have h4096 : u >>> 12 = u / 4096 := Nat.shiftRight_eq_div_pow u 12
  have h262144 : u >>> 18 = u / 262144 := Nat.shiftRight_eq_div_pow u 18
  unfold encode Json.utf8
  simp only [hlow, hbyte, htail, h64, h4096, h262144]
  by_cases h1 : u < 0x80
  · rw [if_pos (show u ≤ 0x7F by omega), if_pos h1, Nat.mod_eq_of_lt (by omega)]
  by_cases h2 : u < 0x800
  · have hhead : 0xC0 ||| u / 64 % 256 = 0xC0 + u / 64 := by
      rw [Nat.mod_eq_of_lt (by omega)]
      exact or_low 6 3 (by omega)
    rw [if_neg (show ¬ u ≤ 0x7F by omega), if_neg h1, if_pos (show u ≤ 0x7FF by omega), if_pos h2,
      hhead]
  by_cases h3 : u < 0x10000
  · have hhead : 0xE0 ||| u / 4096 % 256 = 0xE0 + u / 4096 := by
      rw [Nat.mod_eq_of_lt (by omega)]
      exact or_low 5 7 (by omega)
    rw [if_neg (show ¬ u ≤ 0x7F by omega), if_neg h1, if_neg (show ¬ u ≤ 0x7FF by omega),
      if_neg h2, if_pos (show u ≤ 0xFFFF by omega), if_pos h3, hhead]
  · have hhead : 0xF0 ||| u / 262144 % 256 = 0xF0 + u / 262144 := by
      rw [Nat.mod_eq_of_lt (by omega)]
      exact or_low 4 15 (by omega)
    rw [if_neg (show ¬ u ≤ 0x7F by omega), if_neg h1, if_neg (show ¬ u ≤ 0x7FF by omega),
      if_neg h2, if_neg (show ¬ u ≤ 0xFFFF by omega), if_neg h3, hhead]

theorem codePoint_lt {t : Bytes} {u : Nat} (h : Json.CodePoint t u) : u < 0x110000 := by
  cases h with
  | unit hex single =>
    have := hex4_lt hex
    omega
  | pair hex hex' high low =>
    have := high.2
    have := low.2
    omega

/-- The bits of a surrogate pair, as a sum. -/
theorem surrogate_or (v : Nat) {w : Nat} (hw : Json.LowSurrogate w) :
    (v - 0xD800) <<< 10 ||| (w - 0xDC00) = (v - 0xD800) * 1024 + (w - 0xDC00) := by
  have hlt : w - 0xDC00 < 2 ^ 10 := by
    have := hw.2
    omega
  rw [← Nat.shiftLeft_add_eq_or_of_lt hlt, Nat.shiftLeft_eq]

/-- What follows the start of a code unit is read up to the end of a code point. -/
theorem parseUnicode_append {t : Bytes} {u : Nat} (h : Json.CodePoint t u) (r : Bytes) :
    parseUnicode (t ++ r) = some (u, r) := by
  rw [parseUnicode]
  cases h with
  | unit hex single =>
    rw [parseHex4_eq_some_iff.mpr ⟨t, rfl, hex⟩, Option.bind_some]
    exact if_neg single
  | @pair t t' v w hex hex' high low =>
    have hfirst : parseHex4 (t ++ (Json.unitStart ++ t') ++ r) =
        some (v, '\\'.toUInt8 :: 'u'.toUInt8 :: (t' ++ r)) :=
      parseHex4_eq_some_iff.mpr ⟨t, by rw [List.append_assoc, List.append_assoc]; rfl, hex⟩
    rw [hfirst, Option.bind_some]
    simp only [if_pos (show v ≥ 0xD800 ∧ v ≤ 0xDBFF from high)]
    rw [(consume_eq_some_iff (by decide)).mpr rfl, Option.bind_some,
      (consume_eq_some_iff (by decide)).mpr rfl, Option.bind_some,
      parseHex4_eq_some_iff.mpr ⟨t', rfl, hex'⟩, Option.bind_some]
    have hnot : ¬ (w < 0xDC00 ∨ w > 0xDFFF) := by
      have hlow := low
      unfold Json.LowSurrogate at hlow
      omega
    simp only [if_neg hnot, Option.some.injEq, Prod.mk.injEq, and_true]
    rw [surrogate_or v low]
    omega

/-- And what is read is a code point. -/
theorem parseUnicode_sound {is r : Bytes} {u : Nat} (h : parseUnicode is = some (u, r)) :
    ∃ t, is = t ++ r ∧ Json.CodePoint t u := by
  rw [parseUnicode] at h
  obtain ⟨⟨v, is₁⟩, hfirst, hrest⟩ := Option.bind_eq_some_iff.mp h
  obtain ⟨t, rfl, ht⟩ := parseHex4_eq_some_iff.mp hfirst
  by_cases hhigh : v ≥ 0xD800 ∧ v ≤ 0xDBFF
  · simp only [if_pos hhigh] at hrest
    obtain ⟨is₃, hstart, hsecond⟩ := Option.bind_eq_some_iff.mp hrest
    obtain ⟨is₂, hbackslash, hu⟩ := Option.bind_eq_some_iff.mp hstart
    obtain ⟨⟨w, is₄⟩, hhex, hvalue⟩ := Option.bind_eq_some_iff.mp hsecond
    rw [(consume_eq_some_iff (by decide)).mp hbackslash,
      (consume_eq_some_iff (by decide)).mp hu]
    obtain ⟨t', rfl, ht'⟩ := parseHex4_eq_some_iff.mp hhex
    split_ifs at hvalue with hnot
    have hlow : Json.LowSurrogate w := by
      unfold Json.LowSurrogate
      omega
    simp only [Option.some.injEq, Prod.mk.injEq] at hvalue
    obtain ⟨rfl, rfl⟩ := hvalue
    refine ⟨t ++ (Json.unitStart ++ t'), ?_, ?_⟩
    · rw [List.append_assoc, List.append_assoc]
      rfl
    · rw [surrogate_or v hlow, Nat.add_comm, ← Nat.add_assoc]
      exact .pair ht ht' hhigh hlow
  · simp only [if_neg hhigh, Option.some.injEq, Prod.mk.injEq] at hrest
    obtain ⟨rfl, rfl⟩ := hrest
    exact ⟨t, rfl, .unit ht hhigh⟩

/-! ### The loop -/

theorem escape_spec (e : Byte) (h : escape e ≠ 0) : (e, escape e) ∈ Json.escapes := by
  unfold escape at h ⊢
  split_ifs at h ⊢ with h1 h2 h3 h4 h5 h6 h7 h8
  case neg => exact absurd rfl h
  all_goals
    subst e
    decide

theorem escape_of_mem {e b : Byte} (h : (e, b) ∈ Json.escapes) : escape e = b ∧ b ≠ 0 := by
  have key : ∀ p ∈ Json.escapes, escape p.1 = p.2 ∧ p.2 ≠ 0 :=
    Json.forall_escapes (by decide)
  exact key (e, b) h

/-- A character is one pass of the loop. -/
theorem stringBody_char {m t : Bytes} (h : Json.CharText m t) (os is : Bytes) :
    stringBody (os, t ++ is) = .inl (os ++ m, is) := by
  cases h with
  | @plain b printable quote backslash =>
    rw [stringBody, List.singleton_append, peek_cons, if_neg backslash, if_neg quote,
      if_neg (UInt8.not_lt.mpr printable), List.tail_cons]
  | @escape e b known =>
    obtain ⟨hescape, hne⟩ := escape_of_mem known
    have hcut : ['\\'.toUInt8, e] ++ is = '\\'.toUInt8 :: e :: is := rfl
    rw [stringBody, hcut, peek_cons, if_pos rfl, List.tail_cons, peek_cons, hescape, if_pos hne,
      List.tail_cons]
  | @codePoint t u names =>
    have hunicode : parseUnicode (t ++ is) = some (u, is) :=
      parseUnicode_append names _
    have hcut : Json.unitStart ++ t ++ is = '\\'.toUInt8 :: 'u'.toUInt8 :: (t ++ is) := rfl
    rw [stringBody, hcut, peek_cons, if_pos rfl, List.tail_cons, peek_cons, if_neg (by decide),
      if_pos rfl, List.tail_cons, hunicode]
    show Sum.inl (os ++ encode u, is) = Sum.inl (os ++ Json.utf8 u, is)
    rw [encode_eq_utf8 (codePoint_lt names)]

/-- A pass that goes on has read a character. -/
theorem char_of_stringBody {os is : Bytes} {s : Bytes × Bytes}
    (h : stringBody (os, is) = .inl s) :
    ∃ m t, Json.CharText m t ∧ is = t ++ s.2 ∧ s.1 = os ++ m := by
  rw [stringBody] at h
  split_ifs at h with hbackslash hescape hu hquote hcontrol
  · cases h
    refine ⟨_, _, .escape (escape_spec _ hescape), ?_, rfl⟩
    have hcons := eq_cons_of_peek hbackslash (by decide)
    -- a letter that can be escaped is no end of the text
    cases htail : is.tail with
    | nil =>
      rw [htail] at hescape
      exact absurd rfl hescape
    | cons e is =>
      rw [hcons, htail]
      rfl
  · split at h
    · rename_i u r hunicode
      cases h
      obtain ⟨t, ht, hnames⟩ := parseUnicode_sound hunicode
      refine ⟨_, _, .codePoint hnames, ?_, by rw [encode_eq_utf8 (codePoint_lt hnames)]⟩
      rw [eq_cons_of_peek hbackslash (by decide), eq_cons_of_peek hu (by decide), ht]
      rfl
    · cases h
  · cases h
    have hne : peek is ≠ 0 := by
      intro h0
      rw [h0] at hcontrol
      exact hcontrol (by decide)
    exact ⟨_, _, .plain (UInt8.not_lt.mp hcontrol) hquote hbackslash, eq_cons_of_peek rfl hne, rfl⟩

/-- A pass that leaves the loop with a string has read the quotation mark. -/
theorem quote_of_stringBody {os is : Bytes} {r : Bytes × Bytes}
    (h : stringBody (os, is) = .inr (some r)) : is = '"'.toUInt8 :: r.2 ∧ r.1 = os := by
  rw [stringBody] at h
  split_ifs at h with hbackslash hescape hu hquote hcontrol
  · split at h <;> cases h
  · cases h
  · cases h
    exact ⟨eq_cons_of_peek hquote (by decide), rfl⟩
  · cases h

theorem CharText.length_pos {m t : Bytes} (h : Json.CharText m t) : 0 < t.length := by
  cases h with
  | plain => exact Nat.one_pos
  | escape => exact Nat.two_pos
  | codePoint =>
    rw [List.length_append]
    exact Nat.add_pos_left Nat.two_pos _

/-- The loop reads characters up to the quotation mark, in as many passes. -/
theorem run_stringBody {s body : Bytes} (h : Json.CharsText s body) (os r : Bytes) {n : Nat}
    (hn : body.length < n) :
    Loop.run stringBody n (os, body ++ '"'.toUInt8 :: r) = some (some (os ++ s, r)) := by
  induction h generalizing os n with
  | nil =>
    obtain ⟨n, rfl⟩ : ∃ k, n = k + 1 := ⟨n - 1, by omega⟩
    rw [List.append_nil]
    exact Loop.run_succ_inr rfl n
  | @cons m t ms ts first rest ih =>
    obtain ⟨n, rfl⟩ : ∃ k, n = k + 1 := ⟨n - 1, by omega⟩
    have hpos := CharText.length_pos first
    rw [List.length_append] at hn
    rw [List.append_assoc, Loop.run_succ_inl (stringBody_char first os _), ih _ (by omega),
      List.append_assoc]

/-- A loop that leaves with a string has read characters and the quotation mark. -/
theorem chars_of_run {n : Nat} {os is s r : Bytes}
    (h : Loop.run stringBody n (os, is) = some (some (s, r))) :
    ∃ m body, Json.CharsText m body ∧ is = body ++ '"'.toUInt8 :: r ∧ s = os ++ m := by
  induction n generalizing os is with
  | zero => cases h
  | succ n ih =>
    cases hbody : stringBody (os, is) with
    | inl s' =>
      rw [Loop.run_succ_inl hbody] at h
      obtain ⟨m, t, hchar, rfl, hos⟩ := char_of_stringBody hbody
      obtain ⟨ms, ts, hchars, htail, rfl⟩ := ih h
      refine ⟨m ++ ms, t ++ ts, .cons hchar hchars, ?_, ?_⟩
      · rw [htail, List.append_assoc]
      · rw [hos, List.append_assoc]
    | inr r' =>
      rw [Loop.run_succ_inr hbody, Option.some.injEq] at h
      subst h
      obtain ⟨rfl, rfl⟩ := quote_of_stringBody hbody
      exact ⟨[], [], .nil, rfl, (List.append_nil _).symm⟩

/-- **Strings.**  `ParseString` reads the texts of strings, and gives the bytes they stand for. -/
theorem parseString_eq_some_iff {is s r : Bytes} (hquote : peek is = '"'.toUInt8) :
    parseString is = some (s, r) ↔ ∃ t, is = t ++ r ∧ Json.StringText s t := by
  have hcons := eq_cons_of_peek hquote (by decide)
  rw [parseString, Option.join_eq_some_iff]
  constructor
  · intro h
    obtain ⟨m, body, hchars, htail, rfl⟩ := chars_of_run h
    refine ⟨_, ?_, body, hchars, rfl⟩
    rw [hcons, htail, List.cons_append, List.append_assoc]
    rfl
  · rintro ⟨t, ht, body, hchars, rfl⟩
    have htail : is.tail = body ++ '"'.toUInt8 :: r := by
      rw [ht, List.cons_append, List.tail_cons, List.append_assoc]
      rfl
    rw [htail]
    exact run_stringBody hchars [] r (by rw [List.length_append, List.length_cons]; omega)

end OsgiManager.Rapidjson
