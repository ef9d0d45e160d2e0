import OsgiManager.Rapidjson.Numbers

namespace OsgiManager.Rapidjson

open OsgiManager.Lib

/-!
# Reading a document

`Document::Parse` accepts exactly the JSON texts, and gives the value a text stands for.

* `sound` and its companions — what the recursion reads is a value;
* `complete` and its companions — a value is read, with as much fuel as it has bytes;
* `parse_iff` — a whole text;
* `parse_exact` — the texts accepted, and that they stand for one value only;
* `document_of_front` — an object is read from the front of a text only if spaces follow it.
-/

variable {tooBig : Bytes → Bool}

/-! ### Spaces -/

theorem skipWhitespace_spec (is : Bytes) : ∃ w, Json.Spaces w ∧ is = w ++ skipWhitespace is :=
  ⟨is.takeWhile Json.isSpace, fun _ hb => List.mem_takeWhile_imp hb,
    List.takeWhile_append_dropWhile.symm⟩

theorem skipWhitespace_append {w s : Bytes} (hw : Json.Spaces w)
    (hs : Json.isSpace (peek s) = false) : skipWhitespace (w ++ s) = s := by
  rw [skipWhitespace, List.dropWhile_append_of_pos hw]
  cases s with
  | nil => rfl
  | cons b s => rw [List.dropWhile_cons, if_neg (by rw [show Json.isSpace b = false from hs]; simp)]

/-- Spaces are no part of a number. -/
theorem Stops.append {w s : Bytes} (hs : Stops s) (hw : Json.Spaces w) : Stops (w ++ s) := by
  cases w with
  | nil => exact hs
  | cons b w =>
    have hb : Json.isSpace b = true := hw b List.mem_cons_self
    simp only [Json.isSpace, Bool.or_eq_true, decide_eq_true_eq, or_assoc] at hb
    rcases hb with rfl | rfl | rfl | rfl <;>
      exact ⟨rfl, by rw [List.cons_append, peek_cons]; decide,
        by rw [List.cons_append, peek_cons]; decide⟩

theorem stops_nil : Stops [] := ⟨rfl, by decide, by decide⟩

theorem stops_delimiter {c : Byte}
    (hc : c = ','.toUInt8 ∨ c = ']'.toUInt8 ∨ c = '}'.toUInt8) (s : Bytes) : Stops (c :: s) := by
  rcases hc with rfl | rfl | rfl <;>
    exact ⟨rfl, by rw [peek_cons]; decide, by rw [peek_cons]; decide⟩

/-! ### Words -/

theorem foldlM_consume_eq_some_iff {others is r : Bytes} (h : (0 : Byte) ∉ others) :
    others.foldlM (fun is expect => consume expect is) is = some r ↔ is = others ++ r := by
  induction others generalizing is with
  | nil =>
    rw [List.foldlM_nil]
    exact Option.some_inj
  | cons c others ih =>
    have hc : c ≠ 0 := fun h0 => h (h0 ▸ List.mem_cons_self)
    have hothers : (0 : Byte) ∉ others := fun h0 => h (List.mem_cons_of_mem _ h0)
    rw [List.foldlM_cons]
    constructor
    · intro h
      obtain ⟨s, hs, hr⟩ := Option.bind_eq_some_iff.mp h
      rw [(consume_eq_some_iff hc).mp hs, (ih hothers).mp hr]
      rfl
    · rintro rfl
      exact Option.bind_eq_some_iff.mpr
        ⟨_, (consume_eq_some_iff hc).mpr rfl, (ih hothers).mpr rfl⟩

/-- A word whose first character has been looked at. -/
theorem parseWord_eq_some_iff {value j : Json} {c : Byte} {others is r : Bytes}
    (h : (0 : Byte) ∉ c :: others) (hc : peek is = c) :
    parseWord value others is = some (j, r) ↔ j = value ∧ is = c :: others ++ r := by
  have hcons := eq_cons_of_peek hc fun h0 => h (h0 ▸ List.mem_cons_self)
  have hothers : (0 : Byte) ∉ others := fun h0 => h (List.mem_cons_of_mem _ h0)
  rw [parseWord, Option.map_eq_some_iff]
  constructor
  · rintro ⟨s, hs, heq⟩
    cases heq
    refine ⟨rfl, ?_⟩
    rw [hcons, (foldlM_consume_eq_some_iff hothers).mp hs]
    rfl
  · rintro ⟨rfl, rfl⟩
    exact ⟨r, (foldlM_consume_eq_some_iff hothers).mpr rfl, rfl⟩

theorem parseWord_append (value : Json) {c : Byte} {others : Bytes} (h : (0 : Byte) ∉ c :: others)
    (r : Bytes) : parseWord value others (c :: others ++ r) = some (value, r) :=
  (parseWord_eq_some_iff h rfl).mpr ⟨rfl, rfl⟩

/-! ### What is read is a value -/

/-- With `n` passes: what is read is a value. -/
def ValueSound (tooBig : Bytes → Bool) (n : Nat) : Prop :=
  ∀ is j r, parseValue tooBig n is = some (j, r) → ∃ t, is = t ++ r ∧ Json.Text tooBig j t

def MembersSound (tooBig : Bytes → Bool) (n : Nat) : Prop :=
  ∀ is ms r, parseMembers tooBig n is = some (ms, r) →
    ∃ t, is = t ++ '}'.toUInt8 :: r ∧ Json.Members tooBig ms t

def ElementsSound (tooBig : Bytes → Bool) (n : Nat) : Prop :=
  ∀ is js r, parseElements tooBig n is = some (js, r) →
    ∃ t, is = t ++ ']'.toUInt8 :: r ∧ Json.Elements tooBig js t

/-- Brackets that are read have nothing but spaces between them, or what the loop has read. -/
theorem parseBracketed_sound {α : Type} {open_ close : Byte} {value : List α → Json}
    {loop : Bytes → Option (List α × Bytes)} {is r : Bytes} {j : Json} (hopen : peek is = open_)
    (hne : open_ ≠ 0 ∧ close ≠ 0) (h : parseBracketed close value loop is = some (j, r)) :
    ∃ w, Json.Spaces w ∧ (j = value [] ∧ is = open_ :: (w ++ [close]) ++ r ∨
      ∃ items s, j = value items ∧ loop s = some (items, r) ∧ is = open_ :: (w ++ s)) := by
  obtain ⟨w, hw, hskip⟩ := skipWhitespace_spec is.tail
  have hcons := eq_cons_of_peek hopen hne.1
  refine ⟨w, hw, ?_⟩
  rw [parseBracketed] at h
  split_ifs at h with hclose
  · cases h
    refine .inl ⟨rfl, ?_⟩
    rw [List.cons_append, List.append_assoc, List.singleton_append,
      ← eq_cons_of_peek hclose hne.2, ← hskip]
    exact hcons
  · obtain ⟨⟨items, r'⟩, hloop, heq⟩ := Option.map_eq_some_iff.mp h
    cases heq
    refine .inr ⟨items, _, rfl, hloop, ?_⟩
    rw [← hskip]
    exact hcons

/-- After an item that is read, there is a comma and more, or the closing bracket. -/
theorem parseNext_sound {α : Type} {close : Byte} {loop : Bytes → Option (List α × Bytes)}
    {item : α} {is r : Bytes} {items : List α} (hne : close ≠ 0)
    (h : parseNext close loop item is = some (items, r)) :
    ∃ w, Json.Spaces w ∧ (items = [item] ∧ is = w ++ close :: r ∨
      ∃ w' rest s, Json.Spaces w' ∧ items = item :: rest ∧ loop s = some (rest, r) ∧
        is = w ++ ','.toUInt8 :: (w' ++ s)) := by
  obtain ⟨w, hw, hskip⟩ := skipWhitespace_spec is
  refine ⟨w, hw, ?_⟩
  rw [parseNext] at h
  split_ifs at h with hcomma hclose
  · obtain ⟨⟨rest, r'⟩, hrest, heq⟩ := Option.map_eq_some_iff.mp h
    cases heq
    obtain ⟨w', hw', hskip'⟩ := skipWhitespace_spec (skipWhitespace is).tail
    refine .inr ⟨w', rest, _, hw', rfl, hrest, ?_⟩
    rw [← hskip', ← eq_cons_of_peek hcomma (by decide)]
    exact hskip
  · cases h
    refine .inl ⟨rfl, ?_⟩
    rw [← eq_cons_of_peek hclose hne]
    exact hskip

theorem valueSound_succ {n : Nat} (hmembers : MembersSound tooBig n)
    (helements : ElementsSound tooBig n) : ValueSound tooBig (n + 1) := by
  intro is j r h
  rw [parseValue] at h
  split_ifs at h with hn ht hf hq ho ha
  · obtain ⟨rfl, rfl⟩ := (parseWord_eq_some_iff (by decide) hn).mp h
    exact ⟨_, rfl, .null⟩
  · obtain ⟨rfl, rfl⟩ := (parseWord_eq_some_iff (by decide) ht).mp h
    exact ⟨_, rfl, .true⟩
  · obtain ⟨rfl, rfl⟩ := (parseWord_eq_some_iff (by decide) hf).mp h
    exact ⟨_, rfl, .false⟩
  · obtain ⟨⟨s, r'⟩, hs, heq⟩ := Option.map_eq_some_iff.mp h
    cases heq
    obtain ⟨t, rfl, htext⟩ := (parseString_eq_some_iff hq).mp hs
    exact ⟨t, rfl, .string htext⟩
  · obtain ⟨w, hw, ⟨rfl, rfl⟩ | ⟨ms, s, rfl, hloop, rfl⟩⟩ :=
      parseBracketed_sound ho ⟨by decide, by decide⟩ h
    · exact ⟨_, rfl, .emptyObject hw⟩
    · obtain ⟨t, rfl, htext⟩ := hmembers _ _ _ hloop
      exact ⟨_, by simp, .object hw htext⟩
  · obtain ⟨w, hw, ⟨rfl, rfl⟩ | ⟨js, s, rfl, hloop, rfl⟩⟩ :=
      parseBracketed_sound ha ⟨by decide, by decide⟩ h
    · exact ⟨_, rfl, .emptyArray hw⟩
    · obtain ⟨t, rfl, htext⟩ := helements _ _ _ hloop
      exact ⟨_, by simp, .array hw htext⟩
  · obtain ⟨t, rfl, rfl, htext, hfits⟩ := parseNumber_sound h
    exact ⟨t, rfl, .number htext hfits⟩

theorem membersSound_succ {n : Nat} (hvalue : ValueSound tooBig n)
    (hmembers : MembersSound tooBig n) : MembersSound tooBig (n + 1) := by
  intro is ms r h
  rw [parseMembers] at h
  split_ifs at h with hq
  rw [ne_eq, not_not] at hq
  obtain ⟨⟨name, s₁⟩, hname, h₁⟩ := Option.bind_eq_some_iff.mp h
  obtain ⟨s₂, hcolon, h₂⟩ := Option.bind_eq_some_iff.mp h₁
  obtain ⟨⟨value, s₃⟩, hread, h₃⟩ := Option.bind_eq_some_iff.mp h₂
  obtain ⟨k, hcut, hk⟩ := (parseString_eq_some_iff hq).mp hname
  obtain ⟨w, hw, hskip⟩ := skipWhitespace_spec s₁
  obtain ⟨w', hw', hskip'⟩ := skipWhitespace_spec s₂
  obtain ⟨t, hcut', ht⟩ := hvalue _ _ _ hread
  have his : is = k ++ (w ++ (':'.toUInt8 :: (w' ++ (t ++ s₃)))) := by
    rw [hcut, hskip, (consume_eq_some_iff (by decide)).mp hcolon, hskip', hcut']
  simp only at h₃
  obtain ⟨w'', hw'', ⟨rfl, hs₃⟩ | ⟨w₃, ms', s, hw₃, rfl, hrest, hs₃⟩⟩ :=
    parseNext_sound (by decide) h₃
  · exact ⟨_, by rw [his, hs₃]; simp, .last hk hw hw' ht hw''⟩
  · obtain ⟨ts, rfl, hts⟩ := hmembers _ _ _ hrest
    exact ⟨_, by rw [his, hs₃]; simp, .cons hk hw hw' ht hw'' hw₃ hts⟩

theorem elementsSound_succ {n : Nat} (hvalue : ValueSound tooBig n)
    (helements : ElementsSound tooBig n) : ElementsSound tooBig (n + 1) := by
  intro is js r h
  rw [parseElements] at h
  obtain ⟨⟨value, s₁⟩, hread, hnext⟩ := Option.bind_eq_some_iff.mp h
  obtain ⟨t, rfl, ht⟩ := hvalue _ _ _ hread
  simp only at hnext
  obtain ⟨w, hw, ⟨rfl, rfl⟩ | ⟨w', js', s, hw', rfl, hrest, rfl⟩⟩ :=
    parseNext_sound (by decide) hnext
  · exact ⟨_, by simp, .last ht hw⟩
  · obtain ⟨ts, rfl, hts⟩ := helements _ _ _ hrest
    exact ⟨_, by simp, .cons ht hw hw' hts⟩

/-- **The recursion, soundness.** -/
theorem sound (tooBig : Bytes → Bool) (n : Nat) :
    ValueSound tooBig n ∧ MembersSound tooBig n ∧ ElementsSound tooBig n := by
  induction n with
  | zero =>
    -- without fuel, nothing is read
    refine ⟨fun _ _ _ h => ?_, fun _ _ _ h => ?_, fun _ _ _ h => ?_⟩
    · rw [parseValue] at h
      cases h
    · rw [parseMembers] at h
      cases h
    · rw [parseElements] at h
      cases h
  | succ n ih =>
    obtain ⟨hvalue, hmembers, helements⟩ := ih
    exact ⟨valueSound_succ hmembers helements, membersSound_succ hvalue hmembers,
      elementsSound_succ hvalue helements⟩

/-! ### A value is read -/

/-- How a value starts: with no space, and no closing bracket. -/
theorem peek_text {j : Json} {t : Bytes} (h : Json.Text tooBig j t) (s : Bytes) :
    Json.isSpace (peek (t ++ s)) = false ∧ peek (t ++ s) ≠ ']'.toUInt8 := by
  have hbyte : ∀ (c : Byte) (cs : Bytes), Json.isSpace c = false ∧ c ≠ ']'.toUInt8 →
      Json.isSpace (peek (c :: cs ++ s)) = false ∧ peek (c :: cs ++ s) ≠ ']'.toUInt8 :=
    fun _ _ h => h
  cases h with
  | null => exact hbyte _ _ (by decide)
  | true => exact hbyte _ _ (by decide)
  | false => exact hbyte _ _ (by decide)
  | string text =>
    obtain ⟨body, -, rfl⟩ := text
    exact hbyte _ _ (by decide)
  | emptyArray => exact hbyte _ _ (by decide)
  | array => exact hbyte _ _ (by decide)
  | emptyObject => exact hbyte _ _ (by decide)
  | object => exact hbyte _ _ (by decide)
  | number text =>
    refine ⟨?_, peek_numberText text s (by decide)⟩
    simp only [Json.isSpace, Bool.or_eq_false_iff, decide_eq_false_iff_not]
    exact ⟨⟨⟨peek_numberText text s (by decide), peek_numberText text s (by decide)⟩,
      peek_numberText text s (by decide)⟩, peek_numberText text s (by decide)⟩

/-- Brackets with nothing but spaces between them are read. -/
theorem parseBracketed_empty {α : Type} {open_ close : Byte} {value : List α → Json}
    {loop : Bytes → Option (List α × Bytes)} {w : Bytes} (hw : Json.Spaces w)
    (hclose : Json.isSpace close = false) (r : Bytes) :
    parseBracketed close value loop (open_ :: (w ++ [close]) ++ r) = some (value [], r) := by
  have hskip : skipWhitespace (w ++ close :: r) = close :: r := skipWhitespace_append hw hclose
  rw [parseBracketed, List.cons_append, List.tail_cons, List.append_assoc, List.singleton_append,
    hskip, peek_cons, if_pos rfl, List.tail_cons]

/-- Brackets with items between them are read if the loop reads the items. -/
theorem parseBracketed_items {α : Type} {open_ close : Byte} {value : List α → Json}
    {loop : Bytes → Option (List α × Bytes)} {w s r : Bytes} {items : List α}
    (hw : Json.Spaces w) (hs : Json.isSpace (peek s) = false ∧ peek s ≠ close)
    (hloop : loop s = some (items, r)) :
    parseBracketed close value loop (open_ :: (w ++ s)) = some (value items, r) := by
  rw [parseBracketed, List.tail_cons, skipWhitespace_append hw hs.1, if_neg hs.2, hloop,
    Option.map_some]

theorem parseNext_last {α : Type} {close : Byte} {loop : Bytes → Option (List α × Bytes)}
    {w : Bytes} (hw : Json.Spaces w) (hclose : Json.isSpace close = false ∧ close ≠ ','.toUInt8)
    (item : α) (r : Bytes) :
    parseNext close loop item (w ++ close :: r) = some ([item], r) := by
  have hskip : skipWhitespace (w ++ close :: r) = close :: r := skipWhitespace_append hw hclose.1
  rw [parseNext, hskip, peek_cons, if_neg hclose.2, if_pos rfl, List.tail_cons]

theorem parseNext_cons {α : Type} {close : Byte} {loop : Bytes → Option (List α × Bytes)}
    {w w' s r : Bytes} {items : List α} (hw : Json.Spaces w) (hw' : Json.Spaces w')
    (hs : Json.isSpace (peek s) = false) (hloop : loop s = some (items, r)) (item : α) :
    parseNext close loop item (w ++ ','.toUInt8 :: (w' ++ s)) = some (item :: items, r) := by
  have hskip : skipWhitespace (w ++ ','.toUInt8 :: (w' ++ s)) = ','.toUInt8 :: (w' ++ s) :=
    skipWhitespace_append hw rfl
  rw [parseNext, hskip, peek_cons, if_pos rfl, List.tail_cons, skipWhitespace_append hw' hs, hloop,
    Option.map_some]

/-- With `n` passes: a value of at most as many bytes is read, if no part of a number follows. -/
def ValueComplete (tooBig : Bytes → Bool) (n : Nat) : Prop :=
  ∀ j t r, Json.Text tooBig j t → t.length ≤ n → Stops r →
    parseValue tooBig n (t ++ r) = some (j, r)

def MembersComplete (tooBig : Bytes → Bool) (n : Nat) : Prop :=
  ∀ ms t r, Json.Members tooBig ms t → t.length < n →
    parseMembers tooBig n (t ++ '}'.toUInt8 :: r) = some (ms, r)

def ElementsComplete (tooBig : Bytes → Bool) (n : Nat) : Prop :=
  ∀ js t r, Json.Elements tooBig js t → t.length < n →
    parseElements tooBig n (t ++ ']'.toUInt8 :: r) = some (js, r)

/-- Members start with a quotation mark. -/
theorem peek_members {ms : List (Bytes × Json)} {t : Bytes} (h : Json.Members tooBig ms t)
    (s : Bytes) : peek (t ++ s) = '"'.toUInt8 := by
  cases h with
  | last name =>
    obtain ⟨body, -, rfl⟩ := name
    rfl
  | cons name =>
    obtain ⟨body, -, rfl⟩ := name
    rfl

/-- Elements start like a value. -/
theorem peek_elements {js : List Json} {t : Bytes} (h : Json.Elements tooBig js t) (s : Bytes) :
    Json.isSpace (peek (t ++ s)) = false ∧ peek (t ++ s) ≠ ']'.toUInt8 := by
  cases h with
  | last text =>
    rw [List.append_assoc]
    exact peek_text text _
  | cons text =>
    rw [List.append_assoc]
    exact peek_text text _

/-- An object is read whatever follows it. -/
theorem parseValue_members {n : Nat} (hmembers : MembersComplete tooBig n)
    {ms : List (Bytes × Json)} {t : Bytes} (h : Json.Text tooBig (.object ms) t)
    (hn : t.length ≤ n + 1) (r : Bytes) :
    parseValue tooBig (n + 1) (t ++ r) = some (.object ms, r) := by
  cases h with
  | emptyObject spaces =>
    rw [parseValue]
    exact parseBracketed_empty spaces rfl r
  | @object w t ms spaces members =>
    have hcut : '{'.toUInt8 :: (w ++ (t ++ ['}'.toUInt8])) ++ r =
        '{'.toUInt8 :: (w ++ (t ++ '}'.toUInt8 :: r)) := by simp
    simp only [List.length_cons, List.length_append, List.length_nil] at hn
    have hpeek := peek_members members ('}'.toUInt8 :: r)
    rw [hcut, parseValue]
    exact parseBracketed_items spaces (by rw [hpeek]; decide)
      (hmembers ms t r members (by omega))

theorem valueComplete_succ {n : Nat} (hmembers : MembersComplete tooBig n)
    (helements : ElementsComplete tooBig n) : ValueComplete tooBig (n + 1) := by
  intro j t r h hn hr
  cases h with
  | null =>
    rw [parseValue]
    exact parseWord_append .null (show (0 : Byte) ∉ ofString "null" by decide) r
  | true =>
    rw [parseValue]
    exact parseWord_append (.bool true) (show (0 : Byte) ∉ ofString "true" by decide) r
  | false =>
    rw [parseValue]
    exact parseWord_append (.bool false) (show (0 : Byte) ∉ ofString "false" by decide) r
  | @string s t text =>
    obtain ⟨body, hbody, ht⟩ := text
    have hpeek : peek (t ++ r) = '"'.toUInt8 := by
      rw [ht]
      rfl
    rw [parseValue, hpeek, (parseString_eq_some_iff hpeek).mpr ⟨t, rfl, body, hbody, ht⟩]
    rfl
  | emptyArray spaces =>
    rw [parseValue]
    exact parseBracketed_empty spaces rfl r
  | @array w t js spaces elements =>
    have hcut : '['.toUInt8 :: (w ++ (t ++ [']'.toUInt8])) ++ r =
        '['.toUInt8 :: (w ++ (t ++ ']'.toUInt8 :: r)) := by simp
    simp only [List.length_cons, List.length_append, List.length_nil] at hn
    rw [hcut, parseValue]
    exact parseBracketed_items spaces (peek_elements elements _)
      (helements js t r elements (by omega))
  | emptyObject spaces => exact parseValue_members hmembers (.emptyObject spaces) hn r
  | object spaces members => exact parseValue_members hmembers (.object spaces members) hn r
  | number text fits =>
    have hne : ∀ {c : Byte}, Json.isDigit c = false ∧ c ≠ '-'.toUInt8 → peek (t ++ r) ≠ c :=
      peek_numberText text r
    rw [parseValue, if_neg (hne (by decide)), if_neg (hne (by decide)), if_neg (hne (by decide)),
      if_neg (hne (by decide)), if_neg (hne (by decide)), if_neg (hne (by decide))]
    exact parseNumber_append text fits hr

theorem membersComplete_succ {n : Nat} (hvalue : ValueComplete tooBig n)
    (hmembers : MembersComplete tooBig n) : MembersComplete tooBig (n + 1) := by
  intro ms t r h hn
  -- the name, the colon and the value, whatever follows
  have hmember : ∀ {k : Bytes} {j : Json} {name w w' t s : Bytes}, Json.StringText k name →
      Json.Spaces w → Json.Spaces w' → Json.Text tooBig j t → t.length ≤ n → Stops s →
      parseMembers tooBig (n + 1) (name ++ (w ++ (':'.toUInt8 :: (w' ++ (t ++ s))))) =
        parseNext '}'.toUInt8 (parseMembers tooBig n) (k, j) s := by
    intro k j name w w' t s hname hw hw' ht hlen hs
    have hpeek : peek (name ++ (w ++ (':'.toUInt8 :: (w' ++ (t ++ s))))) = '"'.toUInt8 := by
      obtain ⟨body, -, rfl⟩ := hname
      rfl
    have hskip : skipWhitespace (w ++ (':'.toUInt8 :: (w' ++ (t ++ s)))) =
        ':'.toUInt8 :: (w' ++ (t ++ s)) := skipWhitespace_append hw rfl
    rw [parseMembers, if_neg (not_not.mpr hpeek),
      (parseString_eq_some_iff hpeek).mpr ⟨name, rfl, hname⟩, Option.bind_some, hskip,
      (consume_eq_some_iff (by decide)).mpr rfl, Option.bind_some,
      skipWhitespace_append hw' (peek_text ht s).1, hvalue j t s ht hlen hs, Option.bind_some]
  cases h with
  | @last k j name w w' t w'' hname hw hw' ht hw'' =>
    simp only [List.length_cons, List.length_append] at hn
    have hstops : Stops (w'' ++ '}'.toUInt8 :: r) := (stops_delimiter (by simp) r).append hw''
    have hread := hmember hname hw hw' ht (by omega) hstops
    simp only [List.append_assoc, List.cons_append]
    rw [hread, parseNext_last hw'' (by decide)]
  | @cons k j ms name w w' t w'' w₃ ts hname hw hw' ht hw'' hw₃ hrest =>
    simp only [List.length_cons, List.length_append] at hn
    have hstops : Stops (w'' ++ ','.toUInt8 :: (w₃ ++ (ts ++ '}'.toUInt8 :: r))) :=
      (stops_delimiter (by simp) _).append hw''
    have hread := hmember hname hw hw' ht (by omega) hstops
    simp only [List.append_assoc, List.cons_append]
    rw [hread]
    refine parseNext_cons hw'' hw₃ ?_ (hmembers ms ts r hrest (by omega)) (k, j)
    rw [peek_members hrest]
    decide

theorem elementsComplete_succ {n : Nat} (hvalue : ValueComplete tooBig n)
    (helements : ElementsComplete tooBig n) : ElementsComplete tooBig (n + 1) := by
  intro js t r h hn
  cases h with
  | @last j t w ht hw =>
    rw [List.length_append] at hn
    have hstops : Stops (w ++ ']'.toUInt8 :: r) := (stops_delimiter (by simp) r).append hw
    rw [List.append_assoc, parseElements, hvalue j t _ ht (by omega) hstops, Option.bind_some,
      parseNext_last hw (by decide)]
  | @cons j js t w w' ts ht hw hw' hrest =>
    simp only [List.length_cons, List.length_append] at hn
    have hstops : Stops (w ++ ','.toUInt8 :: (w' ++ (ts ++ ']'.toUInt8 :: r))) :=
      (stops_delimiter (by simp) _).append hw
    simp only [List.append_assoc, List.cons_append]
    rw [parseElements, hvalue j t _ ht (by omega) hstops, Option.bind_some]
    exact parseNext_cons hw hw' (peek_elements hrest _).1 (helements js ts r hrest (by omega)) j

/-- A value has at least one byte. -/
theorem text_ne_nil {j : Json} {t : Bytes} (h : Json.Text tooBig j t) : t ≠ [] := by
  cases h with
  | null => decide
  | true => decide
  | false => decide
  | string text =>
    obtain ⟨body, -, rfl⟩ := text
    exact List.cons_ne_nil _ _
  | number text =>
    rintro rfl
    exact peek_numberText text [] (by decide) rfl
  | emptyArray => exact List.cons_ne_nil _ _
  | array => exact List.cons_ne_nil _ _
  | emptyObject => exact List.cons_ne_nil _ _
  | object => exact List.cons_ne_nil _ _

/-- **The recursion, completeness.** -/
theorem complete (tooBig : Bytes → Bool) (n : Nat) :
    ValueComplete tooBig n ∧ MembersComplete tooBig n ∧ ElementsComplete tooBig n := by
  induction n with
  | zero =>
    refine ⟨fun _ _ _ h hn => ?_, fun _ _ _ _ hn => absurd hn (Nat.not_lt_zero _),
      fun _ _ _ _ hn => absurd hn (Nat.not_lt_zero _)⟩
    exact absurd (List.eq_nil_of_length_eq_zero (Nat.le_zero.mp hn)) (text_ne_nil h)
  | succ n ih =>
    obtain ⟨hvalue, hmembers, helements⟩ := ih
    exact ⟨valueComplete_succ hmembers helements, membersComplete_succ hvalue hmembers,
      elementsComplete_succ hvalue helements⟩

theorem parseValue_object {ms : List (Bytes × Json)} {t : Bytes}
    (h : Json.Text tooBig (.object ms) t) (r : Bytes) {n : Nat} (hn : t.length ≤ n) :
    parseValue tooBig n (t ++ r) = some (.object ms, r) := by
  cases n with
  | zero => exact absurd (List.eq_nil_of_length_eq_zero (Nat.le_zero.mp hn)) (text_ne_nil h)
  | succ n => exact parseValue_members (complete tooBig n).2.1 h hn r

/-! ### The document -/

/-- A text is a document exactly when what it reads as is its value. -/
theorem parse_iff (tooBig : Bytes → Bool) (json : Bytes) (j : Json) :
    parse tooBig json = some j ↔ Json.Document tooBig j (cstr json) := by
  obtain ⟨w, hw, hskip⟩ := skipWhitespace_spec (cstr json)
  rw [parse]
  constructor
  · intro h
    split_ifs at h with hempty
    obtain ⟨⟨value, s⟩, hvalue, hend⟩ := Option.bind_eq_some_iff.mp h
    split_ifs at hend with hrest
    cases hend
    obtain ⟨t, hcut, ht⟩ := (sound tooBig _).1 _ _ _ hvalue
    obtain ⟨w', hw', hskip'⟩ := skipWhitespace_spec s
    refine ⟨w, t, w', ?_, hw, hw', ht⟩
    rw [hskip, hcut, hskip', hrest, List.append_nil]
  · rintro ⟨w, t, w', hcut, hw, hw', ht⟩
    have hstart : skipWhitespace (cstr json) = t ++ w' := by
      rw [hcut]
      exact skipWhitespace_append hw (peek_text ht w').1
    have hend : skipWhitespace w' = [] := by
      have hskip' : skipWhitespace (w' ++ []) = [] := skipWhitespace_append hw' rfl
      rwa [List.append_nil] at hskip'
    have hne : t ++ w' ≠ [] := fun h => text_ne_nil ht (List.append_eq_nil_iff.mp h).1
    have hlen : t.length ≤ (t ++ w').length := by
      rw [List.length_append]
      omega
    have hstops : Stops w' := by
      have hstops' := stops_nil.append hw'
      rwa [List.append_nil] at hstops'
    rw [hstart, if_neg hne, (complete tooBig _).1 j t w' ht hlen hstops, Option.bind_some,
      if_pos hend]

/-- **The reader.**  `Document::Parse` accepts exactly the JSON texts, up to the first zero byte of
    the string it is given; the value it gives is one the text stands for, and the text stands for
    no other. -/
theorem parse_exact (tooBig : Bytes → Bool) (json : Bytes) :
    (∀ j, parse tooBig json = some j ↔ Json.Document tooBig j (cstr json)) ∧
      (parse tooBig json = none ↔ ∀ j, ¬ Json.Document tooBig j (cstr json)) ∧
      ∀ j j', Json.Document tooBig j (cstr json) → Json.Document tooBig j' (cstr json) →
        j = j' := by
  have hparse := parse_iff tooBig json
  refine ⟨hparse, ?_, fun j j' hj hj' => ?_⟩
  · rw [Option.eq_none_iff_forall_ne_some]
    exact forall_congr' fun j => not_congr (hparse j)
  · have hsome := (hparse j).mpr hj
    rw [(hparse j').mpr hj', Option.some.injEq] at hsome
    exact hsome.symm

/-- An object that is read from a front part is what is read from the whole, and only spaces
    follow it. -/
theorem document_of_front {ms ms' : List (Bytes × Json)} {s rest : Bytes}
    (h : Json.Document tooBig (.object ms) s)
    (h' : Json.Document tooBig (.object ms') (s ++ rest)) :
    ms' = ms ∧ Json.Spaces rest := by
  obtain ⟨w, t, v, rfl, hw, -, ht⟩ := h
  obtain ⟨w', t', v', hcut, hw', hv', ht'⟩ := h'
  rw [List.append_assoc, List.append_assoc] at hcut
  -- both texts start where the spaces in front end
  have hsame : t ++ (v ++ rest) = t' ++ v' := by
    rw [← skipWhitespace_append hw (peek_text ht (v ++ rest)).1, hcut,
      skipWhitespace_append hw' (peek_text ht' v').1]
  have hread := parseValue_object ht (v ++ rest) (Nat.le_max_left t.length t'.length)
  rw [hsame, parseValue_object ht' v' (Nat.le_max_right t.length t'.length)] at hread
  obtain ⟨hobject, hrest⟩ := Prod.mk.inj (Option.some.inj hread)
  refine ⟨JsonOf.object.inj hobject, fun b hb => ?_⟩
  apply hv'
  rw [hrest]
  exact List.mem_append_right v hb

/-! ### Zero bytes -/

theorem nulFree_spaces {w : Bytes} (h : Json.Spaces w) : NulFree w :=
  fun h0 => absurd (h 0 h0) (by decide)

theorem nulFree_digits {t : Bytes} (h : ∀ b ∈ t, Json.isDigit b = true) : NulFree t :=
  fun h0 => absurd (h 0 h0) (by decide)

theorem nulFree_cons {c : Byte} (hc : c ≠ 0) {t : Bytes} : NulFree (c :: t) ↔ NulFree t := by
  rw [NulFree, NulFree, List.mem_cons, not_or]
  exact ⟨fun h => h.2, fun h => ⟨hc.symm, h⟩⟩

theorem nulFree_hex4 {t : Bytes} {u : Nat} (h : Json.Hex4 t u) : NulFree t := by
  have hne : ∀ {b : Byte} {n : Nat}, Json.hexValue b = some n → b ≠ 0 := by
    rintro b n hb rfl
    cases hb
  cases h with
  | mk ha hb hc hd =>
    rw [nulFree_cons (hne ha), nulFree_cons (hne hb), nulFree_cons (hne hc), nulFree_cons (hne hd)]
    exact nulFree_nil

theorem nulFree_chars {s t : Bytes} (h : Json.CharsText s t) : NulFree t := by
  induction h with
  | nil => exact nulFree_nil
  | cons first rest ih =>
    refine nulFree_append.mpr ⟨?_, ih⟩
    cases first with
    | plain printable =>
      refine (nulFree_cons ?_).mpr nulFree_nil
      rintro rfl
      exact absurd printable (by decide)
    | @escape e b known =>
      have key : ∀ p ∈ Json.escapes, p.1 ≠ 0 := Json.forall_escapes (by decide)
      exact (nulFree_cons (by decide)).mpr ((nulFree_cons (key _ known)).mpr nulFree_nil)
    | codePoint names =>
      refine nulFree_append.mpr ⟨by decide, ?_⟩
      cases names with
      | unit hex => exact nulFree_hex4 hex
      | pair hex hex' =>
        exact nulFree_append.mpr
          ⟨nulFree_hex4 hex, nulFree_append.mpr ⟨by decide, nulFree_hex4 hex'⟩⟩

theorem nulFree_string {s t : Bytes} (h : Json.StringText s t) : NulFree t := by
  obtain ⟨body, hbody, rfl⟩ := h
  exact (nulFree_cons (by decide)).mpr (nulFree_append.mpr ⟨nulFree_chars hbody, by decide⟩)

theorem nulFree_number {t : Bytes} (h : Json.NumberText t) : NulFree t := by
  obtain ⟨sign, int, frac, exp, rfl, hsign, hint, hfrac, hexp⟩ := h
  refine nulFree_append.mpr ⟨?_, nulFree_append.mpr ⟨?_, nulFree_append.mpr ⟨?_, ?_⟩⟩⟩
  · rcases hsign with rfl | rfl <;> decide
  · rcases hint with rfl | ⟨d, ds, rfl, hd, hds⟩
    · decide
    · refine (nulFree_cons ?_).mpr (nulFree_digits hds)
      rintro rfl
      exact absurd hd.1 (by decide)
  · rcases hfrac with rfl | ⟨ds, rfl, -, hds⟩
    · decide
    · exact (nulFree_cons (by decide)).mpr (nulFree_digits hds)
  · rcases hexp with rfl | ⟨e, sign, ds, rfl, he, hsign, -, hds⟩
    · decide
    · refine (nulFree_cons ?_).mpr (nulFree_append.mpr ⟨?_, nulFree_digits hds⟩)
      · rcases he with rfl | rfl <;> decide
      · rcases hsign with rfl | rfl | rfl <;> decide

mutual

/-- No JSON text has a zero byte. -/
theorem nulFree_text : ∀ {j : Json} {t : Bytes}, Json.Text tooBig j t → NulFree t
  | _, _, .null => by decide
  | _, _, .true => by decide
  | _, _, .false => by decide
  | _, _, .number text _ => nulFree_number text
  | _, _, .string text => nulFree_string text
  | _, _, .emptyArray spaces => (nulFree_cons (by decide)).mpr
      (nulFree_append.mpr ⟨nulFree_spaces spaces, by decide⟩)
  | _, _, .array spaces elements => (nulFree_cons (by decide)).mpr (nulFree_append.mpr
      ⟨nulFree_spaces spaces, nulFree_append.mpr ⟨nulFree_elements elements, by decide⟩⟩)
  | _, _, .emptyObject spaces => (nulFree_cons (by decide)).mpr
      (nulFree_append.mpr ⟨nulFree_spaces spaces, by decide⟩)
  | _, _, .object spaces members => (nulFree_cons (by decide)).mpr (nulFree_append.mpr
      ⟨nulFree_spaces spaces, nulFree_append.mpr ⟨nulFree_members members, by decide⟩⟩)

theorem nulFree_elements : ∀ {js : List Json} {t : Bytes}, Json.Elements tooBig js t → NulFree t
  | _, _, .last text spaces => nulFree_append.mpr ⟨nulFree_text text, nulFree_spaces spaces⟩
  | _, _, .cons text spaces spaces' rest => nulFree_append.mpr ⟨nulFree_text text,
      nulFree_append.mpr ⟨nulFree_spaces spaces, (nulFree_cons (by decide)).mpr
        (nulFree_append.mpr ⟨nulFree_spaces spaces', nulFree_elements rest⟩)⟩⟩

theorem nulFree_members : ∀ {ms : List (Bytes × Json)} {t : Bytes},
    Json.Members tooBig ms t → NulFree t
  | _, _, .last name spaces spaces' text spaces'' => nulFree_append.mpr ⟨nulFree_string name,
      nulFree_append.mpr ⟨nulFree_spaces spaces, (nulFree_cons (by decide)).mpr (nulFree_append.mpr
        ⟨nulFree_spaces spaces', nulFree_append.mpr ⟨nulFree_text text, nulFree_spaces spaces''⟩⟩)⟩⟩
  | _, _, .cons name spaces spaces' text spaces'' spaces₃ rest => nulFree_append.mpr
      ⟨nulFree_string name, nulFree_append.mpr ⟨nulFree_spaces spaces,
        (nulFree_cons (by decide)).mpr (nulFree_append.mpr ⟨nulFree_spaces spaces',
          nulFree_append.mpr ⟨nulFree_text text, nulFree_append.mpr ⟨nulFree_spaces spaces'',
            (nulFree_cons (by decide)).mpr
              (nulFree_append.mpr ⟨nulFree_spaces spaces₃, nulFree_members rest⟩)⟩⟩⟩)⟩⟩

end

/-- Nor has a document. -/
theorem nulFree_document {j : Json} {json : Bytes} (h : Json.Document tooBig j json) :
    NulFree json := by
  obtain ⟨w, t, w', rfl, hw, hw', ht⟩ := h
  exact nulFree_append.mpr
    ⟨nulFree_spaces hw, nulFree_append.mpr ⟨nulFree_text ht, nulFree_spaces hw'⟩⟩

/-- A document is read as its value. -/
theorem parse_document {j : Json} {json : Bytes} (h : Json.Document tooBig j json) :
    parse tooBig json = some j := by
  rw [parse_iff, cstr_of_nulFree (nulFree_document h)]
  exact h

end OsgiManager.Rapidjson
