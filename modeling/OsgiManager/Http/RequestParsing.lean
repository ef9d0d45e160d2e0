import OsgiManager.Http.RequestGrammar

namespace OsgiManager.Http

open OsgiManager.Lib OsgiManager.Lib.Lang

/-!
# The parser against the grammar

Each state of the parser has a language: what can follow in a request, and what it does to
the request held so far.  `consume` goes from the language of one state to the residual after
the byte, which is the language of the next state.

* `stateLang` — the languages of the twenty states;
* `recognizes` — `consume` computes their residuals;
* `methodStart_iff` — the language of the first state is the grammar;
* `request_grammar_iff` — what `doReads` answers, and when the version numbers are exact.
-/

/-! ### The tests of the parser -/

theorem token_test : ∀ b : Byte,
    (!isChar (charToInt b) || isCtl (charToInt b) || isTspecial (charToInt b)) = !tokenChar b :=
  forall_byte (by decide +kernel)

theorem ctl_test : ∀ b : Byte, isCtl (charToInt b) = !textChar b := forall_byte (by decide +kernel)

theorem digit_test : ∀ b : Byte, isDigit (charToInt b) = digitChar b :=
  forall_byte (by decide +kernel)

theorem uriChar_of_ne {b : Byte} (h : b ≠ ' '.toUInt8) : uriChar b = textChar b := by
  simp [uriChar, h]

/-- No token byte is a blank. -/
theorem blank_of_tokenChar : ∀ b : Byte, tokenChar b = true → blank b = false :=
  forall_byte (by decide +kernel)

/-! ### The languages of the states -/

/-- The rest of a request from a header value on. -/
def valueLang : Lang Request := many textChar Request.pushValue cr (byte lf HeaderSection)

/-- The same from a continuation line on. -/
def lwsLang : Lang Request := skipMany blank textChar Request.pushValue cr (byte lf HeaderSection)

/-- The same from the middle of a header name on. -/
def nameLang : Lang Request :=
  many tokenChar Request.pushName ':'.toUInt8 (byte ' '.toUInt8 valueLang)

/-- The same from the middle of the minor version on. -/
def minorLang : Lang Request := many digitChar Request.pushMinor cr (byte lf HeaderSection)

/-- The same from the middle of the major version on. -/
def majorLang : Lang Request :=
  many digitChar Request.pushMajor '.'.toUInt8 (one digitChar Request.pushMinor minorLang)

/-- The same from the slash before the versions on. -/
def slashLang : Lang Request :=
  one (· = '/'.toUInt8) Request.clearVersions (one digitChar Request.pushMajor majorLang)

/-- The same from the protocol name on. -/
def httpLang : Lang Request :=
  byte 'H'.toUInt8 (byte 'T'.toUInt8 (byte 'T'.toUInt8 (byte 'P'.toUInt8 slashLang)))

/-- The same from the middle of the uri on. -/
def uriLang : Lang Request := many uriChar Request.pushUri ' '.toUInt8 httpLang

/-- The same from the middle of the method on. -/
def methodLang : Lang Request := many tokenChar Request.pushMethod ' '.toUInt8 uriLang

/-- The language of a state: what is still to come when the parser is in it, and what that
    makes of the request held so far. -/
def stateLang : State → Lang Request
  | .methodStart            => one tokenChar Request.pushMethod methodLang
  | .method                 => methodLang
  | .uri                    => uriLang
  | .httpVersionH           => httpLang
  | .httpVersionT1          => byte 'T'.toUInt8 (byte 'T'.toUInt8 (byte 'P'.toUInt8 slashLang))
  | .httpVersionT2          => byte 'T'.toUInt8 (byte 'P'.toUInt8 slashLang)
  | .httpVersionP           => byte 'P'.toUInt8 slashLang
  | .httpVersionSlash       => slashLang
  | .httpVersionMajorStart  => one digitChar Request.pushMajor majorLang
  | .httpVersionMajor       => majorLang
  | .httpVersionMinorStart  => one digitChar Request.pushMinor minorLang
  | .httpVersionMinor       => minorLang
  | .expectingNewline1      => byte lf HeaderSection
  | .headerLineStart        => HeaderSection
  | .headerLws              => lwsLang
  | .headerName             => nameLang
  | .spaceBeforeHeaderValue => byte ' '.toUInt8 valueLang
  | .headerValue            => valueLang
  | .expectingNewline2      => byte lf HeaderSection
  | .expectingNewline3      => byte lf done

/-! ### Pushing the bytes of a header line -/

theorem dropWhile_dropWhile (P : Byte → Bool) (w : Bytes) :
    (w.dropWhile P).dropWhile P = w.dropWhile P := by
  induction w with
  | nil => rfl
  | cons b w ih =>
    by_cases hb : P b = true
    · rw [List.dropWhile_cons_of_pos hb]
      exact ih
    · rw [List.dropWhile_cons_of_neg hb, List.dropWhile_cons_of_neg hb]

theorem foldl_pushName (w : Bytes) (req : Request) : w.foldl Request.pushName req =
    req.modifyBack fun h => { h with name := h.name ++ w } := by
  apply foldl_act
  · intro req
    simp only [List.append_nil]
    exact req.modifyBack_id
  · intro b w req
    rw [Request.pushName, Request.modifyBack_modifyBack]
    simp only [List.append_assoc, List.singleton_append]

theorem foldl_pushValue (w : Bytes) (req : Request) :
    w.foldl Request.pushValue req = req.addText w := by
  apply foldl_act
  · exact Request.addText_nil
  · intro b w req
    exact req.addText_addText [b] w

/-- A header line, pushed byte by byte. -/
theorem pushed_header (req : Request) (b : Byte) (name value : Bytes) :
    value.foldl Request.pushValue (name.foldl Request.pushName (req.newHeader b)) =
      req.addHeader (b :: name) value := by
  rw [foldl_pushValue, foldl_pushName]
  simp only [Request.addText, Request.modifyBack, Request.newHeader, Request.addHeader,
    List.modifyLast_concat, List.singleton_append, List.nil_append]

/-! ### The first byte of a header section -/

/-- The three ways in which a header section starts. -/
theorem headerSection_cases {req req' : Request} {w : Bytes} (h : HeaderSection req w req') :
    (w = crlf ∧ req' = req) ∨
    (∃ (name : Chars1 tokenChar) (value : Chars textChar) (y : Bytes),
      w = name.1 ++ ofString ": " ++ value.1 ++ crlf ++ y ∧
        HeaderSection (req.addHeader name.1 value.1) y req') ∨
    (req.headers ≠ [] ∧ ∃ (c : Continuation) (y : Bytes), w = c.render ++ y ∧
      HeaderSection (req.addText c.content) y req') := by
  cases h with
  | finish => exact .inl ⟨rfl, rfl⟩
  | header name value rest => exact .inr (.inl ⟨name, value, _, rfl, rest⟩)
  | continuation c some_header rest => exact .inr (.inr ⟨some_header, c, _, rfl, rest⟩)

/-- A string over a class that starts with `b`. -/
theorem exists_cons_of_chars1 {P : Byte → Bool} (w : Chars1 P) {t y : Bytes} {b : Byte}
    (h : b :: y = w.1 ++ t) :
    P b = true ∧ ∃ v, w.1 = b :: v ∧ y = v ++ t ∧ ∀ c ∈ v, P c = true := by
  obtain ⟨w, hne, hw⟩ := w
  cases w with
  | nil => exact absurd rfl hne
  | cons c v =>
    rw [List.cons_append, List.cons.injEq] at h
    obtain ⟨rfl, hy⟩ := h
    obtain ⟨hb, hv⟩ := List.forall_mem_cons.mp hw
    exact ⟨hb, v, rfl, hy, hv⟩

theorem headerSection_nil {req req' : Request} : ¬ HeaderSection req [] req' := by
  intro h
  rcases headerSection_cases h with ⟨hw, -⟩ | ⟨name, value, y, hw, -⟩ | ⟨-, c, y, hw, -⟩
  · cases hw
  · exact absurd hw (by simp [crlf])
  · exact absurd hw (by simp [Continuation.render, crlf])

/-- After a carriage return there is only the line feed. -/
theorem headerSection_cr {req req' : Request} {y : Bytes} :
    HeaderSection req (cr :: y) req' ↔ byte lf done req y req' := by
  rw [byte_iff]
  constructor
  · intro h
    rcases headerSection_cases h with ⟨hw, rfl⟩ | ⟨name, value, y', hw, -⟩ | ⟨-, c, y', hw, -⟩
    · exact ⟨[], (List.cons.inj hw).2, rfl, rfl⟩
    · -- neither a name nor blanks start with a carriage return
      simp only [List.append_assoc] at hw
      exact absurd (exists_cons_of_chars1 name hw).1 (by decide)
    · rw [Continuation.render, List.append_assoc] at hw
      exact absurd (exists_cons_of_chars1 c.blanks hw).1 (by decide)
  · rintro ⟨rest, rfl, rfl, rfl⟩
    exact .finish _

/-- A blank starts a continuation line, if there is a header. -/
theorem headerSection_blank {req req' : Request} {y : Bytes} {b : Byte} (hb : blank b = true) :
    HeaderSection req (b :: y) req' ↔ req.headers ≠ [] ∧ lwsLang req y req' := by
  constructor
  · intro h
    rcases headerSection_cases h with ⟨hw, -⟩ | ⟨name, value, y', hw, -⟩ | ⟨hne, c, y', hw, hrest⟩
    · rw [(List.cons.inj hw).1] at hb
      exact absurd hb (by decide)
    · simp only [List.append_assoc] at hw
      have hname := (exists_cons_of_chars1 name hw).1
      rw [blank_of_tokenChar b hname] at hb
      cases hb
    · -- the blanks and the text up to the carriage return
      rw [Continuation.render, List.append_assoc] at hw
      obtain ⟨-, bl, -, hy, hbl⟩ := exists_cons_of_chars1 c.blanks hw
      have hdrop : (bl ++ c.text.1).dropWhile blank = c.content :=
        List.dropWhile_append_of_pos hbl
      refine ⟨hne, bl ++ c.text.1, lf :: y', ?_, ?_, ?_⟩
      · simp [hy, crlf]
      · intro x hx
        rw [hdrop] at hx
        exact c.text.2 x ((List.dropWhile_suffix _).subset hx)
      · rw [hdrop, foldl_pushValue, byte_cons]
        exact ⟨rfl, hrest⟩
  · rintro ⟨hne, w, rest, rfl, hw, hk⟩
    obtain ⟨y', rfl, hrest⟩ := byte_iff.mp hk
    -- what is skipped belongs to the blanks of the line
    let c : Continuation :=
      { blanks := ⟨b :: w.takeWhile blank, by simp,
          List.forall_mem_cons.mpr ⟨hb, fun x hx => List.mem_takeWhile_imp hx⟩⟩
        text := ⟨w.dropWhile blank, hw⟩ }
    have hcontent : c.content = w.dropWhile blank := dropWhile_dropWhile blank w
    have hline : b :: (w ++ cr :: lf :: y') = c.render ++ y' := by
      show b :: (w ++ cr :: lf :: y') = b :: w.takeWhile blank ++ (w.dropWhile blank ++ crlf) ++ y'
      rw [← List.append_assoc, List.cons_append, List.takeWhile_append_dropWhile]
      simp [crlf]
    rw [hline]
    rw [foldl_pushValue, ← hcontent] at hrest
    exact .continuation c hne hrest

/-- Any other byte starts a header name. -/
theorem headerSection_name {req req' : Request} {y : Bytes} {b : Byte} (hcr : b ≠ cr)
    (hb : blank b = false) :
    HeaderSection req (b :: y) req' ↔ tokenChar b = true ∧ nameLang (req.newHeader b) y req' := by
  constructor
  · intro h
    rcases headerSection_cases h with ⟨hw, -⟩ | ⟨name, value, y', hw, hrest⟩ | ⟨-, c, y', hw, -⟩
    · exact absurd (List.cons.inj hw).1 hcr
    · -- the rest of the name, and then the value up to the carriage return
      simp only [List.append_assoc] at hw
      obtain ⟨htoken, nm, hname, hy, hnm⟩ := exists_cons_of_chars1 name hw
      refine ⟨htoken, nm, ' '.toUInt8 :: (value.1 ++ (crlf ++ y')), hy, hnm, ?_⟩
      rw [byte_cons]
      refine ⟨rfl, value.1, lf :: y', rfl, value.2, ?_⟩
      rw [byte_cons, pushed_header, ← hname]
      exact ⟨rfl, hrest⟩
    · rw [Continuation.render, List.append_assoc] at hw
      rw [(exists_cons_of_chars1 c.blanks hw).1] at hb
      cases hb
  · rintro ⟨htoken, nm, rest, rfl, hnm, hk⟩
    obtain ⟨rest, rfl, value, rest', rfl, hvalue, hk⟩ := byte_iff.mp hk
    obtain ⟨y', rfl, hrest⟩ := byte_iff.mp hk
    rw [pushed_header] at hrest
    have hsection := HeaderSection.header
      ⟨b :: nm, by simp, List.forall_mem_cons.mpr ⟨htoken, hnm⟩⟩ ⟨value, hvalue⟩ hrest
    simpa [ofString, crlf] using hsection

/-! ### Residuals -/

/-- `r` is the right answer to the byte `b` for a state with language `L` and request `req`:
    it goes on with the residual of `L`, or stops where `L` does. -/
def StepOk (L : Lang Request) (req : Request) (b : Byte) : Verdict × (State × Request) → Prop
  | (.good, p)          => ∀ y req', L req (b :: y) req' ↔ y = [] ∧ req' = p.2
  | (.bad, _)           => ∀ y req', ¬ L req (b :: y) req'
  | (.indeterminate, p) => ∀ y req', L req (b :: y) req' ↔ stateLang p.1 p.2 y req'

section
variable {req req' : Request} {b : Byte} {k : Lang Request} {P : Byte → Bool}
  {act : Request → Byte → Request} {p : State × Request} {next : State}

/-- A state that waits for one byte of a class. -/
theorem stepOk_one (hk : stateLang next = k) : StepOk (one P act k) req b
    (if P b = true then (.indeterminate, (next, act req b)) else (.bad, p)) := by
  split_ifs with hb
  · intro y req'
    rw [one_cons, hk]
    exact and_iff_right hb
  · intro y req'
    rw [one_cons]
    exact fun h => hb h.1

/-- A state that waits for a fixed byte. -/
theorem stepOk_byte {c : Byte} (hk : stateLang next = k) : StepOk (byte c k) req b
    (if b = c then (.indeterminate, (next, req)) else (.bad, p)) := by
  split_ifs with hb
  · intro y req'
    rw [byte_cons, hk]
    exact and_iff_right hb
  · intro y req'
    rw [byte_cons]
    exact fun h => hb h.1

/-- A state that reads a class up to a delimiter. -/
theorem stepOk_many {d : Byte} {this : State} (hd : P d = false)
    (hthis : stateLang this = many P act d k) (hk : stateLang next = k) :
    StepOk (many P act d k) req b (if b = d then (.indeterminate, (next, req))
      else if P b = true then (.indeterminate, (this, act req b)) else (.bad, p)) := by
  split_ifs with hb hP
  · intro y req'
    rw [hb, many_delim hd, hk]
  · intro y req'
    rw [many_cons hb, hthis]
    exact and_iff_right hP
  · intro y req'
    rw [many_cons hb]
    exact fun h => hP h.1

end

/-- **Step lemma.**  `consume` gives the right answer in every state, to every byte. -/
theorem consume_stepOk (state : State) (req : Request) (b : Byte) :
    StepOk (stateLang state) req b (consume (state, req) b) := by
  have hnot : ∀ (t : Bool) (x y : Verdict × (State × Request)),
      (if (!t) = true then x else y) = if t = true then y else x := by
    intro t x y
    cases t <;> rfl
  cases state with
  | methodStart =>
    simp only [consume, token_test, hnot]
    exact stepOk_one rfl
  | method =>
    simp only [consume, token_test, hnot]
    exact stepOk_many (by decide) rfl rfl
  | uri =>
    simp only [consume, ctl_test, hnot]
    -- past the test for the space, the class of the uri is that of a text
    by_cases hb : b = ' '.toUInt8
    · rw [if_pos hb, hb]
      exact fun y req' => many_delim (by decide)
    · rw [← uriChar_of_ne hb]
      exact stepOk_many (by decide) rfl rfl
  | httpVersionH => exact stepOk_byte rfl
  | httpVersionT1 => exact stepOk_byte rfl
  | httpVersionT2 => exact stepOk_byte rfl
  | httpVersionP => exact stepOk_byte rfl
  | httpVersionSlash =>
    simp only [consume]
    split_ifs with hb
    · exact fun y req' => one_cons.trans (and_iff_right (decide_eq_true hb))
    · exact fun y req' h => hb (of_decide_eq_true (one_cons.mp h).1)
  | httpVersionMajorStart =>
    simp only [consume, digit_test]
    exact stepOk_one rfl
  | httpVersionMajor =>
    simp only [consume, digit_test]
    exact stepOk_many (by decide) rfl rfl
  | httpVersionMinorStart =>
    simp only [consume, digit_test]
    exact stepOk_one rfl
  | httpVersionMinor =>
    simp only [consume, digit_test]
    exact stepOk_many (by decide) rfl rfl
  | expectingNewline1 => exact stepOk_byte rfl
  | headerLineStart =>
    simp only [consume, token_test, hnot]
    by_cases hcr : b = cr
    · rw [if_pos hcr, hcr]
      exact fun y req' => headerSection_cr
    · rw [if_neg hcr]
      have hblank : (decide (b = ' '.toUInt8) || decide (b = tab)) = blank b := rfl
      rw [hblank]
      cases hb : blank b with
      | true =>
        -- a blank is no token byte, so without a header the answer is bad
        have htoken : tokenChar b ≠ true := fun h => by rw [blank_of_tokenChar b h] at hb; cases hb
        rw [Bool.and_true, hnot, if_neg htoken]
        split_ifs with hempty
        · intro y req' h
          exact ((headerSection_blank hb).mp h).1 (List.isEmpty_iff.mp hempty)
        · intro y req'
          exact (headerSection_blank hb).trans (and_iff_right (mt List.isEmpty_iff.mpr hempty))
      | false =>
        rw [Bool.and_false, if_neg (by simp)]
        split_ifs with htoken
        · exact fun y req' => (headerSection_name hcr hb).trans (and_iff_right htoken)
        · exact fun y req' h => htoken ((headerSection_name hcr hb).mp h).1
  | headerLws =>
    simp only [consume, ctl_test, hnot]
    by_cases hcr : b = cr
    · rw [if_pos hcr, hcr]
      exact fun y req' => skipMany_delim (by decide) (by decide)
    · rw [if_neg hcr]
      have hblank : (decide (b = ' '.toUInt8) || decide (b = tab)) = blank b := rfl
      rw [hblank]
      cases hb : blank b with
      | true => exact fun y req' => skipMany_skip hcr hb
      | false =>
        rw [if_neg (by simp)]
        split_ifs with htext
        · exact fun y req' => (skipMany_start hcr hb).trans (and_iff_right htext)
        · exact fun y req' h => htext ((skipMany_start hcr hb).mp h).1
  | headerName =>
    simp only [consume, token_test, hnot]
    exact stepOk_many (by decide) rfl rfl
  | spaceBeforeHeaderValue => exact stepOk_byte rfl
  | headerValue =>
    simp only [consume, ctl_test, hnot]
    exact stepOk_many (by decide) rfl rfl
  | expectingNewline2 => exact stepOk_byte rfl
  | expectingNewline3 =>
    simp only [consume]
    split_ifs with hb
    · -- the only state that says that the input is complete
      intro y req'
      rw [hb]
      exact byte_cons.trans (and_iff_right rfl)
    · intro y req' h
      exact hb (byte_cons.mp h).1

/-- No state is complete already. -/
theorem stateLang_nil (state : State) (req req' : Request) : ¬ stateLang state req [] req' := by
  cases state with
  | methodStart | httpVersionSlash | httpVersionMajorStart | httpVersionMinorStart =>
    exact one_nil
  | method | uri | httpVersionMajor | httpVersionMinor | headerName | headerValue =>
    exact many_nil
  | headerLws => exact skipMany_nil
  | headerLineStart => exact headerSection_nil
  | httpVersionH | httpVersionT1 | httpVersionT2 | httpVersionP | expectingNewline1
  | spaceBeforeHeaderValue | expectingNewline2 | expectingNewline3 =>
    exact byte_nil

/-! ### Completion -/

theorem productive_headerSection : Productive HeaderSection := fun req => ⟨crlf, req, .finish req⟩

theorem productive_stateLang (state : State) : Productive (stateLang state) := by
  have hsection : Productive (byte lf HeaderSection) := productive_headerSection.byte
  have hvalue : Productive valueLang := hsection.many
  have hminor : Productive minorLang := hsection.many
  have hminor1 : Productive (one digitChar Request.pushMinor minorLang) :=
    hminor.one (b := '0'.toUInt8) (by decide)
  have hmajor : Productive majorLang := hminor1.many
  have hmajor1 : Productive (one digitChar Request.pushMajor majorLang) :=
    hmajor.one (b := '0'.toUInt8) (by decide)
  have hslash : Productive slashLang := hmajor1.one (b := '/'.toUInt8) (by decide)
  have huri : Productive uriLang := hslash.byte.byte.byte.byte.many
  cases state with
  | methodStart => exact (huri.many).one (b := 'A'.toUInt8) (by decide)
  | method => exact huri.many
  | uri => exact huri
  | httpVersionH => exact hslash.byte.byte.byte.byte
  | httpVersionT1 => exact hslash.byte.byte.byte
  | httpVersionT2 => exact hslash.byte.byte
  | httpVersionP => exact hslash.byte
  | httpVersionSlash => exact hslash
  | httpVersionMajorStart => exact hmajor1
  | httpVersionMajor => exact hmajor
  | httpVersionMinorStart => exact hminor1
  | httpVersionMinor => exact hminor
  | expectingNewline1 => exact hsection
  | headerLineStart => exact productive_headerSection
  | headerLws => exact hsection.skipMany
  | headerName => exact hvalue.byte.many
  | spaceBeforeHeaderValue => exact hvalue.byte
  | headerValue => exact hvalue
  | expectingNewline2 => exact hsection
  | expectingNewline3 => exact productive_done.byte

theorem stepOk_of_consume {p : State × Request} {b : Byte} {r : Verdict × (State × Request)}
    (h : consume p b = r) : StepOk (stateLang p.1) p.2 b r := h ▸ consume_stepOk p.1 p.2 b

/-- **The parser computes the residuals** of the languages of its states. -/
theorem recognizes : PushParser.Recognizes consume (fun p => stateLang p.1 p.2) Prod.snd where
  nil p req' := stateLang_nil p.1 p.2 req'
  viable p := productive_stateLang p.1 p.2
  good h := stepOk_of_consume h
  bad h := stepOk_of_consume h
  next h := stepOk_of_consume h

/-! ### The language of the first state -/

/-- The version number that the parser computes from some digits, starting at zero. -/
def parsedVersion (digits : Bytes) : Int := digits.foldl versionStep 0

/-- The request that the parser holds after a text. -/
def RequestText.parsed (r : RequestText) : Request :=
  { r.request with
    httpVersionMajor := parsedVersion r.major.1
    httpVersionMinor := parsedVersion r.minor.1 }

theorem foldl_pushMethod (w : Bytes) (req : Request) :
    w.foldl Request.pushMethod req = { req with method := req.method ++ w } := by
  apply foldl_act
  · intro req
    rw [List.append_nil]
  · intro b w req
    rw [Request.pushMethod, List.append_assoc, List.singleton_append]

theorem foldl_pushUri (w : Bytes) (req : Request) :
    w.foldl Request.pushUri req = { req with uri := req.uri ++ w } := by
  apply foldl_act
  · intro req
    rw [List.append_nil]
  · intro b w req
    rw [Request.pushUri, List.append_assoc, List.singleton_append]

theorem foldl_pushMajor (w : Bytes) (req : Request) : w.foldl Request.pushMajor req =
    { req with httpVersionMajor := w.foldl versionStep req.httpVersionMajor } := by
  apply foldl_act
  · intro req
    rfl
  · intro b w req
    rfl

theorem foldl_pushMinor (w : Bytes) (req : Request) : w.foldl Request.pushMinor req =
    { req with httpVersionMinor := w.foldl versionStep req.httpVersionMinor } := by
  apply foldl_act
  · intro req
    rfl
  · intro b w req
    rfl

/-- A class with at least one byte, up to a delimiter. -/
theorem one_many_iff {P : Byte → Bool} {act : Request → Byte → Request} {d : Byte}
    {k : Lang Request} {req req' : Request} {y : Bytes} :
    one P act (many P act d k) req y req' ↔
      ∃ (w : Chars1 P) (rest : Bytes), y = w.1 ++ d :: rest ∧ k (w.1.foldl act req) rest req' := by
  constructor
  · rintro ⟨b, rest, rfl, hb, w, rest', rfl, hw, hk⟩
    exact ⟨⟨b :: w, by simp, List.forall_mem_cons.mpr ⟨hb, hw⟩⟩, rest', rfl, hk⟩
  · rintro ⟨⟨w, hne, hw⟩, rest, rfl, hk⟩
    obtain ⟨b, w, rfl⟩ := List.exists_cons_of_ne_nil hne
    obtain ⟨hb, hw⟩ := List.forall_mem_cons.mp hw
    exact ⟨b, w ++ d :: rest, rfl, hb, w, rest, rfl, hw, hk⟩

/-- The same from the digits of the versions on. -/
theorem slashLang_iff {req req' : Request} {y : Bytes} : slashLang req y req' ↔
    ∃ (major minor : Chars1 digitChar) (rest : Bytes),
      y = ofString "/" ++ major.1 ++ ofString "." ++ minor.1 ++ crlf ++ rest ∧
        HeaderSection { req with
          httpVersionMajor := parsedVersion major.1
          httpVersionMinor := parsedVersion minor.1 } rest req' := by
  constructor
  · rintro ⟨b, y₁, rfl, hb, h₁⟩
    obtain ⟨major, y₂, rfl, h₂⟩ := one_many_iff.mp h₁
    obtain ⟨minor, y₃, rfl, h₃⟩ := one_many_iff.mp h₂
    obtain ⟨rest, rfl, hk⟩ := byte_iff.mp h₃
    refine ⟨major, minor, rest, ?_, ?_⟩
    · rw [of_decide_eq_true hb]
      simp [ofString, crlf]
    · rw [foldl_pushMajor, foldl_pushMinor] at hk
      exact hk
  · rintro ⟨major, minor, rest, rfl, hk⟩
    have hy : ofString "/" ++ major.1 ++ ofString "." ++ minor.1 ++ crlf ++ rest =
        '/'.toUInt8 :: (major.1 ++ '.'.toUInt8 :: (minor.1 ++ cr :: lf :: rest)) := by
      simp [ofString, crlf]
    rw [hy]
    refine ⟨_, _, rfl, decide_eq_true rfl, one_many_iff.mpr ⟨major, _, rfl, ?_⟩⟩
    refine one_many_iff.mpr ⟨minor, _, rfl, byte_iff.mpr ⟨rest, rfl, ?_⟩⟩
    rw [foldl_pushMajor, foldl_pushMinor]
    exact hk

/-- **The first state.**  What the parser accepts from its first state is the grammar, and what
    it then holds is the request of the text, with the version numbers it has computed. -/
theorem methodStart_iff {major minor : Int} {y : Bytes} {req' : Request} :
    stateLang .methodStart (.empty major minor) y req' ↔
      ∃ r : RequestText, r.render = y ∧ req' = r.parsed := by
  constructor
  · intro h
    obtain ⟨method, y₁, rfl, h₁⟩ := one_many_iff.mp h
    obtain ⟨uri, y₂, rfl, huri, h₂⟩ := h₁
    obtain ⟨y₃, rfl, h₃⟩ := byte_iff.mp h₂
    obtain ⟨y₄, rfl, h₄⟩ := byte_iff.mp h₃
    obtain ⟨y₅, rfl, h₅⟩ := byte_iff.mp h₄
    obtain ⟨y₆, rfl, h₆⟩ := byte_iff.mp h₅
    obtain ⟨major, minor, rest, rfl, hk⟩ := slashLang_iff.mp h₆
    rw [foldl_pushMethod, foldl_pushUri] at hk
    -- a fresh request has no header, so the section starts with no continuation line
    obtain ⟨cs, hs, hcs, rfl, rfl⟩ := headerSection_iff.mp hk
    rw [hcs rfl, List.flatMap_nil, List.flatMap_nil, Request.addText_nil]
    refine ⟨⟨method, ⟨uri, huri⟩, major, minor, hs⟩, ?_, rfl⟩
    simp [RequestText.render, ofString]
  · rintro ⟨⟨method, uri, major, minor, hs⟩, rfl, rfl⟩
    have hy : RequestText.render ⟨method, uri, major, minor, hs⟩ =
        method.1 ++ ' '.toUInt8 :: (uri.1 ++ ' '.toUInt8 :: 'H'.toUInt8 :: 'T'.toUInt8 ::
          'T'.toUInt8 :: 'P'.toUInt8 :: (ofString "/" ++ major.1 ++ ofString "." ++ minor.1 ++
            crlf ++ (hs.flatMap HeaderField.render ++ crlf))) := by
      simp [RequestText.render, ofString]
    rw [hy]
    refine one_many_iff.mpr ⟨method, _, rfl, uri.1, _, rfl, uri.2, ?_⟩
    refine byte_iff.mpr ⟨_, rfl, byte_iff.mpr ⟨_, rfl, ?_⟩⟩
    refine byte_iff.mpr ⟨_, rfl, byte_iff.mpr ⟨_, rfl, ?_⟩⟩
    rw [foldl_pushMethod, foldl_pushUri]
    exact slashLang_iff.mpr ⟨major, minor, _, rfl, .fields hs _⟩

/-! ### The version numbers -/

theorem digit_value : ∀ b : Byte, digitChar b = true →
    charToInt b - charToInt '0'.toUInt8 = ((b.toNat - '0'.toNat : Nat) : Int) :=
  forall_byte (by decide +kernel)

/-- A step of the parser on a wrapped number is the exact step, wrapped. -/
theorem versionStep_wrapInt (n : Nat) {b : Byte} (hb : digitChar b = true) :
    versionStep (wrapInt n) b = wrapInt (decimalStep n b) := by
  have hcast : (decimalStep n b : Int) = n * 10 + ((b.toNat - '0'.toNat : Nat) : Int) := by
    unfold decimalStep
    omega
  rw [versionStep, Int.add_sub_assoc, digit_value b hb, hcast]
  -- wrapping before and after the step makes no difference
  generalize ((b.toNat - '0'.toNat : Nat) : Int) = d
  unfold wrapInt
  rw [← Int.bmod_add_bmod, Int.bmod_mul_bmod, Int.bmod_add_bmod]

theorem foldl_versionStep {w : Bytes} (hw : ∀ b ∈ w, digitChar b = true) (n : Nat) :
    w.foldl versionStep (wrapInt n) = wrapInt (w.foldl decimalStep n : Nat) := by
  induction w generalizing n with
  | nil => rw [List.foldl_nil, List.foldl_nil]
  | cons b w ih =>
    obtain ⟨hb, hw⟩ := List.forall_mem_cons.mp hw
    rw [List.foldl_cons, List.foldl_cons, versionStep_wrapInt n hb]
    exact ih hw _

/-- The version computed is the exact number, wrapped to 32 bits. -/
theorem parsedVersion_eq (w : Chars1 digitChar) :
    parsedVersion w.1 = wrapInt (decimalValue w.1) := by
  have hzero : wrapInt (0 : Nat) = 0 := by simp [wrapInt]
  have hw := foldl_versionStep w.2.2 0
  rw [hzero] at hw
  exact hw

/-- The version computed is exact below 2 to the 31, and only there. -/
theorem parsedVersion_eq_iff (w : Chars1 digitChar) :
    parsedVersion w.1 = decimalValue w.1 ↔ decimalValue w.1 < 2 ^ 31 := by
  rw [parsedVersion_eq, wrapInt]
  constructor
  · intro h
    have hlt := Int.bmod_lt (x := (decimalValue w.1 : Int)) (m := 2 ^ 32) (by decide)
    rw [h] at hlt
    omega
  · intro h
    exact Int.bmod_eq_of_le (by omega) (by omega)

theorem parsed_eq_request_iff (r : RequestText) : r.parsed = r.request ↔
    decimalValue r.major.1 < 2 ^ 31 ∧ decimalValue r.minor.1 < 2 ^ 31 := by
  rw [← parsedVersion_eq_iff, ← parsedVersion_eq_iff]
  simp [RequestText.parsed, RequestText.request]

/-! ### The reads of a connection -/

/-- Some continuation of `w` is a request. -/
def Open (w : Bytes) : Prop := ∃ y, Grammatical (w ++ y)

/-- What the reads of a connection answer is what the grammar says about the bytes consumed. -/
structure Conforms (buffers : List Bytes) (verdict : Verdict) (req : Request) (consumed : Bytes) :
    Prop where
  consumed_front : consumed <+: buffers.flatten
  /-- The answer is good exactly when the bytes consumed form a request. -/
  good_iff : verdict = .good ↔ Grammatical consumed
  /-- It is bad exactly when they cannot be continued to one. -/
  bad_iff : verdict = .bad ↔ ¬ Open consumed
  /-- It was neither at any byte before. -/
  earlier : ∀ w, w <+: consumed → w ≠ consumed → Open w ∧ ¬ Grammatical w
  /-- Without an answer, everything has been consumed. -/
  whole : verdict = .indeterminate → consumed = buffers.flatten
  /-- After a good answer, the request held is the one that the bytes stand for. -/
  contents : verdict = .good → ∀ r : RequestText, r.render = consumed → req = r.request

/-- **The request grammar.**  However a stream is cut into buffers, the reads answer what the
    grammar says, at the right byte and with the right request, exactly when the stream does
    not start with a request one of whose version numbers is 2 to the 31 or more. -/
theorem request_grammar_iff (major minor : Int) (buffers : List Bytes) :
    Conforms buffers (doReads (.methodStart, .empty major minor) buffers).1
        (doReads (.methodStart, .empty major minor) buffers).2.1.2
        (buffers.flatten.take (doReads (.methodStart, .empty major minor) buffers).2.2) ↔
      ∀ r : RequestText, r.render <+: buffers.flatten →
        decimalValue r.major.1 < 2 ^ 31 ∧ decimalValue r.minor.1 < 2 ^ 31 := by
  have hanswers := PushParser.parse_spec recognizes (.methodStart, .empty major minor)
    buffers.flatten
  have hL : ∀ {w req}, stateLang .methodStart (.empty major minor) w req ↔
      ∃ r : RequestText, r.render = w ∧ req = r.parsed := methodStart_iff
  rw [doReads, PushParser.feed_eq_parse]
  rcases hp : PushParser.parse consume (.methodStart, .empty major minor) buffers.flatten with
    ⟨verdict, ⟨state, req⟩, left⟩
  rw [hp] at hanswers
  have hdecides := hanswers.decides
  have haccepts : ∀ w, PushParser.Accepts (stateLang .methodStart (.empty major minor)) w ↔
      Grammatical w := by
    intro w
    constructor
    · rintro ⟨req, h⟩
      obtain ⟨r, hr, -⟩ := hL.mp h
      exact ⟨r, hr⟩
    · rintro ⟨r, hr⟩
      exact ⟨r.parsed, hL.mpr ⟨r, hr, rfl⟩⟩
  have hviable : ∀ w, PushParser.Viable (stateLang .methodStart (.empty major minor)) w ↔ Open w :=
    fun w => exists_congr fun y => haccepts (w ++ y)
  -- a request at the start of the stream is what the parser stops at
  have hstop : ∀ r : RequestText, r.render <+: buffers.flatten → verdict = .good ∧
      r.render = buffers.flatten.take (buffers.flatten.length - left.length) ∧ r.parsed = req :=
    fun r hr => hanswers.of_accepts hr (hL.mpr ⟨r, rfl, rfl⟩)
  constructor
  · intro h r hr
    obtain ⟨hgood, hconsumed, hreq⟩ := hstop r hr
    rw [← parsed_eq_request_iff, hreq]
    exact h.contents hgood r hconsumed
  · intro h
    refine ⟨hdecides.consumed_front, ?_, ?_, fun w hw hne => ?_, hdecides.whole, ?_⟩
    · exact hdecides.good_iff.trans (haccepts _)
    · exact hdecides.bad_iff.trans (hviable _).not
    · rw [← hviable, ← haccepts]
      exact hdecides.earlier w hw hne
    · intro _ r hr
      have hprefix : r.render <+: buffers.flatten := hr ▸ hdecides.consumed_front
      rw [← (hstop r hprefix).2.2]
      exact (parsed_eq_request_iff r).mpr (h r hprefix)

/-- A request with a major version that does not fit into an `int`. -/
def wideVersion : RequestText where
  method  := ⟨ofString "GET", by decide +kernel⟩
  uri     := ⟨ofString "/", by decide +kernel⟩
  major   := ⟨ofString "2147483648", by decide +kernel⟩
  minor   := ⟨ofString "0", by decide +kernel⟩
  headers := []

/-- The parser accepts it and holds another number. -/
theorem wideVersion_not_conforms :
    ¬ Conforms [wideVersion.render] (doReads (.methodStart, .empty 0 0) [wideVersion.render]).1
      (doReads (.methodStart, .empty 0 0) [wideVersion.render]).2.1.2
      (([wideVersion.render] : List Bytes).flatten.take
        (doReads (.methodStart, .empty 0 0) [wideVersion.render]).2.2) := by
  intro h
  have hreq := h.contents (by decide +kernel) wideVersion (by decide +kernel)
  have hmajor := congrArg Request.httpVersionMajor hreq
  revert hmajor
  decide +kernel

end OsgiManager.Http
