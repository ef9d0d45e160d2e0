import OsgiManager.Http.RequestParser
import OsgiManager.Lib.Lang

namespace OsgiManager.Http

open OsgiManager.Lib

/-!
# The request grammar

What a request is, independently of the parser: a request line, header lines with their
continuation lines, and an empty line.  The pieces are subtypes that carry their character
class, so that every `RequestText` is well formed.

* `RequestText.render` — the bytes of a request; `Grammatical` — being such bytes;
* `RequestText.request` — what a request says, with exact version numbers;
* `HeaderSection` — the header lines as a language with an effect, and
  `headerSection_iff`, which compares it with the grammar.
-/

/-! ### Character classes -/

/-- ASCII, and neither a control character nor a special one: the bytes of a method and of a
    header name. -/
def tokenChar (b : Byte) : Bool := b < 128 && !(b < 32 || b = 127) && !tspecials.contains b

/-- No control character: the bytes of a header value. -/
def textChar (b : Byte) : Bool := !(b < 32 || b = 127)

/-- Neither a control character nor a space: the bytes of a uri. -/
def uriChar (b : Byte) : Bool := textChar b && b ≠ ' '.toUInt8

/-- A decimal digit. -/
def digitChar (b : Byte) : Bool := '0'.toUInt8 ≤ b && b ≤ '9'.toUInt8

/-- A space or a tab. -/
def blank (b : Byte) : Bool := b = ' '.toUInt8 || b = tab

/-- A possibly empty string over a class. -/
abbrev Chars (P : Byte → Bool) := {w : Bytes // ∀ b ∈ w, P b = true}

/-- A string over a class with at least one byte. -/
abbrev Chars1 (P : Byte → Bool) := {w : Bytes // w ≠ [] ∧ ∀ b ∈ w, P b = true}

/-! ### The grammar -/

/-- The end of a line. -/
def crlf : Bytes := [cr, lf]

/-- A continuation line: at least one blank, and a text. -/
structure Continuation where
  blanks : Chars1 blank
  text : Chars textChar

/-- A header line with the continuation lines after it. -/
structure HeaderField where
  name : Chars1 tokenChar
  value : Chars textChar
  continuations : List Continuation

/-- A request. -/
structure RequestText where
  method : Chars1 tokenChar
  uri : Chars uriChar
  major : Chars1 digitChar
  minor : Chars1 digitChar
  headers : List HeaderField

def Continuation.render (c : Continuation) : Bytes := c.blanks.1 ++ (c.text.1 ++ crlf)

def HeaderField.render (h : HeaderField) : Bytes :=
  h.name.1 ++ ofString ": " ++ h.value.1 ++ crlf ++ h.continuations.flatMap Continuation.render

def RequestText.render (r : RequestText) : Bytes :=
  r.method.1 ++ ofString " " ++ r.uri.1 ++ ofString " HTTP/" ++ r.major.1 ++ ofString "." ++
    r.minor.1 ++ crlf ++ r.headers.flatMap HeaderField.render ++ crlf

/-- The bytes of a request. -/
def Grammatical (w : Bytes) : Prop := ∃ r : RequestText, r.render = w

/-! ### What a request says -/

/-- The text of a continuation line; blanks in front of it belong to the blanks. -/
def Continuation.content (c : Continuation) : Bytes := c.text.1.dropWhile blank

/-- A header: the texts of the continuation lines are appended to the value. -/
def HeaderField.header (h : HeaderField) : Header where
  name  := h.name.1
  value := h.value.1 ++ h.continuations.flatMap Continuation.content

/-- One more digit of a decimal number. -/
def decimalStep (n : Nat) (b : Byte) : Nat := n * 10 + (b.toNat - '0'.toNat)

/-- The number written by some decimal digits. -/
def decimalValue (digits : Bytes) : Nat := digits.foldl decimalStep 0

/-- The request a text stands for. -/
def RequestText.request (r : RequestText) : Request where
  method  := r.method.1
  uri     := r.uri.1
  httpVersionMajor := decimalValue r.major.1
  httpVersionMinor := decimalValue r.minor.1
  headers := r.headers.map HeaderField.header

/-! ### The header section -/

/-- A header line added to a request. -/
def Request.addHeader (req : Request) (name value : Bytes) : Request :=
  { req with headers := req.headers ++ [⟨name, value⟩] }

/-- Some headers added to a request. -/
def Request.addHeaders (req : Request) (headers : List Header) : Request :=
  { req with headers := req.headers ++ headers }

/-- A text appended to the value of the last header. -/
def Request.addText (req : Request) (text : Bytes) : Request :=
  req.modifyBack fun h => { h with value := h.value ++ text }

/-- The bytes from the start of a header line to the end of the request, with what they do to
    the request; a continuation line needs a header line before it. -/
inductive HeaderSection : Lang Request
  | finish (req : Request) : HeaderSection req crlf req
  | header {req req' : Request} {y : Bytes} (name : Chars1 tokenChar) (value : Chars textChar)
      (rest : HeaderSection (req.addHeader name.1 value.1) y req') :
      HeaderSection req (name.1 ++ ofString ": " ++ value.1 ++ crlf ++ y) req'
  | continuation {req req' : Request} {y : Bytes} (c : Continuation)
      (some_header : req.headers ≠ [])
      (rest : HeaderSection (req.addText c.content) y req') :
      HeaderSection req (c.render ++ y) req'

theorem Request.addText_nil (req : Request) : req.addText [] = req := by
  simp only [Request.addText, List.append_nil]
  exact req.modifyBack_id

theorem Request.addText_addText (req : Request) (s t : Bytes) :
    (req.addText s).addText t = req.addText (s ++ t) := by
  rw [Request.addText, Request.addText, Request.modifyBack_modifyBack]
  simp only [Request.addText, List.append_assoc]

theorem Request.addText_addHeader (req : Request) (name value text : Bytes) :
    (req.addHeader name value).addText text = req.addHeader name (value ++ text) := by
  simp only [Request.addHeader, Request.addText, Request.modifyBack, List.modifyLast_concat]

theorem Request.addHeaders_nil (req : Request) : req.addHeaders [] = req := by
  simp [Request.addHeaders]

theorem Request.addHeaders_cons (req : Request) (h : Header) (hs : List Header) :
    req.addHeaders (h :: hs) = (req.addHeader h.name h.value).addHeaders hs := by
  simp [Request.addHeaders, Request.addHeader]

/-- Continuation lines can stand before the rest of a header section if a header does. -/
theorem HeaderSection.continuations {cs : List Continuation} {req req' : Request} {y : Bytes}
    (hne : req.headers ≠ [])
    (h : HeaderSection (req.addText (cs.flatMap Continuation.content)) y req') :
    HeaderSection req (cs.flatMap Continuation.render ++ y) req' := by
  induction cs generalizing req with
  | nil =>
    rw [List.flatMap_nil, Request.addText_nil] at h
    exact h
  | cons c cs ih =>
    rw [List.flatMap_cons, ← Request.addText_addText] at h
    rw [List.flatMap_cons, List.append_assoc]
    have hne' : (req.addText c.content).headers ≠ [] := by
      rcases List.eq_nil_or_concat req.headers with h0 | ⟨hs, last, hl⟩
      · exact absurd h0 hne
      · simp [Request.addText, Request.modifyBack, hl, List.modifyLast_concat]
    exact .continuation c hne (ih hne' h)

/-- Header lines, each with its continuation lines, and the empty line. -/
theorem HeaderSection.fields (hs : List HeaderField) (req : Request) :
    HeaderSection req (hs.flatMap HeaderField.render ++ crlf)
      (req.addHeaders (hs.map HeaderField.header)) := by
  induction hs generalizing req with
  | nil =>
    rw [List.map_nil, Request.addHeaders_nil]
    exact .finish req
  | cons h hs ih =>
    have hrender : (h :: hs).flatMap HeaderField.render ++ crlf =
        h.name.1 ++ ofString ": " ++ h.value.1 ++ crlf ++
          (h.continuations.flatMap Continuation.render ++
            (hs.flatMap HeaderField.render ++ crlf)) := by
      simp [HeaderField.render]
    rw [hrender, List.map_cons, Request.addHeaders_cons]
    refine .header h.name h.value (.continuations ?_ ?_)
    · simp [Request.addHeader]
    · rw [Request.addText_addHeader]
      exact ih _

/-- **The header section.**  It consists of continuation lines of the last header, if there is
    one, of header lines with their own continuation lines, and of an empty line. -/
theorem headerSection_iff {req req' : Request} {y : Bytes} : HeaderSection req y req' ↔
    ∃ (cs : List Continuation) (hs : List HeaderField), (req.headers = [] → cs = []) ∧
      y = cs.flatMap Continuation.render ++ (hs.flatMap HeaderField.render ++ crlf) ∧
      req' = (req.addText (cs.flatMap Continuation.content)).addHeaders
        (hs.map HeaderField.header) := by
  constructor
  · intro h
    induction h with
    | finish req =>
      refine ⟨[], [], fun _ => rfl, rfl, ?_⟩
      rw [List.flatMap_nil, Request.addText_nil, List.map_nil, Request.addHeaders_nil]
    | header name value rest ih =>
      -- the continuation lines at the front of the rest are those of this header
      obtain ⟨cs, hs, _, rfl, rfl⟩ := ih
      refine ⟨[], ⟨name, value, cs⟩ :: hs, fun _ => rfl, ?_, ?_⟩
      · simp [HeaderField.render]
      · rw [Request.addText_addHeader, List.flatMap_nil, Request.addText_nil, List.map_cons,
          Request.addHeaders_cons]
        rfl
    | continuation c some_header rest ih =>
      -- one more continuation line at the front
      obtain ⟨cs, hs, _, rfl, rfl⟩ := ih
      refine ⟨c :: cs, hs, fun h => absurd h some_header, ?_, ?_⟩
      · rw [List.flatMap_cons, List.append_assoc]
      · rw [Request.addText_addText, List.flatMap_cons]
  · rintro ⟨cs, hs, hcs, rfl, rfl⟩
    by_cases hne : req.headers = []
    · -- without a header there are no continuation lines
      rw [hcs hne, List.flatMap_nil, List.flatMap_nil, Request.addText_nil]
      exact .fields hs req
    · exact .continuations hne (.fields hs _)

end OsgiManager.Http
