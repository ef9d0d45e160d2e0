import OsgiManager.Http.Messages
import OsgiManager.Lib.PushParser
import Mathlib.Data.List.ModifyLast
import Mathlib.Algebra.Group.Nat.Defs

namespace OsgiManager.Http

open OsgiManager.Lib

/-!
# The request parser

`request_parser` is a state machine that is fed one byte at a time and fills a request as it
goes.  `consume` is its transition function, `parse` the loop over one buffer, and `doReads`
what `connection::do_read` makes of a sequence of buffers: it reads on as long as the parser
wants more, and ignores what is left of the last buffer.
-/

/-! ### Character classes -/

/-- `'\r'`. -/
def cr : Byte := 13

/-- `'\n'`. -/
def lf : Byte := 10

/-- `'\t'`. -/
def tab : Byte := 9

/-- A `char` as the `int` it is promoted to. -/
def charToInt (c : Byte) : Int := c.toInt8.toInt

/-- `is_char`. -/
def isChar (c : Int) : Bool := 0 ≤ c && c ≤ 127

/-- `is_ctl`. -/
def isCtl (c : Int) : Bool := (0 ≤ c && c ≤ 31) || c = 127

/-- The cases of `is_tspecial`. -/
def tspecials : Bytes := ofString "()<>@,;:\\\"/[]?=\x7b\x7d \t"

/-- `is_tspecial`. -/
def isTspecial (c : Int) : Bool := (tspecials.map charToInt).contains c

/-- `is_digit`. -/
def isDigit (c : Int) : Bool := charToInt '0'.toUInt8 ≤ c && c ≤ charToInt '9'.toUInt8

/-! ### What the transitions do to the request -/

/-- An `int` result, in 32 bits. -/
def wrapInt (n : Int) : Int := n.bmod (2 ^ 32)

/-- `version * 10 + input - '0'`. -/
def versionStep (version : Int) (input : Byte) : Int :=
  wrapInt (version * 10 + charToInt input - charToInt '0'.toUInt8)

namespace Request

def pushMethod (req : Request) (input : Byte) : Request :=
  { req with method := req.method ++ [input] }

def pushUri (req : Request) (input : Byte) : Request := { req with uri := req.uri ++ [input] }

def clearVersions (req : Request) (_input : Byte) : Request :=
  { req with httpVersionMajor := 0, httpVersionMinor := 0 }

def pushMajor (req : Request) (input : Byte) : Request :=
  { req with httpVersionMajor := versionStep req.httpVersionMajor input }

def pushMinor (req : Request) (input : Byte) : Request :=
  { req with httpVersionMinor := versionStep req.httpVersionMinor input }

/-- `headers.push_back(header())` and the first byte of its name. -/
def newHeader (req : Request) (input : Byte) : Request :=
  { req with headers := req.headers ++ [⟨[input], []⟩] }

/-- A change of `headers.back()`. -/
def modifyBack (req : Request) (f : Header → Header) : Request :=
  { req with headers := req.headers.modifyLast f }

/-- `headers.back().name.push_back(input)`. -/
def pushName (req : Request) (input : Byte) : Request :=
  req.modifyBack fun h => { h with name := h.name ++ [input] }

/-- `headers.back().value.push_back(input)`. -/
def pushValue (req : Request) (input : Byte) : Request :=
  req.modifyBack fun h => { h with value := h.value ++ [input] }

theorem modifyBack_id (req : Request) : (req.modifyBack fun h => h) = req := by
  rcases req with ⟨m, u, a, i, hs⟩
  rcases List.eq_nil_or_concat hs with rfl | ⟨hs, h, rfl⟩
  · rfl
  · rw [List.concat_eq_append, modifyBack, List.modifyLast_concat]

theorem modifyBack_modifyBack (req : Request) (f g : Header → Header) :
    (req.modifyBack f).modifyBack g = req.modifyBack fun h => g (f h) := by
  rcases req with ⟨m, u, a, i, hs⟩
  rcases List.eq_nil_or_concat hs with rfl | ⟨hs, h, rfl⟩
  · rfl
  · simp only [List.concat_eq_append, modifyBack, List.modifyLast_concat]

end Request

/-! ### The machine -/

/-- `request_parser::state`. -/
inductive State where
  | methodStart | method | uri
  | httpVersionH | httpVersionT1 | httpVersionT2 | httpVersionP | httpVersionSlash
  | httpVersionMajorStart | httpVersionMajor | httpVersionMinorStart | httpVersionMinor
  | expectingNewline1 | headerLineStart | headerLws | headerName
  | spaceBeforeHeaderValue | headerValue | expectingNewline2 | expectingNewline3
deriving DecidableEq

/-- `consume`: the answer to one byte, with the state and the request after it. -/
def consume : State × Request → Byte → Verdict × (State × Request)
  | (state, req), input =>
    let c := charToInt input
    let bad := (Verdict.bad, (state, req))
    let goOn (state : State) (req : Request) := (Verdict.indeterminate, (state, req))
    match state with
    | .methodStart =>
        if !isChar c || isCtl c || isTspecial c then bad else goOn .method (req.pushMethod input)
    | .method =>
        if input = ' '.toUInt8 then goOn .uri req
        else if !isChar c || isCtl c || isTspecial c then bad
        else goOn .method (req.pushMethod input)
    | .uri =>
        if input = ' '.toUInt8 then goOn .httpVersionH req
        else if isCtl c then bad
        else goOn .uri (req.pushUri input)
    | .httpVersionH     => if input = 'H'.toUInt8 then goOn .httpVersionT1 req else bad
    | .httpVersionT1    => if input = 'T'.toUInt8 then goOn .httpVersionT2 req else bad
    | .httpVersionT2    => if input = 'T'.toUInt8 then goOn .httpVersionP req else bad
    | .httpVersionP     => if input = 'P'.toUInt8 then goOn .httpVersionSlash req else bad
    | .httpVersionSlash =>
        if input = '/'.toUInt8 then goOn .httpVersionMajorStart (req.clearVersions input) else bad
    | .httpVersionMajorStart =>
        if isDigit c then goOn .httpVersionMajor (req.pushMajor input) else bad
    | .httpVersionMajor =>
        if input = '.'.toUInt8 then goOn .httpVersionMinorStart req
        else if isDigit c then goOn .httpVersionMajor (req.pushMajor input)
        else bad
    | .httpVersionMinorStart =>
        if isDigit c then goOn .httpVersionMinor (req.pushMinor input) else bad
    | .httpVersionMinor =>
        if input = cr then goOn .expectingNewline1 req
        else if isDigit c then goOn .httpVersionMinor (req.pushMinor input)
        else bad
    | .expectingNewline1 => if input = lf then goOn .headerLineStart req else bad
    | .headerLineStart =>
        if input = cr then goOn .expectingNewline3 req
        -- a blank continues the last header line, if there is one
        else if !req.headers.isEmpty && (input = ' '.toUInt8 || input = tab) then
          goOn .headerLws req
        else if !isChar c || isCtl c || isTspecial c then bad
        else goOn .headerName (req.newHeader input)
    | .headerLws =>
        if input = cr then goOn .expectingNewline2 req
        else if input = ' '.toUInt8 || input = tab then goOn .headerLws req
        else if isCtl c then bad
        else goOn .headerValue (req.pushValue input)
    | .headerName =>
        if input = ':'.toUInt8 then goOn .spaceBeforeHeaderValue req
        else if !isChar c || isCtl c || isTspecial c then bad
        else goOn .headerName (req.pushName input)
    | .spaceBeforeHeaderValue =>
        if input = ' '.toUInt8 then goOn .headerValue req else bad
    | .headerValue =>
        if input = cr then goOn .expectingNewline2 req
        else if isCtl c then bad
        else goOn .headerValue (req.pushValue input)
    | .expectingNewline2 => if input = lf then goOn .headerLineStart req else bad
    | .expectingNewline3 =>
        if input = lf then (Verdict.good, (.expectingNewline3, req)) else bad

/-- `request_parser::parse` on one buffer: the answer, the state, and the bytes left over. -/
def parse (p : State × Request) (buffer : Bytes) : Verdict × (State × Request) × Bytes :=
  PushParser.parse consume p buffer

/-- The reads of a connection: the answer, the state, and the number of bytes consumed. -/
def doReads (p : State × Request) (buffers : List Bytes) : Verdict × (State × Request) × Nat :=
  PushParser.feed consume p buffers

/-- A request as a connection holds it before the first read: the strings and the headers are
    empty, and the two versions are whatever is in memory. -/
def Request.empty (major minor : Int) : Request := ⟨[], [], major, minor, []⟩

example : (doReads (.methodStart, .empty 7 7)
    [ofString "GET / HT", ofString "TP/1.0\r\nHost: a\r\n b\r\n\r\nmore"]) =
      (.good, (.expectingNewline3, ⟨ofString "GET", ofString "/", 1, 0,
        [⟨ofString "Host", ofString "ab"⟩]⟩), 31) := by decide +kernel

end OsgiManager.Http
