import OsgiManager.Lib.Json
import OsgiManager.Lib.Loop

namespace OsgiManager.Rapidjson

open OsgiManager.Lib

/-!
# The JSON reader

`GenericReader` with the flags of `Document::Parse`: none, so the recursive functions run, on
UTF-8 that is copied and not validated.  A stream is what is left of the text; the zero byte
after it is what `Peek` shows at its end.  Every function gives what it has read and what is
left, or `none` for a parse error.

* `parseString` — a string after its quotation mark, with the loop of `ParseStringToStream`;
* `parseNumber` — a number, kept as it is written;
* `parseValue`, `parseMembers`, `parseElements` — the recursion;
* `parse` — a whole text.

The recursion is cut off by fuel; `parse` gives it as much as the text has bytes.
-/

/-- `is.Peek()`. -/
def peek (is : Bytes) : Byte := is.headD 0

/-- `Consume`: takes a character if it is the expected one. -/
def consume (expect : Byte) (is : Bytes) : Option Bytes :=
  if peek is = expect then some is.tail else none

/-- `SkipWhitespace`. -/
def skipWhitespace (is : Bytes) : Bytes := is.dropWhile Json.isSpace

/-! ### Words -/

/-- `ParseNull`, `ParseTrue` and `ParseFalse`: the first character has been looked at, the others
    are consumed one by one. -/
def parseWord (value : Json) (others : Bytes) (is : Bytes) : Option (Json × Bytes) :=
  (others.foldlM (fun is expect => consume expect is) is.tail).map fun is => (value, is)

def parseNull : Bytes → Option (Json × Bytes) := parseWord .null (ofString "ull")

def parseTrue : Bytes → Option (Json × Bytes) := parseWord (.bool true) (ofString "rue")

def parseFalse : Bytes → Option (Json × Bytes) := parseWord (.bool false) (ofString "alse")

/-! ### Strings -/

/-- One pass of the loop of `ParseHex4`. -/
def hexStep : Nat × Bytes → Option (Nat × Bytes)
  | (codepoint, is) =>
    if '0'.toUInt8 ≤ peek is ∧ peek is ≤ '9'.toUInt8 then
      some (codepoint <<< 4 + (peek is).toNat - '0'.toNat, is.tail)
    else if 'A'.toUInt8 ≤ peek is ∧ peek is ≤ 'F'.toUInt8 then
      some (codepoint <<< 4 + (peek is).toNat - ('A'.toNat - 10), is.tail)
    else if 'a'.toUInt8 ≤ peek is ∧ peek is ≤ 'f'.toUInt8 then
      some (codepoint <<< 4 + (peek is).toNat - ('a'.toNat - 10), is.tail)
    else none

/-- `ParseHex4`. -/
def parseHex4 (is : Bytes) : Option (Nat × Bytes) :=
  (((hexStep (0, is)).bind hexStep).bind hexStep).bind hexStep

/-- `UTF8::Encode`. -/
def encode (codepoint : Nat) : Bytes :=
  if codepoint ≤ 0x7F then [.ofNat (codepoint &&& 0xFF)]
  else if codepoint ≤ 0x7FF then
    [.ofNat (0xC0 ||| (codepoint >>> 6 &&& 0xFF)), .ofNat (0x80 ||| (codepoint &&& 0x3F))]
  else if codepoint ≤ 0xFFFF then
    [.ofNat (0xE0 ||| (codepoint >>> 12 &&& 0xFF)), .ofNat (0x80 ||| (codepoint >>> 6 &&& 0x3F)),
      .ofNat (0x80 ||| (codepoint &&& 0x3F))]
  else
    [.ofNat (0xF0 ||| (codepoint >>> 18 &&& 0xFF)), .ofNat (0x80 ||| (codepoint >>> 12 &&& 0x3F)),
      .ofNat (0x80 ||| (codepoint >>> 6 &&& 0x3F)), .ofNat (0x80 ||| (codepoint &&& 0x3F))]

/-- The table `escape` of `ParseStringToStream`, with zero for the characters that are none. -/
def escape (e : Byte) : Byte :=
  if e = '"'.toUInt8 then '"'.toUInt8
  else if e = '/'.toUInt8 then '/'.toUInt8
  else if e = '\\'.toUInt8 then '\\'.toUInt8
  else if e = 'b'.toUInt8 then 8
  else if e = 'f'.toUInt8 then 12
  else if e = 'n'.toUInt8 then 10
  else if e = 'r'.toUInt8 then 13
  else if e = 't'.toUInt8 then 9
  else 0

/-- The branch for a code unit, after `\u`: the code point. -/
def parseUnicode (is : Bytes) : Option (Nat × Bytes) :=
  (parseHex4 is).bind fun (codepoint, is) =>
    if codepoint ≥ 0xD800 ∧ codepoint ≤ 0xDBFF then
      -- the other half of a surrogate pair has to follow
      ((consume '\\'.toUInt8 is).bind (consume 'u'.toUInt8)).bind fun is =>
        (parseHex4 is).bind fun (codepoint2, is) =>
          if codepoint2 < 0xDC00 ∨ codepoint2 > 0xDFFF then none
          else some ((((codepoint - 0xD800) <<< 10) ||| (codepoint2 - 0xDC00)) + 0x10000, is)
    else some (codepoint, is)

/-- One pass of the loop of `ParseStringToStream`: what has been put to the output, and the
    stream; the loop leaves with them, or with an error. -/
def stringBody : Bytes × Bytes → (Bytes × Bytes) ⊕ Option (Bytes × Bytes)
  | (os, is) =>
    if peek is = '\\'.toUInt8 then
      if escape (peek is.tail) ≠ 0 then .inl (os ++ [escape (peek is.tail)], is.tail.tail)
      else if peek is.tail = 'u'.toUInt8 then
        match parseUnicode is.tail.tail with
        | some (codepoint, is) => .inl (os ++ encode codepoint, is)
        | none                 => .inr none
      else .inr none
    else if peek is = '"'.toUInt8 then .inr (some (os, is.tail))
    -- control characters, and the end of the text
    else if peek is < 0x20 then .inr none
    else .inl (os ++ [peek is], is.tail)

/-- `ParseString`, at the quotation mark. -/
def parseString (is : Bytes) : Option (Bytes × Bytes) :=
  (Loop.run stringBody (is.tail.length + 1) ([], is.tail)).join

/-! ### Numbers -/

/-- The digits in front of a stream, and the stream after them. -/
def takeDigits (is : Bytes) : Bytes × Bytes :=
  (is.takeWhile Json.isDigit, is.dropWhile Json.isDigit)

/-- zero / ( digit1-9 *DIGIT ): the loops for 32 and 64 bits and for doubles take all digits. -/
def parseInt (s : Bytes) : Option (Bytes × Bytes) :=
  if peek s = '0'.toUInt8 then some ([peek s], s.tail)
  else if '1'.toUInt8 ≤ peek s ∧ peek s ≤ '9'.toUInt8 then
    some (peek s :: (takeDigits s.tail).1, (takeDigits s.tail).2)
  else none

/-- frac = decimal-point 1*DIGIT. -/
def parseFrac (s : Bytes) : Option (Bytes × Bytes) :=
  if peek s = '.'.toUInt8 then
    if Json.isDigit (peek s.tail) then
      some (peek s :: (takeDigits s.tail).1, (takeDigits s.tail).2)
    else none
  else some ([], s)

/-- [ minus / plus ]. -/
def parseExpSign (s : Bytes) : Bytes × Bytes :=
  if peek s = '+'.toUInt8 ∨ peek s = '-'.toUInt8 then ([peek s], s.tail) else ([], s)

/-- exp = e [ minus / plus ] 1*DIGIT. -/
def parseExp (s : Bytes) : Option (Bytes × Bytes) :=
  if peek s = 'e'.toUInt8 ∨ peek s = 'E'.toUInt8 then
    if Json.isDigit (peek (parseExpSign s.tail).2) then
      some (peek s :: ((parseExpSign s.tail).1 ++ (takeDigits (parseExpSign s.tail).2).1),
        (takeDigits (parseExpSign s.tail).2).2)
    else none
  else some ([], s)

/-- `Consume(s, '-')`. -/
def parseMinus (s : Bytes) : Bytes × Bytes :=
  if peek s = '-'.toUInt8 then ([peek s], s.tail) else ([], s)

/-- `ParseNumber`.  The conversion gives up on the numbers that are `tooBig`. -/
def parseNumber (tooBig : Bytes → Bool) (is : Bytes) : Option (Json × Bytes) :=
  (parseInt (parseMinus is).2).bind fun int =>
    (parseFrac int.2).bind fun frac =>
      (parseExp frac.2).bind fun exp =>
        let text := (parseMinus is).1 ++ (int.1 ++ (frac.1 ++ exp.1))
        if tooBig text then none else some (.number text, exp.2)

/-! ### Values -/

/-- `ParseObject` and `ParseArray` up to their loops: nothing between the brackets, or what the
    loop reads. -/
def parseBracketed {α : Type} (close : Byte) (value : List α → Json)
    (loop : Bytes → Option (List α × Bytes)) (is : Bytes) : Option (Json × Bytes) :=
  if peek (skipWhitespace is.tail) = close then some (value [], (skipWhitespace is.tail).tail)
  else (loop (skipWhitespace is.tail)).map fun p => (value p.1, p.2)

def parseObject : (Bytes → Option (List (Bytes × Json) × Bytes)) → Bytes → Option (Json × Bytes) :=
  parseBracketed '}'.toUInt8 .object

def parseArray : (Bytes → Option (List Json × Bytes)) → Bytes → Option (Json × Bytes) :=
  parseBracketed ']'.toUInt8 .array

/-- The end of a pass of their loops: another item after a comma, or the closing bracket. -/
def parseNext {α : Type} (close : Byte) (loop : Bytes → Option (List α × Bytes)) (item : α)
    (is : Bytes) : Option (List α × Bytes) :=
  if peek (skipWhitespace is) = ','.toUInt8 then
    (loop (skipWhitespace (skipWhitespace is).tail)).map fun p => (item :: p.1, p.2)
  else if peek (skipWhitespace is) = close then some ([item], (skipWhitespace is).tail)
  else none

mutual

/-- `ParseValue`. -/
def parseValue (tooBig : Bytes → Bool) : Nat → Bytes → Option (Json × Bytes)
  | 0, _        => none
  | fuel + 1, is =>
      if peek is = 'n'.toUInt8 then parseNull is
      else if peek is = 't'.toUInt8 then parseTrue is
      else if peek is = 'f'.toUInt8 then parseFalse is
      else if peek is = '"'.toUInt8 then (parseString is).map fun p => (.string p.1, p.2)
      else if peek is = '{'.toUInt8 then parseObject (parseMembers tooBig fuel) is
      else if peek is = '['.toUInt8 then parseArray (parseElements tooBig fuel) is
      else parseNumber tooBig is

/-- The loop of `ParseObject`. -/
def parseMembers (tooBig : Bytes → Bool) : Nat → Bytes → Option (List (Bytes × Json) × Bytes)
  | 0, _        => none
  | fuel + 1, is =>
      if peek is ≠ '"'.toUInt8 then none
      else (parseString is).bind fun name =>
        (consume ':'.toUInt8 (skipWhitespace name.2)).bind fun is =>
          (parseValue tooBig fuel (skipWhitespace is)).bind fun value =>
            parseNext '}'.toUInt8 (parseMembers tooBig fuel) (name.1, value.1) value.2

/-- The loop of `ParseArray`. -/
def parseElements (tooBig : Bytes → Bool) : Nat → Bytes → Option (List Json × Bytes)
  | 0, _        => none
  | fuel + 1, is =>
      (parseValue tooBig fuel is).bind fun value =>
        parseNext ']'.toUInt8 (parseElements tooBig fuel) value.1 value.2

end

/-- `Document::Parse`, for a string that is handed over by `c_str()`: the root value, or `none`
    where the document stays null. -/
def parse (tooBig : Bytes → Bool) (json : Bytes) : Option Json :=
  if skipWhitespace (cstr json) = [] then none
  else (parseValue tooBig (skipWhitespace (cstr json)).length (skipWhitespace (cstr json))).bind
    -- nothing but whitespace may follow the root
    fun value => if skipWhitespace value.2 = [] then some value.1 else none

end OsgiManager.Rapidjson
