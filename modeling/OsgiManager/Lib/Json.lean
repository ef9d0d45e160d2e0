import OsgiManager.Lib.Bytes

namespace OsgiManager.Lib

/-!
# JSON texts

The grammar of JSON, as a relation between a value and the bytes that stand for it.  A string
is the bytes it stands for, a number is kept as it is written, and the members of an object
keep their order and their repetitions.

* `JsonOf` — values with numbers of any kind, `JsonOf.map` and `JsonOf.traverse` the changes from
  one kind to another;
* `Json.CharText`, `Json.StringText`, `Json.NumberText` — the tokens;
* `Json.Text`, `Json.Elements`, `Json.Members` — values, with the spaces inside them;
* `Json.Document` — a value with spaces around it;
* `Json.render`, `Json.text_render` — every value whose numbers can be written has a text.

A high surrogate has to be followed by a low one, and a reader may refuse a number because
it does not fit: the grammar takes the test for this as a parameter.
-/

/-- A JSON value with numbers of type `ν`. -/
inductive JsonOf (ν : Type) where
  | null
  | bool (b : Bool)
  | number (n : ν)
  | string (s : Bytes)
  | array (elements : List (JsonOf ν))
  | object (members : List (Bytes × JsonOf ν))

/-- A JSON value with the numbers as they are written. -/
abbrev Json := JsonOf Bytes

namespace JsonOf

variable {ν μ κ : Type}

mutual

/-- The numbers in a value. -/
def numbers : JsonOf ν → List ν
  | .number n  => [n]
  | .array js  => numbersIn js
  | .object ms => numbersOf ms
  | _          => []

def numbersIn : List (JsonOf ν) → List ν
  | []      => []
  | j :: js => numbers j ++ numbersIn js

def numbersOf : List (Bytes × JsonOf ν) → List ν
  | []           => []
  | (_, j) :: ms => numbers j ++ numbersOf ms

end

mutual

/-- Other numbers in their places. -/
def map (f : ν → μ) : JsonOf ν → JsonOf μ
  | .null      => .null
  | .bool b    => .bool b
  | .number n  => .number (f n)
  | .string s  => .string s
  | .array js  => .array (mapIn f js)
  | .object ms => .object (mapOf f ms)

def mapIn (f : ν → μ) : List (JsonOf ν) → List (JsonOf μ)
  | []      => []
  | j :: js => map f j :: mapIn f js

def mapOf (f : ν → μ) : List (Bytes × JsonOf ν) → List (Bytes × JsonOf μ)
  | []           => []
  | (k, j) :: ms => (k, map f j) :: mapOf f ms

end

mutual

/-- Other numbers in their places, if there is one for each of them. -/
def traverse (f : ν → Option μ) : JsonOf ν → Option (JsonOf μ)
  | .null      => some .null
  | .bool b    => some (.bool b)
  | .number n  => (f n).map .number
  | .string s  => some (.string s)
  | .array js  => (traverseIn f js).map .array
  | .object ms => (traverseOf f ms).map .object

def traverseIn (f : ν → Option μ) : List (JsonOf ν) → Option (List (JsonOf μ))
  | []      => some []
  | j :: js => (traverse f j).bind fun v => (traverseIn f js).map (v :: ·)

def traverseOf (f : ν → Option μ) : List (Bytes × JsonOf ν) → Option (List (Bytes × JsonOf μ))
  | []           => some []
  | (k, j) :: ms => (traverse f j).bind fun v => (traverseOf f ms).map ((k, v) :: ·)

end

theorem length_mapIn (f : ν → μ) (js : List (JsonOf ν)) : (mapIn f js).length = js.length := by
  induction js with
  | nil => rfl
  | cons j js ih => rw [mapIn, List.length_cons, ih, List.length_cons]

theorem length_mapOf (f : ν → μ) (ms : List (Bytes × JsonOf ν)) :
    (mapOf f ms).length = ms.length := by
  induction ms with
  | nil => rfl
  | cons m ms ih => rw [mapOf, List.length_cons, ih, List.length_cons]

theorem length_of_traverseIn {f : ν → Option μ} {js : List (JsonOf ν)} {vs : List (JsonOf μ)}
    (h : traverseIn f js = some vs) : vs.length = js.length := by
  induction js generalizing vs with
  | nil =>
    cases h
    rfl
  | cons j js ih =>
    obtain ⟨v, -, hvs⟩ := Option.bind_eq_some_iff.mp h
    obtain ⟨vs, hrest, rfl⟩ := Option.map_eq_some_iff.mp hvs
    rw [List.length_cons, ih hrest, List.length_cons]

theorem length_of_traverseOf {f : ν → Option μ} {ms : List (Bytes × JsonOf ν)}
    {vs : List (Bytes × JsonOf μ)} (h : traverseOf f ms = some vs) : vs.length = ms.length := by
  induction ms generalizing vs with
  | nil =>
    cases h
    rfl
  | cons m ms ih =>
    obtain ⟨v, -, hvs⟩ := Option.bind_eq_some_iff.mp h
    obtain ⟨vs, hrest, rfl⟩ := Option.map_eq_some_iff.mp hvs
    rw [List.length_cons, ih hrest, List.length_cons]

mutual

/-- The numbers of a value with other numbers. -/
theorem numbers_map (f : ν → μ) : ∀ j : JsonOf ν, (j.map f).numbers = j.numbers.map f
  | .null      => rfl
  | .bool _    => rfl
  | .number _  => rfl
  | .string _  => rfl
  | .array js  => numbersIn_mapIn f js
  | .object ms => numbersOf_mapOf f ms

theorem numbersIn_mapIn (f : ν → μ) : ∀ js : List (JsonOf ν),
    numbersIn (mapIn f js) = (numbersIn js).map f
  | []      => rfl
  | j :: js => by
    rw [mapIn, numbersIn, numbers_map f j, numbersIn_mapIn f js, numbersIn, List.map_append]

theorem numbersOf_mapOf (f : ν → μ) : ∀ ms : List (Bytes × JsonOf ν),
    numbersOf (mapOf f ms) = (numbersOf ms).map f
  | []           => rfl
  | (_, j) :: ms => by
    rw [mapOf, numbersOf, numbers_map f j, numbersOf_mapOf f ms, numbersOf, List.map_append]

end

mutual

/-- Numbers that are changed twice. -/
theorem traverse_map (f : μ → Option κ) (g : ν → μ) : ∀ j : JsonOf ν,
    (j.map g).traverse f = j.traverse fun n => f (g n)
  | .null      => rfl
  | .bool _    => rfl
  | .number _  => rfl
  | .string _  => rfl
  | .array js  => by rw [map, traverse, traverseIn_mapIn f g js, traverse]
  | .object ms => by rw [map, traverse, traverseOf_mapOf f g ms, traverse]

theorem traverseIn_mapIn (f : μ → Option κ) (g : ν → μ) : ∀ js : List (JsonOf ν),
    traverseIn f (mapIn g js) = traverseIn (fun n => f (g n)) js
  | []      => rfl
  | j :: js => by rw [mapIn, traverseIn, traverse_map f g j, traverseIn_mapIn f g js, traverseIn]

theorem traverseOf_mapOf (f : μ → Option κ) (g : ν → μ) : ∀ ms : List (Bytes × JsonOf ν),
    traverseOf f (mapOf g ms) = traverseOf (fun n => f (g n)) ms
  | []           => rfl
  | (k, j) :: ms => by
    rw [mapOf, traverseOf, traverse_map f g j, traverseOf_mapOf f g ms, traverseOf]

end

mutual

/-- Numbers that are changed once more. -/
theorem map_traverse (f : ν → Option μ) (g : μ → κ) : ∀ j : JsonOf ν,
    (j.traverse f).map (map g) = j.traverse fun n => (f n).map g
  | .null      => rfl
  | .bool _    => rfl
  | .number n  => by
    rw [traverse, traverse, Option.map_map, Option.map_map]
    rfl
  | .string _  => rfl
  | .array js  => by
    rw [traverse, traverse, ← mapIn_traverseIn f g js, Option.map_map, Option.map_map]
    rfl
  | .object ms => by
    rw [traverse, traverse, ← mapOf_traverseOf f g ms, Option.map_map, Option.map_map]
    rfl

theorem mapIn_traverseIn (f : ν → Option μ) (g : μ → κ) : ∀ js : List (JsonOf ν),
    (traverseIn f js).map (mapIn g) = traverseIn (fun n => (f n).map g) js
  | []      => rfl
  | j :: js => by
    rw [traverseIn, traverseIn, ← map_traverse f g j, ← mapIn_traverseIn f g js]
    cases j.traverse f with
    | none => rfl
    | some v => cases traverseIn f js <;> rfl

theorem mapOf_traverseOf (f : ν → Option μ) (g : μ → κ) : ∀ ms : List (Bytes × JsonOf ν),
    (traverseOf f ms).map (mapOf g) = traverseOf (fun n => (f n).map g) ms
  | []           => rfl
  | (_, j) :: ms => by
    rw [traverseOf, traverseOf, ← map_traverse f g j, ← mapOf_traverseOf f g ms]
    cases j.traverse f with
    | none => rfl
    | some v => cases traverseOf f ms <;> rfl

end

mutual

/-- A change that is possible for each of the numbers. -/
theorem traverse_eq_map {f : ν → Option μ} {g : ν → μ} : ∀ j : JsonOf ν,
    (∀ n ∈ j.numbers, f n = some (g n)) → j.traverse f = some (j.map g)
  | .null, _      => rfl
  | .bool _, _    => rfl
  | .number n, h  => by
    rw [traverse, h n List.mem_cons_self]
    rfl
  | .string _, _  => rfl
  | .array js, h  => by
    rw [traverse, traverseIn_eq_mapIn js h]
    rfl
  | .object ms, h => by
    rw [traverse, traverseOf_eq_mapOf ms h]
    rfl

theorem traverseIn_eq_mapIn {f : ν → Option μ} {g : ν → μ} : ∀ js : List (JsonOf ν),
    (∀ n ∈ numbersIn js, f n = some (g n)) → traverseIn f js = some (mapIn g js)
  | [], _      => rfl
  | j :: js, h => by
    rw [numbersIn, List.forall_mem_append] at h
    rw [traverseIn, traverse_eq_map j h.1, traverseIn_eq_mapIn js h.2]
    rfl

theorem traverseOf_eq_mapOf {f : ν → Option μ} {g : ν → μ} : ∀ ms : List (Bytes × JsonOf ν),
    (∀ n ∈ numbersOf ms, f n = some (g n)) → traverseOf f ms = some (mapOf g ms)
  | [], _           => rfl
  | (_, j) :: ms, h => by
    rw [numbersOf, List.forall_mem_append] at h
    rw [traverseOf, traverse_eq_map j h.1, traverseOf_eq_mapOf ms h.2]
    rfl

end

end JsonOf

namespace Json

/-! ### Characters -/

/-- The four kinds of space. -/
def isSpace (b : Byte) : Bool :=
  b = ' '.toUInt8 || b = '\n'.toUInt8 || b = '\r'.toUInt8 || b = '\t'.toUInt8

def isDigit (b : Byte) : Bool := '0'.toUInt8 ≤ b && b ≤ '9'.toUInt8

/-- Any number of spaces. -/
def Spaces (w : Bytes) : Prop := ∀ b ∈ w, isSpace b = true

/-- At least one digit. -/
def Digits (t : Bytes) : Prop := t ≠ [] ∧ ∀ b ∈ t, isDigit b = true

instance (w : Bytes) : Decidable (Spaces w) := inferInstanceAs (Decidable (∀ b ∈ w, _))

instance (t : Bytes) : Decidable (Digits t) := inferInstanceAs (Decidable (_ ∧ _))

/-- The value of a hexadecimal digit. -/
def hexValue (b : Byte) : Option Nat :=
  if isDigit b then some (b.toNat - 48)
  else if 'A'.toUInt8 ≤ b ∧ b ≤ 'F'.toUInt8 then some (b.toNat - 55)
  else if 'a'.toUInt8 ≤ b ∧ b ≤ 'f'.toUInt8 then some (b.toNat - 87)
  else none

/-- Four hexadecimal digits, and the code unit they name. -/
inductive Hex4 : Bytes → Nat → Prop
  | mk {a b c d : Byte} {h i j k : Nat} (first : hexValue a = some h) (second : hexValue b = some i)
      (third : hexValue c = some j) (fourth : hexValue d = some k) :
      Hex4 [a, b, c, d] (((h * 16 + i) * 16 + j) * 16 + k)

/-- A code unit that starts a surrogate pair. -/
def HighSurrogate (u : Nat) : Prop := 0xD800 ≤ u ∧ u ≤ 0xDBFF

/-- A code unit that ends one. -/
def LowSurrogate (u : Nat) : Prop := 0xDC00 ≤ u ∧ u ≤ 0xDFFF

instance (u : Nat) : Decidable (HighSurrogate u) := inferInstanceAs (Decidable (_ ∧ _))

instance (u : Nat) : Decidable (LowSurrogate u) := inferInstanceAs (Decidable (_ ∧ _))

/-- The bytes of a code point. -/
def utf8 (u : Nat) : Bytes :=
  if u < 0x80 then [.ofNat u]
  else if u < 0x800 then [.ofNat (0xC0 + u / 64), .ofNat (0x80 + u % 64)]
  else if u < 0x10000 then
    [.ofNat (0xE0 + u / 4096), .ofNat (0x80 + u / 64 % 64), .ofNat (0x80 + u % 64)]
  else [.ofNat (0xF0 + u / 262144), .ofNat (0x80 + u / 4096 % 64), .ofNat (0x80 + u / 64 % 64),
    .ofNat (0x80 + u % 64)]

/-- What a backslash and one letter stand for. -/
def escapes : List (Byte × Byte) :=
  [('"'.toUInt8, '"'.toUInt8), ('\\'.toUInt8, '\\'.toUInt8), ('/'.toUInt8, '/'.toUInt8),
    ('b'.toUInt8, 8), ('f'.toUInt8, 12), ('n'.toUInt8, 10), ('r'.toUInt8, 13), ('t'.toUInt8, 9)]

theorem forall_escapes {P : Byte × Byte → Prop} [DecidablePred P]
    (h : escapes.all (fun p => decide (P p)) = true) : ∀ p ∈ escapes, P p :=
  fun p hp => of_decide_eq_true (List.all_eq_true.mp h p hp)

/-- The start of a code unit. -/
def unitStart : Bytes := ofString "\\u"

/-- What follows the start of a code unit, and the code point it names: a code unit of its own, or
    a surrogate pair. -/
inductive CodePoint : Bytes → Nat → Prop
  | unit {t : Bytes} {u : Nat} (hex : Hex4 t u) (single : ¬ HighSurrogate u) : CodePoint t u
  | pair {t t' : Bytes} {u u' : Nat} (hex : Hex4 t u) (hex' : Hex4 t' u') (high : HighSurrogate u)
      (low : LowSurrogate u') :
      CodePoint (t ++ (unitStart ++ t')) (0x10000 + (u - 0xD800) * 1024 + (u' - 0xDC00))

/-- One character of a string: the bytes it stands for, and its text. -/
inductive CharText : Bytes → Bytes → Prop
  | plain {b : Byte} (printable : 0x20 ≤ b) (quote : b ≠ '"'.toUInt8)
      (backslash : b ≠ '\\'.toUInt8) : CharText [b] [b]
  | escape {e b : Byte} (known : (e, b) ∈ escapes) : CharText [b] ['\\'.toUInt8, e]
  | codePoint {t : Bytes} {u : Nat} (names : CodePoint t u) : CharText (utf8 u) (unitStart ++ t)

/-- Some characters, one after the other. -/
inductive CharsText : Bytes → Bytes → Prop
  | nil : CharsText [] []
  | cons {m t ms ts : Bytes} (first : CharText m t) (rest : CharsText ms ts) :
      CharsText (m ++ ms) (t ++ ts)

/-- A string: its bytes, and its text with the quotation marks. -/
def StringText (s t : Bytes) : Prop :=
  ∃ body, CharsText s body ∧ t = '"'.toUInt8 :: (body ++ ['"'.toUInt8])

/-! ### Numbers -/

/-- No zero stands in front of another digit. -/
def IntText (t : Bytes) : Prop :=
  t = ['0'.toUInt8] ∨ ∃ d ds, t = d :: ds ∧ ('1'.toUInt8 ≤ d ∧ d ≤ '9'.toUInt8) ∧
    ∀ b ∈ ds, isDigit b = true

def FracText (t : Bytes) : Prop := t = [] ∨ ∃ ds, t = '.'.toUInt8 :: ds ∧ Digits ds

def ExpText (t : Bytes) : Prop :=
  t = [] ∨ ∃ e sign ds, t = e :: (sign ++ ds) ∧ (e = 'e'.toUInt8 ∨ e = 'E'.toUInt8) ∧
    (sign = [] ∨ sign = ['+'.toUInt8] ∨ sign = ['-'.toUInt8]) ∧ Digits ds

def NumberText (t : Bytes) : Prop :=
  ∃ sign int frac exp, t = sign ++ (int ++ (frac ++ exp)) ∧ (sign = [] ∨ sign = ['-'.toUInt8]) ∧
    IntText int ∧ FracText frac ∧ ExpText exp

/-! ### Values -/

section
variable (refused : Bytes → Bool)

mutual

/-- A value and its text, from its first byte to its last. -/
inductive Text : Json → Bytes → Prop
  | null : Text .null (ofString "null")
  | true : Text (.bool true) (ofString "true")
  | false : Text (.bool false) (ofString "false")
  | number {t : Bytes} (text : NumberText t) (fits : refused t = Bool.false) : Text (.number t) t
  | string {s t : Bytes} (text : StringText s t) : Text (.string s) t
  | emptyArray {w : Bytes} (spaces : Spaces w) :
      Text (.array []) ('['.toUInt8 :: (w ++ [']'.toUInt8]))
  | array {w t : Bytes} {js : List Json} (spaces : Spaces w) (elements : Elements js t) :
      Text (.array js) ('['.toUInt8 :: (w ++ (t ++ [']'.toUInt8])))
  | emptyObject {w : Bytes} (spaces : Spaces w) :
      Text (.object []) ('{'.toUInt8 :: (w ++ ['}'.toUInt8]))
  | object {w t : Bytes} {ms : List (Bytes × Json)} (spaces : Spaces w) (members : Members ms t) :
      Text (.object ms) ('{'.toUInt8 :: (w ++ (t ++ ['}'.toUInt8])))

/-- The elements of an array that is not empty, with the spaces after them. -/
inductive Elements : List Json → Bytes → Prop
  | last {j : Json} {t w : Bytes} (text : Text j t) (spaces : Spaces w) : Elements [j] (t ++ w)
  | cons {j : Json} {js : List Json} {t w w' ts : Bytes} (text : Text j t) (spaces : Spaces w)
      (spaces' : Spaces w') (rest : Elements js ts) :
      Elements (j :: js) (t ++ (w ++ (','.toUInt8 :: (w' ++ ts))))

/-- The members of an object that is not empty, with the spaces after them. -/
inductive Members : List (Bytes × Json) → Bytes → Prop
  | last {k : Bytes} {j : Json} {n w w' t w'' : Bytes} (name : StringText k n) (spaces : Spaces w)
      (spaces' : Spaces w') (text : Text j t) (spaces'' : Spaces w'') :
      Members [(k, j)] (n ++ (w ++ (':'.toUInt8 :: (w' ++ (t ++ w'')))))
  | cons {k : Bytes} {j : Json} {ms : List (Bytes × Json)} {n w w' t w'' w₃ ts : Bytes}
      (name : StringText k n) (spaces : Spaces w) (spaces' : Spaces w') (text : Text j t)
      (spaces'' : Spaces w'') (spaces₃ : Spaces w₃) (rest : Members ms ts) :
      Members ((k, j) :: ms)
        (n ++ (w ++ (':'.toUInt8 :: (w' ++ (t ++ (w'' ++ (','.toUInt8 :: (w₃ ++ ts))))))))

end

/-- A JSON text of a value: the value, with spaces around it. -/
def Document (j : Json) (s : Bytes) : Prop :=
  ∃ w t w', s = w ++ (t ++ w') ∧ Spaces w ∧ Spaces w' ∧ Text refused j t

end

/-! ### Writing -/

section
variable (quote : Bytes → Bytes)

mutual

/-- A value, written without spaces, with its strings in quotation marks. -/
def render : Json → Bytes
  | .null      => ofString "null"
  | .bool b    => if b then ofString "true" else ofString "false"
  | .number t  => t
  | .string s  => quote s
  | .array js  => '['.toUInt8 :: (renderElements js ++ [']'.toUInt8])
  | .object ms => '{'.toUInt8 :: (renderMembers ms ++ ['}'.toUInt8])

def renderElements : List Json → Bytes
  | []      => []
  | [j]     => render j
  | j :: js => render j ++ ','.toUInt8 :: renderElements js

def renderMembers : List (Bytes × Json) → Bytes
  | []           => []
  | [(k, j)]     => quote k ++ ':'.toUInt8 :: render j
  | (k, j) :: ms => quote k ++ ':'.toUInt8 :: (render j ++ ','.toUInt8 :: renderMembers ms)

end

end

/-- A byte below `0x80` may be written as a code unit. -/
theorem charText_unit {b c d : Byte} (hb : b.toNat < 0x80)
    (hc : hexValue c = some (b.toNat / 16)) (hd : hexValue d = some (b.toNat % 16)) :
    CharText [b] (unitStart ++ ['0'.toUInt8, '0'.toUInt8, c, d]) := by
  have hhex : Hex4 ['0'.toUInt8, '0'.toUInt8, c, d]
      (((0 * 16 + 0) * 16 + b.toNat / 16) * 16 + b.toNat % 16) := .mk rfl rfl hc hd
  have hvalue : ((0 * 16 + 0) * 16 + b.toNat / 16) * 16 + b.toNat % 16 = b.toNat := by omega
  rw [hvalue] at hhex
  have hutf8 : utf8 b.toNat = [b] := by rw [utf8, if_pos hb, UInt8.ofNat_toNat]
  rw [← hutf8]
  refine .codePoint (.unit hhex ?_)
  unfold HighSurrogate
  omega

/-- A string that is written byte by byte. -/
theorem stringText_flatMap {char : Byte → Bytes} (hchar : ∀ b, CharText [b] (char b)) (s : Bytes) :
    StringText s ('"'.toUInt8 :: (s.flatMap char ++ ['"'.toUInt8])) := by
  refine ⟨s.flatMap char, ?_, rfl⟩
  induction s with
  | nil => exact .nil
  | cons b s ih => exact .cons (hchar b) ih

theorem spaces_nil : Spaces [] := fun _ hb => absurd hb List.not_mem_nil

variable {refused : Bytes → Bool}

/-- Spaces may follow a document. -/
theorem Document.append {j : Json} {s w : Bytes} (h : Document refused j s) (hw : Spaces w) :
    Document refused j (s ++ w) := by
  obtain ⟨v, t, v', rfl, hv, hv', ht⟩ := h
  refine ⟨v, t, v' ++ w, by simp only [List.append_assoc], hv, fun b hb => ?_, ht⟩
  rcases List.mem_append.mp hb with hb | hb
  · exact hv' b hb
  · exact hw b hb

/-- A number that can be read back. -/
def Readable (refused : Bytes → Bool) (t : Bytes) : Prop := NumberText t ∧ refused t = false

variable {quote : Bytes → Bytes}

open JsonOf (numbers numbersIn numbersOf)

mutual

/-- **Writing.**  What is written for a value is a text of it, if its strings are written as texts
    and its numbers are readable. -/
theorem text_render (hquote : ∀ s, StringText s (quote s)) :
    ∀ j : Json, (∀ t ∈ numbers j, Readable refused t) → Text refused j (render quote j)
  | .null, _       => .null
  | .bool true, _  => .true
  | .bool false, _ => .false
  | .number t, h   => .number (h t List.mem_cons_self).1 (h t List.mem_cons_self).2
  | .string s, _   => .string (hquote s)
  | .array [], _   => .emptyArray spaces_nil
  | .array (j :: js), h   => .array spaces_nil (elements_renderElements hquote j js h)
  | .object [], _         => .emptyObject spaces_nil
  | .object (m :: ms), h  => .object spaces_nil (members_renderMembers hquote m ms h)
termination_by j => sizeOf j

theorem elements_renderElements (hquote : ∀ s, StringText s (quote s)) :
    ∀ (j : Json) (js : List Json), (∀ t ∈ numbersIn (j :: js), Readable refused t) →
      Elements refused (j :: js) (renderElements quote (j :: js))
  | j, [], h => by
    have htext := Elements.last (text_render hquote j fun t ht => h t (by simp [numbersIn, ht]))
      spaces_nil
    rwa [List.append_nil] at htext
  | j, j' :: js, h =>
    .cons (text_render hquote j fun t ht => h t (by simp [numbersIn, ht])) spaces_nil spaces_nil
      (elements_renderElements hquote j' js fun t ht => h t (by
        rw [numbersIn]
        exact List.mem_append_right _ ht))
termination_by j js => sizeOf j + sizeOf js

theorem members_renderMembers (hquote : ∀ s, StringText s (quote s)) :
    ∀ (m : Bytes × Json) (ms : List (Bytes × Json)),
      (∀ t ∈ numbersOf (m :: ms), Readable refused t) →
        Members refused (m :: ms) (renderMembers quote (m :: ms))
  | (k, j), [], h => by
    have htext := Members.last (hquote k) spaces_nil spaces_nil
      (text_render hquote j fun t ht => h t (by simp [numbersOf, ht])) spaces_nil
    rwa [List.append_nil] at htext
  | (k, j), m :: ms, h =>
    .cons (hquote k) spaces_nil spaces_nil
      (text_render hquote j fun t ht => h t (by simp [numbersOf, ht])) spaces_nil spaces_nil
      (members_renderMembers hquote m ms fun t ht => h t (by
        rw [numbersOf]
        exact List.mem_append_right _ ht))
termination_by m ms => sizeOf m + sizeOf ms

end

/-- What is written for a value is a document. -/
theorem document_render (hquote : ∀ s, StringText s (quote s)) {j : Json}
    (h : ∀ t ∈ numbers j, Readable refused t) : Document refused j (render quote j) := by
  refine ⟨[], render quote j, [], ?_, spaces_nil, spaces_nil, text_render hquote j h⟩
  rw [List.append_nil, List.nil_append]

end Json

end OsgiManager.Lib
