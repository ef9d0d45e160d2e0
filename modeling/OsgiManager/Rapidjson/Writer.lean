import OsgiManager.Rapidjson.Handler

namespace OsgiManager.Rapidjson

open OsgiManager.Lib

/-!
# The JSON writer

`Writer<StringBuffer>` with its default flags, and `GenericValue::Accept`, which drives it.  The
writer keeps a stack of levels with the number of values in each, and puts commas and colons
by these numbers; its assertions reject calls that do not fit.

* `Writer.call` — the handler functions and what they return; `none` where an assertion fails;
* `valueCalls` — the calls for a value;
* `visit_writer` — they are the calls that are made of the writer as a handler;
* `run_value` — what they write, and whether all of them return true;
* `write_round_trip` — what is written is read back;
* `writer_exact` — the sequences of calls that leave a complete writer are those of one value.

`RawNumber` and `RawValue`, which neither the reader nor `Accept` calls, are left out.
-/

/-! ### Strings -/

/-- `hexDigits`. -/
def hexDigit (n : Nat) : Byte := .ofNat (if n < 10 then 48 + n else 55 + n)

/-- The table `escape` of `WriteString`, with zero for the characters that are none. -/
def escapeOf (c : Byte) : Byte :=
  if c = 8 then 'b'.toUInt8
  else if c = 9 then 't'.toUInt8
  else if c = 10 then 'n'.toUInt8
  else if c = 12 then 'f'.toUInt8
  else if c = 13 then 'r'.toUInt8
  else if c < 0x20 then 'u'.toUInt8
  else if c = '"'.toUInt8 then '"'.toUInt8
  else if c = '\\'.toUInt8 then '\\'.toUInt8
  else 0

/-- One pass of the loop of `WriteString`. -/
def writeChar (c : Byte) : Bytes :=
  if escapeOf c ≠ 0 then
    '\\'.toUInt8 :: escapeOf c :: if escapeOf c = 'u'.toUInt8 then
      ['0'.toUInt8, '0'.toUInt8, hexDigit (c.toNat >>> 4), hexDigit (c.toNat &&& 0xF)] else []
  else [c]

/-- `WriteString`. -/
def writeString (str : Bytes) : Bytes :=
  '"'.toUInt8 :: (str.flatMap writeChar ++ ['"'.toUInt8])

theorem hexValue_hexDigit : ∀ n : Fin 16, Json.hexValue (hexDigit n) = some n.1 := by decide

theorem charText_writeChar (c : Byte) : Json.CharText [c] (writeChar c) := by
  by_cases hu : escapeOf c = 'u'.toUInt8
  · -- a control character without a letter of its own
    have hcontrol : ∀ c : Byte, escapeOf c = 'u'.toUInt8 → c.toNat < 0x80 :=
      forall_byte (by decide +kernel)
    have hlow : c.toNat &&& 0xF = c.toNat % 16 := Nat.and_two_pow_sub_one_eq_mod c.toNat 4
    have hhigh : c.toNat >>> 4 = c.toNat / 16 := Nat.shiftRight_eq_div_pow c.toNat 4
    have hlt := hcontrol c hu
    rw [writeChar, hu, if_pos (by decide), if_pos rfl, hlow, hhigh]
    exact Json.charText_unit hlt (hexValue_hexDigit ⟨c.toNat / 16, by omega⟩)
      (hexValue_hexDigit ⟨c.toNat % 16, by omega⟩)
  · by_cases h0 : escapeOf c = 0
    · have hplain : ∀ c : Byte, escapeOf c = 0 →
          0x20 ≤ c ∧ c ≠ '"'.toUInt8 ∧ c ≠ '\\'.toUInt8 := forall_byte (by decide +kernel)
      obtain ⟨hprintable, hquote, hbackslash⟩ := hplain c h0
      rw [writeChar, if_neg (not_not.mpr h0)]
      exact .plain hprintable hquote hbackslash
    · have hknown : ∀ c : Byte, escapeOf c ≠ 0 → escapeOf c ≠ 'u'.toUInt8 →
          (escapeOf c, c) ∈ Json.escapes := forall_byte (by decide +kernel)
      rw [writeChar, if_pos h0, if_neg hu]
      exact .escape (hknown c h0 hu)

theorem stringText_writeString (s : Bytes) : Json.StringText s (writeString s) :=
  Json.stringText_flatMap charText_writeChar s

/-! ### The writer -/

/-- `Level`. -/
structure Level where
  valueCount : Nat
  inArray : Bool

/-- The members of `Writer` that change, with the top of the stack first. -/
structure Writer where
  os : Bytes := []
  level_stack : List Level := []
  hasRoot : Bool := false

/-- `IsComplete`. -/
def Writer.isComplete (w : Writer) : Bool := w.hasRoot && w.level_stack.isEmpty

/-- A call of a handler function: `number` is `Int`, `Uint`, `Int64`, `Uint64` or `Double`, and
    `Key` is `String`. -/
inductive Call where
  | null
  | bool (b : Bool)
  | number (n : Number)
  | string (str : Bytes)
  | startObject
  | endObject
  | startArray
  | endArray
deriving DecidableEq

/-- What `Prefix` puts before a value. -/
def Level.separator (level : Level) : Bytes :=
  if level.valueCount > 0 then
    if level.inArray then [','.toUInt8]
    else if level.valueCount % 2 = 0 then [','.toUInt8] else [':'.toUInt8]
  else []

/-- A level with one value more. -/
def Level.next (level : Level) : Level := ⟨level.valueCount + 1, level.inArray⟩

/-- `Prefix`, for a string or for another value. -/
def Writer.writePrefix (isString : Bool) (w : Writer) : Option Writer :=
  match w.level_stack with
  | level :: levels =>
      -- a name has to be a string
      if level.inArray = false ∧ level.valueCount % 2 = 0 ∧ isString = false then none
      else some { w with os := w.os ++ level.separator, level_stack := level.next :: levels }
  | [] => if w.hasRoot then none else some { w with hasRoot := true }

def Writer.put (s : Bytes) (w : Writer) : Writer := { w with os := w.os ++ s }

/-- `StartObject` and `StartArray` after `Prefix`. -/
def Writer.push (inArray : Bool) (s : Bytes) (w : Writer) : Writer :=
  { w with os := w.os ++ s, level_stack := ⟨0, inArray⟩ :: w.level_stack }

/-- `EndObject` and `EndArray`: the level on top has to be one of the kind. -/
def Writer.pop (inArray : Bool) (s : Bytes) (w : Writer) : Option Writer :=
  match w.level_stack with
  | level :: levels =>
      if level.inArray = inArray ∧ (inArray = true ∨ level.valueCount % 2 = 0) then
        some { w with os := w.os ++ s, level_stack := levels }
      else none
  | [] => none

/-- `WriteInt`, `WriteUint`, `WriteInt64`, `WriteUint64` and `WriteDouble`, with what they
    return. -/
def Writer.writeNumber (D : Doubles) (w : Writer) : Number → Writer × Bool
  | .int i      => (w.put (i32toa i), true)
  | .uint u     => (w.put (u32toa u.toNat), true)
  | .int64 i64  => (w.put (i64toa i64), true)
  | .uint64 u64 => (w.put (u64toa u64.toNat), true)
  | .double d   => if isNanOrInf d then (w, false) else (w.put (D.dtoa d), true)

/-- The handler functions, with what they return. -/
def Writer.call (D : Doubles) (w : Writer) : Call → Option (Writer × Bool)
  | .null        => (w.writePrefix false).map fun w => (w.put (ofString "null"), true)
  | .bool b      => (w.writePrefix false).map fun w =>
      (w.put (if b then ofString "true" else ofString "false"), true)
  | .number n    => (w.writePrefix false).map fun w => w.writeNumber D n
  | .string str  => (w.writePrefix true).map fun w => (w.put (writeString str), true)
  | .startObject => (w.writePrefix false).map fun w => (w.push false ['{'.toUInt8], true)
  | .endObject   => (w.pop false ['}'.toUInt8]).map fun w => (w, true)
  | .startArray  => (w.writePrefix false).map fun w => (w.push true ['['.toUInt8], true)
  | .endArray    => (w.pop true [']'.toUInt8]).map fun w => (w, true)

/-- A call after others: the writer, and whether all of them have returned true. -/
def Writer.step (D : Doubles) (p : Writer × Bool) (c : Call) : Option (Writer × Bool) :=
  (p.1.call D c).map fun q => (q.1, p.2 && q.2)

/-- A sequence of calls. -/
def Writer.run (D : Doubles) (p : Writer × Bool) (cs : List Call) : Option (Writer × Bool) :=
  cs.foldlM (Writer.step D) p

mutual

/-- The calls for a value. -/
def valueCalls : JsonOf Number → List Call
  | .null      => [.null]
  | .bool b    => [.bool b]
  | .number n  => [.number n]
  | .string s  => [.string s]
  | .array js  => .startArray :: (elementCalls js ++ [.endArray])
  | .object ms => .startObject :: (memberCalls ms ++ [.endObject])

/-- The calls for the elements of an array. -/
def elementCalls : List (JsonOf Number) → List Call
  | []      => []
  | j :: js => valueCalls j ++ elementCalls js

/-- The calls for the members of an object. -/
def memberCalls : List (Bytes × JsonOf Number) → List Call
  | []           => []
  | (k, j) :: ms => .string k :: (valueCalls j ++ memberCalls ms)

end

/-! ### Calls one after the other -/

section
variable {D : Doubles}

theorem Writer.run_append (D : Doubles) (p : Writer × Bool) (as bs : List Call) :
    Writer.run D p (as ++ bs) = (Writer.run D p as).bind fun p => Writer.run D p bs :=
  List.foldlM_append

theorem Writer.run_cons (D : Doubles) (p : Writer × Bool) (c : Call) (cs : List Call) :
    Writer.run D p (c :: cs) = (Writer.step D p c).bind fun p => Writer.run D p cs :=
  List.foldlM_cons

theorem Writer.run_single (D : Doubles) (p : Writer × Bool) (c : Call) :
    Writer.run D p [c] = Writer.step D p c := by
  rw [Writer.run_cons]
  cases Writer.step D p c <;> rfl

/-- A call that has to return true. -/
def Writer.callTrue (D : Doubles) (w : Writer) (c : Call) : Option Writer :=
  (w.call D c).bind fun p => if p.2 = true then some p.1 else none

/-- Calls that all have to return true. -/
def Writer.runTrue (D : Doubles) (w : Writer) (cs : List Call) : Option Writer :=
  cs.foldlM (Writer.callTrue D) w

theorem Writer.runTrue_append (D : Doubles) (w : Writer) (as bs : List Call) :
    w.runTrue D (as ++ bs) = (w.runTrue D as).bind fun w => w.runTrue D bs := List.foldlM_append

theorem Writer.runTrue_cons (D : Doubles) (w : Writer) (c : Call) (cs : List Call) :
    w.runTrue D (c :: cs) = (w.callTrue D c).bind fun w => w.runTrue D cs := List.foldlM_cons

theorem Writer.runTrue_single (D : Doubles) (w : Writer) (c : Call) :
    w.runTrue D [c] = w.callTrue D c := by
  rw [Writer.runTrue_cons]
  cases w.callTrue D c <;> rfl

/-- A call that has returned false is never made up for. -/
theorem Writer.not_run_false {w w' : Writer} {cs : List Call} :
    Writer.run D (w, false) cs ≠ some (w', true) := by
  induction cs generalizing w with
  | nil => exact fun h => nomatch h
  | cons c cs ih =>
    rw [Writer.run_cons, Writer.step]
    cases w.call D c with
    | none => exact fun h => nomatch h
    | some q => exact ih

/-- If all calls of a run return true, it is a run of calls that have to. -/
theorem Writer.runTrue_of_run {w w' : Writer} {cs : List Call}
    (h : Writer.run D (w, true) cs = some (w', true)) : w.runTrue D cs = some w' := by
  induction cs generalizing w with
  | nil =>
    cases h
    rfl
  | cons c cs ih =>
    rw [Writer.run_cons, Writer.step] at h
    rw [Writer.runTrue_cons, Writer.callTrue]
    cases hc : w.call D c with
    | none =>
      rw [hc] at h
      cases h
    | some q =>
      obtain ⟨w₁, ok⟩ := q
      rw [hc] at h
      cases ok with
      | false => exact absurd h Writer.not_run_false
      | true => exact ih h

end

/-- The writer as a handler; the counts are ignored. -/
def writer (D : Doubles) : Handler Writer where
  null w        := w.callTrue D .null
  bool b w      := w.callTrue D (.bool b)
  int i w       := w.callTrue D (.number (.int i))
  uint u w      := w.callTrue D (.number (.uint u))
  int64 i64 w   := w.callTrue D (.number (.int64 i64))
  uint64 u64 w  := w.callTrue D (.number (.uint64 u64))
  double d w    := w.callTrue D (.number (.double d))
  string str w  := w.callTrue D (.string str)
  key str w     := w.callTrue D (.string str)
  startObject w := w.callTrue D .startObject
  endObject _ w := w.callTrue D .endObject
  startArray w  := w.callTrue D .startArray
  endArray _ w  := w.callTrue D .endArray

theorem number_writer (D : Doubles) (n : Number) (w : Writer) :
    (writer D).number n w = w.callTrue D (.number n) := by
  cases n <;> rfl

mutual

/-- Showing a value to the writer is the sequence of the calls. -/
theorem visit_writer (D : Doubles) : ∀ (v : JsonOf Number) (w : Writer),
    (writer D).visit (writer D).number v w = w.runTrue D (valueCalls v)
  | .null, w      => (w.runTrue_single D .null).symm
  | .bool b, w    => (w.runTrue_single D (.bool b)).symm
  | .number n, w  => (number_writer D n w).trans (w.runTrue_single D (.number n)).symm
  | .string s, w  => (w.runTrue_single D (.string s)).symm
  | .array js, w  => by
    rw [Handler.visit, valueCalls, Writer.runTrue_cons]
    congr 1
    funext w
    rw [visitElements_writer D js, Writer.runTrue_append]
    congr 1
    funext w
    exact (w.runTrue_single D .endArray).symm
  | .object ms, w => by
    rw [Handler.visit, valueCalls, Writer.runTrue_cons]
    congr 1
    funext w
    rw [visitMembers_writer D ms, Writer.runTrue_append]
    congr 1
    funext w
    exact (w.runTrue_single D .endObject).symm
termination_by v => sizeOf v

theorem visitElements_writer (D : Doubles) : ∀ (js : List (JsonOf Number)) (w : Writer),
    Handler.visitElements (writer D).number (writer D) js w = w.runTrue D (elementCalls js)
  | [], _      => rfl
  | j :: js, w => by
    rw [Handler.visitElements, visit_writer D j, elementCalls, Writer.runTrue_append]
    congr 1
    funext w
    exact visitElements_writer D js w
termination_by js => sizeOf js

theorem visitMembers_writer (D : Doubles) : ∀ (ms : List (Bytes × JsonOf Number)) (w : Writer),
    Handler.visitMembers (writer D).number (writer D) ms w = w.runTrue D (memberCalls ms)
  | [], _           => rfl
  | (k, j) :: ms, w => by
    rw [Handler.visitMembers, memberCalls, Writer.runTrue_cons]
    congr 1
    funext w
    rw [visit_writer D j, Writer.runTrue_append]
    congr 1
    funext w
    exact visitMembers_writer D ms w
termination_by ms => sizeOf ms

end

/-! ### What a value is written as -/

/-- A value, as a writer writes it. -/
abbrev written (j : Json) : Bytes := Json.render writeString j

/-- The elements of an array, from the one with number `n` on. -/
def elementsFrom (n : Nat) : List Json → Bytes
  | []      => []
  | j :: js => Level.separator ⟨n, true⟩ ++ (written j ++ elementsFrom (n + 1) js)

/-- The members of an object. -/
def membersFrom (n : Nat) : List (Bytes × Json) → Bytes
  | []           => []
  | (k, j) :: ms => Level.separator ⟨2 * n, false⟩ ++
      (writeString k ++ (':'.toUInt8 :: (written j ++ membersFrom (n + 1) ms)))

theorem elementsFrom_succ (n : Nat) (j : Json) (js : List Json) :
    elementsFrom (n + 1) (j :: js) = ','.toUInt8 :: (written j ++ elementsFrom (n + 2) js) := by
  rw [elementsFrom, Level.separator, if_pos (Nat.succ_pos n), if_pos rfl]
  rfl

theorem membersFrom_succ (n : Nat) (k : Bytes) (j : Json) (ms : List (Bytes × Json)) :
    membersFrom (n + 1) ((k, j) :: ms) = ','.toUInt8 :: (writeString k ++
      (':'.toUInt8 :: (written j ++ membersFrom (n + 2) ms))) := by
  rw [membersFrom, Level.separator, if_pos (by show 2 * (n + 1) > 0; omega),
    if_neg Bool.false_ne_true, if_pos (by show 2 * (n + 1) % 2 = 0; omega)]
  rfl

/-- A comma stands before each element but the first. -/
theorem renderElements_cons (j : Json) (js : List Json) (n : Nat) :
    Json.renderElements writeString (j :: js) = written j ++ elementsFrom (n + 1) js := by
  induction js generalizing j n with
  | nil => rw [Json.renderElements, elementsFrom, List.append_nil]
  | cons j' js ih =>
    rw [Json.renderElements, ih j' (n + 1), elementsFrom_succ]
    exact List.cons_ne_nil j' js

theorem renderMembers_cons (k : Bytes) (j : Json) (ms : List (Bytes × Json)) (n : Nat) :
    Json.renderMembers writeString ((k, j) :: ms) =
      writeString k ++ (':'.toUInt8 :: (written j ++ membersFrom (n + 1) ms)) := by
  induction ms generalizing k j n with
  | nil => rw [Json.renderMembers, membersFrom, List.append_nil]
  | cons m ms ih =>
    rw [Json.renderMembers, ih m.1 m.2 (n + 1), membersFrom_succ]
    exact List.cons_ne_nil m ms

theorem written_array (js : List Json) :
    written (.array js) = '['.toUInt8 :: (elementsFrom 0 js ++ [']'.toUInt8]) := by
  cases js with
  | nil => rfl
  | cons j js =>
    rw [written, Json.render, renderElements_cons j js 0]
    rfl

theorem written_object (ms : List (Bytes × Json)) :
    written (.object ms) = '{'.toUInt8 :: (membersFrom 0 ms ++ ['}'.toUInt8]) := by
  cases ms with
  | nil => rfl
  | cons m ms =>
    rw [written, Json.render, renderMembers_cons m.1 m.2 ms 0]
    rfl

/-! ### What `Accept` writes -/

def isString {ν : Type} : JsonOf ν → Bool
  | .string _ => true
  | _         => false

theorem writePrefix_cons (b : Bool) (os : Bytes) (level : Level) (levels : List Level)
    (root : Bool) : Writer.writePrefix b ⟨os, level :: levels, root⟩ =
      if level.inArray = false ∧ level.valueCount % 2 = 0 ∧ b = false then none
      else some ⟨os ++ level.separator, level.next :: levels, root⟩ := rfl

theorem pop_cons (b : Bool) (s os : Bytes) (level : Level) (levels : List Level) (root : Bool) :
    Writer.pop b s ⟨os, level :: levels, root⟩ =
      if level.inArray = b ∧ (b = true ∨ level.valueCount % 2 = 0) then
        some ⟨os ++ s, levels, root⟩
      else none := rfl

/-- In an array a value may stand anywhere. -/
theorem writePrefix_array (b : Bool) (os : Bytes) (n : Nat) (levels : List Level) (root : Bool) :
    Writer.writePrefix b ⟨os, ⟨n, true⟩ :: levels, root⟩ =
      some ⟨os ++ Level.separator ⟨n, true⟩, ⟨n + 1, true⟩ :: levels, root⟩ := rfl

/-- In an object a name is a string. -/
theorem writePrefix_name (os : Bytes) (n : Nat) (levels : List Level) (root : Bool) :
    Writer.writePrefix true ⟨os, ⟨2 * n, false⟩ :: levels, root⟩ =
      some ⟨os ++ Level.separator ⟨2 * n, false⟩, ⟨2 * n + 1, false⟩ :: levels, root⟩ := by
  rw [writePrefix_cons, if_neg fun h => Bool.noConfusion h.2.2]
  rfl

/-- After the name any value may stand. -/
theorem writePrefix_value (b : Bool) (os : Bytes) (n : Nat) (levels : List Level) (root : Bool) :
    Writer.writePrefix b ⟨os, ⟨2 * n + 1, false⟩ :: levels, root⟩ =
      some ⟨os ++ [':'.toUInt8], ⟨2 * (n + 1), false⟩ :: levels, root⟩ := by
  have hodd : ¬ (2 * n + 1) % 2 = 0 := by omega
  rw [writePrefix_cons, if_neg fun h => hodd h.2.1, Level.separator,
    if_pos (Nat.succ_pos (2 * n)), if_neg Bool.false_ne_true, if_neg hodd]
  rfl

/-- Whether a number is put out: a double that is not finite is not. -/
def Number.finite : Number → Bool
  | .double d => !isNanOrInf d
  | _         => true

theorem Number.Alike.finite_eq {n m : Number} (h : n.Alike m) : n.finite = m.finite := by
  rcases h with rfl | ⟨z, hn, hm⟩
  · rfl
  · have hfinite : ∀ {k : Number}, k.integer = some z → k.finite = true := by
      intro k hk
      cases k with
      | double d => cases hk
      | _ => rfl
    rw [hfinite hn, hfinite hm]

/-- What is put out for a number, and what the function returns. -/
theorem writeNumber_eq (D : Doubles) (w : Writer) (n : Number) :
    w.writeNumber D n = (w.put (n.text D), n.finite) := by
  cases n with
  | double d =>
    rw [Writer.writeNumber, Number.text, Number.finite]
    split_ifs with h
    · rw [h, Writer.put, List.append_nil]
      rfl
    · rw [Bool.not_eq_true] at h
      rw [h]
      rfl
  | _ => rfl

/-- What is written for a value with machine numbers. -/
def writtenBy (D : Doubles) (v : JsonOf Number) : Bytes := written (v.map (Number.text D))

mutual

/-- **One value.**  The calls for a value write it, where its prefix may be written, and all return
    true if its doubles are finite. -/
theorem run_value (D : Doubles) : ∀ (v : JsonOf Number) (w : Writer) (ok : Bool),
    Writer.run D (w, ok) (valueCalls v) = (w.writePrefix (isString v)).map fun w =>
      (w.put (writtenBy D v), ok && v.numbers.all Number.finite)
  | .null, w, ok     => by
    rw [valueCalls, Writer.run_single, Writer.step, Writer.call, Option.map_map]
    rfl
  | .bool b, w, ok   => by
    rw [valueCalls, Writer.run_single, Writer.step, Writer.call, Option.map_map]
    rfl
  | .number n, w, ok => by
    rw [valueCalls, Writer.run_single, Writer.step, Writer.call, Option.map_map]
    congr 1
    funext w
    rw [Function.comp_apply, writeNumber_eq, JsonOf.numbers, List.all_cons, List.all_nil,
      Bool.and_true]
    rfl
  | .string s, w, ok => by
    rw [valueCalls, Writer.run_single, Writer.step, Writer.call, Option.map_map]
    rfl
  | .array js, w, ok => by
    rw [valueCalls, Writer.run_cons, Writer.step, Writer.call,
      show isString (.array js) = false from rfl]
    cases w.writePrefix false with
    | none => rfl
    | some w =>
      rw [Option.map_some, Option.map_some, Option.bind_some, Writer.run_append, Writer.push,
        run_elements D js 0, Option.bind_some, Writer.run_single, Option.map_some, Writer.put,
        writtenBy, JsonOf.map, written_array]
      simp [Writer.step, Writer.call, Writer.pop, JsonOf.numbers]
  | .object ms, w, ok => by
    rw [valueCalls, Writer.run_cons, Writer.step, Writer.call,
      show isString (.object ms) = false from rfl]
    cases w.writePrefix false with
    | none => rfl
    | some w =>
      rw [Option.map_some, Option.map_some, Option.bind_some, Writer.run_append, Writer.push,
        run_members D ms 0, Option.bind_some, Writer.run_single, Option.map_some, Writer.put,
        writtenBy, JsonOf.map, written_object]
      simp [Writer.step, Writer.call, Writer.pop, JsonOf.numbers]
termination_by v => sizeOf v

theorem run_elements (D : Doubles) : ∀ (js : List (JsonOf Number)) (n : Nat) (os : Bytes)
    (levels : List Level) (root ok : Bool),
    Writer.run D (⟨os, ⟨n, true⟩ :: levels, root⟩, ok) (elementCalls js) =
      some (⟨os ++ elementsFrom n (JsonOf.mapIn (Number.text D) js),
        ⟨n + js.length, true⟩ :: levels, root⟩, ok && (JsonOf.numbersIn js).all Number.finite)
  | [], n, os, levels, root, ok => by
    rw [elementCalls, JsonOf.mapIn, elementsFrom, List.append_nil, JsonOf.numbersIn, List.all_nil,
      Bool.and_true]
    rfl
  | j :: js, n, os, levels, root, ok => by
    rw [elementCalls, Writer.run_append, run_value D j, writePrefix_array, Option.map_some,
      Option.bind_some, Writer.put, run_elements D js (n + 1), JsonOf.mapIn, elementsFrom,
      JsonOf.numbersIn, List.all_append, Bool.and_assoc]
    simp only [List.append_assoc, List.length_cons, Nat.add_assoc, Nat.add_comm 1]
    rfl
termination_by js => sizeOf js

theorem run_members (D : Doubles) : ∀ (ms : List (Bytes × JsonOf Number)) (n : Nat) (os : Bytes)
    (levels : List Level) (root ok : Bool),
    Writer.run D (⟨os, ⟨2 * n, false⟩ :: levels, root⟩, ok) (memberCalls ms) =
      some (⟨os ++ membersFrom n (JsonOf.mapOf (Number.text D) ms),
        ⟨2 * (n + ms.length), false⟩ :: levels, root⟩,
        ok && (JsonOf.numbersOf ms).all Number.finite)
  | [], n, os, levels, root, ok => by
    rw [memberCalls, JsonOf.mapOf, membersFrom, List.append_nil, JsonOf.numbersOf, List.all_nil,
      Bool.and_true]
    rfl
  | (k, j) :: ms, n, os, levels, root, ok => by
    rw [memberCalls, Writer.run_cons, Writer.step, Writer.call, writePrefix_name, Option.map_some,
      Option.map_some, Option.bind_some, Writer.put, Writer.run_append, run_value D j,
      writePrefix_value, Option.map_some, Option.bind_some, Writer.put, run_members D ms (n + 1),
      JsonOf.mapOf, membersFrom, JsonOf.numbersOf, List.all_append, Bool.and_true, Bool.and_assoc]
    simp only [List.append_assoc, List.length_cons, Nat.add_assoc, Nat.add_comm 1,
      List.cons_append, List.nil_append]
    rfl
termination_by ms => sizeOf ms

end

/-- What a new writer makes of a value. -/
theorem run_new (D : Doubles) (v : JsonOf Number) : Writer.run D ({}, true) (valueCalls v) =
    some (⟨writtenBy D v, [], true⟩, v.numbers.all Number.finite) := by
  rw [run_value]
  rfl

/-! ### Reading back what is written -/

/-- The writer treats all calls for an integer alike. -/
theorem alike_writer (D : Doubles) : (writer D).Alike := by
  intro n m h
  funext w
  rw [number_writer, number_writer, Writer.callTrue, Writer.callTrue, Writer.call, Writer.call]
  simp only [writeNumber_eq, h.text_eq, h.finite_eq]

/-- What is written for a value is read back as its calls. -/
theorem parseDocument_writtenBy {D : Doubles} {v : JsonOf Number}
    (h : ∀ d, .double d ∈ v.numbers → D.ReadsBack d) {s s' : Bytes} (hs : Json.Spaces s)
    (hs' : Json.Spaces s') :
    parseDocument D (s ++ (writtenBy D v ++ s')) = some (v.map Number.data) := by
  have hnumber : ∀ n ∈ v.numbers, Json.NumberText (n.text D) ∧
      ∃ m, D.convert (n.text D) = some m ∧ m.data = n.data :=
    fun n hn => convert_text fun d hd => h d (hd ▸ hn)
  have hreadable : ∀ t ∈ (v.map (Number.text D)).numbers, Json.Readable D.tooBig t := by
    rw [JsonOf.numbers_map]
    intro t ht
    obtain ⟨n, hn, rfl⟩ := List.mem_map.mp ht
    obtain ⟨htext, m, hm, -⟩ := hnumber n hn
    exact ⟨htext, by rw [Doubles.tooBig, hm]; rfl⟩
  have hparse : parse D.tooBig (s ++ (writtenBy D v ++ s')) = some (v.map (Number.text D)) :=
    parse_document ⟨s, _, s', rfl, hs, hs', Json.text_render stringText_writeString _ hreadable⟩
  rw [parseDocument_eq, parseCalls, hparse, Option.bind_some, JsonOf.map_traverse,
    JsonOf.traverse_map]
  apply JsonOf.traverse_eq_map
  intro n hn
  obtain ⟨-, m, hm, hdata⟩ := hnumber n hn
  rw [hm, Option.map_some, hdata]

/-- **The round trip.**  A new writer to which `Accept` shows a value takes it and is complete, and
    what it has written is read back as the value, with any spaces around it, if this holds of the
    doubles in it; integers may be anything. -/
theorem write_round_trip (D : Doubles) (v : JsonOf Number)
    (h : ∀ d, .double d ∈ v.numbers → D.ReadsBack d) :
    ∃ w, (writer D).accept (v.map Number.data) {} = some w ∧ w.isComplete = true ∧
      ∀ s s', Json.Spaces s → Json.Spaces s' →
        parseDocument D (s ++ (w.os ++ s')) = some (v.map Number.data) := by
  have hfinite : v.numbers.all Number.finite = true := by
    rw [List.all_eq_true]
    intro n hn
    cases n with
    | double d => exact congrArg not (h d hn).finite
    | _ => rfl
  have hrun := run_new D v
  rw [hfinite] at hrun
  refine ⟨⟨writtenBy D v, [], true⟩, ?_, rfl, fun s s' hs hs' => parseDocument_writtenBy h hs hs'⟩
  rw [(alike_writer D).accept_map, visit_writer]
  exact Writer.runTrue_of_run hrun

/-- The conversions of -1500 and 0.1. -/
def smallDoubles : Doubles where
  strtod text :=
    if text = ofString "-1500.0" then some 0xC097700000000000
    else if text = ofString "0.1" then some 0x3FB999999999999A
    else none
  dtoa d :=
    if d = 0xC097700000000000 then ofString "-1500.0"
    else if d = 0x3FB999999999999A then ofString "0.1"
    else []

/-- An object with numbers of all kinds, an array and an empty object in it. -/
def smallObject : JsonOf Number :=
  .object [([10, 0, 200], .number (.double 0xC097700000000000)),
    ([], .array [.number (.int (-5)), .number (.uint 7), .number (.int64 (-0x8000000000000000)),
      .number (.uint64 0xFFFFFFFFFFFFFFFF), .number (.double 0x3FB999999999999A), .null,
      .string [34], .object []])]

theorem write_smallObject :
    ∃ w, (writer smallDoubles).accept (smallObject.map Number.data) {} = some w ∧
      w.isComplete = true ∧ ∀ s s', Json.Spaces s → Json.Spaces s' →
        parseDocument smallDoubles (s ++ (w.os ++ s')) = some (smallObject.map Number.data) := by
  refine write_round_trip smallDoubles smallObject fun d hd => ?_
  obtain rfl | rfl : d = 0xC097700000000000 ∨ d = 0x3FB999999999999A := by
    simpa [smallObject, JsonOf.numbers, JsonOf.numbersOf, JsonOf.numbersIn] using hd
  · refine ⟨by decide, ?_, by decide +kernel⟩
    exact ⟨ofString "-", ofString "1500", ofString ".0", [], by decide, .inr rfl,
      .inr ⟨_, _, rfl, by decide, by decide +kernel⟩, .inr ⟨_, rfl, by decide +kernel⟩, .inl rfl⟩
  · refine ⟨by decide, ?_, by decide +kernel⟩
    exact ⟨[], ofString "0", ofString ".1", [], by decide, .inl rfl, .inl rfl,
      .inr ⟨_, rfl, by decide +kernel⟩, .inl rfl⟩

/-! ### Which calls make a complete writer

The calls of a run are read back as the values that are still open, the innermost first. -/

/-- A value that is open: an array, an object that waits for a name, or one that waits for the
    value of a name. -/
inductive Frame where
  | array (js : List (JsonOf Number))
  | members (ms : List (Bytes × JsonOf Number))
  | named (ms : List (Bytes × JsonOf Number)) (k : Bytes)

/-- The calls that led to it. -/
def Frame.calls : Frame → List Call
  | .array js   => .startArray :: elementCalls js
  | .members ms => .startObject :: memberCalls ms
  | .named ms k => .startObject :: (memberCalls ms ++ [.string k])

/-- Its level. -/
def Frame.level : Frame → Level
  | .array js   => ⟨js.length, true⟩
  | .members ms => ⟨2 * ms.length, false⟩
  | .named ms _ => ⟨2 * ms.length + 1, false⟩

/-- Whether a value may come next: a name is a string. -/
def Frame.Takes (string : Bool) : Frame → Prop
  | .members _ => string = true
  | _          => True

/-- The calls that led to some open values. -/
def callsOf : List Frame → List Call
  | []      => []
  | f :: fs => callsOf fs ++ f.calls

/-- The levels of open values in which one value more has been started. -/
def levelsOf (fs : List Frame) : List Level := fs.map fun f => f.level.next

/-- Whether a value may come next in the innermost one. -/
def Waits (string : Bool) : List Frame → Prop
  | []      => True
  | f :: fs => f.Takes string ∧ ∀ g ∈ fs, g.Takes false

/-- Where a writer stands after some calls. -/
inductive Reached : List Call → Writer → Prop
  | new (os : Bytes) : Reached [] ⟨os, [], false⟩
  | inside (f : Frame) (fs : List Frame) (os : Bytes) (below : ∀ g ∈ fs, g.Takes false) :
      Reached (callsOf (f :: fs)) ⟨os, f.level :: levelsOf fs, true⟩
  | complete (j : JsonOf Number) (os : Bytes) : Reached (valueCalls j) ⟨os, [], true⟩

theorem elementCalls_append (js js' : List (JsonOf Number)) :
    elementCalls (js ++ js') = elementCalls js ++ elementCalls js' := by
  induction js with
  | nil => rfl
  | cons j js ih => rw [List.cons_append, elementCalls, ih, elementCalls, List.append_assoc]

theorem memberCalls_append (ms ms' : List (Bytes × JsonOf Number)) :
    memberCalls (ms ++ ms') = memberCalls ms ++ memberCalls ms' := by
  induction ms with
  | nil => rfl
  | cons m ms ih =>
    rw [List.cons_append, memberCalls, ih, memberCalls, List.cons_append, List.append_assoc]

/-- An open value with one value more. -/
theorem Frame.grow (f : Frame) (j : JsonOf Number) (h : f.Takes (isString j)) :
    ∃ f' : Frame, f'.calls = f.calls ++ valueCalls j ∧ f'.level = f.level.next := by
  cases f with
  | array js =>
    refine ⟨.array (js ++ [j]), ?_, ?_⟩
    · simp [Frame.calls, elementCalls_append, elementCalls]
    · simp [Frame.level, Level.next]
  | members ms =>
    cases j with
    | string k =>
      refine ⟨.named ms k, ?_, rfl⟩
      simp [Frame.calls, valueCalls]
    | _ => exact absurd h Bool.false_ne_true
  | named ms k =>
    refine ⟨.members (ms ++ [(k, j)]), ?_, ?_⟩
    · simp [Frame.calls, memberCalls_append, memberCalls]
    · simp only [Frame.level, Level.next, List.length_append, List.length_singleton, Nat.mul_add]

theorem waits_false_iff (fs : List Frame) : Waits false fs ↔ ∀ f ∈ fs, f.Takes false := by
  cases fs with
  | nil => exact ⟨fun _ _ h => absurd h List.not_mem_nil, fun _ => trivial⟩
  | cons f fs => rw [Waits, List.forall_mem_cons]

/-- A value has been written. -/
theorem reached_value {fs : List Frame} {j : JsonOf Number} (h : Waits (isString j) fs)
    (os : Bytes) : Reached (callsOf fs ++ valueCalls j) ⟨os, levelsOf fs, true⟩ := by
  cases fs with
  | nil => exact .complete j os
  | cons f fs =>
    obtain ⟨f', hcalls, hlevel⟩ := f.grow j h.1
    have hreached := Reached.inside f' fs os h.2
    rw [hlevel, callsOf, hcalls, ← List.append_assoc] at hreached
    exact hreached

/-- A value may be started where the innermost open one waits for it. -/
theorem reached_prefix {cs : List Call} {w w' : Writer} {b : Bool} (h : Reached cs w)
    (hw : w.writePrefix b = some w') :
    ∃ fs os, cs = callsOf fs ∧ Waits b fs ∧ w' = ⟨os, levelsOf fs, true⟩ := by
  cases h with
  | new os =>
    cases hw
    exact ⟨[], os, rfl, trivial, rfl⟩
  | inside f fs os below =>
    rw [writePrefix_cons] at hw
    split_ifs at hw with hname
    cases hw
    refine ⟨f :: fs, _, rfl, ⟨?_, below⟩, rfl⟩
    cases f with
    | members ms =>
      rw [Frame.Takes, ← Bool.not_eq_false]
      exact fun hb => hname ⟨rfl, Nat.mul_mod_right 2 ms.length, hb⟩
    | _ => trivial
  | complete j os => cases hw

/-- The innermost open value is closed. -/
theorem reached_pop {cs : List Call} {w w' : Writer} {b : Bool} {s : Bytes} (h : Reached cs w)
    (hw : w.pop b s = some w') :
    ∃ j fs os, cs ++ [if b then .endArray else .endObject] = callsOf fs ++ valueCalls j ∧
      Waits (isString j) fs ∧ w' = ⟨os, levelsOf fs, true⟩ := by
  cases h with
  | new => cases hw
  | complete => cases hw
  | inside f fs os below =>
    rw [pop_cons] at hw
    split_ifs at hw with hkind
    cases hw
    cases f with
    | array js =>
      obtain rfl : true = b := hkind.1
      refine ⟨.array js, fs, _, ?_, (waits_false_iff fs).mpr below, rfl⟩
      simp [callsOf, Frame.calls, valueCalls]
    | members ms =>
      obtain rfl : false = b := hkind.1
      refine ⟨.object ms, fs, _, ?_, (waits_false_iff fs).mpr below, rfl⟩
      simp [callsOf, Frame.calls, valueCalls]
    | named ms k =>
      have hodd : ¬ (2 * ms.length + 1) % 2 = 0 := by omega
      obtain ⟨rfl, hcount⟩ := hkind
      exact absurd hcount (not_or.mpr ⟨Bool.false_ne_true, hodd⟩)

variable {D : Doubles}

/-- **One call.** -/
theorem reached_call {cs : List Call} {w w' : Writer} {c : Call} {ok : Bool} (h : Reached cs w)
    (hc : w.call D c = some (w', ok)) : Reached (cs ++ [c]) w' := by
  -- a call that is a value of its own
  have hvalue : ∀ {v : JsonOf Number} {put : Writer → Writer × Bool}, valueCalls v = [c] →
      (∀ os levels, ∃ os', (put ⟨os, levels, true⟩).1 = ⟨os', levels, true⟩) →
      (w.writePrefix (isString v)).map put = some (w', ok) → Reached (cs ++ [c]) w' := by
    intro v put hv hput hw
    obtain ⟨w₁, hprefix, hw'⟩ := Option.map_eq_some_iff.mp hw
    obtain ⟨fs, os, rfl, hwaits, rfl⟩ := reached_prefix h hprefix
    obtain ⟨os', hos'⟩ := hput os (levelsOf fs)
    rw [hw'] at hos'
    rw [← hv, show w' = ⟨os', levelsOf fs, true⟩ from hos']
    exact reached_value hwaits os'
  -- one that opens a value
  have hopen : ∀ {b : Bool} {s : Bytes} {f : Frame}, f.calls = [c] → f.level = ⟨0, b⟩ →
      ((w.writePrefix false).map fun w => (w.push b s, true)) = some (w', ok) →
        Reached (cs ++ [c]) w' := by
    intro b s f hf hlevel hw
    obtain ⟨w₁, hprefix, hw'⟩ := Option.map_eq_some_iff.mp hw
    obtain ⟨fs, os, rfl, hwaits, rfl⟩ := reached_prefix h hprefix
    cases hw'
    rw [← hf, Writer.push, ← hlevel]
    exact .inside f fs _ ((waits_false_iff fs).mp hwaits)
  -- one that closes it
  have hclose : ∀ {b : Bool} {s : Bytes}, c = (if b then .endArray else .endObject) →
      ((w.pop b s).map fun w => (w, true)) = some (w', ok) → Reached (cs ++ [c]) w' := by
    intro b s hb hw
    obtain ⟨w₁, hpop, hw'⟩ := Option.map_eq_some_iff.mp hw
    cases hw'
    obtain ⟨v, fs, os, hcalls, hwaits, rfl⟩ := reached_pop h hpop
    rw [hb, hcalls]
    exact reached_value hwaits os
  cases c with
  | null => exact hvalue (v := .null) rfl (fun os levels => ⟨_, rfl⟩) hc
  | bool b => exact hvalue (v := .bool b) rfl (fun os levels => ⟨_, rfl⟩) hc
  | number n =>
    refine hvalue (v := .number n) rfl (fun os levels => ?_) hc
    rw [writeNumber_eq]
    exact ⟨_, rfl⟩
  | string s => exact hvalue (v := .string s) rfl (fun os levels => ⟨_, rfl⟩) hc
  | startObject => exact hopen (f := .members []) rfl rfl hc
  | startArray => exact hopen (f := .array []) rfl rfl hc
  | endObject => exact hclose (b := false) rfl hc
  | endArray => exact hclose (b := true) rfl hc

/-- **All calls.** -/
theorem reached_run (cs : List Call) {w : Writer} {ok : Bool}
    (h : Writer.run D ({}, true) cs = some (w, ok)) : Reached cs w := by
  induction cs using List.reverseRecOn generalizing w ok with
  | nil =>
    cases h
    exact .new []
  | append_singleton cs c ih =>
    rw [Writer.run_append] at h
    obtain ⟨⟨w₁, ok₁⟩, hw₁, hc⟩ := Option.bind_eq_some_iff.mp h
    rw [Writer.run_single, Writer.step] at hc
    obtain ⟨⟨w₂, ok₂⟩, hcall, hw⟩ := Option.map_eq_some_iff.mp hc
    cases hw
    exact reached_call (ih hw₁) hcall

/-- An open value can be closed. -/
theorem Frame.close (f : Frame) :
    ∃ rest j, f.calls ++ rest = valueCalls j ∧ isString j = false := by
  cases f with
  | array js => exact ⟨[.endArray], .array js, rfl, rfl⟩
  | members ms => exact ⟨[.endObject], .object ms, rfl, rfl⟩
  | named ms k =>
    refine ⟨[.null, .endObject], .object (ms ++ [(k, .null)]), ?_, rfl⟩
    simp [Frame.calls, valueCalls, memberCalls_append, memberCalls]

/-- And so can all of them. -/
theorem closes (n : Nat) : ∀ fs : List Frame, fs.length = n → (∀ f ∈ fs.tail, f.Takes false) →
    ∃ rest j, callsOf fs ++ rest = valueCalls j := by
  induction n with
  | zero =>
    intro fs hn _
    rw [List.eq_nil_of_length_eq_zero hn]
    exact ⟨[.null], .null, rfl⟩
  | succ n ih =>
    intro fs hn hbelow
    obtain ⟨f, fs, rfl⟩ := List.exists_cons_of_length_eq_add_one hn
    obtain ⟨rest, j, hclose, hj⟩ := f.close
    have hcalls : callsOf (f :: fs) ++ rest = callsOf fs ++ valueCalls j := by
      rw [callsOf, List.append_assoc, hclose]
    cases fs with
    | nil => exact ⟨rest, j, hcalls⟩
    | cons g fs =>
      have hg : g.Takes (isString j) := hj ▸ hbelow g List.mem_cons_self
      obtain ⟨g', hgrow, -⟩ := g.grow j hg
      obtain ⟨rest', j', h'⟩ := ih (g' :: fs) (Nat.succ.inj hn) fun f hf =>
        hbelow f (List.mem_cons_of_mem g hf)
      refine ⟨rest ++ rest', j', ?_⟩
      rw [← List.append_assoc, hcalls, callsOf, List.append_assoc (callsOf fs), ← hgrow, ← h']
      rfl

/-- **The calls.**  A sequence of calls leaves a complete writer exactly when it is the calls of one
    value, and all of them have returned true exactly when the doubles in it are finite.  The
    writer takes a sequence exactly when it can be continued to one. -/
theorem writer_exact (D : Doubles) (cs : List Call) :
    (∀ w ok, (Writer.run D ({}, true) cs = some (w, ok) ∧ w.isComplete = true) ↔
        ∃ v, cs = valueCalls v ∧ w = ⟨writtenBy D v, [], true⟩ ∧
          ok = v.numbers.all Number.finite) ∧
      ((Writer.run D ({}, true) cs).isSome = true ↔ ∃ rest v, cs ++ rest = valueCalls v) := by
  refine ⟨fun w ok => ⟨?_, ?_⟩, ?_, ?_⟩
  · rintro ⟨hrun, hcomplete⟩
    cases reached_run cs hrun with
    | new => exact absurd hcomplete Bool.false_ne_true
    | inside => exact absurd hcomplete Bool.false_ne_true
    | complete v os =>
      rw [run_new] at hrun
      cases hrun
      exact ⟨v, rfl, rfl, rfl⟩
  · rintro ⟨v, rfl, rfl, rfl⟩
    exact ⟨run_new D v, rfl⟩
  · intro h
    obtain ⟨⟨w, ok⟩, hw⟩ := Option.isSome_iff_exists.mp h
    cases reached_run cs hw with
    | new => exact ⟨[.null], .null, rfl⟩
    | inside f fs os below => exact closes _ (f :: fs) rfl below
    | complete v os => exact ⟨[], v, List.append_nil _⟩
  · rintro ⟨rest, v, hv⟩
    have hrun := run_new D v
    rw [← hv, Writer.run_append] at hrun
    obtain ⟨w, hw, -⟩ := Option.bind_eq_some_iff.mp hrun
    rw [hw]
    rfl

end OsgiManager.Rapidjson
