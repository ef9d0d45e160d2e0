import OsgiManager.Rapidjson.Document
import OsgiManager.Rapidjson.MachineNumbers

namespace OsgiManager.Rapidjson

open OsgiManager.Lib

/-!
# Handlers

`GenericReader::Parse` and `GenericValue::Accept` are templates over a handler, whose functions
they call as they go along.  The handler of `Document::Parse` is the document, which builds the
values on a stack.

* `Handler` — the functions of a handler on its state; `none` where one returns false;
* `Handler.parse` — the reader with a handler; an error ends it wherever it is;
* `Handler.visit` — the calls for a value, and `Handler.accept` those that `Accept` makes;
* `document` — the functions of the document;
* `parse_eq` — reading into a handler is reading a value and then showing it to the handler;
* `handler_parse` — what is on the stack of the document after `Parse`, and what `Accept` makes
  of it: the calls of the reader, but for the functions it chooses for integers.
-/

variable {σ α : Type}

/-- The functions of a handler. -/
structure Handler (σ : Type) where
  null : σ → Option σ
  bool (b : Bool) : σ → Option σ
  int (i : BitVec 32) : σ → Option σ
  uint (u : BitVec 32) : σ → Option σ
  int64 (i64 : BitVec 64) : σ → Option σ
  uint64 (u64 : BitVec 64) : σ → Option σ
  double (d : Double) : σ → Option σ
  string (str : Bytes) : σ → Option σ
  key (str : Bytes) : σ → Option σ
  startObject : σ → Option σ
  endObject (memberCount : Nat) : σ → Option σ
  startArray : σ → Option σ
  endArray (elementCount : Nat) : σ → Option σ

namespace Handler

/-- A call of one of the functions for numbers. -/
def number (H : Handler σ) : Number → σ → Option σ
  | .int i      => H.int i
  | .uint u     => H.uint u
  | .int64 i64  => H.int64 i64
  | .uint64 u64 => H.uint64 u64
  | .double d   => H.double d

/-! ### The reader -/

/-- `ParseNull`, `ParseTrue` and `ParseFalse`. -/
def parseWord (event : σ → Option σ) (others is : Bytes) (h : σ) : Option (Bytes × σ) :=
  (others.foldlM (fun is expect => consume expect is) is.tail).bind fun is =>
    (event h).map fun h => (is, h)

/-- `ParseString`, for a value or a name. -/
def parseString (event : Bytes → σ → Option σ) (is : Bytes) (h : σ) : Option (Bytes × σ) :=
  (Rapidjson.parseString is).bind fun str => (event str.1 h).map fun h => (str.2, h)

/-- The end of `ParseNumber`: the call for the text that has been read. -/
def convert (H : Handler σ) (D : Doubles) (text : Bytes) (h : σ) : Option σ :=
  (D.convert text).bind fun n => H.number n h

/-- `ParseNumber`. -/
def parseNumber (H : Handler σ) (D : Doubles) (is : Bytes) (h : σ) : Option (Bytes × σ) :=
  (parseInt (parseMinus is).2).bind fun int =>
    (parseFrac int.2).bind fun frac =>
      (parseExp frac.2).bind fun exp =>
        (H.convert D ((parseMinus is).1 ++ (int.1 ++ (frac.1 ++ exp.1))) h).map fun h => (exp.2, h)

/-- `ParseObject` and `ParseArray` up to their loops. -/
def parseBracketed (start : σ → Option σ) (close : Byte) (finish : Nat → σ → Option σ)
    (loop : Nat → Bytes → σ → Option (Bytes × σ)) (is : Bytes) (h : σ) : Option (Bytes × σ) :=
  (start h).bind fun h =>
    if peek (skipWhitespace is.tail) = close then
      (finish 0 h).map fun h => ((skipWhitespace is.tail).tail, h)
    else loop 0 (skipWhitespace is.tail) h

/-- The end of a pass of their loops, with the number of items so far. -/
def parseNext (close : Byte) (finish : Nat → σ → Option σ)
    (loop : Nat → Bytes → σ → Option (Bytes × σ)) (count : Nat) (is : Bytes) (h : σ) :
    Option (Bytes × σ) :=
  if peek (skipWhitespace is) = ','.toUInt8 then
    loop count (skipWhitespace (skipWhitespace is).tail) h
  else if peek (skipWhitespace is) = close then
    (finish count h).map fun h => ((skipWhitespace is).tail, h)
  else none

mutual

/-- `ParseValue`. -/
def parseValue (H : Handler σ) (D : Doubles) :
    Nat → Bytes → σ → Option (Bytes × σ)
  | 0, _, _         => none
  | fuel + 1, is, h =>
      if peek is = 'n'.toUInt8 then parseWord H.null (ofString "ull") is h
      else if peek is = 't'.toUInt8 then parseWord (H.bool true) (ofString "rue") is h
      else if peek is = 'f'.toUInt8 then parseWord (H.bool false) (ofString "alse") is h
      else if peek is = '"'.toUInt8 then parseString H.string is h
      else if peek is = '{'.toUInt8 then
        parseBracketed H.startObject '}'.toUInt8 H.endObject (parseMembers H D fuel) is h
      else if peek is = '['.toUInt8 then
        parseBracketed H.startArray ']'.toUInt8 H.endArray (parseElements H D fuel) is h
      else parseNumber H D is h

/-- The loop of `ParseObject`. -/
def parseMembers (H : Handler σ) (D : Doubles) :
    Nat → Nat → Bytes → σ → Option (Bytes × σ)
  | 0, _, _, _                   => none
  | fuel + 1, memberCount, is, h =>
      if peek is ≠ '"'.toUInt8 then none
      else (parseString H.key is h).bind fun name =>
        (consume ':'.toUInt8 (skipWhitespace name.1)).bind fun is =>
          (parseValue H D fuel (skipWhitespace is) name.2).bind fun value =>
            parseNext '}'.toUInt8 H.endObject (parseMembers H D fuel) (memberCount + 1)
              value.1 value.2

/-- The loop of `ParseArray`. -/
def parseElements (H : Handler σ) (D : Doubles) :
    Nat → Nat → Bytes → σ → Option (Bytes × σ)
  | 0, _, _, _                    => none
  | fuel + 1, elementCount, is, h =>
      (parseValue H D fuel is h).bind fun value =>
        parseNext ']'.toUInt8 H.endArray (parseElements H D fuel) (elementCount + 1)
          value.1 value.2

end

/-- `Parse`. -/
def parse (H : Handler σ) (D : Doubles) (json : Bytes) (h : σ) : Option σ :=
  if skipWhitespace (cstr json) = [] then none
  else (parseValue H D (skipWhitespace (cstr json)).length (skipWhitespace (cstr json)) h).bind
    fun value => if skipWhitespace value.1 = [] then some value.2 else none

/-! ### Values -/

section
variable {ν μ : Type} (number : ν → σ → Option σ)

mutual

/-- The body of `Accept`, with `number` for its last branch. -/
def visit (H : Handler σ) : JsonOf ν → σ → Option σ
  | .null, h      => H.null h
  | .bool b, h    => H.bool b h
  | .number n, h  => number n h
  | .string s, h  => H.string s h
  | .array js, h  => (H.startArray h).bind fun h =>
      (visitElements H js h).bind (H.endArray js.length)
  | .object ms, h => (H.startObject h).bind fun h =>
      (visitMembers H ms h).bind (H.endObject ms.length)

def visitElements (H : Handler σ) : List (JsonOf ν) → σ → Option σ
  | [], h      => some h
  | j :: js, h => (visit H j h).bind (visitElements H js)

def visitMembers (H : Handler σ) : List (Bytes × JsonOf ν) → σ → Option σ
  | [], h           => some h
  | (k, j) :: ms, h => (H.key k h).bind fun h => (visit H j h).bind (visitMembers H ms)

end

end

/-- `Accept`. -/
def accept (H : Handler σ) : JsonOf NumberData → σ → Option σ :=
  visit (fun data => H.number data.number) H

/-! ### Reading into a handler -/

variable {H : Handler σ} {D : Doubles}

/-- Reading a value and showing it to the handler. -/
def shown (H : Handler σ) (D : Doubles) (value : Option (Json × Bytes)) (h : σ) :
    Option (Bytes × σ) :=
  value.bind fun p => (visit (H.convert D) H p.1 h).map fun h => (p.2, h)

theorem parseWord_eq (value : Json) (others is : Bytes) (h : σ) :
    parseWord (visit (H.convert D) H value) others is h =
      H.shown D (Rapidjson.parseWord value others is) h := by
  rw [parseWord, shown, Rapidjson.parseWord]
  cases others.foldlM (fun is expect => consume expect is) is.tail <;> rfl

theorem parseString_eq (is : Bytes) (h : σ) :
    parseString H.string is h =
      H.shown D ((Rapidjson.parseString is).map fun p => (.string p.1, p.2)) h := by
  rw [parseString, shown]
  cases Rapidjson.parseString is <;> rfl

theorem parseNumber_eq (is : Bytes) (h : σ) :
    parseNumber H D is h = H.shown D (Rapidjson.parseNumber D.tooBig is) h := by
  rw [parseNumber, shown, Rapidjson.parseNumber]
  cases parseInt (parseMinus is).2 with
  | none => rfl
  | some int =>
    rw [Option.bind_some, Option.bind_some]
    cases parseFrac int.2 with
    | none => rfl
    | some frac =>
      rw [Option.bind_some, Option.bind_some]
      cases parseExp frac.2 with
      | none => rfl
      | some exp =>
        simp only [Option.bind_some]
        split_ifs with hbig
        · -- a number that is too big is refused by both
          rw [convert, Option.isNone_iff_eq_none.mp hbig]
          rfl
        · rfl

/-- A loop that reads items as the values `loop'` gives, shows them and ends. -/
def Loops (finish : Nat → σ → Option σ) (many : List α → σ → Option σ)
    (loop : Nat → Bytes → σ → Option (Bytes × σ)) (loop' : Bytes → Option (List α × Bytes)) :
    Prop :=
  ∀ count is h, loop count is h = (loop' is).bind fun p =>
    (many p.1 h).bind fun h => (finish (count + p.1.length) h).map fun h => (p.2, h)

variable {start : σ → Option σ} {finish : Nat → σ → Option σ}
  {many : List α → σ → Option σ} {loop : Nat → Bytes → σ → Option (Bytes × σ)}
  {loop' : Bytes → Option (List α × Bytes)}

theorem parseBracketed_eq {close : Byte} (hloop : Loops finish many loop loop')
    (hnil : ∀ h, many [] h = some h) {value : List α → Json}
    (hvalue : ∀ items h, visit (H.convert D) H (value items) h =
      (start h).bind fun h => (many items h).bind (finish items.length)) (is : Bytes) (h : σ) :
    parseBracketed start close finish loop is h =
      H.shown D (Rapidjson.parseBracketed close value loop' is) h := by
  rw [parseBracketed, shown, Rapidjson.parseBracketed]
  split_ifs with hclose
  · rw [Option.bind_some, hvalue]
    cases start h with
    | none => rfl
    | some h =>
      rw [Option.bind_some, Option.bind_some, hnil]
      rfl
  · cases hitems : loop' (skipWhitespace is.tail) with
    | none =>
      simp [hloop 0, hitems]
    | some p =>
      rw [Option.map_some, Option.bind_some, hvalue]
      cases start h with
      | none => rfl
      | some h =>
        simp only [Option.bind_some, hloop 0, hitems, Nat.zero_add]
        cases many p.1 h <;> rfl

/-- After an item come the other ones, whatever the item is. -/
theorem parseNext_eq (close : Byte) (hloop : Loops finish many loop loop')
    (hnil : ∀ h, many [] h = some h) (is : Bytes) : ∃ rest : Option (List α × Bytes),
      (∀ item, Rapidjson.parseNext close loop' item is = rest.map fun p => (item :: p.1, p.2)) ∧
      ∀ count h, parseNext close finish loop count is h = rest.bind fun p =>
        (many p.1 h).bind fun h => (finish (count + p.1.length) h).map fun h => (p.2, h) := by
  simp only [Rapidjson.parseNext, parseNext]
  split_ifs with hcomma hclose
  · refine ⟨loop' (skipWhitespace (skipWhitespace is).tail), fun _ => rfl, fun count h => ?_⟩
    exact hloop _ _ _
  · refine ⟨some ([], (skipWhitespace is).tail), fun _ => rfl, fun count h => ?_⟩
    rw [Option.bind_some, hnil]
    rfl
  · exact ⟨none, fun _ => rfl, fun _ _ => rfl⟩

/-- A pass of the loop of `ParseArray`. -/
theorem parseElements_succ {n : Nat}
    (hvalue : ∀ is h, parseValue H D n is h = H.shown D (Rapidjson.parseValue D.tooBig n is) h)
    (helements : Loops H.endArray (visitElements (H.convert D) H) (parseElements H D n)
      (Rapidjson.parseElements D.tooBig n)) :
    Loops H.endArray (visitElements (H.convert D) H) (parseElements H D (n + 1))
      (Rapidjson.parseElements D.tooBig (n + 1)) := by
  intro count is h
  rw [parseElements, Rapidjson.parseElements, hvalue, shown]
  cases Rapidjson.parseValue D.tooBig n is with
  | none => rfl
  | some value =>
    obtain ⟨rest, hrest, hnext⟩ := parseNext_eq ']'.toUInt8 helements (fun _ => rfl) value.2
    rw [Option.bind_some, Option.bind_some, hrest]
    cases rest with
    | none =>
      -- an error after the value
      cases visit (H.convert D) H value.1 h with
      | none => rfl
      | some h => exact hnext (count + 1) h
    | some p =>
      rw [Option.map_some, Option.bind_some, visitElements]
      cases visit (H.convert D) H value.1 h with
      | none => rfl
      | some h =>
        rw [Option.map_some, Option.bind_some, hnext, Option.bind_some, Option.bind_some,
          List.length_cons, Nat.add_assoc, Nat.add_comm 1]

/-- A pass of the loop of `ParseObject`. -/
theorem parseMembers_succ {n : Nat}
    (hvalue : ∀ is h, parseValue H D n is h = H.shown D (Rapidjson.parseValue D.tooBig n is) h)
    (hmembers : Loops H.endObject (visitMembers (H.convert D) H) (parseMembers H D n)
      (Rapidjson.parseMembers D.tooBig n)) :
    Loops H.endObject (visitMembers (H.convert D) H) (parseMembers H D (n + 1))
      (Rapidjson.parseMembers D.tooBig (n + 1)) := by
  intro count is h
  rw [parseMembers, Rapidjson.parseMembers]
  split_ifs with hquote
  · rfl
  rw [parseString]
  cases Rapidjson.parseString is with
  | none => rfl
  | some name =>
    rw [Option.bind_some, Option.bind_some]
    cases hcolon : consume ':'.toUInt8 (skipWhitespace name.2) with
    | none => cases H.key name.1 h <;> simp [hcolon]
    | some is =>
      rw [Option.bind_some]
      cases hread : Rapidjson.parseValue D.tooBig n (skipWhitespace is) with
      | none => cases H.key name.1 h <;> simp [hcolon, hvalue, shown, hread]
      | some value =>
        obtain ⟨rest, hrest, hnext⟩ := parseNext_eq '}'.toUInt8 hmembers (fun _ => rfl) value.2
        rw [Option.bind_some, hrest]
        cases hkey : H.key name.1 h with
        | none =>
          -- the name is refused, whatever comes after it
          cases rest <;> simp [visitMembers, hkey]
        | some h₁ =>
          rw [Option.map_some, Option.bind_some, hcolon, Option.bind_some, hvalue, shown, hread,
            Option.bind_some]
          cases haccept : visit (H.convert D) H value.1 h₁ with
          | none => cases rest <;> simp [visitMembers, hkey, haccept]
          | some h₂ =>
            rw [Option.map_some, Option.bind_some, hnext]
            cases rest with
            | none => rfl
            | some p =>
              rw [Option.map_some, Option.bind_some, Option.bind_some, visitMembers, hkey,
                Option.bind_some, haccept, Option.bind_some, List.length_cons, Nat.add_assoc,
                Nat.add_comm 1]

/-- **The recursion.**  With any fuel, the reader with a handler reads what the reader of values
    reads, and shows it to the handler. -/
theorem parseValue_eq (H : Handler σ) (D : Doubles) (n : Nat) :
    (∀ is h, parseValue H D n is h = H.shown D (Rapidjson.parseValue D.tooBig n is) h) ∧
      Loops H.endObject (visitMembers (H.convert D) H) (parseMembers H D n)
        (Rapidjson.parseMembers D.tooBig n) ∧
      Loops H.endArray (visitElements (H.convert D) H) (parseElements H D n)
        (Rapidjson.parseElements D.tooBig n) := by
  induction n with
  | zero => exact ⟨fun _ _ => rfl, fun _ _ _ => rfl, fun _ _ _ => rfl⟩
  | succ n ih =>
    obtain ⟨hvalue, hmembers, helements⟩ := ih
    refine ⟨fun is h => ?_, parseMembers_succ hvalue hmembers, parseElements_succ hvalue helements⟩
    rw [parseValue, Rapidjson.parseValue]
    split_ifs
    · exact parseWord_eq .null _ is h
    · exact parseWord_eq (.bool true) _ is h
    · exact parseWord_eq (.bool false) _ is h
    · exact parseString_eq is h
    · exact parseBracketed_eq hmembers (fun _ => rfl) (fun _ _ => rfl) is h
    · exact parseBracketed_eq helements (fun _ => rfl) (fun _ _ => rfl) is h
    · exact parseNumber_eq is h

/-- The reader with a handler, on a whole text. -/
theorem parse_eq (H : Handler σ) (D : Doubles) (json : Bytes) (h : σ) :
    H.parse D json h = (Rapidjson.parse D.tooBig json).bind fun j => visit (H.convert D) H j h := by
  rw [parse, Rapidjson.parse, (parseValue_eq H D _).1, shown]
  split_ifs
  · rfl
  · cases Rapidjson.parseValue D.tooBig (skipWhitespace (cstr json)).length
      (skipWhitespace (cstr json)) with
    | none => rfl
    | some p =>
      rw [Option.bind_some, Option.bind_some]
      split_ifs with hrest
      · rw [Option.bind_some]
        cases visit (H.convert D) H p.1 h with
        | none => rfl
        | some h => exact if_pos hrest
      · cases visit (H.convert D) H p.1 h with
        | none => rfl
        | some h => exact if_neg hrest

/-! ### Other numbers -/

section
variable {ν μ : Type} {number : μ → σ → Option σ}

mutual

/-- The calls for a value with other numbers. -/
theorem visit_map (f : ν → μ) : ∀ (v : JsonOf ν) (h : σ),
    visit number H (v.map f) h = visit (fun n => number (f n)) H v h
  | .null, _      => rfl
  | .bool _, _    => rfl
  | .number _, _  => rfl
  | .string _, _  => rfl
  | .array js, h  => by
    rw [JsonOf.map, visit, visit, JsonOf.length_mapIn]
    congr 1
    funext h
    rw [visitElements_map f js]
  | .object ms, h => by
    rw [JsonOf.map, visit, visit, JsonOf.length_mapOf]
    congr 1
    funext h
    rw [visitMembers_map f ms]
termination_by v => sizeOf v

theorem visitElements_map (f : ν → μ) : ∀ (js : List (JsonOf ν)) (h : σ),
    visitElements number H (JsonOf.mapIn f js) h = visitElements (fun n => number (f n)) H js h
  | [], _      => rfl
  | j :: js, h => by
    rw [JsonOf.mapIn, visitElements, visitElements, visit_map f j]
    congr 1
    funext h
    exact visitElements_map f js h
termination_by js => sizeOf js

theorem visitMembers_map (f : ν → μ) : ∀ (ms : List (Bytes × JsonOf ν)) (h : σ),
    visitMembers number H (JsonOf.mapOf f ms) h = visitMembers (fun n => number (f n)) H ms h
  | [], _           => rfl
  | (k, j) :: ms, h => by
    rw [JsonOf.mapOf, visitMembers, visitMembers]
    congr 1
    funext h
    rw [visit_map f j]
    congr 1
    funext h
    exact visitMembers_map f ms h
termination_by ms => sizeOf ms

end

mutual

/-- Numbers that are changed on the way may as well be changed before. -/
theorem visit_traverse (f : ν → Option μ) : ∀ (v : JsonOf ν) (h : σ),
    visit (fun n h => (f n).bind fun m => number m h) H v h =
      (v.traverse f).bind fun v => visit number H v h
  | .null, _      => rfl
  | .bool _, _    => rfl
  | .number n, h  => by
    rw [visit, JsonOf.traverse]
    cases f n <;> rfl
  | .string _, _  => rfl
  | .array js, h  => by
    rw [visit, JsonOf.traverse]
    cases htraverse : JsonOf.traverseIn f js with
    | none =>
      cases H.startArray h with
      | none => rfl
      | some h => rw [Option.bind_some, visitElements_traverse f js, htraverse]; rfl
    | some vs =>
      rw [Option.map_some, Option.bind_some, visit, JsonOf.length_of_traverseIn htraverse]
      congr 1
      funext h
      rw [visitElements_traverse f js, htraverse, Option.bind_some]
  | .object ms, h => by
    rw [visit, JsonOf.traverse]
    cases htraverse : JsonOf.traverseOf f ms with
    | none =>
      cases H.startObject h with
      | none => rfl
      | some h => rw [Option.bind_some, visitMembers_traverse f ms, htraverse]; rfl
    | some vs =>
      rw [Option.map_some, Option.bind_some, visit, JsonOf.length_of_traverseOf htraverse]
      congr 1
      funext h
      rw [visitMembers_traverse f ms, htraverse, Option.bind_some]
termination_by v => sizeOf v

theorem visitElements_traverse (f : ν → Option μ) : ∀ (js : List (JsonOf ν)) (h : σ),
    visitElements (fun n h => (f n).bind fun m => number m h) H js h =
      (JsonOf.traverseIn f js).bind fun js => visitElements number H js h
  | [], _      => rfl
  | j :: js, h => by
    rw [visitElements, visit_traverse f j, JsonOf.traverseIn]
    cases j.traverse f with
    | none => rfl
    | some v =>
      rw [Option.bind_some, Option.bind_some]
      cases hv : visit number H v h with
      | none => cases JsonOf.traverseIn f js <;> simp [visitElements, hv]
      | some h' =>
        rw [Option.bind_some, visitElements_traverse f js]
        cases JsonOf.traverseIn f js <;> simp [visitElements, hv]
termination_by js => sizeOf js

theorem visitMembers_traverse (f : ν → Option μ) : ∀ (ms : List (Bytes × JsonOf ν)) (h : σ),
    visitMembers (fun n h => (f n).bind fun m => number m h) H ms h =
      (JsonOf.traverseOf f ms).bind fun ms => visitMembers number H ms h
  | [], _           => rfl
  | (k, j) :: ms, h => by
    rw [visitMembers, JsonOf.traverseOf]
    cases hk : H.key k h with
    | none => cases j.traverse f <;> cases JsonOf.traverseOf f ms <;> simp [visitMembers, hk]
    | some h₁ =>
      rw [Option.bind_some, visit_traverse f j]
      cases j.traverse f with
      | none => rfl
      | some v =>
        rw [Option.bind_some, Option.bind_some]
        cases hv : visit number H v h₁ with
        | none => cases JsonOf.traverseOf f ms <;> simp [visitMembers, hk, hv]
        | some h₂ =>
          rw [Option.bind_some, visitMembers_traverse f ms]
          cases JsonOf.traverseOf f ms <;> simp [visitMembers, hk, hv]
termination_by ms => sizeOf ms

end

end

end Handler

/-! ### The document -/

/-- A value as `GenericDocument` holds it. -/
abbrev GenericValue := JsonOf NumberData

/-- The values on a stack as members, a name before each value. -/
def membersOf : List GenericValue → Option (List (Bytes × GenericValue))
  | []                   => some []
  | .string k :: j :: js => (membersOf js).map ((k, j) :: ·)
  | _                    => none

/-- `EndObject`: the members are popped, and the value below them is set to the object. -/
def Document.endObject (memberCount : Nat) (stack_ : List GenericValue) :
    Option (List GenericValue) :=
  match stack_.drop (2 * memberCount) with
  | _ :: below => (membersOf (stack_.take (2 * memberCount)).reverse).map fun ms =>
      .object ms :: below
  | []         => none

/-- `EndArray`. -/
def Document.endArray (elementCount : Nat) (stack_ : List GenericValue) :
    Option (List GenericValue) :=
  match stack_.drop elementCount with
  | _ :: below => some (.array (stack_.take elementCount).reverse :: below)
  | []         => none

/-- The functions of `GenericDocument`, on its stack with the top first. -/
def document : Handler (List GenericValue) where
  null stack_                  := some (.null :: stack_)
  bool b stack_                := some (.bool b :: stack_)
  int i stack_                 := some (.number (Number.int i).data :: stack_)
  uint u stack_                := some (.number (Number.uint u).data :: stack_)
  int64 i64 stack_             := some (.number (Number.int64 i64).data :: stack_)
  uint64 u64 stack_            := some (.number (Number.uint64 u64).data :: stack_)
  double d stack_              := some (.number (Number.double d).data :: stack_)
  string str stack_            := some (.string str :: stack_)
  key str stack_               := some (.string str :: stack_)
  startObject stack_           := some (.object [] :: stack_)
  endObject memberCount stack_ := Document.endObject memberCount stack_
  startArray stack_            := some (.array [] :: stack_)
  endArray elementCount stack_ := Document.endArray elementCount stack_

/-- `ParseStream`: after the reader has run on the document, the value on its stack becomes the
    document. -/
def parseDocument (D : Doubles) (json : Bytes) : Option GenericValue :=
  match document.parse D json [] with
  | some [v] => some v
  | _        => none

/-- Some members on a stack, the last value on top. -/
def pushed : List (Bytes × GenericValue) → List GenericValue
  | []           => []
  | (k, j) :: ms => .string k :: j :: pushed ms

theorem membersOf_pushed (ms : List (Bytes × GenericValue)) : membersOf (pushed ms) = some ms := by
  induction ms with
  | nil => rfl
  | cons m ms ih =>
    rw [pushed, membersOf, ih]
    rfl

theorem length_pushed (ms : List (Bytes × GenericValue)) :
    (pushed ms).length = 2 * ms.length := by
  induction ms with
  | nil => rfl
  | cons m ms ih =>
    rw [pushed, List.length_cons, List.length_cons, ih, List.length_cons]
    omega

theorem endObject_pushed (ms : List (Bytes × GenericValue)) (j : GenericValue)
    (stack_ : List GenericValue) :
    Document.endObject ms.length ((pushed ms).reverse ++ j :: stack_) =
      some (.object ms :: stack_) := by
  have hlen : ((pushed ms).reverse).length = 2 * ms.length := by
    rw [List.length_reverse, length_pushed]
  rw [Document.endObject, List.drop_left' hlen, List.take_left' hlen, List.reverse_reverse,
    membersOf_pushed]
  rfl

theorem endArray_pushed (js : List GenericValue) (j : GenericValue) (stack_ : List GenericValue) :
    Document.endArray js.length (js.reverse ++ j :: stack_) = some (.array js :: stack_) := by
  rw [Document.endArray, List.drop_left' List.length_reverse, List.take_left' List.length_reverse,
    List.reverse_reverse]

/-- A number on the stack. -/
theorem number_document (n : Number) (stack_ : List GenericValue) :
    document.number n stack_ = some (.number n.data :: stack_) := by
  cases n <;> rfl

mutual

/-- **One value.**  The calls for a value put it on the stack. -/
theorem visit_document : ∀ (v : JsonOf Number) (stack_ : List GenericValue),
    document.visit document.number v stack_ = some (v.map Number.data :: stack_)
  | .null, _         => rfl
  | .bool _, _       => rfl
  | .number n, _     => number_document n _
  | .string _, _     => rfl
  | .array js, stack_ => by
    rw [Handler.visit]
    show (Handler.visitElements document.number document js (.array [] :: stack_)).bind _ = _
    rw [visitElements_document js, Option.bind_some, ← JsonOf.length_mapIn Number.data]
    exact endArray_pushed (JsonOf.mapIn Number.data js) (.array []) stack_
  | .object ms, stack_ => by
    rw [Handler.visit]
    show (Handler.visitMembers document.number document ms (.object [] :: stack_)).bind _ = _
    rw [visitMembers_document ms, Option.bind_some, ← JsonOf.length_mapOf Number.data]
    exact endObject_pushed (JsonOf.mapOf Number.data ms) (.object []) stack_
termination_by v => sizeOf v

theorem visitElements_document : ∀ (js : List (JsonOf Number)) (stack_ : List GenericValue),
    Handler.visitElements document.number document js stack_ =
      some ((JsonOf.mapIn Number.data js).reverse ++ stack_)
  | [], _ => rfl
  | j :: js, stack_ => by
    rw [Handler.visitElements, visit_document j, Option.bind_some, visitElements_document js,
      JsonOf.mapIn, List.reverse_cons, List.append_assoc, List.singleton_append]
termination_by js => sizeOf js

theorem visitMembers_document : ∀ (ms : List (Bytes × JsonOf Number))
    (stack_ : List GenericValue), Handler.visitMembers document.number document ms stack_ =
      some ((pushed (JsonOf.mapOf Number.data ms)).reverse ++ stack_)
  | [], _ => rfl
  | (k, j) :: ms, stack_ => by
    rw [Handler.visitMembers]
    show ((document.visit document.number j (.string k :: stack_)).bind _) = _
    rw [visit_document j, Option.bind_some, visitMembers_document ms, JsonOf.mapOf, pushed]
    simp only [List.reverse_cons, List.append_assoc, List.singleton_append]
    rfl
termination_by ms => sizeOf ms

end

/-! ### What becomes of a text -/

/-- The value that a text stands for, with the calls that the reader makes for its numbers. -/
def parseCalls (D : Doubles) (json : Bytes) : Option (JsonOf Number) :=
  (parse D.tooBig json).bind (JsonOf.traverse D.convert)

variable {D : Doubles} {json : Bytes}

theorem parseCalls_eq_some_iff {v : JsonOf Number} : parseCalls D json = some v ↔
    ∃ j, Json.Document D.tooBig j (cstr json) ∧ j.traverse D.convert = some v := by
  simp only [parseCalls, Option.bind_eq_some_iff, parse_iff]

/-- **Reading into a handler** is reading a value and making the calls for it. -/
theorem Handler.parse_eq_visit (H : Handler σ) (D : Doubles) (json : Bytes) (h : σ) :
    H.parse D json h = (parseCalls D json).bind fun v => H.visit H.number v h := by
  rw [H.parse_eq, parseCalls, Option.bind_assoc]
  congr 1
  funext j
  exact Handler.visit_traverse D.convert j h

theorem parse_document_eq (D : Doubles) (json : Bytes) :
    document.parse D json [] = (parseCalls D json).map fun v => [v.map Number.data] := by
  rw [Handler.parse_eq_visit]
  cases parseCalls D json with
  | none => rfl
  | some v => exact visit_document v []

theorem parseDocument_eq (D : Doubles) (json : Bytes) :
    parseDocument D json = (parseCalls D json).map (·.map Number.data) := by
  rw [parseDocument, parse_document_eq]
  cases parseCalls D json <;> rfl

/-- A handler that treats all calls for an integer alike. -/
def Handler.Alike (H : Handler σ) : Prop := ∀ n m : Number, n.Alike m → H.number n = H.number m

theorem alike_document : document.Alike := by
  intro n m h
  funext stack_
  rw [number_document, number_document, h.data_eq]

/-- `Accept` on a value that came by some calls. -/
theorem Handler.accept_map (H : Handler σ) (v : JsonOf Number) (h : σ) :
    H.accept (v.map Number.data) h = H.visit H.number (v.map Number.narrow) h := by
  rw [Handler.accept, Handler.visit_map, Handler.visit_map]
  rfl

/-- With a handler that treats all calls for an integer alike, they are as good as these calls. -/
theorem Handler.Alike.accept_map {H : Handler σ} (halike : H.Alike) (v : JsonOf Number) (h : σ) :
    H.accept (v.map Number.data) h = H.visit H.number v h := by
  rw [Handler.accept_map, Handler.visit_map]
  congr 1
  funext n
  exact (halike n n.narrow (alike_narrow n)).symm

/-- **The reader and its handlers.**  The texts that stand for a value are read as its calls, and
    to call a handler while a text is read is to read the value first and then make its calls,
    whatever the handler does.  So after `Parse` there is one value on the stack of the document.
    `Accept` makes the same calls again, but for an integer that of the first function it fits
    into.  So with a handler that treats all calls for an integer alike, as the document itself
    does, `Document::Parse` and `Accept` come to the same as reading into the handler. -/
theorem handler_parse (D : Doubles) (json : Bytes) :
    (∀ v, parseCalls D json = some v ↔
        ∃ j, Json.Document D.tooBig j (cstr json) ∧ j.traverse D.convert = some v) ∧
      (∀ {σ : Type} (H : Handler σ) (h : σ),
        H.parse D json h = (parseCalls D json).bind fun v => H.visit H.number v h) ∧
      document.parse D json [] = (parseCalls D json).map (fun v => [v.map Number.data]) ∧
      (∀ {σ : Type} (H : Handler σ) (h : σ),
        ((parseDocument D json).bind fun v => H.accept v h) =
          (parseCalls D json).bind fun v => H.visit H.number (v.map Number.narrow) h) ∧
      (∀ {σ : Type} (H : Handler σ), H.Alike → ∀ h : σ,
        ((parseDocument D json).bind fun v => H.accept v h) = H.parse D json h) ∧
      document.Alike := by
  have haccept : ∀ {σ : Type} (H : Handler σ) (h : σ),
      ((parseDocument D json).bind fun v => H.accept v h) =
        (parseCalls D json).bind fun v => H.accept (v.map Number.data) h := by
    intro σ H h
    rw [parseDocument_eq]
    cases parseCalls D json <;> rfl
  refine ⟨fun v => parseCalls_eq_some_iff, fun H h => H.parse_eq_visit D json h,
    parse_document_eq D json, fun H h => ?_, fun H halike h => ?_, alike_document⟩
  · rw [haccept]
    simp only [H.accept_map]
  · rw [haccept, H.parse_eq_visit]
    simp only [halike.accept_map]

end OsgiManager.Rapidjson
