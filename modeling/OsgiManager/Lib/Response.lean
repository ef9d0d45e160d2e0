import OsgiManager.Lib.Bytes

namespace OsgiManager.Lib

/-!
# HTTP/1.0 responses

The format of a response, as a client reads it: a status line, header lines up to the first empty
line, and as many bytes as `Content-Length` says.  The rest of the connection is left over.

* `untilCrlf`, `natural` — lines and decimal numbers;
* `Response.read` — the reader;
* `Response.read_render` — whatever follows it, a response whose parts do not hide the ends of
  its lines is read back.
-/

/-- A response, as a client sees it. -/
structure Response where
  code : Nat
  fields : List (Bytes × Bytes)
  body : Bytes
deriving DecidableEq

namespace Response

/-! ### Lines -/

/-- `'\r'` and `'\n'`. -/
def lineEnd : Bytes := [13, 10]

/-- The first line, and what comes after its end. -/
def untilCrlf : Bytes → Option (Bytes × Bytes)
  | 13 :: 10 :: rest => some ([], rest)
  | c :: rest => (untilCrlf rest).map fun p => (c :: p.1, p.2)
  | [] => none

/-- A line without a carriage return in it is read up to its end. -/
theorem untilCrlf_append {line : Bytes} (h : (13 : Byte) ∉ line) (rest : Bytes) :
    untilCrlf (line ++ lineEnd ++ rest) = some (line, rest) := by
  induction line with
  | nil => rfl
  | cons c line ih =>
    rw [List.mem_cons, not_or] at h
    have hstep : untilCrlf (c :: (line ++ lineEnd ++ rest)) =
        (untilCrlf (line ++ lineEnd ++ rest)).map fun p => (c :: p.1, p.2) := by
      rw [untilCrlf]
      exact fun _ hc _ => absurd hc.symm h.1
    rw [List.cons_append, List.cons_append, hstep, ih h.2, Option.map_some]

/-! ### Decimal numbers -/

/-- A decimal digit. -/
def isDecimal (c : Byte) : Bool := 48 ≤ c && c ≤ 57

/-- One more digit of a decimal number. -/
def naturalStep (n : Nat) (c : Byte) : Nat := n * 10 + (c.toNat - 48)

/-- The number that a string of decimal digits writes. -/
def natural (s : Bytes) : Option Nat :=
  if s ≠ [] ∧ s.all isDecimal = true then some (s.foldl naturalStep 0) else none

theorem naturalStep_digitChar {d : Nat} (h : d < 10) (n : Nat) :
    isDecimal (Nat.digitChar d).toUInt8 = true ∧
      naturalStep n (Nat.digitChar d).toUInt8 = n * 10 + d := by
  have hdigit : ∀ d < 10, isDecimal (Nat.digitChar d).toUInt8 = true ∧
      (Nat.digitChar d).toUInt8.toNat - 48 = d := by decide
  rw [naturalStep, (hdigit d h).2]
  exact ⟨(hdigit d h).1, rfl⟩

/-- The digits of a number are decimal and write it. -/
theorem toDigits_spec (n : Nat) :
    ((Nat.toDigits 10 n).map Char.toUInt8).all isDecimal = true ∧
      ((Nat.toDigits 10 n).map Char.toUInt8).foldl naturalStep 0 = n := by
  induction n using Nat.strong_induction_on with
  | _ n ih =>
    rw [Nat.toDigits_eq_if (by decide)]
    split_ifs with hlt
    · obtain ⟨hdigit, hstep⟩ := naturalStep_digitChar hlt 0
      simp [hdigit, hstep]
    · -- the last digit is written after those of the tenth
      obtain ⟨hall, hvalue⟩ := ih (n / 10) (by omega)
      obtain ⟨hdigit, hstep⟩ := naturalStep_digitChar (Nat.mod_lt n (by decide : 0 < 10)) (n / 10)
      rw [List.map_append, List.all_append, List.foldl_append, hall, hvalue]
      refine ⟨by simpa using hdigit, ?_⟩
      show naturalStep (n / 10) _ = n
      rw [hstep]
      omega

/-- **Decimal round trip.** -/
theorem natural_toDigits (n : Nat) : natural ((Nat.toDigits 10 n).map Char.toUInt8) = some n := by
  obtain ⟨hall, hvalue⟩ := toDigits_spec n
  have hne : (Nat.toDigits 10 n).map Char.toUInt8 ≠ [] := by simp [Nat.toDigits_ne_nil]
  rw [natural, if_pos ⟨hne, hall⟩, hvalue]

/-! ### The parts of a response -/

/-- The code in a status line. -/
def statusCode (line : Bytes) : Option Nat :=
  let code := (line.drop 9).takeWhile (· ≠ ' '.toUInt8)
  if ofString "HTTP/1.0 " <+: line ∧ code.length = 3 then natural code else none

/-- The name in a header line, and the value after the colon and the blanks. -/
def readField (line : Bytes) : Option (Bytes × Bytes) :=
  match line.dropWhile (· ≠ ':'.toUInt8) with
  | []         => none
  | _ :: value =>
      some (line.takeWhile (· ≠ ':'.toUInt8), value.dropWhile fun c => c = ' '.toUInt8 || c = 9)

/-- The header lines up to the empty one. -/
def readFields : Nat → Bytes → Option (List (Bytes × Bytes) × Bytes)
  | 0, _        => none
  | fuel + 1, s =>
    (untilCrlf s).bind fun p =>
      if p.1 = [] then some ([], p.2)
      else (readField p.1).bind fun f => (readFields fuel p.2).map fun q => (f :: q.1, q.2)

/-- A letter in lower case. -/
def toLower (c : Byte) : Byte := if 65 ≤ c ∧ c ≤ 90 then c + 32 else c

/-- The length of the content; the case of the name does not matter. -/
def contentLength (fs : List (Bytes × Bytes)) : Option Nat :=
  (fs.find? fun f => f.1.map toLower = ofString "content-length").bind fun f => natural f.2

/-- A client reads a response, and leaves the bytes after it. -/
def read (s : Bytes) : Option (Response × Bytes) :=
  (untilCrlf s).bind fun p =>
    (statusCode p.1).bind fun code =>
      -- no header line is empty, so there are fewer of them than bytes
      (readFields (p.2.length + 1) p.2).bind fun q =>
        (contentLength q.1).bind fun n =>
          if n ≤ q.2.length then some (⟨code, q.1, q.2.take n⟩, q.2.drop n) else none

/-! ### Writing -/

/-- A header line. -/
def renderField (f : Bytes × Bytes) : Bytes := f.1 ++ ofString ": " ++ f.2 ++ lineEnd

/-- A header that can be told from its line. -/
structure FieldText (f : Bytes × Bytes) : Prop where
  colon : ':'.toUInt8 ∉ f.1
  name : (13 : Byte) ∉ f.1
  value : (13 : Byte) ∉ f.2
  start : ∀ c ∈ f.2.head?, c ≠ ' '.toUInt8 ∧ c ≠ 9

theorem readField_append {f : Bytes × Bytes} (h : FieldText f) :
    readField (f.1 ++ ofString ": " ++ f.2) = some f := by
  obtain ⟨name, value⟩ := f
  have hname : ∀ c ∈ name, decide (c ≠ ':'.toUInt8) = true := by
    intro c hc
    exact decide_eq_true fun h0 => h.colon (h0 ▸ hc)
  have hdrop : (name ++ ofString ": " ++ value).dropWhile (· ≠ ':'.toUInt8) =
      ':'.toUInt8 :: ' '.toUInt8 :: value := by
    rw [List.append_assoc, List.dropWhile_append_of_pos hname]
    rfl
  have htake : (name ++ ofString ": " ++ value).takeWhile (· ≠ ':'.toUInt8) = name := by
    rw [List.append_assoc, List.takeWhile_append_of_pos hname]
    show name ++ [] = name
    rw [List.append_nil]
  have hvalue : (' '.toUInt8 :: value).dropWhile (fun c => c = ' '.toUInt8 || c = 9) = value := by
    rw [List.dropWhile_cons_of_pos (by decide)]
    cases value with
    | nil => rfl
    | cons c rest =>
      obtain ⟨hspace, htab⟩ := h.start c rfl
      rw [List.dropWhile_cons_of_neg (by simp [hspace, htab])]
  rw [readField, hdrop, htake]
  simp only [hvalue]

/-- The header lines are read back, with enough fuel for each of them. -/
theorem readFields_render {fs : List (Bytes × Bytes)} (h : ∀ f ∈ fs, FieldText f) (rest : Bytes)
    {fuel : Nat} (hfuel : fs.length < fuel) :
    readFields fuel (fs.flatMap renderField ++ lineEnd ++ rest) = some (fs, rest) := by
  induction fs generalizing fuel with
  | nil =>
    obtain ⟨fuel, rfl⟩ := Nat.exists_eq_succ_of_ne_zero (Nat.ne_of_gt hfuel)
    rfl
  | cons f fs ih =>
    rw [List.length_cons] at hfuel
    obtain ⟨fuel, rfl⟩ := Nat.exists_eq_succ_of_ne_zero (n := fuel) (by omega)
    obtain ⟨hf, hfs⟩ := List.forall_mem_cons.mp h
    have hline : (13 : Byte) ∉ f.1 ++ ofString ": " ++ f.2 := by
      rw [List.mem_append, List.mem_append]
      rintro ((hc | hc) | hc)
      · exact hf.name hc
      · exact absurd hc (by decide)
      · exact hf.value hc
    have hcut : (f :: fs).flatMap renderField ++ lineEnd ++ rest =
        (f.1 ++ ofString ": " ++ f.2) ++ lineEnd ++
          (fs.flatMap renderField ++ lineEnd ++ rest) := by
      simp [renderField]
    have hne : f.1 ++ ofString ": " ++ f.2 ≠ [] := by
      intro h0
      exact absurd (List.append_eq_nil_iff.mp (List.append_eq_nil_iff.mp h0).1).2 (by decide)
    rw [readFields, hcut, untilCrlf_append hline, Option.bind_some, if_neg hne, readField_append hf,
      Option.bind_some, ih hfs (by omega), Option.map_some]

/-- A header line has at least its end. -/
theorem length_le_flatMap_renderField (fs : List (Bytes × Bytes)) :
    fs.length ≤ (fs.flatMap renderField).length := by
  induction fs with
  | nil => exact Nat.le_refl 0
  | cons f fs ih =>
    rw [List.flatMap_cons, List.length_append, List.length_cons]
    have hline : (renderField f).length = f.1.length + 2 + f.2.length + 2 := by
      simp only [renderField, List.length_append]
      rfl
    omega

/-- A response with its status line. -/
def render (line : Bytes) (r : Response) : Bytes :=
  line ++ lineEnd ++ (r.fields.flatMap renderField ++ lineEnd ++ r.body)

/-- **Framing.**  A response whose length is announced is read back, and nothing of what follows
    is taken for a part of it. -/
theorem read_render {line : Bytes} {r : Response} (hline : (13 : Byte) ∉ line)
    (hcode : statusCode line = some r.code) (hfields : ∀ f ∈ r.fields, FieldText f)
    (hlength : contentLength r.fields = some r.body.length) (rest : Bytes) :
    read (r.render line ++ rest) = some (r, rest) := by
  obtain ⟨code, fs, body⟩ := r
  have hcut : render line ⟨code, fs, body⟩ ++ rest =
      line ++ lineEnd ++ (fs.flatMap renderField ++ lineEnd ++ (body ++ rest)) := by
    simp [Response.render]
  have hcount : fs.length ≤ (fs.flatMap renderField).length := length_le_flatMap_renderField fs
  have hfuel : fs.length < (fs.flatMap renderField ++ lineEnd ++ (body ++ rest)).length + 1 := by
    rw [List.append_assoc, List.length_append]
    omega
  have hbody : body.length ≤ (body ++ rest).length := by
    rw [List.length_append]
    omega
  rw [read, hcut, untilCrlf_append hline, Option.bind_some, hcode, Option.bind_some,
    readFields_render hfields _ hfuel, Option.bind_some, hlength, Option.bind_some,
    if_pos hbody, List.take_left, List.drop_left]

end Response

end OsgiManager.Lib
