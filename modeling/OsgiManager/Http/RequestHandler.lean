import OsgiManager.Http.Messages
import OsgiManager.Lib.Loop

namespace OsgiManager.Http

open OsgiManager.Lib

/-!
# The request handler

`request_handler` decodes the uri of a request into a path, checks it, and answers with the
file of that path below the document root.  The file system is a parameter: it gives the
content of a file, or `none` when the stream cannot be opened.

* `urlDecode` — percent-decoding, with the stream extraction it uses (`extractHex`);
* `requestPath` — the path a uri asks for, if the request is not refused;
* `requestedFile` — the C string handed to the file stream;
* `handleRequest` — the reply.
-/

/-! ### Decoding -/

/-- `isspace` in the C locale: what an extraction skips. -/
def isSpace (c : Byte) : Bool := c = ' '.toUInt8 || (9 ≤ c && c ≤ 13)

/-- The value of a hexadecimal digit. -/
def hexDigit (c : Byte) : Option Nat :=
  if '0'.toUInt8 ≤ c ∧ c ≤ '9'.toUInt8 then some (c.toNat - '0'.toNat)
  else if 'a'.toUInt8 ≤ c ∧ c ≤ 'f'.toUInt8 then some (c.toNat - 'a'.toNat + 10)
  else if 'A'.toUInt8 ≤ c ∧ c ≤ 'F'.toUInt8 then some (c.toNat - 'A'.toNat + 10)
  else none

/-- The value of the leading hexadecimal digits, added to what was read before. -/
def hexDigits : Nat → Bytes → Nat
  | acc, []        => acc
  | acc, c :: rest => match hexDigit c with
    | some d => hexDigits (16 * acc + d) rest
    | none   => acc

/-- The digits of a number after its sign: a base prefix is passed over, and the extraction
    fails when no digit is there. -/
def extractDigits : Bytes → Option Nat
  | 48 :: 120 :: rest | 48 :: 88 :: rest =>
      (rest.head?.bind hexDigit).map fun _ => hexDigits 0 rest
  | s => (s.head?.bind hexDigit).map fun _ => hexDigits 0 s

/-- `is >> std::hex >> value` for a string of two characters, which is too short for the
    value to overflow: leading space is skipped, a sign is accepted, and reading stops at the
    first character that is no digit.  `none` when the extraction fails. -/
def extractHex (s : Bytes) : Option Int :=
  match s.dropWhile isSpace with
  | 45 :: rest => (extractDigits rest).map fun n => -(n : Int)
  | 43 :: rest => (extractDigits rest).map Int.ofNat
  | rest       => (extractDigits rest).map Int.ofNat

/-- `url_decode`: the decoded string, or `none` where the source returns false. -/
def urlDecode : Bytes → Option Bytes
  | [] => some []
  | 37 :: a :: b :: rest => match extractHex [a, b] with
    | some value => (urlDecode rest).map (UInt8.ofInt value :: ·)
    | none       => none
  -- fewer than two characters after the percent sign
  | 37 :: _    => none
  | 43 :: rest => (urlDecode rest).map (' '.toUInt8 :: ·)
  | c :: rest  => (urlDecode rest).map (c :: ·)

example : urlDecode (ofString "/a%2Fb+c") = some (ofString "/a/b c") := by decide

/-! ### The path -/

/-- The request path, absolute, without `..`, and completed to the index file of a directory;
    `none` when the request is refused. -/
def requestPath (uri : Bytes) : Option Bytes :=
  match urlDecode uri with
  | none => none
  | some request_path =>
      if request_path = [] ∨ request_path.head? ≠ some '/'.toUInt8 ∨
          (find (ofString "..") request_path).isSome then none
      else if request_path.getLast? = some '/'.toUInt8 then
        some (request_path ++ ofString "index.html")
      else some request_path

/-- The C string handed to the file stream for a uri, if a file is opened at all. -/
def requestedFile (docRoot uri : Bytes) : Option Bytes :=
  (requestPath uri).map fun request_path => cstr (docRoot ++ request_path)

/-- The extension of a request path. -/
def extension (request_path : Bytes) : Bytes :=
  match findLastOf '.'.toUInt8 request_path, findLastOf '/'.toUInt8 request_path with
  | some lastDot, some lastSlash =>
      if lastDot > lastSlash then request_path.drop (lastDot + 1) else []
  -- without a slash the comparison is with `npos`, the largest position
  | _, _ => []

/-- `mime_types::extension_to_type`. -/
def extensionToType (ext : Bytes) : Bytes :=
  let mappings :=
    [ (ofString "gif", ofString "image/gif"), (ofString "htm", ofString "text/html"),
      (ofString "html", ofString "text/html"), (ofString "jpg", ofString "image/jpeg"),
      (ofString "png", ofString "image/png") ]
  (mappings.lookup ext).getD (ofString "text/plain")

/-! ### The reply -/

/-- One pass of the loop that reads the file, on the content so far and the unread bytes. -/
def contentBody : Bytes × Bytes → (Bytes × Bytes) ⊕ Bytes
  | (content, file) =>
      let buf := file.take 512
      if buf.length > 0 then .inl (content ++ buf, file.drop 512) else .inr content

/-- The content of a reply after the loop has read a file into it. -/
def readContent (content file : Bytes) : Bytes :=
  (Loop.run contentBody (file.length + 1) (content, file)).getD []

/-- `handle_request`: the reply `rep` after the call. -/
def handleRequest (files : Bytes → Option Bytes) (docRoot : Bytes) (req : Request) (rep : Reply) :
    Reply :=
  match requestPath req.uri with
  | none => stockReply .badRequest
  | some request_path =>
      match files (cstr (docRoot ++ request_path)) with
      | none => stockReply .notFound
      | some file =>
          -- the reply is filled in place, so the file goes after what its content was
          let content := readContent rep.content file
          { status  := .ok
            headers := contentHeaders content (extensionToType (extension request_path))
            content := content }

/-- The loop ends within the passes `readContent` gives it, with the whole file appended. -/
theorem readContent_eq (content file : Bytes) : readContent content file = content ++ file := by
  have hrun : ∃ r, Loop.run contentBody (file.length + 1) (content, file) = some r ∧
      r = content ++ file := by
    refine Loop.run_of_variant (fun s => s.1 ++ s.2 = content ++ file) (fun s => s.2.length)
      (fun r => r = content ++ file) ?_ ?_ rfl (Nat.lt_succ_self _)
    · -- a chunk moves from the file to the content
      rintro ⟨c, f⟩ s' hparts hbody
      simp only [contentBody] at hbody
      split_ifs at hbody with hpos
      cases hbody
      rw [List.length_take] at hpos
      have hdrop : (f.drop 512).length = f.length - 512 := List.length_drop
      refine ⟨?_, ?_⟩
      · rw [List.append_assoc, List.take_append_drop]
        exact hparts
      · show (f.drop 512).length < f.length
        omega
    · -- an empty chunk is the end of the file
      rintro ⟨c, f⟩ r hparts hbody
      simp only [contentBody] at hbody
      split_ifs at hbody with hpos
      cases hbody
      have hnil : f = [] := by
        rw [List.length_take] at hpos
        exact List.length_eq_zero_iff.mp (by omega)
      rw [← hparts, hnil, List.append_nil]
  obtain ⟨r, hr, hcontent⟩ := hrun
  rw [readContent, hr, Option.getD_some, hcontent]

/-- A path that is not refused is absolute and has no two adjacent dots. -/
theorem requestPath_spec {uri path : Bytes} (h : requestPath uri = some path) :
    path.head? = some '/'.toUInt8 ∧ ¬ ofString ".." <:+: path := by
  unfold requestPath at h
  split at h
  · cases h
  · rename_i decoded _
    split_ifs at h with hbad hdir
    · -- completing a directory path brings no adjacent dots in
      cases h
      rw [not_or, not_or, not_not, find_isSome_iff] at hbad
      obtain ⟨hne, hhead, hdots⟩ := hbad
      refine ⟨?_, ?_⟩
      · rw [List.head?_append_of_ne_nil _ hne]
        exact hhead
      · rw [List.infix_append_iff_ne_nil]
        rintro (hd | hd | ⟨l₁, l₂, h₁, h₂, hl, hs, hp⟩)
        · exact hdots hd
        · exact absurd hd (by decide)
        · -- such dots would have to end in the `i` of the index file
          obtain ⟨x, l₂, rfl⟩ := List.exists_cons_of_ne_nil h₂
          have hx : x = 'i'.toUInt8 := by
            obtain ⟨t, ht⟩ := hp
            exact (List.cons.inj ht).1
          have hmem : x ∈ ofString ".." := by rw [hl]; simp
          exact absurd (hx ▸ hmem) (by decide)
    · cases h
      rw [not_or, not_or, not_not, find_isSome_iff] at hbad
      exact hbad.2

end OsgiManager.Http
