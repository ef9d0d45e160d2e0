import OsgiManager.Http.RequestHandler

namespace OsgiManager.Http

open OsgiManager.Lib

/-!
# The type of the file served

The handler computes the extension of the path it has decoded, and tests that path for a final
slash; the file is opened by the C string of the path.  The two are compared here.

* `extensionOf` — the extension of a path, as what its name says;
* `extension_eq` — the positions that the handler compares give this extension;
* `ServedTyped` — a reply carries the type of the file that was opened;
* `servedTyped_iff` — the uris for which all positive replies do.
-/

/-- What follows the last dot after the last slash. -/
def extensionOf (path : Bytes) : Bytes :=
  let component := afterLast '/'.toUInt8 path
  if '.'.toUInt8 ∈ component then afterLast '.'.toUInt8 component else []

/-- Only the last component of a path counts. -/
theorem extensionOf_append {path : Bytes} (h : '/'.toUInt8 ∈ path) (root : Bytes) :
    extensionOf (root ++ path) = extensionOf path := by
  obtain ⟨front, back, rfl, hback⟩ := exists_last h
  rw [← List.append_assoc, extensionOf, afterLast_append_cons hback, extensionOf,
    afterLast_append_cons hback]

/-- **The handler's extension** of a path with a slash is what follows the last dot after the
    last slash. -/
theorem extension_eq {path : Bytes} (h : '/'.toUInt8 ∈ path) : extension path = extensionOf path := by
  obtain ⟨front, back, rfl, hback⟩ := exists_last h
  have hslash : findLastOf '/'.toUInt8 (front ++ '/'.toUInt8 :: back) = some front.length :=
    findLastOf_append_cons hback front
  rw [extensionOf, afterLast_append_cons hback, extension, hslash]
  by_cases hdot : '.'.toUInt8 ∈ back
  · -- the last dot is in the last component
    obtain ⟨stem, ext, rfl, hext⟩ := exists_last hdot
    have hpath : front ++ '/'.toUInt8 :: (stem ++ '.'.toUInt8 :: ext) =
        (front ++ '/'.toUInt8 :: stem) ++ '.'.toUInt8 :: ext := by simp
    have hafter : (front ++ '/'.toUInt8 :: stem).length > front.length := by simp
    rw [if_pos hdot, afterLast_append_cons hext, hpath, findLastOf_append_cons hext]
    simp only [if_pos hafter]
    rw [List.drop_length_add_append]
    rfl
  · have hlast : '.'.toUInt8 ∉ '/'.toUInt8 :: back := by
      rw [List.mem_cons, not_or]
      exact ⟨by decide, hdot⟩
    rw [if_neg hdot]
    by_cases hfront : '.'.toUInt8 ∈ front
    · -- the last dot comes before the last slash
      obtain ⟨stem, rest, rfl, hrest⟩ := exists_last hfront
      have hpath : (stem ++ '.'.toUInt8 :: rest) ++ '/'.toUInt8 :: back =
          stem ++ '.'.toUInt8 :: (rest ++ '/'.toUInt8 :: back) := by simp
      have hnone : '.'.toUInt8 ∉ rest ++ '/'.toUInt8 :: back := by
        rw [List.mem_append, not_or]
        exact ⟨hrest, hlast⟩
      have hbefore : ¬ stem.length > (stem ++ '.'.toUInt8 :: rest).length := by simp
      rw [hpath, findLastOf_append_cons hnone]
      simp only [if_neg hbefore]
    · -- there is no dot at all
      have hnone : '.'.toUInt8 ∉ front ++ '/'.toUInt8 :: back := by
        rw [List.mem_append, not_or]
        exact ⟨hfront, hlast⟩
      rw [findLastOf_eq_none_iff.mpr hnone]

/-! ### The path and its cut -/

/-- The decoded path, completed to the index file of a directory. -/
def completed (decoded : Bytes) : Bytes :=
  if decoded.getLast? = some '/'.toUInt8 then decoded ++ ofString "index.html" else decoded

/-- Which decoded paths are not refused, and what becomes of them. -/
theorem requestPath_eq_some_iff {uri path : Bytes} : requestPath uri = some path ↔
    ∃ decoded, urlDecode uri = some decoded ∧ decoded.head? = some '/'.toUInt8 ∧
      ¬ ofString ".." <:+: decoded ∧ completed decoded = path := by
  unfold requestPath
  cases hdec : urlDecode uri with
  | none => simp
  | some decoded =>
    have hne : decoded.head? = some '/'.toUInt8 → decoded ≠ [] := by
      rintro h rfl
      cases h
    simp only [find_isSome_iff, Option.some.injEq, exists_eq_left']
    split_ifs with hbad hdir
    · refine ⟨fun h => absurd h (by simp), ?_⟩
      rintro ⟨hhead, hdots, -⟩
      rcases hbad with h | h | h
      · exact absurd h (hne hhead)
      · exact absurd hhead h
      · exact absurd h hdots
    · rw [not_or, not_or, not_not] at hbad
      simp [completed, hdir, hbad]
    · rw [not_or, not_or, not_not] at hbad
      simp [completed, hdir, hbad]

/-- The cut of a decoded path is no directory, and its type is the one the handler computes. -/
def CutKeepsType (decoded : Bytes) : Prop :=
  (cstr decoded).getLast? ≠ some '/'.toUInt8 ∧
    extensionToType (extensionOf (cstr decoded)) =
      extensionToType (if decoded.getLast? = some '/'.toUInt8 then ofString "html"
        else extensionOf decoded)

theorem getLast?_completed (decoded : Bytes) :
    (completed decoded).getLast? ≠ some '/'.toUInt8 := by
  unfold completed
  split_ifs with hdir
  · rw [List.getLast?_append_of_ne_nil _ (by decide)]
    decide
  · exact hdir

theorem nulFree_completed {decoded : Bytes} (h : NulFree decoded) : NulFree (completed decoded) := by
  unfold completed
  split_ifs
  · exact nulFree_append.mpr ⟨h, by decide⟩
  · exact h

theorem cstr_completed {decoded : Bytes} (h : ¬ NulFree decoded) :
    cstr (completed decoded) = cstr decoded := by
  unfold completed
  split_ifs
  · exact cstr_append_of_not_nulFree h _
  · rfl

theorem extensionOf_completed (decoded : Bytes) : extensionOf (completed decoded) =
    if decoded.getLast? = some '/'.toUInt8 then ofString "html" else extensionOf decoded := by
  unfold completed
  split_ifs with hdir
  · obtain ⟨dir, rfl⟩ := List.getLast?_eq_some_iff.mp hdir
    have hindex : dir ++ ['/'.toUInt8] ++ ofString "index.html" =
        dir ++ '/'.toUInt8 :: ofString "index.html" := by simp
    rw [hindex, extensionOf, afterLast_append_cons (by decide)]
    decide
  · rfl

/-- What the handler computes for a completed path holds of its cut. -/
theorem completed_cut_iff (decoded : Bytes) :
    ((cstr (completed decoded)).getLast? ≠ some '/'.toUInt8 ∧
      extensionToType (extensionOf (completed decoded)) =
        extensionToType (extensionOf (cstr (completed decoded)))) ↔
      NulFree decoded ∨ CutKeepsType decoded := by
  by_cases hnul : NulFree decoded
  · have hcut : cstr (completed decoded) = completed decoded :=
      cstr_of_nulFree (nulFree_completed hnul)
    rw [hcut]
    exact ⟨fun _ => .inl hnul, fun _ => ⟨getLast?_completed decoded, rfl⟩⟩
  · rw [cstr_completed hnul, extensionOf_completed, CutKeepsType]
    constructor
    · rintro ⟨hlast, htype⟩
      exact .inr ⟨hlast, htype.symm⟩
    · rintro (h | ⟨hlast, htype⟩)
      · exact absurd h hnul
      · exact ⟨hlast, htype.symm⟩

/-! ### The reply -/

/-- The value of the first header with a name. -/
def Reply.headerValue (rep : Reply) (name : Bytes) : Option Bytes :=
  (rep.headers.find? (·.name = name)).map (·.value)

/-- A reply for a uri carries the type of the file opened for it, whose path is no directory. -/
def ServedTyped (docRoot uri : Bytes) (rep : Reply) : Prop :=
  ∃ path, requestedFile docRoot uri = some path ∧
    rep.headerValue (ofString "Content-Type") = some (extensionToType (extensionOf path)) ∧
    path.getLast? ≠ some '/'.toUInt8

/-- A request is answered positively when its path is not refused and the file is there. -/
theorem handleRequest_status_eq_ok_iff (files : Bytes → Option Bytes) (docRoot : Bytes)
    (req : Request) (rep : Reply) : (handleRequest files docRoot req rep).status = .ok ↔
      ∃ path file, requestPath req.uri = some path ∧ files (cstr (docRoot ++ path)) = some file := by
  unfold handleRequest
  cases hpath : requestPath req.uri with
  | none => simp [stockReply]
  | some path =>
    cases hfile : files (cstr (docRoot ++ path)) with
    | none => simp [stockReply, hfile]
    | some file => simp [hfile]

/-- The type in a positive reply. -/
theorem handleRequest_contentType {files : Bytes → Option Bytes} {docRoot path file : Bytes}
    {req : Request} (hpath : requestPath req.uri = some path)
    (hfile : files (cstr (docRoot ++ path)) = some file) (rep : Reply) :
    (handleRequest files docRoot req rep).headerValue (ofString "Content-Type") =
      some (extensionToType (extension path)) := by
  have hname : ofString "Content-Length" ≠ ofString "Content-Type" := by decide
  simp [handleRequest, hpath, hfile, Reply.headerValue, contentHeaders, hname]

/-- For one path, the type in the reply is right when the cut of the path keeps it. -/
theorem servedTyped_path_iff {docRoot uri path : Bytes} (hroot : NulFree docRoot)
    (hpath : requestPath uri = some path) {rep : Reply}
    (htype : rep.headerValue (ofString "Content-Type") = some (extensionToType (extension path))) :
    ServedTyped docRoot uri rep ↔ (cstr path).getLast? ≠ some '/'.toUInt8 ∧
      extensionToType (extensionOf path) = extensionToType (extensionOf (cstr path)) := by
  obtain ⟨rest, rfl⟩ := List.head?_eq_some_iff.mp (requestPath_spec hpath).1
  have hslash : '/'.toUInt8 ∈ '/'.toUInt8 :: rest := List.mem_cons_self
  have hcut : cstr ('/'.toUInt8 :: rest) = '/'.toUInt8 :: cstr rest := rfl
  have hslash' : '/'.toUInt8 ∈ cstr ('/'.toUInt8 :: rest) := by
    rw [hcut]
    exact List.mem_cons_self
  have hlast : (docRoot ++ cstr ('/'.toUInt8 :: rest)).getLast? =
      (cstr ('/'.toUInt8 :: rest)).getLast? :=
    List.getLast?_append_of_ne_nil _ (List.ne_nil_of_mem hslash')
  rw [ServedTyped, requestedFile, hpath, Option.map_some, htype, extension_eq hslash,
    cstr_append hroot]
  simp only [Option.some.injEq, exists_eq_left', extensionOf_append hslash', hlast]
  exact and_comm

/-- The file of a positive reply is the one requested. -/
theorem handleRequest_file {files : Bytes → Option Bytes} {docRoot : Bytes} {req : Request}
    {rep : Reply} (h : (handleRequest files docRoot req rep).status = .ok) :
    ∃ path file, requestedFile docRoot req.uri = some path ∧ files path = some file ∧
      (handleRequest files docRoot req rep).content = rep.content ++ file := by
  obtain ⟨path, file, hpath, hfile⟩ := (handleRequest_status_eq_ok_iff files docRoot req rep).mp h
  refine ⟨cstr (docRoot ++ path), file, by rw [requestedFile, hpath]; rfl, hfile, ?_⟩
  simp only [handleRequest, hpath, hfile, readContent_eq]

/-- All positive replies for a uri are typed exactly when the cut of its path keeps the type. -/
theorem forall_servedTyped_iff (docRoot : Bytes) (hroot : NulFree docRoot) (uri : Bytes) :
    (∀ files req rep, req.uri = uri → (handleRequest files docRoot req rep).status = .ok →
      ServedTyped docRoot uri (handleRequest files docRoot req rep)) ↔
      ∀ decoded, urlDecode uri = some decoded → decoded.head? = some '/'.toUInt8 →
        ¬ ofString ".." <:+: decoded → NulFree decoded ∨ CutKeepsType decoded := by
  constructor
  · intro htyped decoded hdec hhead hdots
    -- some request for the uri, answered by a file system where every file is there
    obtain ⟨req, rfl⟩ : ∃ req : Request, req.uri = uri := ⟨⟨[], uri, 1, 0, []⟩, rfl⟩
    obtain ⟨rep⟩ : Nonempty Reply := ⟨⟨.ok, [], []⟩⟩
    obtain ⟨files, hfiles⟩ : ∃ files : Bytes → Option Bytes, ∀ path, files path = some [] :=
      ⟨fun _ => some [], fun _ => rfl⟩
    have hpath : requestPath req.uri = some (completed decoded) :=
      requestPath_eq_some_iff.mpr ⟨decoded, hdec, hhead, hdots, rfl⟩
    have hfile : files (cstr (docRoot ++ completed decoded)) = some [] := hfiles _
    have hok : (handleRequest files docRoot req rep).status = .ok :=
      (handleRequest_status_eq_ok_iff files docRoot req rep).mpr ⟨_, [], hpath, hfile⟩
    rw [← completed_cut_iff]
    exact (servedTyped_path_iff hroot hpath (handleRequest_contentType hpath hfile rep)).mp
      (htyped files req rep rfl hok)
  · rintro hcond files req rep rfl hok
    obtain ⟨path, file, hpath, hfile⟩ :=
      (handleRequest_status_eq_ok_iff files docRoot req rep).mp hok
    obtain ⟨decoded, hdec, hhead, hdots, rfl⟩ := requestPath_eq_some_iff.mp hpath
    rw [servedTyped_path_iff hroot hpath (handleRequest_contentType hpath hfile rep),
      completed_cut_iff]
    exact hcond decoded hdec hhead hdots

/-- **The type of the file served.**  A positive reply brings the content of the file requested.
    For a document root without zero bytes, all positive replies for a uri carry the type of
    this file, and its path is no directory, exactly when the uri is refused, or its decoded
    path has no zero byte, or what is before the first zero byte is no directory and has the
    type of the whole. -/
theorem servedTyped_iff (docRoot : Bytes) (hroot : NulFree docRoot) (uri : Bytes) :
    (∀ files req rep, req.uri = uri → (handleRequest files docRoot req rep).status = .ok →
        ∃ path file, requestedFile docRoot uri = some path ∧ files path = some file ∧
          (handleRequest files docRoot req rep).content = rep.content ++ file) ∧
      ((∀ files req rep, req.uri = uri → (handleRequest files docRoot req rep).status = .ok →
        ServedTyped docRoot uri (handleRequest files docRoot req rep)) ↔
        ∀ decoded, urlDecode uri = some decoded → decoded.head? = some '/'.toUInt8 →
          ¬ ofString ".." <:+: decoded → NulFree decoded ∨ CutKeepsType decoded) := by
  refine ⟨?_, forall_servedTyped_iff docRoot hroot uri⟩
  rintro files req rep rfl hok
  exact handleRequest_file hok

/-- A uri without a zero byte, under the document root of the program. -/
theorem servedTyped_png : ServedTyped (ofString "/") (ofString "/a%2Epng")
    (handleRequest (fun _ => some []) (ofString "/") ⟨ofString "GET", ofString "/a%2Epng", 1, 0, []⟩
      ⟨.ok, [], []⟩) := by
  refine (servedTyped_iff (ofString "/") (by decide) (ofString "/a%2Epng")).2.mpr ?_ _ _ _ rfl
    (by decide)
  intro decoded hdec _ _
  cases (show urlDecode (ofString "/a%2Epng") = some (ofString "/a.png") by decide).symm.trans hdec
  exact .inl (by decide)

/-- A hidden extension: the page is served as an image. -/
theorem servedTyped_hidden :
    (handleRequest (fun _ => some []) (ofString "/")
      ⟨ofString "GET", ofString "/a.html%00.png", 1, 0, []⟩ ⟨.ok, [], []⟩).status = .ok ∧
    ¬ ServedTyped (ofString "/") (ofString "/a.html%00.png")
      (handleRequest (fun _ => some []) (ofString "/")
        ⟨ofString "GET", ofString "/a.html%00.png", 1, 0, []⟩ ⟨.ok, [], []⟩) := by
  refine ⟨by decide, ?_⟩
  rintro ⟨path, hpath, htype, -⟩
  cases (show requestedFile (ofString "/") (ofString "/a.html%00.png") =
    some (ofString "//a.html") by decide).symm.trans hpath
  exact absurd htype (by decide)

end OsgiManager.Http
