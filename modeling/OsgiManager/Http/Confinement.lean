import OsgiManager.Http.RequestHandler
import OsgiManager.Lib.PathWalk

namespace OsgiManager.Http

open OsgiManager.Lib

/-!
# Document-root confinement

The check for `..` is made on the decoded path, before the index file and the document root
are added and before the stream cuts the result at its first zero byte.  None of the later
steps brings back what the check keeps out.

* `handleRequest_congr` — the handler looks at no file but `requestedFile`;
* `requestedFile_confined` — that file lies below the document root, on every walk of its
  path.
-/

/-- Both kinds of slash separate the components of a path. -/
def isSeparator (c : Byte) : Bool := c = '/'.toUInt8 || c = '\\'.toUInt8

/-- The reply depends on the file system only through the file requested. -/
theorem handleRequest_congr {files files' : Bytes → Option Bytes} {docRoot : Bytes} {req : Request}
    (h : ∀ path, requestedFile docRoot req.uri = some path → files path = files' path)
    (rep : Reply) :
    handleRequest files docRoot req rep = handleRequest files' docRoot req rep := by
  unfold handleRequest
  cases hpath : requestPath req.uri with
  | none => rfl
  | some request_path =>
    have hfile : files (cstr (docRoot ++ request_path)) =
        files' (cstr (docRoot ++ request_path)) := by
      apply h
      rw [requestedFile, hpath, Option.map_some]
    simp only [hfile]

/-- **Document-root confinement.**  For a document root without zero bytes, the handler looks at
    no file at all for a refused uri, and otherwise at none but `requestedFile`, whose path is
    the document root followed by an absolute path that never leaves the root when it is walked
    with both kinds of slash as separators. -/
theorem requestedFile_confined (docRoot : Bytes) (hroot : NulFree docRoot) (req : Request) :
    (requestedFile docRoot req.uri = none →
        ∀ (files files' : Bytes → Option Bytes) (rep : Reply),
          handleRequest files docRoot req rep = handleRequest files' docRoot req rep) ∧
      ∀ path : Bytes, requestedFile docRoot req.uri = some path →
        (∀ (files files' : Bytes → Option Bytes) (rep : Reply), files path = files' path →
          handleRequest files docRoot req rep = handleRequest files' docRoot req rep) ∧
        ∃ below, path = docRoot ++ below ∧ below.head? = some '/'.toUInt8 ∧
          (walk isSeparator below).isSome := by
  refine ⟨fun hnone files files' rep => ?_, fun path hpath => ⟨fun files files' rep h => ?_, ?_⟩⟩
  · apply handleRequest_congr
    intro path hpath
    rw [hnone] at hpath
    cases hpath
  · apply handleRequest_congr
    intro path' hpath'
    rw [hpath, Option.some.injEq] at hpath'
    rw [← hpath', h]
  · obtain ⟨request_path, hreq, hcut⟩ := Option.map_eq_some_iff.mp hpath
    obtain ⟨hhead, hdots⟩ := requestPath_spec hreq
    refine ⟨cstr request_path, ?_, ?_, ?_⟩
    · rw [← hcut, cstr_append hroot]
    · -- the cut comes after the first slash
      obtain ⟨rest, rfl⟩ : ∃ rest, request_path = '/'.toUInt8 :: rest := by
        cases request_path with
        | nil => cases hhead
        | cons c rest =>
          rw [List.head?_cons, Option.some.injEq] at hhead
          exact ⟨rest, by rw [hhead]⟩
      rfl
    · -- a range of a path without adjacent dots has none either
      apply walk_isSome
      exact fun hin => hdots (hin.trans (cstr_isPrefix request_path).isInfix)

/-- The document root of the program, with a uri that hides a zero byte. -/
theorem requestedFile_confined_slash :
    ∃ below, ofString "//a/b" = ofString "/" ++ below ∧ below.head? = some '/'.toUInt8 ∧
      (walk isSeparator below).isSome :=
  ((requestedFile_confined (ofString "/") (by decide)
    ⟨ofString "GET", ofString "/a%2Fb%00.", 1, 0, []⟩).2 (ofString "//a/b") (by decide)).2

end OsgiManager.Http
