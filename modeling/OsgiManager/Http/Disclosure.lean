import OsgiManager.Http.Confinement
import OsgiManager.Http.Server

namespace OsgiManager.Http

open OsgiManager.Lib

/-!
# What the server gives away

Nothing that lies outside the document root: two runs that differ in such files only are the
same run.

* `Below` — the paths below the document root;
* `SameBelow` — two completions with the same files below it;
* `served_sameBelow` — they take the server through the same states, so every reply and every
  buffer is the same.
-/

variable {docRoot : Bytes} {files files' : Bytes → Option Bytes}

/-- A path that never leaves the document root when it is walked. -/
def Below (docRoot path : Bytes) : Prop :=
  ∃ below, path = docRoot ++ below ∧ below.head? = some '/'.toUInt8 ∧
    (walk isSeparator below).isSome = true

/-- File systems that agree below the document root. -/
def AgreeBelow (docRoot : Bytes) (files files' : Bytes → Option Bytes) : Prop :=
  ∀ path, Below docRoot path → files path = files' path

/-- Completions that differ in the files outside the document root only. -/
inductive SameBelow (docRoot : Bytes) : Completion → Completion → Prop
  | read (id : Nat) (ec : ErrorCode) (data : Bytes) {files files' : Bytes → Option Bytes}
      (agree : AgreeBelow docRoot files files') :
      SameBelow docRoot (.read id ec data files) (.read id ec data files')
  | refl (e : Completion) : SameBelow docRoot e e

/-- What a path is cut to at its first zero byte starts as it does. -/
theorem head?_cstr {path : Bytes} (h : path.head? = some '/'.toUInt8) :
    (cstr path).head? = some '/'.toUInt8 := by
  cases path with
  | nil => cases h
  | cons c rest =>
    obtain rfl : c = '/'.toUInt8 := Option.some.inj h
    rfl

/-- The handler opens files below the document root only. -/
theorem below_requestedFile (hroot : NulFree docRoot) {uri path : Bytes}
    (h : requestedFile docRoot uri = some path) : Below docRoot path := by
  obtain ⟨request_path, hreq, rfl⟩ := Option.map_eq_some_iff.mp h
  obtain ⟨hhead, hdots⟩ := requestPath_spec hreq
  refine ⟨cstr request_path, cstr_append hroot request_path, head?_cstr hhead, walk_isSome ?_ isSeparator⟩
  exact fun hin => hdots (hin.trans (cstr_isPrefix request_path).isInfix)

theorem receive_sameBelow (hroot : NulFree docRoot) (h : AgreeBelow docRoot files files')
    (data : Bytes) (c : Connection) :
    c.receive docRoot files data = c.receive docRoot files' data := by
  have hreply : ∀ req rep, handleRequest files docRoot req rep =
      handleRequest files' docRoot req rep := fun req rep =>
    handleRequest_congr (fun path hpath => h path (below_requestedFile hroot hpath)) rep
  simp only [Connection.receive, hreply]

/-- **Step lemma.** -/
theorem step_sameBelow (hroot : NulFree docRoot) {e e' : Completion} (h : SameBelow docRoot e e')
    (s : Server) : step docRoot s e = step docRoot s e' := by
  cases h with
  | refl => rfl
  | read id ec data agree =>
    have hreceive : ∀ c : Connection, c.receive docRoot _ data = c.receive docRoot _ data :=
      receive_sameBelow hroot agree data
    simp only [step, Server.onRead, funext hreceive]

/-- **Confidentiality.**  Two runs with the same completions, whose files are the same below the
    document root, take the server to the same state. -/
theorem served_sameBelow (hroot : NulFree docRoot) {cs cs' : List Completion}
    (h : List.Forall₂ (SameBelow docRoot) cs cs') : served docRoot cs = served docRoot cs' := by
  have hfold : ∀ s, cs.foldl (step docRoot) s = cs'.foldl (step docRoot) s := by
    induction h with
    | nil => exact fun _ => rfl
    | cons hstep _ ih =>
      intro s
      rw [List.foldl_cons, List.foldl_cons, step_sameBelow hroot hstep, ih]
  exact hfold Server.make

/-- One request for a file outside the document root. -/
def climbing (files : Bytes → Option Bytes) : List Completion :=
  [ .accept .success 1 1 .ok,
    .read 0 .success (ofString "GET /..%2Fetc/passwd HTTP/1.0\r\n\r\n") files ]

/-- It does not tell whether there is such a file. -/
theorem served_sameBelow_climbing :
    served (ofString "/www")
        (climbing fun path => if path = ofString "/etc/passwd" then some [1] else none) =
      served (ofString "/www") (climbing fun _ => none) := by
  refine served_sameBelow (by decide) (.cons (.refl _) (.cons (.read 0 .success _ ?_) .nil))
  rintro _ ⟨below, rfl, -, -⟩
  refine if_neg fun h => ?_
  have htake := congrArg (List.take 4) h
  rw [List.take_append_of_le_length (by decide)] at htake
  exact absurd htake (by decide)

end OsgiManager.Http
