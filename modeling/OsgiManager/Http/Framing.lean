import OsgiManager.Http.LifeCycle
import OsgiManager.Lib.Response

namespace OsgiManager.Http

open OsgiManager.Lib

/-!
# The framing of replies

What a client reads from the buffers that a connection writes.  The reply may come from the
handler or be the stock one for a bad request; in every run it is one of these, filled from an
empty reply.

* `Reply.response` — what a client is to see of a reply;
* `framed_of_contentHeaders` — the buffers of a reply with the two headers are read back;
* `Connection.Answered` — where the reply of a connection comes from;
* `reply_framing` — the framing of all replies, and that a connection sends no others.
-/

/-- The enumerators of `reply::status_type`. -/
def StatusType.value : StatusType → Nat
  | .ok                  => 200
  | .created             => 201
  | .accepted            => 202
  | .noContent           => 204
  | .multipleChoices     => 300
  | .movedPermanently    => 301
  | .movedTemporarily    => 302
  | .notModified         => 304
  | .badRequest          => 400
  | .unauthorized        => 401
  | .forbidden           => 403
  | .notFound            => 404
  | .internalServerError => 500
  | .notImplemented      => 501
  | .badGateway          => 502
  | .serviceUnavailable  => 503

/-- What a client is to see of a reply. -/
def Reply.response (rep : Reply) : Response where
  code   := rep.status.value
  fields := rep.headers.map fun h => (h.name, h.value)
  body   := rep.content

/-- A client reads the buffers of the reply as its status, headers and content, to the end. -/
def Framed (rep : Reply) : Prop :=
  Response.read rep.toBuffers.flatten = some (rep.response, [])

/-- Different replies are different responses. -/
theorem response_injective : Function.Injective Reply.response := by
  rintro ⟨status, headers, content⟩ ⟨status', headers', content'⟩ h
  simp only [Reply.response, Response.mk.injEq] at h
  obtain ⟨hcode, hfields, rfl⟩ := h
  have hheaders : headers = headers' := by
    refine List.map_injective_iff.mpr (fun a b hab => ?_) hfields
    obtain ⟨name, value⟩ := a
    obtain ⟨name', value'⟩ := b
    cases hab
    rfl
  have hstatus : status = status' := by
    cases status <;> cases status' <;> first | rfl | cases hcode
  rw [hheaders, hstatus]

/-! ### The buffers -/

/-- The status lines are lines with the code of their status. -/
theorem statusLine_spec (status : StatusType) :
    ∃ line, status.statusLine = line ++ Response.lineEnd ∧ (13 : Byte) ∉ line ∧
      Response.statusCode line = some status.value := by
  refine ⟨status.statusLine.take (status.statusLine.length - 2), ?_, ?_, ?_⟩ <;>
    cases status <;> decide

/-- The buffers hold the status line, the header lines, an empty line and the content. -/
theorem flatten_toBuffers {rep : Reply} {line : Bytes}
    (hline : rep.status.statusLine = line ++ Response.lineEnd) :
    rep.toBuffers.flatten = rep.response.render line := by
  have hend : ofString "\r\n" = Response.lineEnd := by decide
  have hheaders : ∀ hs : List Header,
      (hs.flatMap fun h => [h.name, ofString ": ", h.value, Response.lineEnd]).flatten =
        (hs.map fun h => (h.name, h.value)).flatMap Response.renderField := by
    intro hs
    induction hs with
    | nil => rfl
    | cons h hs ih =>
      rw [List.flatMap_cons, List.flatten_append, ih, List.map_cons, List.flatMap_cons]
      simp [Response.renderField]
  simp [Reply.toBuffers, Response.render, Reply.response, hheaders, hline, hend]

/-- **The buffers of a reply** with the two headers are read back. -/
theorem framed_of_contentHeaders (status : StatusType) {content contentType : Bytes}
    (hcr : (13 : Byte) ∉ contentType)
    (hstart : ∀ c ∈ contentType.head?, c ≠ ' '.toUInt8 ∧ c ≠ 9) :
    Framed ⟨status, contentHeaders content contentType, content⟩ := by
  obtain ⟨line, hline, hcrLine, hcode⟩ := statusLine_spec status
  have lengthName : ':'.toUInt8 ∉ ofString "Content-Length" ∧
      (13 : Byte) ∉ ofString "Content-Length" := by decide
  have typeName : ':'.toUInt8 ∉ ofString "Content-Type" ∧
      (13 : Byte) ∉ ofString "Content-Type" := by decide
  have hdigits : (decimal content.length).all Response.isDecimal = true :=
    (Response.toDigits_spec content.length).1
  have hlength : Response.FieldText (ofString "Content-Length", decimal content.length) := by
    refine ⟨lengthName.1, lengthName.2, fun h => ?_, fun c hc => ?_⟩
    · exact absurd (List.all_eq_true.mp hdigits _ h) (by decide)
    · have hd : Response.isDecimal c = true :=
        List.all_eq_true.mp hdigits c (List.mem_of_mem_head? hc)
      constructor
      · rintro rfl
        exact absurd hd (by decide)
      · rintro rfl
        exact absurd hd (by decide)
  have htype : Response.FieldText (ofString "Content-Type", contentType) :=
    ⟨typeName.1, typeName.2, hcr, hstart⟩
  have hread := Response.read_render (r := Reply.response ⟨status, contentHeaders content contentType,
    content⟩) hcrLine hcode (by simp [Reply.response, contentHeaders, hlength, htype])
    (Response.natural_toDigits content.length) []
  rw [Framed, flatten_toBuffers hline]
  rwa [List.append_nil] at hread

/-- What holds of all values of a table and of the default holds of what is looked up. -/
theorem getD_lookup {P : Bytes → Prop} {d : Bytes} (hd : P d) {mappings : List (Bytes × Bytes)}
    (h : ∀ m ∈ mappings, P m.2) (key : Bytes) : P ((mappings.lookup key).getD d) := by
  induction mappings with
  | nil => exact hd
  | cons m mappings ih =>
    obtain ⟨hm, h⟩ := List.forall_mem_cons.mp h
    rw [List.lookup_cons]
    cases key == m.1
    · exact ih h
    · exact hm

/-- The types the handler sends. -/
theorem extensionToType_spec (ext : Bytes) : (13 : Byte) ∉ extensionToType ext ∧
    ∀ c ∈ (extensionToType ext).head?, c ≠ ' '.toUInt8 ∧ c ≠ 9 := by
  refine getD_lookup (P := fun t => (13 : Byte) ∉ t ∧ ∀ c ∈ t.head?, c ≠ ' '.toUInt8 ∧ c ≠ 9)
    ?_ ?_ ext <;> decide +kernel

theorem framed_stockReply (status : StatusType) : Framed (stockReply status) :=
  framed_of_contentHeaders status (by decide) (by decide +kernel)

theorem framed_handleRequest (files : Bytes → Option Bytes) (docRoot : Bytes) (req : Request)
    (rep : Reply) : Framed (handleRequest files docRoot req rep) := by
  unfold handleRequest
  split
  · exact framed_stockReply .badRequest
  · split
    · exact framed_stockReply .notFound
    · exact framed_of_contentHeaders .ok (extensionToType_spec _).1 (extensionToType_spec _).2

/-- A positive reply that was filled from an empty one holds the whole file. -/
theorem content_handleRequest {files : Bytes → Option Bytes} {docRoot : Bytes} {req : Request}
    {rep : Reply} (hempty : rep.content = [])
    (hok : (handleRequest files docRoot req rep).status = .ok) :
    ∃ path, requestedFile docRoot req.uri = some path ∧
      files path = some (handleRequest files docRoot req rep).content := by
  unfold handleRequest at hok ⊢
  rw [requestedFile]
  cases hpath : requestPath req.uri with
  | none =>
    rw [hpath] at hok
    cases hok
  | some path =>
    simp only [hpath] at hok ⊢
    refine ⟨cstr (docRoot ++ path), rfl, ?_⟩
    cases hfile : files (cstr (docRoot ++ path)) with
    | none =>
      rw [hfile] at hok
      cases hok
    | some file =>
      show some file = some (readContent rep.content file)
      rw [readContent_eq, hempty, List.nil_append]

/-! ### What a connection sends -/

variable {docRoot : Bytes} {c c' : Connection} {s : Server} {id : Nat}

/-- Where the reply of a connection comes from, when the completions `cs` have been delivered. -/
inductive Connection.Answered (docRoot : Bytes) (cs : List Completion) (id : Nat) (c : Connection) :
    Prop
  | none (replies : c.replies = 0) (empty : c.reply.content = [])
  | bad (replies : c.replies ≠ 0) (reply : c.reply = stockReply .badRequest)
  | handled {data : Bytes} {files : Bytes → Option Bytes} {rep : Reply} (replies : c.replies ≠ 0)
      (read : .read id .success data files ∈ cs) (empty : rep.content = [])
      (reply : c.reply = handleRequest files docRoot c.request rep)

/-- What has been answered stays answered. -/
theorem Connection.Answered.kept {cs : List Completion} (h : c.Answered docRoot cs id)
    (hsame : c.SameAnswer c') (e : Completion) : c'.Answered docRoot (cs ++ [e]) id := by
  cases h with
  | none replies empty => exact .none (hsame.replies.trans replies) (by rw [hsame.reply, empty])
  | bad replies reply => exact .bad (by rwa [hsame.replies]) (hsame.reply.trans reply)
  | handled replies read empty reply =>
    refine .handled (by rwa [hsame.replies]) (List.mem_append_left [e] read) empty ?_
    rw [hsame.reply, reply, hsame.request]

/-- The handler of the bytes starts a reply from an empty one. -/
theorem Connection.answered_receive {cs : List Completion} (hreplies : c.replies = 0)
    (hempty : c.reply.content = []) {data : Bytes} {files : Bytes → Option Bytes}
    (hread : .read id .success data files ∈ cs) :
    (c.receive docRoot files data).Answered docRoot cs id := by
  unfold Connection.receive
  rcases parse (c.parser, c.request) data with ⟨verdict, ⟨state, req⟩, left⟩
  cases verdict with
  | good => exact .handled (Nat.succ_ne_zero _) hread hempty rfl
  | bad => exact .bad (Nat.succ_ne_zero _) rfl
  | indeterminate => exact .none hreplies hempty

/-- The step lemma of `Answered`. -/
theorem step_answered {cs : List Completion} {e : Completion} (hs : s.Inv)
    (h : ∀ (id : Nat) (c : Connection), s.connections[id]? = some c → c.Answered docRoot cs id)
    (hc' : (step docRoot s e).connections[id]? = some c') :
    c'.Answered docRoot (cs ++ [e]) id := by
  cases step_connection hc' with
  | made _ fresh =>
    rw [fresh]
    exact .none rfl rfl
  | @kept c before same => exact (h id c before).kept same e
  | @received c data files before read awaited after =>
    -- a connection that awaits a read has not replied
    have hreplies : c.replies = 0 := (hs.connections id c before).1.replies_eq_zero awaited
    have hempty : c.reply.content = [] := by
      cases h id c before with
      | none _ empty => exact empty
      | bad replies _ => exact absurd hreplies replies
      | handled replies _ _ _ => exact absurd hreplies replies
    have hread : .read id .success data files ∈ cs ++ [e] := by
      rw [read]
      exact List.mem_append_right cs List.mem_cons_self
    rw [after]
    exact Connection.answered_receive (c := c.complete Op.isRead) hreplies hempty hread

/-- **The run lemma of `Answered`.** -/
theorem served_answered (docRoot : Bytes) (cs : List Completion) (id : Nat) (c : Connection)
    (hc : (served docRoot cs).connections[id]? = some c) : c.Answered docRoot cs id := by
  induction cs using List.reverseRecOn generalizing id c with
  | nil => cases hc
  | append_singleton cs e ih =>
    have hrun : served docRoot (cs ++ [e]) = step docRoot (served docRoot cs) e := by
      rw [served, List.foldl_append]
      rfl
    rw [hrun] at hc
    exact step_answered (served_inv docRoot cs) ih hc

/-- **Reply framing.**  The buffers of every reply of the handler, and of the stock reply to a bad
    request, are read back as its status, headers and content, with nothing left over; a positive
    reply filled from an empty one holds the whole file.  In every run, the buffers that a
    connection writes are those of its reply, and that is one of these, for its request and the
    file system at the time it was read. -/
theorem reply_framing (docRoot : Bytes) :
    (∀ files req rep, Framed (handleRequest files docRoot req rep) ∧
      (rep.content = [] → (handleRequest files docRoot req rep).status = .ok →
        ∃ path, requestedFile docRoot req.uri = some path ∧
          files path = some (handleRequest files docRoot req rep).content)) ∧
    Framed (stockReply .badRequest) ∧
    (∀ cs id c, (served docRoot cs).connections[id]? = some c →
      ∀ buffers, .write buffers ∈ c.pending → buffers = c.reply.toBuffers ∧
        (c.reply = stockReply .badRequest ∨
          ∃ data files rep, .read id .success data files ∈ cs ∧ rep.content = [] ∧
            c.reply = handleRequest files docRoot c.request rep)) := by
  refine ⟨fun files req rep => ⟨?_, ?_⟩, framed_stockReply .badRequest, ?_⟩
  · exact framed_handleRequest files docRoot req rep
  · exact fun hempty hok => content_handleRequest hempty hok
  · intro cs id c hc buffers hw
    have hinv : c.Inv := ((served_inv docRoot cs).connections id c hc).1
    refine ⟨(hinv.not_reading hw).1, ?_⟩
    cases served_answered docRoot cs id c hc with
    | none replies _ =>
      -- a connection that writes has replied
      exfalso
      cases hinv.phase with
      | reading hp _ =>
        rw [hp, List.mem_singleton] at hw
        cases hw
      | writing _ hr => omega
      | finished hp _ =>
        rw [hp] at hw
        cases hw
    | bad _ reply => exact .inl reply
    | @handled data files rep _ read empty reply => exact .inr ⟨data, files, rep, read, empty, reply⟩

end OsgiManager.Http
