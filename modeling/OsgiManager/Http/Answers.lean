import OsgiManager.Http.Isolation
import OsgiManager.Http.RequestParsing

namespace OsgiManager.Http

open OsgiManager.Lib

/-!
# What a connection answers

A connection is told of its bytes in pieces, between the completions of all the others.  What it
answers depends on none of this: the reply is a function of the stream received so far, of the
grammar of requests, and of the files at the time the stream was decided.

* `reads` — the pieces a connection has taken in a run, with the files there were then;
* `stream` — the bytes of some pieces;
* `parse_stream` — the parser's answer to a stream, by the grammar alone;
* `Connection.Follows` — how a connection stands to the pieces it has taken;
* `connection_answers` — the reply of a connection, in every run.
-/

/-- A piece of the stream, with the files there are when its handler runs. -/
abbrev Piece := Bytes × (Bytes → Option Bytes)

/-- The bytes of some pieces, in order. -/
def stream (pieces : List Piece) : Bytes := pieces.flatMap Prod.fst

theorem stream_concat (pieces : List Piece) (piece : Piece) :
    stream (pieces ++ [piece]) = stream pieces ++ piece.1 := by
  rw [stream, List.flatMap_append, List.flatMap_singleton]
  rfl

/-- The piece that a connection takes from its part of a completion. -/
def Connection.taken (c : Connection) : Connection.Event → Option Piece
  | .read ec data files =>
      if ec = .success ∧ c.pending.any Op.isRead = true then some (data, files) else none
  | .write _ => none
  | .stop    => none

/-- The piece that connection `id` takes in one step of the server. -/
def pieceOf (id : Nat) (p : Server × Completion) : Option Piece :=
  p.1.connections[id]?.bind fun c => (p.2.event id).bind c.taken

/-- The pieces that connection `id` takes in a run. -/
def reads (docRoot : Bytes) (cs : List Completion) (id : Nat) : List Piece :=
  (history (step docRoot) Server.make cs).filterMap (pieceOf id)

theorem reads_concat (docRoot : Bytes) (cs : List Completion) (e : Completion) (id : Nat) :
    reads docRoot (cs ++ [e]) id =
      reads docRoot cs id ++ (pieceOf id (served docRoot cs, e)).toList := by
  rw [reads, history_concat, List.filterMap_append]
  show _ ++ [(served docRoot cs, e)].filterMap (pieceOf id) = _
  cases hpiece : pieceOf id (served docRoot cs, e) <;> simp [hpiece, reads]

/-- Before it is made, a connection takes nothing. -/
theorem reads_eq_nil {docRoot : Bytes} {cs : List Completion} {id : Nat}
    (h : (served docRoot cs).connections[id]? = none) : reads docRoot cs id = [] := by
  induction cs using List.reverseRecOn with
  | nil => rfl
  | append_singleton cs e ih =>
    have hbefore : (served docRoot cs).connections[id]? = none := by
      rw [served, List.foldl_append] at h
      rw [List.getElem?_eq_none_iff] at h ⊢
      exact (length_le_step docRoot (served docRoot cs) e).trans h
    rw [reads_concat, ih hbefore, pieceOf, hbefore]
    rfl

/-! ### The parser's answer to a stream -/

/-- Does no request stand at the start of the stream? -/
def NoRequest (w : Bytes) : Prop := ∀ r : RequestText, ¬ r.render <+: w

/-- **The answer to a stream.**  It is good exactly if the stream starts with a request, and then
    that request is held; otherwise it is bad if the stream cannot be continued to a request, and
    there is no answer if it can. -/
theorem parse_stream {major minor : Int} {w left : Bytes} {verdict : Verdict} {state : State}
    {req : Request} (h : parse (.methodStart, .empty major minor) w = (verdict, (state, req), left)) :
    (verdict = .good → ¬ NoRequest w ∧ ∀ r : RequestText, r.render <+: w → req = r.parsed) ∧
    (verdict = .bad → NoRequest w ∧ ¬ Open w) ∧
    (verdict = .indeterminate → NoRequest w ∧ Open w) := by
  have hL : ∀ {w req}, stateLang .methodStart (.empty major minor) w req ↔
      ∃ r : RequestText, r.render = w ∧ req = r.parsed := methodStart_iff
  have haccepts : ∀ r : RequestText,
      PushParser.Accepts (stateLang .methodStart (.empty major minor)) r.render :=
    fun r => ⟨r.parsed, hL.mpr ⟨r, rfl, rfl⟩⟩
  have hopen : ∀ {w}, Open w → PushParser.Viable (stateLang .methodStart (.empty major minor)) w := by
    rintro w ⟨y, r, hr⟩
    exact ⟨y, r.parsed, hL.mpr ⟨r, hr, rfl⟩⟩
  have hanswers : PushParser.Answers (stateLang .methodStart (.empty major minor)) Prod.snd w
      (verdict, (state, req), left) := by
    rw [← h]
    exact PushParser.parse_spec recognizes (.methodStart, .empty major minor) w
  cases hanswers with
  | good cut accepts rejects =>
    refine ⟨fun _ => ⟨fun hno => ?_, fun r hr => ?_⟩, nofun, nofun⟩
    · -- what has been accepted is a request at the start
      obtain ⟨r, hr, -⟩ := hL.mp (by simpa using (accepts [] _).mpr ⟨rfl, rfl⟩)
      exact hno r ⟨left, by rw [hr, cut]⟩
    · have hanswers : PushParser.Answers (stateLang .methodStart (.empty major minor)) Prod.snd w
          (.good, (state, req), left) := .good cut accepts rejects
      exact (hanswers.of_accepts hr (hL.mpr ⟨r, rfl, rfl⟩)).2.2.symm
  | @bad u _ b _ cut viable dead rejects =>
    have hub : u ++ [b] <+: w := ⟨left, by rw [cut, List.append_assoc]; rfl⟩
    refine ⟨nofun, fun _ => ⟨fun r hr => ?_, fun hw => dead ((hopen hw).front hub)⟩, nofun⟩
    -- a request at the start would end before the wrong byte, or go on after it
    rcases List.prefix_or_prefix_of_prefix hr hub with hle | hle
    · rcases List.prefix_concat_iff.mp hle with heq | hle
      · exact dead (heq ▸ (haccepts r).viable)
      · exact rejects _ hle (haccepts r)
    · exact dead ((haccepts r).viable.front hle)
  | indeterminate viable rejects =>
    refine ⟨nofun, nofun, fun _ => ⟨fun r hr => rejects _ hr (haccepts r), ?_⟩⟩
    obtain ⟨y, req', hy⟩ := viable
    obtain ⟨r, hr, -⟩ := hL.mp hy
    exact ⟨y, r, hr⟩

/-! ### Following a stream -/

variable {docRoot : Bytes} {c : Connection} {pieces : List Piece}

/-- How a connection stands to the pieces it has taken. -/
inductive Connection.Follows (docRoot : Bytes) (pieces : List Piece) (c : Connection) : Prop
  /-- The parser wants more, and nothing has been answered. -/
  | wanting {major minor : Int} {left : Bytes}
      (parsed : parse (.methodStart, .empty major minor) (stream pieces) =
        (.indeterminate, (c.parser, c.request), left))
      (replies : c.replies = 0) (empty : c.reply.content = [])
  /-- The parser has decided at the last piece, and the reply says so. -/
  | answered {major minor : Int} {verdict : Verdict} {left : Bytes} {front : List Piece}
      {data : Bytes} {files : Bytes → Option Bytes} {p : State × Request} {rep : Reply}
      (last : pieces = front ++ [(data, files)])
      (wanted : parse (.methodStart, .empty major minor) (stream front) = (.indeterminate, p, []))
      (parsed : parse (.methodStart, .empty major minor) (stream pieces) =
        (verdict, (c.parser, c.request), left))
      (decided : verdict ≠ .indeterminate) (replies : c.replies ≠ 0) (empty : rep.content = [])
      (reply : c.reply = if verdict = .good then handleRequest files docRoot c.request rep
        else stockReply .badRequest)

/-- Without an answer nothing is left over. -/
theorem parse_left {p q : State × Request} {w left : Bytes}
    (h : parse p w = (.indeterminate, q, left)) : left = [] := by
  have hanswers : PushParser.Answers (stateLang p.1 p.2) Prod.snd w (.indeterminate, q, left) := by
    rw [← h]
    exact PushParser.parse_spec recognizes p w
  cases hanswers
  rfl

/-- The operations of a connection, and its end, change nothing in that. -/
theorem Connection.Follows.complete (h : c.Follows docRoot pieces) (isOp : Op → Bool) :
    (c.complete isOp).Follows docRoot pieces := by
  cases h with
  | wanting parsed replies empty => exact .wanting parsed replies empty
  | answered last wanted parsed decided replies empty reply =>
    exact .answered last wanted parsed decided replies empty reply

theorem Connection.Follows.stop (h : c.Follows docRoot pieces) : c.stop.Follows docRoot pieces := by
  cases h with
  | wanting parsed replies empty => exact .wanting parsed replies empty
  | answered last wanted parsed decided replies empty reply =>
    exact .answered last wanted parsed decided replies empty reply

/-- A new piece is the parser's next input. -/
theorem Connection.Follows.receive (h : c.Follows docRoot pieces) (hreplies : c.replies = 0)
    (files : Bytes → Option Bytes) (data : Bytes) :
    (c.receive docRoot files data).Follows docRoot (pieces ++ [(data, files)]) := by
  cases h with
  | answered _ _ _ _ replies _ _ => exact absurd hreplies replies
  | @wanting major minor left parsed _ empty =>
    obtain rfl := parse_left parsed
    have hnext : parse (.methodStart, .empty major minor) (stream (pieces ++ [(data, files)])) =
        parse (c.parser, c.request) data := by
      rw [stream_concat, parse, PushParser.parse_append]
      rw [parse] at parsed
      rw [parsed]
      rfl
    unfold Connection.receive
    rcases hp : parse (c.parser, c.request) data with ⟨verdict, ⟨state, req⟩, left⟩
    rw [hp] at hnext
    cases verdict with
    | good => exact .answered rfl parsed hnext (by decide) (Nat.succ_ne_zero _) empty rfl
    | bad => exact .answered rfl parsed hnext (by decide) (Nat.succ_ne_zero _) empty rfl
    | indeterminate => exact .wanting hnext hreplies empty

/-- **Step lemma.**  A connection goes on following its stream, by the piece it takes. -/
theorem Connection.Follows.step (hc : c.Inv) (h : c.Follows docRoot pieces)
    (ev : Connection.Event) :
    (c.step docRoot ev).Follows docRoot (pieces ++ (c.taken ev).toList) := by
  cases ev with
  | read ec data files =>
    rw [Connection.step, Connection.taken]
    by_cases hop : c.pending.any Op.isRead = true
    · by_cases hec : ec = .success
      · rw [if_pos hop, if_pos hec, if_pos ⟨hec, hop⟩]
        exact (h.complete Op.isRead).receive (hc.replies_eq_zero hop) files data
      · rw [if_pos hop, if_neg hec, if_neg fun h => hec h.1, Option.toList_none, List.append_nil]
        split_ifs
        · exact (h.complete Op.isRead).stop
        · exact h.complete Op.isRead
    · rw [if_neg hop, if_neg fun h => hop h.2, Option.toList_none, List.append_nil]
      exact h
  | write ec =>
    rw [Connection.step, Connection.taken, Option.toList_none, List.append_nil]
    split_ifs
    · exact (h.complete Op.isWrite).stop
    · exact h.complete Op.isWrite
    · exact h
  | stop =>
    rw [Connection.step, Connection.taken, Option.toList_none, List.append_nil]
    exact h.stop

/-- **Run lemma.**  In every run, each connection follows the stream of the pieces it has taken. -/
theorem served_follows (docRoot : Bytes) (cs : List Completion) (id : Nat) (c : Connection)
    (hc : (served docRoot cs).connections[id]? = some c) : c.Follows docRoot (reads docRoot cs id) := by
  induction cs using List.reverseRecOn generalizing c with
  | nil => cases hc
  | append_singleton cs e ih =>
    have hrun : served docRoot (cs ++ [e]) = Http.step docRoot (served docRoot cs) e := by
      rw [served, List.foldl_append]
      rfl
    rw [hrun] at hc
    rw [reads_concat]
    cases hbefore : (served docRoot cs).connections[id]? with
    | none =>
      obtain ⟨major, minor, status, -, -, rfl⟩ := step_made hbefore hc
      rw [reads_eq_nil hbefore, pieceOf, hbefore]
      exact @Connection.Follows.wanting docRoot [] _ major minor [] rfl rfl rfl
    | some d =>
      have hd := ih d hbefore
      have hs : (served docRoot cs).Inv := served_inv docRoot cs
      rw [step_event hs hbefore, Option.some.injEq] at hc
      rw [pieceOf, hbefore, Option.bind_some, ← hc]
      cases e.event id with
      | none => simpa using hd
      | some ev => exact hd.step (hs.connections id d hbefore).1 ev

/-! ### The answer -/

/-- The reply depends on the request through its uri, and on what was in the reply through its
    content. -/
theorem handleRequest_eq {files : Bytes → Option Bytes} {docRoot : Bytes} {req req' : Request}
    {rep rep' : Reply} (huri : req.uri = req'.uri) (hcontent : rep.content = rep'.content) :
    handleRequest files docRoot req rep = handleRequest files docRoot req' rep' := by
  unfold handleRequest
  rw [huri, hcontent]

/-- The reply of the handler to a request, filled from an empty one. -/
def answer (docRoot : Bytes) (files : Bytes → Option Bytes) (req : Request) : Reply :=
  handleRequest files docRoot req ⟨.ok, [], []⟩

/-- A stream that starts with a request has been decided, and the reply is the answer to it. -/
theorem Connection.Follows.reply_of_request (h : c.Follows docRoot pieces) {r : RequestText}
    (hr : r.render <+: stream pieces) :
    c.replies ≠ 0 ∧ ∃ data files, pieces.getLast? = some (data, files) ∧
      c.reply = answer docRoot files r.request := by
  cases h with
  | wanting parsed _ _ => exact absurd hr (((parse_stream parsed).2.2 rfl).1 r)
  | @answered _ _ verdict _ front data files _ rep last _ parsed decided replies empty reply =>
    refine ⟨replies, data, files, by rw [last, List.getLast?_concat], ?_⟩
    cases verdict with
    | good =>
      -- the request held has the uri of the text, whatever its versions are
      have hreq : c.request = r.parsed := ((parse_stream parsed).1 rfl).2 r hr
      rw [reply, if_pos rfl, answer, hreq]
      exact handleRequest_eq rfl empty
    | bad => exact absurd hr (((parse_stream parsed).2.1 rfl).1 r)
    | indeterminate => exact absurd rfl decided

/-- **What a connection answers.**  In every run, whatever the other connections are told in
    between and however its stream is cut: a connection has answered nothing exactly while its
    stream does not start with a request and can be continued to one.  When it does start with a
    request, the reply is that of the handler to this request, with the files at the time of the
    last piece; when it can no longer be continued to one, it is the stock reply to a bad request.
    The last piece is the one that decided: up to every piece before, the stream was open. -/
theorem connection_answers (docRoot : Bytes) (cs : List Completion) (id : Nat) (c : Connection)
    (hc : (served docRoot cs).connections[id]? = some c) :
    (c.replies = 0 ↔
      NoRequest (stream (reads docRoot cs id)) ∧ Open (stream (reads docRoot cs id))) ∧
    (∀ r : RequestText, r.render <+: stream (reads docRoot cs id) →
      ∃ data files, (reads docRoot cs id).getLast? = some (data, files) ∧
        c.reply = answer docRoot files r.request) ∧
    (NoRequest (stream (reads docRoot cs id)) → ¬ Open (stream (reads docRoot cs id)) →
      c.reply = stockReply .badRequest) ∧
    (∀ front, front <+: reads docRoot cs id → front ≠ reads docRoot cs id →
      NoRequest (stream front) ∧ Open (stream front)) := by
  -- what is undecided was undecided before
  have hfront : ∀ {front pieces : List Piece}, front <+: pieces →
      NoRequest (stream pieces) ∧ Open (stream pieces) → NoRequest (stream front) ∧
        Open (stream front) := by
    rintro front pieces ⟨rest, rfl⟩ ⟨hno, hopen⟩
    have hprefix : stream front <+: stream (front ++ rest) := by
      rw [stream, stream, List.flatMap_append]
      exact List.prefix_append _ _
    refine ⟨fun r hr => hno r (hr.trans hprefix), ?_⟩
    obtain ⟨t, ht⟩ := hprefix
    obtain ⟨y, hy⟩ := hopen
    exact ⟨t ++ y, by rwa [← List.append_assoc, ht]⟩
  have hfollows := served_follows docRoot cs id c hc
  have hrequest := fun r hr => hfollows.reply_of_request (r := r) hr
  cases hfollows with
  | wanting parsed replies _ =>
    have hundecided := (parse_stream parsed).2.2 rfl
    exact ⟨iff_of_true replies hundecided, fun r hr => (hrequest r hr).2,
      fun _ hclosed => absurd hundecided.2 hclosed, fun front hle _ => hfront hle hundecided⟩
  | @answered _ _ verdict _ front data files _ _ last wanted parsed decided replies _ reply =>
    have hearlier : NoRequest (stream front) ∧ Open (stream front) := (parse_stream wanted).2.2 rfl
    refine ⟨iff_of_false replies ?_, fun r hr => (hrequest r hr).2, ?_, ?_⟩
    · rintro ⟨hno, hopen⟩
      cases verdict with
      | good => exact ((parse_stream parsed).1 rfl).1 hno
      | bad => exact ((parse_stream parsed).2.1 rfl).2 hopen
      | indeterminate => exact decided rfl
    · intro hno _
      cases verdict with
      | good => exact absurd hno ((parse_stream parsed).1 rfl).1
      | bad => rw [reply, if_neg (by decide)]
      | indeterminate => exact absurd rfl decided
    · intro front' hle hne
      rw [last] at hle hne
      rcases List.prefix_concat_iff.mp hle with heq | hle
      · exact absurd heq hne
      · exact hfront hle hearlier

/-- Two connections served at once: the second asks for a file in three pieces and leaves bytes
    behind its request, the first sends what is no request. -/
def twoClients : List Completion :=
  let files : Bytes → Option Bytes := fun path => if path = ofString "//a.png" then some [1] else none
  [ .accept .success 7 7 .ok, .accept .success 7 7 .created,
    .read 1 .success (ofString "GET /a%2E") fun _ => none, .read 0 .success (ofString "G\n") files,
    .read 1 .success (ofString "png HTTP/1.0\r\n") fun _ => none,
    .write 0 .success, .read 1 .success (ofString "\r\nmore") files ]

theorem connection_answers_twoClients :
    ∃ c, (served (ofString "/") twoClients).connections[1]? = some c ∧
      ∃ data files, (reads (ofString "/") twoClients 1).getLast? = some (data, files) ∧
        c.reply = answer (ofString "/") files ⟨ofString "GET", ofString "/a%2Epng", 1, 0, []⟩ := by
  obtain ⟨c, hc⟩ : ∃ c, (served (ofString "/") twoClients).connections[1]? = some c :=
    Option.isSome_iff_exists.mp (by decide +kernel)
  exact ⟨c, hc, (connection_answers (ofString "/") twoClients 1 c hc).2.1
    { method := ⟨ofString "GET", by decide +kernel⟩
      uri := ⟨ofString "/a%2Epng", by decide +kernel⟩
      major := ⟨ofString "1", by decide +kernel⟩
      minor := ⟨ofString "0", by decide +kernel⟩
      headers := [] } (by decide +kernel)⟩

end OsgiManager.Http
