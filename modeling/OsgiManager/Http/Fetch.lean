import OsgiManager.Http.Answers
import OsgiManager.Http.Framing
import OsgiManager.Http.ServedType
import OsgiManager.Http.UrlEncoding

namespace OsgiManager.Http

open OsgiManager.Lib

/-!
# Fetching a file

The server from a client's side: it sends a request for a path and reads a response.  In between
are the encoding of the path, the grammar of requests, the reads of the connection among all
others, the handler, and the buffers of the reply.

* `fetched` — the response that a path calls for;
* `getText` — a request for a path, whatever bytes it has;
* `fetch_path` — every request for a path is answered with that response.
-/

/-! ### Encoded paths -/

/-- An encoding is the encoding of one string. -/
theorem Encodes.unique {s s' enc : Bytes} (h : Encodes s enc) (h' : Encodes s' enc) : s = s' := by
  induction h generalizing s' with
  | nil =>
    cases h'
    rfl
  | plain percent plus rest ih =>
    cases h' with
    | plain _ _ rest' => rw [ih rest']
    | plus _ => exact absurd rfl plus
    | escape _ _ _ _ => exact absurd rfl percent
  | plus rest ih =>
    cases h' with
    | plain _ plus _ => exact absurd rfl plus
    | plus rest' => rw [ih rest']
  | escape first second value rest ih =>
    cases h' with
    | plain percent _ _ => exact absurd rfl percent
    | escape first' second' value' rest' =>
      rw [first, Option.some.injEq] at first'
      rw [second, Option.some.injEq] at second'
      rw [ih rest', List.cons.injEq, and_iff_left rfl, ← UInt8.toNat_inj, value, value', first',
        second']

/-- The handler decodes an encoded path. -/
theorem Encodes.urlDecode_eq {s enc : Bytes} (h : Encodes s enc) : urlDecode enc = some s := by
  obtain ⟨pairs, hpairs, hdigits⟩ := h.escapes_twoDigits
  obtain ⟨out, hout⟩ := Option.isSome_iff_exists.mp
    ((urlDecode_isSome_iff enc).mpr ⟨pairs, hpairs, fun p hp => .inl (hdigits p hp)⟩)
  rw [hout, h.unique (encodes_of_twoDigits hpairs hdigits hout)]

/-! ### The response -/

/-- What a client is to get for a path: the file of that path below the document root, or of its
    index file, with its length and type; or one of two pages that say why not. -/
def fetched (docRoot : Bytes) (files : Bytes → Option Bytes) (path : Bytes) : Response :=
  if path.head? ≠ some '/'.toUInt8 ∨ ofString ".." <:+: path then
    (stockReply .badRequest).response
  else match files (docRoot ++ completed path) with
    | some file =>
        { code   := 200
          fields := [ (ofString "Content-Length", decimal file.length),
            (ofString "Content-Type", extensionToType (extensionOf (completed path))) ]
          body   := file }
    | none => (stockReply .notFound).response

/-- The reply of the handler is what the path calls for. -/
theorem response_answer {docRoot path : Bytes} (hroot : NulFree docRoot) (hfree : NulFree path)
    {req : Request} (huri : urlDecode req.uri = some path) (files : Bytes → Option Bytes) :
    (answer docRoot files req).response = fetched docRoot files path := by
  unfold answer handleRequest fetched
  by_cases hbad : path.head? ≠ some '/'.toUInt8 ∨ ofString ".." <:+: path
  · have hpath : requestPath req.uri = none := by
      rw [Option.eq_none_iff_forall_ne_some]
      rintro full hfull
      obtain ⟨decoded, hdec, hhead, hdots, -⟩ := requestPath_eq_some_iff.mp hfull
      obtain rfl := Option.some.inj (huri.symm.trans hdec)
      exact hbad.elim (fun h => h hhead) hdots
    rw [if_pos hbad, hpath]
  · rw [not_or, not_not] at hbad
    have hpath : requestPath req.uri = some (completed path) :=
      requestPath_eq_some_iff.mpr ⟨path, huri, hbad.1, hbad.2, rfl⟩
    have hcut : cstr (docRoot ++ completed path) = docRoot ++ completed path :=
      cstr_of_nulFree (nulFree_append.mpr ⟨hroot, nulFree_completed hfree⟩)
    have hslash : '/'.toUInt8 ∈ completed path :=
      List.mem_of_mem_head? (requestPath_spec hpath).1
    rw [if_neg (by rw [not_or, not_not]; exact hbad), hpath]
    simp only [hcut, extension_eq hslash]
    cases files (docRoot ++ completed path) with
    | none => rfl
    | some file =>
      show (Reply.mk .ok (contentHeaders (readContent [] file) _) (readContent [] file)).response = _
      rw [readContent_eq, List.nil_append]
      rfl

/-! ### A request for every path -/

/-- The digit of a value below 16. -/
def hexChar (n : Nat) : Byte := if n < 10 then UInt8.ofNat (48 + n) else UInt8.ofNat (55 + n)

/-- The encoding in which every byte is escaped. -/
def percentEncode (s : Bytes) : Bytes :=
  s.flatMap fun b => ['%'.toUInt8, hexChar (b.toNat / 16), hexChar (b.toNat % 16)]

theorem hexDigit_hexChar : ∀ n : Fin 16, hexDigit (hexChar n) = some n.1 := by decide

theorem uriChar_hexChar : ∀ n : Fin 16, uriChar (hexChar n) = true := by decide

theorem encodes_percentEncode (s : Bytes) : Encodes s (percentEncode s) := by
  induction s with
  | nil => exact .nil
  | cons b s ih =>
    have hb : b.toNat < 256 := b.toNat_lt
    refine .escape (hexDigit_hexChar ⟨b.toNat / 16, by omega⟩)
      (hexDigit_hexChar ⟨b.toNat % 16, by omega⟩) ?_ ih
    show b.toNat = 16 * (b.toNat / 16) + b.toNat % 16
    omega

theorem uriChar_percentEncode (s : Bytes) : ∀ b ∈ percentEncode s, uriChar b = true := by
  intro b hb
  obtain ⟨c, -, hb⟩ := List.mem_flatMap.mp hb
  have hc : c.toNat < 256 := c.toNat_lt
  simp only [List.mem_cons, List.not_mem_nil, or_false] at hb
  rcases hb with rfl | rfl | rfl
  · decide
  · exact uriChar_hexChar ⟨c.toNat / 16, by omega⟩
  · exact uriChar_hexChar ⟨c.toNat % 16, by omega⟩

theorem tokenChar_get : ofString "GET" ≠ [] ∧ ∀ b ∈ ofString "GET", tokenChar b = true := by
  decide +kernel

theorem digitChar_one : ofString "1" ≠ [] ∧ ∀ b ∈ ofString "1", digitChar b = true := by
  decide +kernel

theorem digitChar_zero : ofString "0" ≠ [] ∧ ∀ b ∈ ofString "0", digitChar b = true := by
  decide +kernel

/-- The request for a path. -/
def getText (path : Bytes) : RequestText where
  method  := ⟨ofString "GET", tokenChar_get⟩
  uri     := ⟨percentEncode path, uriChar_percentEncode path⟩
  major   := ⟨ofString "1", digitChar_one⟩
  minor   := ⟨ofString "0", digitChar_zero⟩
  headers := []

/-! ### Fetching -/

/-- **Fetching.**  Every path without zero bytes can be asked for.  In every run, a connection whose
    stream starts with a request for it, in any encoding and with any method, version and headers,
    replies with the response that the path calls for in the files at that time: a client reads
    exactly this response from the buffers, to their end. -/
theorem fetch_path {docRoot : Bytes} (hroot : NulFree docRoot) {path : Bytes}
    (hfree : NulFree path) :
    Encodes path (getText path).uri.1 ∧
    ∀ r : RequestText, Encodes path r.uri.1 → ∀ cs id c,
      (served docRoot cs).connections[id]? = some c → r.render <+: stream (reads docRoot cs id) →
      ∃ data files, (reads docRoot cs id).getLast? = some (data, files) ∧
        Response.read c.reply.toBuffers.flatten = some (fetched docRoot files path, []) := by
  refine ⟨encodes_percentEncode path, ?_⟩
  intro r henc cs id c hc hstream
  obtain ⟨-, data, files, hlast, hreply⟩ :=
    (served_follows docRoot cs id c hc).reply_of_request hstream
  refine ⟨data, files, hlast, ?_⟩
  have huri : urlDecode r.request.uri = some path := henc.urlDecode_eq
  rw [hreply, ← response_answer hroot hfree huri files]
  exact framed_handleRequest files docRoot r.request _

/-- The request for a file whose name has a space, in two pieces. -/
def twoPieces : List Completion :=
  let w := (getText (ofString "/a b.gif")).render
  [ .accept .success 0 0 .ok, .read 0 .success (w.take 9) fun _ => none,
    .read 0 .success (w.drop 9) fun path => if path = ofString "//a b.gif" then some [7] else none ]

theorem fetch_path_twoPieces :
    ∃ c, (served (ofString "/") twoPieces).connections[0]? = some c ∧
      ∃ data files, (reads (ofString "/") twoPieces 0).getLast? = some (data, files) ∧
        Response.read c.reply.toBuffers.flatten =
          some (fetched (ofString "/") files (ofString "/a b.gif"), []) := by
  obtain ⟨c, hc⟩ : ∃ c, (served (ofString "/") twoPieces).connections[0]? = some c :=
    Option.isSome_iff_exists.mp (by decide +kernel)
  have hfetch := @fetch_path (ofString "/") (by decide) (ofString "/a b.gif") (by decide)
  exact ⟨c, hc, hfetch.2 (getText (ofString "/a b.gif")) hfetch.1 twoPieces 0 c hc
    (by decide +kernel)⟩

end OsgiManager.Http
