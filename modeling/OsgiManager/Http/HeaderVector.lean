import OsgiManager.Http.RequestParser
import OsgiManager.Lib.Feeding

namespace OsgiManager.Http

open OsgiManager.Lib

/-!
# The last header

`consume` takes `headers.back()` in four places, which is defined only for a vector that is not
empty.  The parser may be fed on after any answer, so the states alone have to ensure this.

* `backOf` — the vector whose last element a byte uses;
* `consume_headers` — that vector is all that becomes of the headers;
* `Headed` — the invariant; `headers_back_nonempty` — no use of an empty vector.
-/

/-- The vector whose `back()` is taken for a byte, if it is taken at all. -/
def backOf : State × Request → Byte → Option (List Header)
  | (state, req), input =>
    let c := charToInt input
    match state with
    | .headerLineStart =>
        if input = cr then none
        else if !req.headers.isEmpty && (input = ' '.toUInt8 || input = tab) then none
        else if !isChar c || isCtl c || isTspecial c then none
        -- a header has just been pushed back
        else some (req.headers ++ [⟨[], []⟩])
    | .headerLws =>
        if input = cr then none
        else if input = ' '.toUInt8 || input = tab then none
        else if isCtl c then none
        else some req.headers
    | .headerName =>
        if input = ':'.toUInt8 then none
        else if !isChar c || isCtl c || isTspecial c then none
        else some req.headers
    | .headerValue =>
        if input = cr then none
        else if isCtl c then none
        else some req.headers
    | _ => none

/-- What a byte makes of the headers: nothing, or a change of the last one of that vector. -/
theorem consume_headers (p : State × Request) (b : Byte) :
    ∃ f : Header → Header, (PushParser.next consume p b).2.headers =
      (backOf p b).elim p.2.headers fun hs => hs.modifyLast f := by
  rcases p with ⟨state, req⟩
  cases state with
  | headerLineStart =>
    refine ⟨fun h => ⟨h.name ++ [b], h.value⟩, ?_⟩
    simp only [PushParser.next, consume, backOf]
    split_ifs
    · rfl
    · rfl
    · rfl
    · simp [Request.newHeader, List.modifyLast_concat]
  | headerLws =>
    refine ⟨fun h => ⟨h.name, h.value ++ [b]⟩, ?_⟩
    simp only [PushParser.next, consume, backOf]
    split_ifs <;> rfl
  | headerName =>
    refine ⟨fun h => ⟨h.name ++ [b], h.value⟩, ?_⟩
    simp only [PushParser.next, consume, backOf]
    split_ifs <;> rfl
  | headerValue =>
    refine ⟨fun h => ⟨h.name, h.value ++ [b]⟩, ?_⟩
    simp only [PushParser.next, consume, backOf]
    split_ifs <;> rfl
  | _ =>
    refine ⟨id, ?_⟩
    simp only [PushParser.next, consume, backOf]
    split_ifs <;> rfl

/-- A change of the last element leaves the length of a list. -/
theorem modifyLast_ne_nil {hs : List Header} (h : hs ≠ []) (f : Header → Header) :
    hs.modifyLast f ≠ [] := by
  rcases List.eq_nil_or_concat hs with rfl | ⟨front, last, rfl⟩
  · exact absurd rfl h
  · simp [List.modifyLast_concat]

/-- The states in which the last header is used before another one can be made. -/
def usesLast : State → Bool
  | .headerLws | .headerName | .spaceBeforeHeaderValue | .headerValue => true
  | _ => false

/-- **The invariant**: in these states there is a header. -/
def Headed (p : State × Request) : Prop := usesLast p.1 = true → p.2.headers ≠ []

/-- The vector is not empty under the invariant. -/
theorem Headed.back {p : State × Request} (h : Headed p) {b : Byte} {hs : List Header}
    (hback : backOf p b = some hs) : hs ≠ [] := by
  rcases p with ⟨state, req⟩
  cases state with
  | headerLineStart =>
    simp only [backOf] at hback
    split_ifs at hback
    cases hback
    exact List.append_ne_nil_of_right_ne_nil _ (List.cons_ne_nil _ _)
  | headerLws | headerName | headerValue =>
    simp only [backOf] at hback
    split_ifs at hback
    cases hback
    exact h rfl
  | _ => cases hback

/-- Where a state that uses the last header is entered from: from another one, or from the start
    of a line with a header there or just made. -/
theorem usesLast_next {p : State × Request} {b : Byte}
    (h : usesLast (PushParser.next consume p b).1 = true) :
    usesLast p.1 = true ∨ (backOf p b).isSome = true ∨ p.2.headers ≠ [] := by
  rcases p with ⟨state, req⟩
  cases state with
  | headerLineStart =>
    simp only [PushParser.next, consume, backOf] at h ⊢
    split_ifs at h ⊢ with hcr hlws hbad
    · cases h
    · right; right
      intro hnil
      rw [hnil] at hlws
      cases hlws
    · cases h
    · exact .inr (.inl rfl)
  | headerLws | headerName | spaceBeforeHeaderValue | headerValue => exact .inl rfl
  | _ =>
    simp only [PushParser.next, consume] at h
    split_ifs at h <;> cases h

/-- The step lemma of the invariant. -/
theorem headed_next (p : State × Request) (b : Byte) (h : Headed p) :
    Headed (PushParser.next consume p b) := by
  intro huses
  obtain ⟨f, hf⟩ := consume_headers p b
  rw [hf]
  cases hback : backOf p b with
  | none =>
    rcases usesLast_next huses with hin | hsome | hne
    · exact h hin
    · rw [hback] at hsome
      cases hsome
    · exact hne
  | some hs => exact modifyLast_ne_nil (h.back hback) f

/-- **Header vector safety.**  However a fresh parser is fed, also after bad and good answers,
    the vector whose last element a byte uses is not empty. -/
theorem headers_back_nonempty (major minor : Int) (pieces : List Bytes) :
    ∀ p ∈ PushParser.calls consume (.methodStart, .empty major minor) pieces,
      ∀ hs, backOf p.1 p.2 = some hs → hs ≠ [] := by
  intro p hp hs hback
  have hstart : Headed (.methodStart, .empty major minor) := fun h => Bool.noConfusion h
  exact (PushParser.forall_calls headed_next hstart hp).back hback

/-- A continuation line that comes after a byte that was answered with bad. -/
def continuedPieces : List Bytes :=
  [ofString "G / HTTP/1.0\r\nA: b\r\n", ofString "\n", ofString " c"]

/-- The call for the first character of its text. -/
def continuedCall : (State × Request) × Byte :=
  ((.headerLws, ⟨ofString "G", ofString "/", 1, 0, [⟨ofString "A", ofString "b"⟩]⟩), 'c'.toUInt8)

/-- It is one of the calls, and the vector it uses has one header. -/
theorem headers_back_continued :
    continuedCall ∈ PushParser.calls consume (.methodStart, .empty 7 7) continuedPieces ∧
      backOf continuedCall.1 continuedCall.2 = some [⟨ofString "A", ofString "b"⟩] ∧
      [Header.mk (ofString "A") (ofString "b")] ≠ [] := by
  have hcall : continuedCall ∈
      PushParser.calls consume (.methodStart, .empty 7 7) continuedPieces := by decide +kernel
  have hback : backOf continuedCall.1 continuedCall.2 =
      some [⟨ofString "A", ofString "b"⟩] := by decide +kernel
  exact ⟨hcall, hback, headers_back_nonempty 7 7 continuedPieces continuedCall hcall _ hback⟩

end OsgiManager.Http
