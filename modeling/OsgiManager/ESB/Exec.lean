import OsgiManager.Lib.Bytes
import OsgiManager.Lib.Loop

namespace OsgiManager.ESB

open OsgiManager.Lib

/-!
# Running a command

`FireCommandExecVP` starts a command through `popen` and collects what it prints.  The pipe
is the model's input: `none` when the child process could not be started, and otherwise the
bytes the command writes before it ends.

* `fgets` — the reading primitive, a line or a bounded piece of one;
* `fireCommandExecVP` — the read loop, total on every pipe;
* `nulFree_fireCommandExecVP` — the text collected never holds a zero byte;
* `fireCommandExecVP_lossless` — output without zero bytes is collected whole.
-/

/-- `CHARACTER_STREAM_BUFFER_LENGTH`. -/
def characterStreamBufferLength : Nat := 1027

/-- The characters `fgets` stores: at most `room`, and none after a line break. -/
def fgetsPiece : Nat → Bytes → Bytes
  | 0, _            => []
  | _, []           => []
  | room + 1, c :: rest =>
      if c = '\n'.toUInt8 then [c] else c :: fgetsPiece room rest

/-- `fgets(buf, size, f)`: the piece read and what is left, or `none` at end of file. -/
def fgets (size : Nat) : Bytes → Option (Bytes × Bytes)
  | []   => none
  | rest =>
      let piece := fgetsPiece (size - 1) rest
      some (piece, rest.drop piece.length)

/-- One pass of the read loop, on the text so far and the unread output.  The buffer is
    zeroed before each read, so the piece in it is followed by zeros, and `append` takes the
    buffer as a C string. -/
def execBody : Bytes × Bytes → (Bytes × Bytes) ⊕ Bytes
  | (streamContent, rest) =>
      match fgets 6 rest with
      | some (piece, rest') =>
          let charToRead := piece ++ List.replicate (characterStreamBufferLength - piece.length) 0
          .inl (streamContent ++ cstr charToRead, rest')
      | none => .inr streamContent

/-- `FireCommandExecVP`.  As many passes as the output has bytes, and one more, are enough
    (`run_execBody`). -/
def fireCommandExecVP (pipe : Option Bytes) : Bytes :=
  match pipe with
  | some output => (Loop.run execBody (output.length + 1) ([], output)).getD []
  | none        => []

/-- A read at a position before the end makes progress. -/
theorem fgetsPiece_ne_nil {room : Nat} {rest : Bytes} (hroom : 0 < room) (hrest : rest ≠ []) :
    fgetsPiece room rest ≠ [] := by
  obtain ⟨room, rfl⟩ : ∃ k, room = k + 1 := ⟨room - 1, by omega⟩
  obtain ⟨c, rest, rfl⟩ := List.exists_cons_of_ne_nil hrest
  rw [fgetsPiece]
  split <;> simp

/-- **The read loop ends** within the passes `fireCommandExecVP` gives it, and an invariant
    of the text collected so far holds of its result. -/
theorem run_execBody (rest : Bytes) {P : Bytes → Prop} (happend : ∀ s t, P s → P (s ++ cstr t))
    {s : Bytes} (hs : P s) :
    ∃ r, Loop.run execBody (rest.length + 1) (s, rest) = some r ∧ P r := by
  refine Loop.run_of_variant (fun st => P st.1) (fun st => st.2.length) P ?_ ?_ hs
    (Nat.lt_succ_self _)
  · -- a piece is appended, and less output is left
    rintro ⟨s, rest⟩ s' hP h
    cases rest with
    | nil => simp [execBody, fgets] at h
    | cons c rest =>
      simp only [execBody, fgets, Sum.inl.injEq] at h
      subst h
      have hne := fgetsPiece_ne_nil (show 0 < 6 - 1 by decide) (List.cons_ne_nil c rest)
      have hpos := List.length_pos_iff.mpr hne
      exact ⟨happend _ _ hP, by simp only [List.length_drop, List.length_cons]; omega⟩
  · -- at the end of the output the text is returned
    rintro ⟨s, rest⟩ r hP h
    cases rest with
    | nil =>
      simp only [execBody, fgets, Sum.inr.injEq] at h
      exact h ▸ hP
    | cons c rest => simp [execBody, fgets] at h

/-- The text collected never holds a zero byte: `append` stops at the first one. -/
theorem nulFree_fireCommandExecVP (pipe : Option Bytes) : NulFree (fireCommandExecVP pipe) := by
  cases pipe with
  | none => exact nulFree_nil
  | some output =>
    obtain ⟨r, hr, hP⟩ := run_execBody output (P := NulFree)
      (fun s t hs => nulFree_append.mpr ⟨hs, nulFree_cstr t⟩) nulFree_nil
    rw [fireCommandExecVP, hr]
    exact hP

/-! ### Lossless capture -/

/-- What `fgets` stores is the front part of what is left to read. -/
theorem fgetsPiece_isPrefix (room : Nat) (rest : Bytes) : fgetsPiece room rest <+: rest := by
  induction room generalizing rest with
  | zero => exact List.nil_prefix
  | succ room ih =>
    cases rest with
    | nil => exact List.prefix_refl _
    | cons c rest =>
      rw [fgetsPiece]
      split_ifs with hc
      · exact (List.prefix_cons_inj c).mpr List.nil_prefix
      · exact (List.prefix_cons_inj c).mpr (ih rest)

/-- A buffer that holds a piece without zero bytes, and zeros, shows the piece. -/
theorem cstr_append_zeros {piece : Bytes} (h : NulFree piece) (n : Nat) :
    cstr (piece ++ List.replicate n 0) = piece := by
  have hzeros : cstr (List.replicate n 0) = [] := by
    cases n with
    | zero => rfl
    | succ n => rfl
  rw [cstr_append h, hzeros, List.append_nil]

/-- **One pass.**  A piece of output without zero bytes moves to the text, as it is. -/
theorem execBody_of_nulFree {s rest : Bytes} (hne : rest ≠ []) (hfree : NulFree rest) :
    ∃ piece rest', rest = piece ++ rest' ∧ piece ≠ [] ∧
      execBody (s, rest) = .inl (s ++ piece, rest') := by
  obtain ⟨rest', hrest⟩ := fgetsPiece_isPrefix (6 - 1) rest
  obtain ⟨c, rest₀, hcons⟩ := List.exists_cons_of_ne_nil hne
  have hread : fgets 6 rest = some (fgetsPiece (6 - 1) rest, rest') := by
    have hdrop := congrArg (List.drop (fgetsPiece (6 - 1) rest).length) hrest
    rw [List.drop_left] at hdrop
    rw [hdrop, hcons]
    rfl
  have hpiece : NulFree (fgetsPiece (6 - 1) rest) :=
    hfree.of_isInfix (fgetsPiece_isPrefix _ _).isInfix
  refine ⟨_, rest', hrest.symm, fgetsPiece_ne_nil (by decide) hne, ?_⟩
  simp only [execBody, hread, cstr_append_zeros hpiece]

/-- **Lossless capture.**  The read loop ends on every output without zero bytes, and returns
    it unchanged, wherever its line breaks are. -/
theorem fireCommandExecVP_lossless (output : Bytes) (hfree : NulFree output) :
    Loop.Returns execBody ([], output) output ∧ fireCommandExecVP (some output) = output := by
  have hrun : ∃ r, Loop.run execBody (output.length + 1) ([], output) = some r ∧ r = output := by
    refine Loop.run_of_variant (fun st => st.1 ++ st.2 = output ∧ NulFree st.2)
      (fun st => st.2.length) (fun r => r = output) ?_ ?_ ⟨rfl, hfree⟩ (Nat.lt_succ_self _)
    · rintro ⟨s, rest⟩ st ⟨hparts, hrest⟩ hbody
      have hne : rest ≠ [] := by
        rintro rfl
        cases hbody
      obtain ⟨piece, rest', rfl, hpiece, hpass⟩ := execBody_of_nulFree (s := s) hne hrest
      rw [hpass, Sum.inl.injEq] at hbody
      subst hbody
      have hpos : 0 < piece.length := List.length_pos_iff.mpr hpiece
      refine ⟨⟨by rw [List.append_assoc]; exact hparts, (nulFree_append.mp hrest).2⟩, ?_⟩
      show rest'.length < (piece ++ rest').length
      rw [List.length_append]
      omega
    · -- the loop only leaves when nothing is left to read
      rintro ⟨s, rest⟩ r ⟨hparts, hrest⟩ hbody
      have hnil : rest = [] := by
        by_contra hne
        obtain ⟨piece, rest', _, _, hpass⟩ := execBody_of_nulFree (s := s) hne hrest
        rw [hpass] at hbody
        cases hbody
      subst hnil
      cases hbody
      rw [← hparts, List.append_nil]
  obtain ⟨r, hr, rfl⟩ := hrun
  exact ⟨⟨_, hr⟩, by rw [fireCommandExecVP, hr, Option.getD_some]⟩

/-- Output with line breaks in a row, and none at the end. -/
def brokenLines : Bytes := ofString "ID State\n\n\n[ 210] [Active"

theorem fireCommandExecVP_brokenLines :
    Loop.Returns execBody ([], brokenLines) brokenLines ∧
      fireCommandExecVP (some brokenLines) = brokenLines :=
  fireCommandExecVP_lossless brokenLines (by decide)

/-- A command that could not be started, or printed nothing, gives the empty text. -/
theorem fireCommandExecVP_of_failed {pipe : Option Bytes} (h : pipe = none ∨ pipe = some []) :
    fireCommandExecVP pipe = [] := by
  rcases h with rfl | rfl <;> rfl

end OsgiManager.ESB
