import OsgiManager.Http.RequestParsing
import OsgiManager.Lib.Feeding
import Mathlib.Algebra.Ring.Int.Defs

namespace OsgiManager.Http

open OsgiManager.Lib

/-!
# The version numbers

The two versions of a request are added up digit by digit in `int`s, with no limit on the number
of digits.  A parser that is fed on after any answer passes over the bytes it has rejected, so
the digits it takes can be read off the bytes consumed.

* `majorUpdate`, `minorUpdate` — the version and the digit of an update, and
  `next_versions`, that no other step changes a version;
* `majorDigits`, `minorDigits` — the digits in the bytes consumed;
* `majorUpdates_eq`, `minorUpdates_eq` — the updates of any feeding are the steps of adding up
  these digits;
* `versions_fit_iff` — the feedings in which no update overflows.
-/

/-! ### The updates -/

/-- The version before an update of the major version, and the digit. -/
def majorUpdate : (State × Request) × Byte → Option (Int × Byte)
  | ((.httpVersionMajorStart, req), input) | ((.httpVersionMajor, req), input) =>
      if isDigit (charToInt input) then some (req.httpVersionMajor, input) else none
  | _ => none

/-- The same for the minor version. -/
def minorUpdate : (State × Request) × Byte → Option (Int × Byte)
  | ((.httpVersionMinorStart, req), input) | ((.httpVersionMinor, req), input) =>
      if isDigit (charToInt input) then some (req.httpVersionMinor, input) else none
  | _ => none

/-- Neither end of a version is a digit. -/
theorem isDigit_ends : isDigit (charToInt '.'.toUInt8) = false ∧ isDigit (charToInt cr) = false := by
  decide

/-- **What a byte makes of the versions**: it updates one of them, or the slash clears both, or
    they stay. -/
theorem next_versions (p : State × Request) (b : Byte) :
    let p' := PushParser.next consume p b
    (p.1 = .httpVersionSlash ∧ p'.2.httpVersionMajor = 0 ∧ p'.2.httpVersionMinor = 0) ∨
      (p'.2.httpVersionMajor = (majorUpdate (p, b)).elim p.2.httpVersionMajor
          (fun u => versionStep u.1 u.2) ∧
        p'.2.httpVersionMinor = (minorUpdate (p, b)).elim p.2.httpVersionMinor
          (fun u => versionStep u.1 u.2)) := by
  obtain ⟨hdot, hcr⟩ := isDigit_ends
  rcases p with ⟨state, req⟩
  cases state with
  | httpVersionSlash =>
    by_cases hslash : b = '/'.toUInt8
    · left
      simp [PushParser.next, consume, hslash, Request.clearVersions]
    · right
      simp [PushParser.next, consume, hslash, majorUpdate, minorUpdate]
  | httpVersionMajorStart | httpVersionMinorStart =>
    right
    simp only [PushParser.next, consume, majorUpdate, minorUpdate]
    split_ifs <;> exact ⟨rfl, rfl⟩
  | httpVersionMajor | httpVersionMinor =>
    right
    simp only [PushParser.next, consume, majorUpdate, minorUpdate]
    split_ifs with hend hdigit hdigit
    · rw [hend] at hdigit
      simp [hdot, hcr] at hdigit
    · exact ⟨rfl, rfl⟩
    · exact ⟨rfl, rfl⟩
    · exact ⟨rfl, rfl⟩
  | _ =>
    right
    simp only [PushParser.next, consume, majorUpdate, minorUpdate]
    split_ifs <;> exact ⟨rfl, rfl⟩

/-- The updates of a run of the states. -/
def updates (U : (State × Request) × Byte → Option (Int × Byte)) (p : State × Request) (w : Bytes) :
    List (Int × Byte) := (history (PushParser.next consume) p w).filterMap U

section Updates

variable {U : (State × Request) × Byte → Option (Int × Byte)} {p : State × Request} {b : Byte}

theorem updates_cons_none (h : U (p, b) = none) (w : Bytes) :
    updates U p (b :: w) = updates U (PushParser.next consume p b) w :=
  List.filterMap_cons_none h

theorem updates_cons_some {u : Int × Byte} (h : U (p, b) = some u) (w : Bytes) :
    updates U p (b :: w) = u :: updates U (PushParser.next consume p b) w :=
  List.filterMap_cons_some h

/-! ### The stages of the parser -/

/-- Before the versions, in one of them, and after them. -/
def stage : State → Nat
  | .httpVersionMajorStart | .httpVersionMajor => 1
  | .httpVersionMinorStart | .httpVersionMinor => 2
  | .expectingNewline1 | .headerLineStart | .headerLws | .headerName
  | .spaceBeforeHeaderValue | .headerValue | .expectingNewline2 | .expectingNewline3 => 3
  | _ => 0

/-- The parser never goes back to an earlier stage. -/
theorem stage_le_next (p : State × Request) (b : Byte) :
    stage p.1 ≤ stage (PushParser.next consume p b).1 := by
  rcases p with ⟨state, req⟩
  cases state <;> simp only [PushParser.next, consume] <;> split_ifs <;>
    exact Nat.le_of_ble_eq_true rfl

theorem majorUpdate_eq_none (h : stage p.1 ≠ 1) : majorUpdate (p, b) = none := by
  rcases p with ⟨state, req⟩
  cases state <;> first | rfl | exact absurd rfl h

theorem minorUpdate_eq_none (h : stage p.1 ≠ 2) : minorUpdate (p, b) = none := by
  rcases p with ⟨state, req⟩
  cases state <;> first | rfl | exact absurd rfl h

/-- There are no updates once the stages that make them are over. -/
theorem updates_eq_nil {k : Nat} (quiet : ∀ p b, k ≤ stage p.1 → U (p, b) = none)
    (h : k ≤ stage p.1) (w : Bytes) : updates U p w = [] := by
  induction w generalizing p with
  | nil => rfl
  | cons b w ih =>
    rw [updates_cons_none (quiet p b h)]
    exact ih (h.trans (stage_le_next p b))

/-! ### Waiting for a byte -/

/-- What follows the first byte of a class. -/
def after (P : Byte → Bool) (w : Bytes) : Bytes := (w.dropWhile fun b => !P b).drop 1

/-- A state that waits for a byte of a class, without updates, passes over the others. -/
theorem updates_wait {s t : State} {P : Byte → Bool} {I J : Request → Prop}
    {F : Bytes → List (Int × Byte)} (quiet : ∀ req b, U ((s, req), b) = none)
    (stay : ∀ req b, I req → P b = false →
      ∃ req', PushParser.next consume (s, req) b = (s, req') ∧ I req')
    (move : ∀ req b, I req → P b = true →
      ∃ req', PushParser.next consume (s, req) b = (t, req') ∧ J req')
    (hF : ∀ req w, J req → updates U (t, req) w = F w) (hnil : F [] = []) (req : Request)
    (w : Bytes) (h : I req) : updates U (s, req) w = F (after P w) := by
  induction w generalizing req with
  | nil => exact hnil.symm
  | cons b w ih =>
    rw [updates_cons_none (quiet req b)]
    cases hb : P b with
    | false =>
      obtain ⟨req', hnext, hI⟩ := stay req b h hb
      rw [hnext, ih req' hI, after, after, List.dropWhile_cons_of_pos (by rw [hb]; rfl)]
    | true =>
      obtain ⟨req', hnext, hJ⟩ := move req b h hb
      rw [hnext, hF req' w hJ, after, List.dropWhile_cons_of_neg (by rw [hb]; decide),
        List.drop_one, List.tail_cons]

/-! ### Adding up digits -/

/-- The digits before a byte that ends them. -/
def digitsUntil (stop : Byte) (w : Bytes) : Bytes := (w.takeWhile (· ≠ stop)).filter digitChar

/-- Two states that add up the digits of a version: one that waits for the first of them, and one
    that goes on until the version ends. -/
structure Accumulates (U : (State × Request) × Byte → Option (Int × Byte)) (start more : State)
    (stop : Byte) (version : Request → Int) : Prop where
  digit : ∀ s, s = start ∨ s = more → ∀ req b, digitChar b = true →
    U ((s, req), b) = some (version req, b) ∧
      ∃ req', PushParser.next consume (s, req) b = (more, req') ∧
        version req' = versionStep (version req) b
  wait : ∀ req b, digitChar b = false →
    U ((start, req), b) = none ∧ PushParser.next consume (start, req) b = (start, req)
  pass : ∀ req b, digitChar b = false → b ≠ stop →
    U ((more, req), b) = none ∧ PushParser.next consume (more, req) b = (more, req)
  ends : digitChar stop = false ∧ ∀ req, U ((more, req), stop) = none ∧
    ∀ w, updates U (PushParser.next consume (more, req) stop) w = []

variable {start more : State} {stop : Byte} {version : Request → Int}

/-- After the first digit, the updates are the steps of adding up the digits. -/
theorem Accumulates.updates_more (h : Accumulates U start more stop version) (req : Request) (w : Bytes) :
    updates U (more, req) w = history versionStep (version req) (digitsUntil stop w) := by
  induction w generalizing req with
  | nil => rfl
  | cons b w ih =>
    by_cases hstop : b = stop
    · obtain ⟨hquiet, hnone⟩ := h.ends.2 req
      rw [hstop, updates_cons_none hquiet, hnone, digitsUntil,
        List.takeWhile_cons_of_neg (by simp)]
      rfl
    · rw [digitsUntil, List.takeWhile_cons_of_pos (by simpa using hstop)]
      cases hb : digitChar b with
      | false =>
        obtain ⟨hquiet, hstay⟩ := h.pass req b hb hstop
        rw [updates_cons_none hquiet, hstay, ih, List.filter_cons_of_neg (by rw [hb]; decide)]
        rfl
      | true =>
        obtain ⟨hupdate, req', hnext, hversion⟩ := h.digit more (.inr rfl) req b hb
        rw [updates_cons_some hupdate, hnext, ih, hversion, List.filter_cons_of_pos hb,
          history_cons]
        rfl

/-- From the start, what comes before the first digit is passed over. -/
theorem Accumulates.updates_start (h : Accumulates U start more stop version) (req : Request) (w : Bytes) :
    updates U (start, req) w =
      history versionStep (version req) (digitsUntil stop (w.dropWhile fun b => !digitChar b)) := by
  induction w with
  | nil => rfl
  | cons b w ih =>
    cases hb : digitChar b with
    | false =>
      obtain ⟨hquiet, hstay⟩ := h.wait req b hb
      rw [updates_cons_none hquiet, hstay, ih, List.dropWhile_cons_of_pos (by rw [hb]; rfl)]
    | true =>
      have hstop : b ≠ stop := by
        rintro rfl
        rw [h.ends.1] at hb
        cases hb
      obtain ⟨hupdate, req', hnext, hversion⟩ := h.digit start (.inl rfl) req b hb
      rw [updates_cons_some hupdate, hnext, h.updates_more, hversion,
        List.dropWhile_cons_of_neg (by rw [hb]; decide), digitsUntil, digitsUntil,
        List.takeWhile_cons_of_pos (by simpa using hstop), List.filter_cons_of_pos hb,
        history_cons]

end Updates

/-! ### The digits in the bytes consumed -/

/-- What follows the slash before the versions, with the bytes that are waited for until then. -/
def versionPart (w : Bytes) : Bytes :=
  after (· = '/'.toUInt8) (after (· = 'P'.toUInt8) (after (· = 'T'.toUInt8) (after (· = 'T'.toUInt8)
    (after (· = 'H'.toUInt8) (after (· = ' '.toUInt8) (after (· = ' '.toUInt8)
      (after tokenChar w)))))))

/-- The digits taken for the major version. -/
def majorDigits (w : Bytes) : Bytes :=
  digitsUntil '.'.toUInt8 ((versionPart w).dropWhile fun b => !digitChar b)

/-- The digits taken for the minor version. -/
def minorDigits (w : Bytes) : Bytes :=
  digitsUntil cr ((after (· = '.'.toUInt8) (after digitChar (versionPart w))).dropWhile
    fun b => !digitChar b)

theorem digitChar_of_mem_digitsUntil {stop b : Byte} {w : Bytes} (h : b ∈ digitsUntil stop w) :
    digitChar b = true := (List.mem_filter.mp h).2

/-- The request as the slash leaves it. -/
def Cleared (req : Request) : Prop := req.httpVersionMajor = 0 ∧ req.httpVersionMinor = 0

section Line

variable {U : (State × Request) × Byte → Option (Int × Byte)} {F : Bytes → List (Int × Byte)}

/-- A state that waits for one byte, and does not change the versions that it starts with. -/
theorem updates_byte (c : Byte) {s t : State} (quiet : ∀ req b, U ((s, req), b) = none)
    (stay : ∀ req b, b ≠ c → ∃ req', PushParser.next consume (s, req) b = (s, req'))
    (move : ∀ req, PushParser.next consume (s, req) c = (t, req))
    (hF : ∀ req w, updates U (t, req) w = F w) (hnil : F [] = []) (req : Request) (w : Bytes) :
    updates U (s, req) w = F (after (· = c) w) := by
  refine updates_wait (I := fun _ => True) (J := fun _ => True) quiet ?_ ?_
    (fun req w _ => hF req w) hnil req w trivial
  · intro req b _ hb
    obtain ⟨req', hnext⟩ := stay req b (of_decide_eq_false hb)
    exact ⟨req', hnext, trivial⟩
  · intro req b _ hb
    rw [of_decide_eq_true hb]
    exact ⟨req, move req, trivial⟩

/-- The slash clears the versions. -/
theorem updates_slash (quiet : ∀ req b, U ((.httpVersionSlash, req), b) = none)
    (hF : ∀ req w, Cleared req → updates U (.httpVersionMajorStart, req) w = F w)
    (hnil : F [] = []) (req : Request) (w : Bytes) :
    updates U (.httpVersionSlash, req) w = F (after (· = '/'.toUInt8) w) := by
  refine updates_wait (I := fun _ => True) quiet ?_ ?_ hF hnil req w trivial
  · intro req b _ hb
    refine ⟨req, ?_, trivial⟩
    simp only [PushParser.next, consume, if_neg (of_decide_eq_false hb)]
  · intro req b _ hb
    refine ⟨req.clearVersions b, ?_, rfl, rfl⟩
    simp only [PushParser.next, consume, if_pos (of_decide_eq_true hb)]

/-- The first byte of the method is waited for. -/
theorem updates_methodStart (quiet : ∀ req b, U ((.methodStart, req), b) = none)
    (hF : ∀ req w, updates U (.method, req) w = F w) (hnil : F [] = []) (req : Request)
    (w : Bytes) : updates U (.methodStart, req) w = F (after tokenChar w) := by
  refine updates_wait (I := fun _ => True) (J := fun _ => True) quiet ?_ ?_
    (fun req w _ => hF req w) hnil req w trivial
  · intro req b _ hb
    refine ⟨req, ?_, trivial⟩
    simp [PushParser.next, consume, token_test, hb]
  · intro req b _ hb
    refine ⟨req.pushMethod b, ?_, trivial⟩
    simp [PushParser.next, consume, token_test, hb]

/-- The bytes that a method or a uri goes on with keep its state, and so do the wrong ones. -/
theorem next_text (req : Request) (b : Byte) (hb : b ≠ ' '.toUInt8) :
    (∃ req', PushParser.next consume (.method, req) b = (.method, req')) ∧
      ∃ req', PushParser.next consume (.uri, req) b = (.uri, req') := by
  simp only [PushParser.next, consume, if_neg hb]
  constructor <;> split_ifs <;> exact ⟨_, rfl⟩

/-- Up to the versions there are no updates, and the slash clears the versions. -/
theorem updates_versionPart (quiet : ∀ s, stage s = 0 → ∀ req b, U ((s, req), b) = none)
    (hF : ∀ req w, Cleared req → updates U (.httpVersionMajorStart, req) w = F w)
    (hnil : F [] = []) (req : Request) (w : Bytes) :
    updates U (.methodStart, req) w = F (versionPart w) := by
  -- from the slash back to the first state
  have hslash := updates_slash (quiet .httpVersionSlash rfl) hF hnil
  have hP := updates_byte 'P'.toUInt8 (quiet .httpVersionP rfl)
    (fun req b hb => ⟨req, by simp [PushParser.next, consume, hb]⟩) (fun _ => rfl) hslash hnil
  have hT2 := updates_byte 'T'.toUInt8 (quiet .httpVersionT2 rfl)
    (fun req b hb => ⟨req, by simp [PushParser.next, consume, hb]⟩) (fun _ => rfl) hP hnil
  have hT1 := updates_byte 'T'.toUInt8 (quiet .httpVersionT1 rfl)
    (fun req b hb => ⟨req, by simp [PushParser.next, consume, hb]⟩) (fun _ => rfl) hT2 hnil
  have hH := updates_byte 'H'.toUInt8 (quiet .httpVersionH rfl)
    (fun req b hb => ⟨req, by simp [PushParser.next, consume, hb]⟩) (fun _ => rfl) hT1 hnil
  have huri := updates_byte ' '.toUInt8 (quiet .uri rfl)
    (fun req b hb => (next_text req b hb).2) (fun _ => rfl) hH hnil
  have hmethod := updates_byte ' '.toUInt8 (quiet .method rfl)
    (fun req b hb => (next_text req b hb).1) (fun _ => rfl) huri hnil
  exact updates_methodStart (quiet .methodStart rfl) hmethod hnil req w

end Line

/-! ### The updates of a feeding -/

theorem accumulates_major : Accumulates majorUpdate .httpVersionMajorStart .httpVersionMajor
    '.'.toUInt8 Request.httpVersionMajor where
  digit := by
    rintro s hs req b hb
    have hdot : b ≠ '.'.toUInt8 := by
      rintro rfl
      exact absurd hb (by decide)
    rcases hs with rfl | rfl
    · refine ⟨by simp [majorUpdate, digit_test, hb], req.pushMajor b, ?_, rfl⟩
      simp [PushParser.next, consume, digit_test, hb]
    · refine ⟨by simp [majorUpdate, digit_test, hb], req.pushMajor b, ?_, rfl⟩
      simp [PushParser.next, consume, digit_test, hb, hdot]
  wait := by
    intro req b hb
    simp [majorUpdate, PushParser.next, consume, digit_test, hb]
  pass := by
    intro req b hb hdot
    simp [majorUpdate, PushParser.next, consume, digit_test, hb, hdot]
  ends := by
    refine ⟨by decide, fun req => ⟨rfl, fun w => ?_⟩⟩
    -- what comes after the dot is past the stage of the major version
    refine updates_eq_nil (k := 2) (fun p b hp => majorUpdate_eq_none (by omega)) ?_ w
    exact Nat.le_refl 2

theorem accumulates_minor : Accumulates minorUpdate .httpVersionMinorStart .httpVersionMinor
    cr Request.httpVersionMinor where
  digit := by
    rintro s hs req b hb
    have hcr : b ≠ cr := by
      rintro rfl
      exact absurd hb (by decide)
    rcases hs with rfl | rfl
    · refine ⟨by simp [minorUpdate, digit_test, hb], req.pushMinor b, ?_, rfl⟩
      simp [PushParser.next, consume, digit_test, hb]
    · refine ⟨by simp [minorUpdate, digit_test, hb], req.pushMinor b, ?_, rfl⟩
      simp [PushParser.next, consume, digit_test, hb, hcr]
  wait := by
    intro req b hb
    simp [minorUpdate, PushParser.next, consume, digit_test, hb]
  pass := by
    intro req b hb hcr
    simp [minorUpdate, PushParser.next, consume, digit_test, hb, hcr]
  ends := by
    refine ⟨by decide, fun req => ⟨rfl, fun w => ?_⟩⟩
    refine updates_eq_nil (k := 3) (fun p b hp => minorUpdate_eq_none (by omega)) ?_ w
    exact Nat.le_refl 3

/-- **The updates of the major version** are the steps of adding up its digits. -/
theorem majorUpdates_eq (req : Request) (w : Bytes) :
    updates majorUpdate (.methodStart, req) w = history versionStep 0 (majorDigits w) := by
  refine updates_versionPart (U := majorUpdate)
    (F := fun w => history versionStep 0 (digitsUntil '.'.toUInt8
      (w.dropWhile fun b => !digitChar b))) ?_ ?_ rfl req w
  · exact fun s hs req b => majorUpdate_eq_none (by rw [hs]; decide)
  · intro req w hreq
    rw [accumulates_major.updates_start, hreq.1]

/-- **The updates of the minor version** are the steps of adding up its digits, which begin after
    the dot of the major version. -/
theorem minorUpdates_eq (req : Request) (w : Bytes) :
    updates minorUpdate (.methodStart, req) w = history versionStep 0 (minorDigits w) := by
  let F : Bytes → List (Int × Byte) := fun w =>
    history versionStep 0 (digitsUntil cr (w.dropWhile fun b => !digitChar b))
  have hdot : ∀ (req : Request) (w : Bytes), req.httpVersionMinor = 0 →
      updates minorUpdate (.httpVersionMajor, req) w = F (after (· = '.'.toUInt8) w) := by
    intro req w hreq
    refine updates_wait (t := .httpVersionMinorStart) (I := fun req => req.httpVersionMinor = 0)
      (J := fun req => req.httpVersionMinor = 0) (fun _ _ => rfl) ?_ ?_ ?_ rfl req w hreq
    · intro req b hreq hb
      simp only [PushParser.next, consume, if_neg (of_decide_eq_false hb)]
      split_ifs
      · exact ⟨req.pushMajor b, rfl, hreq⟩
      · exact ⟨req, rfl, hreq⟩
    · intro req b hreq hb
      refine ⟨req, ?_, hreq⟩
      simp only [PushParser.next, consume, if_pos (of_decide_eq_true hb)]
    · intro req w hreq
      rw [accumulates_minor.updates_start, hreq]
  refine updates_versionPart (U := minorUpdate)
    (F := fun w => F (after (· = '.'.toUInt8) (after digitChar w))) ?_ ?_ rfl req w
  · exact fun s hs req b => minorUpdate_eq_none (by rw [hs]; decide)
  · intro req w hreq
    refine updates_wait (I := fun req => req.httpVersionMinor = 0)
      (J := fun req => req.httpVersionMinor = 0) (F := fun w => F (after (· = '.'.toUInt8) w))
      (fun _ _ => rfl) ?_ ?_ hdot rfl req w hreq.2
    · intro req b hreq hb
      refine ⟨req, ?_, hreq⟩
      simp [PushParser.next, consume, digit_test, hb]
    · intro req b hreq hb
      refine ⟨req.pushMajor b, ?_, hreq⟩
      simp [PushParser.next, consume, digit_test, hb]

/-! ### Overflow -/

/-- A value of a 32-bit signed `int`. -/
def FitsInt (n : Int) : Prop := -2 ^ 31 ≤ n ∧ n < 2 ^ 31

/-- The new version `version * 10 + digit` of an update fits. -/
def UpdateFits (u : Int × Byte) : Prop :=
  FitsInt (u.1 * 10 + (charToInt u.2 - charToInt '0'.toUInt8))

/-- So do the intermediate results of `version * 10 + input - '0'`, from left to right. -/
def StepsFit (u : Int × Byte) : Prop :=
  FitsInt (u.1 * 10) ∧ FitsInt (u.1 * 10 + charToInt u.2) ∧ UpdateFits u

instance (u : Int × Byte) : Decidable (UpdateFits u) := inferInstanceAs (Decidable (_ ∧ _))

/-- A version whose exact value is in range is exact. -/
theorem versionStep_exact {n : Nat} {b : Byte} (hb : digitChar b = true)
    (h : decimalStep n b < 2 ^ 31) : versionStep n b = decimalStep n b := by
  have hle : n ≤ decimalStep n b := by
    unfold decimalStep
    omega
  have hn : wrapInt (n : Int) = n := Int.bmod_eq_of_le (by omega) (by omega)
  have hstep := versionStep_wrapInt n hb
  rw [hn] at hstep
  rw [hstep]
  exact Int.bmod_eq_of_le (by omega) (by omega)

theorem le_foldl_decimalStep (digits : Bytes) (n : Nat) : n ≤ digits.foldl decimalStep n := by
  induction digits generalizing n with
  | nil => exact Nat.le_refl n
  | cons b digits ih =>
    have hle : n ≤ decimalStep n b := by
      unfold decimalStep
      omega
    exact hle.trans (ih (decimalStep n b))

/-- What holds of an update up to some number holds of all updates, as they are added up, exactly
    up to that number. -/
theorem history_versionStep_iff {Q : Int × Byte → Prop} {k : Nat}
    (hQ : ∀ (n : Nat) (b : Byte), digitChar b = true →
      (Q ((n : Int), b) ↔ decimalStep n b + k < 2 ^ 31))
    {digits : Bytes} (hdigits : ∀ b ∈ digits, digitChar b = true) {n : Nat} (hn : n + k < 2 ^ 31) :
    (∀ u ∈ history versionStep n digits, Q u) ↔ digits.foldl decimalStep n + k < 2 ^ 31 := by
  induction digits generalizing n with
  | nil => simpa using hn
  | cons b digits ih =>
    obtain ⟨hb, hdigits⟩ := List.forall_mem_cons.mp hdigits
    rw [history_cons, List.forall_mem_cons, hQ n b hb, List.foldl_cons]
    by_cases hstep : decimalStep n b + k < 2 ^ 31
    · rw [versionStep_exact hb (by omega), ih hdigits hstep]
      exact and_iff_right hstep
    · -- once it is beyond the number, it stays there
      have hle := le_foldl_decimalStep digits (decimalStep n b)
      exact iff_of_false (fun h => hstep h.1) (by omega)

theorem updateFits_iff (n : Nat) (b : Byte) (hb : digitChar b = true) :
    UpdateFits ((n : Int), b) ↔ decimalStep n b + 0 < 2 ^ 31 := by
  rw [UpdateFits, digit_value b hb, FitsInt, decimalStep]
  omega

theorem stepsFit_iff (n : Nat) (b : Byte) (hb : digitChar b = true) :
    StepsFit ((n : Int), b) ↔ decimalStep n b + 48 < 2 ^ 31 := by
  have hzero : charToInt '0'.toUInt8 = 48 := by decide
  have hvalue := digit_value b hb
  rw [StepsFit, updateFits_iff n b hb]
  simp only [FitsInt]
  rw [decimalStep]
  omega

/-- All updates of the versions when a fresh parser is fed. -/
def versionUpdates (major minor : Int) (pieces : List Bytes) : List (Int × Byte) :=
  let calls := PushParser.calls consume (.methodStart, .empty major minor) pieces
  calls.filterMap majorUpdate ++ calls.filterMap minorUpdate

/-- All updates are good when those of each version are. -/
theorem forall_versionUpdates_iff {Q : Int × Byte → Prop} {k : Nat}
    (hQ : ∀ (n : Nat) (b : Byte), digitChar b = true →
      (Q ((n : Int), b) ↔ decimalStep n b + k < 2 ^ 31)) (hk : k < 2 ^ 31)
    (major minor : Int) (pieces : List Bytes) :
    let w := PushParser.consumed consume (.methodStart, .empty major minor) pieces
    (∀ u ∈ versionUpdates major minor pieces, Q u) ↔
      decimalValue (majorDigits w) + k < 2 ^ 31 ∧ decimalValue (minorDigits w) + k < 2 ^ 31 := by
  intro w
  have hupdates : versionUpdates major minor pieces =
      history versionStep 0 (majorDigits w) ++ history versionStep 0 (minorDigits w) := by
    rw [versionUpdates, PushParser.calls_eq_history, ← majorUpdates_eq (.empty major minor) w,
      ← minorUpdates_eq (.empty major minor) w]
    rfl
  have hmajor := history_versionStep_iff (n := 0) hQ
    (fun b (hb : b ∈ majorDigits w) => digitChar_of_mem_digitsUntil hb) (by omega)
  have hminor := history_versionStep_iff (n := 0) hQ
    (fun b (hb : b ∈ minorDigits w) => digitChar_of_mem_digitsUntil hb) (by omega)
  rw [hupdates, List.forall_mem_append]
  exact and_congr hmajor hminor

/-- **Version arithmetic.**  However a fresh parser is fed, also after bad and good answers, no
    update of a version overflows exactly when the digits taken for each version write a number
    below 2 to the 31; and no intermediate result does exactly when it is 48, the code of the
    digit zero, below that. -/
theorem versions_fit_iff (major minor : Int) (pieces : List Bytes) :
    let w := PushParser.consumed consume (.methodStart, .empty major minor) pieces
    ((∀ u ∈ versionUpdates major minor pieces, UpdateFits u) ↔
      decimalValue (majorDigits w) < 2 ^ 31 ∧ decimalValue (minorDigits w) < 2 ^ 31) ∧
    ((∀ u ∈ versionUpdates major minor pieces, StepsFit u) ↔
      decimalValue (majorDigits w) + 48 < 2 ^ 31 ∧ decimalValue (minorDigits w) + 48 < 2 ^ 31) := by
  have hfits := forall_versionUpdates_iff updateFits_iff (by decide) major minor pieces
  simp only [Nat.add_zero] at hfits
  exact ⟨hfits, forall_versionUpdates_iff stepsFit_iff (by decide) major minor pieces⟩

/-- Ten digits of the major version are too many. -/
theorem versions_fit_ten_digits : ¬ ∀ u ∈ versionUpdates 0 0
    [ofString "GET / HTTP/2147", ofString "483648.0\r\n\r\n"], UpdateFits u := by
  intro h
  have hlast : ((214748364 : Int), '8'.toUInt8) ∈ versionUpdates 0 0
      [ofString "GET / HTTP/2147", ofString "483648.0\r\n\r\n"] := by decide +kernel
  exact absurd (h _ hlast) (by decide +kernel)

end OsgiManager.Http
