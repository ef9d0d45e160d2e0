import OsgiManager.Lib.PushParser
import OsgiManager.Lib.Run

namespace OsgiManager.Lib.PushParser

open OsgiManager.Lib

/-!
# Feeding a push parser on

A push parser keeps its state after any answer, so that it can be fed on after a good or a bad
one.  Each buffer is then consumed up to its first such answer, and what is left over of it may or
may not be fed again.

* `calls` — the bytes taken, each with the state it was taken in;
* `consumed` — the same bytes, as the caller sees them;
* `calls_eq_history` — they are one run, byte by byte, of the states alone;
* `forall_calls` — the invariant rule.
-/

variable {S : Type*} {consume : S → Byte → Verdict × S}

/-- The state after a byte, whatever the answer. -/
def next (consume : S → Byte → Verdict × S) (s : S) (b : Byte) : S := (consume s b).2

/-- The bytes that feeding a buffer takes, each with the state it is taken in. -/
def parseCalls (consume : S → Byte → Verdict × S) : S → Bytes → List (S × Byte)
  | _, []      => []
  | s, b :: bs => (s, b) :: match consume s b with
    | (.indeterminate, s') => parseCalls consume s' bs
    | _                    => []

/-- The same for one buffer after the other, whatever the answers are. -/
def calls (consume : S → Byte → Verdict × S) : S → List Bytes → List (S × Byte)
  | _, []          => []
  | s, buf :: bufs => parseCalls consume s buf ++ calls consume (parse consume s buf).2.1 bufs

/-- The bytes consumed: each buffer without what was left over of it. -/
def consumed (consume : S → Byte → Verdict × S) : S → List Bytes → Bytes
  | _, []          => []
  | s, buf :: bufs => buf.take (buf.length - (parse consume s buf).2.2.length) ++
      consumed consume (parse consume s buf).2.1 bufs

/-- Feeding a buffer is a run over the bytes consumed. -/
theorem parseCalls_eq_history (s : S) (bs : Bytes) :
    parseCalls consume s bs =
      history (next consume) s (bs.take (bs.length - (parse consume s bs).2.2.length)) ∧
    (parse consume s bs).2.1 =
      (bs.take (bs.length - (parse consume s bs).2.2.length)).foldl (next consume) s := by
  induction bs generalizing s with
  | nil => exact ⟨rfl, rfl⟩
  | cons b bs ih =>
    have hle : ∀ s, (parse consume s bs).2.2.length ≤ bs.length :=
      fun s => parse_left_le consume s bs
    rw [parseCalls, parse]
    rcases hc : consume s b with ⟨_ | _ | _, t⟩
    · -- an answer: one byte is consumed
      have htake : (b :: bs).length - bs.length = 1 := by
        rw [List.length_cons]
        omega
      rw [htake]
      exact ⟨rfl, by simp [next, hc]⟩
    · have htake : (b :: bs).length - bs.length = 1 := by
        rw [List.length_cons]
        omega
      rw [htake]
      exact ⟨rfl, by simp [next, hc]⟩
    · have htake : (b :: bs).length - (parse consume t bs).2.2.length =
          bs.length - (parse consume t bs).2.2.length + 1 := by
        have := hle t
        rw [List.length_cons]
        omega
      have ht : next consume s b = t := by rw [next, hc]
      obtain ⟨hcalls, hstate⟩ := ih t
      simp only [htake, List.take_succ_cons, history_cons, List.foldl_cons, ht]
      exact ⟨by rw [hcalls], hstate⟩

/-- **Feeding on** is one run over all bytes consumed. -/
theorem calls_eq_history (s : S) (bufs : List Bytes) :
    calls consume s bufs = history (next consume) s (consumed consume s bufs) := by
  induction bufs generalizing s with
  | nil => rfl
  | cons buf bufs ih =>
    obtain ⟨hcalls, hstate⟩ := @parseCalls_eq_history S consume s buf
    rw [calls, consumed, history_append, hcalls, ih, ← hstate]

/-- **The feeding rule.**  What every byte keeps holds whenever a byte is taken. -/
theorem forall_calls {I : S → Prop} (hstep : ∀ s b, I s → I (next consume s b)) {s : S} (hs : I s)
    {bufs : List Bytes} {p : S × Byte} (hp : p ∈ calls consume s bufs) : I p.1 := by
  rw [calls_eq_history] at hp
  exact forall_history hstep hs hp

end OsgiManager.Lib.PushParser
