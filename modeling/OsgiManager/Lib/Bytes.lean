import Mathlib.Data.List.Basic
import Mathlib.Data.List.DropRight
import Mathlib.Data.List.Infix
import Mathlib.Data.List.TakeWhile

namespace OsgiManager.Lib

/-!
# Byte strings

A `std::string` is a list of bytes.  This file collects the string operations of the C and
C++ libraries that the rest of the development uses:

* `ofString` — a string literal of the source, as bytes;
* `cstr` — the C-string view of a string: what `c_str()` shows to a callee that stops at
  the first zero byte, and what `append(const char*)` takes from a buffer;
* `find`, `findFirstNotOf`, `findLastNotOf`, `findLastOf`, `substr` — the searches of
  `std::string`, with `none` for `npos`;
* `sprintf` — formatting with `%s` directives.
-/

/-- A `char` of the source. -/
abbrev Byte := UInt8

/-- A `std::string` of the source. -/
abbrev Bytes := List Byte

/-- A property that the 256 bytes have one by one is a property of every byte. -/
theorem forall_byte {P : Byte → Prop} (h : ∀ i : Fin 256, P (UInt8.ofFin i)) : ∀ b, P b :=
  fun b => h b.toFin

/-- A string literal, as the bytes the compiler stores for it. -/
def ofString (s : String) : Bytes := s.toList.map Char.toUInt8

/-! ### C strings -/

/-- The part of a string that a reader of its C-string view sees. -/
def cstr (s : Bytes) : Bytes := s.takeWhile (· ≠ 0)

/-- A string without zero bytes: its C-string view is the whole string. -/
def NulFree (s : Bytes) : Prop := (0 : Byte) ∉ s

instance (s : Bytes) : Decidable (NulFree s) := inferInstanceAs (Decidable ((0 : Byte) ∉ s))

@[simp] theorem nulFree_nil : NulFree [] := by simp [NulFree]

@[simp] theorem nulFree_append {s t : Bytes} : NulFree (s ++ t) ↔ NulFree s ∧ NulFree t := by
  simp [NulFree, not_or]

theorem cstr_of_nulFree {s : Bytes} (h : NulFree s) : cstr s = s := by
  rw [cstr, List.takeWhile_eq_self_iff]
  intro c hc
  simpa using fun h0 : c = 0 => h (h0 ▸ hc)

theorem nulFree_cstr (s : Bytes) : NulFree (cstr s) := by
  intro h
  simpa using List.mem_takeWhile_imp h

/-- A zero-free front part survives the C-string view of a concatenation. -/
theorem cstr_append {s : Bytes} (h : NulFree s) (t : Bytes) : cstr (s ++ t) = s ++ cstr t := by
  refine List.takeWhile_append_of_pos fun c hc => ?_
  simpa using fun h0 : c = 0 => h (h0 ▸ hc)

/-- Nothing behind a zero byte is seen. -/
theorem cstr_append_of_not_nulFree {s : Bytes} (h : ¬ NulFree s) (t : Bytes) :
    cstr (s ++ t) = cstr s := by
  obtain ⟨front, back, rfl, hfront⟩ := List.eq_append_cons_of_mem (not_not.mp h)
  rw [List.append_assoc, cstr_append hfront, cstr_append hfront]
  rfl

theorem cstr_isPrefix (s : Bytes) : cstr s <+: s := List.takeWhile_prefix _

theorem NulFree.of_isInfix {s t : Bytes} (h : NulFree t) (hst : s <:+: t) : NulFree s :=
  fun h0 => h (hst.subset h0)

/-! ### Searches -/

/-- `find(pat)`: where `pat` first occurs. -/
def find (pat : Bytes) : Bytes → Option Nat
  | []     => if pat = [] then some 0 else none
  | c :: s => if pat <+: c :: s then some 0 else (find pat s).map (· + 1)

/-- `find` succeeds exactly on the strings that contain the pattern. -/
theorem find_isSome_iff (pat s : Bytes) : (find pat s).isSome ↔ pat <:+: s := by
  induction s with
  | nil => by_cases h : pat = [] <;> simp [find, h]
  | cons c s ih =>
    rw [List.infix_cons_iff, ← ih]
    by_cases h : pat <+: c :: s <;> simp [find, h]

/-- `find_first_not_of(c)`. -/
def findFirstNotOf (c : Byte) (s : Bytes) : Option Nat := s.findIdx? (· ≠ c)

/-- `find_last_not_of(c)`. -/
def findLastNotOf (c : Byte) (s : Bytes) : Option Nat :=
  (s.reverse.findIdx? (· ≠ c)).map (s.length - 1 - ·)

/-- `find_last_of(c)` for a one-byte set. -/
def findLastOf (c : Byte) (s : Bytes) : Option Nat :=
  (s.reverse.findIdx? (· = c)).map (s.length - 1 - ·)

/-- What follows the last `c`: the whole string when it has none. -/
def afterLast (c : Byte) (s : Bytes) : Bytes := s.rtakeWhile (· ≠ c)

/-- A string is cut at the last of its bytes `c`. -/
theorem exists_last {c : Byte} {s : Bytes} (h : c ∈ s) :
    ∃ front back, s = front ++ c :: back ∧ c ∉ back := by
  obtain ⟨back, front, hs, hback⟩ := List.eq_append_cons_of_mem (List.mem_reverse.mpr h)
  refine ⟨front.reverse, back.reverse, ?_, fun hc => hback (List.mem_reverse.mp hc)⟩
  rw [← List.reverse_inj, hs]
  simp

theorem findLastOf_append_cons {c : Byte} {back : Bytes} (h : c ∉ back) (front : Bytes) :
    findLastOf c (front ++ c :: back) = some front.length := by
  have hnone : back.reverse.findIdx? (· = c) = none := by
    rw [List.findIdx?_eq_none_iff]
    intro x hx
    exact decide_eq_false fun hc => h (hc ▸ List.mem_reverse.mp hx)
  simp [findLastOf, List.findIdx?_append, hnone, List.findIdx?_cons]

theorem findLastOf_eq_none_iff {c : Byte} {s : Bytes} : findLastOf c s = none ↔ c ∉ s := by
  rw [findLastOf, Option.map_eq_none_iff, List.findIdx?_eq_none_iff]
  constructor
  · intro h hc
    simpa using h c (List.mem_reverse.mpr hc)
  · intro h x hx
    exact decide_eq_false fun hc => h (hc ▸ List.mem_reverse.mp hx)

theorem afterLast_append_cons {c : Byte} {back : Bytes} (h : c ∉ back) (front : Bytes) :
    afterLast c (front ++ c :: back) = back := by
  have hkeep : back.reverse.takeWhile (· ≠ c) = back.reverse := by
    rw [List.takeWhile_eq_self_iff]
    intro x hx
    simpa using fun hc : x = c => h (hc ▸ List.mem_reverse.mp hx)
  rw [afterLast, List.rtakeWhile, List.reverse_append, List.reverse_cons, List.append_assoc,
    List.takeWhile_append, hkeep, if_pos rfl, List.singleton_append,
    List.takeWhile_cons_of_neg (by simp), List.append_nil, List.reverse_reverse]

/-- `substr(pos, n)`. -/
def substr (s : Bytes) (pos n : Nat) : Bytes := (s.drop pos).take n

theorem substr_isInfix (s : Bytes) (pos n : Nat) : substr s pos n <:+: s :=
  (List.take_prefix _ _).isInfix.trans (List.drop_suffix _ _).isInfix

/-! ### Splitting -/

/-- The first piece starts where the string does; every piece is a range of the string. -/
theorem splitOnP_pieces {isSep : Byte → Bool} {s first : Bytes} {others : List Bytes}
    (h : s.splitOnP isSep = first :: others) : first <+: s ∧ ∀ l ∈ others, l <:+: s := by
  induction s generalizing first others with
  | nil =>
    rw [List.splitOnP_nil, List.cons.injEq] at h
    simp [← h.1, ← h.2]
  | cons x s ih =>
    obtain ⟨first', others', hs⟩ := List.exists_cons_of_ne_nil (List.splitOnP_ne_nil isSep s)
    obtain ⟨hf, ho⟩ := ih hs
    have grow : ∀ l, l <:+: s → l <:+: x :: s := fun l hl => hl.trans (List.suffix_cons x s).isInfix
    rw [List.splitOnP_cons_eq_if_modifyHead, hs] at h
    by_cases hx : isSep x = true
    · -- a separator: an empty piece, then the pieces of the rest
      rw [if_pos hx, List.cons.injEq] at h
      obtain ⟨rfl, rfl⟩ := h
      refine ⟨List.nil_prefix, List.forall_mem_cons.mpr ⟨grow _ hf.isInfix, ?_⟩⟩
      exact fun l hl => grow l (ho l hl)
    · -- the first piece of the rest grows by `x`
      rw [if_neg hx, List.modifyHead_cons, List.cons.injEq] at h
      obtain ⟨rfl, rfl⟩ := h
      exact ⟨(List.prefix_cons_inj x).mpr hf, fun l hl => grow l (ho l hl)⟩

theorem mem_splitOnP_isInfix {isSep : Byte → Bool} {s l : Bytes} (h : l ∈ s.splitOnP isSep) :
    l <:+: s := by
  obtain ⟨first, others, hs⟩ := List.exists_cons_of_ne_nil (List.splitOnP_ne_nil isSep s)
  obtain ⟨hf, ho⟩ := splitOnP_pieces hs
  rw [hs] at h
  rcases List.mem_cons.mp h with rfl | h
  · exact hf.isInfix
  · exact ho l h

/-! ### Formatting -/

/-- `sprintf` for formats whose only directive is `%s`: each one takes the C-string view of
    the next argument; arguments that are left over are ignored. -/
def sprintf : Bytes → List Bytes → Bytes
  | 37 :: 115 :: format, arg :: args => cstr arg ++ sprintf format args
  | c :: format, args                => c :: sprintf format args
  | [], _                            => []

/-- Text without a percent sign is copied. -/
theorem sprintf_text {text : Bytes} (h : (37 : Byte) ∉ text) (format : Bytes) (args : List Bytes) :
    sprintf (text ++ format) args = text ++ sprintf format args := by
  induction text with
  | nil => rfl
  | cons c text ih =>
    rw [List.mem_cons, not_or] at h
    have hc : sprintf (c :: (text ++ format)) args = c :: sprintf (text ++ format) args := by
      rw [sprintf]
      -- the directive equation does not apply: `c` is no percent sign
      intro _ _ _ _ hc _
      exact absurd hc.symm h.1
    rw [List.cons_append, List.cons_append, hc, ih h.2]

/-- A directive takes the next argument. -/
theorem sprintf_directive (format arg : Bytes) (args : List Bytes) :
    sprintf (ofString "%s" ++ format) (arg :: args) = cstr arg ++ sprintf format args := by
  show sprintf (37 :: 115 :: format) (arg :: args) = _
  rw [sprintf]

example : sprintf (ofString "-u %s -p %s info") [ofString "smx", ofString "pw", ofString "1 2"]
    = ofString "-u smx -p pw info" := by decide

end OsgiManager.Lib
