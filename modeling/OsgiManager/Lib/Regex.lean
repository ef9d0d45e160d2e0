import OsgiManager.Lib.Bytes

namespace OsgiManager.Lib

/-!
# Regular expressions with ECMAScript matching

The fragment of regular expressions the development needs, with the backtracking semantics
of ECMAScript: `Regex.run r c` lists the ways `r` can match at a cursor `c`, in the order
in which a backtracking matcher tries them, so its head is the match ECMAScript reports.
A repetition is greedy and ranges over a byte class.

* `Matcher` — a compiled expression as a program sees it: a search with numbered groups,
  each of them a range of the searched line;
* `Regex.run`, `Regex.search`, `Regex.matcher` — the semantics;
* `Regex.Over`, `Regex.GroupOver` — a static check of the bytes an expression, or one of
  its groups, can take in, with its soundness `groupOver_search`.
-/

/-- A compiled regular expression: `search` reports the groups of the first match in a line.
    A group that took no part in the match reads as the empty string. -/
structure Matcher where
  search : Bytes → Option (Nat → Bytes)
  range : ∀ {line groups}, search line = some groups → ∀ i, groups i <:+: line

/-- Regular expressions: byte classes, greedy repetition of a class, sequence, numbered
    groups and the two anchors. -/
inductive Regex where
  | eps
  | set (p : Byte → Bool)
  | star (p : Byte → Bool)
  | seq (r s : Regex)
  | group (n : Nat) (r : Regex)
  | bol
  | eol

namespace Regex

/-- One or more bytes of a class, greedy. -/
def plus (p : Byte → Bool) : Regex := seq (set p) (star p)

/-- A literal string. -/
def lit (s : Bytes) : Regex := s.foldr (fun c r => seq (set (· = c)) r) eps

/-- Expressions in sequence. -/
def seqs (rs : List Regex) : Regex := rs.foldr seq eps

/-- A position in the subject: what lies before it, what is left, and the groups so far. -/
structure Cursor where
  before : Bytes
  rest : Bytes
  groups : Nat → Bytes

/-- The stopping points of a greedy repetition, the longest first. -/
def runStar (p : Byte → Bool) (groups : Nat → Bytes) : Bytes → Bytes → List Cursor
  | before, []        => [⟨before, [], groups⟩]
  | before, b :: rest =>
      if p b then runStar p groups (before ++ [b]) rest ++ [⟨before, b :: rest, groups⟩]
      else [⟨before, b :: rest, groups⟩]

/-- The matches of an expression at a cursor, in the order of a backtracking matcher. -/
def run : Regex → Cursor → List Cursor
  | eps, c       => [c]
  | set p, c     => match c.rest with
    | b :: rest => if p b then [⟨c.before ++ [b], rest, c.groups⟩] else []
    | []        => []
  | star p, c    => runStar p c.groups c.before c.rest
  | seq r s, c   => (run r c).flatMap (run s)
  | group n r, c => (run r c).map fun c' =>
      { c' with groups := Function.update c'.groups n (c'.before.drop c.before.length) }
  | bol, c       => if c.before = [] then [c] else []
  | eol, c       => if c.rest = [] then [c] else []

/-- The cursor at offset `i` of a line, with no group set. -/
def start (line : Bytes) (i : Nat) : Cursor := ⟨line.take i, line.drop i, fun _ => []⟩

/-- `regex_search`: the first match, by start position and then by priority. -/
def search (r : Regex) (line : Bytes) : Option (Nat → Bytes) :=
  (List.range (line.length + 1)).findSome? fun i => (run r (start line i)).head?.map (·.groups)

/-! ### Matches of each constructor -/

@[simp] theorem mem_run_eps {c c' : Cursor} : c' ∈ run eps c ↔ c' = c := List.mem_singleton

theorem mem_run_set {p : Byte → Bool} {c c' : Cursor} : c' ∈ run (set p) c ↔
    ∃ b rest, c.rest = b :: rest ∧ p b ∧ c' = ⟨c.before ++ [b], rest, c.groups⟩ := by
  rw [run]
  cases hc : c.rest with
  | nil => simp
  | cons b rest => by_cases hb : p b <;> simp [hb]

theorem mem_run_seq {r s : Regex} {c c' : Cursor} :
    c' ∈ run (seq r s) c ↔ ∃ c₁ ∈ run r c, c' ∈ run s c₁ := List.mem_flatMap

theorem mem_run_group {n : Nat} {r : Regex} {c c' : Cursor} : c' ∈ run (group n r) c ↔
    ∃ c₁ ∈ run r c, c' = { c₁ with
      groups := Function.update c₁.groups n (c₁.before.drop c.before.length) } := by
  simp only [run, List.mem_map, eq_comm]

@[simp] theorem mem_run_bol {c c' : Cursor} : c' ∈ run bol c ↔ c.before = [] ∧ c' = c := by
  by_cases h : c.before = [] <;> simp [run, h]

@[simp] theorem mem_run_eol {c c' : Cursor} : c' ∈ run eol c ↔ c.rest = [] ∧ c' = c := by
  by_cases h : c.rest = [] <;> simp [run, h]

theorem mem_runStar {p : Byte → Bool} {g : Nat → Bytes} {before rest : Bytes} {c : Cursor}
    (h : c ∈ runStar p g before rest) :
    ∃ w, c.before = before ++ w ∧ rest = w ++ c.rest ∧ c.groups = g ∧ ∀ b ∈ w, p b := by
  induction rest generalizing before with
  | nil =>
    rw [runStar, List.mem_singleton] at h
    subst h
    exact ⟨[], by simp⟩
  | cons b rest ih =>
    rw [runStar] at h
    -- stopping here is the last choice, and the only one at a byte of another class
    have stop : c = ⟨before, b :: rest, g⟩ →
        ∃ w, c.before = before ++ w ∧ b :: rest = w ++ c.rest ∧ c.groups = g ∧ ∀ b ∈ w, p b := by
      rintro rfl
      exact ⟨[], by simp⟩
    by_cases hb : p b
    · rw [if_pos hb, List.mem_append, List.mem_singleton] at h
      rcases h with h | h
      · obtain ⟨w, hw, hr, hg, hp⟩ := ih h
        refine ⟨b :: w, by simp [hw], by simp [hr], hg, ?_⟩
        intro x hx
        rcases List.mem_cons.mp hx with rfl | hx
        · exact hb
        · exact hp x hx
      · exact stop h
    · rw [if_neg hb, List.mem_singleton] at h
      exact stop h

theorem mem_run_star {p : Byte → Bool} {c c' : Cursor} (h : c' ∈ run (star p) c) :
    ∃ w, c'.before = c.before ++ w ∧ c.rest = w ++ c'.rest ∧ c'.groups = c.groups ∧
      ∀ b ∈ w, p b := mem_runStar h

/-! ### What a match consumes and captures -/

/-- A match moves the cursor over some bytes `w` of the subject. -/
theorem run_consumes {r : Regex} {c c' : Cursor} (h : c' ∈ run r c) :
    ∃ w, c'.before = c.before ++ w ∧ c.rest = w ++ c'.rest := by
  induction r generalizing c c' with
  | eps => exact ⟨[], by simp [mem_run_eps.mp h]⟩
  | set p =>
    obtain ⟨b, rest, hrest, _, rfl⟩ := mem_run_set.mp h
    exact ⟨[b], rfl, hrest⟩
  | star p =>
    obtain ⟨w, hw, hr, _, _⟩ := mem_run_star h
    exact ⟨w, hw, hr⟩
  | seq r s ihr ihs =>
    obtain ⟨c₁, h₁, h₂⟩ := mem_run_seq.mp h
    obtain ⟨w₁, hb₁, hr₁⟩ := ihr h₁
    obtain ⟨w₂, hb₂, hr₂⟩ := ihs h₂
    exact ⟨w₁ ++ w₂, by simp [hb₂, hb₁], by simp [hr₁, hr₂]⟩
  | group n r ih =>
    obtain ⟨c₁, h₁, rfl⟩ := mem_run_group.mp h
    obtain ⟨w, hw, hr⟩ := ih h₁
    exact ⟨w, hw, hr⟩
  | bol => exact ⟨[], by simp [(mem_run_bol.mp h).2]⟩
  | eol => exact ⟨[], by simp [(mem_run_eol.mp h).2]⟩

/-- A group set by a match is a range of the subject. -/
theorem run_groups_range {r : Regex} {c c' : Cursor} {line : Bytes}
    (hline : c.before ++ c.rest = line) (hg : ∀ i, c.groups i <:+: line) (h : c' ∈ run r c) :
    ∀ i, c'.groups i <:+: line := by
  induction r generalizing c c' with
  | eps => exact mem_run_eps.mp h ▸ hg
  | set p =>
    obtain ⟨b, rest, _, _, rfl⟩ := mem_run_set.mp h
    exact hg
  | star p =>
    obtain ⟨_, _, _, hgr, _⟩ := mem_run_star h
    exact hgr ▸ hg
  | seq r s ihr ihs =>
    obtain ⟨c₁, h₁, h₂⟩ := mem_run_seq.mp h
    obtain ⟨w, hb, hr⟩ := run_consumes h₁
    exact ihs (by rw [hb, List.append_assoc, ← hr, hline]) (ihr hline hg h₁) h₂
  | group n r ih =>
    obtain ⟨c₁, h₁, rfl⟩ := mem_run_group.mp h
    obtain ⟨w, hb, hr⟩ := run_consumes h₁
    intro i
    by_cases hi : i = n
    · -- the group just set is what the cursor has moved over
      subst hi
      simp only [Function.update_self, hb, List.drop_left]
      exact ⟨c.before, c₁.rest, by rw [List.append_assoc, ← hr, hline]⟩
    · simp only [Function.update_of_ne hi]
      exact ih hline hg h₁ i
  | bol => exact (mem_run_bol.mp h).2 ▸ hg
  | eol => exact (mem_run_eol.mp h).2 ▸ hg

/-- Every match `search` reports is one that `run` lists at some start position. -/
theorem exists_run_of_search {r : Regex} {line : Bytes} {groups : Nat → Bytes}
    (h : r.search line = some groups) : ∃ i, ∃ c ∈ run r (start line i), c.groups = groups := by
  obtain ⟨i, _, hi⟩ := List.exists_of_findSome?_eq_some h
  obtain ⟨c, hc, rfl⟩ := Option.map_eq_some_iff.mp hi
  exact ⟨i, c, List.mem_of_mem_head? hc, rfl⟩

/-- An expression as a compiled matcher. -/
def matcher (r : Regex) : Matcher where
  search := r.search
  range := by
    intro line groups h
    obtain ⟨i, c, hc, rfl⟩ := exists_run_of_search h
    exact run_groups_range (List.take_append_drop i line) (fun _ => List.nil_infix) hc

/-! ### The bytes a group can take in -/

/-- Every byte the expression can consume satisfies `P`. -/
def Over (P : Byte → Prop) : Regex → Prop
  | set p | star p => ∀ b, p b → P b
  | seq r s        => Over P r ∧ Over P s
  | group _ r      => Over P r
  | eps | bol | eol => True

/-- Every byte that group `n` can capture satisfies `P`. -/
def GroupOver (n : Nat) (P : Byte → Prop) : Regex → Prop
  | seq r s   => GroupOver n P r ∧ GroupOver n P s
  | group m r => (m = n → Over P r) ∧ GroupOver n P r
  | _         => True

theorem run_over {P : Byte → Prop} {r : Regex} (hr : Over P r) {c c' : Cursor}
    (h : c' ∈ run r c) : ∀ b ∈ c'.before.drop c.before.length, P b := by
  induction r generalizing c c' with
  | eps => simp [mem_run_eps.mp h]
  | set p =>
    obtain ⟨b, rest, _, hb, rfl⟩ := mem_run_set.mp h
    simpa using hr b hb
  | star p =>
    obtain ⟨w, hw, _, _, hp⟩ := mem_run_star h
    rw [hw, List.drop_left]
    exact fun b hb => hr b (hp b hb)
  | seq r s ihr ihs =>
    obtain ⟨c₁, h₁, h₂⟩ := mem_run_seq.mp h
    obtain ⟨w₁, hb₁, _⟩ := run_consumes h₁
    obtain ⟨w₂, hb₂, _⟩ := run_consumes h₂
    have i₁ := ihr hr.1 h₁
    have i₂ := ihs hr.2 h₂
    rw [hb₁, List.drop_left] at i₁
    rw [hb₂, List.drop_left] at i₂
    rw [hb₂, hb₁, List.append_assoc, List.drop_left]
    intro b hb
    exact (List.mem_append.mp hb).elim (i₁ b) (i₂ b)
  | group n r ih =>
    obtain ⟨c₁, h₁, rfl⟩ := mem_run_group.mp h
    have i₁ := ih hr h₁
    exact i₁
  | bol => simp [(mem_run_bol.mp h).2]
  | eol => simp [(mem_run_eol.mp h).2]

theorem run_groupOver {n : Nat} {P : Byte → Prop} {r : Regex} (hr : GroupOver n P r)
    {c c' : Cursor} (hc : ∀ b ∈ c.groups n, P b) (h : c' ∈ run r c) :
    ∀ b ∈ c'.groups n, P b := by
  induction r generalizing c c' with
  | eps => exact mem_run_eps.mp h ▸ hc
  | set p =>
    obtain ⟨b, rest, _, _, rfl⟩ := mem_run_set.mp h
    exact hc
  | star p =>
    obtain ⟨_, _, _, hg, _⟩ := mem_run_star h
    exact hg ▸ hc
  | seq r s ihr ihs =>
    obtain ⟨c₁, h₁, h₂⟩ := mem_run_seq.mp h
    exact ihs hr.2 (ihr hr.1 hc h₁) h₂
  | group m r ih =>
    obtain ⟨c₁, h₁, rfl⟩ := mem_run_group.mp h
    by_cases hm : n = m
    · -- this is the group: the check bounds all it consumes
      subst hm
      simpa only [Function.update_self] using run_over (hr.1 rfl) h₁
    · simpa only [Function.update_of_ne hm] using ih hr.2 hc h₁
  | bol => exact (mem_run_bol.mp h).2 ▸ hc
  | eol => exact (mem_run_eol.mp h).2 ▸ hc

/-- **Soundness of the group check.**  In every match the search reports, the group holds
    only bytes the check allows. -/
theorem groupOver_search {n : Nat} {P : Byte → Prop} {r : Regex} (hr : GroupOver n P r)
    {line : Bytes} {groups : Nat → Bytes} (h : r.search line = some groups) :
    ∀ b ∈ groups n, P b := by
  obtain ⟨i, c, hc, rfl⟩ := exists_run_of_search h
  exact run_groupOver hr (by simp [start]) hc

end Regex

end OsgiManager.Lib
