import OsgiManager.Lib.Regex

namespace OsgiManager.Lib

/-!
# The first match

Which match a backtracking matcher reports.  `andThen r k c` lists what an expression `r` at a
cursor `c` leads to when `k` goes on from there; the match reported is the head of the list
for the whole expression.

* `andThen_seq`, `andThen_group`, `andThen_lit`, … — what each constructor contributes;
* `head?_andThen_star` — a greedy repetition stops at the last place from which `k` can go on;
* `search_bol` — an anchored expression is only tried at the start of the line.
-/

namespace Regex

/-- What an expression leads to, with `k` for the rest of the expression. -/
def andThen (r : Regex) (k : Cursor → List Cursor) (c : Cursor) : List Cursor :=
  (run r c).flatMap k

variable {k : Cursor → List Cursor} {c c' : Cursor} {p : Byte → Bool}

theorem andThen_singleton (r : Regex) (c : Cursor) : andThen r (fun c => [c]) c = run r c := by
  simp [andThen]

/-! ### The constructors -/

theorem andThen_eps : andThen eps k = k := by
  funext c
  simp [andThen, run]

theorem andThen_seq (r s : Regex) : andThen (seq r s) k = andThen r (andThen s k) := by
  funext c
  rw [andThen, run, List.flatMap_assoc]
  rfl

theorem andThen_group (n : Nat) (r : Regex) : andThen (group n r) k c = andThen r (fun c' => k
    { c' with groups := Function.update c'.groups n (c'.before.drop c.before.length) }) c := by
  rw [andThen, run, List.flatMap_map, andThen]

theorem andThen_set {b : Byte} {rest : Bytes} (hc : c.rest = b :: rest) (hb : p b) :
    andThen (set p) k c = k ⟨c.before ++ [b], rest, c.groups⟩ := by
  simp [andThen, run, hc, hb]

theorem andThen_lit {w rest : Bytes} (hc : c.rest = w ++ rest) :
    andThen (lit w) k c = k ⟨c.before ++ w, rest, c.groups⟩ := by
  induction w generalizing c with
  | nil =>
    rw [List.nil_append] at hc
    rw [show lit [] = eps from rfl, andThen_eps, List.append_nil, ← hc]
  | cons b w ih =>
    rw [show lit (b :: w) = seq (set (· = b)) (lit w) from rfl, andThen_seq,
      andThen_set hc (by simp), ih rfl]
    simp

theorem andThen_eol (hc : c.rest = []) : andThen eol k c = k c := by
  simp [andThen, run, hc]

/-- No match that `k` can go on from. -/
theorem andThen_eq_nil {r : Regex} (h : ∀ c' ∈ run r c, k c' = []) : andThen r k c = [] :=
  List.flatMap_eq_nil_iff.mpr h

/-- A match of a literal consumes the literal. -/
theorem mem_run_lit {w : Bytes} (h : c' ∈ run (lit w) c) :
    c.rest = w ++ c'.rest ∧ c'.before = c.before ++ w := by
  induction w generalizing c with
  | nil => simp [mem_run_eps.mp h]
  | cons b w ih =>
    obtain ⟨c₁, h₁, h₂⟩ := mem_run_seq.mp h
    obtain ⟨b', rest, hrest, hb, rfl⟩ := mem_run_set.mp h₁
    obtain ⟨hr, hbefore⟩ := ih h₂
    have hb' : b' = b := by simpa using hb
    refine ⟨?_, ?_⟩
    · show c.rest = b :: (w ++ c'.rest)
      rw [hrest, hb', ← hr]
    · rw [hbefore, hb']
      simp

/-- A match of a repetition consumes bytes of the class, at least one. -/
theorem mem_run_plus (h : c' ∈ run (plus p) c) :
    ∃ w, w ≠ [] ∧ (∀ b ∈ w, p b) ∧ c.rest = w ++ c'.rest := by
  obtain ⟨c₁, h₁, h₂⟩ := mem_run_seq.mp h
  obtain ⟨b, rest, hrest, hb, rfl⟩ := mem_run_set.mp h₁
  obtain ⟨w, -, hr, -, hw⟩ := mem_run_star h₂
  refine ⟨b :: w, List.cons_ne_nil b w, List.forall_mem_cons.mpr ⟨hb, hw⟩, ?_⟩
  rw [hrest, show rest = w ++ c'.rest from hr]
  rfl

/-- A match of a captured repetition consumes at least one byte. -/
theorem mem_run_group_plus {n : Nat} (h : c' ∈ run (group n (plus p)) c) :
    ∃ b w, c.rest = b :: (w ++ c'.rest) ∧ p b := by
  obtain ⟨c₁, h₁, rfl⟩ := mem_run_group.mp h
  obtain ⟨c₂, h₂, h₃⟩ := mem_run_seq.mp h₁
  obtain ⟨b, rest, hrest, hb, rfl⟩ := mem_run_set.mp h₂
  obtain ⟨w, _, hr, _, _⟩ := mem_run_star h₃
  exact ⟨b, w, by rw [hrest, show rest = w ++ c₁.rest from hr], hb⟩

/-! ### Greedy repetition -/

/-- The stopping points of a repetition that all lead nowhere, but for the first. -/
theorem head?_flatMap_runStar_stop {g : Nat → Bytes} {before u : Bytes}
    (hlong : ∀ x u', x ≠ [] → u = x ++ u' → (∀ b ∈ x, p b) → k ⟨before ++ x, u', g⟩ = []) :
    ((runStar p g before u).flatMap k).head? = (k ⟨before, u, g⟩).head? := by
  cases u with
  | nil => simp [runStar]
  | cons b u =>
    rw [runStar]
    by_cases hb : p b
    · -- every stop further on lies after some bytes of the class
      have hnil : (runStar p g (before ++ [b]) u).flatMap k = [] := by
        refine List.flatMap_eq_nil_iff.mpr fun c hc => ?_
        obtain ⟨w, hbefore, hrest, hgroups, hw⟩ := mem_runStar hc
        have hx := hlong (b :: w) c.rest (by simp) (by rw [hrest]; rfl)
          (List.forall_mem_cons.mpr ⟨hb, hw⟩)
        have hc' : c = ⟨before ++ b :: w, c.rest, g⟩ := by
          rw [← hgroups, show before ++ b :: w = c.before by rw [hbefore]; simp]
        rw [hc']
        exact hx
      rw [if_pos hb, List.flatMap_append, hnil]
      simp
    · rw [if_neg hb]
      simp

/-- **Greedy repetition.**  A repetition stops after `w` if `k` can go on from there, and from
    no place further on. -/
theorem head?_andThen_star {w u : Bytes} (hc : c.rest = w ++ u) (hw : ∀ b ∈ w, p b)
    (hk : (k ⟨c.before ++ w, u, c.groups⟩).head? = some c')
    (hlong : ∀ x u', x ≠ [] → u = x ++ u' → (∀ b ∈ x, p b) →
      k ⟨c.before ++ w ++ x, u', c.groups⟩ = []) :
    (andThen (star p) k c).head? = some c' := by
  obtain ⟨before, rest, g⟩ := c
  subst hc
  show ((runStar p g before (w ++ u)).flatMap k).head? = _
  induction w generalizing before with
  | nil =>
    rw [List.nil_append, head?_flatMap_runStar_stop (by simpa using hlong)]
    simpa using hk
  | cons b w ih =>
    obtain ⟨hb, hw⟩ := List.forall_mem_cons.mp hw
    have hih := ih hw (before ++ [b]) (by simpa using hk) (by simpa using hlong)
    rw [List.cons_append, runStar, if_pos hb, List.flatMap_append, List.head?_append, hih,
      Option.some_or]

/-- A repetition of at least one byte. -/
theorem head?_andThen_plus {w u : Bytes} (hc : c.rest = w ++ u) (hne : w ≠ [])
    (hw : ∀ b ∈ w, p b) (hk : (k ⟨c.before ++ w, u, c.groups⟩).head? = some c')
    (hlong : ∀ x u', x ≠ [] → u = x ++ u' → (∀ b ∈ x, p b) →
      k ⟨c.before ++ w ++ x, u', c.groups⟩ = []) :
    (andThen (plus p) k c).head? = some c' := by
  obtain ⟨b, w, rfl⟩ := List.exists_cons_of_ne_nil hne
  obtain ⟨hb, hw⟩ := List.forall_mem_cons.mp hw
  rw [plus, andThen_seq, andThen_set hc hb]
  exact head?_andThen_star rfl hw (by simpa using hk) (by simpa using hlong)

/-- A repetition over all bytes of its class stops where another byte follows. -/
theorem no_longer_stop {b : Byte} {u : Bytes} (hb : ¬ p b) {P : Bytes → Bytes → Prop} (x u' : Bytes)
    (hne : x ≠ []) (hx : b :: u = x ++ u') (hp : ∀ b ∈ x, p b) : P x u' := by
  obtain ⟨b', x, rfl⟩ := List.exists_cons_of_ne_nil hne
  rw [List.cons_append, List.cons.injEq] at hx
  exact absurd (hx.1 ▸ hp b' (by simp)) hb

/-- **Columns.**  A captured repetition takes all bytes of its class. -/
theorem head?_andThen_column {n : Nat} {w u : Bytes} {b : Byte} (hc : c.rest = w ++ b :: u)
    (hne : w ≠ []) (hw : ∀ b ∈ w, p b) (hb : ¬ p b)
    (hk : (k ⟨c.before ++ w, b :: u, Function.update c.groups n w⟩).head? = some c') :
    (andThen (group n (plus p)) k c).head? = some c' := by
  rw [andThen_group]
  refine head?_andThen_plus hc hne hw ?_ (no_longer_stop hb)
  simpa using hk

/-! ### Anchored expressions -/

/-- An expression anchored at the start of the line is tried only there. -/
theorem search_bol (r : Regex) (line : Bytes) :
    search (seq bol r) line = (run r (start line 0)).head?.map (·.groups) := by
  have hrun : ∀ i, run (seq bol r) (start line i) =
      if line.take i = [] then run r (start line i) else [] := by
    intro i
    show (run bol (start line i)).flatMap (run r) = _
    rw [run]
    by_cases h : line.take i = []
    · rw [if_pos (show (start line i).before = [] from h), if_pos h]
      simp
    · rw [if_neg (show ¬ (start line i).before = [] from h), if_neg h]
      rfl
  rw [search, List.range_succ_eq_map, List.findSome?_cons, hrun 0, if_pos (by simp)]
  cases (run r (start line 0)).head? with
  | some c => rfl
  | none =>
    refine List.findSome?_eq_none_iff.mpr fun i hi => ?_
    obtain ⟨j, hj, rfl⟩ := List.mem_map.mp hi
    have hj' : j < line.length := List.mem_range.mp hj
    have hne : line.take (j + 1) ≠ [] := by
      rw [Ne, List.take_eq_nil_iff, not_or]
      exact ⟨by omega, List.ne_nil_of_length_pos (by omega)⟩
    rw [hrun, if_neg hne]
    rfl

end Regex

end OsgiManager.Lib
