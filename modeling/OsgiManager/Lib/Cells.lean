import OsgiManager.Lib.Rewrite

namespace OsgiManager.Lib

/-!
# Strings cut at a delimiter

A string is cut at a delimiter `d` into cells without `d`.  A key between two delimiters then
occurs in the string exactly where it is a cell between two others, and replacing such an
occurrence merges the cells beside it with the ends of the replacement.

* `glue` — the string made of some cells; `inner` — the cells between the first and the last;
* `glue_join` — cells on both sides of a cut;
* `delimited_isInfix_glue_iff` — where a delimited key occurs;
* `rewriteBody_glue` — one pass of the rewriting loop, in terms of cells.
-/

/-- The string made of some cells. -/
def glue (d : Byte) (cs : List Bytes) : Bytes := [d].intercalate cs

/-- The cells between the first and the last. -/
def inner {β : Type*} (cs : List β) : List β := cs.tail.dropLast

/-- A key between two delimiters. -/
def delimited (d : Byte) (key : Bytes) : Bytes := d :: (key ++ [d])

/-- The delimiter stands in none of the cells. -/
def AreCells (d : Byte) (cs : List Bytes) : Prop := ∀ c ∈ cs, d ∉ c

section
variable {d : Byte}

@[simp] theorem areCells_nil : AreCells d [] := by simp [AreCells]

@[simp] theorem areCells_cons {c : Bytes} {cs : List Bytes} :
    AreCells d (c :: cs) ↔ d ∉ c ∧ AreCells d cs := by simp [AreCells]

@[simp] theorem areCells_append {as bs : List Bytes} :
    AreCells d (as ++ bs) ↔ AreCells d as ∧ AreCells d bs := by
  simp [AreCells, or_imp, forall_and]

/-! ### Gluing and cutting -/

@[simp] theorem glue_singleton (c : Bytes) : glue d [c] = c := by simp [glue]

theorem glue_cons {c : Bytes} {cs : List Bytes} (h : cs ≠ []) :
    glue d (c :: cs) = c ++ d :: glue d cs := by
  obtain ⟨c', cs, rfl⟩ := List.exists_cons_of_ne_nil h
  simp [glue, List.intercalate_cons_cons]

theorem glue_append {as bs : List Bytes} (ha : as ≠ []) (hb : bs ≠ []) :
    glue d (as ++ bs) = glue d as ++ d :: glue d bs := by
  induction as with
  | nil => exact absurd rfl ha
  | cons a as ih =>
    by_cases has : as = []
    · rw [has, glue_singleton, List.singleton_append, glue_cons hb]
    · rw [List.cons_append, glue_cons (by simp [has]), glue_cons has, ih has]
      simp

/-- **Joining.**  Two strings glued separately join their end cells. -/
theorem glue_join (as bs : List Bytes) (x r : Bytes) :
    glue d (as ++ (x ++ r) :: bs) = glue d (as ++ [x]) ++ glue d (r :: bs) := by
  have hhead : glue d ((x ++ r) :: bs) = x ++ glue d (r :: bs) := by
    by_cases hb : bs = []
    · simp [hb]
    · rw [glue_cons hb, glue_cons hb, List.append_assoc]
  by_cases ha : as = []
  · simpa [ha] using hhead
  · rw [glue_append ha (by simp), glue_append ha (by simp), hhead]
    simp

/-- Cutting the glued string gives the cells back. -/
theorem splitOn_glue {cs : List Bytes} (h : AreCells d cs) (hne : cs ≠ []) :
    (glue d cs).splitOn d = cs := List.splitOn_intercalate d h hne

theorem glue_splitOn (s : Bytes) : glue d (s.splitOn d) = s := List.intercalate_splitOn d

/-- The pieces of a string are cells. -/
theorem areCells_splitOn (s : Bytes) : AreCells d (s.splitOn d) := by
  induction s with
  | nil => simp
  | cons c s ih =>
    obtain ⟨x, xs, hx⟩ := List.exists_cons_of_ne_nil (List.splitOn_ne_nil d s)
    rw [List.splitOn_cons_eq_if_modifyHead]
    rw [hx, areCells_cons] at ih
    rw [hx]
    by_cases hc : c = d
    · rw [if_pos (by simpa using hc)]
      simpa using ih
    · rw [if_neg (by simpa using hc), List.modifyHead_cons, areCells_cons, List.mem_cons, not_or]
      exact ⟨⟨fun h => hc h.symm, ih.1⟩, ih.2⟩

/-- Glued cells have one delimiter less than cells. -/
theorem count_glue {cs : List Bytes} (h : AreCells d cs) :
    (glue d cs).count d = cs.length - 1 := by
  induction cs with
  | nil => rfl
  | cons c cs ih =>
    rw [areCells_cons] at h
    by_cases hcs : cs = []
    · simp [hcs, List.count_eq_zero.mpr h.1]
    · have hpos := List.length_pos_iff.mpr hcs
      rw [glue_cons hcs, List.count_append, List.count_eq_zero.mpr h.1, List.count_cons_self,
        ih h.2, List.length_cons]
      omega

/-! ### Occurrences -/

/-- A string with an inner cell, around that cell. -/
theorem glue_key {as bs : List Bytes} (key : Bytes) (ha : as ≠ []) (hb : bs ≠ []) :
    glue d (as ++ key :: bs) = glue d as ++ (delimited d key ++ glue d bs) := by
  rw [glue_append ha (by simp), glue_cons hb, delimited]
  simp

/-- A cell is an inner one when there are cells on both sides. -/
theorem mem_inner_iff {β : Type*} {cs : List β} {c : β} :
    c ∈ inner cs ↔ ∃ as bs, as ≠ [] ∧ bs ≠ [] ∧ cs = as ++ c :: bs := by
  constructor
  · intro h
    obtain ⟨as, bs, hab⟩ := List.append_of_mem h
    cases cs with
    | nil => simp [inner] at h
    | cons a cs =>
      have hne : cs ≠ [] := by
        intro hnil
        simp [inner, hnil] at h
      have hcs : cs = as ++ c :: (bs ++ [cs.getLast hne]) := by
        rw [inner, List.tail_cons] at hab
        conv_lhs => rw [← List.dropLast_append_getLast hne, hab]
        simp
      exact ⟨a :: as, bs ++ [cs.getLast hne], by simp, by simp, by rw [List.cons_append, ← hcs]⟩
  · rintro ⟨as, bs, ha, hb, rfl⟩
    obtain ⟨a, as, rfl⟩ := List.exists_cons_of_ne_nil ha
    rw [inner, List.cons_append, List.tail_cons,
      List.dropLast_append_of_ne_nil (by simp), List.dropLast_cons_of_ne_nil hb]
    simp

/-- Where the cells of two cuts at the same key must agree. -/
theorem splitOn_append_delimited {key : Bytes} (hk : d ∉ key) (a b : Bytes) :
    (a ++ (delimited d key ++ b)).splitOn d = a.splitOn d ++ key :: b.splitOn d := by
  have hassoc : a ++ (delimited d key ++ b) = a ++ d :: (key ++ d :: b) := by simp [delimited]
  rw [hassoc, List.splitOn_append_cons_self, List.splitOn_append_cons_self_of_not_mem hk]

/-- **Occurrences.**  A delimited key occurs in a string exactly if it is an inner cell. -/
theorem delimited_isInfix_iff {key : Bytes} (hk : d ∉ key) (s : Bytes) :
    delimited d key <:+: s ↔ key ∈ inner (s.splitOn d) := by
  rw [mem_inner_iff]
  constructor
  · rintro ⟨a, b, rfl⟩
    rw [List.append_assoc, splitOn_append_delimited hk]
    exact ⟨_, _, List.splitOn_ne_nil d a, List.splitOn_ne_nil d b, rfl⟩
  · rintro ⟨as, bs, ha, hb, hs⟩
    refine ⟨glue d as, glue d bs, ?_⟩
    rw [List.append_assoc, ← glue_key key ha hb, ← hs, glue_splitOn]

theorem delimited_isInfix_glue_iff {key : Bytes} (hk : d ∉ key) {cs : List Bytes}
    (hcs : AreCells d cs) (hne : cs ≠ []) : delimited d key <:+: glue d cs ↔ key ∈ inner cs := by
  rw [delimited_isInfix_iff hk, splitOn_glue hcs hne]

/-- The first inner cell that is the key is the leftmost occurrence. -/
theorem leftmost_glue {key : Bytes} (hk : d ∉ key) {as bs : List Bytes} (has : AreCells d as)
    (hbs : AreCells d bs) (ha : as ≠ []) (hb : bs ≠ []) (hfirst : key ∉ as.tail) :
    Leftmost (delimited d key) (glue d as) (glue d bs) := by
  intro a' b' hab
  -- cut both decompositions into cells
  have hcells := congrArg (List.splitOn d) hab
  rw [splitOn_append_delimited hk, splitOn_append_delimited hk, splitOn_glue has ha,
    splitOn_glue hbs hb] at hcells
  rcases List.append_eq_append_iff.mp hcells with ⟨x, ha', _⟩ | ⟨x, has', hx⟩
  · -- the other occurrence starts at least as many cells further on
    have hlen : (glue d as).length ≤ (glue d (as ++ x)).length := by
      by_cases hxn : x = []
      · simp [hxn]
      · rw [glue_append ha hxn]
        simp
    rwa [← ha', glue_splitOn] at hlen
  · cases x with
    | nil =>
      rw [List.append_nil] at has'
      rw [has', glue_splitOn]
    | cons c x =>
      -- then the key would be an earlier inner cell
      have hc : c = key := (List.cons.inj hx).1.symm
      obtain ⟨y, ys, hy⟩ := List.exists_cons_of_ne_nil (List.splitOn_ne_nil d a')
      refine absurd ?_ hfirst
      rw [has', hy, hc]
      simp

/-! ### One pass in terms of cells -/

variable {key v : Bytes}

/-- **One pass.**  The leftmost inner cell that is the key goes, and with it the delimiters
    beside it. -/
theorem rewriteBody_glue (hk : d ∉ key) {as bs : List Bytes} {y r : Bytes}
    (hcs : AreCells d (as ++ y :: key :: r :: bs)) (hfirst : key ∉ (as ++ [y]).tail) :
    rewriteBody (delimited d key) v (glue d (as ++ y :: key :: r :: bs)) =
      .inl (glue d (as ++ [y]) ++ (v ++ glue d (r :: bs))) := by
  simp only [areCells_append, areCells_cons] at hcs
  have hcut : as ++ y :: key :: r :: bs = (as ++ [y]) ++ key :: r :: bs := by simp
  rw [hcut, glue_key key (by simp) (by simp)]
  refine rewriteBody_of_leftmost (leftmost_glue hk ?_ ?_ (by simp) (by simp) hfirst)
  · simp [hcs.1, hcs.2.1]
  · simp [hcs.2.2.2.1, hcs.2.2.2.2]

/-- The string after a pass with a value of one cell. -/
theorem glue_insert_cell (as bs : List Bytes) (y r v : Bytes) :
    glue d (as ++ [y]) ++ (v ++ glue d (r :: bs)) = glue d (as ++ (y ++ (v ++ r)) :: bs) := by
  have hv := glue_join (d := d) [] bs v r
  rw [List.nil_append, List.nil_append, glue_singleton] at hv
  rw [glue_join, hv]

/-- The string after a pass with a value of several cells. -/
theorem glue_insert_cells (as bs mids : List Bytes) (y r first last : Bytes) :
    glue d (as ++ [y]) ++ (glue d (first :: (mids ++ [last])) ++ glue d (r :: bs)) =
      glue d (as ++ (y ++ first) :: (mids ++ (last ++ r) :: bs)) := by
  have hv := glue_join (d := d) (first :: mids) bs last r
  rw [List.cons_append, List.cons_append] at hv
  rw [glue_join, hv]

end

end OsgiManager.Lib
