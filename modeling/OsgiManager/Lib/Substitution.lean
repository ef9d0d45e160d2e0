import OsgiManager.Lib.Cells

namespace OsgiManager.Lib

/-!
# Substitution on cells

A substitution gives a value for some keys.  `substFrom f y cs` goes through the cells `cs` that
follow a cell `y` and puts the value of every inner cell that is a key in its place, together
with what stands beside it.

Where every cell beside a key has an element that no key has, the cells a substitution merges
are no keys themselves.  Substitutions for several keys can then be made one after the other
in any order, and the rewriting loop of a key computes its substitution.

* `Foreign`, `Sep` — the separation of keys;
* `substFrom_substFrom` — two substitutions in a row are one;
* `returns_substFrom` — the rewriting loop computes the substitution of its key.
-/

section
variable {α : Type*}

/-- The cells after a left neighbour `y`, with the values of the keys among them filled in. -/
def substFrom (f : List α → Option (List α)) : List α → List (List α) → List (List α)
  | y, key :: r :: rest => match f key with
    -- the value joins the cells on both sides of the key
    | some v => substFrom f (y ++ (v ++ r)) rest
    | none   => y :: substFrom f key (r :: rest)
  | y, [c] => [y, c]
  | y, []  => [y]

/-- The substitution of one key. -/
def only [DecidableEq α] (key v : List α) : List α → Option (List α) := fun x =>
  if x = key then some v else none

/-- A cell with an element that no key has. -/
def Foreign (keys : List (List α)) (x : List α) : Prop := ∃ c ∈ x, ∀ key ∈ keys, c ∉ key

instance [DecidableEq α] (keys : List (List α)) (x : List α) : Decidable (Foreign keys x) :=
  inferInstanceAs (Decidable (∃ c ∈ x, ∀ key ∈ keys, c ∉ key))

/-- The cells beside a key are foreign, as far as they stand between two others.  The flag tells
    whether the first cell, `y`, does. -/
def Sep (keys : List (List α)) : Prop → List α → List (List α) → Prop
  | i, y, key :: r :: rest =>
      (key ∈ keys → (i → Foreign keys y) ∧ (rest ≠ [] → Foreign keys r)) ∧
        Sep keys True key (r :: rest)
  | _, _, _ => True

variable {keys : List (List α)} {f g : List α → Option (List α)}

/-! ### Separated cells -/

theorem Foreign.append {x : List α} (h : Foreign keys x) (a b : List α) :
    Foreign keys (a ++ (x ++ b)) := by
  obtain ⟨c, hc, hkeys⟩ := h
  exact ⟨c, by simp [hc], hkeys⟩

/-- A foreign cell is no key. -/
theorem Foreign.not_mem {x : List α} (h : Foreign keys x) : x ∉ keys := by
  obtain ⟨c, hc, hkeys⟩ := h
  exact fun hx => hkeys x hx hc

/-- A foreign cell has no value. -/
theorem Foreign.eq_none (hf : ∀ x v, f x = some v → x ∈ keys) {x : List α} (h : Foreign keys x) :
    f x = none := by
  rw [Option.eq_none_iff_forall_ne_some]
  exact fun v hv => h.not_mem (hf x v hv)

/-- Filling in one key keeps the cells separated. -/
theorem Sep.merge {i : Prop} {y key r v : List α} {rest : List (List α)} (hkey : key ∈ keys)
    (h : Sep keys i y (key :: r :: rest)) : Sep keys i (y ++ (v ++ r)) rest := by
  match rest, h with
  | [], _ => trivial
  | [_], _ => trivial
  | key' :: r' :: rest, h =>
    obtain ⟨hbeside, _, hkey', htail⟩ := h
    refine ⟨fun hk => ⟨fun _ => ?_, (hkey' hk).2⟩, htail⟩
    -- the old neighbour of the next key is part of the merged cell
    have hr := (hbeside hkey).2 (by simp)
    simpa using hr.append (y ++ v) []

/-! ### Filling in -/

/-- The first cell is not looked at. -/
theorem substFrom_append_left (x y : List α) (cs : List (List α)) :
    substFrom f (x ++ y) cs = (substFrom f y cs).modifyHead (x ++ ·) := by
  induction y, cs using substFrom.induct (f := f) with
  | case1 y key r rest v hf ih => simpa [substFrom, hf] using ih
  | case2 y key r rest hf ih => simp [substFrom, hf]
  | case3 y c => rfl
  | case4 y => rfl

theorem substFrom_ne_nil (y : List α) (cs : List (List α)) : substFrom f y cs ≠ [] := by
  induction y, cs using substFrom.induct (f := f) with
  | case1 y key r rest v hf ih => simpa [substFrom, hf] using ih
  | case2 y key r rest hf ih => simp [substFrom, hf]
  | case3 y c => simp [substFrom]
  | case4 y => simp [substFrom]

/-- Without keys there is nothing to fill in. -/
theorem substFrom_none (y : List α) (cs : List (List α)) :
    substFrom (fun _ => none) y cs = y :: cs := by
  induction y, cs using substFrom.induct (f := fun _ => none) with
  | case1 y key r rest v hf ih => cases hf
  | case2 y key r rest hf ih => rw [substFrom, ih]
  | case3 y c => rfl
  | case4 y => rfl

/-- The first cell only grows. -/
theorem exists_substFrom (y : List α) (cs : List (List α)) :
    ∃ z zs, substFrom f y cs = (y ++ z) :: zs := by
  obtain ⟨z, zs, hz⟩ := List.exists_cons_of_ne_nil (substFrom_ne_nil (f := f) [] cs)
  refine ⟨z, zs, ?_⟩
  have happ := substFrom_append_left (f := f) y [] cs
  rwa [List.append_nil, hz] at happ

/-- Either a cell is left alone, or it becomes foreign. -/
theorem substFrom_cons_cases (hf : ∀ x v, f x = some v → x ∈ keys) {y r : List α}
    {rest : List (List α)} (h : Sep keys True y (r :: rest)) :
    substFrom f y (r :: rest) = y :: substFrom f r rest ∨
      ∃ y' zs, substFrom f y (r :: rest) = y' :: zs ∧ Foreign keys y' := by
  cases rest with
  | nil => exact Or.inl rfl
  | cons r' rest =>
    cases hr : f r with
    | none => exact Or.inl (by simp [substFrom, hr])
    | some v =>
      right
      obtain ⟨z, zs, hz⟩ := exists_substFrom (f := f) (y ++ (v ++ r')) rest
      refine ⟨_, zs, by simpa [substFrom, hr] using hz, ?_⟩
      have hy := (h.1 (hf r v hr)).1 trivial
      simpa using hy.append [] (v ++ (r' ++ z))

/-- What an inner cell without a value becomes has no value. -/
theorem exists_substFrom_of_none (hf : ∀ x v, f x = some v → x ∈ keys)
    (hg : ∀ x v, g x = some v → x ∈ keys) {y r : List α} {rest : List (List α)} (hy : f y = none)
    (h : Sep keys True y (r :: rest)) :
    ∃ t zs, substFrom g y (r :: rest) = t :: zs ∧ f t = none := by
  rcases substFrom_cons_cases hg h with heq | ⟨t, zs, heq, ht⟩
  · exact ⟨y, _, heq, hy⟩
  · exact ⟨t, zs, heq, ht.eq_none hf⟩

/-- Filling in keeps the cells separated. -/
theorem Sep.substFrom (hf : ∀ x v, f x = some v → x ∈ keys) {i : Prop} {y y' : List α}
    {cs cs' : List (List α)} (h : Sep keys i y cs) (hcs : Lib.substFrom f y cs = y' :: cs') :
    Sep keys i y' cs' := by
  induction y, cs using substFrom.induct (f := f) generalizing i y' cs' with
  | case1 y key r rest v hv ih =>
    rw [Lib.substFrom, hv] at hcs
    exact ih (h.merge (hf key v hv)) hcs
  | case2 y key r rest hv ih =>
    rw [Lib.substFrom, hv] at hcs
    obtain ⟨rfl, rfl⟩ := List.cons.inj hcs
    rcases substFrom_cons_cases hf h.2 with heq | ⟨t, zs, heq, ht⟩
    · obtain ⟨z, zs, hz⟩ := exists_substFrom (f := f) r rest
      have htail := ih h.2 (heq.trans (by rw [hz]))
      rw [heq, hz]
      refine ⟨fun hkey => ⟨(h.1 hkey).1, fun hzs => ?_⟩, htail⟩
      -- something follows the merged cell only if something followed the cell
      have hrest : rest ≠ [] := by
        rintro rfl
        rw [Lib.substFrom, List.cons.injEq] at hz
        exact hzs hz.2.symm
      simpa using ((h.1 hkey).2 hrest).append [] z
    · have htail := ih h.2 heq
      rw [heq]
      cases zs with
      | nil => trivial
      | cons r' zs => exact ⟨fun hkey => absurd hkey ht.not_mem, htail⟩
  | case3 y c =>
    rw [Lib.substFrom, List.cons.injEq] at hcs
    obtain ⟨rfl, rfl⟩ := hcs
    trivial
  | case4 y =>
    rw [Lib.substFrom, List.cons.injEq] at hcs
    obtain ⟨rfl, rfl⟩ := hcs
    trivial

/-- **Two in a row.**  A substitution for one key and then one for others are one substitution
    for all of them. -/
theorem substFrom_substFrom (hf : ∀ x v, f x = some v → x ∈ keys)
    (hg : ∀ x v, g x = some v → x ∈ keys) {i : Prop} {y : List α} {cs : List (List α)}
    (h : Sep keys i y cs) {y' : List α} {cs' : List (List α)}
    (hcs : substFrom g y cs = y' :: cs') :
    substFrom f y' cs' = substFrom (fun x => (g x).or (f x)) y cs := by
  induction hn : cs.length using Nat.strong_induction_on generalizing i y cs y' cs' with
  | h n ih =>
    match cs, h, hcs with
    | [], _, hcs =>
      rw [substFrom, List.cons.injEq] at hcs
      obtain ⟨rfl, rfl⟩ := hcs
      rfl
    | [c], _, hcs =>
      rw [substFrom, List.cons.injEq] at hcs
      obtain ⟨rfl, rfl⟩ := hcs
      rfl
    | key :: r :: rest, h, hcs =>
      simp only [List.length_cons] at hn
      rw [substFrom] at hcs
      rw [substFrom]
      cases hgk : g key with
      | some v =>
        -- the first substitution fills the key in
        rw [hgk] at hcs
        exact ih rest.length (by omega) (h.merge (hg key v hgk)) hcs rfl
      | none =>
        rw [hgk] at hcs
        obtain ⟨rfl, rfl⟩ := List.cons.inj hcs
        rw [Option.none_or]
        cases hfk : f key with
        | some w =>
          -- the second one does; what follows the key is foreign, or the last cell
          have hright := (h.1 (hf key w hfk)).2
          obtain ⟨z, zs, hz⟩ := exists_substFrom (f := g) r rest
          have hleft : substFrom g key (r :: rest) = key :: (r ++ z) :: zs := by
            cases rest with
            | nil =>
              rw [substFrom, List.cons.injEq] at hz
              simp [substFrom, hz.2, ← hz.1]
            | cons r' rest =>
              have hgr : g r = none := (hright (by simp)).eq_none hg
              rw [substFrom, hgr, ← hz]
          rw [hleft, substFrom, hfk]
          refine ih rest.length (by omega) (h.merge (hf key w hfk)) ?_ rfl
          rw [← List.append_assoc, substFrom_append_left, hz]
          simp
        | none =>
          obtain ⟨t, zs, heq, ht⟩ := exists_substFrom_of_none hf hg hfk h.2
          have htail := ih (r :: rest).length (by simp; omega) h.2 heq rfl
          rw [heq, ← htail]
          cases zs with
          | nil => simp [substFrom]
          | cons z zs => simp [substFrom, ht]

end

/-! ### The rewriting loop -/

section
variable {d : Byte} {keys : List Bytes} {key v : Bytes}

theorem only_eq_some {x w : Bytes} : only key v x = some w ↔ x = key ∧ w = v := by
  rw [only, Option.ite_none_right_eq_some, Option.some.injEq]
  exact and_congr_right fun _ => eq_comm

/-- Values without the delimiter leave cells without it. -/
theorem areCells_substFrom {f : Bytes → Option Bytes} (hf : ∀ x w, f x = some w → d ∉ w)
    {y : Bytes} {cs : List Bytes} (h : AreCells d (y :: cs)) : AreCells d (substFrom f y cs) := by
  induction y, cs using substFrom.induct (f := f) with
  | case1 y key r rest w hw ih =>
    rw [substFrom, hw]
    simp only [areCells_cons] at h ih
    exact ih (by simp [h, hf key w hw])
  | case2 y key r rest hw ih =>
    rw [substFrom, hw, areCells_cons]
    exact ⟨(areCells_cons.mp h).1, ih (areCells_cons.mp h).2⟩
  | case3 y c => exact h
  | case4 y => exact h

/-- **The loop of a key.**  On separated cells, the rewriting loop of a key computes the
    substitution of that key. -/
theorem returns_substFrom (hd : d ∉ key) (hv : d ∉ v) (hkey : key ∈ keys) {as : List Bytes}
    {y : Bytes} {cs : List Bytes} (hcells : AreCells d (as ++ y :: cs))
    (hfirst : key ∉ (as ++ [y]).tail) (h : Sep keys (as ≠ []) y cs) :
    Loop.Returns (rewriteBody (delimited d key) v) (glue d (as ++ y :: cs))
      (glue d (as ++ substFrom (only key v) y cs)) := by
  induction y, cs using substFrom.induct (f := only key v) generalizing as with
  | case1 y key' r rest w hw ih =>
    obtain ⟨rfl, rfl⟩ := only_eq_some.mp hw
    rw [substFrom, hw, Loop.returns_of_inl (rewriteBody_glue hd hcells hfirst), glue_insert_cell]
    simp only [areCells_append, areCells_cons] at hcells
    refine ih ?_ ?_ (h.merge hkey)
    · simp [hcells, hv]
    · -- the merged cell stands between two others only if its neighbour did
      cases as with
      | nil => simp
      | cons a as =>
        have hy := (((h.1 hkey).1 (by simp)).append [] (w ++ r)).not_mem
        have hne : key' ≠ y ++ (w ++ r) := fun heq => hy (heq ▸ hkey)
        simp only [List.cons_append, List.tail_cons, List.mem_append, List.mem_singleton,
          not_or] at hfirst ⊢
        exact ⟨hfirst.1, hne⟩
  | case2 y key' r rest hw ih =>
    have hne : key ≠ key' := by
      rintro rfl
      simp [only] at hw
    rw [substFrom, hw, ← List.singleton_append, ← List.append_assoc]
    rw [← List.singleton_append (x := y) (l := substFrom _ _ _), ← List.append_assoc]
    refine ih (by simpa using hcells) ?_ ?_
    · rw [List.tail_append_of_ne_nil (by simp), List.mem_append, List.mem_singleton, not_or]
      exact ⟨hfirst, hne⟩
    · simpa using h.2
  | case3 y c =>
    -- the last cell is not looked at
    refine Loop.returns_of_inr (rewriteBody_of_absent ?_)
    rw [delimited_isInfix_glue_iff hd hcells (by simp), inner, ← List.singleton_append,
      ← List.append_assoc, List.tail_append_of_ne_nil (by simp), List.dropLast_concat]
    exact hfirst
  | case4 y =>
    refine Loop.returns_of_inr (rewriteBody_of_absent ?_)
    rw [delimited_isInfix_glue_iff hd hcells (by simp), inner]
    exact fun hmem => hfirst (List.mem_of_mem_dropLast hmem)

end

end OsgiManager.Lib
