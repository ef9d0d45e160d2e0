import OsgiManager.Lib.Cells

namespace OsgiManager.Lib

/-!
# A rewriting rule on cells

A rule takes a key cell that stands between two others out of a list of cells and puts the
cells of a value in: the first one joins the cell on the left, the last one the cell on the
right, and the middle ones become cells of their own.  The rule is applied to the leftmost key
for as long as there is one.

The loop can only go on for ever if the value renews the key on both sides.  If it does, what
decides is whether two keys ever meet.

* `CellRule.Halts` — the loop ends;
* `CellRule.Settles` — what a cell turns into once all cells up to it are settled;
* `halts_of_last`, `halts_of_first` — the loop ends if one side is not renewed;
* `CellRule.reacts`, `halts_iff_reacts` — if both are, it ends exactly if the cells do not react.
-/

/-- A key, and the cells of the value that replaces it. -/
structure CellRule (α : Type*) where
  key : List α
  first : List α
  mids : List (List α)
  last : List α

namespace CellRule

variable {α : Type*} [DecidableEq α] (R : CellRule α)

/-- The cells of the value between the neighbours `y` and `r` of the key. -/
def fire (y r : List α) (rest : List (List α)) : List (List α) :=
  (y ++ R.first) :: (R.mids ++ (R.last ++ r) :: rest)

/-- One pass: the leftmost key between two cells is replaced. -/
def step : List (List α) → Option (List (List α))
  | y :: c :: r :: rest =>
      if c = R.key then some (R.fire y r rest) else (step (c :: r :: rest)).map (y :: ·)
  | _ => none

/-- The body of the loop. -/
def body (cs : List (List α)) : List (List α) ⊕ List (List α) :=
  match R.step cs with
  | some cs' => .inl cs'
  | none     => .inr cs

/-- The loop ends. -/
def Halts (cs : List (List α)) : Prop := ∃ r, Loop.Returns R.body cs r

/-! ### One pass -/

variable {R}

/-- The pass replaces the first key that has a cell before it. -/
theorem step_of_first {as bs : List (List α)} {y r : List α} (h : R.key ∉ (as ++ [y]).tail) :
    R.step (as ++ y :: R.key :: r :: bs) = some (as ++ R.fire y r bs) := by
  induction as with
  | nil => rw [List.nil_append, step, if_pos rfl, List.nil_append]
  | cons a as ih =>
    rw [List.cons_append, List.tail_cons] at h
    -- the second cell is not the key
    obtain ⟨c, cs, hcs⟩ := List.exists_cons_of_ne_nil (show as ++ [y] ≠ [] by simp)
    have hc : c ≠ R.key := fun heq => h (by rw [hcs, heq]; simp)
    have hrest : R.key ∉ (as ++ [y]).tail := fun hmem => h (List.mem_of_mem_tail hmem)
    have hih := ih hrest
    have happ : as ++ y :: R.key :: r :: bs = c :: (cs ++ R.key :: r :: bs) := by
      rw [← List.cons_append, ← hcs, List.append_assoc]
      rfl
    obtain ⟨c', cs', hcs'⟩ := List.exists_cons_of_ne_nil (show cs ++ R.key :: r :: bs ≠ [] by simp)
    rw [List.cons_append, happ, hcs', step, if_neg hc, ← hcs', ← happ, hih]
    rfl

/-- Without a key between two cells, there is nothing to replace. -/
theorem step_eq_none {cs : List (List α)} (h : R.key ∉ inner cs) : R.step cs = none := by
  induction cs with
  | nil => rfl
  | cons y cs ih =>
    rcases cs with _ | ⟨c, _ | ⟨r, rest⟩⟩
    · rfl
    · rfl
    · rw [inner, List.tail_cons, List.dropLast_cons_of_ne_nil (by simp), List.mem_cons,
        not_or] at h
      rw [step, if_neg (Ne.symm h.1), ih h.2]
      rfl

theorem halts_of_absent {cs : List (List α)} (h : R.key ∉ inner cs) : R.Halts cs :=
  ⟨cs, Loop.returns_of_inr (by rw [body, step_eq_none h])⟩

theorem body_of_first {as bs : List (List α)} {y r : List α} (h : R.key ∉ (as ++ [y]).tail) :
    R.body (as ++ y :: R.key :: r :: bs) = .inl (as ++ R.fire y r bs) := by
  rw [body, step_of_first h]

/-- A pass does not change whether the loop ends. -/
theorem halts_fire_iff {as bs : List (List α)} {y r : List α} (h : R.key ∉ (as ++ [y]).tail) :
    R.Halts (as ++ y :: R.key :: r :: bs) ↔ R.Halts (as ++ R.fire y r bs) :=
  exists_congr fun _ => Loop.returns_of_inl (body_of_first h)

/-! ### Settled cells

The cells before the current one are kept as a stack: `t` is the first cell of all, which is
never replaced, and `W` holds those after it, the last one on top. -/

variable (R) in
/-- Once the key has been replaced as often as the cell `x` on the stack `W` calls for, the
    stack is `W'`, and `e` is what is left to join the next cell. -/
def Settles (t : List α) (W : List (List α)) (x : List α) (t' : List α) (W' : List (List α))
    (e : List α) : Prop :=
  ∀ r rest, R.Halts (t' :: (W'.reverse ++ (e ++ r) :: rest)) →
    R.Halts (t :: (W.reverse ++ x :: r :: rest))

variable (R) in
/-- The same for the cells `cs` one after the other, the first of them joined by `e`. -/
def SettlesAll (t : List α) (W : List (List α)) (e : List α) (cs : List (List α)) (t' : List α)
    (W' : List (List α)) (e' : List α) : Prop :=
  ∀ r rest, R.Halts (t' :: (W'.reverse ++ (e' ++ r) :: rest)) →
    R.Halts (t :: (W.reverse ++ (cs ++ r :: rest).modifyHead (e ++ ·)))

section
variable {t t' t'' x y e e' e'' c : List α} {W W' W'' cs : List (List α)}

/-- On a stack without keys, the loop ends at the last cell. -/
theorem halts_of_stack (hW : R.key ∉ W) : R.Halts (t :: (W.reverse ++ [x])) := by
  refine halts_of_absent fun hmem => hW ?_
  rwa [inner, List.tail_cons, List.dropLast_concat, List.mem_reverse] at hmem

theorem settlesAll_nil : R.SettlesAll t W e [] t W e := fun _ _ h => h

theorem SettlesAll.cons (h : R.Settles t W (e ++ c) t' W' e')
    (hcs : R.SettlesAll t' W' e' cs t'' W'' e'') : R.SettlesAll t W e (c :: cs) t'' W'' e'' := by
  intro r rest hhalts
  have htail := hcs r rest hhalts
  obtain ⟨r', rest', hr'⟩ := List.exists_cons_of_ne_nil (show cs ++ r :: rest ≠ [] by simp)
  rw [hr', List.modifyHead_cons] at htail
  rw [List.cons_append, hr', List.modifyHead_cons]
  exact h r' rest' htail

/-- Cells can be put on the stack as they are. -/
theorem settlesAll_keep (t e c : List α) (W cs : List (List α)) :
    R.SettlesAll t W e (c :: cs) t (cs.reverse ++ (e ++ c) :: W) [] := by
  intro r rest hhalts
  simpa using hhalts

/-- A key on the first cell is replaced once. -/
theorem settles_bottom (t : List α) :
    R.Settles t [] R.key (t ++ R.first) R.mids.reverse R.last := by
  intro r rest hhalts
  have hfire : R.Halts ([] ++ t :: R.key :: r :: rest) ↔ R.Halts ([] ++ R.fire t r rest) :=
    halts_fire_iff (by simp)
  rw [List.nil_append, List.nil_append] at hfire
  refine hfire.mpr ?_
  rwa [List.reverse_reverse] at hhalts

/-- A key on a stack is replaced, and then the cells of the value are settled. -/
theorem settles_fire (hW : R.key ∉ y :: W)
    (h : R.SettlesAll t W [] ((y ++ R.first) :: R.mids) t' W' e) :
    R.Settles t (y :: W) R.key t' W' (e ++ R.last) := by
  intro r rest hhalts
  have hfirst : R.key ∉ ((t :: W.reverse) ++ [y]).tail := by
    simpa [or_comm] using hW
  have htext : t :: ((y :: W).reverse ++ R.key :: r :: rest) =
      (t :: W.reverse) ++ y :: R.key :: r :: rest := by simp
  rw [htext, halts_fire_iff hfirst]
  have hall := h (R.last ++ r) rest (by rwa [← List.append_assoc])
  simpa [fire] using hall

/-- **Settling all.**  If every key on a stack without keys can be settled, the loop ends. -/
theorem halts_of_settles (hsettles : ∀ (t : List α) (W : List (List α)), R.key ∉ W →
      ∃ t' W' e, R.key ∉ W' ∧ R.Settles t W R.key t' W' e) (cs : List (List α)) : R.Halts cs := by
  have hall : ∀ (cs : List (List α)) (t x : List α) (W : List (List α)), R.key ∉ W →
      R.Halts (t :: (W.reverse ++ x :: cs)) := by
    intro cs
    induction cs with
    | nil =>
      intro t x W hW
      exact halts_of_stack hW
    | cons r cs ih =>
      intro t x W hW
      by_cases hx : x = R.key
      · obtain ⟨t', W', e, hW', hs⟩ := hsettles t W hW
        rw [hx]
        exact hs r cs (ih t' (e ++ r) W' hW')
      · -- another cell goes on the stack
        have hW' : R.key ∉ x :: W := List.not_mem_cons_of_ne_of_not_mem (Ne.symm hx) hW
        simpa using ih t r (x :: W) hW'
  rcases cs with _ | ⟨t, _ | ⟨x, cs⟩⟩
  · exact halts_of_absent (by simp [inner])
  · exact halts_of_absent (by simp [inner])
  · simpa using hall cs t x [] (by simp)

end

/-! ### A value that renews one side only -/

/-- **The right side is not renewed.**  The loop ends if the last cell of the value does not
    make a key of its second cell. -/
theorem halts_of_last {b : List α} {mids : List (List α)} (hmids : R.mids = b :: mids)
    (hkey : R.key ∉ R.mids) (hlast : R.last ++ b ≠ R.key) (cs : List (List α)) : R.Halts cs := by
  have hsettles : ∀ (W : List (List α)) (t : List α), R.key ∉ W →
      ∃ t' W', R.key ∉ W' ∧ R.Settles t W R.key t' W' R.last := by
    intro W
    induction W with
    | nil =>
      intro t _
      exact ⟨t ++ R.first, R.mids.reverse, by simpa using hkey, settles_bottom t⟩
    | cons y W ih =>
      intro t hW
      obtain ⟨hy, hW'⟩ := not_or.mp (mt List.mem_cons.mpr hW)
      by_cases hfire : y ++ R.first = R.key
      · -- the left neighbour becomes a key; its turn leaves the last cell of the value
        obtain ⟨t₁, W₁, hW₁, hs⟩ := ih t hW'
        refine ⟨t₁, mids.reverse ++ (R.last ++ b) :: W₁, ?_, ?_⟩
        · rw [hmids, List.mem_cons, not_or] at hkey
          simp [hkey.2, Ne.symm hlast, hW₁]
        · refine settles_fire (e := []) hW (SettlesAll.cons (by rwa [hfire]) ?_)
          rw [hmids]
          exact settlesAll_keep t₁ R.last b W₁ mids
      · refine ⟨t, R.mids.reverse ++ (y ++ R.first) :: W, ?_, ?_⟩
        · simp [hkey, Ne.symm hfire, hW']
        · exact settles_fire (e := []) hW (settlesAll_keep t [] (y ++ R.first) W R.mids)
  refine halts_of_settles (fun t W hW => ?_) cs
  obtain ⟨t', W', hW', hs⟩ := hsettles W t hW
  exact ⟨t', W', R.last, hW', hs⟩

variable (R) in
/-- The first cell of the value makes a key of the cell. -/
def live (y : List α) : Bool := y ++ R.first = R.key

variable (R) in
/-- How many cells from the top of a stack the first cell of the value would make keys of. -/
def lives (W : List (List α)) : Nat := (W.takeWhile R.live).length

theorem lives_cons_of_live {y : List α} (hy : R.live y) (W : List (List α)) :
    R.lives (y :: W) = R.lives W + 1 := by
  rw [lives, List.takeWhile_cons_of_pos hy, List.length_cons, lives]

theorem lives_cons_of_not_live {y : List α} (hy : ¬ R.live y) (W : List (List α)) :
    R.lives (y :: W) = 0 := by
  rw [lives, List.takeWhile_cons_of_neg hy, List.length_nil]

theorem lives_cons_le (y : List α) (W : List (List α)) : R.lives (y :: W) ≤ R.lives W + 1 := by
  by_cases hy : R.live y
  · exact (lives_cons_of_live hy W).le
  · rw [lives_cons_of_not_live hy]
    omega

/-- On top of cells the last of which is not live, no cell is live. -/
theorem lives_reverse_append {cs W : List (List α)} (hne : cs ≠ [])
    (hlast : ∀ b ∈ cs.getLast?, ¬ R.live b) : R.lives (cs.reverse ++ W) = 0 := by
  obtain ⟨cs, b, rfl⟩ := List.eq_nil_or_concat cs |>.resolve_left hne
  rw [List.concat_eq_append] at hlast ⊢
  rw [List.reverse_append, List.reverse_singleton, List.singleton_append, List.cons_append]
  exact lives_cons_of_not_live (hlast b (by simp)) _

/-- Settling the middle cells of the value raises the number of live cells by one at most. -/
theorem exists_settlesAll_mids {n : Nat}
    (hsettles : ∀ (t : List α) (W : List (List α)), R.key ∉ W → R.lives W ≤ n →
      ∃ t' W' e, R.key ∉ W' ∧ R.lives W' ≤ n ∧ R.Settles t W R.key t' W' e)
    {cs : List (List α)} (hkey : R.key ∉ cs) (hlast : ∀ b ∈ cs.getLast?, ¬ R.live b) (t e : List α)
    {W : List (List α)} (hW : R.key ∉ W) (hn : R.lives W ≤ n) :
    ∃ t' W' e', R.key ∉ W' ∧ R.lives W' ≤ n + 1 ∧ R.SettlesAll t W e cs t' W' e' := by
  induction cs generalizing t e W with
  | nil => exact ⟨t, W, e, hW, by omega, settlesAll_nil⟩
  | cons c cs ih =>
    rw [List.mem_cons, not_or] at hkey
    have hlast' : ∀ b ∈ cs.getLast?, ¬ R.live b := by
      intro b hb
      refine hlast b ?_
      rw [List.getLast?_cons, Option.mem_def.mp hb]
      rfl
    by_cases hc : e ++ c = R.key
    · obtain ⟨t₁, W₁, e₁, hW₁, hn₁, hs⟩ := hsettles t W hW hn
      obtain ⟨t₂, W₂, e₂, hW₂, hn₂, hall⟩ := ih hkey.2 hlast' t₁ e₁ hW₁ hn₁
      exact ⟨t₂, W₂, e₂, hW₂, hn₂, SettlesAll.cons (by rwa [hc]) hall⟩
    · refine ⟨t, cs.reverse ++ (e ++ c) :: W, [], ?_, ?_, settlesAll_keep t e c W cs⟩
      · simp [hkey.2, Ne.symm hc, hW]
      · by_cases hcs : cs = []
        · have hle := lives_cons_le (R := R) (e ++ c) W
          rw [hcs]
          exact hle.trans (by omega)
        · rw [lives_reverse_append hcs hlast']
          omega

/-- A key on a stack whose top is not live is replaced once, and leaves no live cell on top. -/
theorem exists_settles_of_not_live (hmids : R.mids ≠ []) (hkey : R.key ∉ R.mids)
    (hfirst : ∀ b ∈ R.mids.getLast?, ¬ R.live b) (t : List α) {W : List (List α)} (hW : R.key ∉ W)
    (htop : ∀ y ∈ W.head?, ¬ R.live y) :
    ∃ t' W' e, R.key ∉ W' ∧ R.lives W' = 0 ∧ R.Settles t W R.key t' W' e := by
  cases W with
  | nil =>
    refine ⟨t ++ R.first, R.mids.reverse, R.last, by simpa using hkey, ?_, settles_bottom t⟩
    rw [← List.append_nil R.mids.reverse]
    exact lives_reverse_append hmids hfirst
  | cons y W =>
    have hy : y ++ R.first ≠ R.key := by simpa [live] using htop y rfl
    refine ⟨t, R.mids.reverse ++ (y ++ R.first) :: W, [] ++ R.last, ?_,
      lives_reverse_append hmids hfirst,
      settles_fire hW (settlesAll_keep t [] (y ++ R.first) W R.mids)⟩
    rw [List.mem_cons, not_or] at hW
    simp [hkey, Ne.symm hy, hW.2]

/-- **The left side is not renewed.**  The loop ends if the first cell of the value does not
    make a key of its last cell but one. -/
theorem halts_of_first (hmids : R.mids ≠ []) (hkey : R.key ∉ R.mids)
    (hfirst : ∀ b ∈ R.mids.getLast?, ¬ R.live b) (cs : List (List α)) : R.Halts cs := by
  have hsettles : ∀ (n : Nat) (t : List α) (W : List (List α)), R.key ∉ W → R.lives W ≤ n →
      ∃ t' W' e, R.key ∉ W' ∧ R.lives W' ≤ n ∧ R.Settles t W R.key t' W' e := by
    intro n
    -- a key only reaches as far down the stack as the cells are live
    induction n with
    | zero =>
      intro t W hW hn
      have htop : ∀ y ∈ W.head?, ¬ R.live y := by
        intro y hy hlive
        obtain ⟨W, rfl⟩ := List.head?_eq_some_iff.mp hy
        rw [lives_cons_of_live hlive] at hn
        omega
      obtain ⟨t', W', e, hW', hn', hs⟩ := exists_settles_of_not_live hmids hkey hfirst t hW htop
      exact ⟨t', W', e, hW', hn'.le, hs⟩
    | succ n ih =>
      intro t W hW hn
      by_cases htop : ∀ y ∈ W.head?, ¬ R.live y
      · obtain ⟨t', W', e, hW', hn', hs⟩ := exists_settles_of_not_live hmids hkey hfirst t hW htop
        exact ⟨t', W', e, hW', by omega, hs⟩
      · -- the live cell becomes a key, which is settled first, and then the middle cells
        push Not at htop
        obtain ⟨y, hy, hlive⟩ := htop
        obtain ⟨W, rfl⟩ := List.head?_eq_some_iff.mp hy
        rw [lives_cons_of_live hlive] at hn
        have hfire : [] ++ (y ++ R.first) = R.key := by simpa [live] using hlive
        have hW₀ : R.key ∉ W := fun hmem => hW (List.mem_cons_of_mem _ hmem)
        obtain ⟨t₁, W₁, e₁, hW₁, hn₁, hs₁⟩ := ih t W hW₀ (by omega)
        obtain ⟨t₂, W₂, e₂, hW₂, hn₂, hall⟩ :=
          exists_settlesAll_mids ih hkey hfirst t₁ e₁ hW₁ hn₁
        exact ⟨t₂, W₂, e₂ ++ R.last, hW₂, hn₂,
          settles_fire hW (SettlesAll.cons (by rwa [hfire]) hall)⟩
  refine halts_of_settles (fun t W hW => ?_) cs
  obtain ⟨t', W', e, hW', _, hs⟩ := hsettles (R.lives W) t W hW (Nat.le_refl _)
  exact ⟨t', W', e, hW', hs⟩

/-! ### A value that renews both sides -/

variable (R) in
/-- The last cell of the value makes a key of its second one, and the first cell makes one of
    the last but one. -/
def Renews : Prop :=
  R.mids.head?.map (R.last ++ ·) = some R.key ∧ R.mids.getLast?.map (· ++ R.first) = some R.key

instance : Decidable R.Renews := inferInstanceAs (Decidable (_ ∧ _))

variable (R) in
/-- Two keys meet: read from the left, one is found beside a cell that its value makes a key
    of.  `left` is the cell before the current one, if that has a cell before it. -/
def reacts : Option (List α) → List (List α) → Bool
  | left, c :: d :: rest =>
      if c = R.key then
        left.any R.live || (!rest.isEmpty && R.last ++ d = R.key) ||
          reacts (some (R.last ++ d)) rest
      else reacts (some c) (d :: rest)
  | _, _ => false

/-- **Divergence.**  A key beside a cell that its value makes a key of leads to another such
    key. -/
theorem not_halts_of_meeting (hkey : R.key ∉ R.mids) (hrenews : R.Renews)
    {as bs : List (List α)} {y r : List α} (hfirst : R.key ∉ (as ++ [y]).tail)
    (hmeet : (as ≠ [] ∧ y ++ R.first = R.key) ∨ (bs ≠ [] ∧ R.last ++ r = R.key)) :
    ¬ R.Halts (as ++ y :: R.key :: r :: bs) := by
  rintro ⟨res, hres⟩
  refine Loop.not_returns (fun cs => ∃ as y r bs, cs = as ++ y :: R.key :: r :: bs ∧
    R.key ∉ (as ++ [y]).tail ∧ ((as ≠ [] ∧ y ++ R.first = R.key) ∨
      (bs ≠ [] ∧ R.last ++ r = R.key))) ?_ ⟨as, y, r, bs, rfl, hfirst, hmeet⟩ res hres
  rintro cs ⟨as, y, r, bs, rfl, hfirst, hmeet⟩
  refine ⟨_, body_of_first hfirst, ?_⟩
  obtain ⟨b, hb, hlast⟩ := Option.map_eq_some_iff.mp hrenews.1
  obtain ⟨b', hb', hlive⟩ := Option.map_eq_some_iff.mp hrenews.2
  obtain ⟨mids, hmids⟩ := List.head?_eq_some_iff.mp hb
  obtain ⟨mids', hmids'⟩ := List.getLast?_eq_some_iff.mp hb'
  by_cases hleft : as ≠ [] ∧ y ++ R.first = R.key
  · -- the left neighbour is the next key, and the second cell of the value is on its right
    obtain ⟨as, z, rfl⟩ := List.eq_nil_or_concat as |>.resolve_left hleft.1
    rw [List.concat_eq_append] at hfirst ⊢
    refine ⟨as, z, b, mids ++ (R.last ++ r) :: bs, ?_, ?_, Or.inr ⟨by simp, hlast⟩⟩
    · rw [fire, hleft.2, hmids]
      simp
    · exact fun hmem => hfirst (by
        rw [List.tail_append_of_ne_nil (by simp)]
        exact List.mem_append_left _ hmem)
  · -- the right neighbour is the next key, and the last middle cell is on its left
    obtain ⟨hbs, hright⟩ := hmeet.resolve_left hleft
    obtain ⟨r', bs, rfl⟩ := List.exists_cons_of_ne_nil hbs
    refine ⟨as ++ (y ++ R.first) :: mids', b', r', bs, ?_, ?_, Or.inl ⟨by simp, hlive⟩⟩
    · rw [fire, hright, hmids']
      simp
    · have hcells : as ++ (y ++ R.first) :: mids' ++ [b'] = as ++ (y ++ R.first) :: R.mids := by
        rw [hmids']
        simp
      rw [hcells]
      cases as with
      | nil => simpa using hkey
      | cons a as =>
        have hy : y ++ R.first ≠ R.key := fun h => hleft ⟨by simp, h⟩
        simp only [List.cons_append, List.tail_cons, List.mem_append, List.mem_cons,
          not_or] at hfirst ⊢
        exact ⟨hfirst.1, Ne.symm hy, hkey⟩

/-- A stack and a key, as the cells around the key before and after it is replaced. -/
theorem exists_cut (hkey : R.key ∉ R.mids) (t d : List α) {W : List (List α)}
    (rest : List (List α)) (hW : R.key ∉ W) :
    ∃ (as : List (List α)) (y t' : List α) (V : List (List α)),
      t :: (W.reverse ++ R.key :: d :: rest) = as ++ y :: R.key :: d :: rest ∧
      R.key ∉ (as ++ [y]).tail ∧ (W.head?.any R.live = true ↔ as ≠ [] ∧ y ++ R.first = R.key) ∧
      as ++ R.fire y d rest = t' :: (V.reverse ++ (R.last ++ d) :: rest) ∧
      (W.head?.any R.live = false → R.key ∉ V) := by
  cases W with
  | nil => exact ⟨[], t, t ++ R.first, R.mids.reverse, by simp, by simp, by simp, by simp [fire],
      fun _ => by simpa using hkey⟩
  | cons y W =>
    have hlive : (y :: W).head?.any R.live = true ↔ y ++ R.first = R.key := by simp [live]
    refine ⟨t :: W.reverse, y, t, R.mids.reverse ++ (y ++ R.first) :: W, by simp, ?_, ?_,
      by simp [fire], fun h => ?_⟩
    · simpa [or_comm] using hW
    · rw [hlive]
      simp
    · have hy : y ++ R.first ≠ R.key := by
        rw [Ne, ← hlive, h]
        simp
      rw [List.mem_cons, not_or] at hW
      simp [hkey, Ne.symm hy, hW.2]

/-- **Both sides renewed.**  The loop ends exactly if the cells do not react. -/
theorem halts_iff_reacts (hkey : R.key ∉ R.mids) (hrenews : R.Renews) (t : List α)
    {W cs : List (List α)} (hW : R.key ∉ W) :
    R.Halts (t :: (W.reverse ++ cs)) ↔ R.reacts W.head? cs = false := by
  induction hn : cs.length using Nat.strong_induction_on generalizing t W cs with
  | h n ih =>
    match cs, hn with
    | [], _ =>
      refine iff_of_true (halts_of_absent fun hmem => hW ?_) rfl
      rw [inner, List.tail_cons, List.append_nil] at hmem
      exact List.mem_reverse.mp (List.mem_of_mem_dropLast hmem)
    | [c], _ => exact iff_of_true (halts_of_stack hW) rfl
    | c :: d :: rest, hn =>
      rw [List.length_cons, List.length_cons] at hn
      by_cases hc : c = R.key
      · -- once the key is replaced, the cell that took its last cell is read on from
        have hnext : ∀ (t' : List α) (V : List (List α)), R.key ∉ V →
            ¬ (rest ≠ [] ∧ R.last ++ d = R.key) →
            (R.Halts (t' :: (V.reverse ++ (R.last ++ d) :: rest)) ↔
              R.reacts (some (R.last ++ d)) rest = false) := by
          intro t' V hV hright
          by_cases hrest : rest = []
          · rw [hrest]
            exact iff_of_true (halts_of_stack hV) rfl
          · have hV' : R.key ∉ (R.last ++ d) :: V :=
              List.not_mem_cons_of_ne_of_not_mem (fun h => hright ⟨hrest, h.symm⟩) hV
            have hih := ih rest.length (by omega) t' hV' rfl
            rwa [List.reverse_cons, List.append_assoc] at hih
        obtain ⟨as, y, t', V, htext, hfirst, hleft, hfire, hV⟩ := exists_cut hkey t d rest hW
        have hright : (!rest.isEmpty && decide (R.last ++ d = R.key)) = true ↔
            rest ≠ [] ∧ R.last ++ d = R.key := by simp
        rw [reacts, if_pos hc, hc, htext]
        by_cases hl : W.head?.any R.live = true
        · refine iff_of_false (not_halts_of_meeting hkey hrenews hfirst (Or.inl (hleft.mp hl))) ?_
          simp [hl]
        by_cases hr : rest ≠ [] ∧ R.last ++ d = R.key
        · refine iff_of_false (not_halts_of_meeting hkey hrenews hfirst (Or.inr hr)) ?_
          rw [hright.mpr hr]
          simp
        · rw [Bool.not_eq_true] at hl
          rw [halts_fire_iff hfirst, hfire, hnext t' V (hV hl) hr, hl,
            Bool.eq_false_iff.mpr (mt hright.mp hr), Bool.false_or, Bool.false_or]
      · have hW' : R.key ∉ c :: W := List.not_mem_cons_of_ne_of_not_mem (Ne.symm hc) hW
        have hih := ih (d :: rest).length (by rw [List.length_cons]; omega) t hW' rfl
        rw [List.reverse_cons, List.append_assoc] at hih
        rw [reacts, if_neg hc]
        exact hih

/-! ### The rewriting loop -/

/-- Among the keys between two cells there is a first one. -/
theorem exists_first {cs : List (List α)} (h : R.key ∈ inner cs) :
    ∃ (as : List (List α)) (y r : List α) (bs : List (List α)),
      cs = as ++ y :: R.key :: r :: bs ∧ R.key ∉ (as ++ [y]).tail := by
  induction cs with
  | nil => simp [inner] at h
  | cons y cs ih =>
    rcases cs with _ | ⟨c, _ | ⟨r, rest⟩⟩
    · simp [inner] at h
    · simp [inner] at h
    · by_cases hc : c = R.key
      · exact ⟨[], y, r, rest, by rw [hc]; rfl, by simp⟩
      · rw [inner, List.tail_cons, List.dropLast_cons_of_ne_nil (by simp), List.mem_cons] at h
        obtain ⟨as, z, r', bs, hcs, hfirst⟩ := ih (h.resolve_left (Ne.symm hc))
        refine ⟨y :: as, z, r', bs, by rw [hcs]; rfl, ?_⟩
        rw [List.cons_append, List.tail_cons]
        -- the cell after `y` is `c`, which is no key
        obtain ⟨a, as', ha⟩ := List.exists_cons_of_ne_nil (show as ++ [z] ≠ [] by simp)
        have hac : a = c := by
          have hhead : (as ++ [z] ++ R.key :: r' :: bs).head? = some c := by
            rw [List.append_assoc]
            exact (congrArg List.head? hcs).symm
          rw [ha] at hhead
          exact Option.some.inj hhead
        rw [ha, List.tail_cons] at hfirst
        rw [ha, hac]
        exact List.not_mem_cons_of_ne_of_not_mem (Ne.symm hc) hfirst

variable (R) in
/-- A pass either finds no key, or replaces the first one. -/
theorem body_cases (cs : List (List α)) : (R.key ∉ inner cs ∧ R.body cs = .inr cs) ∨
    ∃ (as : List (List α)) (y r : List α) (bs : List (List α)),
      cs = as ++ y :: R.key :: r :: bs ∧ R.key ∉ (as ++ [y]).tail ∧
        R.body cs = .inl (as ++ R.fire y r bs) := by
  by_cases h : R.key ∈ inner cs
  · obtain ⟨as, y, r, bs, rfl, hfirst⟩ := exists_first h
    exact Or.inr ⟨as, y, r, bs, rfl, hfirst, body_of_first hfirst⟩
  · exact Or.inl ⟨h, by rw [body, step_eq_none h]⟩

end CellRule

section
variable {d : Byte} {key v s : Bytes}

/-- The rule that replaces a key by the cells of a value. -/
def ruleOf (d : Byte) (key v : Bytes) : CellRule Byte where
  key   := key
  first := (v.splitOn d).headD []
  mids  := inner (v.splitOn d)
  last  := (v.splitOn d).getLastD []

/-- A value of more than two cells consists of the cells of its rule. -/
theorem splitOn_eq_of_mids (key : Bytes) (h : inner (v.splitOn d) ≠ []) : v.splitOn d =
    (ruleOf d key v).first :: ((ruleOf d key v).mids ++ [(ruleOf d key v).last]) := by
  obtain ⟨c, cs, hcs⟩ := List.exists_cons_of_ne_nil (List.splitOn_ne_nil d v)
  rw [hcs, inner, List.tail_cons] at h
  have hne : cs ≠ [] := fun hnil => h (by rw [hnil]; rfl)
  simp only [ruleOf, hcs, inner, List.tail_cons, List.headD_cons]
  rw [List.getLastD_cons, List.getLastD_eq_getLast?, List.getLast?_eq_some_getLast hne,
    Option.getD_some, List.dropLast_append_getLast hne]

/-- **Simulation.**  On strings of cells, the rewriting loop does what the rule does on the
    cells. -/
theorem ends_glue_iff (hk : d ∉ key) (hmids : inner (v.splitOn d) ≠ []) {cs : List Bytes}
    (hcs : AreCells d cs) (hne : cs ≠ []) :
    Ends (delimited d key) v (glue d cs) ↔ (ruleOf d key v).Halts cs := by
  have hv := splitOn_eq_of_mids key hmids
  have hvcells : AreCells d ((ruleOf d key v).first :: ((ruleOf d key v).mids ++
      [(ruleOf d key v).last])) := hv ▸ areCells_splitOn v
  have hvglue : v = glue d ((ruleOf d key v).first :: ((ruleOf d key v).mids ++
      [(ruleOf d key v).last])) := by rw [← hv, glue_splitOn]
  simp only [areCells_cons, areCells_append] at hvcells
  have hfire : ∀ (as bs : List Bytes) (y r : Bytes), AreCells d (as ++ y :: key :: r :: bs) →
      key ∉ (as ++ [y]).tail → rewriteBody (delimited d key) v (glue d (as ++ y :: key :: r :: bs)) =
        .inl (glue d (as ++ (ruleOf d key v).fire y r bs)) := by
    intro as bs y r has hfirst
    have hinsert := glue_insert_cells (d := d) as bs (ruleOf d key v).mids y r
      (ruleOf d key v).first (ruleOf d key v).last
    rw [← hvglue] at hinsert
    rw [rewriteBody_glue hk has hfirst, hinsert, CellRule.fire]
  have hsim : ∀ cs, AreCells d cs ∧ cs ≠ [] → rewriteBody (delimited d key) v (glue d cs) =
      ((ruleOf d key v).body cs).map (glue d) (glue d) := by
    rintro cs ⟨hcs, hne⟩
    rcases (ruleOf d key v).body_cases cs with
      ⟨hmem, hbody⟩ | ⟨as, y, r, bs, rfl, hfirst, hbody⟩
    · rw [hbody, rewriteBody_of_absent (by rwa [delimited_isInfix_glue_iff hk hcs hne])]
      rfl
    · rw [hbody]
      exact hfire as bs y r hcs hfirst
  have hinv : ∀ cs cs', AreCells d cs ∧ cs ≠ [] → (ruleOf d key v).body cs = .inl cs' →
      AreCells d cs' ∧ cs' ≠ [] := by
    rintro cs cs' ⟨hcs, hne⟩ hcs'
    rcases (ruleOf d key v).body_cases cs with
      ⟨_, hbody⟩ | ⟨as, y, r, bs, rfl, hfirst, hbody⟩
    · rw [hbody] at hcs'
      cases hcs'
    · rw [hbody, Sum.inl.injEq] at hcs'
      subst hcs'
      simp only [areCells_append, areCells_cons] at hcs
      refine ⟨?_, by simp [CellRule.fire]⟩
      simp [CellRule.fire, hcs, hvcells]
  have hrun := fun n => Loop.run_map (glue d) (glue d) _ hsim hinv ⟨hcs, hne⟩ n
  constructor
  · rintro ⟨r, n, hn⟩
    rw [hrun n] at hn
    obtain ⟨r', hr', _⟩ := Option.map_eq_some_iff.mp hn
    exact ⟨r', n, hr'⟩
  · rintro ⟨r, n, hn⟩
    exact ⟨glue d r, n, by rw [hrun n, hn]; rfl⟩

/-- **When the loop ends.**  For a key without the delimiter, the rewriting loop ends exactly if
    the delimited key does not occur, or else the value does not contain it and does not make
    the cells of the string react. -/
theorem ends_delimited_iff (hk : d ∉ key) (s : Bytes) : Ends (delimited d key) v s ↔
    ¬ delimited d key <:+: s ∨ (¬ delimited d key <:+: v ∧
      ¬ ((ruleOf d key v).Renews ∧ (ruleOf d key v).reacts none (s.splitOn d).tail = true)) := by
  by_cases hs : delimited d key <:+: s
  swap
  · exact iff_of_true (ends_of_absent hs) (Or.inl hs)
  by_cases hv : delimited d key <:+: v
  · exact iff_of_false (not_ends_of_reinserted hv hs) fun h => h.elim (· hs) fun h' => h'.1 hv
  have hright : (¬ delimited d key <:+: s ∨ (¬ delimited d key <:+: v ∧
      ¬ ((ruleOf d key v).Renews ∧ (ruleOf d key v).reacts none (s.splitOn d).tail = true))) ↔
        ¬ ((ruleOf d key v).Renews ∧ (ruleOf d key v).reacts none (s.splitOn d).tail = true) := by
    simp [hs, hv]
  rw [hright]
  have hkey : (ruleOf d key v).key ∉ (ruleOf d key v).mids := by
    rw [delimited_isInfix_iff hk] at hv
    exact hv
  by_cases hmids : inner (v.splitOn d) = []
  · -- a value with at most one delimiter lowers the number of delimiters
    refine iff_of_true ?_ fun h => ?_
    · refine ends_of_count (c := d) ?_ s
      have hlen : (v.splitOn d).length - 1 ≤ 1 := by
        have := congrArg List.length hmids
        simp only [inner, List.length_dropLast, List.length_tail, List.length_nil] at this
        omega
      have hcount := count_glue (areCells_splitOn (d := d) v)
      rw [glue_splitOn] at hcount
      simp only [delimited, List.count_cons_self, List.count_append]
      omega
    · have hhead := h.1.1
      rw [show (ruleOf d key v).mids = [] from hmids] at hhead
      cases hhead
  obtain ⟨t, cs, ht⟩ := List.exists_cons_of_ne_nil (List.splitOn_ne_nil d s)
  have hends : Ends (delimited d key) v (glue d (s.splitOn d)) ↔
      (ruleOf d key v).Halts (s.splitOn d) :=
    ends_glue_iff hk hmids (areCells_splitOn s) (List.splitOn_ne_nil d s)
  rw [glue_splitOn, ht] at hends
  rw [hends, ht, List.tail_cons]
  by_cases hrenews : (ruleOf d key v).Renews
  · have hiff : (ruleOf d key v).Halts (t :: cs) ↔ (ruleOf d key v).reacts none cs = false :=
      CellRule.halts_iff_reacts hkey hrenews t List.not_mem_nil
    rw [hiff]
    simp [hrenews]
  · refine iff_of_true ?_ fun h => hrenews h.1
    obtain ⟨b, mids, hb⟩ := List.exists_cons_of_ne_nil hmids
    by_cases hlast : (ruleOf d key v).last ++ b = (ruleOf d key v).key
    · -- then the left side is not renewed
      refine CellRule.halts_of_first hmids hkey (fun b' hb' hlive => hrenews ⟨?_, ?_⟩) (t :: cs)
      · rw [show (ruleOf d key v).mids = b :: mids from hb, List.head?_cons, Option.map_some, hlast]
      · rw [Option.mem_def.mp hb', Option.map_some]
        exact congrArg some (of_decide_eq_true hlive)
    · exact CellRule.halts_of_last hb hkey hlast (t :: cs)

end

end OsgiManager.Lib
