import OsgiManager.ESB.ListingRoundTrip

namespace OsgiManager.ESB

open OsgiManager.Lib OsgiManager.Lib.Regex

/-!
# The lines the list expression matches

All of them, with what is captured; the table of a listing is then known for every text.

* `ListLine` — a line cut into the pieces of the expression;
* `ListLine.Greedy` — the cut of a backtracking matcher: the path ends at the last `/deploy/`
  that leaves room for a name;
* `search_eq_some_iff` — the search finds the groups of the greedy cut;
* `list_table_exact` — the entries of the table.
-/

/-- A captured column: at least one byte of a class. -/
structure Captured (p : Byte → Bool) where
  text : Bytes
  ne_nil : text ≠ []
  text_over : ∀ b ∈ text, p b

/-- What the last group takes in: any characters, at least one more, and `jar`. -/
structure JarName where
  text : Bytes
  line : ∀ b ∈ text, dotClass b
  jar : ofString "jar" <:+ text
  four_le : 4 ≤ text.length

/-- A line, cut into the pieces of the list expression. -/
structure ListLine where
  id : Captured digitClass
  state : Captured letterClass
  blueprint : Captured letterClass
  spring : Captured letterClass
  level : Captured digitClass
  path : Captured dotClass
  name : JarName
  right : Nat

namespace ListLine

/-- The line. -/
def text (l : ListLine) : Bytes :=
  ofString "[" ++ (l.id.text ++ (ofString "] [" ++ (l.state.text ++ (ofString "] [" ++
    (l.blueprint.text ++ (ofString "] [" ++ (l.spring.text ++ (ofString "] [" ++ (l.level.text ++
      (ofString "] file:" ++ (l.path.text ++ (ofString "/deploy/" ++
        (l.name.text ++ spaces l.right)))))))))))))

/-- The groups of the cut. -/
def groups (l : ListLine) : Nat → Bytes :=
  Function.update (Function.update (Function.update (Function.update (Function.update
    (Function.update (fun _ => []) 1 l.id.text) 2 l.state.text) 3 l.blueprint.text)
      4 l.spring.text) 5 l.level.text) 6 l.name.text

/-- The bundle of the line. -/
def bundle (l : ListLine) : Bundle where
  id        := trim l.id.text
  state     := trim l.state.text
  blueprint := trim l.blueprint.text
  spring    := trim l.spring.text
  level     := trim l.level.text
  name      := trim l.name.text

/-- A later `/deploy/` leaves too little for a name. -/
def Greedy (l : ListLine) : Prop :=
  ∀ x back, x ≠ [] → ofString "/deploy/" ++ l.name.text = x ++ (ofString "/deploy/" ++ back) →
    back.length < 4

theorem bundleOfMatch_groups (l : ListLine) : bundleOfMatch l.groups = l.bundle := by
  simp only [bundleOfMatch, groups, bundle, ne_eq, Nat.reduceEqDiff, not_false_eq_true,
    Function.update_self, Function.update_of_ne]

end ListLine

/-! ### The end of a line -/

/-- The end of the expression, after the path. -/
def listTail : Regex :=
  seq (.group 6 (.seqs [.star dotClass, .set dotClass, .lit (ofString "jar")]))
    (seq (.star (· = ' '.toUInt8)) (seq .eol .eps))

/-- A string without a space at its end, and the spaces after it. -/
theorem append_spaces_inj {s t : Bytes} {m n : Nat} (hs : s.getLast? ≠ some ' '.toUInt8)
    (ht : t.getLast? ≠ some ' '.toUInt8) (h : s ++ spaces m = t ++ spaces n) : s = t ∧ m = n := by
  have hcut : ∀ {u : Bytes} (k : Nat), u.getLast? ≠ some ' '.toUInt8 →
      (u ++ spaces k).rdropWhile (· = ' '.toUInt8) = u := by
    intro u k hu
    induction k with
    | zero =>
      rw [show spaces 0 = [] from rfl, List.append_nil, List.rdropWhile_eq_self_iff]
      intro hne
      rw [List.getLast?_eq_getLast_of_ne_nil hne] at hu
      simpa using hu
    | succ k ih =>
      have hsucc : spaces (k + 1) = spaces k ++ [' '.toUInt8] := List.replicate_succ'
      rw [hsucc, ← List.append_assoc, List.rdropWhile_concat_pos _ _ _ (by simp)]
      exact ih
  have heq : s = t := by rw [← hcut m hs, h, hcut n ht]
  subst heq
  have hlen := congrArg List.length (List.append_cancel_left h)
  rw [spaces, spaces, List.length_replicate, List.length_replicate] at hlen
  exact ⟨rfl, hlen⟩

theorem JarName.getLast?_text (n : JarName) : n.text.getLast? ≠ some ' '.toUInt8 := by
  obtain ⟨stem, hstem⟩ := n.jar
  have hlast : (ofString "jar").getLast? = some 'r'.toUInt8 := by decide
  rw [← hstem, List.getLast?_append, hlast, Option.some_or]
  decide

theorem JarName.getLast?_append_text (n : JarName) (s : Bytes) :
    (s ++ n.text).getLast? ≠ some ' '.toUInt8 := by
  have hne : n.text ≠ [] := by
    have hlen := n.four_le
    rintro hnil
    rw [hnil] at hlen
    exact absurd hlen (by decide)
  rw [List.getLast?_append_of_ne_nil _ hne]
  exact n.getLast?_text

/-- What the end of the expression matches is a name with spaces after it. -/
theorem exists_name_of_run {c c' : Cursor} (h : c' ∈ run listTail c) :
    ∃ (n : JarName) (right : Nat), c.rest = n.text ++ spaces right := by
  obtain ⟨c₁, h₁, h⟩ := mem_run_seq.mp h
  obtain ⟨c₂, h₂, h⟩ := mem_run_seq.mp h
  obtain ⟨c₃, h₃, -⟩ := mem_run_seq.mp h
  obtain ⟨hend, rfl⟩ := mem_run_eol.mp h₃
  obtain ⟨w, -, hw, -, hspaces⟩ := mem_run_star h₂
  obtain ⟨c₄, h₄, rfl⟩ := mem_run_group.mp h₁
  obtain ⟨c₅, h₅, h₆⟩ := mem_run_seq.mp h₄
  obtain ⟨c₆, h₆, h₇⟩ := mem_run_seq.mp h₆
  obtain ⟨c₇, h₇, h₈⟩ := mem_run_seq.mp h₇
  obtain ⟨stem, -, hstem, -, hdot⟩ := mem_run_star h₅
  obtain ⟨b, rest, hb, hbdot, rfl⟩ := mem_run_set.mp h₆
  have hjar : rest = ofString "jar" ++ c₇.rest := (mem_run_lit h₇).1
  have hc₄ : c₄.rest = c₇.rest := by rw [mem_run_eps.mp h₈]
  have hwspaces : w = spaces w.length :=
    List.eq_replicate_of_mem fun b hb => of_decide_eq_true (hspaces b hb)
  have hw' : c₇.rest = spaces w.length := by
    rw [← hc₄, ← hwspaces]
    rw [hend, List.append_nil] at hw
    exact hw
  refine ⟨⟨stem ++ b :: ofString "jar", ?_, ⟨stem ++ [b], by simp⟩, ?_⟩, w.length, ?_⟩
  · rw [List.forall_mem_append, List.forall_mem_cons]
    exact ⟨hdot, hbdot, by decide +kernel⟩
  · have hthree : (ofString "jar").length = 3 := by decide
    rw [List.length_append, List.length_cons, hthree]
    omega
  · rw [hstem, hb, hjar, hw', List.append_assoc]
    rfl

/-- A name before its last four bytes. -/
theorem JarName.exists_stem (n : JarName) : ∃ stem b, n.text = stem ++ b :: ofString "jar" ∧
    (∀ b ∈ stem, dotClass b) ∧ dotClass b := by
  obtain ⟨front, hfront⟩ := n.jar
  have hlen := n.four_le
  have hthree : (ofString "jar").length = 3 := by decide
  rw [← hfront, List.length_append, hthree] at hlen
  have hne : front ≠ [] := List.ne_nil_of_length_pos (by omega)
  have hline := n.line
  rw [← hfront, List.forall_mem_append, ← List.dropLast_append_getLast hne,
    List.forall_mem_append, List.forall_mem_singleton] at hline
  refine ⟨front.dropLast, front.getLast hne, ?_, hline.1⟩
  rw [List.append_cons, List.dropLast_append_getLast, hfront]

section
variable {k : Cursor → List Cursor} {c c' : Cursor}

/-- **The end of a line.**  The last group takes the name, and the spaces are left. -/
theorem head?_andThen_tail (n : JarName) {right : Nat} (hc : c.rest = n.text ++ spaces right)
    (hk : (k ⟨c.before ++ n.text ++ spaces right, [], Function.update c.groups 6 n.text⟩).head? =
      some c') : (andThen listTail k c).head? = some c' := by
  obtain ⟨stem, b, htext, hstem, hb⟩ := n.exists_stem
  have hseqs : seqs [.star dotClass, .set dotClass, .lit (ofString "jar")] =
      seq (.star dotClass) (seq (.set dotClass) (seq (.lit (ofString "jar")) .eps)) := rfl
  have hcut : c.rest = stem ++ (b :: (ofString "jar" ++ spaces right)) := by
    rw [hc, htext, List.append_assoc]
    rfl
  rw [listTail, hseqs]
  simp only [andThen_seq, andThen_eps, andThen_group]
  refine head?_andThen_star hcut hstem ?_ fun x u' hx hu _ => ?_
  · rw [andThen_set rfl hb, andThen_lit rfl]
    refine head?_andThen_star (w := spaces right) (u := []) (by simp)
      (forall_mem_spaces (by decide) right) ?_ fun x u' hx hu _ => ?_
    · rw [andThen_eol rfl]
      simpa [htext] using hk
    · exact absurd (List.append_eq_nil_iff.mp hu.symm).1 hx
  · -- a later `jar` would bring in a second `j`
    refine andThen_eq_nil fun c₁ h₁ => andThen_eq_nil fun c₂ h₂ => ?_
    obtain ⟨b', rest, hb', -, rfl⟩ := mem_run_set.mp h₁
    have hrest : rest = ofString "jar" ++ c₂.rest := (mem_run_lit h₂).1
    obtain ⟨y, x, rfl⟩ := List.exists_cons_of_ne_nil hx
    have htail : ofString "jar" ++ spaces right = (x ++ [b']) ++ (ofString "jar" ++ c₂.rest) := by
      have hinj := (List.cons.inj hu).2
      rw [show u' = b' :: rest from hb', hrest] at hinj
      rw [List.append_assoc]
      exact hinj
    obtain ⟨z, front, hfront⟩ := List.exists_cons_of_ne_nil (show x ++ [b'] ≠ [] by simp)
    rw [hfront] at htail
    have hz : z = 'j'.toUInt8 := (List.cons.inj htail).1.symm
    have hcount := congrArg (List.count 'j'.toUInt8) htail
    have hone : (ofString "jar").count 'j'.toUInt8 = 1 := by decide
    have hnone : (spaces right).count 'j'.toUInt8 = 0 :=
      List.count_eq_zero.mpr (not_mem_spaces (by decide) right)
    rw [List.count_append, List.count_append, List.count_append, hone, hnone, hz,
      List.count_cons_self] at hcount
    omega

/-- **The path.**  It ends at the last `/deploy/` that leaves room for a name. -/
theorem head?_andThen_deploy {path : Bytes} (n : JarName) {right : Nat}
    (hc : c.rest = path ++ (ofString "/deploy/" ++ (n.text ++ spaces right)))
    (hne : path ≠ []) (hpath : ∀ b ∈ path, dotClass b)
    (hgreedy : ∀ x back, x ≠ [] → ofString "/deploy/" ++ n.text =
      x ++ (ofString "/deploy/" ++ back) → back.length < 4)
    (hk : (k ⟨c.before ++ path ++ ofString "/deploy/" ++ n.text ++ spaces right, [],
      Function.update c.groups 6 n.text⟩).head? = some c') :
    (andThen (plus dotClass) (andThen (lit (ofString "/deploy/")) (andThen listTail k)) c).head? =
      some c' := by
  refine head?_andThen_plus hc hne hpath ?_ fun x u' hx hu _ => ?_
  · rw [andThen_lit rfl]
    exact head?_andThen_tail n rfl hk
  · -- a later cut would be one with a name after it
    refine andThen_eq_nil fun c₁ h₁ => andThen_eq_nil fun c₂ h₂ => ?_
    obtain ⟨n', right', hname⟩ := exists_name_of_run h₂
    have hu' : u' = ofString "/deploy/" ++ c₁.rest := (mem_run_lit h₁).1
    have hcut : (ofString "/deploy/" ++ n.text) ++ spaces right =
        (x ++ (ofString "/deploy/" ++ n'.text)) ++ spaces right' := by
      rw [List.append_assoc, List.append_assoc, List.append_assoc, ← hname, ← hu']
      exact hu
    have hlast : (x ++ (ofString "/deploy/" ++ n'.text)).getLast? ≠ some ' '.toUInt8 := by
      rw [← List.append_assoc]
      exact n'.getLast?_append_text _
    obtain ⟨heq, -⟩ := append_spaces_inj (n.getLast?_append_text _) hlast hcut
    have hshort := hgreedy x n'.text hx heq
    have hlong := n'.four_le
    omega

end

/-! ### The whole line -/

theorem listColumns_eq : listColumns = seq (lit (ofString "["))
  (seq (.group 1 (.plus digitClass)) (seq (lit (ofString "] ["))
  (seq (.group 2 (.plus letterClass)) (seq (lit (ofString "] ["))
  (seq (.group 3 (.plus letterClass)) (seq (lit (ofString "] ["))
  (seq (.group 4 (.plus letterClass)) (seq (lit (ofString "] ["))
  (seq (.group 5 (.plus digitClass)) (seq (lit (ofString "] file:"))
  (seq (.plus dotClass) (seq (lit (ofString "/deploy/")) listTail)))))))))))) := rfl

/-- The search finds the groups of a greedy cut. -/
theorem ListLine.search_text {l : ListLine} (hl : l.Greedy) :
    listParser.matcher.search l.text = some l.groups := by
  have hrun : ∃ before, (run listColumns (start l.text 0)).head? =
      some ⟨before, [], l.groups⟩ := by
    apply Exists.intro
    rw [← andThen_singleton, listColumns_eq]
    simp only [andThen_seq]
    rw [andThen_lit (c := start l.text 0) rfl]
    -- five columns, the path and the name
    refine head?_andThen_cell rfl rfl l.id.ne_nil l.id.text_over (by decide) ?_
    refine head?_andThen_cell rfl rfl l.state.ne_nil l.state.text_over (by decide) ?_
    refine head?_andThen_cell rfl rfl l.blueprint.ne_nil l.blueprint.text_over (by decide) ?_
    refine head?_andThen_cell rfl rfl l.spring.ne_nil l.spring.text_over (by decide) ?_
    refine head?_andThen_cell rfl rfl l.level.ne_nil l.level.text_over (by decide) ?_
    refine head?_andThen_deploy l.name rfl l.path.ne_nil l.path.text_over hl ?_
    rfl
  obtain ⟨before, hbefore⟩ := hrun
  show search listParser l.text = _
  rw [listParser_eq, search_bol, hbefore]
  rfl

/-- What a repetition matches, and a captured one. -/
theorem exists_captured_of_plus {p : Byte → Bool} {c c' : Cursor} (h : c' ∈ run (plus p) c) :
    ∃ x : Captured p, c.rest = x.text ++ c'.rest := by
  obtain ⟨w, hne, hw, hrest⟩ := mem_run_plus h
  exact ⟨⟨w, hne, hw⟩, hrest⟩

theorem exists_captured {n : Nat} {p : Byte → Bool} {c c' : Cursor}
    (h : c' ∈ run (group n (plus p)) c) : ∃ x : Captured p, c.rest = x.text ++ c'.rest := by
  obtain ⟨c₁, h₁, rfl⟩ := mem_run_group.mp h
  obtain ⟨x, hx⟩ := exists_captured_of_plus h₁
  exact ⟨x, hx⟩

/-- A line that matches can be cut. -/
theorem exists_line_of_search {line : Bytes} {g : Nat → Bytes}
    (h : listParser.matcher.search line = some g) : ∃ l : ListLine, l.text = line := by
  change search listParser line = some g at h
  rw [listParser_eq, search_bol] at h
  obtain ⟨c, hc, -⟩ := Option.map_eq_some_iff.mp h
  have hrun := List.mem_of_mem_head? hc
  rw [listColumns_eq] at hrun
  obtain ⟨c₀, h₀, hrun⟩ := mem_run_seq.mp hrun
  obtain ⟨c₁, h₁, hrun⟩ := mem_run_seq.mp hrun
  obtain ⟨c₂, h₂, hrun⟩ := mem_run_seq.mp hrun
  obtain ⟨c₃, h₃, hrun⟩ := mem_run_seq.mp hrun
  obtain ⟨c₄, h₄, hrun⟩ := mem_run_seq.mp hrun
  obtain ⟨c₅, h₅, hrun⟩ := mem_run_seq.mp hrun
  obtain ⟨c₆, h₆, hrun⟩ := mem_run_seq.mp hrun
  obtain ⟨c₇, h₇, hrun⟩ := mem_run_seq.mp hrun
  obtain ⟨c₈, h₈, hrun⟩ := mem_run_seq.mp hrun
  obtain ⟨c₉, h₉, hrun⟩ := mem_run_seq.mp hrun
  obtain ⟨c₁₀, h₁₀, hrun⟩ := mem_run_seq.mp hrun
  obtain ⟨c₁₁, h₁₁, hrun⟩ := mem_run_seq.mp hrun
  obtain ⟨c₁₂, h₁₂, hrun⟩ := mem_run_seq.mp hrun
  obtain ⟨id, hid⟩ := exists_captured h₁
  obtain ⟨state, hstate⟩ := exists_captured h₃
  obtain ⟨blueprint, hblueprint⟩ := exists_captured h₅
  obtain ⟨spring, hspring⟩ := exists_captured h₇
  obtain ⟨level, hlevel⟩ := exists_captured h₉
  obtain ⟨path, hpath⟩ := exists_captured_of_plus h₁₁
  obtain ⟨name, right, hname⟩ := exists_name_of_run hrun
  refine ⟨⟨id, state, blueprint, spring, level, path, name, right⟩, ?_⟩
  have hline : line = ofString "[" ++ c₀.rest := (mem_run_lit h₀).1
  rw [hline, hid, (mem_run_lit h₂).1, hstate, (mem_run_lit h₄).1, hblueprint, (mem_run_lit h₆).1,
    hspring, (mem_run_lit h₈).1, hlevel, (mem_run_lit h₁₀).1, hpath, (mem_run_lit h₁₂).1, hname]
  rfl

/-- A cut with a later `/deploy/` and room for a name after it gives one with a longer path. -/
theorem ListLine.exists_longer {l : ListLine} (h : ¬ l.Greedy) :
    ∃ l' : ListLine, l'.text = l.text ∧ l'.name.text.length < l.name.text.length := by
  simp only [ListLine.Greedy, not_forall, not_lt] at h
  obtain ⟨x, back, hx, hcut, hlen⟩ := h
  have hxpos := List.length_pos_iff.mpr hx
  have hcutlen := congrArg List.length hcut
  simp only [List.length_append] at hcutlen
  -- what follows the later one is an end of the name
  have hsuffix : back <:+ l.name.text := by
    have hback : back <:+ ofString "/deploy/" ++ l.name.text := by
      rw [hcut, ← List.append_assoc]
      exact List.suffix_append _ _
    exact List.suffix_of_suffix_length_le hback (List.suffix_append _ _) (by omega)
  have hover : ∀ b ∈ ofString "/deploy/" ++ l.name.text, dotClass b :=
    List.forall_mem_append.mpr ⟨by decide +kernel, l.name.line⟩
  have hxover : ∀ b ∈ x, dotClass b := fun b hb => hover b (hcut ▸ List.mem_append_left _ hb)
  have hjar : ofString "jar" <:+ back :=
    List.suffix_of_suffix_length_le l.name.jar hsuffix
      (by rw [show (ofString "jar").length = 3 by decide]; omega)
  refine ⟨{ l with
    path := ⟨l.path.text ++ x, by simp [hx], List.forall_mem_append.mpr ⟨l.path.text_over, hxover⟩⟩
    name := ⟨back, fun b hb => l.name.line b (hsuffix.subset hb), hjar, hlen⟩ }, ?_, ?_⟩
  · have hsame : l.path.text ++ x ++ (ofString "/deploy/" ++ (back ++ spaces l.right)) =
        l.path.text ++ (ofString "/deploy/" ++ (l.name.text ++ spaces l.right)) := by
      rw [List.append_assoc, ← List.append_assoc (ofString "/deploy/") l.name.text, hcut]
      simp only [List.append_assoc]
    rw [ListLine.text, ListLine.text, ← hsame]
  · show back.length < l.name.text.length
    omega

/-- Every line that can be cut has a greedy cut. -/
theorem ListLine.exists_greedy (l : ListLine) : ∃ l' : ListLine, l'.text = l.text ∧ l'.Greedy := by
  induction hn : l.name.text.length using Nat.strong_induction_on generalizing l with
  | _ n ih =>
    by_cases hl : l.Greedy
    · exact ⟨l, rfl, hl⟩
    · obtain ⟨l', htext, hlt⟩ := l.exists_longer hl
      obtain ⟨l'', htext', hgreedy⟩ := ih _ (hn ▸ hlt) l' rfl
      exact ⟨l'', htext'.trans htext, hgreedy⟩

/-- The lines the list expression matches, and what it captures. -/
theorem search_eq_some_iff {line : Bytes} {g : Nat → Bytes} :
    listParser.matcher.search line = some g ↔
      ∃ l : ListLine, l.Greedy ∧ l.text = line ∧ l.groups = g := by
  constructor
  · intro h
    obtain ⟨l, rfl⟩ := exists_line_of_search h
    obtain ⟨l', htext, hgreedy⟩ := l.exists_greedy
    have hfound := l'.search_text hgreedy
    rw [htext, h, Option.some.injEq] at hfound
    exact ⟨l', hgreedy, htext, hfound.symm⟩
  · rintro ⟨l, hgreedy, rfl, rfl⟩
    exact l.search_text hgreedy

/-! ### The table -/

/-- The last match with a name belongs to the last line with it. -/
theorem lastNamed_eq_some_iff {p : Matcher} {ls : List Bytes} {name : Bytes} {m : Nat → Bytes} :
    lastNamed (matchesOf p ls) name = some m ↔ ∃ front line back, ls = front ++ line :: back ∧
      p.search line = some m ∧ (bundleOfMatch m).name = name ∧
        ∀ line' ∈ back, ∀ m', p.search line' = some m' → (bundleOfMatch m').name ≠ name := by
  rw [lastNamed, matchesOf, List.filter_filterMap, List.getLast?_eq_some_iff]
  simp only [List.filterMap_eq_append_iff, List.filterMap_eq_cons_iff, List.filterMap_eq_nil_iff,
    Option.filter_eq_some_iff, Option.filter_eq_none_iff, decide_eq_true_eq]
  constructor
  · rintro ⟨ms, l₁, l₂, rfl, -, l₃, line, back, rfl, -, ⟨hm, hname⟩, hback⟩
    exact ⟨l₁ ++ l₃, line, back, by rw [List.append_assoc], hm, hname, hback⟩
  · rintro ⟨front, line, back, rfl, hm, hname, hback⟩
    exact ⟨_, front, line :: back, rfl, rfl, [], line, back, rfl, by simp, ⟨hm, hname⟩, hback⟩

/-- **The table, exactly.**  For every text, the entry under a name is the bundle of the last line,
    from the third on, that is a line of the list expression with that name: the five columns
    and what follows the last `/deploy/` with room for a name, each of them trimmed. -/
theorem list_table_exact (text name : Bytes) (b : Bundle) :
    (mapBundleNamesToBundlesId listParser.matcher text)[name]? = some b ↔
      ∃ front l back, (lines text).drop 2 = front ++ ListLine.text l :: back ∧ l.Greedy ∧
        l.bundle = b ∧ b.name = name ∧
          ∀ l' : ListLine, l'.Greedy → l'.text ∈ back → l'.bundle.name ≠ name := by
  simp only [getElem?_mapBundleNamesToBundlesId, Option.map_eq_some_iff, lastNamed_eq_some_iff,
    search_eq_some_iff]
  constructor
  · rintro ⟨m, ⟨front, line, back, hcut, ⟨l, hl, rfl, rfl⟩, hname, hback⟩, rfl⟩
    refine ⟨front, l, back, hcut, hl, l.bundleOfMatch_groups.symm, hname, fun l' hl' hmem => ?_⟩
    rw [← l'.bundleOfMatch_groups]
    exact hback l'.text hmem l'.groups ⟨l', hl', rfl, rfl⟩
  · rintro ⟨front, l, back, hcut, hl, rfl, hname, hback⟩
    refine ⟨l.groups, ⟨front, l.text, back, hcut, ⟨l, hl, rfl, rfl⟩, ?_, ?_⟩,
      l.bundleOfMatch_groups⟩
    · rw [l.bundleOfMatch_groups]
      exact hname
    · rintro _ hmem _ ⟨l', hl', rfl, rfl⟩
      rw [l'.bundleOfMatch_groups]
      exact hback l' hl' hmem

end OsgiManager.ESB
