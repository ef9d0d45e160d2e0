import OsgiManager.ESB.InfoLines

namespace OsgiManager.ESB

open OsgiManager.Lib OsgiManager.Lib.Regex

/-!
# The lines the information expression matches

All of them, with what is captured, and what a report makes of the members.

* `InfoCut` — a line cut at two spaces into a name and a value;
* `InfoCut.Greedy` — the cut is the last one before which everything is in the class of names;
* `search_info_iff` — the search finds the groups of the greedy cut;
* `info_report_exact` — the members after a report.
-/

/-- A line of the information expression: a name, two spaces and a value.  Further spaces
    between the two belong to the name, and spaces at the end to the value. -/
structure InfoCut where
  name : Bytes
  value : Bytes
  name_ne_nil : name ≠ []
  name_over : ∀ b ∈ name, infoNameClass b
  value_ne_nil : value ≠ []
  value_over : ∀ b ∈ value, infoValueClass b

namespace InfoCut

/-- The line. -/
def text (l : InfoCut) : Bytes := l.name ++ (spaces 2 ++ l.value)

/-- Two spaces further on are the last bytes of the line, or behind a byte of no name. -/
def Greedy (l : InfoCut) : Prop :=
  ∀ x u, x ≠ [] → spaces 2 ++ l.value = x ++ (spaces 2 ++ u) → (∀ b ∈ x, infoNameClass b) → u = []

/-- The search finds the groups of a greedy cut. -/
theorem search_text {l : InfoCut} (hl : l.Greedy) :
    systemInfoParser.matcher.search l.text = some (infoGroups l.name l.value) := by
  refine search_info l.name_ne_nil l.name_over l.value_ne_nil l.value_over ?_ hl
  -- a value that begins with a space could be cut one byte later
  intro x u hx hvalue hspaces
  obtain ⟨b, x, rfl⟩ := List.exists_cons_of_ne_nil hx
  have hb : b = ' '.toUInt8 := hspaces b List.mem_cons_self
  have hnil := hl [' '.toUInt8] (x ++ u) (by simp) (by rw [hvalue, hb]; rfl)
    (forall_mem_spaces (by decide) 1)
  exact (List.append_eq_nil_iff.mp hnil).2

/-- A cut that is not greedy gives one with a shorter value. -/
theorem exists_later {l : InfoCut} (h : ¬ l.Greedy) :
    ∃ l' : InfoCut, l'.text = l.text ∧ l'.value.length < l.value.length := by
  simp only [Greedy, not_forall] at h
  obtain ⟨x, u, hx, hcut, hname, hu⟩ := h
  have hxpos := List.length_pos_iff.mpr hx
  have hlen := congrArg List.length hcut
  simp only [List.length_append] at hlen
  have hover : ∀ b ∈ spaces 2 ++ l.value, infoValueClass b :=
    List.forall_mem_append.mpr ⟨forall_mem_spaces (by decide) 2, l.value_over⟩
  refine ⟨⟨l.name ++ x, u, by simp [hx], List.forall_mem_append.mpr ⟨l.name_over, hname⟩, hu,
    fun b hb => hover b ?_⟩, ?_, ?_⟩
  · rw [hcut]
    simp [hb]
  · show l.name ++ x ++ (spaces 2 ++ u) = l.name ++ (spaces 2 ++ l.value)
    rw [hcut, List.append_assoc]
  · show u.length < l.value.length
    omega

/-- Every line that can be cut has a greedy cut. -/
theorem exists_greedy (l : InfoCut) : ∃ l' : InfoCut, l'.text = l.text ∧ l'.Greedy := by
  induction hn : l.value.length using Nat.strong_induction_on generalizing l with
  | _ n ih =>
    by_cases hl : l.Greedy
    · exact ⟨l, rfl, hl⟩
    · obtain ⟨l', htext, hlt⟩ := exists_later hl
      obtain ⟨l'', htext', hgreedy⟩ := ih _ (hn ▸ hlt) l' rfl
      exact ⟨l'', htext'.trans htext, hgreedy⟩

end InfoCut

/-- A repetition of spaces. -/
theorem eq_spaces {w : Bytes} (h : ∀ b ∈ w, decide (b = ' '.toUInt8) = true) :
    w = spaces w.length :=
  List.eq_replicate_of_mem fun b hb => of_decide_eq_true (h b hb)

/-- A line that matches can be cut. -/
theorem exists_infoCut_of_search {line : Bytes} {g : Nat → Bytes}
    (h : systemInfoParser.matcher.search line = some g) : ∃ l : InfoCut, l.text = line := by
  change search systemInfoParser line = some g at h
  rw [systemInfoParser_eq, search_bol] at h
  obtain ⟨c, hc, -⟩ := Option.map_eq_some_iff.mp h
  obtain ⟨c₁, h₁, hrun⟩ := mem_run_seq.mp (List.mem_of_mem_head? hc)
  obtain ⟨c₂, h₂, hrun⟩ := mem_run_seq.mp hrun
  obtain ⟨c₃, h₃, hrun⟩ := mem_run_seq.mp hrun
  obtain ⟨c₄, h₄, hrun⟩ := mem_run_seq.mp hrun
  obtain ⟨c₅, h₅, -⟩ := mem_run_seq.mp hrun
  -- the name and a space, more spaces, the value, and spaces to the end
  obtain ⟨d₁, hd₁, rfl⟩ := mem_run_group.mp h₁
  obtain ⟨d₂, hd₂, hd₃⟩ := mem_run_seq.mp hd₁
  obtain ⟨d₃, hd₃, hd₄⟩ := mem_run_seq.mp hd₃
  obtain ⟨name, hname, hnameover, hcut₁⟩ := mem_run_plus hd₂
  obtain ⟨b, rest, hcut₂, hb, rfl⟩ := mem_run_set.mp hd₃
  obtain ⟨e₂, he₂, rfl⟩ := mem_run_group.mp h₂
  obtain ⟨gap, hgap, hgapover, hcut₃⟩ := mem_run_plus he₂
  obtain ⟨e₃, he₃, rfl⟩ := mem_run_group.mp h₃
  obtain ⟨value, hvalue, hvalueover, hcut₄⟩ := mem_run_plus he₃
  obtain ⟨trail, -, hcut₅, -, htrailover⟩ := mem_run_star h₄
  obtain ⟨hend, rfl⟩ := mem_run_eol.mp h₅
  have hd₁rest : d₁.rest = rest := by rw [mem_run_eps.mp hd₄]
  have hspace : ∀ {w : Bytes} {q : Byte → Bool}, q ' '.toUInt8 →
      (∀ b ∈ w, decide (b = ' '.toUInt8) = true) → ∀ b ∈ w, q b := by
    intro w q hq hw b hb
    rw [of_decide_eq_true (hw b hb)]
    exact hq
  have hpos := List.length_pos_iff.mpr hgap
  refine ⟨⟨name ++ spaces (gap.length - 1), value ++ trail, by simp [hname],
    List.forall_mem_append.mpr ⟨hnameover, forall_mem_spaces (by decide) _⟩, by simp [hvalue],
    List.forall_mem_append.mpr ⟨hvalueover, hspace (by decide) htrailover⟩⟩, ?_⟩
  have hline : line = name ++ (b :: (gap ++ (value ++ trail))) := by
    have hstart : line = name ++ d₂.rest := hcut₁
    have hvalue' : e₂.rest = value ++ e₃.rest := hcut₄
    have hrest : e₃.rest = trail ++ c₅.rest := hcut₅
    have hgap' : d₁.rest = gap ++ e₂.rest := hcut₃
    rw [hstart, hcut₂, ← hd₁rest, hgap', hvalue', hrest, hend, List.append_nil]
  have hspaces : b :: gap = spaces (gap.length - 1) ++ spaces 2 := by
    rw [spaces_append, of_decide_eq_true hb, eq_spaces hgapover]
    show spaces (gap.length + 1) = _
    congr 1
    rw [spaces, List.length_replicate]
    omega
  show name ++ spaces (gap.length - 1) ++ (spaces 2 ++ (value ++ trail)) = line
  rw [hline, ← List.cons_append, hspaces]
  simp only [List.append_assoc]

/-- The lines the information expression matches, and what it captures. -/
theorem search_info_iff {line : Bytes} {g : Nat → Bytes} :
    systemInfoParser.matcher.search line = some g ↔
      ∃ l : InfoCut, l.Greedy ∧ l.text = line ∧ infoGroups l.name l.value = g := by
  constructor
  · intro h
    obtain ⟨l, rfl⟩ := exists_infoCut_of_search h
    obtain ⟨l', htext, hgreedy⟩ := l.exists_greedy
    have hfound := InfoCut.search_text hgreedy
    rw [htext, h, Option.some.injEq] at hfound
    exact ⟨l', hgreedy, htext, hfound.symm⟩
  · rintro ⟨l, hgreedy, rfl, rfl⟩
    exact InfoCut.search_text hgreedy

/-! ### The report -/

/-- The line is about a member. -/
def InfoCut.Names (l : InfoCut) (m : Member) : Prop := trim (l.name ++ spaces 1) = m.reportName

/-- The values some lines bring for a member, in order. -/
inductive Brings (m : Member) : List Bytes → List Bytes → Prop
  | nil : Brings m [] []
  | value {l : InfoCut} {ls vs : List Bytes} (greedy : l.Greedy) (names : l.Names m)
      (rest : Brings m ls vs) : Brings m (l.text :: ls) (trim l.value :: vs)
  | other {line : Bytes} {ls vs : List Bytes}
      (none : ∀ l : InfoCut, l.Greedy → l.text = line → ¬ l.Names m) (rest : Brings m ls vs) :
      Brings m (line :: ls) vs

/-- What a line brings for a member. -/
theorem lineValue_eq_some_iff {m : Member} {line v : Bytes} :
    lineValue systemInfoParser.matcher m line = some v ↔
      ∃ l : InfoCut, l.Greedy ∧ l.text = line ∧ l.Names m ∧ trim l.value = v := by
  rw [lineValue_eq, Option.bind_eq_some_iff]
  simp only [search_info_iff, Option.ite_none_right_eq_some, Option.some.injEq]
  constructor
  · rintro ⟨g, ⟨l, hgreedy, htext, rfl⟩, hname, hvalue⟩
    exact ⟨l, hgreedy, htext, hname, hvalue⟩
  · rintro ⟨l, hgreedy, htext, hname, hvalue⟩
    exact ⟨_, ⟨l, hgreedy, htext, rfl⟩, hname, hvalue⟩

/-- The values are those of the lines, one by one. -/
theorem brings_iff {m : Member} {ls vs : List Bytes} :
    Brings m ls vs ↔ vs = ls.filterMap (lineValue systemInfoParser.matcher m) := by
  constructor
  · intro h
    induction h with
    | nil => rfl
    | @value l ls vs greedy names rest ih =>
      have hline := lineValue_eq_some_iff.mpr ⟨l, greedy, rfl, names, rfl⟩
      rw [List.filterMap_cons, hline, ih]
    | @other line ls vs none rest ih =>
      have hline : lineValue systemInfoParser.matcher m line = .none := by
        rw [Option.eq_none_iff_forall_ne_some]
        intro v hv
        obtain ⟨l, hgreedy, htext, hnames, -⟩ := lineValue_eq_some_iff.mp hv
        exact none l hgreedy htext hnames
      rw [List.filterMap_cons, hline, ih]
  · rintro rfl
    induction ls with
    | nil => exact .nil
    | cons line ls ih =>
      rw [List.filterMap_cons]
      cases hline : lineValue systemInfoParser.matcher m line with
      | none =>
        refine .other (fun l hgreedy htext hnames => ?_) ih
        rw [lineValue_eq_some_iff.mpr ⟨l, hgreedy, htext, hnames, rfl⟩] at hline
        cases hline
      | some v =>
        obtain ⟨l, hgreedy, rfl, hnames, rfl⟩ := lineValue_eq_some_iff.mp hline
        exact .value hgreedy hnames ih

/-- **The report, exactly.**  For every text and every member there is one list of values, and no
    other, that the lines of the information expression bring for it, each line cut at the last
    two spaces before which there are only bytes of a name; the garbage collectors hold all of
    them, one to a line, and every other member the last one, or nothing. -/
theorem info_report_exact (text : Bytes) (m : Member) :
    (∃! vs, Brings m (lines text) vs) ∧ ∀ vs, Brings m (lines text) vs →
      fillSystemInfo systemInfoParser.matcher text m =
        if m = .garbageCollector then (ofString "\n").intercalate vs else vs.getLast?.getD [] := by
  refine ⟨⟨_, brings_iff.mpr rfl, fun vs hvs => brings_iff.mp hvs⟩, fun vs hvs => ?_⟩
  rw [fillSystemInfo, foldl_readInfoLine, ← brings_iff.mp hvs]
  by_cases hm : m = .garbageCollector
  · subst hm
    rw [if_pos rfl]
    have hne : ∀ v ∈ vs, v ≠ [] := by
      intro v hv
      rw [brings_iff.mp hvs] at hv
      exact ne_nil_of_mem_valuesOf (fun _ _ h => systemInfoParser_value_ne_nil h) hv
    cases vs with
    | nil => rfl
    | cons v vs =>
      obtain ⟨hv, hrest⟩ := List.forall_mem_cons.mp hne
      rw [List.foldl_cons]
      exact foldl_storedValue_gc hrest hv
  · rw [foldl_storedValue_of_ne hm, if_neg hm]
    rfl

end OsgiManager.ESB
