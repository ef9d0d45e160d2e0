import OsgiManager.ESB.InfoValues
import OsgiManager.Lib.Greedy

namespace OsgiManager.ESB

open OsgiManager.Lib OsgiManager.Lib.Regex

/-!
# Lines of a system information report

The lines the shipped expression is made for: a report name, a gap of at least two spaces and a
value.  The expression has two limits.  A hyphen is in none of its classes, and its first
group takes in a value of letters if enough spaces follow it.

* `InfoLine` — such a line;
* `search_info` — where the groups of the expression end;
* `info_line_stored_iff` — which values reach their member.
-/

/-- The bytes of a value. -/
def valueByte (b : Byte) : Bool :=
  letterClass b || ('0'.toUInt8 ≤ b && b ≤ '9'.toUInt8) || (ofString "=',.:-()/\\_").contains b

/-- A line of a report. -/
structure InfoLine where
  lead : Nat
  member : Member
  gap : Nat
  value : Bytes
  trail : Nat
  two_le_gap : 2 ≤ gap
  value_ne_nil : value ≠ []
  value_over : ∀ b ∈ value, valueByte b
  value_trimmed : Trimmed value
  value_single : ¬ spaces 2 <:+: value

/-- The line as it is printed. -/
def InfoLine.text (l : InfoLine) : Bytes :=
  spaces l.lead ++ (l.member.reportName ++ (spaces l.gap ++ (l.value ++ spaces l.trail)))

/-- The information expression after its anchor. -/
def infoColumns : Regex :=
  seq (.group 1 (.seqs [.plus infoNameClass, .set (· = ' '.toUInt8)]))
    (seq (.group 2 (.plus (· = ' '.toUInt8))) (seq (.group 3 (.plus infoValueClass))
      (seq (.star (· = ' '.toUInt8)) (seq .eol .eps))))

theorem systemInfoParser_eq : systemInfoParser = seq .bol infoColumns := rfl

/-! ### The first match -/

section
variable {k : Cursor → List Cursor} {c c' : Cursor} {w v : Bytes}

/-- The third group takes all that is left of the line. -/
theorem head?_andThen_value (hc : c.rest = v) (hv : v ≠ []) (hvalue : ∀ b ∈ v, infoValueClass b)
    (hk : (k ⟨c.before ++ v, [], Function.update c.groups 3 v⟩).head? = some c') :
    (andThen (group 3 (plus infoValueClass))
      (andThen (star (· = ' '.toUInt8)) (andThen eol k)) c).head? = some c' := by
  have hnothing : ∀ x u : Bytes, x ≠ [] → [] = x ++ u → False :=
    fun x u hx hu => hx (List.append_eq_nil_iff.mp hu.symm).1
  rw [andThen_group]
  refine head?_andThen_plus (u := []) (by rw [hc, List.append_nil]) hv hvalue ?_
    fun x u hx hu _ => (hnothing x u hx hu).elim
  refine head?_andThen_star (w := []) (u := []) rfl (by simp) ?_
    fun x u hx hu _ => (hnothing x u hx hu).elim
  rw [andThen_eol rfl]
  simpa using hk

/-- The second group takes one space, where more of them would leave nothing for the third. -/
theorem head?_andThen_gap (hc : c.rest = spaces 1 ++ v) (hv : v ≠ [])
    (hvalue : ∀ b ∈ v, infoValueClass b)
    (hgap : ∀ x u, x ≠ [] → v = x ++ u → (∀ b ∈ x, b = ' '.toUInt8) → u = [])
    (hk : (k ⟨c.before ++ spaces 1 ++ v, [],
      Function.update (Function.update c.groups 2 (spaces 1)) 3 v⟩).head? = some c') :
    (andThen (group 2 (plus (· = ' '.toUInt8))) (andThen (group 3 (plus infoValueClass))
      (andThen (star (· = ' '.toUInt8)) (andThen eol k))) c).head? = some c' := by
  rw [andThen_group]
  refine head?_andThen_plus hc (by decide) (forall_mem_spaces (by decide) 1) ?_
    fun x u hx hu hspaces => ?_
  · exact head?_andThen_value rfl hv hvalue (by simpa using hk)
  · have hu' : u = [] := hgap x u hx hu fun b hb => by simpa using hspaces b hb
    refine andThen_eq_nil fun c₁ h₁ => ?_
    obtain ⟨b, w, hrest, _⟩ := mem_run_group_plus h₁
    rw [hu'] at hrest
    cases hrest

/-- The groups of a line cut into a front part, two spaces and a rest. -/
def infoGroups (w v : Bytes) : Nat → Bytes :=
  Function.update (Function.update (Function.update (fun _ => []) 1 (w ++ spaces 1)) 2
    (spaces 1)) 3 v

@[simp] theorem infoGroups_one (w v : Bytes) : infoGroups w v 1 = w ++ spaces 1 := rfl

@[simp] theorem infoGroups_three (w v : Bytes) : infoGroups w v 3 = v := rfl

/-- **First match.**  The groups are cut at two spaces if what stands before them is in the
    class of names, what stands after them in the class of values, and if there is no such
    cut further on. -/
theorem search_info (hw : w ≠ []) (hname : ∀ b ∈ w, infoNameClass b) (hv : v ≠ [])
    (hvalue : ∀ b ∈ v, infoValueClass b)
    (hgap : ∀ x u, x ≠ [] → v = x ++ u → (∀ b ∈ x, b = ' '.toUInt8) → u = [])
    (hlast : ∀ x u, x ≠ [] → spaces 2 ++ v = x ++ (spaces 2 ++ u) → (∀ b ∈ x, infoNameClass b) →
      u = []) :
    systemInfoParser.matcher.search (w ++ (spaces 2 ++ v)) = some (infoGroups w v) := by
  have hseqs : seqs [.plus infoNameClass, .set (· = ' '.toUInt8)] =
      seq (.plus infoNameClass) (seq (.set (· = ' '.toUInt8)) .eps) := rfl
  have hrun : ∃ before, (run infoColumns (start (w ++ (spaces 2 ++ v)) 0)).head? =
      some ⟨before, [], infoGroups w v⟩ := by
    apply Exists.intro
    rw [← andThen_singleton, infoColumns]
    simp only [andThen_seq, andThen_eps]
    rw [andThen_group, hseqs]
    simp only [andThen_seq, andThen_eps]
    refine head?_andThen_plus (c := start (w ++ (spaces 2 ++ v)) 0) rfl hw hname ?_
      fun x u hx hu hx' => ?_
    · rw [andThen_set (show spaces 2 ++ v = ' '.toUInt8 :: (spaces 1 ++ v) from rfl) (by decide)]
      refine head?_andThen_gap rfl hv hvalue hgap ?_
      rw [List.head?_cons]
      rfl
    · -- a later cut needs two spaces and at least one byte after them
      refine andThen_eq_nil fun c₁ h₁ => andThen_eq_nil fun c₂ h₂ => andThen_eq_nil fun c₃ h₃ => ?_
      obtain ⟨b, rest, hrest, hb, rfl⟩ := mem_run_set.mp h₁
      obtain ⟨b₂, w₂, hrest₂, hb₂⟩ := mem_run_group_plus h₂
      obtain ⟨b₃, w₃, hrest₃, _⟩ := mem_run_group_plus h₃
      have hu' : u = spaces 2 ++ (w₂ ++ b₃ :: (w₃ ++ c₃.rest)) := by
        rw [show u = b :: rest from hrest, show rest = b₂ :: (w₂ ++ c₂.rest) from hrest₂, hrest₃,
          of_decide_eq_true hb, of_decide_eq_true hb₂]
        rfl
      have hnil := hlast x _ hx (hu'  ▸ hu) hx'
      simp at hnil
  obtain ⟨before, hbefore⟩ := hrun
  show search systemInfoParser _ = _
  rw [systemInfoParser_eq, search_bol, hbefore]
  rfl

end

/-- A line with a hyphen does not match. -/
theorem search_eq_none_of_hyphen {line : Bytes} (h : '-'.toUInt8 ∈ line) :
    systemInfoParser.matcher.search line = none := by
  rw [Option.eq_none_iff_forall_ne_some]
  intro g hg
  change search systemInfoParser line = some g at hg
  rw [systemInfoParser_eq, search_bol] at hg
  obtain ⟨c, hc, _⟩ := Option.map_eq_some_iff.mp hg
  have hrun := List.mem_of_mem_head? hc
  -- the match takes in the whole line, and no class has a hyphen
  have hover : Over (· ≠ '-'.toUInt8) infoColumns := by
    simp only [infoColumns, Over, seqs, plus, List.foldr_cons, List.foldr_nil]
    refine ⟨⟨⟨?_, ?_⟩, ?_, trivial⟩, ⟨?_, ?_⟩, ⟨?_, ?_⟩, ?_, trivial, trivial⟩ <;>
      exact fun b hb heq => absurd hb (by rw [heq]; decide)
  have hend : c.rest = [] := by
    obtain ⟨_, _, h₁⟩ := mem_run_seq.mp hrun
    obtain ⟨_, _, h₂⟩ := mem_run_seq.mp h₁
    obtain ⟨_, _, h₃⟩ := mem_run_seq.mp h₂
    obtain ⟨_, _, h₄⟩ := mem_run_seq.mp h₃
    obtain ⟨_, h₅, h₆⟩ := mem_run_seq.mp h₄
    rw [mem_run_eps.mp h₆, (mem_run_eol.mp h₅).2]
    exact (mem_run_eol.mp h₅).1
  obtain ⟨w, hbefore, hrest⟩ := run_consumes hrun
  have hline : c.before = line := by
    have hw : line = w ++ c.rest := hrest
    rw [hbefore, hw, hend, List.append_nil]
    rfl
  have hbytes := run_over hover hrun
  rw [hline] at hbytes
  exact hbytes _ h rfl

/-! ### The lines of a report -/

theorem Member.reportName_ne_nil (m : Member) : m.reportName ≠ [] := by
  cases m <;> decide

theorem Member.trimmed_reportName (m : Member) : Trimmed m.reportName := by
  cases m <;> decide +kernel

theorem Member.reportName_over (m : Member) : ∀ b ∈ m.reportName, infoNameClass b := by
  cases m <;> decide +kernel

/-- Every byte of a value but the hyphen is in the class of values. -/
theorem infoValueClass_of_valueByte {b : Byte} (h : valueByte b) (hb : b ≠ '-'.toUInt8) :
    infoValueClass b := by
  have hlist : ∀ b ∈ ofString "=',.:-()/\\_", b ≠ '-'.toUInt8 → b ∈ ofString "=',\\.:()/_" := by
    decide +kernel
  rw [valueByte, Bool.or_eq_true, List.contains_iff_mem] at h
  rw [infoValueClass, Bool.or_eq_true, List.contains_iff_mem]
  exact h.imp_right fun hmem => hlist b hmem hb

namespace InfoLine

variable (l : InfoLine)

/-- What the trailing spaces swallow: at least three of them, after a value that is wholly in
    the class of names. -/
def Swallowed : Prop := 3 ≤ l.trail ∧ ∀ b ∈ l.value, infoNameClass b

/-- After the gap, two spaces in a row are trailing spaces of a value that they swallow, or the
    last bytes of the line. -/
theorem eq_nil_of_later_cut (hswallowed : ¬ l.Swallowed) {x u : Bytes} (hx : x ≠ [])
    (hxu : spaces 2 ++ (l.value ++ spaces l.trail) = x ++ (spaces 2 ++ u))
    (hname : ∀ b ∈ x, infoNameClass b) : u = [] := by
  have hlen : ∀ z : Bytes, spaces l.trail = z ++ (spaces 2 ++ u) → u ≠ [] → 3 ≤ l.trail := by
    intro z hz hu
    have hcount := congrArg List.length hz
    have hpos := List.length_pos_iff.mpr hu
    simp only [spaces, List.length_append, List.length_replicate] at hcount
    omega
  by_contra hu
  rcases x with _ | ⟨a, _ | ⟨a', x⟩⟩
  · exact hx rfl
  · -- then the value would begin with a space
    have hvalue : l.value ++ spaces l.trail = ' '.toUInt8 :: u := by
      have htail : ' '.toUInt8 :: (l.value ++ spaces l.trail) = spaces 2 ++ u :=
        (List.cons.inj hxu).2
      exact (List.cons.inj htail).2
    obtain ⟨b, value, hb⟩ := List.exists_cons_of_ne_nil l.value_ne_nil
    rw [hb, List.cons_append, List.cons.injEq] at hvalue
    exact l.value_trimmed.1 (by rw [hb, hvalue.1]; rfl)
  · have hrest : l.value ++ spaces l.trail = x ++ (spaces 2 ++ u) :=
      (List.cons.inj (List.cons.inj hxu).2).2
    have hx : ∀ b ∈ x, infoNameClass b := fun b hb => hname b (by simp [hb])
    rcases List.append_eq_append_iff.mp hrest with ⟨z, hz, htrail⟩ | ⟨z, hz, htrail⟩
    · -- the cut lies in the trailing spaces
      refine hswallowed ⟨hlen z htrail hu, fun b hb => hx b ?_⟩
      rw [hz]
      exact List.mem_append_left _ hb
    · rcases z with _ | ⟨b, _ | ⟨b', z⟩⟩
      · rw [List.append_nil] at hz
        exact hswallowed ⟨hlen [] htrail.symm hu, fun b hb => hx b (hz ▸ hb)⟩
      · -- the value would end with a space
        have hb : b = ' '.toUInt8 := (List.cons.inj htrail).1.symm
        exact l.value_trimmed.2 (by rw [hz, hb]; simp)
      · -- the value would have two spaces in a row
        have hb : b = ' '.toUInt8 := (List.cons.inj htrail).1.symm
        have hb' : b' = ' '.toUInt8 := (List.cons.inj (List.cons.inj htrail).2).1.symm
        exact l.value_single ⟨x, z, by rw [hz, hb, hb']; simp [spaces]⟩

/-- A line whose value is found. -/
theorem search_text (hhyphen : '-'.toUInt8 ∉ l.value) (hswallowed : ¬ l.Swallowed) :
    systemInfoParser.matcher.search l.text = some (infoGroups
      (spaces l.lead ++ (l.member.reportName ++ spaces (l.gap - 2))) (l.value ++ spaces l.trail)) := by
  have htext : l.text = (spaces l.lead ++ (l.member.reportName ++ spaces (l.gap - 2))) ++
      (spaces 2 ++ (l.value ++ spaces l.trail)) := by
    have hgap : spaces l.gap = spaces (l.gap - 2) ++ spaces 2 := by
      rw [spaces_append, Nat.sub_add_cancel l.two_le_gap]
    rw [text, hgap]
    simp only [List.append_assoc]
  rw [htext]
  have hhead : (l.value ++ spaces l.trail).head? ≠ some ' '.toUInt8 := by
    rw [List.head?_append_of_ne_nil _ l.value_ne_nil]
    exact l.value_trimmed.1
  refine search_info (by simp [l.member.reportName_ne_nil]) ?_ (by simp [l.value_ne_nil]) ?_ ?_ ?_
  · simp only [List.forall_mem_append]
    exact ⟨forall_mem_spaces (by decide) _, l.member.reportName_over,
      forall_mem_spaces (by decide) _⟩
  · rw [List.forall_mem_append]
    exact ⟨fun b hb => infoValueClass_of_valueByte (l.value_over b hb) fun h => hhyphen (h ▸ hb),
      forall_mem_spaces (by decide) _⟩
  · -- the value does not begin with a space
    intro x u hx hu hspaces
    obtain ⟨b, x, rfl⟩ := List.exists_cons_of_ne_nil hx
    rw [hu] at hhead
    exact absurd (by rw [hspaces b (by simp)]; rfl) hhead
  · exact fun x u hx hxu hname => l.eq_nil_of_later_cut hswallowed hx hxu hname

/-- A line whose value is swallowed: the first group ends in the trailing spaces. -/
theorem search_text_of_swallowed (h : l.Swallowed) :
    systemInfoParser.matcher.search l.text = some (infoGroups
      (spaces l.lead ++ (l.member.reportName ++ (spaces l.gap ++ (l.value ++ spaces (l.trail - 3)))))
      (spaces 1)) := by
  have htext : l.text = (spaces l.lead ++ (l.member.reportName ++ (spaces l.gap ++
      (l.value ++ spaces (l.trail - 3))))) ++ (spaces 2 ++ spaces 1) := by
    have htrail : spaces l.trail = spaces (l.trail - 3) ++ (spaces 2 ++ spaces 1) := by
      rw [spaces_append, spaces_append, Nat.sub_add_cancel h.1]
    rw [text, htrail]
    simp only [List.append_assoc]
  rw [htext]
  -- a cut further on needs one space more than there are
  have hnone : ∀ (n : Nat) (x u : Bytes), x ≠ [] → spaces (n + 1) = x ++ (spaces n ++ u) →
      u = [] := by
    intro n x u hx hu
    have hlen := congrArg List.length hu
    have hpos := List.length_pos_iff.mpr hx
    simp only [spaces, List.length_append, List.length_replicate] at hlen
    exact List.length_eq_zero_iff.mp (by omega)
  refine search_info (by simp [l.member.reportName_ne_nil]) ?_ (by decide)
    (forall_mem_spaces (by decide) 1) (fun x u hx hu _ => hnone 0 x u hx hu)
    (fun x u hx hu _ => hnone 2 x u hx hu)
  simp only [List.forall_mem_append]
  exact ⟨forall_mem_spaces (by decide) _, l.member.reportName_over,
    forall_mem_spaces (by decide) _, h.2, forall_mem_spaces (by decide) _⟩

/-- The value a line brings for its member. -/
theorem lineValue_text (hhyphen : '-'.toUInt8 ∉ l.value) (hswallowed : ¬ l.Swallowed) :
    lineValue systemInfoParser.matcher l.member l.text = some l.value := by
  have hgap : spaces (l.gap - 2) ++ spaces 1 = spaces (l.gap - 1) := by
    rw [spaces_append]
    exact congrArg spaces (by have := l.two_le_gap; omega)
  have hname : trim (spaces l.lead ++ (l.member.reportName ++ spaces (l.gap - 2)) ++ spaces 1) =
      l.member.reportName := by
    rw [List.append_assoc, List.append_assoc, hgap]
    exact trim_pad _ _ l.member.reportName_ne_nil l.member.trimmed_reportName
  have hvalue : trim (l.value ++ spaces l.trail) = l.value :=
    trim_pad 0 _ l.value_ne_nil l.value_trimmed
  rw [lineValue_eq, l.search_text hhyphen hswallowed, Option.bind_some]
  simp only [infoGroups_one, infoGroups_three, hname, hvalue, if_true]

/-- A line whose value is swallowed brings nothing for its member: the name found is longer. -/
theorem lineValue_text_of_swallowed (h : l.Swallowed) :
    lineValue systemInfoParser.matcher l.member l.text = none := by
  have hne : l.member.reportName ++ (spaces l.gap ++ l.value) ≠ l.member.reportName := by
    intro heq
    have hlen := congrArg List.length heq
    have hpos := List.length_pos_iff.mpr l.value_ne_nil
    simp only [List.length_append] at hlen
    omega
  have hcore : Trimmed (l.member.reportName ++ (spaces l.gap ++ l.value)) :=
    l.member.trimmed_reportName.join l.member.reportName_ne_nil l.value_ne_nil l.value_trimmed _
  have htrim := trim_pad l.lead (l.trail - 3 + 1) (by simp [l.member.reportName_ne_nil]) hcore
  rw [← spaces_append] at htrim
  simp only [List.append_assoc] at htrim
  rw [lineValue_eq, l.search_text_of_swallowed h, Option.bind_some]
  simp only [infoGroups_one, List.append_assoc, htrim, hne, if_false]

end InfoLine

/-- A line without a member's report name brings nothing for it. -/
theorem lineValue_of_absent {p : Matcher} {m : Member} {line : Bytes}
    (h : ¬ m.reportName <:+: line) : lineValue p m line = none := by
  rw [Option.eq_none_iff_forall_ne_some]
  intro v hv
  obtain ⟨groups, hsearch, hgroups⟩ := Option.bind_eq_some_iff.mp hv
  rw [Option.ite_none_right_eq_some, lookup_eq_some_iff] at hgroups
  exact h (hgroups.1 ▸ (trim_isInfix _).trans (p.range hsearch 1))

/-- The member of the only line that names it holds what that line brings. -/
theorem fillSystemInfo_of_line {p : Matcher} {m : Member} {text line : Bytes}
    {before after : List Bytes} (htext : lines text = before ++ line :: after)
    (hothers : ∀ other ∈ before ++ after, ¬ m.reportName <:+: other) :
    fillSystemInfo p text m = (lineValue p m line).getD [] := by
  have hnone : ∀ others : List Bytes, (∀ other ∈ others, ¬ m.reportName <:+: other) →
      others.filterMap (lineValue p m) = [] :=
    fun others h => List.filterMap_eq_nil_iff.mpr fun other ho => lineValue_of_absent (h other ho)
  have hvalues : (lines text).filterMap (lineValue p m) = (lineValue p m line).toList := by
    rw [htext, List.filterMap_append, List.filterMap_cons,
      hnone before fun o ho => hothers o (List.mem_append_left _ ho),
      hnone after fun o ho => hothers o (List.mem_append_right _ ho)]
    cases lineValue p m line <;> rfl
  rw [fillSystemInfo, foldl_readInfoLine, hvalues]
  cases lineValue p m line with
  | none => rfl
  | some v => simp [storedValue, SystemInfo.new]

/-- **Information lines.**  The value of the only line that names a member reaches the member
    exactly if it has no hyphen and is not swallowed by the spaces after it. -/
theorem info_line_stored_iff (l : InfoLine) {text : Bytes} {before after : List Bytes}
    (htext : lines text = before ++ l.text :: after)
    (hothers : ∀ other ∈ before ++ after, ¬ l.member.reportName <:+: other) :
    fillSystemInfo systemInfoParser.matcher text l.member = l.value ↔
      '-'.toUInt8 ∉ l.value ∧ ¬ (3 ≤ l.trail ∧ ∀ b ∈ l.value, infoNameClass b) := by
  rw [fillSystemInfo_of_line htext hothers]
  by_cases hhyphen : '-'.toUInt8 ∈ l.value
  · have hline : '-'.toUInt8 ∈ l.text := by simp [InfoLine.text, hhyphen]
    rw [lineValue, search_eq_none_of_hyphen hline]
    exact iff_of_false (Ne.symm l.value_ne_nil) fun h => h.1 hhyphen
  by_cases hswallowed : l.Swallowed
  · rw [l.lineValue_text_of_swallowed hswallowed]
    exact iff_of_false (Ne.symm l.value_ne_nil) fun h => h.2 hswallowed
  · rw [l.lineValue_text hhyphen hswallowed]
    exact iff_of_true rfl ⟨hhyphen, hswallowed⟩

/-- The virtual machine of a 64 bit installation. -/
def hotSpotLine : InfoLine where
  lead   := 2
  member := .javaVirtualMachine
  gap    := 8
  value  := ofString "Java HotSpot(TM) 64-Bit Server VM"
  trail  := 0
  two_le_gap    := by decide
  value_ne_nil  := by decide
  value_over    := by decide +kernel
  value_trimmed := by decide
  value_single  := by decide +kernel

/-- A value of letters with spaces after it. -/
def vendorLine : InfoLine where
  lead   := 2
  member := .vendor
  gap    := 8
  value  := ofString "Oracle Corporation"
  trail  := 3
  two_le_gap    := by decide
  value_ne_nil  := by decide
  value_over    := by decide +kernel
  value_trimmed := by decide
  value_single  := by decide +kernel

/-- The two values never reach their members. -/
theorem values_not_stored :
    fillSystemInfo systemInfoParser.matcher hotSpotLine.text .javaVirtualMachine ≠
        hotSpotLine.value ∧
      fillSystemInfo systemInfoParser.matcher vendorLine.text .vendor ≠ vendorLine.value := by
  decide +kernel

/-- A report with both lines. -/
def smallReport : Bytes := vendorLine.text ++ ofString "\n" ++ hotSpotLine.text

theorem info_line_hotSpot :
    fillSystemInfo systemInfoParser.matcher smallReport .javaVirtualMachine = hotSpotLine.value ↔
      '-'.toUInt8 ∉ hotSpotLine.value ∧
        ¬ (3 ≤ hotSpotLine.trail ∧ ∀ b ∈ hotSpotLine.value, infoNameClass b) :=
  info_line_stored_iff hotSpotLine
    (show lines smallReport = [vendorLine.text] ++ hotSpotLine.text :: [] by decide +kernel)
    (by decide +kernel)

end OsgiManager.ESB
