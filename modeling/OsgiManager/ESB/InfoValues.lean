import OsgiManager.ESB.Trim
import OsgiManager.ESB.SystemInfo

namespace OsgiManager.ESB

open OsgiManager.Lib

/-!
# The values of a system information report

What `GetSystemInfo` collects from the lines of a report, member by member.

* `Member.reportName` — the report name of a member, as the source's branches have it;
* `valuesNamed` — the trimmed values of the lines with a name, in order;
* `fillSystemInfo_eq` — a member holds the last of its values, the garbage collectors all of
  them, and a line with another name changes nothing.
-/

/-- The report name whose branch of `setValue` writes a member. -/
def Member.reportName : Member → Bytes
  | architecture         => ofString "Architecture"
  | committedHeap        => ofString "Committed heap size"
  | currentClassesLoaded => ofString "Current classes loaded"
  | currentHeap          => ofString "Current heap size"
  | daemonThreads        => ofString "Daemon threads"
  | garbageCollector     => ofString "Garbage collector"
  | javaVirtualMachine   => ofString "Java Virtual Machine"
  | liveThreads          => ofString "Live threads"
  | maximumHeap          => ofString "Maximum heap size"
  | name                 => ofString "Name"
  | version              => ofString "Version"
  | vendor               => ofString "Vendor"
  | upTime               => ofString "Uptime"
  | totalStarted         => ofString "Total started"
  | totalCompileTime     => ofString "Total compile time"
  | totalClassesUnloaded => ofString "Total classes unloaded"
  | totalClassesLoaded   => ofString "Total classes loaded"
  | processors           => ofString "Processors"
  | pid                  => ofString "Pid"
  | pendingObjects       => ofString "Pending objects"
  | peak                 => ofString "Peak"

/-- The first branch that matches a member's report name is the member's own. -/
theorem lookup_reportName (m : Member) : reportNames.lookup m.reportName = some m := by
  cases m <;> decide +kernel

/-- `setValue` writes a member exactly for its report name. -/
theorem lookup_eq_some_iff {name : Bytes} {m : Member} :
    reportNames.lookup name = some m ↔ name = m.reportName := by
  constructor
  · intro h
    have hmem : (name, m) ∈ reportNames := by
      obtain ⟨l₁, l₂, hl, _⟩ := List.lookup_eq_some_iff.mp h
      simp [hl]
    have hnames : ∀ e ∈ reportNames, e.1 = e.2.reportName := by decide +kernel
    exact hnames _ hmem
  · rintro rfl
    exact lookup_reportName m

/-- The value a line brings, in terms of the report name. -/
theorem lineValue_eq (p : Matcher) (m : Member) (line : Bytes) :
    lineValue p m line = (p.search line).bind fun groups =>
      if trim (groups 1) = m.reportName then some (trim (groups 3)) else none := by
  simp only [lineValue, lookup_eq_some_iff]

/-- The trimmed third groups of the matching lines whose trimmed first group is a name. -/
def valuesNamed (p : Matcher) (name : Bytes) (text : Bytes) : List Bytes :=
  (lines text).filterMap fun line => (p.search line).bind fun groups =>
    if trim (groups 1) = name then some (trim (groups 3)) else none

theorem valuesOf_eq_valuesNamed (p : Matcher) (m : Member) (text : Bytes) :
    valuesOf p m text = valuesNamed p m.reportName text := by
  exact List.filterMap_congr fun line _ => lineValue_eq p m line

/-- Values that are never empty. -/
theorem ne_nil_of_mem_valuesOf {p : Matcher}
    (hp : ∀ line groups, p.search line = some groups → groups 3 ≠ []) {m : Member} {text v : Bytes}
    (hv : v ∈ valuesOf p m text) : v ≠ [] := by
  obtain ⟨line, _, hline⟩ := List.mem_filterMap.mp hv
  obtain ⟨groups, hsearch, hgroups⟩ := Option.bind_eq_some_iff.mp hline
  rw [Option.ite_none_right_eq_some, Option.some.injEq] at hgroups
  rw [← hgroups.2]
  exact trim_ne_nil (hp line groups hsearch)

/-- The accumulating member puts each further value on a line of its own. -/
theorem foldl_storedValue_gc {vs : List Bytes} (hvs : ∀ v ∈ vs, v ≠ []) {old : Bytes}
    (ho : old ≠ []) :
    vs.foldl (fun old v => storedValue (fun _ => old) .garbageCollector v) old =
      (ofString "\n").intercalate (old :: vs) := by
  induction vs generalizing old with
  | nil => simp
  | cons v vs ih =>
    obtain ⟨hv, hvs⟩ := List.forall_mem_cons.mp hvs
    have hpos : 0 < old.length := List.length_pos_iff.mpr ho
    have hstored : storedValue (fun _ => old) .garbageCollector v = old ++ (ofString "\n" ++ v) := by
      rw [storedValue, if_pos ⟨rfl, hpos⟩]
    rw [List.foldl_cons, hstored, ih hvs (by simp [ho])]
    cases vs with
    | nil => simp
    | cons w ws => simp [List.intercalate_cons_cons]

/-- **System information.**  With a matcher whose third group is never empty, every member but
    the garbage collectors holds the last value of a line with its report name, or nothing;
    the garbage collectors hold all their values, one to a line; a line with a name that is
    no member's changes nothing. -/
theorem fillSystemInfo_eq (p : Matcher)
    (hp : ∀ line groups, p.search line = some groups → groups 3 ≠ []) (text : Bytes) :
    (∀ m, m ≠ .garbageCollector →
        fillSystemInfo p text m = (valuesNamed p m.reportName text).getLast?.getD []) ∧
      fillSystemInfo p text .garbageCollector =
        (ofString "\n").intercalate (valuesNamed p (ofString "Garbage collector") text) ∧
      ∀ info line groups, p.search line = some groups →
        (∀ m : Member, trim (groups 1) ≠ m.reportName) → readInfoLine p info line = info := by
  refine ⟨fun m hm => ?_, ?_, fun info line groups hsearch hname => ?_⟩
  · rw [fillSystemInfo, foldl_readInfoLine, foldl_storedValue_of_ne hm, ← valuesOf,
      valuesOf_eq_valuesNamed]
    rfl
  · have hvs : ∀ v ∈ valuesOf p .garbageCollector text, v ≠ [] :=
      fun v hv => ne_nil_of_mem_valuesOf hp hv
    rw [fillSystemInfo, foldl_readInfoLine, ← valuesOf]
    show _ = (ofString "\n").intercalate (valuesNamed p (Member.garbageCollector).reportName text)
    rw [← valuesOf_eq_valuesNamed]
    cases hvals : valuesOf p .garbageCollector text with
    | nil => rfl
    | cons v vs =>
      -- the first value overwrites the empty string, the others are appended
      rw [hvals, List.forall_mem_cons] at hvs
      rw [List.foldl_cons]
      exact foldl_storedValue_gc hvs.2 hvs.1
  · have hnone : reportNames.lookup (trim (groups 1)) = none := by
      rw [Option.eq_none_iff_forall_ne_some]
      exact fun m hlook => hname m (lookup_eq_some_iff.mp hlook)
    simp only [readInfoLine, hsearch, SystemInfo.setValue, hnone]

/-- The third group of the shipped expression is never empty. -/
theorem systemInfoParser_value_ne_nil {line : Bytes} {groups : Nat → Bytes}
    (h : systemInfoParser.matcher.search line = some groups) : groups 3 ≠ [] := by
  obtain ⟨i, c, hc, rfl⟩ := Regex.exists_run_of_search h
  -- walk through the expression up to the third group, and on to the end
  obtain ⟨_, _, hc⟩ := Regex.mem_run_seq.mp hc
  obtain ⟨_, _, hc⟩ := Regex.mem_run_seq.mp hc
  obtain ⟨c₂, _, hc⟩ := Regex.mem_run_seq.mp hc
  obtain ⟨c₃, h₃, hc⟩ := Regex.mem_run_seq.mp hc
  obtain ⟨c₄, h₄, hc⟩ := Regex.mem_run_seq.mp hc
  obtain ⟨c₅, h₅, hc⟩ := Regex.mem_run_seq.mp hc
  have hend : c.groups = c₃.groups := by
    obtain ⟨_, _, _, hgroups, _⟩ := Regex.mem_run_star h₄
    rw [Regex.mem_run_eps.mp hc, (Regex.mem_run_eol.mp h₅).2, hgroups]
  obtain ⟨c₃', h₃', rfl⟩ := Regex.mem_run_group.mp h₃
  obtain ⟨cb, hb, hstar⟩ := Regex.mem_run_seq.mp h₃'
  obtain ⟨b, rest, _, _, rfl⟩ := Regex.mem_run_set.mp hb
  obtain ⟨w, hw, _, _, _⟩ := Regex.mem_run_star hstar
  rw [hend]
  simp [hw]

/-- A report with two garbage collectors. -/
def twoCollectors : Bytes :=
  ofString "  Garbage collector     PS Scavenge\n  Name     2.4.0\n" ++
    ofString "  Garbage collector     PS MarkSweep\n"

theorem fillSystemInfo_twoCollectors :
    (∀ m, m ≠ .garbageCollector → fillSystemInfo systemInfoParser.matcher twoCollectors m =
        (valuesNamed systemInfoParser.matcher m.reportName twoCollectors).getLast?.getD []) ∧
      fillSystemInfo systemInfoParser.matcher twoCollectors .garbageCollector =
        (ofString "\n").intercalate
          (valuesNamed systemInfoParser.matcher (ofString "Garbage collector") twoCollectors) ∧
      ∀ info line groups, systemInfoParser.matcher.search line = some groups →
        (∀ m : Member, trim (groups 1) ≠ m.reportName) →
          readInfoLine systemInfoParser.matcher info line = info :=
  fillSystemInfo_eq systemInfoParser.matcher
    (fun _ _ h => systemInfoParser_value_ne_nil h) twoCollectors

example : valuesNamed systemInfoParser.matcher (ofString "Garbage collector") twoCollectors =
    [ofString "PS Scavenge", ofString "PS MarkSweep"] := by decide +kernel

end OsgiManager.ESB
