import OsgiManager.ESB.TableEntries
import OsgiManager.ESB.InfoValues

namespace OsgiManager.ESB

open OsgiManager.Lib

/-!
# Normalised fields

Every column of a listing and every value of a report passes through `trim`.

* `FieldsNormalised` — what is stored has no leading and no trailing space;
* `NoBlankColumn` — no column that is stored was captured as a run of spaces;
* `fieldsNormalised_iff` — the two are the same.
-/

/-- The string fields of a bundle. -/
def Bundle.fields (b : Bundle) : List Bytes :=
  [b.id, b.state, b.blueprint, b.spring, b.level, b.name]

/-- The groups of the list expression that are stored. -/
def columns : List Nat := [1, 2, 3, 4, 5, 6]

theorem fields_bundleOfMatch (m : Nat → Bytes) :
    (bundleOfMatch m).fields = columns.map fun i => trim (m i) := rfl

/-- The fields of the bundles a listing is stored as, and the values stored of a report, have
    no leading and no trailing space. -/
def FieldsNormalised (listing report : Matcher) (listingText reportText : Bytes) : Prop :=
  (∀ (name : Bytes) (b : Bundle), (mapBundleNamesToBundlesId listing listingText)[name]? = some b →
      ∀ field ∈ b.fields, Trimmed field) ∧
    ∀ m : Member, ∀ value ∈ valuesNamed report m.reportName reportText, Trimmed value

/-- No blank column: neither among the columns of a matching line of the listing that no later
    line replaces, nor as the value of a line of the report with a member's name. -/
def NoBlankColumn (listing report : Matcher) (listingText reportText : Bytes) : Prop :=
  (∀ name m, lastNamed (matchesOf listing ((lines listingText).drop 2)) name = some m →
      ∀ i ∈ columns, ¬ Blank (m i)) ∧
    ∀ line ∈ lines reportText, ∀ groups, report.search line = some groups →
      (∃ m : Member, trim (groups 1) = m.reportName) → ¬ Blank (groups 3)

/-- The fields of a bundle are normalised exactly when no column of its match is blank. -/
theorem fields_trimmed_iff (m : Nat → Bytes) :
    (∀ field ∈ (bundleOfMatch m).fields, Trimmed field) ↔ ∀ i ∈ columns, ¬ Blank (m i) := by
  rw [fields_bundleOfMatch, List.forall_mem_map]
  exact forall₂_congr fun i _ => trimmed_trim_iff (m i)

theorem mem_valuesNamed {p : Matcher} {name text v : Bytes} : v ∈ valuesNamed p name text ↔
    ∃ line ∈ lines text, ∃ groups, p.search line = some groups ∧ trim (groups 1) = name ∧
      v = trim (groups 3) := by
  simp only [valuesNamed, List.mem_filterMap, Option.bind_eq_some_iff,
    Option.ite_none_right_eq_some, Option.some.injEq, eq_comm (a := v)]

/-- The values named are those that a report stores in a member, one after the other. -/
theorem fillSystemInfo_valuesNamed (p : Matcher) (text : Bytes) (m : Member) :
    fillSystemInfo p text m = (valuesNamed p m.reportName text).foldl
      (fun old v => storedValue (fun _ => old) m v) [] := by
  rw [fillSystemInfo, foldl_readInfoLine, ← valuesOf, valuesOf_eq_valuesNamed]
  rfl

/-- **Normalised fields.**  What a member holds after a report has been stored in it value by
    value; and all strings stored are normalised exactly when no column that is stored was
    captured blank. -/
theorem fieldsNormalised_iff (listing report : Matcher) (listingText reportText : Bytes) :
    (∀ m : Member, fillSystemInfo report reportText m =
        (valuesNamed report m.reportName reportText).foldl
          (fun old v => storedValue (fun _ => old) m v) []) ∧
      (FieldsNormalised listing report listingText reportText ↔
        NoBlankColumn listing report listingText reportText) := by
  refine ⟨fillSystemInfo_valuesNamed report reportText, ?_⟩
  refine and_congr ⟨fun h name m hm => ?_, fun h name b hb => ?_⟩ ⟨fun h => ?_, fun h => ?_⟩
  · refine (fields_trimmed_iff m).mp (h name (bundleOfMatch m) ?_)
    rw [getElem?_mapBundleNamesToBundlesId, hm]
    rfl
  · rw [getElem?_mapBundleNamesToBundlesId, Option.map_eq_some_iff] at hb
    obtain ⟨m, hm, rfl⟩ := hb
    exact (fields_trimmed_iff m).mpr (h name m hm)
  · intro line hline groups hsearch hname
    obtain ⟨m, hm⟩ := hname
    exact (trimmed_trim_iff _).mp
      (h m _ (mem_valuesNamed.mpr ⟨line, hline, groups, hsearch, hm, rfl⟩))
  · intro m value hvalue
    obtain ⟨line, hline, groups, hsearch, hm, rfl⟩ := mem_valuesNamed.mp hvalue
    exact (trimmed_trim_iff _).mpr (h line hline groups hsearch ⟨m, hm⟩)

/-- A listing of a bundle without blueprint. -/
def blankBlueprint : Bytes :=
  ofString "\n\n[ 210] [Active     ] [            ] [Started ] [   80] file:C:/deploy/xom-1.2.5.jar\n"

/-- The blank column is stored as it is. -/
theorem blankBlueprint_not_normalised :
    ¬ FieldsNormalised listParser.matcher systemInfoParser.matcher blankBlueprint [] := by
  intro h
  have hstored : (mapBundleNamesToBundlesId listParser.matcher blankBlueprint)[
      ofString "xom-1.2.5.jar"]?.map (·.blueprint) = some (ofString "            ") := by
    decide +kernel
  obtain ⟨b, hb, hblueprint⟩ := Option.map_eq_some_iff.mp hstored
  have ht := h.1 _ b hb b.blueprint (by simp [Bundle.fields])
  rw [hblueprint] at ht
  exact absurd ht (by decide +kernel)

end OsgiManager.ESB
