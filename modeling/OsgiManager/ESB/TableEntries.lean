import OsgiManager.ESB.Trim
import OsgiManager.ESB.ConfigFile

namespace OsgiManager.ESB

open OsgiManager.Lib

/-!
# The entries of a parsed table

The table a listing parses to, entry by entry.

* `getElem?_mapBundleNamesToBundlesId` — a name's entry is the bundle of the last matching line
  with that name;
* `entry_of_line` — what that means for one line of the listing: it has an entry, which is its
  own bundle unless a later line has the same name.
-/

/-- The matches of some lines, in order. -/
def matchesOf (p : Matcher) (ls : List Bytes) : List (Nat → Bytes) := ls.filterMap p.search

/-- The last match whose bundle has a name. -/
def lastNamed (ms : List (Nat → Bytes)) (name : Bytes) : Option (Nat → Bytes) :=
  (ms.filter fun m => (bundleOfMatch m).name = name).getLast?

theorem lastNamed_cons (m : Nat → Bytes) (ms : List (Nat → Bytes)) (name : Bytes) :
    lastNamed (m :: ms) name =
      (lastNamed ms name).or (if (bundleOfMatch m).name = name then some m else none) := by
  rw [lastNamed, List.filter_cons]
  by_cases h : (bundleOfMatch m).name = name
  · simp only [h, decide_true, if_true, List.getLast?_cons, lastNamed]
    cases (ms.filter fun m => (bundleOfMatch m).name = name).getLast? <;> rfl
  · simp [h, lastNamed]

/-- **Loop lemma.**  After some lines, a name's entry is that of the last line with the name;
    where there is no such line, it is the old entry. -/
theorem getElem?_foldl_mapLine (p : Matcher) (ls : List Bytes) (bundles : BundleMap)
    (name : Bytes) : (ls.foldl (mapLine p) bundles)[name]? =
      ((lastNamed (matchesOf p ls) name).map bundleOfMatch).or bundles[name]? := by
  induction ls generalizing bundles with
  | nil => simp [lastNamed, matchesOf]
  | cons line ls ih =>
    rw [List.foldl_cons, ih, mapLine, matchesOf, matchesOf, List.filterMap_cons]
    cases p.search line with
    | none => rfl
    | some m =>
      show Option.or _ (bundles.insert (bundleOfMatch m).name (bundleOfMatch m))[name]? = _
      rw [lastNamed_cons, Std.TreeMap.getElem?_insert]
      by_cases h : (bundleOfMatch m).name = name
      · rw [if_pos (by simpa using h), if_pos h]
        cases lastNamed (List.filterMap p.search ls) name <;> simp
      · rw [if_neg (by simpa using h), if_neg h, Option.or_none]

/-- A name's entry in the table of a listing: the last matching line with that name. -/
theorem getElem?_mapBundleNamesToBundlesId (p : Matcher) (text name : Bytes) :
    (mapBundleNamesToBundlesId p text)[name]? =
      (lastNamed (matchesOf p ((lines text).drop 2)) name).map bundleOfMatch := by
  rw [mapBundleNamesToBundlesId, getElem?_foldl_mapLine]
  simp

theorem lastNamed_append (ms ns : List (Nat → Bytes)) (name : Bytes) :
    lastNamed (ms ++ ns) name = (lastNamed ns name).or (lastNamed ms name) := by
  rw [lastNamed, List.filter_append, List.getLast?_append]
  rfl

/-- **Lines and entries.**  Every matching line has an entry under its bundle's name.  The
    entry is the bundle of the last later line with that name, and the line's own bundle
    when there is no such line. -/
theorem entry_of_line (p : Matcher) (text line : Bytes) (before after : List Bytes)
    (m : Nat → Bytes) (hls : (lines text).drop 2 = before ++ line :: after)
    (hm : p.search line = some m) :
    (mapBundleNamesToBundlesId p text)[(bundleOfMatch m).name]? = some (bundleOfMatch
      ((lastNamed (matchesOf p after) (bundleOfMatch m).name).getD m)) := by
  rw [getElem?_mapBundleNamesToBundlesId, hls, matchesOf, List.filterMap_append,
    List.filterMap_cons, hm, lastNamed_append]
  show Option.map _ ((lastNamed (m :: _) _).or _) = _
  rw [lastNamed_cons, if_pos rfl, matchesOf]
  cases lastNamed (List.filterMap p.search after) (bundleOfMatch m).name <;> rfl

/-- A listing with one jar in two deploy directories. -/
def twoDeployments : Bytes :=
  ofString "\n\n[ 210] [Active] [ ] [Started] [   80] file:C:/a/deploy/xom-1.2.5.jar\n" ++
    ofString "[ 211] [Active] [ ] [Failed] [   80] file:C:/b/deploy/xom-1.2.5.jar\n"

/-- The lines of `twoDeployments` from the third on, and the matches of the two bundles. -/
theorem lines_twoDeployments : (lines twoDeployments).drop 2 =
    [ ofString "[ 210] [Active] [ ] [Started] [   80] file:C:/a/deploy/xom-1.2.5.jar",
      ofString "[ 211] [Active] [ ] [Failed] [   80] file:C:/b/deploy/xom-1.2.5.jar", [] ] := by
  decide +kernel

/-- The two bundles share one entry, that of the second line. -/
theorem entry_twoDeployments : ∃ m, listParser.matcher.search
      (ofString "[ 210] [Active] [ ] [Started] [   80] file:C:/a/deploy/xom-1.2.5.jar") = some m ∧
    (mapBundleNamesToBundlesId listParser.matcher twoDeployments)[(bundleOfMatch m).name]? =
      some (bundleOfMatch ((lastNamed (matchesOf listParser.matcher
        [ofString "[ 211] [Active] [ ] [Failed] [   80] file:C:/b/deploy/xom-1.2.5.jar", []])
          (bundleOfMatch m).name).getD m)) := by
  obtain ⟨m, hm⟩ := Option.isSome_iff_exists.mp (show (listParser.matcher.search (ofString
    "[ 210] [Active] [ ] [Started] [   80] file:C:/a/deploy/xom-1.2.5.jar")).isSome by decide +kernel)
  exact ⟨m, hm, entry_of_line listParser.matcher twoDeployments _ [] _ m lines_twoDeployments hm⟩

/-- The id of the first line is in no entry of the table. -/
theorem id_lost_twoDeployments :
    ∃ line ∈ (lines twoDeployments).drop 2, ∃ m, listParser.matcher.search line = some m ∧
      ∀ (name : Bytes) (b : Bundle),
        (mapBundleNamesToBundlesId listParser.matcher twoDeployments)[name]? = some b →
          b.id ≠ (bundleOfMatch m).id := by
  have hid : (listParser.matcher.search (ofString
      "[ 210] [Active] [ ] [Started] [   80] file:C:/a/deploy/xom-1.2.5.jar")).map
        (fun m => (bundleOfMatch m).id) = some (ofString "210") := by decide +kernel
  have hids : ((mapBundleNamesToBundlesId listParser.matcher twoDeployments).toList.map
      fun e => e.2.id) = [ofString "211"] := by decide +kernel
  obtain ⟨m, hm, hmid⟩ := Option.map_eq_some_iff.mp hid
  refine ⟨_, by rw [lines_twoDeployments]; simp, m, hm, fun name b hb heq => ?_⟩
  have hmem : b.id ∈ (mapBundleNamesToBundlesId listParser.matcher twoDeployments).toList.map
      fun e => e.2.id :=
    List.mem_map.mpr ⟨(name, b), Std.TreeMap.mem_toList_iff_getElem?_eq_some.mpr hb, rfl⟩
  rw [hids, heq, hmid] at hmem
  exact absurd hmem (by decide)

end OsgiManager.ESB
