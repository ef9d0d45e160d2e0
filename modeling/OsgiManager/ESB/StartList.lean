import OsgiManager.ESB.Listing

namespace OsgiManager.ESB

open OsgiManager.Lib

/-!
# The start list

`BuildBundlesToStart` walks the two configured name lists, appends the id of every bundle
that has to be started to one string and counts the start in the bundle's record.

* `startNames` — the names whose ids the two loops append, in order;
* `buildBundlesToStart_fst` — the string is made of their ids, each followed by a space;
* `getElem?_buildBundlesToStart_snd` — each record's counter grows by the number of times
  its name is appended, and nothing else changes;
* `buildBundlesToStart_congr` — the string depends on the records only.
-/

/-- The test of both loops: the spring column is neither `Started` nor `Waiting`. -/
def Bundle.isDown (bundle : Bundle) : Bool :=
  bundle.spring ≠ ofString "Started" && bundle.spring ≠ ofString "Waiting"

/-- The body of both loops: look the name up, append the id and count the start. -/
def startBundle (acc : Bytes × BundleMap) (bundleName : Bytes) : Bytes × BundleMap :=
  match acc.2[bundleName]? with
  | some bundle =>
      if bundle.isDown then
        (acc.1 ++ (bundle.id ++ ofString " "),
          acc.2.modify bundleName Bundle.incrementReStartCount)
      else acc
  -- a configured bundle that is not in the table is passed over
  | none => acc

/-- `BuildBundlesToStart`: the start string, and the table after the counting.  The two
    parameters with the dead and failed ids are not read. -/
def buildBundlesToStart (bundlesWithNameAndId : BundleMap)
    (_deadBundles _failedBundles : List Bytes)
    (bundleKeepAliveList systemBundleList : List Bytes) : Bytes × BundleMap :=
  bundleKeepAliveList.foldl startBundle
    (systemBundleList.foldl startBundle ([], bundlesWithNameAndId))

/-! ### Which names are appended -/

/-- Whether a name has an entry that has to be started. -/
def BundleMap.needsStart (m : BundleMap) (name : Bytes) : Bool :=
  (m.record? name).any Bundle.isDown

/-- The id appended for a name. -/
def BundleMap.idOf (m : BundleMap) (name : Bytes) : Bytes := ((m.record? name).map (·.id)).getD []

/-- The names whose ids `BuildBundlesToStart` appends, in order and with repetitions. -/
def startNames (m : BundleMap) (bundleKeepAliveList systemBundleList : List Bytes) : List Bytes :=
  (systemBundleList ++ bundleKeepAliveList).filter m.needsStart

/-- The string made of the ids of some names. -/
def BundleMap.startString (m : BundleMap) (names : List Bytes) : Bytes :=
  names.flatMap fun name => m.idOf name ++ ofString " "

theorem SameRecords.needsStart_eq {m n : BundleMap} (h : SameRecords m n) :
    m.needsStart = n.needsStart := by
  funext name
  rw [BundleMap.needsStart, BundleMap.needsStart, h name]

theorem SameRecords.startNames_eq {m n : BundleMap} (h : SameRecords m n)
    (keepAlive system : List Bytes) :
    startNames m keepAlive system = startNames n keepAlive system := by
  rw [startNames, startNames, h.needsStart_eq]

theorem SameRecords.startString_eq {m n : BundleMap} (h : SameRecords m n) (names : List Bytes) :
    m.startString names = n.startString names := by
  have hid : m.idOf = n.idOf := by
    funext name
    rw [BundleMap.idOf, BundleMap.idOf, h name]
  rw [BundleMap.startString, BundleMap.startString, hid]

/-! ### One pass of the loops -/

/-- A name that needs no start changes nothing. -/
theorem startBundle_of_not_needsStart {acc : Bytes × BundleMap} {name : Bytes}
    (h : acc.2.needsStart name = false) : startBundle acc name = acc := by
  rw [startBundle]
  split
  · rename_i bundle hb
    have hd : bundle.isDown = false := by
      simpa [BundleMap.needsStart, BundleMap.record?, hb, Bundle.isDown, Bundle.record] using h
    rw [hd, if_neg (by simp)]
  · rfl

/-- A name that needs a start has its id appended and its counter incremented. -/
theorem startBundle_of_needsStart {acc : Bytes × BundleMap} {name : Bytes}
    (h : acc.2.needsStart name = true) : startBundle acc name =
      (acc.1 ++ (acc.2.idOf name ++ ofString " "),
        acc.2.modify name Bundle.incrementReStartCount) := by
  cases hb : acc.2[name]? with
  | none => simp [BundleMap.needsStart, BundleMap.record?, hb] at h
  | some bundle =>
    have hd : bundle.isDown = true := by
      simpa [BundleMap.needsStart, BundleMap.record?, hb, Bundle.isDown, Bundle.record] using h
    simp [startBundle, BundleMap.idOf, BundleMap.record?, hb, hd, Bundle.record]

/-- Counting a start leaves the records as they are. -/
theorem sameRecords_modify (m : BundleMap) (name : Bytes) :
    SameRecords (m.modify name Bundle.incrementReStartCount) m := by
  intro n
  rw [BundleMap.record?, Std.TreeMap.getElem?_modify]
  split
  · rename_i heq
    rw [Std.LawfulEqCmp.compare_eq_iff_eq] at heq
    subst heq
    rw [Option.map_map]
    rfl
  · rfl

/-! ### The loops -/

/-- A record whose counter has grown by `k`. -/
def Bundle.countStarts (b : Bundle) (k : Nat) : Bundle :=
  { b with reStartCount := b.reStartCount + k }

/-- **Loop lemma.**  Over a list of names, the ids of the names that need a start are
    appended, and each record counts how often its name was among them. -/
theorem foldl_startBundle (names : List Bytes) (str : Bytes) (m : BundleMap) :
    (names.foldl startBundle (str, m)).1 = str ++ m.startString (names.filter m.needsStart) ∧
      ∀ n : Bytes, (names.foldl startBundle (str, m)).2[n]? =
        m[n]?.map (·.countStarts ((names.filter m.needsStart).count n)) := by
  induction names generalizing str m with
  | nil => simp [BundleMap.startString, Bundle.countStarts]
  | cons name names ih =>
    rw [List.foldl_cons]
    cases h : m.needsStart name with
    | false =>
      rw [startBundle_of_not_needsStart h, List.filter_cons_of_neg (by simp [h])]
      exact ih str m
    | true =>
      -- the counting changes no record, so later names are tested as before
      have hsame := sameRecords_modify m name
      rw [startBundle_of_needsStart h, List.filter_cons_of_pos h]
      obtain ⟨hstr, hcount⟩ := ih (str ++ (m.idOf name ++ ofString " "))
        (m.modify name Bundle.incrementReStartCount)
      rw [hsame.needsStart_eq] at hstr hcount
      refine ⟨?_, fun n => ?_⟩
      · rw [hstr, hsame.startString_eq]
        simp [BundleMap.startString]
      · rw [hcount n, Std.TreeMap.getElem?_modify]
        by_cases hn : name = n
        · subst hn
          rw [if_pos Std.ReflCmp.compare_self, Option.map_map, List.count_cons_self]
          refine Option.map_congr fun b _ => ?_
          simp [Bundle.countStarts, Bundle.incrementReStartCount]
          omega
        · rw [if_neg (by simpa using hn), List.count_cons_of_ne hn]

section
variable (m : BundleMap) (dead failed keepAlive system : List Bytes)

/-- The table after both loops, entry by entry. -/
theorem getElem?_buildBundlesToStart_snd (name : Bytes) :
    (buildBundlesToStart m dead failed keepAlive system).2[name]? =
      m[name]?.map (·.countStarts ((startNames m keepAlive system).count name)) := by
  rw [buildBundlesToStart, ← List.foldl_append, (foldl_startBundle _ _ _).2 name, startNames]

/-- The string of both loops. -/
theorem buildBundlesToStart_fst : (buildBundlesToStart m dead failed keepAlive system).1 =
    m.startString (startNames m keepAlive system) := by
  rw [buildBundlesToStart, ← List.foldl_append, (foldl_startBundle _ _ _).1, startNames,
    List.nil_append]

/-- Building the start list leaves the records as they are. -/
theorem sameRecords_buildBundlesToStart :
    SameRecords (buildBundlesToStart m dead failed keepAlive system).2 m := by
  intro name
  rw [BundleMap.record?, getElem?_buildBundlesToStart_snd, Option.map_map]
  rfl

end

/-- The start string depends on the records only. -/
theorem buildBundlesToStart_congr {m n : BundleMap} (h : SameRecords m n)
    (dead failed dead' failed' keepAlive system : List Bytes) :
    (buildBundlesToStart m dead failed keepAlive system).1 =
      (buildBundlesToStart n dead' failed' keepAlive system).1 := by
  rw [buildBundlesToStart_fst, buildBundlesToStart_fst, h.startNames_eq, h.startString_eq]

/-- Every byte of the start string is a space or a byte of an id in the table. -/
theorem mem_buildBundlesToStart_fst {P : Byte → Prop} {m : BundleMap}
    (hid : ∀ (name : Bytes) (b : Bundle), m[name]? = some b → ∀ c ∈ b.id, P c)
    (hspace : P ' '.toUInt8) (dead failed keepAlive system : List Bytes) :
    ∀ c ∈ (buildBundlesToStart m dead failed keepAlive system).1, P c := by
  intro c hc
  rw [buildBundlesToStart_fst, BundleMap.startString, List.mem_flatMap] at hc
  obtain ⟨name, _, hc⟩ := hc
  rcases List.mem_append.mp hc with hc | hc
  · cases hb : m[name]? with
    | none => simp [BundleMap.idOf, BundleMap.record?, hb] at hc
    | some b =>
      rw [BundleMap.idOf, BundleMap.record?, hb] at hc
      exact hid name b hb c hc
  · have : c = ' '.toUInt8 := by simpa [ofString] using hc
    exact this ▸ hspace

/-- With an empty table there is nothing to start and nothing to count. -/
theorem buildBundlesToStart_of_empty {m : BundleMap} (h : ∀ name : Bytes, m[name]? = none)
    (dead failed keepAlive system : List Bytes) :
    buildBundlesToStart m dead failed keepAlive system = ([], m) := by
  have hloop : ∀ names : List Bytes, names.foldl startBundle ([], m) = ([], m) := by
    intro names
    induction names with
    | nil => rfl
    | cons name names ih =>
      have hneeds : m.needsStart name = false := by
        simp [BundleMap.needsStart, BundleMap.record?, h name]
      rw [List.foldl_cons, startBundle_of_not_needsStart hneeds]
      exact ih
  rw [buildBundlesToStart, hloop system]
  exact hloop keepAlive

end OsgiManager.ESB
