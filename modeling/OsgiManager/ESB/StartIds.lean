import OsgiManager.ESB.StartList

namespace OsgiManager.ESB

open OsgiManager.Lib

/-!
# The ids in the start string

The start string is handed to the console as one command argument.  This file reads it back:
which ids stand in it, in which order and how often.

* `words` — the pieces of a string between its spaces;
* `words_buildBundlesToStart` — the words of the start string are the ids of the configured
  bundles that are down, one for each time a configured list names them;
* `Listed` — an id stands in a string, delimited by spaces;
* `deadOrFailedListed_iff` — every dead or failed bundle is listed exactly when each of them
  is down by its spring column too.
-/

/-- The pieces of a string between its spaces; the piece after the last space, which is
    empty, is none. -/
def words (s : Bytes) : List Bytes := (s.splitOn ' '.toUInt8).filter (· ≠ [])

/-- An id stands in a string, delimited by spaces or by the start of the string. -/
def Listed (id str : Bytes) : Prop := (ofString " " ++ id) ++ ofString " " <:+: ofString " " ++ str

instance (id str : Bytes) : Decidable (Listed id str) :=
  inferInstanceAs (Decidable ((ofString " " ++ id) ++ ofString " " <:+: ofString " " ++ str))

/-! ### Strings made of ids -/

/-- A list of ids, each followed by a space. -/
def idString (ids : List Bytes) : Bytes := ids.flatMap (· ++ ofString " ")

/-- Splitting a string of ids gives the ids back, and an empty piece at the end. -/
theorem splitOn_idString {ids : List Bytes} (h : ∀ id ∈ ids, ' '.toUInt8 ∉ id) :
    (idString ids).splitOn ' '.toUInt8 = ids ++ [[]] := by
  induction ids with
  | nil => rfl
  | cons id ids ih =>
    obtain ⟨hid, hids⟩ := List.forall_mem_cons.mp h
    have hcons : idString (id :: ids) = id ++ ' '.toUInt8 :: idString ids := by
      simp [idString, ofString]
    rw [hcons, List.splitOn_append_cons_self_of_not_mem hid, ih hids]
    rfl

theorem words_idString {ids : List Bytes} (h : ∀ id ∈ ids, id ≠ [] ∧ ' '.toUInt8 ∉ id) :
    words (idString ids) = ids := by
  rw [words, splitOn_idString fun id hid => (h id hid).2, List.filter_append]
  have hids : ids.filter (· ≠ []) = ids := List.filter_eq_self.mpr fun id hid => by
    simpa using (h id hid).1
  rw [hids]
  simp

/-- An id of the list is listed in the string. -/
theorem listed_of_mem {id : Bytes} {ids : List Bytes} (h : id ∈ ids) : Listed id (idString ids) := by
  induction ids with
  | nil => simp at h
  | cons i ids ih =>
    rcases List.mem_cons.mp h with rfl | h
    · exact ⟨[], idString ids, by simp [idString]⟩
    · -- the string of the remaining ids is a tail of this one
      have htail : ofString " " ++ idString ids <:+ ofString " " ++ idString (i :: ids) :=
        ⟨ofString " " ++ i, by simp [idString]⟩
      exact (ih h).trans htail.isInfix

/-- An id without spaces is listed only if it is in the list. -/
theorem mem_of_listed {id : Bytes} {ids : List Bytes} (hid : ' '.toUInt8 ∉ id)
    (hids : ∀ i ∈ ids, ' '.toUInt8 ∉ i) (h : Listed id (idString ids)) : id ∈ ids := by
  obtain ⟨a, b, hab⟩ := h
  have hcut : a ++ ' '.toUInt8 :: (id ++ ' '.toUInt8 :: b) = ' '.toUInt8 :: idString ids := by
    simpa [ofString] using hab
  -- cut both sides at their spaces: the id becomes a piece between two others
  have hsplit := congrArg (List.splitOn ' '.toUInt8) hcut
  rw [List.splitOn_append_cons_self, List.splitOn_append_cons_self_of_not_mem hid,
    List.splitOn_cons_eq_if_modifyHead, splitOn_idString hids, if_pos (by simp)] at hsplit
  obtain ⟨a₀, as, ha⟩ := List.exists_cons_of_ne_nil (List.splitOn_ne_nil ' '.toUInt8 a)
  obtain ⟨bs, b₀, hb⟩ := List.eq_nil_or_concat (b.splitOn ' '.toUInt8) |>.resolve_left
    (List.splitOn_ne_nil _ _)
  rw [ha, hb, List.cons_append, List.cons.injEq, List.concat_eq_append] at hsplit
  have hids' : (as ++ id :: bs) ++ [b₀] = ids ++ [[]] := by simpa using hsplit.2
  rw [← (List.append_inj' hids' rfl).1]
  simp

/-! ### The words of the start string -/

/-- What `BuildBundlesToStart` is promised about the ids of a table. -/
structure WellIdentified (m : BundleMap) : Prop where
  ne_nil : ∀ (name : Bytes) (b : Bundle), m[name]? = some b → b.id ≠ []
  space_free : ∀ (name : Bytes) (b : Bundle), m[name]? = some b → ' '.toUInt8 ∉ b.id
  distinct : ∀ (name name' : Bytes) (b b' : Bundle), m[name]? = some b → m[name']? = some b' →
    b.id = b'.id → name = name'

/-- The id of a name whose bundle is in the table and down. -/
def BundleMap.downId (m : BundleMap) (name : Bytes) : Option Bytes :=
  (m[name]?.filter Bundle.isDown).map (·.id)

theorem BundleMap.downId_eq_some {m : BundleMap} {name id : Bytes} :
    m.downId name = some id ↔ ∃ b, m[name]? = some b ∧ b.isDown ∧ b.id = id := by
  simp [BundleMap.downId, Option.filter_eq_some_iff, and_assoc]

/-- The ids of the names that need a start. -/
theorem map_idOf_filter_needsStart (m : BundleMap) (names : List Bytes) :
    (names.filter m.needsStart).map m.idOf = names.filterMap m.downId := by
  induction names with
  | nil => rfl
  | cons name names ih =>
    rw [List.filter_cons, List.filterMap_cons]
    cases hb : m[name]? with
    | none => simp [BundleMap.needsStart, BundleMap.record?, BundleMap.downId, hb, ih]
    | some b =>
      have hneeds : m.needsStart name = b.isDown := by
        simp [BundleMap.needsStart, BundleMap.record?, hb, Bundle.isDown, Bundle.record]
      have hid : m.idOf name = b.id := by simp [BundleMap.idOf, BundleMap.record?, hb, Bundle.record]
      rw [hneeds, BundleMap.downId, hb, Option.filter_some]
      cases b.isDown
      · exact ih
      · rw [if_pos rfl, if_pos rfl, List.map_cons, ih, hid]
        rfl

section
variable (m : BundleMap) (dead failed keepAlive system : List Bytes)

/-- The start string is the string of the ids of the configured bundles that are down. -/
theorem buildBundlesToStart_eq_idString :
    (buildBundlesToStart m dead failed keepAlive system).1 =
      idString ((system ++ keepAlive).filterMap m.downId) := by
  rw [buildBundlesToStart_fst, startNames, ← map_idOf_filter_needsStart, BundleMap.startString,
    idString, List.flatMap_map]

end

/-- Counting one id among the words counts the name it belongs to. -/
theorem count_filterMap_downId {m : BundleMap} (hm : WellIdentified m) {name : Bytes} {b : Bundle}
    (hb : m[name]? = some b) (names : List Bytes) :
    (names.filterMap m.downId).count b.id = if b.isDown then names.count name else 0 := by
  induction names with
  | nil => simp
  | cons n names ih =>
    have hself : m.downId n = some b.id ↔ n = name ∧ b.isDown := by
      rw [BundleMap.downId_eq_some]
      constructor
      · rintro ⟨b', hb', hdown, hid⟩
        have hn := hm.distinct n name b' b hb' hb hid
        rw [hn, hb, Option.some.injEq] at hb'
        exact ⟨hn, hb' ▸ hdown⟩
      · rintro ⟨rfl, hdown⟩
        exact ⟨b, hb, hdown, rfl⟩
    rw [List.filterMap_cons, List.count_cons]
    cases hn : m.downId n with
    | none =>
      have hne : ¬ (n = name ∧ b.isDown) := by
        rw [← hself, hn]
        simp
      rw [ih]
      by_cases hdown : b.isDown
      · simp [hdown, show n ≠ name from fun h => hne ⟨h, hdown⟩]
      · simp [hdown]
    | some id =>
      rw [List.count_cons, ih]
      rw [hn, Option.some.injEq] at hself
      by_cases hid : id = b.id
      · obtain ⟨hname, hdown⟩ := hself.mp hid
        simp [hid, hname, hdown]
      · by_cases hdown : b.isDown
        · have hname : n ≠ name := fun h => hid (hself.mpr ⟨h, hdown⟩)
          simp [hid, hname, hdown]
        · simp [hid, hdown]

/-- **Start list.**  The words of the start string are the ids of the bundles that are in the
    table and down, first those the list of system bundles names and then those of the
    process bundles; an id occurs once for each time its name does. -/
theorem words_buildBundlesToStart {m : BundleMap} (hm : WellIdentified m)
    (dead failed processBundles systemBundles : List Bytes) :
    words (buildBundlesToStart m dead failed processBundles systemBundles).1 =
        systemBundles.filterMap m.downId ++ processBundles.filterMap m.downId ∧
      ∀ (name : Bytes) (b : Bundle), m[name]? = some b →
        (words (buildBundlesToStart m dead failed processBundles systemBundles).1).count b.id =
          if b.isDown then systemBundles.count name + processBundles.count name else 0 := by
  have hids : ∀ id ∈ (systemBundles ++ processBundles).filterMap m.downId,
      id ≠ [] ∧ ' '.toUInt8 ∉ id := by
    intro id hid
    obtain ⟨name, _, hname⟩ := List.mem_filterMap.mp hid
    obtain ⟨b, hb, _, rfl⟩ := BundleMap.downId_eq_some.mp hname
    exact ⟨hm.ne_nil name b hb, hm.space_free name b hb⟩
  rw [buildBundlesToStart_eq_idString, words_idString hids]
  refine ⟨List.filterMap_append, fun name b hb => ?_⟩
  rw [count_filterMap_downId hm hb, List.count_append]

/-- A table with one bundle, which is down. -/
def oneDown : BundleMap :=
  (∅ : BundleMap).insert (ofString "xom-1.2.5.jar")
    { id := ofString "210", state := ofString "Failed", blueprint := ofString " ",
      spring := ofString "Failed", level := ofString "80", name := ofString "xom-1.2.5.jar" }

/-- What is promised about the ids, entry by entry. -/
theorem wellIdentified_of_toList {m : BundleMap}
    (hid : ∀ p ∈ m.toList, p.2.id ≠ [] ∧ ' '.toUInt8 ∉ p.2.id)
    (hdistinct : ∀ p ∈ m.toList, ∀ q ∈ m.toList, p.2.id = q.2.id → p.1 = q.1) :
    WellIdentified m where
  ne_nil _ _ h := (hid _ (Std.TreeMap.mem_toList_iff_getElem?_eq_some.mpr h)).1
  space_free _ _ h := (hid _ (Std.TreeMap.mem_toList_iff_getElem?_eq_some.mpr h)).2
  distinct _ _ _ _ h h' heq := hdistinct _ (Std.TreeMap.mem_toList_iff_getElem?_eq_some.mpr h) _
    (Std.TreeMap.mem_toList_iff_getElem?_eq_some.mpr h') heq

theorem wellIdentified_oneDown : WellIdentified oneDown :=
  wellIdentified_of_toList (by decide +kernel) (by decide +kernel)

/-- A table with three bundles, of which one is started. -/
def threeBundles : BundleMap :=
  (oneDown.insert (ofString "system-service-util-4.x.x-SNAPSHOT.jar")
    { id := ofString "205", state := ofString "Active", blueprint := ofString " ",
      spring := ofString "Started", level := ofString "80",
      name := ofString "system-service-util-4.x.x-SNAPSHOT.jar" }).insert
    (ofString "scplite-service-rest-4.0.0-51.jar")
    { id := ofString "212", state := ofString "Installed", blueprint := ofString " ",
      spring := ofString " ", level := ofString "80",
      name := ofString "scplite-service-rest-4.0.0-51.jar" }

/-- The system bundles of the example: one that is down, and one that is not. -/
def someSystem : List Bytes :=
  [ofString "xom-1.2.5.jar", ofString "system-service-util-4.x.x-SNAPSHOT.jar"]

/-- Its process bundles: one more that is down, one that is not in the table, and one that is a
    system bundle too. -/
def someProcess : List Bytes :=
  [ofString "scplite-service-rest-4.0.0-51.jar", ofString "missing.jar", ofString "xom-1.2.5.jar"]

theorem wellIdentified_threeBundles : WellIdentified threeBundles :=
  wellIdentified_of_toList (by decide +kernel) (by decide +kernel)

theorem words_threeBundles :
    words (buildBundlesToStart threeBundles [] [] someProcess someSystem).1 =
        [ofString "210"] ++ [ofString "212", ofString "210"] ∧
      ∀ (name : Bytes) (b : Bundle), threeBundles[name]? = some b →
        (words (buildBundlesToStart threeBundles [] [] someProcess someSystem).1).count b.id =
          if b.isDown then someSystem.count name + someProcess.count name else 0 := by
  obtain ⟨hwords, hcount⟩ :=
    words_buildBundlesToStart wellIdentified_threeBundles [] [] someProcess someSystem
  refine ⟨hwords.trans ?_, hcount⟩
  decide +kernel

/-- A bundle that both lists name has its id in the string twice. -/
theorem words_named_twice : WellIdentified oneDown ∧
    words (buildBundlesToStart oneDown [] [] [ofString "xom-1.2.5.jar"]
      [ofString "xom-1.2.5.jar"]).1 = [ofString "210", ofString "210"] :=
  ⟨wellIdentified_oneDown, by decide +kernel⟩

/-! ### Dead and failed bundles -/

/-- Some configured list names the bundle of an entry. -/
def Configured (processBundles systemBundles : List Bytes) (name : Bytes) : Prop :=
  name ∈ systemBundles ∨ name ∈ processBundles

/-- The state column of a table reports an id as dead or failed. -/
def DeadOrFailed (m : BundleMap) (id : Bytes) : Prop :=
  id ∈ getDeadBundles m ∨ id ∈ getFailedBundles m

/-- Every configured bundle that is dead or failed has its id in the start string. -/
def DeadOrFailedListed (m : BundleMap) (processBundles systemBundles : List Bytes) : Prop :=
  ∀ (name : Bytes) (b : Bundle), m[name]? = some b → Configured processBundles systemBundles name →
    DeadOrFailed m b.id → Listed b.id
      (buildBundlesToStart m (getDeadBundles m) (getFailedBundles m) processBundles systemBundles).1

/-- Every id of a configured bundle that is dead or failed belongs to a configured bundle
    whose spring column is neither `Started` nor `Waiting`. -/
def DeadOrFailedDown (m : BundleMap) (processBundles systemBundles : List Bytes) : Prop :=
  ∀ (name : Bytes) (b : Bundle), m[name]? = some b → Configured processBundles systemBundles name →
    DeadOrFailed m b.id → ∃ (name' : Bytes) (b' : Bundle), m[name']? = some b' ∧
      Configured processBundles systemBundles name' ∧ b'.id = b.id ∧ b'.isDown

theorem mem_filterMap_downId {m : BundleMap} {processBundles systemBundles : List Bytes}
    {id : Bytes} : id ∈ (systemBundles ++ processBundles).filterMap m.downId ↔
      ∃ (name : Bytes) (b : Bundle), m[name]? = some b ∧
        Configured processBundles systemBundles name ∧ b.id = id ∧ b.isDown := by
  simp only [List.mem_filterMap, List.mem_append, BundleMap.downId_eq_some, Configured]
  constructor
  · rintro ⟨name, hname, b, hb, hdown, hid⟩
    exact ⟨name, b, hb, hname, hid, hdown⟩
  · rintro ⟨name, b, hb, hname, hid, hdown⟩
    exact ⟨name, hname, b, hb, hdown, hid⟩

/-- **Dead and failed bundles.**  The start string follows the spring column alone: all dead
    and failed bundles are listed if each of their ids belongs to a bundle that is down by
    that column, and, where ids have no spaces, only then. -/
theorem deadOrFailedListed_iff (m : BundleMap) (processBundles systemBundles : List Bytes) :
    (DeadOrFailedDown m processBundles systemBundles →
        DeadOrFailedListed m processBundles systemBundles) ∧
      ((∀ (name : Bytes) (b : Bundle), m[name]? = some b → ' '.toUInt8 ∉ b.id) →
        (DeadOrFailedListed m processBundles systemBundles ↔
          DeadOrFailedDown m processBundles systemBundles)) := by
  have hlisted : DeadOrFailedDown m processBundles systemBundles →
      DeadOrFailedListed m processBundles systemBundles := by
    intro hdown name b hb hname hdead
    rw [buildBundlesToStart_eq_idString]
    exact listed_of_mem (mem_filterMap_downId.mpr (hdown name b hb hname hdead))
  refine ⟨hlisted, fun hspace => ⟨fun h name b hb hname hdead => ?_, hlisted⟩⟩
  have hl := h name b hb hname hdead
  rw [buildBundlesToStart_eq_idString] at hl
  refine mem_filterMap_downId.mp (mem_of_listed (hspace name b hb) (fun i hi => ?_) hl)
  obtain ⟨name', b', hb', _, rfl, _⟩ := mem_filterMap_downId.mp hi
  exact hspace name' b' hb'

/-- A table with one bundle that failed while its spring column says `Started`. -/
def oneFailed : BundleMap :=
  (∅ : BundleMap).insert (ofString "xom-1.2.5.jar")
    { id := ofString "210", state := ofString "Failed", blueprint := ofString " ",
      spring := ofString "Started", level := ofString "80", name := ofString "xom-1.2.5.jar" }

/-- The failed bundle is configured and is not started. -/
theorem oneFailed_not_listed :
    ¬ DeadOrFailedListed oneFailed [ofString "xom-1.2.5.jar"] [] := by
  intro h
  obtain ⟨b, hb⟩ : ∃ b, oneFailed[ofString "xom-1.2.5.jar"]? = some b :=
    Option.isSome_iff_exists.mp (by decide +kernel)
  have hid : oneFailed[ofString "xom-1.2.5.jar"]?.map (·.id) = some (ofString "210") := by
    decide +kernel
  have hfailed : ofString "210" ∈ getFailedBundles oneFailed := by decide +kernel
  have hempty : ¬ Listed (ofString "210") (buildBundlesToStart oneFailed
      (getDeadBundles oneFailed) (getFailedBundles oneFailed) [ofString "xom-1.2.5.jar"] []).1 := by
    decide +kernel
  rw [hb, Option.map_some, Option.some.injEq] at hid
  have hl := h _ b hb (Or.inr (by simp)) (Or.inr (by rw [hid]; exact hfailed))
  rw [hid] at hl
  exact hempty hl

end OsgiManager.ESB
