import OsgiManager.ESB.Monitor
import Mathlib.Data.List.Chain

namespace OsgiManager.ESB

open OsgiManager.Lib

/-!
# What the monitor knows after a listing

A list step parses the text it fetches, but it keeps the table of an earlier text when both
have the same number of bundles.  This file settles what that leaves of two expectations:

* `table_fresh_iff` — the bundle data follow the text of the step itself, in every list step
  of a run, exactly when consecutive listings of the run differ in size or say the same;
* `failed_listing` — a failed list command counts as a listing without bundles.
-/

/-- The bundle data of `s` are those of the listing `text`. -/
structure Fresh (cfg : Config) (text : Bytes) (s : Monitor) : Prop where
  /-- The stored table agrees with the parse of the text. -/
  table : SameRecords s.table (mapBundleNamesToBundlesId cfg.regexListParser text)
  /-- `deadBundles` holds exactly the ids in state `Dead`. -/
  dead : ∀ id, id ∈ s.deadBundles ↔ ∃ (name : Bytes) (b : Bundle),
    (mapBundleNamesToBundlesId cfg.regexListParser text)[name]? = some b ∧
      b.state = ofString "Dead" ∧ b.id = id
  /-- `failedBundles` holds exactly the ids in state `Failed`. -/
  failed : ∀ id, id ∈ s.failedBundles ↔ ∃ (name : Bytes) (b : Bundle),
    (mapBundleNamesToBundlesId cfg.regexListParser text)[name]? = some b ∧
      b.state = ofString "Failed" ∧ b.id = id
  /-- `bundlesToStart` comes from the spring states of the text. -/
  start : s.bundlesToStart =
    (buildBundlesToStart (mapBundleNamesToBundlesId cfg.regexListParser text) s.deadBundles
      s.failedBundles cfg.processBundles cfg.systemBundles).1

/-- Every list step of a run leaves bundle data that are those of the text it fetched. -/
def FreshRun (cfg : Config) (es : List Event) : Prop :=
  ∀ p ∈ history (step cfg) Monitor.initial es, ∀ text, listText p.1 p.2 = some text →
    Fresh cfg text (step cfg p.1 p.2)

/-- The texts fetched by the list steps of a run, in order. -/
def listings (cfg : Config) (es : List Event) : List Bytes :=
  (history (step cfg) Monitor.initial es).filterMap fun p => listText p.1 p.2

/-- The size test tells two listings apart, or there is nothing to tell apart. -/
def Distinguished (cfg : Config) (earlier later : Bytes) : Prop :=
  (mapBundleNamesToBundlesId cfg.regexListParser earlier).size ≠
      (mapBundleNamesToBundlesId cfg.regexListParser later).size ∨
    SameRecords (mapBundleNamesToBundlesId cfg.regexListParser earlier)
      (mapBundleNamesToBundlesId cfg.regexListParser later)

/-! ### One list step -/

/-- A list step is fresh exactly when the refreshed table agrees with the parse: the derived
    lists follow the table. -/
theorem fresh_listStep_iff (cfg : Config) (text : Bytes) (s : Monitor) :
    Fresh cfg text (s.listStep cfg text) ↔
      SameRecords (refreshTable s.bundlesWithNameAndId
        (mapBundleNamesToBundlesId cfg.regexListParser text))
        (mapBundleNamesToBundlesId cfg.regexListParser text) := by
  have htable := sameRecords_listStep cfg text s
  constructor
  · intro h
    exact htable.symm.trans h.table
  · intro h
    refine ⟨htable.trans h, fun id => ?_, fun id => ?_, buildBundlesToStart_congr h _ _ _ _ _ _⟩
    · exact (mem_bundleIdsInState_congr h _ id).trans mem_bundleIdsInState
    · exact (mem_bundleIdsInState_congr h _ id).trans mem_bundleIdsInState

/-- A table that is kept or replaced agrees with the parse exactly when it was unfilled, had
    another size, or agreed already. -/
theorem sameRecords_refreshTable_iff (old : Option BundleMap) (bundles : BundleMap) :
    SameRecords (refreshTable old bundles) bundles ↔
      ∀ table, old = some table → table.size ≠ bundles.size ∨ SameRecords table bundles := by
  cases old with
  | none => simp [refreshTable, SameRecords.refl]
  | some table =>
    by_cases hsize : table.size = bundles.size
    · simp [refreshTable, hsize]
    · simp [refreshTable, hsize, SameRecords.refl]

/-! ### Runs -/

theorem listings_concat (cfg : Config) (es : List Event) (e : Event) :
    listings cfg (es ++ [e]) = listings cfg es ++ (listText (reached cfg es) e).toList := by
  rw [listings, history_concat, List.filterMap_append, ← listings, ← reached]
  cases h : listText (reached cfg es) e <;> simp [h]

theorem freshRun_concat (cfg : Config) (es : List Event) (e : Event) :
    FreshRun cfg (es ++ [e]) ↔ FreshRun cfg es ∧ ∀ text,
      listText (reached cfg es) e = some text →
        Fresh cfg text (step cfg (reached cfg es) e) := by
  unfold FreshRun
  rw [history_concat, List.forall_mem_append, List.forall_mem_singleton]
  rfl

/-- After a fresh run, the stored table is that of the last listing. -/
def HoldsLastListing (cfg : Config) (es : List Event) : Prop :=
  match (listings cfg es).getLast? with
  | none      => (reached cfg es).bundlesWithNameAndId = none
  | some text => ∃ table, (reached cfg es).bundlesWithNameAndId = some table ∧
      SameRecords table (mapBundleNamesToBundlesId cfg.regexListParser text)

theorem holdsLastListing_of_freshRun {cfg : Config} {es : List Event} (h : FreshRun cfg es) :
    HoldsLastListing cfg es := by
  induction es using List.reverseRecOn with
  | nil => exact rfl
  | append_singleton es e ih =>
    obtain ⟨hes, he⟩ := (freshRun_concat cfg es e).mp h
    unfold HoldsLastListing
    rw [listings_concat, reached_concat]
    cases ht : listText (reached cfg es) e with
    | none =>
      -- neither the table nor the last listing has changed
      rw [(step_frame cfg ht).1, Option.toList_none, List.append_nil]
      exact ih hes
    | some text =>
      -- the list step just made is fresh
      have hfresh := (he text ht).table
      rw [step_of_listText ht] at hfresh ⊢
      rw [Option.toList_some, List.getLast?_concat]
      exact ⟨_, rfl, hfresh⟩

/-- After a fresh run, the next list step is fresh exactly when its text is distinguished
    from the listing before it. -/
theorem fresh_next_iff {cfg : Config} {es : List Event} (h : FreshRun cfg es) (text : Bytes) :
    Fresh cfg text ((reached cfg es).listStep cfg text) ↔
      ∀ earlier ∈ (listings cfg es).getLast?, Distinguished cfg earlier text := by
  have hlast := holdsLastListing_of_freshRun h
  rw [fresh_listStep_iff, sameRecords_refreshTable_iff]
  unfold HoldsLastListing at hlast
  cases hl : (listings cfg es).getLast? with
  | none =>
    rw [hl] at hlast
    simp [show (reached cfg es).bundlesWithNameAndId = none from hlast]
  | some earlier =>
    rw [hl] at hlast
    obtain ⟨table, htable, hsame⟩ := hlast
    -- the stored table stands for the listing before
    have key : (table.size ≠ (mapBundleNamesToBundlesId cfg.regexListParser text).size ∨
        SameRecords table (mapBundleNamesToBundlesId cfg.regexListParser text)) ↔
        Distinguished cfg earlier text := by
      rw [Distinguished, hsame.size_eq]
      exact or_congr_right ⟨hsame.symm.trans, hsame.trans⟩
    simpa [htable] using key

/-- **Freshness of the bundle table.**  In a run, every list step leaves the table, the dead
    and failed ids and the start string of the text it fetched exactly when the size test
    distinguishes any two consecutive listings of the run that do not say the same. -/
theorem table_fresh_iff (cfg : Config) (es : List Event) :
    FreshRun cfg es ↔ (listings cfg es).IsChain (Distinguished cfg) := by
  induction es using List.reverseRecOn with
  | nil => simp [FreshRun, listings]
  | append_singleton es e ih =>
    rw [freshRun_concat, listings_concat, List.isChain_append, ih]
    cases ht : listText (reached cfg es) e with
    | none => simp
    | some text =>
      rw [Option.toList_some]
      -- both sides say that the run so far is fresh and the new listing distinguished
      refine and_congr_right fun hchain => ?_
      have hnext := fresh_next_iff (ih.mpr hchain) text
      rw [step_of_listText ht]
      simpa using hnext

/-! ### A run with a stale table -/

/-- A listing of the console with one deployed bundle, in a given state. -/
def xomListing (state : Bytes) : Bytes :=
  ofString "\n\n[ 210] [" ++ state ++
    ofString "] [ ] [Started] [   80] file:C:/jboss/deploy/xom-1.2.5.jar\n"

/-- A run with two list steps between which the bundle's state goes from `Active` to
    `Failed`. -/
def staleRun : List Event :=
  [ .gogoReady true, .iteration none,
    .iteration (some (xomListing (ofString "Active"))),
    .iteration none, .iteration none, .iteration none,
    .iteration (some (xomListing (ofString "Failed"))) ]

/-- The second listing has as many bundles as the first, so its news is dropped. -/
theorem staleRun_not_fresh : ¬ FreshRun shippedConfig staleRun := by
  intro h
  let text := xomListing (ofString "Failed")
  have hlast : listText (reached shippedConfig staleRun.dropLast) (.iteration (some text)) =
      some text := by decide +kernel
  have hfresh := h (reached shippedConfig staleRun.dropLast, .iteration (some text))
    (mem_history_iff.mpr ⟨staleRun.dropLast, [], rfl, rfl⟩) text hlast
  have hrec := hfresh.table (ofString "xom-1.2.5.jar")
  revert hrec
  decide +kernel

/-! ### A list command that fails -/

/-- The table and the lists derived from it are the same in both states. -/
structure SameBundleData (s s' : Monitor) : Prop where
  table : s'.table = s.table
  dead : s'.deadBundles = s.deadBundles
  failed : s'.failedBundles = s.failedBundles
  start : s'.bundlesToStart = s.bundlesToStart

/-- The monitor knows of no bundle. -/
structure NoBundles (s : Monitor) : Prop where
  table : ∀ name : Bytes, s.table[name]? = none
  dead : s.deadBundles = []
  failed : s.failedBundles = []
  start : s.bundlesToStart = []

/-- A list step whose refreshed table is empty stores that table and empties the lists. -/
theorem listStep_of_empty (cfg : Config) (text : Bytes) {s : Monitor}
    (h : ∀ name : Bytes, (refreshTable s.bundlesWithNameAndId
      (mapBundleNamesToBundlesId cfg.regexListParser text))[name]? = none) :
    (s.listStep cfg text).table = refreshTable s.bundlesWithNameAndId
        (mapBundleNamesToBundlesId cfg.regexListParser text) ∧
      NoBundles (s.listStep cfg text) := by
  have hbuilt := buildBundlesToStart_of_empty h
  have htable : (s.listStep cfg text).table = refreshTable s.bundlesWithNameAndId
      (mapBundleNamesToBundlesId cfg.regexListParser text) := by
    simp only [Monitor.listStep, Monitor.table, hbuilt, Option.getD_some]
  refine ⟨htable, ?_⟩
  constructor
  · rw [htable]
    exact h
  · exact bundleIdsInState_of_empty h _
  · exact bundleIdsInState_of_empty h _
  · simp only [Monitor.listStep, hbuilt]

/-- In a reachable state with an empty table, the derived lists are empty too. -/
theorem noBundles_of_reached (cfg : Config) (es : List Event)
    (h : ∀ name : Bytes, (reached cfg es).table[name]? = none) : NoBundles (reached cfg es) := by
  let I : Monitor → Prop := fun s => (∀ name : Bytes, s.table[name]? = none) → NoBundles s
  have hstep : ∀ s e, I s → I (step cfg s e) := by
    intro s e hs hempty
    cases ht : listText s e with
    | none =>
      obtain ⟨htable, hd, hf, hb⟩ := step_frame cfg ht
      rw [Monitor.table, htable, ← Monitor.table] at hempty
      obtain ⟨_, dead, failed, start⟩ := hs hempty
      refine ⟨?_, hd.trans dead, hf.trans failed, hb.trans start⟩
      rw [Monitor.table, htable]
      exact hempty
    | some text =>
      -- the table after the step has the names of the refreshed one, which is empty then
      rw [step_of_listText ht] at hempty ⊢
      refine (listStep_of_empty cfg text fun name => ?_).2
      have hsame := (sameRecords_listStep cfg text s) name
      rw [BundleMap.record?, hempty name, Option.map_none, eq_comm, BundleMap.record?,
        Option.map_eq_none_iff] at hsame
      exact hsame
  exact foldl_invariant (I := I) hstep (fun _ => ⟨fun _ => by simp [Monitor.initial, Monitor.table],
    rfl, rfl, rfl⟩) es h

/-- Against an empty parse, an empty table is kept and any other is replaced. -/
theorem refreshTable_empty (old : Option BundleMap) :
    (∀ name : Bytes, (refreshTable old ∅)[name]? = none) ∧
      ((old.getD ∅).size = 0 → refreshTable old ∅ = old.getD ∅) := by
  cases old with
  | none => exact ⟨by simp [refreshTable], fun _ => rfl⟩
  | some table =>
    by_cases hsize : table.size = 0
    · -- the sizes agree, so the empty table is kept
      have hkeep : refreshTable (some table) ∅ = table := by simp [refreshTable, hsize]
      rw [hkeep]
      exact ⟨(BundleMap.size_eq_zero_iff table).mp hsize, fun _ => rfl⟩
    · have hreplace : refreshTable (some table) ∅ = ∅ := by simp [refreshTable, hsize]
      rw [hreplace]
      exact ⟨by simp, fun h => absurd h hsize⟩

/-- **A failed listing.**  When a list command cannot be started or prints nothing, the
    monitor afterwards knows of no bundle, whatever it knew before; so its knowledge is
    intact exactly when it knew of none. -/
theorem failed_listing (cfg : Config) (es : List Event) (pipe : Option Bytes)
    (hready : (reached cfg es).isReady = true) (hlist : (reached cfg es).lastCommandStr = gogoList)
    (hfail : pipe = none ∨ pipe = some []) :
    NoBundles (step cfg (reached cfg es) (.iteration pipe)) ∧
      (SameBundleData (reached cfg es) (step cfg (reached cfg es) (.iteration pipe)) ↔
        (reached cfg es).table.size = 0) := by
  have ht : listText (reached cfg es) (.iteration pipe) = some [] :=
    listText_eq_some_iff.mpr ⟨pipe, rfl, hready, hlist, (fireCommandExecVP_of_failed hfail).symm⟩
  rw [step_of_listText ht]
  have hold := noBundles_of_reached cfg es
  obtain ⟨hempty, hkept⟩ := refreshTable_empty (reached cfg es).bundlesWithNameAndId
  obtain ⟨htable, hnone⟩ := listStep_of_empty cfg [] hempty
  refine ⟨hnone, fun h => ?_, fun hsize => ?_⟩
  · rw [BundleMap.size_eq_zero_iff, ← h.table]
    exact hnone.table
  · -- both states know of no bundle, and the table object is the same
    have hbefore := hold ((BundleMap.size_eq_zero_iff _).mp hsize)
    constructor
    · rw [htable]
      exact hkept hsize
    · rw [hnone.dead, hbefore.dead]
    · rw [hnone.failed, hbefore.failed]
    · rw [hnone.start, hbefore.start]

/-- With one bundle in the table, a list command that cannot be started loses it. -/
theorem listing_not_kept :
    ¬ SameBundleData (reached shippedConfig staleRun.dropLast)
      (step shippedConfig (reached shippedConfig staleRun.dropLast) (.iteration none)) := by
  intro h
  have hsize := congrArg Std.TreeMap.size h.table
  revert hsize
  decide +kernel

/-- The run in which it happens. -/
theorem failed_listing_staleRun :
    NoBundles (step shippedConfig (reached shippedConfig staleRun.dropLast) (.iteration none)) ∧
      (SameBundleData (reached shippedConfig staleRun.dropLast)
          (step shippedConfig (reached shippedConfig staleRun.dropLast) (.iteration none)) ↔
        (reached shippedConfig staleRun.dropLast).table.size = 0) :=
  failed_listing shippedConfig staleRun.dropLast none (by decide +kernel) (by decide +kernel)
    (.inl rfl)

end OsgiManager.ESB
