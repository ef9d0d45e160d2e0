import OsgiManager.ESB.Monitor

namespace OsgiManager.ESB

open OsgiManager.Lib

/-!
# Restart accounting

`BuildBundlesToStart` counts each start in the bundle's record.  The records live in the
table, and a list step throws the whole table away when the number of bundles changes, so
what the counters say depends on which bundles come and go.

* `appends` — the names whose ids were appended to a start string, over a run;
* `Accounted` — the counters of the table are the numbers of appends;
* `accounted_iff` — the start strings of a run are made of the appends, and every list step
  ends accounted exactly when no replacement of the table brings in a bundle that had to be
  started before.
-/

/-- The names whose ids `BuildBundlesToStart` appends in a step; none but in a list step. -/
def stepAppends (cfg : Config) (s : Monitor) (e : Event) : List Bytes :=
  match listText s e with
  | some text => startNames (refreshTable s.bundlesWithNameAndId
      (mapBundleNamesToBundlesId cfg.regexListParser text)) cfg.processBundles cfg.systemBundles
  | none      => []

/-- The names whose ids have been appended since monitoring began, in order. -/
def appends (cfg : Config) (es : List Event) : List Bytes :=
  (history (step cfg) Monitor.initial es).flatMap fun p => stepAppends cfg p.1 p.2

/-- The counter of every entry of the table is the number of appends of its name. -/
def Accounted (cfg : Config) (es : List Event) : Prop :=
  ∀ (name : Bytes) (b : Bundle), (reached cfg es).table[name]? = some b →
    b.reStartCount = (appends cfg es).count name

/-- Every list step of a run ends accounted. -/
def AccountedRun (cfg : Config) (es : List Event) : Prop :=
  ∀ before e text, before ++ [e] <+: es → listText (reached cfg before) e = some text →
    Accounted cfg (before ++ [e])

/-- A bundle that had to be started in the course of a run: it is configured, and some list
    step found its spring column neither `Started` nor `Waiting`. -/
def WasDown (cfg : Config) (es : List Event) (name : Bytes) : Prop :=
  name ∈ cfg.systemBundles ++ cfg.processBundles ∧
    ∃ p ∈ history (step cfg) Monitor.initial es, ∃ text, listText p.1 p.2 = some text ∧
      (refreshTable p.1.bundlesWithNameAndId
        (mapBundleNamesToBundlesId cfg.regexListParser text)).needsStart name = true

/-- A list step on `text` replaces the table: it is unfilled, or has another size. -/
def Replaces (cfg : Config) (s : Monitor) (text : Bytes) : Prop :=
  ∀ table, s.bundlesWithNameAndId = some table →
    table.size ≠ (mapBundleNamesToBundlesId cfg.regexListParser text).size

/-- No replacement of the table in a run brings in a bundle that had to be started before. -/
def CleanReplacements (cfg : Config) (es : List Event) : Prop :=
  ∀ before e text, before ++ [e] <+: es → listText (reached cfg before) e = some text →
    Replaces cfg (reached cfg before) text →
      ∀ name : Bytes, name ∈ mapBundleNamesToBundlesId cfg.regexListParser text →
        ¬ WasDown cfg before name

/-! ### One step -/

theorem appends_concat (cfg : Config) (es : List Event) (e : Event) :
    appends cfg (es ++ [e]) = appends cfg es ++ stepAppends cfg (reached cfg es) e := by
  rw [appends, history_concat, List.flatMap_append, ← appends, ← reached]
  simp

/-- The names appended in a run are those of the bundles that had to be started. -/
theorem mem_appends {cfg : Config} {es : List Event} {name : Bytes} :
    name ∈ appends cfg es ↔ WasDown cfg es name := by
  have key : ∀ p : Monitor × Event, name ∈ stepAppends cfg p.1 p.2 ↔
      name ∈ cfg.systemBundles ++ cfg.processBundles ∧ ∃ text, listText p.1 p.2 = some text ∧
        (refreshTable p.1.bundlesWithNameAndId
          (mapBundleNamesToBundlesId cfg.regexListParser text)).needsStart name = true := by
    intro p
    unfold stepAppends
    cases h : listText p.1 p.2 with
    | none => simp
    | some text =>
      simp [startNames, or_and_right]
  rw [appends, List.mem_flatMap]
  unfold WasDown
  constructor
  · rintro ⟨p, hp, hname⟩
    obtain ⟨hconf, hstep⟩ := (key p).mp hname
    exact ⟨hconf, p, hp, hstep⟩
  · rintro ⟨hconf, p, hp, hstep⟩
    exact ⟨p, hp, (key p).mpr ⟨hconf, hstep⟩⟩

/-- A step that is no list step changes neither side of the account. -/
theorem accounted_frame {cfg : Config} {es : List Event} {e : Event}
    (h : listText (reached cfg es) e = none) :
    Accounted cfg (es ++ [e]) ↔ Accounted cfg es := by
  have htable : (reached cfg (es ++ [e])).table = (reached cfg es).table := by
    rw [reached_concat, Monitor.table, (step_frame cfg h).1, ← Monitor.table]
  have happends : appends cfg (es ++ [e]) = appends cfg es := by
    rw [appends_concat, stepAppends, h, List.append_nil]
  unfold Accounted
  rw [htable, happends]

/-- After a list step, the account is right exactly when the entries of the refreshed table
    had the right counters before the start list was built. -/
theorem accounted_listStep_iff {cfg : Config} {es : List Event} {e : Event} {text : Bytes}
    (h : listText (reached cfg es) e = some text) :
    Accounted cfg (es ++ [e]) ↔ ∀ (name : Bytes) (b : Bundle),
      (refreshTable (reached cfg es).bundlesWithNameAndId
        (mapBundleNamesToBundlesId cfg.regexListParser text))[name]? = some b →
      b.reStartCount = (appends cfg es).count name := by
  unfold Accounted
  rw [reached_concat, step_of_listText h, appends_concat, stepAppends, h]
  simp only [List.count_append]
  generalize htable : refreshTable (reached cfg es).bundlesWithNameAndId
    (mapBundleNamesToBundlesId cfg.regexListParser text) = table
  have hget : ∀ name : Bytes, ((reached cfg es).listStep cfg text).table[name]? =
      table[name]?.map
        (·.countStarts ((startNames table cfg.processBundles cfg.systemBundles).count name)) := by
    intro name
    rw [← htable]
    exact getElem?_buildBundlesToStart_snd _ _ _ _ _ name
  -- both counts grow by the number of times the name is appended in this step
  constructor
  · intro hacc name b hb
    have hstep := hacc name _ ((hget name).trans (by rw [hb]; rfl))
    simp only [Bundle.countStarts] at hstep
    omega
  · intro hacc name b hb
    rw [hget name, Option.map_eq_some_iff] at hb
    obtain ⟨b₀, hb₀, rfl⟩ := hb
    have hold := hacc name b₀ hb₀
    simp only [Bundle.countStarts]
    omega

/-- If the account is right before a list step, it is right after it exactly when the table
    is kept, or the new one brings in no bundle that had to be started before. -/
theorem accounted_next_iff {cfg : Config} {es : List Event} {e : Event} {text : Bytes}
    (hacc : Accounted cfg es) (h : listText (reached cfg es) e = some text) :
    Accounted cfg (es ++ [e]) ↔ (Replaces cfg (reached cfg es) text →
      ∀ name : Bytes, name ∈ mapBundleNamesToBundlesId cfg.regexListParser text →
        ¬ WasDown cfg es name) := by
  rw [accounted_listStep_iff h]
  by_cases hrep : Replaces cfg (reached cfg es) text
  · -- replaced: all counters start at zero
    have htable : refreshTable (reached cfg es).bundlesWithNameAndId
        (mapBundleNamesToBundlesId cfg.regexListParser text) =
          mapBundleNamesToBundlesId cfg.regexListParser text := by
      unfold refreshTable
      split
      · rfl
      · rename_i table htab
        rw [if_pos (hrep table htab)]
    rw [htable]
    constructor
    · -- a bundle that was started before has a count, but no counter
      intro hzero _ name hmem hdown
      obtain ⟨b, hb⟩ := Option.isSome_iff_exists.mp
        (Std.TreeMap.mem_iff_isSome_getElem?.mp hmem)
      have hcount := hzero name b hb
      rw [reStartCount_mapBundleNamesToBundlesId hb] at hcount
      have hpos := List.count_pos_iff.mpr (mem_appends.mpr hdown)
      omega
    · intro hclean name b hb
      have hmem : name ∈ mapBundleNamesToBundlesId cfg.regexListParser text := by
        rw [Std.TreeMap.mem_iff_isSome_getElem?, hb]
        rfl
      have hnot := mt mem_appends.mp (hclean hrep name hmem)
      rw [reStartCount_mapBundleNamesToBundlesId hb, List.count_eq_zero.mpr hnot]
  · -- kept: the counters carry on
    have htable : refreshTable (reached cfg es).bundlesWithNameAndId
        (mapBundleNamesToBundlesId cfg.regexListParser text) = (reached cfg es).table := by
      unfold Replaces at hrep
      push Not at hrep
      obtain ⟨table, htab, hsize⟩ := hrep
      simp [refreshTable, Monitor.table, htab, hsize]
    rw [htable]
    exact ⟨fun _ hrep' => absurd hrep' hrep, fun _ => hacc⟩

/-! ### Runs -/

/-- A property of the list steps of a run, one step further. -/
theorem forall_listSteps_concat (cfg : Config) (es : List Event) (e : Event)
    {P : List Event → Event → Bytes → Prop} :
    (∀ before e' text, before ++ [e'] <+: es ++ [e] →
        listText (reached cfg before) e' = some text → P before e' text) ↔
      (∀ before e' text, before ++ [e'] <+: es →
        listText (reached cfg before) e' = some text → P before e' text) ∧
      ∀ text, listText (reached cfg es) e = some text → P es e text := by
  constructor
  · intro h
    refine ⟨fun before e' text hpre => h before e' text (hpre.trans (List.prefix_append _ _)), ?_⟩
    exact fun text => h es e text (List.prefix_refl _)
  · rintro ⟨hes, he⟩ before e' text hpre htext
    rcases List.prefix_concat_iff.mp hpre with hlast | hpre
    · -- the step is the last one of the longer run
      obtain ⟨hbefore, he'⟩ := List.append_inj' hlast rfl
      rw [List.singleton_inj] at he'
      subst hbefore he'
      exact he text htext
    · exact hes before e' text hpre htext

/-- A run whose list steps all end accounted ends accounted itself. -/
theorem accounted_of_run {cfg : Config} {es : List Event} (h : AccountedRun cfg es) :
    Accounted cfg es := by
  induction es using List.reverseRecOn with
  | nil =>
    intro name b hb
    simp [reached, Monitor.initial, Monitor.table] at hb
  | append_singleton es e ih =>
    obtain ⟨hes, he⟩ := (forall_listSteps_concat cfg es e).mp h
    cases ht : listText (reached cfg es) e with
    | none => exact (accounted_frame ht).mpr (ih hes)
    | some text => exact he text ht

/-- The start string of a list step is made of the ids of the names appended in it. -/
theorem bundlesToStart_stepAppends {cfg : Config} {s : Monitor} {e : Event} {text : Bytes}
    (h : listText s e = some text) : (step cfg s e).bundlesToStart =
      (refreshTable s.bundlesWithNameAndId
        (mapBundleNamesToBundlesId cfg.regexListParser text)).startString
          (stepAppends cfg s e) := by
  rw [step_of_listText h, stepAppends, h]
  exact buildBundlesToStart_fst _ _ _ _ _

/-- A run ends its list steps accounted exactly when the replacements of its table are clean. -/
theorem accountedRun_iff (cfg : Config) (es : List Event) :
    AccountedRun cfg es ↔ CleanReplacements cfg es := by
  induction es using List.reverseRecOn with
  | nil =>
    have hnil : ∀ (before : List Event) (e : Event), ¬ before ++ [e] <+: [] := by simp
    exact ⟨fun _ before e text hpre => absurd hpre (hnil before e),
      fun _ before e text hpre => absurd hpre (hnil before e)⟩
  | append_singleton es e ih =>
    have hrun := forall_listSteps_concat cfg es e
      (P := fun before e _ => Accounted cfg (before ++ [e]))
    have hclean := forall_listSteps_concat cfg es e
      (P := fun before _ text => Replaces cfg (reached cfg before) text →
        ∀ name : Bytes, name ∈ mapBundleNamesToBundlesId cfg.regexListParser text →
          ¬ WasDown cfg before name)
    refine hrun.trans (Iff.trans ?_ hclean.symm)
    refine (and_congr_right fun hes => ?_).trans (and_congr_left' ih)
    refine forall₂_congr fun text ht => ?_
    exact accounted_next_iff (accounted_of_run hes) ht

/-- **Restart accounting.**  In a run, the start string of every list step is made of the ids of
    the names that are counted as appended in it; and every list step ends with counters that
    equal the numbers of appends since monitoring began exactly when no replacement of the
    table brings in a bundle that had to be started before. -/
theorem accounted_iff (cfg : Config) (es : List Event) :
    (∀ p ∈ history (step cfg) Monitor.initial es, ∀ text, listText p.1 p.2 = some text →
        (step cfg p.1 p.2).bundlesToStart = (refreshTable p.1.bundlesWithNameAndId
          (mapBundleNamesToBundlesId cfg.regexListParser text)).startString
            (stepAppends cfg p.1 p.2)) ∧
      (AccountedRun cfg es ↔ CleanReplacements cfg es) :=
  ⟨fun _ _ _ htext => bundlesToStart_stepAppends htext, accountedRun_iff cfg es⟩

/-- A listing of `xom`, which is down, with another bundle beside it. -/
def grownListing : Event := .iteration (some (
  ofString "\n\n[ 210] [Active] [ ] [Failed] [   80] file:C:/jboss/deploy/xom-1.2.5.jar\n" ++
    ofString "[ 211] [Active] [ ] [Started] [   80] file:C:/jboss/deploy/cms-1.0.jar\n"))

/-- A run in which `xom` is started twice, and the table grows in between. -/
def grownRun : List Event :=
  [ .gogoReady true, .iteration none,
    .iteration (some (ofString
      "\n\n[ 210] [Active] [ ] [Failed] [   80] file:C:/jboss/deploy/xom-1.2.5.jar\n")),
    .iteration none, .iteration none, .iteration none, grownListing ]

/-- The counter of `xom` then says one start, after two. -/
theorem grownRun_not_accounted : ¬ AccountedRun shippedConfig grownRun := by
  intro h
  have htext : (listText (reached shippedConfig grownRun.dropLast) grownListing).isSome := by
    decide +kernel
  obtain ⟨text, htext⟩ := Option.isSome_iff_exists.mp htext
  have hacc := h grownRun.dropLast grownListing text (List.prefix_refl _) htext
  have hcounter : (reached shippedConfig (grownRun.dropLast ++ [grownListing])).table[
      ofString "xom-1.2.5.jar"]?.map (·.reStartCount) = some 1 := by decide +kernel
  have hcount : (appends shippedConfig (grownRun.dropLast ++ [grownListing])).count
      (ofString "xom-1.2.5.jar") = 2 := by decide +kernel
  obtain ⟨b, hb, hone⟩ := Option.map_eq_some_iff.mp hcounter
  have htwo := hacc _ b hb
  omega

end OsgiManager.ESB
