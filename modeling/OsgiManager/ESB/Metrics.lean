import OsgiManager.ESB.Cycle

namespace OsgiManager.ESB

open OsgiManager.Lib

/-!
# The bundle metrics

`BundleMetricsHandler` reads the bundle table twice, once for the length of an array and once for
the bundles it puts there, and the monitor may replace the table in between.  The index of the
array is never advanced.

* `handle` — the handler, on the two tables it reads;
* `Filed` — in every reachable table, a bundle is filed under its own name;
* `Handle.Complete` — the writes are in bounds, and every bundle is in the array once;
* `metrics_complete_iff` — the pairs of reads for which this holds.
-/

/-- The variables of the handler.  The cells of the array that have not been written are `none`;
    the last field is not in the source: the indices written so far. -/
structure Handle where
  returnedString : Bytes
  bundleIndex : Nat
  bundleArray : List (Option Bundle)
  written : List Nat

/-- The declarations before the loop, on the table read for the length. -/
def Handle.init (bundles : BundleMap) : Handle where
  returnedString := []
  bundleIndex    := 0
  bundleArray    := List.replicate bundles.size none
  written        := []

/-- The body of the loop. -/
def Handle.put (h : Handle) (bundle : Bytes × Bundle) : Handle :=
  { h with
    bundleArray := h.bundleArray.set h.bundleIndex (some bundle.2)
    written := h.written ++ [h.bundleIndex] }

/-- `BundleMetricsHandler::handle`: its variables at the end.  The table is read once for the
    length and once for the loop; the request is not looked at. -/
def handle (first second : BundleMap) : Handle := second.toList.foldl Handle.put (Handle.init first)

/-- The writes are in bounds, and every bundle of the table iterated is in the array once. -/
structure Handle.Complete (h : Handle) (bundles : BundleMap) : Prop where
  bounds : ∀ i ∈ h.written, i < h.bundleArray.length
  once : ∀ (name : Bytes) (b : Bundle), bundles[name]? = some b →
    h.bundleArray.count (some b) = 1

/-! ### The loop -/

/-- **Loop lemma.**  The index stays where it is, so only the last bundle stays in the array. -/
theorem foldl_put (es : List (Bytes × Bundle)) (e : Bytes × Bundle) (h : Handle) :
    ((e :: es).foldl Handle.put h).bundleArray =
        h.bundleArray.set h.bundleIndex (some ((e :: es).getLast (List.cons_ne_nil e es)).2) ∧
      ((e :: es).foldl Handle.put h).written =
        h.written ++ List.replicate (es.length + 1) h.bundleIndex := by
  induction es generalizing e h with
  | nil => exact ⟨rfl, rfl⟩
  | cons e' es ih =>
    obtain ⟨harray, hwritten⟩ := ih e' (h.put e)
    rw [List.foldl_cons, harray, hwritten, List.getLast_cons (List.cons_ne_nil e' es)]
    refine ⟨?_, ?_⟩
    · show (h.bundleArray.set h.bundleIndex _).set h.bundleIndex _ = _
      rw [List.set_set]
    · show h.written ++ [h.bundleIndex] ++ List.replicate (es.length + 1) h.bundleIndex = _
      rw [List.append_assoc]
      rfl

/-- A single cell holds one bundle. -/
theorem count_set_replicate (n : Nat) (b b' : Bundle) :
    ((List.replicate n none).set 0 (some b)).count (some b') =
      if 0 < n ∧ b = b' then 1 else 0 := by
  cases n with
  | zero => simp
  | succ n =>
    have hrest : (List.replicate n (none : Option Bundle)).count (some b') = 0 := by
      rw [List.count_replicate]
      rfl
    rw [List.replicate_succ, List.set_cons_zero, List.count_cons, hrest]
    by_cases hb : b = b' <;> simp [hb]

/-! ### The tables -/

/-- Every bundle is filed under its own name. -/
def Filed (m : BundleMap) : Prop := ∀ (name : Bytes) (b : Bundle), m[name]? = some b → b.name = name

/-- **Step lemma.**  A table the monitor stores is filed if the one before is. -/
theorem filed_step (cfg : Config) (s : Monitor) (e : Event) (hs : Filed s.table) :
    Filed (step cfg s e).table := by
  cases h : listText s e with
  | none =>
    rw [Monitor.table, (step_frame cfg h).1]
    exact hs
  | some text =>
    intro name b hb
    rw [step_of_listText h] at hb
    obtain ⟨b', hb', hrecord⟩ := (sameRecords_listStep cfg text s).exists_getElem? hb
    rw [← (Bundle.columns_of_record hrecord).2.2.2.2.2]
    rcases getElem?_refreshTable hb' with hold | hnew
    · exact hs name b' hold
    · exact (mem_mapBundleNamesToBundlesId hnew).1

/-- **Run lemma.** -/
theorem filed_reached (cfg : Config) (es : List Event) : Filed (reached cfg es).table := by
  apply foldl_invariant (I := fun s : Monitor => Filed s.table) (filed_step cfg)
  intro name b hb
  simp [Monitor.initial, Monitor.table] at hb

/-- The entries of a filed table are told apart by their bundles. -/
theorem Filed.toList_inj {m : BundleMap} (h : Filed m) {e e' : Bytes × Bundle} (he : e ∈ m.toList)
    (he' : e' ∈ m.toList) (heq : e.2 = e'.2) : e = e' := by
  have hname := h e.1 e.2 (Std.TreeMap.mem_toList_iff_getElem?_eq_some.mp he)
  have hname' := h e'.1 e'.2 (Std.TreeMap.mem_toList_iff_getElem?_eq_some.mp he')
  exact Prod.ext (by rw [← hname, ← hname', heq]) heq

/-! ### The result -/

/-- For any two tables, the second of them filed: the array is complete for tables with at most
    one bundle that have a cell for it. -/
theorem handle_complete_iff (first : BundleMap) {second : BundleMap} (hfiled : Filed second) :
    (handle first second).Complete second ↔
      second.size = 0 ∨ second.size = 1 ∧ 0 < first.size := by
  have hmem : ∀ (name : Bytes) (b : Bundle), second[name]? = some b ↔
      (name, b) ∈ second.toList := fun name b => Std.TreeMap.mem_toList_iff_getElem?_eq_some.symm
  have hkeys := Std.TreeMap.distinct_keys_toList (t := second)
  rw [← Std.TreeMap.length_toList]
  rcases hlist : second.toList with _ | ⟨e, es⟩
  · -- no write at all
    refine iff_of_true ⟨?_, ?_⟩ (.inl rfl)
    · rw [handle, hlist]
      exact fun i hi => absurd hi List.not_mem_nil
    · intro name b hb
      rw [hmem, hlist] at hb
      cases hb
  · obtain ⟨harray, hwritten⟩ := foldl_put es e (Handle.init first)
    have harray' : (handle first second).bundleArray = (List.replicate first.size none).set 0
        (some ((e :: es).getLast (List.cons_ne_nil e es)).2) := by
      rw [handle, hlist]
      exact harray
    have hwritten' : (handle first second).written = List.replicate (es.length + 1) 0 := by
      rw [handle, hlist]
      exact hwritten
    constructor
    · intro h
      have hfirst : 0 < first.size := by
        have h0 := h.bounds 0 (by rw [hwritten']; exact List.mem_cons_self)
        rwa [harray', List.length_set, List.length_replicate] at h0
      refine .inr ⟨?_, hfirst⟩
      -- the first bundle is in the array only if it is also the last
      have honce := h.once e.1 e.2 ((hmem _ _).mpr (by rw [hlist]; exact List.mem_cons_self))
      rw [harray', count_set_replicate] at honce
      split_ifs at honce with hlast
      have hin : ∀ e' ∈ e :: es, e' ∈ second.toList := fun e' he' => hlist ▸ he'
      have heq := hfiled.toList_inj (hin _ (List.getLast_mem (List.cons_ne_nil e es)))
        (hin e List.mem_cons_self) hlast.2
      cases es with
      | nil => rfl
      | cons e' es =>
        rw [hlist] at hkeys
        rw [List.getLast_cons (List.cons_ne_nil e' es)] at heq
        have hne := (List.pairwise_cons.mp hkeys).1 _ (List.getLast_mem (List.cons_ne_nil e' es))
        rw [heq] at hne
        exact absurd Std.ReflCmp.compare_self hne
    · rintro (h0 | ⟨hone, hfirst⟩)
      · cases h0
      · have hes : es = [] := List.eq_nil_of_length_eq_zero (Nat.succ.inj hone)
        subst hes
        refine ⟨?_, ?_⟩
        · rw [harray', hwritten', List.length_set, List.length_replicate]
          intro i hi
          rw [List.mem_singleton.mp hi]
          exact hfirst
        · intro name b hb
          rw [hmem, hlist, List.mem_singleton] at hb
          rw [harray', count_set_replicate, if_pos ⟨hfirst, by rw [List.getLast_singleton, ← hb]⟩]

/-- **Metrics snapshot.**  In every run, and for any events between the two reads: the writes of
    the handler are in bounds and every bundle of the table it iterates over is in the array once
    exactly when that table is empty, or has one bundle and the first read found a bundle too. -/
theorem metrics_complete_iff (cfg : Config) (before between : List Event) :
    (handle (reached cfg before).table (reached cfg (before ++ between)).table).Complete
        (reached cfg (before ++ between)).table ↔
      (reached cfg (before ++ between)).table.size = 0 ∨
        (reached cfg (before ++ between)).table.size = 1 ∧ 0 < (reached cfg before).table.size :=
  handle_complete_iff _ (filed_reached cfg _)

/-- A run up to a listing with two bundles. -/
def twoBundlesRun : List Event :=
  [ .gogoReady true, .iteration none,
    .iteration (some (ofString ("\n\n[ 210] [Active] [ ] [Started] [ 80] file:C:/deploy/a.jar\n" ++
      "[ 211] [Active] [ ] [Started] [ 80] file:C:/deploy/b.jar\n"))) ]

/-- Of two bundles, only one is in the array, also without an event between the reads. -/
theorem metrics_incomplete :
    (reached shippedConfig twoBundlesRun).table.size = 2 ∧
      ¬ (handle (reached shippedConfig twoBundlesRun).table
          (reached shippedConfig (twoBundlesRun ++ [])).table).Complete
        (reached shippedConfig (twoBundlesRun ++ [])).table := by
  have hsize : (reached shippedConfig twoBundlesRun).table.size = 2 := by decide +kernel
  refine ⟨hsize, ?_⟩
  rw [List.append_nil, handle_complete_iff _ (filed_reached shippedConfig twoBundlesRun), hsize]
  decide

end OsgiManager.ESB
