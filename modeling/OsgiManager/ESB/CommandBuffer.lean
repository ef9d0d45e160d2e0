import OsgiManager.ESB.Cycle
import OsgiManager.ESB.StartIds
import OsgiManager.Lib.Simulation
import Mathlib.Algebra.Ring.Nat

namespace OsgiManager.ESB

open OsgiManager.Lib

/-!
# The command buffer

Every command is written by `sprintf` into an array of 1024 characters, which bounds nothing.
The list, info and stop commands always fit; the start command grows with the ids of the bundles
that are down.

* `Fired.FitsBuffer` — the text and its terminating zero fit;
* `Config.idsLength` — the room the ids of the configured bundles take that are down;
* `Strings` — the invariant: what the two id strings are made of;
* `strBuff_fits_iff` — the runs in which every command fits;
* `runInBuffer` — a run with the array, which is defined only if every command fits.
-/

/-- The size of `strBuff`. -/
def strBuffSize : Nat := 1024

/-- What `sprintf` writes, with its terminating zero, fits into `strBuff`. -/
def Fired.FitsBuffer (f : Fired) : Prop := f.strBuff.length + 1 ≤ strBuffSize

instance (f : Fired) : Decidable f.FitsBuffer := inferInstanceAs (Decidable (_ ≤ _))

/-- The characters that the ids of the configured bundles take that a table says are down: each
    of them with a space, and for each time it is configured. -/
def Config.idsLength (cfg : Config) (table : BundleMap) : Nat :=
  (((cfg.systemBundles ++ cfg.processBundles).filterMap table.downId).map (·.length + 1)).sum

theorem length_idString (ids : List Bytes) : (idString ids).length = (ids.map (·.length + 1)).sum := by
  induction ids with
  | nil => rfl
  | cons id ids ih =>
    have hcons : idString (id :: ids) = id ++ ofString " " ++ idString ids := by simp [idString]
    rw [hcons, List.length_append, ih, List.length_append, List.map_cons, List.sum_cons]
    rfl

/-! ### The length of a command -/

/-- The part that all commands begin with. -/
theorem length_sprintf_client (userName password tail : Bytes) (args : List Bytes) :
    (sprintf (ofString "client -h 127.0.0.1 -u %s -p %s" ++ tail)
      (userName :: password :: args)).length =
      27 + (cstr userName).length + (cstr password).length + (sprintf tail args).length := by
  have hformat : ofString "client -h 127.0.0.1 -u %s -p %s" = ofString "client -h 127.0.0.1 -u " ++
      (ofString "%s" ++ (ofString " -p " ++ ofString "%s")) := by decide
  have hlen : (ofString "client -h 127.0.0.1 -u ").length = 23 ∧ (ofString " -p ").length = 4 := by
    decide
  rw [hformat]
  simp only [List.append_assoc]
  rw [sprintf_text (by decide), sprintf_directive, sprintf_text (by decide), sprintf_directive]
  simp only [List.length_append, hlen.1, hlen.2]
  omega

/-- A text with one directive in it. -/
theorem length_sprintf_one {before after : Bytes} (hb : (37 : Byte) ∉ before)
    (ha : (37 : Byte) ∉ after) (arg : Bytes) :
    (sprintf (before ++ (ofString "%s" ++ after)) [arg]).length =
      before.length + (cstr arg).length + after.length := by
  have hafter : sprintf after [] = after := by
    have h := sprintf_text ha [] []
    rwa [List.append_nil, show sprintf [] [] = [] from rfl, List.append_nil] at h
  rw [sprintf_text hb, sprintf_directive, hafter, List.length_append, List.length_append]
  omega

/-- The list command is the longest without ids. -/
theorem length_gogoList (userName password : Bytes) :
    (Fired.strBuff ⟨gogoList, [userName, password]⟩).length =
      50 + (cstr userName).length + (cstr password).length := by
  have hformat : gogoList = ofString "client -h 127.0.0.1 -u %s -p %s" ++
      ofString " \"list -l |grep file:/\"" := by decide
  have htail : (sprintf (ofString " \"list -l |grep file:/\"") []).length = 23 := by decide
  rw [Fired.strBuff, hformat, length_sprintf_client, htail]
  omega

theorem length_gogoGetSystemInfo (userName password arg : Bytes) :
    (Fired.strBuff ⟨gogoGetSystemInfo, [userName, password, arg]⟩).length =
      32 + (cstr userName).length + (cstr password).length := by
  have hformat : gogoGetSystemInfo = ofString "client -h 127.0.0.1 -u %s -p %s" ++
      ofString " info" := by decide
  -- the third string has no place in the format
  have htail : (sprintf (ofString " info") [arg]).length = 5 := by
    have h := sprintf_text (show (37 : Byte) ∉ ofString " info" by decide) [] [arg]
    rw [List.append_nil] at h
    rw [h]
    rfl
  rw [Fired.strBuff, hformat, length_sprintf_client, htail]
  omega

theorem length_gogoStartBundle (userName password arg : Bytes) :
    (Fired.strBuff ⟨gogoStartBundle, [userName, password, arg]⟩).length =
      36 + (cstr userName).length + (cstr password).length + (cstr arg).length := by
  have hformat : gogoStartBundle = ofString "client -h 127.0.0.1 -u %s -p %s" ++
      (ofString " \"start " ++ (ofString "%s" ++ ofString "\"")) := by decide
  have hlen : (ofString " \"start ").length = 8 ∧ (ofString "\"").length = 1 := by decide
  rw [Fired.strBuff, hformat, length_sprintf_client, length_sprintf_one (by decide) (by decide),
    hlen.1, hlen.2]
  omega

theorem length_gogoStopBundle (userName password arg : Bytes) :
    (Fired.strBuff ⟨gogoStopBundle, [userName, password, arg]⟩).length =
      35 + (cstr userName).length + (cstr password).length + (cstr arg).length := by
  have hformat : gogoStopBundle = ofString "client -h 127.0.0.1 -u %s -p %s" ++
      (ofString " \"stop " ++ (ofString "%s" ++ ofString "\"")) := by decide
  have hlen : (ofString " \"stop ").length = 7 ∧ (ofString "\"").length = 1 := by decide
  rw [Fired.strBuff, hformat, length_sprintf_client, length_sprintf_one (by decide) (by decide),
    hlen.1, hlen.2]
  omega

/-! ### The strings -/

theorem SameRecords.downId_eq {m n : BundleMap} (h : SameRecords m n) : m.downId = n.downId := by
  have hrecord : ∀ (t : BundleMap) (name : Bytes),
      t.downId name = ((t.record? name).filter Bundle.isDown).map (·.id) := by
    intro t name
    rw [BundleMap.downId, BundleMap.record?]
    cases t[name]? with
    | none => rfl
    | some b =>
      rw [Option.map_some, Option.filter_some, Option.filter_some]
      show Option.map _ (if b.isDown then _ else _) = Option.map _ (if b.isDown then _ else _)
      split_ifs <;> rfl
  funext name
  rw [hrecord, hrecord, h name]

/-- The invariant of the two strings: one holds the ids of the configured bundles that are down,
    none of them with a zero byte, and the other is never filled. -/
structure Strings (cfg : Config) (s : Monitor) : Prop where
  start : s.bundlesToStart =
    idString ((cfg.systemBundles ++ cfg.processBundles).filterMap s.table.downId)
  stop : s.bundlesToStop = []
  ids : IdBytes (· ≠ 0) s

theorem strings_initial (cfg : Config) : Strings cfg Monitor.initial where
  start := by
    have hnone : ∀ names : List Bytes, names.filterMap Monitor.initial.table.downId = [] := by
      intro names
      rw [List.filterMap_eq_nil_iff]
      intro name _
      simp [BundleMap.downId, Monitor.table, Monitor.initial]
    rw [hnone]
    rfl
  stop := rfl
  ids := ⟨by simp [Monitor.initial, Monitor.table], by simp [Monitor.initial]⟩

/-- No step fills the stop string. -/
theorem bundlesToStop_step (cfg : Config) (s : Monitor) (e : Event) :
    (step cfg s e).bundlesToStop = s.bundlesToStop := by
  cases e with
  | gogoReady b => rfl
  | fireCommandOperationInProgress b => rfl
  | iteration pipe =>
    unfold step Monitor.iterate
    split_ifs <;> rfl

/-- **Step lemma.** -/
theorem strings_step (cfg : Config) (s : Monitor) (e : Event) (hs : Strings cfg s) :
    Strings cfg (step cfg s e) where
  start := by
    cases h : listText s e with
    | none =>
      obtain ⟨htable, _, _, hstart⟩ := step_frame cfg h
      rw [hstart, Monitor.table, htable]
      exact hs.start
    | some text =>
      -- counting the starts changes no record of the refreshed table
      rw [step_of_listText h, (sameRecords_listStep cfg text s).downId_eq]
      exact buildBundlesToStart_eq_idString _ _ _ _ _
  stop := by
    rw [bundlesToStop_step]
    exact hs.stop
  ids := nulFree_ids_step cfg s e hs.ids

/-- **Run lemma.**  The invariant holds whenever a command is fired. -/
theorem strings_of_mem_calls {cfg : Config} {es : List Event} {c : Call}
    (hc : c ∈ calls cfg Monitor.initial es) : Strings cfg c.state :=
  forall_history (strings_step cfg) (strings_initial cfg) (mem_calls hc).1

/-! ### The bound -/

/-- With short credentials, a command fits unless it is a start command with too many ids. -/
theorem fitsBuffer_iff {cfg : Config} {s : Monitor} {e : Event} {f : Fired}
    (huser : (cstr cfg.gogoUserName).length ≤ 3) (hpassword : (cstr cfg.gogoPassword).length ≤ 3)
    (hs : Strings cfg s) (h : fired cfg s e = some f) :
    f.FitsBuffer ↔ (f.format = gogoStartBundle →
      (cstr cfg.gogoUserName).length + (cstr cfg.gogoPassword).length + cfg.idsLength s.table ≤
        987) := by
  have hstart : (cstr s.bundlesToStart).length = cfg.idsLength s.table := by
    have hfree : NulFree s.bundlesToStart := fun h0 => hs.ids.start 0 h0 rfl
    rw [cstr_of_nulFree hfree, hs.start, length_idString, Config.idsLength]
  unfold Fired.FitsBuffer strBuffSize
  rcases fired_cases h with rfl | rfl | rfl | rfl
  · rw [length_gogoList]
    exact iff_of_true (by omega) fun hf => absurd hf (show gogoList ≠ gogoStartBundle by decide)
  · rw [length_gogoGetSystemInfo]
    exact iff_of_true (by omega) fun hf =>
      absurd hf (show gogoGetSystemInfo ≠ gogoStartBundle by decide)
  · rw [length_gogoStartBundle, hstart, forall_prop_of_true rfl]
    omega
  · rw [length_gogoStopBundle, hs.stop]
    refine iff_of_true ?_ fun hf => absurd hf (show gogoStopBundle ≠ gogoStartBundle by decide)
    show 35 + _ + _ + 0 + 1 ≤ 1024
    omega

/-- **Command buffer bound.**  With credentials of at most three characters each, every command
    of a run fits into `strBuff` with its terminating zero exactly when, before each start
    command, the ids of the configured bundles that the table says are down, with a space after
    each, leave room: together with the credentials they take at most 987 characters. -/
theorem strBuff_fits_iff (cfg : Config) (huser : (cstr cfg.gogoUserName).length ≤ 3)
    (hpassword : (cstr cfg.gogoPassword).length ≤ 3) (es : List Event) :
    (∀ c ∈ calls cfg Monitor.initial es, c.fired.FitsBuffer) ↔
      ∀ c ∈ calls cfg Monitor.initial es, c.fired.format = gogoStartBundle →
        (cstr cfg.gogoUserName).length + (cstr cfg.gogoPassword).length +
          cfg.idsLength c.state.table ≤ 987 := by
  refine forall₂_congr fun c hc => ?_
  exact fitsBuffer_iff huser hpassword (strings_of_mem_calls hc) (mem_calls hc).2

/-- One bundle that is down leaves room in both commands of its run. -/
theorem strBuff_fits_hostileRun :
    (calls shippedConfig Monitor.initial hostileRun).length = 2 ∧
      ∀ c ∈ calls shippedConfig Monitor.initial hostileRun, c.fired.FitsBuffer := by
  refine ⟨by decide +kernel, ?_⟩
  exact (strBuff_fits_iff shippedConfig (by decide) (by decide) hostileRun).mpr (by decide +kernel)

/-- A bundle that is down takes its room once for each time it is configured. -/
theorem le_idsLength {cfg : Config} {table : BundleMap} {name id : Bytes} {n : Nat}
    (hnames : cfg.processBundles = List.replicate n name) (hid : table.downId name = some id) :
    n * (id.length + 1) ≤ cfg.idsLength table := by
  rw [Config.idsLength, hnames, List.filterMap_append, List.filterMap_replicate_of_some hid,
    List.map_append, List.map_replicate, List.sum_append,
    List.sum_replicate_nat]
  exact Nat.le_add_left _ _

/-- The shipped configuration with one bundle that is to be kept alive named often. -/
def wideConfig : Config :=
  { shippedConfig with processBundles := List.replicate 250 (ofString "xom-1.2.5.jar") }

/-- With it, the start command of the same run does not fit. -/
theorem strBuff_overflow :
    (cstr wideConfig.gogoUserName).length ≤ 3 ∧ (cstr wideConfig.gogoPassword).length ≤ 3 ∧
      ¬ ∀ c ∈ calls wideConfig Monitor.initial hostileRun, c.fired.FitsBuffer := by
  have huser : (cstr wideConfig.gogoUserName).length ≤ 3 := by decide
  have hpassword : (cstr wideConfig.gogoPassword).length ≤ 3 := by decide
  refine ⟨huser, hpassword, fun h => ?_⟩
  have hsecond : (calls wideConfig Monitor.initial hostileRun)[1]?.map
      (fun c => (c.fired.format, c.state.table.downId (ofString "xom-1.2.5.jar"))) =
        some (gogoStartBundle, some (ofString "210")) := by decide +kernel
  obtain ⟨c, hc, hpair⟩ := Option.map_eq_some_iff.mp hsecond
  obtain ⟨hformat, hid⟩ := Prod.mk.inj hpair
  have hmem := List.mem_of_getElem? hc
  have hroom := (fitsBuffer_iff huser hpassword (strings_of_mem_calls hmem) (mem_calls hmem).2).mp
    (h c hmem) hformat
  have hids : 250 * ((ofString "210").length + 1) ≤ wideConfig.idsLength c.state.table :=
    le_idsLength rfl hid
  rw [show (ofString "210").length = 3 by decide] at hids
  omega

/-! ### Runs with the array -/

/-- An event with the array its command is written into: the state after it and the command line,
    or `none` if the command does not fit, since then C does not say what happens. -/
def stepInBuffer (cfg : Config) (s : Monitor) (e : Event) : Option (Monitor × Option Bytes) :=
  match fired cfg s e with
  | none   => some (step cfg s e, none)
  | some f => if f.FitsBuffer then some (step cfg s e, some (f.command cfg)) else none

/-- The state after a run and its command lines. -/
def runInBuffer (cfg : Config) (s : Monitor) : List Event → Option (Monitor × List Bytes)
  | []      => some (s, [])
  | e :: es => do
      let (s', line) ← stepInBuffer cfg s e
      let (last, lines) ← runInBuffer cfg s' es
      return (last, line.toList ++ lines)

/-- **Step lemma.**  An event is defined as long as its command fits. -/
theorem stepInBuffer_of_fits {cfg : Config} {s : Monitor} {e : Event}
    (h : ∀ f ∈ fired cfg s e, f.FitsBuffer) :
    stepInBuffer cfg s e = some (step cfg s e, (fired cfg s e).map (·.command cfg)) := by
  rw [stepInBuffer]
  cases hf : fired cfg s e with
  | none => rfl
  | some f => exact if_pos (h f hf)

/-- **Run lemma.**  A run whose commands all fit is defined: the array changes nothing. -/
theorem runInBuffer_of_fits {cfg : Config} {s : Monitor} {es : List Event}
    (h : ∀ f ∈ outputs (step cfg) (fired cfg) s es, f.FitsBuffer) :
    runInBuffer cfg s es = some (es.foldl (step cfg) s,
      (outputs (step cfg) (fired cfg) s es).map (·.command cfg)) := by
  induction es generalizing s with
  | nil => rfl
  | cons e es ih =>
    rw [outputs_cons, List.forall_mem_append] at h
    have hstep := stepInBuffer_of_fits fun f hf => h.1 f (Option.mem_toList.mpr hf)
    rw [runInBuffer, hstep, outputs_cons, List.map_append, ← Option.toList_map]
    show (runInBuffer cfg (step cfg s e) es).bind _ = _
    rw [ih h.2]
    rfl

end OsgiManager.ESB
