import OsgiManager.ESB.StartList
import OsgiManager.ESB.Exec
import OsgiManager.ESB.Console
import OsgiManager.ESB.SystemInfo
import OsgiManager.Lib.Run

namespace OsgiManager.ESB

open OsgiManager.Lib

/-!
# The monitor loop

`StartMonitorService` as a machine.  Its state is made of the static members of `ESBManager`
that the loop reads and writes; an event is one iteration of the loop, or one of the flag
settings that other code makes between two iterations.  An iteration that runs a command
takes the pipe `popen` gives for it as input.

* `Monitor.iterate` — the body of the loop, with the command it fires, if any;
* `step`, `fired` — the machine and its output;
* `listText`, `infoText` — whether a step is a GOGO_LIST or a GOGO_GET_SYSTEM_INFO step, and
  the text fetched in it;
* `step_of_listText`, `step_frame` — a list step does `listStep`, and no other step touches
  the bundle data.

`continueRunning` only decides how many iterations there are: a run is the iterations made.
-/

/-- What `InitializeAndStart` reads from the configuration and the loop uses. -/
structure Config where
  gogoUserName : Bytes
  gogoPassword : Bytes
  workingDir : Bytes
  systemBundles : List Bytes
  processBundles : List Bytes
  regexListParser : Matcher
  systemInfoParser : Matcher

/-- The configuration file that comes with the program. -/
def shippedConfig : Config where
  gogoUserName := ofString "smx"
  gogoPassword := ofString "smx"
  workingDir := ofString "C:/jboss/jboss-fuse-6.2.1.redhat-084"
  systemBundles :=
    [ ofString "system-service-util-4.x.x-SNAPSHOT.jar",
      ofString "postilion-service-util-4.0.0-32.jar",
      ofString "scplite-service-util-4.0.0-51.jar",
      ofString "xom-1.2.5.jar" ]
  processBundles :=
    [ ofString "scplite-service-rest-4.0.0-51.jar",
      ofString "scplite-service-soap-4.0.0-51.jar",
      ofString "scplite-service-processor-4.0.0-51.jar",
      ofString "scplite-cms-api-service-provider-4.0.0-51.jar",
      ofString "postilion-service-generic-provider-4.0.0-32.jar" ]
  regexListParser := listParser.matcher
  systemInfoParser := systemInfoParser.matcher

/-- The static members of `ESBManager`, with their initial values.  The table starts as
    `none`: line 425 asks whether it has been filled yet. -/
structure Monitor where
  lastCommandStr : Bytes := []
  gogoReady : Bool := false
  fireCommandOperationInProgress : Bool := false
  bundlesWithNameAndId : Option BundleMap := none
  deadBundles : List Bytes := []
  failedBundles : List Bytes := []
  inferBundlesToEscalateByNotitifacation : List Bytes := []
  bundlesToStart : Bytes := []
  bundlesToStop : Bytes := []
  currentSystemInfo : SystemInfo := SystemInfo.new

/-- The state in which the program starts. -/
def Monitor.initial : Monitor := {}

/-- The contents of the map `bundlesWithNameAndId`. -/
def Monitor.table (s : Monitor) : BundleMap := s.bundlesWithNameAndId.getD ∅

/-- `getCurrentSystemInfo()`: returns the static by value, through the copy constructor. -/
def Monitor.getCurrentSystemInfo (s : Monitor) : SystemInfo := s.currentSystemInfo.copy

/-- A command handed to `FireCommandExecVP`: the format and the strings put into it. -/
structure Fired where
  format : Bytes
  args : List Bytes
deriving DecidableEq

/-- The text `sprintf` writes into `strBuff`. -/
def Fired.strBuff (f : Fired) : Bytes := sprintf f.format f.args

/-- The command line: the working directory and the C string in `strBuff`. -/
def Fired.command (cfg : Config) (f : Fired) : Bytes :=
  cfg.workingDir ++ ofString "/bin\\" ++ cstr f.strBuff

/-! ### The body of the loop -/

/-- Lines 425 to 432: the parsed table replaces an unfilled one, and one of another size. -/
def refreshTable (bundlesWithNameAndId : Option BundleMap) (bundles : BundleMap) : BundleMap :=
  match bundlesWithNameAndId with
  | none       => bundles
  | some table => if table.size ≠ bundles.size then bundles else table

/-- The GOGO_LIST branch, after the command has returned `bundleList`. -/
def Monitor.listStep (cfg : Config) (bundleList : Bytes) (s : Monitor) : Monitor :=
  let bundles := mapBundleNamesToBundlesId cfg.regexListParser bundleList
  let table := refreshTable s.bundlesWithNameAndId bundles
  let deadBundles := getDeadBundles table
  let failedBundles := getFailedBundles table
  let built := buildBundlesToStart table deadBundles failedBundles cfg.processBundles
    cfg.systemBundles
  { s with
    bundlesWithNameAndId := some built.2
    deadBundles := deadBundles
    failedBundles := failedBundles
    inferBundlesToEscalateByNotitifacation := getListOfBundlesWhoesStateShouldBeEscalated table
    bundlesToStart := built.1
    lastCommandStr := gogoStartBundle }

/-- The GOGO_GET_SYSTEM_INFO branch, after the command has returned `systemInfo`. -/
def Monitor.infoStep (cfg : Config) (systemInfo : Bytes) (s : Monitor) : Monitor :=
  { s with
    currentSystemInfo :=
      s.currentSystemInfo.assign (fillSystemInfo cfg.systemInfoParser systemInfo)
    lastCommandStr := gogoList }

/-- Whether an iteration gets past the test of the two flags. -/
def Monitor.isReady (s : Monitor) : Bool := s.gogoReady && !s.fireCommandOperationInProgress

/-- One iteration of the loop, given the pipe of the command it fires. -/
def Monitor.iterate (cfg : Config) (pipe : Option Bytes) (s : Monitor) : Monitor × Option Fired :=
  if s.isReady then
    if s.lastCommandStr = gogoList then
      (s.listStep cfg (fireCommandExecVP pipe),
        some ⟨gogoList, [cfg.gogoUserName, cfg.gogoPassword]⟩)
    else if s.lastCommandStr = gogoGetSystemInfo then
      -- the format has no place for the third string
      (s.infoStep cfg (fireCommandExecVP pipe),
        some ⟨gogoGetSystemInfo, [cfg.gogoUserName, cfg.gogoPassword, s.bundlesToStart]⟩)
    else if s.lastCommandStr = gogoStartBundle then
      ({ s with lastCommandStr := gogoStopBundle },
        some ⟨gogoStartBundle, [cfg.gogoUserName, cfg.gogoPassword, s.bundlesToStart]⟩)
    else if s.lastCommandStr = gogoStopBundle then
      ({ s with lastCommandStr := gogoGetSystemInfo },
        some ⟨gogoStopBundle, [cfg.gogoUserName, cfg.gogoPassword, s.bundlesToStop]⟩)
    -- nothing has been fired yet
    else ({ s with lastCommandStr := gogoList }, none)
  else (s, none)

/-! ### The machine -/

/-- What happens next: a call of one of the two flag setters, or an iteration of the loop
    with the pipe its command gets. -/
inductive Event where
  | gogoReady (isGogoReady : Bool)
  | fireCommandOperationInProgress (isFireCommandOperationInProgress : Bool)
  | iteration (pipe : Option Bytes)

/-- The state after an event. -/
def step (cfg : Config) (s : Monitor) : Event → Monitor
  | .gogoReady b                      => { s with gogoReady := b }
  | .fireCommandOperationInProgress b => { s with fireCommandOperationInProgress := b }
  | .iteration pipe                   => (s.iterate cfg pipe).1

/-- The command an event fires. -/
def fired (cfg : Config) (s : Monitor) : Event → Option Fired
  | .iteration pipe => (s.iterate cfg pipe).2
  | _               => none

/-- The text fetched by a GOGO_LIST step; `none` for every other step. -/
def listText (s : Monitor) : Event → Option Bytes
  | .iteration pipe =>
      if s.isReady = true ∧ s.lastCommandStr = gogoList then some (fireCommandExecVP pipe) else none
  | _               => none

/-- The text fetched by a GOGO_GET_SYSTEM_INFO step; `none` for every other step. -/
def infoText (s : Monitor) : Event → Option Bytes
  | .iteration pipe =>
      if s.isReady = true ∧ s.lastCommandStr = gogoGetSystemInfo then
        some (fireCommandExecVP pipe)
      else none
  | _               => none

/-- The state a run of the program ends in. -/
def reached (cfg : Config) (es : List Event) : Monitor := es.foldl (step cfg) Monitor.initial

theorem reached_concat (cfg : Config) (es : List Event) (e : Event) :
    reached cfg (es ++ [e]) = step cfg (reached cfg es) e := by
  rw [reached, List.foldl_append]; rfl

/-! ### What each step does -/

theorem listText_eq_some_iff {s : Monitor} {e : Event} {text : Bytes} :
    listText s e = some text ↔ ∃ pipe, e = .iteration pipe ∧ s.isReady = true ∧
      s.lastCommandStr = gogoList ∧ text = fireCommandExecVP pipe := by
  cases e with
  | gogoReady b => simp [listText]
  | fireCommandOperationInProgress b => simp [listText]
  | iteration pipe =>
    rw [listText, Option.ite_none_right_eq_some, Option.some.injEq]
    constructor
    · intro h
      exact ⟨pipe, rfl, h.1.1, h.1.2, h.2.symm⟩
    · rintro ⟨_, he, hready, hlist, htext⟩
      cases he
      exact ⟨⟨hready, hlist⟩, htext.symm⟩

/-- A list step runs the GOGO_LIST branch on the text it fetches. -/
theorem step_of_listText {cfg : Config} {s : Monitor} {e : Event} {text : Bytes}
    (h : listText s e = some text) : step cfg s e = s.listStep cfg text := by
  obtain ⟨pipe, rfl, hr, hl, rfl⟩ := listText_eq_some_iff.mp h
  simp only [step, Monitor.iterate, hr, hl, if_true]

/-- **Frame.**  A step that is no list step leaves the table and the lists derived from it
    alone. -/
theorem step_frame (cfg : Config) {s : Monitor} {e : Event} (h : listText s e = none) :
    (step cfg s e).bundlesWithNameAndId = s.bundlesWithNameAndId ∧
      (step cfg s e).deadBundles = s.deadBundles ∧
      (step cfg s e).failedBundles = s.failedBundles ∧
      (step cfg s e).bundlesToStart = s.bundlesToStart := by
  cases e with
  | gogoReady b => exact ⟨rfl, rfl, rfl, rfl⟩
  | fireCommandOperationInProgress b => exact ⟨rfl, rfl, rfl, rfl⟩
  | iteration pipe =>
    have hnot : ¬ (s.isReady = true ∧ s.lastCommandStr = gogoList) := fun h' => by
      simp [listText, h'] at h
    simp only [step, Monitor.iterate]
    by_cases hr : s.isReady = true
    · rw [if_pos hr, if_neg fun hl => hnot ⟨hr, hl⟩]
      -- the four branches that are left assign to none of these members
      split_ifs <;> exact ⟨rfl, rfl, rfl, rfl⟩
    · rw [if_neg hr]
      exact ⟨rfl, rfl, rfl, rfl⟩

/-- The table after a list step has the records of the refreshed table. -/
theorem sameRecords_listStep (cfg : Config) (text : Bytes) (s : Monitor) :
    SameRecords (s.listStep cfg text).table
      (refreshTable s.bundlesWithNameAndId
        (mapBundleNamesToBundlesId cfg.regexListParser text)) :=
  sameRecords_buildBundlesToStart _ _ _ _ _

/-! ### The bytes of the ids -/

/-- Every byte of the ids in the stored table and of the start string satisfies `P`. -/
structure IdBytes (P : Byte → Prop) (s : Monitor) : Prop where
  table : ∀ (name : Bytes) (b : Bundle), s.table[name]? = some b → ∀ c ∈ b.id, P c
  start : ∀ c ∈ s.bundlesToStart, P c

/-- An entry of the refreshed table is an entry of the old one or of the parsed one. -/
theorem getElem?_refreshTable {old : Option BundleMap} {bundles : BundleMap} {name : Bytes}
    {b : Bundle} (h : (refreshTable old bundles)[name]? = some b) :
    (old.getD ∅)[name]? = some b ∨ bundles[name]? = some b := by
  unfold refreshTable at h
  split at h
  · exact .inr h
  · split at h
    · exact .inr h
    · exact .inl h

/-- **Step lemma.**  If every text a list step can fetch parses to ids with bytes in `P`, and
    `P` holds of the space between them, then each step keeps `IdBytes P`. -/
theorem idBytes_step {P : Byte → Prop} {cfg : Config} (hspace : P ' '.toUInt8)
    (hparse : ∀ text, NulFree text → ∀ (name : Bytes) (b : Bundle),
      (mapBundleNamesToBundlesId cfg.regexListParser text)[name]? = some b → ∀ c ∈ b.id, P c)
    (s : Monitor) (e : Event) (hs : IdBytes P s) : IdBytes P (step cfg s e) := by
  cases h : listText s e with
  | none =>
    -- the frame lemma: neither the table nor the start string has changed
    obtain ⟨ht, _, _, hb⟩ := step_frame cfg h
    exact ⟨by rw [Monitor.table, ht]; exact hs.table, by rw [hb]; exact hs.start⟩
  | some text =>
    obtain ⟨pipe, _, _, _, hp⟩ := listText_eq_some_iff.mp h
    have hfresh : ∀ (name : Bytes) (b : Bundle), (refreshTable s.bundlesWithNameAndId
        (mapBundleNamesToBundlesId cfg.regexListParser text))[name]? = some b →
        ∀ c ∈ b.id, P c := by
      intro name b hb
      rcases getElem?_refreshTable hb with hb | hb
      · exact hs.table name b hb
      · exact hparse text (hp ▸ nulFree_fireCommandExecVP pipe) name b hb
    rw [step_of_listText h]
    constructor
    · -- counting starts does not change the ids
      intro name b hb
      obtain ⟨b', hb', hr⟩ := (sameRecords_listStep cfg text s).exists_getElem? hb
      rw [← (Bundle.columns_of_record hr).1]
      exact hfresh name b' hb'
    · exact mem_buildBundlesToStart_fst hfresh hspace _ _ _ _

end OsgiManager.ESB
