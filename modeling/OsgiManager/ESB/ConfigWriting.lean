import OsgiManager.ESB.Startup
import OsgiManager.Rapidjson.Writer

namespace OsgiManager.ESB

open OsgiManager.Lib OsgiManager.Rapidjson

/-!
# Writing a configuration

A file for every configuration, and what is left of it when it is cut off.

* `ConfigTexts.file` — the file, under the names and in the order of the one that comes with
  the program; it has one space more if its length would be a multiple of the chunk size;
* `config_round_trip` — the program starts with what has been written;
* `truncated_config` — a file that is cut off starts the program with the same values, or not
  at all.
-/

/-- The texts, as a document.  The members that are only looked up are empty. -/
def ConfigTexts.members (t : ConfigTexts) : List (Bytes × Json) :=
  [ (ofString "working.dir", .string t.workingDir),
    (ofString "command", .string []),
    (ofString "mainclass", .string []),
    (ofString "classpath.1", .string []),
    (ofString "classpath.2", .string []),
    (ofString "classpath.3", .string []),
    (ofString "classpath.4", .string []),
    (ofString "library.path.1", .string []),
    (ofString "gogo_username", .string t.gogoUsername),
    (ofString "gogo_password", .string t.gogoPassword),
    (ofString "startWholly", .string t.configStartWolly),
    (ofString "listParser", .string t.listParser),
    (ofString "systemInfoParser", .string t.systemInfoParser),
    (ofString "system_bundles", ofTexts t.system_bundles),
    (ofString "process_bundles", ofTexts t.process_bundles),
    (ofString "set_commands", ofCommands t.set_commands),
    (ofString "batch_commands", ofTexts t.batch_commands) ]

/-- The file of a configuration. -/
def ConfigTexts.file (t : ConfigTexts) : Bytes :=
  let text := written (.object t.members)
  if text.length % fileReadChunkSize = 0 then text ++ [' '.toUInt8] else text

theorem firstMember_of_mem {ms : List (Bytes × Json)} (h : (ms.map Prod.fst).Nodup) {name : Bytes}
    {j : Json} (hm : (name, j) ∈ ms) : FirstMember ms name j := by
  obtain ⟨before, after, rfl⟩ := List.append_of_mem hm
  refine ⟨before, after, rfl, fun m hbefore heq => ?_⟩
  rw [List.map_append, List.map_cons, List.nodup_append] at h
  exact h.2.2 m.1 (List.mem_map.mpr ⟨m, hbefore, rfl⟩) name List.mem_cons_self heq

/-- The names in the file are distinct. -/
theorem nodup_members (t : ConfigTexts) : (t.members.map Prod.fst).Nodup := by
  -- they do not depend on the texts
  show ((default : ConfigTexts).members.map Prod.fst).Nodup
  decide +kernel

theorem in_members (t : ConfigTexts) : t.In t.members := by
  have first : ∀ (i : Nat) {name : Bytes} {j : Json}, t.members[i]? = some (name, j) →
      FirstMember t.members name j := fun _ _ _ h =>
    firstMember_of_mem (nodup_members t) (List.mem_of_getElem? h)
  constructor
  case workingDir => exact first 0 rfl
  case command => exact ⟨_, first 1 rfl⟩
  case mainclass => exact ⟨_, first 2 rfl⟩
  case classpath1 => exact ⟨_, first 3 rfl⟩
  case classpath2 => exact ⟨_, first 4 rfl⟩
  case classpath3 => exact ⟨_, first 5 rfl⟩
  case classpath4 => exact ⟨_, first 6 rfl⟩
  case libraryPath => exact ⟨_, first 7 rfl⟩
  case gogoUsername => exact first 8 rfl
  case gogoPassword => exact first 9 rfl
  case configStartWolly => exact first 10 rfl
  case listParser => exact first 11 rfl
  case systemInfoParser => exact first 12 rfl
  case system_bundles => exact first 13 rfl
  case process_bundles => exact first 14 rfl
  case set_commands => exact first 15 rfl
  case batch_commands => exact first 16 rfl

/-! ### The round trip -/

theorem numbersIn_map_string (texts : List Bytes) :
    JsonOf.numbersIn (texts.map (JsonOf.string : Bytes → Json)) = [] := by
  induction texts with
  | nil => rfl
  | cons text texts ih =>
    rw [List.map_cons, JsonOf.numbersIn, ih]
    rfl

theorem numbersOf_map_json (set_commands : List SetCommand) :
    JsonOf.numbersOf (set_commands.map SetCommand.json) = [] := by
  induction set_commands with
  | nil => rfl
  | cons itr set_commands ih =>
    rw [List.map_cons, SetCommand.json, JsonOf.numbersOf, ih]
    rfl

/-- A configuration has no numbers. -/
theorem numbers_members (t : ConfigTexts) : (JsonOf.object t.members).numbers = [] := by
  simp [ConfigTexts.members, JsonOf.numbers, JsonOf.numbersOf, ofTexts, ofCommands,
    numbersIn_map_string, numbersOf_map_json]

variable {regex extended : Bytes → Option Matcher} {tooBig : Bytes → Bool}

theorem document_file (t : ConfigTexts) : Json.Document tooBig (.object t.members) t.file := by
  have htext : Json.Document tooBig (.object t.members) (written (.object t.members)) := by
    apply Json.document_render stringText_writeString
    rw [numbers_members]
    exact fun _ h => absurd h List.not_mem_nil
  rw [ConfigTexts.file]
  split_ifs
  · exact htext.append (by decide +kernel)
  · exact htext

/-- The file can be read. -/
theorem length_file (t : ConfigTexts) : t.file.length % fileReadChunkSize ≠ 0 := by
  rw [ConfigTexts.file]
  split_ifs with h
  · have hmod : (written (.object t.members)).length % 1024 = 0 := h
    show (written (.object t.members) ++ [' '.toUInt8]).length % 1024 ≠ 0
    rw [List.length_append, List.length_singleton]
    omega
  · exact h

/-- A document that can be read starts the program with what its texts give. -/
theorem starts_document_iff {content : Bytes} {ms : List (Bytes × Json)} {t : ConfigTexts}
    {s : Started} (hd : Json.Document tooBig (.object ms) content) (ht : t.In ms)
    (hmod : content.length % fileReadChunkSize ≠ 0) :
    Starts regex extended tooBig content s ↔ t.Gives regex extended s := by
  have hfree := nulFree_document hd
  rw [starts_iff, cstr_of_nulFree hfree]
  constructor
  · rintro ⟨-, ms', t', hd', ht', hs⟩
    -- the text is a document of one object, and this has the texts of one configuration
    have hms : some (JsonOf.object ms) = some (.object ms') := by
      rw [← parse_document hd, parse_document hd']
    cases hms
    have htexts : some t = some t' := by
      rw [← readTexts_eq_some_iff.mpr ht, readTexts_eq_some_iff.mpr ht']
    cases htexts
    exact hs
  · intro hs
    exact ⟨fun _ => hmod, ms, t, hd, ht, hs⟩

/-- **Round trip.**  Whatever texts a configuration has, the file that is written for it starts
    the program with exactly what they give. -/
theorem config_round_trip (regex extended : Bytes → Option Matcher) (tooBig : Bytes → Bool)
    (t : ConfigTexts) (s : Started) :
    Starts regex extended tooBig t.file s ↔ t.Gives regex extended s :=
  starts_document_iff (document_file t) (in_members t) (length_file t)

/-! ### Files that are cut off -/

/-- **A file that is cut off.**  If a front part of a configuration that starts the program starts
    it as well, it does so with the same values, and nothing but spaces has been cut off. -/
theorem truncated_config {content front : Bytes} {s s' : Started} (hfront : front <+: content)
    (h : Starts regex extended tooBig content s) (h' : Starts regex extended tooBig front s') :
    s' = s ∧ ∃ w, Json.Spaces w ∧ cstr content = cstr front ++ w := by
  obtain ⟨-, ms, t, hd, ht, hs⟩ := starts_iff.mp h
  obtain ⟨hmod', ms', t', hd', ht', hs'⟩ := starts_iff.mp h'
  obtain ⟨rest, rfl⟩ := hfront
  obtain ⟨w, hw⟩ : ∃ w, cstr (front ++ rest) = cstr front ++ w := by
    by_cases hfree : NulFree front
    · exact ⟨cstr rest, by rw [cstr_append hfree, cstr_of_nulFree hfree]⟩
    · exact ⟨[], by rw [cstr_append_of_not_nulFree hfree, List.append_nil]⟩
  rw [hw] at hd
  obtain ⟨rfl, hspaces⟩ := document_of_front hd' hd
  have hstarts : Starts regex extended tooBig front s := by
    refine starts_iff.mpr ⟨hmod', ms, t, hd', ht, hs⟩
  exact ⟨h'.unique hstarts, w, hspaces, hw⟩

/-- The texts of a small configuration, with the patterns of the one that comes with the program
    left out. -/
def smallTexts : ConfigTexts where
  set_commands := []
  batch_commands := []
  system_bundles := [ofString "xom-1.2.5.jar"]
  process_bundles := [ofString "camel-core.jar"]
  workingDir := ofString "C:/jboss"
  listParser := []
  systemInfoParser := []
  gogoUsername := ofString "smx"
  gogoPassword := ofString "smx"
  configStartWolly := ofString "false"

/-- What they give, with the matchers of the configuration that comes with the program. -/
def smallStarted : Started where
  startWholly := false
  config := {
    gogoUserName := ofString "smx"
    gogoPassword := ofString "smx"
    workingDir := ofString "C:/jboss"
    systemBundles := [ofString "xom-1.2.5.jar"]
    processBundles := [ofString "camel-core.jar"]
    regexListParser := shippedConfig.regexListParser
    systemInfoParser := shippedConfig.systemInfoParser }
  karafStartupCommnad := []
  monitor := Monitor.released

theorem gives_smallTexts : smallTexts.Gives (fun _ => some shippedConfig.regexListParser)
    (fun _ => some shippedConfig.systemInfoParser) smallStarted :=
  ⟨rfl, by decide, by decide, by decide, by decide, rfl, rfl, rfl,
    ⟨[], expands_nil.mpr rfl, rfl⟩, rfl⟩

theorem starts_smallTexts : Starts (fun _ => some shippedConfig.regexListParser)
    (fun _ => some shippedConfig.systemInfoParser) (fun _ => false) smallTexts.file smallStarted :=
  (starts_document_iff (document_file smallTexts) (in_members smallTexts)
    (length_file smallTexts)).mpr gives_smallTexts

/-- The same value, made of the texts as the program makes it. -/
def remade (t : ConfigTexts) : Started where
  startWholly := false
  config := {
    gogoUserName := cstr t.gogoUsername
    gogoPassword := cstr t.gogoPassword
    workingDir := cstr t.workingDir
    systemBundles := t.system_bundles.map cstr
    processBundles := t.process_bundles.map cstr
    regexListParser := shippedConfig.regexListParser
    systemInfoParser := shippedConfig.systemInfoParser }
  karafStartupCommnad := commandLineSetString t.set_commands ++ []
  monitor := reached shippedConfig [.gogoReady true, .fireCommandOperationInProgress false]

theorem gives_remade : smallTexts.Gives (fun _ => some shippedConfig.regexListParser)
    (fun _ => some shippedConfig.systemInfoParser) (remade smallTexts) :=
  ⟨rfl, rfl, rfl, rfl, rfl, rfl, rfl, rfl, ⟨[], expands_nil.mpr rfl, rfl⟩, rfl⟩

theorem starts_remade : Starts (fun _ => some shippedConfig.regexListParser)
    (fun _ => some shippedConfig.systemInfoParser) (fun _ => false) smallTexts.file
    (remade smallTexts) :=
  (starts_document_iff (document_file smallTexts) (in_members smallTexts)
    (length_file smallTexts)).mpr gives_remade

/-- Two spaces may be cut off: the file with them starts the program with the value written out
    above, and the file without them with the one made of the texts. -/
theorem truncated_smallTexts : remade smallTexts = smallStarted ∧ ∃ w, Json.Spaces w ∧
    cstr (smallTexts.file ++ ofString "  ") = cstr smallTexts.file ++ w :=
  truncated_config (List.prefix_append _ _)
    ((starts_document_iff ((document_file smallTexts).append (by decide +kernel))
      (in_members smallTexts) (by decide +kernel)).mpr gives_smallTexts) starts_remade

end OsgiManager.ESB
