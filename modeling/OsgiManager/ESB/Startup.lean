import OsgiManager.ESB.ConfigFile
import OsgiManager.ESB.Monitor
import OsgiManager.ESB.SetCommands
import OsgiManager.Rapidjson.Document

namespace OsgiManager.ESB

open OsgiManager.Lib OsgiManager.Rapidjson

/-!
# Starting up

`InitializeAndStart`, from the bytes of the configuration file to the point where the services
are started.

* `readTexts` — the members of the document, with the assertions of rapidjson;
* `configure` — the static members made of them;
* `initializeAndStart` — all of it;
* `readBody_returns_iff` — what the read loop makes of any file;
* `starts_iff` — the files with which the program starts, and what it starts with.

The file is what `fread` delivers of it.  The constructors of `std::regex` and the conversion
of a number are parameters: the first two give a matcher or throw, the last one may refuse.
-/

/-! ### Values of the document -/

/-- `d[name]`: the first member with the name.  There are assertions that `d` is an object and
    that there is such a member. -/
def member (d : Json) (name : Bytes) : Option Json :=
  match d with
  | .object ms => (ms.find? (·.1 = name)).map (·.2)
  | _          => none

/-- `GetString()`. -/
def getString : Json → Option Bytes
  | .string s => some s
  | _         => none

/-- The values from `[0]` to `[Size() - 1]`. -/
def elements : Json → Option (List Json)
  | .array js => some js
  | _         => none

/-- The members from `MemberBegin()` to `MemberEnd()`. -/
def members : Json → Option (List (Bytes × Json))
  | .object ms => some ms
  | _          => none

/-- `itr->name.GetString()` and `itr->value.GetString()`. -/
def setCommand (itr : Bytes × Json) : Option SetCommand :=
  (getString itr.2).map fun value => ⟨itr.1, value⟩

/-- A member that is read with `GetString()`. -/
def textMember (d : Json) (name : Bytes) : Option Bytes := (member d name).bind getString

/-- A member whose elements are. -/
def textsMember (d : Json) (name : Bytes) : Option (List Bytes) :=
  ((member d name).bind elements).bind fun js => js.mapM getString

/-- A member whose members are. -/
def commandsMember (d : Json) (name : Bytes) : Option (List SetCommand) :=
  ((member d name).bind members).bind fun ms => ms.mapM setCommand

/-! ### The program -/

/-- The texts that are read from the document. -/
structure ConfigTexts where
  set_commands : List SetCommand
  batch_commands : List Bytes
  system_bundles : List Bytes
  process_bundles : List Bytes
  workingDir : Bytes
  listParser : Bytes
  systemInfoParser : Bytes
  gogoUsername : Bytes
  gogoPassword : Bytes
  configStartWolly : Bytes
deriving Inhabited

/-- The members of the document, in the order in which they are looked up. -/
def readTexts (d : Json) : Option ConfigTexts := do
  let set_commands ← commandsMember d (ofString "set_commands")
  let batch_commands ← textsMember d (ofString "batch_commands")
  let system_bundles ← textsMember d (ofString "system_bundles")
  let process_bundles ← textsMember d (ofString "process_bundles")
  let workingDir ← textMember d (ofString "working.dir")
  -- looked up, but never used
  let _command ← member d (ofString "command")
  let _mainclass ← member d (ofString "mainclass")
  let _classpath1 ← member d (ofString "classpath.1")
  let _classpath2 ← member d (ofString "classpath.2")
  let _classpath3 ← member d (ofString "classpath.3")
  let _classpath4 ← member d (ofString "classpath.4")
  let listParser ← textMember d (ofString "listParser")
  let systemInfoParser ← textMember d (ofString "systemInfoParser")
  let gogoUsername ← textMember d (ofString "gogo_username")
  let gogoPassword ← textMember d (ofString "gogo_password")
  let _libraryPath ← member d (ofString "library.path.1")
  let configStartWolly ← textMember d (ofString "startWholly")
  return ⟨set_commands, batch_commands, system_bundles, process_bundles, workingDir, listParser,
    systemInfoParser, gogoUsername, gogoPassword, configStartWolly⟩

/-- The static members when the services are started. -/
structure Started where
  startWholly : Bool
  config : Config
  karafStartupCommnad : Bytes
  monitor : Monitor

/-- The monitor after `GogoReady(true)` and `FireCommandOperationInProgress(false)`. -/
def Monitor.released : Monitor :=
  { Monitor.initial with gogoReady := true, fireCommandOperationInProgress := false }

section
variable (regex extended : Bytes → Option Matcher) (tooBig : Bytes → Bool)

/-- The static members that are made of the texts.  `startWholly` is never set: the comparison
    with `"true"` is one of addresses, and the document has its own copy of the string. -/
def configure (fuel : Nat) (t : ConfigTexts) : Option Started := do
  let regexListParser ← regex (cstr t.listParser)
  let systemInfoParser ← extended (cstr t.systemInfoParser)
  let karafStartupCommnad ← karafStartupCommnad fuel t.batch_commands t.set_commands
  return {
    startWholly := false
    config := {
      gogoUserName := cstr t.gogoUsername
      gogoPassword := cstr t.gogoPassword
      workingDir := cstr t.workingDir
      systemBundles := t.system_bundles.map cstr
      processBundles := t.process_bundles.map cstr
      regexListParser
      systemInfoParser }
    karafStartupCommnad
    monitor := Monitor.released }

/-- `InitializeAndStart`, on what `fopen` gives: the static members when the monitor and the
    REST server are started; `none` if they are not, or not yet. -/
def initializeAndStart (fuel : Nat) (configFile : Option Bytes) : Option Started := do
  let content ← configFile
  let configString ← Loop.run readBody fuel (readStart content)
  -- after an error the document is null, and the first lookup fails its assertion
  let d ← parse tooBig configString
  let t ← readTexts d
  configure regex extended fuel t

/-- The program gets to start its services, with these static members. -/
def Starts (content : Bytes) (s : Started) : Prop :=
  ∃ fuel, initializeAndStart regex extended tooBig fuel (some content) = some s

end

/-! ### Reading any file -/

/-- A whole chunk without zero bytes is appended, and leaves the buffer clean. -/
theorem readBody_chunk {s file : Bytes} (hfree : NulFree (file.take fileReadChunkSize))
    (hlen : (file.take fileReadChunkSize).length = fileReadChunkSize) :
    readBody ⟨s, cleanBuffer, file⟩ =
      .inl ⟨s ++ file.take fileReadChunkSize, cleanBuffer, file.drop fileReadChunkSize⟩ := by
  have hsize : fileReadChunkSize = 1024 := rfl
  have hshown := cstr_clean hfree (le_of_eq hlen)
  have hclean : List.replicate fileReadChunkSize 0 ++ cleanBuffer.drop fileReadChunkSize =
      cleanBuffer := by
    rw [cleanBuffer, List.drop_replicate, List.replicate_append_replicate]
    rfl
  unfold readBody fread
  simp only [hshown]
  rw [if_pos (by omega), if_neg (by omega), hlen, List.drop_left' hlen, hclean]

/-- A chunk with a zero byte leaves the loop with what stands before it. -/
theorem readBody_zero {s front rest : Bytes} (hfree : NulFree front)
    (hlen : front.length < fileReadChunkSize) :
    readBody ⟨s, cleanBuffer, front ++ 0 :: rest⟩ = .inr (s ++ front) := by
  have hcut : (front ++ 0 :: rest).take fileReadChunkSize =
      front ++ 0 :: rest.take (fileReadChunkSize - front.length - 1) := by
    rw [List.take_append, List.take_of_length_le (by omega),
      show fileReadChunkSize - front.length = fileReadChunkSize - front.length - 1 + 1 by omega]
    rfl
  have hshown : ∀ tail, cstr (front ++ 0 :: tail) = front := by
    intro tail
    rw [cstr_append hfree]
    exact List.append_nil front
  unfold readBody fread
  simp only [hcut, List.append_assoc, List.cons_append, hshown]
  rw [if_pos (by rw [List.length_append, List.length_cons]; omega), if_pos hlen]

/-- A file with a zero byte is read up to it. -/
theorem returns_of_zero {front : Bytes} (hfree : NulFree front) (s rest : Bytes) :
    Loop.Returns readBody ⟨s, cleanBuffer, front ++ 0 :: rest⟩ (s ++ front) := by
  induction hn : front.length using Nat.strong_induction_on generalizing front s with
  | _ n ih =>
    have hsize : fileReadChunkSize = 1024 := rfl
    by_cases hlt : front.length < fileReadChunkSize
    · exact Loop.returns_of_inr (readBody_zero hfree hlt)
    · have htake : (front ++ 0 :: rest).take fileReadChunkSize = front.take fileReadChunkSize :=
        List.take_append_of_le_length (by omega)
      have hdrop : (front ++ 0 :: rest).drop fileReadChunkSize =
          front.drop fileReadChunkSize ++ 0 :: rest := List.drop_append_of_le_length (by omega)
      have hlen : (front.take fileReadChunkSize).length = fileReadChunkSize := by
        rw [List.length_take]
        omega
      have hfront : NulFree ((front ++ 0 :: rest).take fileReadChunkSize) := by
        rw [htake]
        exact hfree.of_isInfix (List.take_prefix _ _).isInfix
      have hchunk := readBody_chunk (s := s) hfront (by rw [htake]; exact hlen)
      rw [htake, hdrop] at hchunk
      rw [Loop.returns_of_inl hchunk]
      have hrest := ih (front.drop fileReadChunkSize).length (by rw [List.length_drop]; omega)
        (hfree.of_isInfix (List.drop_suffix _ _).isInfix) (s ++ front.take fileReadChunkSize) rfl
      rwa [List.append_assoc, List.take_append_drop] at hrest

/-- A loop ends with one value only. -/
theorem returns_unique {content r r' : Bytes} (h : Loop.Returns readBody (readStart content) r)
    (h' : Loop.Returns readBody (readStart content) r') : r = r' := by
  obtain ⟨n, hn⟩ := h
  obtain ⟨m, hm⟩ := h'
  have hboth := Loop.run_mono (Nat.le_max_left n m) hn
  rw [Loop.run_mono (Nat.le_max_right n m) hm, Option.some.injEq] at hboth
  exact hboth.symm

/-- What the read loop makes of any file: it ends, with what stands before the first zero byte,
    unless there is none and the length is a multiple of the chunk size. -/
theorem readBody_returns_iff (content r : Bytes) :
    Loop.Returns readBody (readStart content) r ↔
      r = cstr content ∧ (NulFree content → content.length % fileReadChunkSize ≠ 0) := by
  by_cases hfree : NulFree content
  · rw [cstr_of_nulFree hfree]
    constructor
    · intro h
      have hmod : content.length % fileReadChunkSize ≠ 0 :=
        fun hmod => readBody_diverges hfree hmod r h
      exact ⟨returns_unique h (readBody_returns hfree hmod), fun _ => hmod⟩
    · rintro ⟨rfl, hmod⟩
      exact readBody_returns hfree (hmod hfree)
  · have hreturns : Loop.Returns readBody (readStart content) (cstr content) := by
      obtain ⟨front, rest, rfl, hfront⟩ := List.eq_append_cons_of_mem (not_not.mp hfree)
      have hshown : cstr (front ++ 0 :: rest) = front := by
        rw [cstr_append hfront]
        exact List.append_nil front
      rw [hshown]
      exact returns_of_zero hfront [] rest
    constructor
    · intro h
      exact ⟨returns_unique h hreturns, fun h' => absurd h' hfree⟩
    · rintro ⟨rfl, -⟩
      exact hreturns

/-! ### Reading the document -/

/-- The first member with a name. -/
def FirstMember (ms : List (Bytes × Json)) (name : Bytes) (j : Json) : Prop :=
  ∃ before after, ms = before ++ (name, j) :: after ∧ ∀ m ∈ before, m.1 ≠ name

theorem member_eq_some_iff {ms : List (Bytes × Json)} {name : Bytes} {j : Json} :
    member (.object ms) name = some j ↔ FirstMember ms name j := by
  rw [member, Option.map_eq_some_iff]
  constructor
  · rintro ⟨⟨name', j'⟩, hfind, rfl⟩
    obtain ⟨hname, before, after, hcut, hbefore⟩ := List.find?_eq_some_iff_append.mp hfind
    have heq : name' = name := by simpa using hname
    exact ⟨before, after, heq ▸ hcut, fun m hm => by simpa using hbefore m hm⟩
  · rintro ⟨before, after, hcut, hbefore⟩
    refine ⟨(name, j), List.find?_eq_some_iff_append.mpr ⟨by simp, before, after, hcut, ?_⟩, rfl⟩
    intro m hm
    simpa using hbefore m hm

/-- A conversion that is the inverse of `g`, element by element. -/
theorem mapM_eq_some_iff {α β : Type} {f : α → Option β} {g : β → α}
    (h : ∀ a b, f a = some b ↔ a = g b) {as : List α} {bs : List β} :
    as.mapM f = some bs ↔ as = bs.map g := by
  induction as generalizing bs with
  | nil =>
    rw [List.mapM_nil]
    cases bs <;> simp
  | cons a as ih =>
    rw [List.mapM_cons]
    constructor
    · intro hbind
      obtain ⟨b, hb, hrest⟩ := Option.bind_eq_some_iff.mp hbind
      obtain ⟨bs', hbs, hcons⟩ := Option.bind_eq_some_iff.mp hrest
      cases hcons
      rw [List.map_cons, ← ih.mp hbs, ← (h a b).mp hb]
    · intro hmap
      cases bs with
      | nil => simp at hmap
      | cons b bs =>
        obtain ⟨ha, has⟩ := List.cons.inj hmap
        rw [(h a b).mpr ha, ih.mpr has]
        rfl

/-- A list of texts, as a value. -/
def ofTexts (texts : List Bytes) : Json := .array (texts.map .string)

/-- A member of `set_commands`, as it stands in the document. -/
def SetCommand.json (itr : SetCommand) : Bytes × Json := (itr.jsonName, .string itr.jsonValue)

/-- The commands, as a value. -/
def ofCommands (set_commands : List SetCommand) : Json :=
  .object (set_commands.map SetCommand.json)

theorem getString_eq_some_iff (j : Json) (s : Bytes) : getString j = some s ↔ j = .string s := by
  cases j <;> simp [getString]

theorem setCommand_eq_some_iff (itr : Bytes × Json) (c : SetCommand) :
    setCommand itr = some c ↔ itr = c.json := by
  rw [setCommand, Option.map_eq_some_iff]
  constructor
  · rintro ⟨value, hvalue, rfl⟩
    rw [SetCommand.json, ← (getString_eq_some_iff _ _).mp hvalue]
  · rintro rfl
    exact ⟨c.jsonValue, rfl, rfl⟩

variable {ms : List (Bytes × Json)} {name : Bytes}

theorem textMember_eq_some_iff {s : Bytes} :
    textMember (.object ms) name = some s ↔ FirstMember ms name (.string s) := by
  simp only [textMember, Option.bind_eq_some_iff, member_eq_some_iff, getString_eq_some_iff,
    exists_eq_right]

theorem textsMember_eq_some_iff {texts : List Bytes} :
    textsMember (.object ms) name = some texts ↔ FirstMember ms name (ofTexts texts) := by
  simp only [textsMember, Option.bind_eq_some_iff, member_eq_some_iff,
    mapM_eq_some_iff getString_eq_some_iff]
  constructor
  · rintro ⟨js, ⟨j, hj, helements⟩, rfl⟩
    cases j <;> cases helements
    exact hj
  · intro h
    exact ⟨_, ⟨_, h, rfl⟩, rfl⟩

theorem commandsMember_eq_some_iff {set_commands : List SetCommand} :
    commandsMember (.object ms) name = some set_commands ↔
      FirstMember ms name (ofCommands set_commands) := by
  simp only [commandsMember, Option.bind_eq_some_iff, member_eq_some_iff,
    mapM_eq_some_iff setCommand_eq_some_iff]
  constructor
  · rintro ⟨itrs, ⟨j, hj, hmembers⟩, rfl⟩
    cases j <;> cases hmembers
    exact hj
  · intro h
    exact ⟨_, ⟨_, h, rfl⟩, rfl⟩

/-- The members of a configuration: the texts are the first ones with their names, and those
    that are only looked up are there. -/
structure ConfigTexts.In (t : ConfigTexts) (ms : List (Bytes × Json)) : Prop where
  set_commands : FirstMember ms (ofString "set_commands") (ofCommands t.set_commands)
  batch_commands : FirstMember ms (ofString "batch_commands") (ofTexts t.batch_commands)
  system_bundles : FirstMember ms (ofString "system_bundles") (ofTexts t.system_bundles)
  process_bundles : FirstMember ms (ofString "process_bundles") (ofTexts t.process_bundles)
  workingDir : FirstMember ms (ofString "working.dir") (.string t.workingDir)
  command : ∃ j, FirstMember ms (ofString "command") j
  mainclass : ∃ j, FirstMember ms (ofString "mainclass") j
  classpath1 : ∃ j, FirstMember ms (ofString "classpath.1") j
  classpath2 : ∃ j, FirstMember ms (ofString "classpath.2") j
  classpath3 : ∃ j, FirstMember ms (ofString "classpath.3") j
  classpath4 : ∃ j, FirstMember ms (ofString "classpath.4") j
  listParser : FirstMember ms (ofString "listParser") (.string t.listParser)
  systemInfoParser : FirstMember ms (ofString "systemInfoParser") (.string t.systemInfoParser)
  gogoUsername : FirstMember ms (ofString "gogo_username") (.string t.gogoUsername)
  gogoPassword : FirstMember ms (ofString "gogo_password") (.string t.gogoPassword)
  libraryPath : ∃ j, FirstMember ms (ofString "library.path.1") j
  configStartWolly : FirstMember ms (ofString "startWholly") (.string t.configStartWolly)

/-- **Reading the texts** of a document. -/
theorem readTexts_eq_some_iff {t : ConfigTexts} :
    readTexts (.object ms) = some t ↔ t.In ms := by
  simp only [readTexts, Option.bind_eq_bind, Option.bind_eq_some_iff, Option.pure_def,
    Option.some.injEq, commandsMember_eq_some_iff, textsMember_eq_some_iff,
    textMember_eq_some_iff, member_eq_some_iff]
  constructor
  · rintro ⟨_, h₁, _, h₂, _, h₃, _, h₄, _, h₅, c, h₆, m, h₇, p₁, h₈, p₂, h₉, p₃, h₁₀, p₄, h₁₁, _,
      h₁₂, _, h₁₃, _, h₁₄, _, h₁₅, l, h₁₆, _, h₁₇, rfl⟩
    exact ⟨h₁, h₂, h₃, h₄, h₅, ⟨c, h₆⟩, ⟨m, h₇⟩, ⟨p₁, h₈⟩, ⟨p₂, h₉⟩, ⟨p₃, h₁₀⟩, ⟨p₄, h₁₁⟩, h₁₂,
      h₁₃, h₁₄, h₁₅, ⟨l, h₁₆⟩, h₁₇⟩
  · rintro ⟨h₁, h₂, h₃, h₄, h₅, ⟨c, h₆⟩, ⟨m, h₇⟩, ⟨p₁, h₈⟩, ⟨p₂, h₉⟩, ⟨p₃, h₁₀⟩, ⟨p₄, h₁₁⟩, h₁₂,
      h₁₃, h₁₄, h₁₅, ⟨l, h₁₆⟩, h₁₇⟩
    exact ⟨_, h₁, _, h₂, _, h₃, _, h₄, _, h₅, c, h₆, m, h₇, p₁, h₈, p₂, h₉, p₃, h₁₀, p₄, h₁₁, _,
      h₁₂, _, h₁₃, _, h₁₄, _, h₁₅, l, h₁₆, _, h₁₇, rfl⟩

/-- A document that is no object has no texts. -/
theorem exists_members_of_readTexts {d : Json} {t : ConfigTexts} (h : readTexts d = some t) :
    ∃ ms, d = .object ms := by
  cases d with
  | object ms => exact ⟨ms, rfl⟩
  | _ => cases h

/-! ### Starting -/

section
variable {regex extended : Bytes → Option Matcher} {tooBig : Bytes → Bool}

/-- What the program starts with, for some texts. -/
structure ConfigTexts.Gives (regex extended : Bytes → Option Matcher) (t : ConfigTexts)
    (s : Started) : Prop where
  startWholly : s.startWholly = false
  gogoUserName : s.config.gogoUserName = cstr t.gogoUsername
  gogoPassword : s.config.gogoPassword = cstr t.gogoPassword
  workingDir : s.config.workingDir = cstr t.workingDir
  systemBundles : s.config.systemBundles = t.system_bundles.map cstr
  processBundles : s.config.processBundles = t.process_bundles.map cstr
  regexListParser : regex (cstr t.listParser) = some s.config.regexListParser
  systemInfoParser : extended (cstr t.systemInfoParser) = some s.config.systemInfoParser
  expanded : ∃ r, Expands t.set_commands (batchCommandsText t.batch_commands) r ∧
    s.karafStartupCommnad = commandLineSetString t.set_commands ++ r
  monitor : s.monitor = Monitor.released

/-- **Making the static members.** -/
theorem exists_configure_iff {t : ConfigTexts} {s : Started} :
    (∃ fuel, configure regex extended fuel t = some s) ↔ t.Gives regex extended s := by
  simp only [configure, Option.bind_eq_bind, Option.bind_eq_some_iff, Option.pure_def,
    Option.some.injEq]
  constructor
  · rintro ⟨fuel, m, hm, m', hm', c, hc, rfl⟩
    exact ⟨rfl, rfl, rfl, rfl, rfl, rfl, hm, hm',
      karafStartupCommnad_eq_some_iff.mp ⟨fuel, hc⟩, rfl⟩
  · obtain ⟨startWholly, ⟨gogoUserName, gogoPassword, workingDir, systemBundles, processBundles,
      regexListParser, systemInfoParser⟩, command, monitor⟩ := s
    rintro ⟨rfl, rfl, rfl, rfl, rfl, rfl, hm, hm', hc, rfl⟩
    obtain ⟨fuel, hc⟩ := karafStartupCommnad_eq_some_iff.mpr hc
    exact ⟨fuel, _, hm, _, hm', _, hc, rfl⟩

theorem configure_mono {n m : Nat} (hnm : n ≤ m) {t : ConfigTexts} {s : Started}
    (h : configure regex extended n t = some s) : configure regex extended m t = some s := by
  simp only [configure, Option.bind_eq_bind, Option.bind_eq_some_iff] at h ⊢
  obtain ⟨l, hl, i, hi, c, hc, hs⟩ := h
  obtain ⟨r, hr, rfl⟩ := Option.map_eq_some_iff.mp hc
  refine ⟨l, hl, i, hi, _, ?_, hs⟩
  rw [karafStartupCommnad, expandMembers_mono hnm hr]
  rfl

/-- More fuel does not change what the program starts with. -/
theorem initializeAndStart_mono {n m : Nat} (hnm : n ≤ m) {configFile : Option Bytes}
    {s : Started} (h : initializeAndStart regex extended tooBig n configFile = some s) :
    initializeAndStart regex extended tooBig m configFile = some s := by
  simp only [initializeAndStart, Option.bind_eq_bind, Option.bind_eq_some_iff] at h ⊢
  obtain ⟨content, hfile, text, hread, d, hd, t, ht, hs⟩ := h
  exact ⟨content, hfile, text, Loop.run_mono hnm hread, d, hd, t, ht, configure_mono hnm hs⟩

/-- The program starts with one value only. -/
theorem Starts.unique {content : Bytes} {s s' : Started}
    (h : Starts regex extended tooBig content s) (h' : Starts regex extended tooBig content s') :
    s = s' := by
  obtain ⟨n, hn⟩ := h
  obtain ⟨m, hm⟩ := h'
  have hboth := initializeAndStart_mono (Nat.le_max_left n m) hn
  rw [initializeAndStart_mono (Nat.le_max_right n m) hm, Option.some.injEq] at hboth
  exact hboth.symm

/-- A file starts the program exactly if it can be read, and is a document with the texts of
    what the program starts with. -/
theorem starts_iff {content : Bytes} {s : Started} :
    Starts regex extended tooBig content s ↔
      (NulFree content → content.length % fileReadChunkSize ≠ 0) ∧
        ∃ (ms : List (Bytes × Json)) (t : ConfigTexts),
          Json.Document tooBig (.object ms) (cstr content) ∧ t.In ms ∧
            t.Gives regex extended s := by
  simp only [Starts, initializeAndStart, Option.bind_eq_bind, Option.bind_eq_some_iff]
  constructor
  · rintro ⟨fuel, _, hfile, text, hread, d, hd, t, ht, hs⟩
    cases hfile
    obtain ⟨rfl, hmod⟩ := (readBody_returns_iff content text).mp ⟨fuel, hread⟩
    obtain ⟨ms, rfl⟩ := exists_members_of_readTexts ht
    rw [parse_iff, cstr_of_nulFree (nulFree_cstr content)] at hd
    exact ⟨hmod, ms, t, hd, readTexts_eq_some_iff.mp ht, exists_configure_iff.mp ⟨fuel, hs⟩⟩
  · rintro ⟨hmod, ms, t, hd, ht, hs⟩
    obtain ⟨n, hread⟩ := (readBody_returns_iff content (cstr content)).mpr ⟨rfl, hmod⟩
    obtain ⟨m, hs⟩ := exists_configure_iff.mpr hs
    refine ⟨max n m, content, rfl, cstr content, Loop.run_mono (Nat.le_max_left n m) hread,
      .object ms, ?_, t, readTexts_eq_some_iff.mpr ht, configure_mono (Nat.le_max_right n m) hs⟩
    rw [parse_iff, cstr_of_nulFree (nulFree_cstr content)]
    exact hd

end

/-- **Startup.**  The program starts exactly with the files that have a zero byte or a length that
    is no multiple of the chunk size, and are, up to the first zero byte, a JSON object with all
    members that are looked up, of the right types, with patterns that compile and an expansion
    that ends.  It starts with what the first members of these names say, and nothing else. -/
theorem startup_exact (regex extended : Bytes → Option Matcher) (tooBig : Bytes → Bool)
    (content : Bytes) :
    (∀ s, Starts regex extended tooBig content s ↔
      (NulFree content → content.length % fileReadChunkSize ≠ 0) ∧
        ∃ (ms : List (Bytes × Json)) (t : ConfigTexts),
          Json.Document tooBig (.object ms) (cstr content) ∧ t.In ms ∧ t.Gives regex extended s) ∧
      ∀ s s', Starts regex extended tooBig content s → Starts regex extended tooBig content s' →
        s = s' :=
  ⟨fun _ => starts_iff, fun _ _ => Starts.unique⟩

end OsgiManager.ESB
