import OsgiManager.ESB.Monitor

namespace OsgiManager.ESB

open OsgiManager.Lib

/-!
# The command cycle

The protocol variable `lastCommandStr` drives the loop through list, start, stop and info.
This file follows the commands of a run and the start string that goes from a list step to
the start command after it.

* `Cycle` — the invariant of a run: the commands so far, and what `lastCommandStr` and
  `bundlesToStart` say about the next one;
* `command_cycle` — the commands of a run, in order, with the strings they carry;
* `start_command_bytes` — with the shipped list expression, a start command carries digits
  and spaces only.
-/

/-! ### One iteration -/

/-- The formats in the order of the cycle. -/
def cycle (i : Nat) : Bytes :=
  match i % 4 with
  | 0 => gogoList
  | 1 => gogoStartBundle
  | 2 => gogoStopBundle
  | _ => gogoGetSystemInfo

/-- The strings put into the formats of the cycle. -/
def cycleArgs (cfg : Config) (s : Monitor) (i : Nat) : List Bytes :=
  match i % 4 with
  | 0 => [cfg.gogoUserName, cfg.gogoPassword]
  | 2 => [cfg.gogoUserName, cfg.gogoPassword, s.bundlesToStop]
  | _ => [cfg.gogoUserName, cfg.gogoPassword, s.bundlesToStart]

theorem cycle_ne_nil (i : Nat) : cycle i ≠ [] := by
  unfold cycle
  split <;> decide

/-- The formats of the cycle tell its four places apart. -/
theorem cycle_eq_iff (i j : Nat) : cycle i = cycle j ↔ i % 4 = j % 4 := by
  have key : ∀ a < 4, ∀ b < 4, cycle a = cycle b → a = b := by decide
  have hmod : ∀ n, cycle (n % 4) = cycle n := by
    intro n
    unfold cycle
    rw [Nat.mod_mod]
  constructor
  · intro h
    rw [← hmod i, ← hmod j] at h
    exact key _ (Nat.mod_lt _ (by omega)) _ (Nat.mod_lt _ (by omega)) h
  · intro h
    rw [← hmod i, h, hmod]

/-- An iteration at a place of the cycle fires the command of that place and moves on. -/
theorem iterate_cycle (cfg : Config) {s : Monitor} {i : Nat} (hready : s.isReady = true)
    (hlast : s.lastCommandStr = cycle i) (pipe : Option Bytes) :
    fired cfg s (.iteration pipe) = some ⟨cycle i, cycleArgs cfg s i⟩ ∧
      (step cfg s (.iteration pipe)).lastCommandStr = cycle (i + 1) := by
  have hi : i % 4 < 4 := Nat.mod_lt _ (by omega)
  have hnext : cycle (i + 1) = cycle (i % 4 + 1) := by
    rw [cycle_eq_iff]
    omega
  unfold fired step Monitor.iterate
  rw [hready, hlast, hnext]
  unfold cycle cycleArgs
  rcases h : i % 4 with _ | _ | _ | _ | n
  · simp [Monitor.listStep]
  · exact ⟨rfl, rfl⟩
  · exact ⟨rfl, rfl⟩
  · exact ⟨rfl, rfl⟩
  · omega

/-- An iteration that finds `lastCommandStr` empty fires nothing and starts the cycle. -/
theorem iterate_idle (cfg : Config) {s : Monitor} (hready : s.isReady = true)
    (hlast : s.lastCommandStr = []) (pipe : Option Bytes) :
    fired cfg s (.iteration pipe) = none ∧
      (step cfg s (.iteration pipe)).lastCommandStr = cycle 0 := by
  unfold fired step Monitor.iterate
  rw [hready, hlast]
  exact ⟨rfl, rfl⟩

/-- Every other event fires nothing and leaves the protocol variable alone. -/
theorem step_not_ready (cfg : Config) {s : Monitor} {e : Event}
    (h : ∀ pipe, e = .iteration pipe → s.isReady = false) :
    fired cfg s e = none ∧ (step cfg s e).lastCommandStr = s.lastCommandStr ∧
      (step cfg s e).bundlesToStart = s.bundlesToStart := by
  cases e with
  | gogoReady b => exact ⟨rfl, rfl, rfl⟩
  | fireCommandOperationInProgress b => exact ⟨rfl, rfl, rfl⟩
  | iteration pipe =>
    unfold fired step Monitor.iterate
    rw [h pipe rfl]
    exact ⟨rfl, rfl, rfl⟩

/-! ### The commands of a run -/

/-- An iteration that fired a command. -/
structure Call where
  state : Monitor
  event : Event
  fired : Fired

/-- The iterations of a run that fired a command, in order. -/
def calls (cfg : Config) (s₀ : Monitor) (es : List Event) : List Call :=
  (history (step cfg) s₀ es).filterMap fun p => (fired cfg p.1 p.2).map (Call.mk p.1 p.2)

theorem calls_concat (cfg : Config) (s₀ : Monitor) (es : List Event) (e : Event) :
    calls cfg s₀ (es ++ [e]) = calls cfg s₀ es ++
      ((fired cfg (es.foldl (step cfg) s₀) e).map
        (Call.mk (es.foldl (step cfg) s₀) e)).toList := by
  rw [calls, history_concat, List.filterMap_append, ← calls]
  cases h : fired cfg (es.foldl (step cfg) s₀) e <;> simp [h]

/-- The string that `BuildBundlesToStart` returns in a list step on `text`. -/
def startList (cfg : Config) (text : Bytes) (s : Monitor) : Bytes :=
  let table := refreshTable s.bundlesWithNameAndId
    (mapBundleNamesToBundlesId cfg.regexListParser text)
  (buildBundlesToStart table (getDeadBundles table) (getFailedBundles table) cfg.processBundles
    cfg.systemBundles).1

/-- A call is a list step in which `BuildBundlesToStart` returned `b`. -/
def Call.builds (cfg : Config) (c : Call) (b : Bytes) : Prop :=
  ∃ text, listText c.state c.event = some text ∧ b = startList cfg text c.state

/-- The invariant of a run that has made the calls `cs` and is in state `s`. -/
structure Cycle (cfg : Config) (cs : List Call) (s : Monitor) : Prop where
  /-- The commands so far are the first ones of the cycle. -/
  formats : cs.map (·.fired.format) = (List.range cs.length).map cycle
  /-- The protocol variable names the next command, or nothing was fired yet. -/
  next : s.lastCommandStr = cycle cs.length ∨ s.lastCommandStr = [] ∧ cs = []
  /-- Before a start command, the start string is the one of the list step just made. -/
  pending : s.lastCommandStr = gogoStartBundle →
    ∃ l, cs.getLast? = some l ∧ l.builds cfg s.bundlesToStart
  /-- Each start command carries the string of the list step just before it. -/
  starts : ∀ i c, cs[i]? = some c → c.fired.format = gogoStartBundle →
    ∃ j l b, i = j + 1 ∧ cs[j]? = some l ∧ l.builds cfg b ∧
      c.fired.args = [cfg.gogoUserName, cfg.gogoPassword, b]

/-- **Step lemma.**  Every event keeps the invariant. -/
theorem cycle_step {cfg : Config} {cs : List Call} {s : Monitor} (h : Cycle cfg cs s) (e : Event) :
    Cycle cfg (cs ++ ((fired cfg s e).map (Call.mk s e)).toList) (step cfg s e) := by
  by_cases hq : ∃ pipe, e = .iteration pipe ∧ s.isReady = true
  · obtain ⟨pipe, rfl, hready⟩ := hq
    rcases h.next with hlast | ⟨hlast, rfl⟩
    · -- the command of this place of the cycle is fired
      obtain ⟨hfired, hnext⟩ := iterate_cycle cfg hready hlast pipe
      rw [hfired, Option.map_some, Option.toList_some]
      constructor
      · simp [h.formats, List.range_succ]
      · left
        rw [hnext, List.length_append, List.length_singleton]
      · -- the next command is a start, so this one was a list command
        intro hstart
        rw [hnext, show gogoStartBundle = cycle 1 from rfl, cycle_eq_iff] at hstart
        have hlist : s.lastCommandStr = gogoList := by
          rw [hlast, show gogoList = cycle 0 from rfl, cycle_eq_iff]
          omega
        have htext : listText s (.iteration pipe) = some (fireCommandExecVP pipe) :=
          listText_eq_some_iff.mpr ⟨pipe, rfl, hready, hlist, rfl⟩
        refine ⟨_, List.getLast?_concat, fireCommandExecVP pipe, htext, ?_⟩
        rw [step_of_listText htext]
        rfl
      · intro i c hi hformat
        by_cases hlt : i < cs.length
        · rw [List.getElem?_append_left hlt] at hi
          obtain ⟨j, l, b, hij, hl, hb⟩ := h.starts i c hi hformat
          refine ⟨j, l, b, hij, ?_, hb⟩
          rw [List.getElem?_append_left (by omega)]
          exact hl
        · -- the command just fired
          have hlen : i = cs.length := by
            have hsome := (List.getElem?_eq_some_iff.mp hi).1
            rw [List.length_append, List.length_singleton] at hsome
            omega
          rw [hlen, List.getElem?_concat_length, Option.some.injEq] at hi
          subst hi
          obtain ⟨l, hl, hb⟩ := h.pending (hlast.trans hformat)
          have hpos : cs ≠ [] := fun h0 => by simp [h0] at hl
          have hone : cs.length % 4 = 1 := (cycle_eq_iff _ 1).mp hformat
          refine ⟨cs.length - 1, l, s.bundlesToStart, by omega, ?_, hb, ?_⟩
          · rw [List.getElem?_append_left (by omega), ← List.getLast?_eq_getElem?]
            exact hl
          · simp only [cycleArgs, hone]
    · -- the first iteration of all only sets the protocol variable
      obtain ⟨hfired, hnext⟩ := iterate_idle cfg hready hlast pipe
      rw [hfired, Option.map_none, Option.toList_none, List.append_nil]
      refine ⟨rfl, .inl hnext, fun hstart => ?_, by simp⟩
      rw [hnext, show gogoStartBundle = cycle 1 from rfl, cycle_eq_iff] at hstart
      omega
  · -- an event that fires nothing leaves the invariant as it is
    have hnot : ∀ pipe, e = .iteration pipe → s.isReady = false := by
      intro pipe he
      simpa using fun hr => hq ⟨pipe, he, hr⟩
    obtain ⟨hfired, hlast, hstart⟩ := step_not_ready cfg hnot
    rw [hfired, Option.map_none, Option.toList_none, List.append_nil]
    refine ⟨h.formats, ?_, ?_, h.starts⟩
    · rw [hlast]
      exact h.next
    · rw [hlast, hstart]
      exact h.pending

/-- **Run lemma.**  The invariant holds after every run that starts with the protocol
    variable empty. -/
theorem cycle_run (cfg : Config) {s₀ : Monitor} (h₀ : s₀.lastCommandStr = []) (es : List Event) :
    Cycle cfg (calls cfg s₀ es) (es.foldl (step cfg) s₀) := by
  induction es using List.reverseRecOn with
  | nil =>
    refine ⟨rfl, .inr ⟨h₀, rfl⟩, fun h => ?_, by simp [calls]⟩
    rw [List.foldl_nil, h₀] at h
    exact absurd h.symm (cycle_ne_nil 1)
  | append_singleton es e ih =>
    rw [calls_concat, List.foldl_append]
    exact cycle_step ih e

/-! ### The text of a start command -/

/-- The command line of a start command for the string `b`, when none of it is cut. -/
def startCommand (cfg : Config) (b : Bytes) : Bytes :=
  cfg.workingDir ++ ofString "/bin\\" ++ (ofString "client -h 127.0.0.1 -u " ++
    (cstr cfg.gogoUserName ++ (ofString " -p " ++ (cstr cfg.gogoPassword ++
      (ofString " \"start " ++ (b ++ ofString "\""))))))

/-- A start string without zero bytes reaches the command line whole. -/
theorem command_start {cfg : Config} {b : Bytes} (hb : NulFree b) :
    Fired.command cfg ⟨gogoStartBundle, [cfg.gogoUserName, cfg.gogoPassword, b]⟩ =
      startCommand cfg b := by
  have hformat : gogoStartBundle = ofString "client -h 127.0.0.1 -u " ++ (ofString "%s" ++
      (ofString " -p " ++ (ofString "%s" ++ (ofString " \"start " ++
        (ofString "%s" ++ (ofString "\"" ++ [])))))) := by decide
  have hbuff : Fired.strBuff ⟨gogoStartBundle, [cfg.gogoUserName, cfg.gogoPassword, b]⟩ =
      ofString "client -h 127.0.0.1 -u " ++ (cstr cfg.gogoUserName ++ (ofString " -p " ++
        (cstr cfg.gogoPassword ++ (ofString " \"start " ++ (b ++ ofString "\""))))) := by
    show sprintf gogoStartBundle _ = _
    rw [hformat, sprintf_text (by decide), sprintf_directive, sprintf_text (by decide),
      sprintf_directive, sprintf_text (by decide), sprintf_directive, sprintf_text (by decide),
      cstr_of_nulFree hb]
    rfl
  have hfree : NulFree (Fired.strBuff ⟨gogoStartBundle,
      [cfg.gogoUserName, cfg.gogoPassword, b]⟩) := by
    rw [hbuff]
    simp only [nulFree_append]
    exact ⟨by decide, nulFree_cstr _, by decide, nulFree_cstr _, by decide, hb, by decide⟩
  rw [Fired.command, cstr_of_nulFree hfree, hbuff]
  rfl

/-- The command line of a start command that carries `b`. -/
theorem command_of_start {cfg : Config} {f : Fired} {b : Bytes}
    (hformat : f.format = gogoStartBundle)
    (hargs : f.args = [cfg.gogoUserName, cfg.gogoPassword, b]) (hb : NulFree b) :
    f.command cfg = startCommand cfg b := by
  obtain ⟨format, args⟩ := f
  subst hformat hargs
  exact command_start hb

theorem mem_calls {cfg : Config} {s₀ : Monitor} {es : List Event} {c : Call}
    (h : c ∈ calls cfg s₀ es) : (c.state, c.event) ∈ history (step cfg) s₀ es ∧
      fired cfg c.state c.event = some c.fired := by
  obtain ⟨p, hp, hc⟩ := List.mem_filterMap.mp h
  obtain ⟨f, hf, rfl⟩ := Option.map_eq_some_iff.mp hc
  exact ⟨hp, hf⟩

/-- **The four commands**, with the strings they are given. -/
theorem fired_cases {cfg : Config} {s : Monitor} {e : Event} {f : Fired}
    (h : fired cfg s e = some f) :
    f = ⟨gogoList, [cfg.gogoUserName, cfg.gogoPassword]⟩ ∨
    f = ⟨gogoGetSystemInfo, [cfg.gogoUserName, cfg.gogoPassword, s.bundlesToStart]⟩ ∨
    f = ⟨gogoStartBundle, [cfg.gogoUserName, cfg.gogoPassword, s.bundlesToStart]⟩ ∨
    f = ⟨gogoStopBundle, [cfg.gogoUserName, cfg.gogoPassword, s.bundlesToStop]⟩ := by
  cases e with
  | gogoReady b => cases h
  | fireCommandOperationInProgress b => cases h
  | iteration pipe =>
    unfold fired Monitor.iterate at h
    split_ifs at h with hready hlist hinfo hstart hstop
    · exact .inl (Option.some.inj h).symm
    · exact .inr (.inl (Option.some.inj h).symm)
    · exact .inr (.inr (.inl (Option.some.inj h).symm))
    · exact .inr (.inr (.inr (Option.some.inj h).symm))

/-- The strings of a start command are those of the configuration and `bundlesToStart`. -/
theorem args_of_start {cfg : Config} {s : Monitor} {e : Event} {f : Fired}
    (h : fired cfg s e = some f) (hformat : f.format = gogoStartBundle) :
    f.args = [cfg.gogoUserName, cfg.gogoPassword, s.bundlesToStart] := by
  rcases fired_cases h with rfl | rfl | rfl | rfl
  · exact absurd hformat (show gogoList ≠ gogoStartBundle by decide)
  · exact absurd hformat (show gogoGetSystemInfo ≠ gogoStartBundle by decide)
  · rfl
  · exact absurd hformat (show gogoStopBundle ≠ gogoStartBundle by decide)

/-- The ids of the bundles a text parses to are ranges of the first groups of its lines. -/
theorem id_isInfix {p : Matcher} {text name : Bytes} {b : Bundle}
    (h : (mapBundleNamesToBundlesId p text)[name]? = some b) :
    ∃ line ∈ lines text, ∃ m, p.search line = some m ∧ b.id <:+: m 1 := by
  obtain ⟨_, line, hline, m, hm, rfl⟩ := mem_mapBundleNamesToBundlesId h
  exact ⟨line, List.mem_of_mem_drop hline, m, hm, trim_isInfix (m 1)⟩

/-- No id that is ever stored holds a zero byte, because no fetched text does. -/
theorem nulFree_ids_step (cfg : Config) (s : Monitor) (e : Event) (hs : IdBytes (· ≠ 0) s) :
    IdBytes (· ≠ 0) (step cfg s e) := by
  refine idBytes_step (by decide) ?_ s e hs
  intro text htext name b hb c hc h0
  obtain ⟨line, hline, m, hm, hid⟩ := id_isInfix hb
  have hrange : b.id <:+: text :=
    hid.trans ((cfg.regexListParser.range hm 1).trans (lines_isInfix hline))
  exact htext.of_isInfix hrange (h0 ▸ hc)

/-- With the shipped list expression, the ids are made of digits and spaces. -/
theorem digit_ids_step {cfg : Config} (hparser : cfg.regexListParser = listParser.matcher)
    (s : Monitor) (e : Event) (hs : IdBytes (digitClass ·) s) :
    IdBytes (digitClass ·) (step cfg s e) := by
  refine idBytes_step (by decide) ?_ s e hs
  intro text _ name b hb c hc
  obtain ⟨line, hline, m, hm, hid⟩ := id_isInfix hb
  rw [hparser] at hm
  -- group 1 of the expression ranges over the digit class, whatever the line
  have hgroup : listParser.GroupOver 1 (digitClass ·) := by
    simp [listParser, Regex.seqs, Regex.plus, Regex.lit, Regex.GroupOver, Regex.Over, ofString]
  exact Regex.groupOver_search hgroup hm c (hid.subset hc)

/-! ### The two results -/

/-- **The command cycle.**  In every run that starts with the protocol variable empty, the
    commands fired are the first ones of the cycle, in order; nothing is fired in an
    iteration that finds the console not ready or an operation in progress; and each start
    command carries exactly the string `BuildBundlesToStart` returned in the list step just
    before it, which the command line then holds uncut. -/
theorem command_cycle (cfg : Config) (s₀ : Monitor) (h₀ : s₀.lastCommandStr = [])
    (es : List Event) :
    (calls cfg s₀ es).map (·.fired.format) =
        (List.range (calls cfg s₀ es).length).map cycle ∧
      (∀ p ∈ history (step cfg) s₀ es,
        p.1.gogoReady = false ∨ p.1.fireCommandOperationInProgress = true →
          fired cfg p.1 p.2 = none) ∧
      ∀ i c, (calls cfg s₀ es)[i]? = some c → c.fired.format = gogoStartBundle →
        ∃ j l b, i = j + 1 ∧ (calls cfg s₀ es)[j]? = some l ∧ l.builds cfg b ∧
          c.fired.args = [cfg.gogoUserName, cfg.gogoPassword, b] ∧
          (IdBytes (· ≠ 0) s₀ → c.fired.command cfg = startCommand cfg b) := by
  have hcycle := cycle_run cfg h₀ es
  refine ⟨hcycle.formats, ?_, ?_⟩
  · intro p _ hflags
    refine (step_not_ready cfg fun pipe _ => ?_).1
    rcases hflags with h | h <;> simp [Monitor.isReady, h]
  · intro i c hi hformat
    obtain ⟨j, l, b, hij, hl, hb, hargs⟩ := hcycle.starts i c hi hformat
    refine ⟨j, l, b, hij, hl, hb, hargs, fun hids => ?_⟩
    obtain ⟨hmem, hfired⟩ := mem_calls (List.mem_of_getElem? hi)
    have hstate := forall_history (nulFree_ids_step cfg) hids hmem
    -- the string carried is the start string of the state, which has no zero byte
    have hstart : c.state.bundlesToStart = b := by
      have hargs' := args_of_start hfired hformat
      rw [hargs] at hargs'
      simpa using hargs'.symm
    apply command_of_start hformat hargs
    intro h0
    rw [← hstart] at h0
    exact hstate.start 0 h0 rfl

/-- A run up to the first start command, with a listing that tries to get a command of its
    own onto the command line. -/
def hostileRun : List Event :=
  [ .gogoReady true, .iteration none,
    .iteration (some (ofString
      "\n\n[ 210] [Active] [ ] [Failed] [   80] file:C:/\"&calc&\"/deploy/xom-1.2.5.jar\n")),
    .iteration none ]

/-- Its commands are a listing and a start. -/
theorem command_cycle_hostileRun :
    (calls shippedConfig Monitor.initial hostileRun).map (·.fired.format) =
      [gogoList, gogoStartBundle] := by
  have h := (command_cycle shippedConfig Monitor.initial rfl hostileRun).1
  have hlen : (calls shippedConfig Monitor.initial hostileRun).length = 2 := by decide +kernel
  rw [hlen] at h
  exact h

/-- **No container text in a start command.**  With the list expression of the shipped
    configuration, every start command of every run is the fixed text, the user name and the
    password of the configuration, and a string of digits and spaces. -/
theorem start_command_bytes (cfg : Config) (hparser : cfg.regexListParser = listParser.matcher)
    (es : List Event) (c : Call) (hc : c ∈ calls cfg Monitor.initial es)
    (hformat : c.fired.format = gogoStartBundle) :
    c.fired.args = [cfg.gogoUserName, cfg.gogoPassword, c.state.bundlesToStart] ∧
      (∀ x ∈ c.state.bundlesToStart,
        x = ' '.toUInt8 ∨ '0'.toUInt8 ≤ x ∧ x ≤ '9'.toUInt8) ∧
      c.fired.command cfg = startCommand cfg c.state.bundlesToStart := by
  obtain ⟨hmem, hfired⟩ := mem_calls hc
  have hargs := args_of_start hfired hformat
  have hinit : IdBytes (digitClass ·) Monitor.initial :=
    ⟨by simp [Monitor.initial, Monitor.table], by simp [Monitor.initial]⟩
  have hstate := forall_history (digit_ids_step hparser) hinit hmem
  have hfree : NulFree c.state.bundlesToStart := fun h0 => absurd (hstate.start 0 h0) (by decide)
  refine ⟨hargs, fun x hx => ?_, ?_⟩
  · simpa [digitClass] using hstate.start x hx
  · exact command_of_start hformat hargs hfree

/-- The start command of the hostile run. -/
theorem start_command_bytes_hostileRun :
    ∃ c ∈ calls shippedConfig Monitor.initial hostileRun,
      c.fired.command shippedConfig = startCommand shippedConfig (ofString "210 ") := by
  have hsecond : (calls shippedConfig Monitor.initial hostileRun)[1]?.map
      (fun c => (c.fired.format, c.state.bundlesToStart)) =
        some (gogoStartBundle, ofString "210 ") := by decide +kernel
  obtain ⟨c, hc, hpair⟩ := Option.map_eq_some_iff.mp hsecond
  obtain ⟨hformat, hstart⟩ := Prod.mk.inj hpair
  have hmem := List.mem_of_getElem? hc
  refine ⟨c, hmem, ?_⟩
  rw [← hstart]
  exact (start_command_bytes shippedConfig rfl hostileRun c hmem hformat).2.2

end OsgiManager.ESB
