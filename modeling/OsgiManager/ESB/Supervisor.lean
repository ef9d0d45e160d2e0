import OsgiManager.ESB.Freshness
import OsgiManager.ESB.CommandBuffer
import OsgiManager.Lib.Simulation

namespace OsgiManager.ESB

open OsgiManager.Lib

/-!
# The monitor as a supervisor

What the monitor is for, without its strings and tables: it takes turns, and at every fourth
turn it looks at a listing.  It goes by one listing at a time, and by a later one only when
that has another number of bundles.

* `Supervisor` — the abstract machine: two flags, the number of turns taken, and the listing
  gone by with the number of list steps that went by it;
* `Supervisor.Describes` — how a state of the monitor is described by one of the supervisor;
* `monitor_refines` — every run of the monitor whose commands fit into `strBuff` is a run of the
  supervisor, with the same commands;
* `bundle_data_streak` — the listing gone by is the first of those at the end of the run that
  have equally many bundles;
* `commands_of_turns` — the commands of a run, read off the pipes of its turns.
-/

/-! ### The abstract machine -/

/-- The bundles a listing tells of. -/
def bundlesOf (cfg : Config) (text : Bytes) : BundleMap :=
  mapBundleNamesToBundlesId cfg.regexListParser text

/-- A listing the monitor goes by, and how many list steps have gone by it. -/
structure Kept where
  text : Bytes
  steps : Nat
deriving DecidableEq

/-- The names of the bundles that are started as long as the monitor goes by the listing. -/
def Kept.names (cfg : Config) (k : Kept) : List Bytes :=
  startNames (bundlesOf cfg k.text) cfg.processBundles cfg.systemBundles

/-- Their ids. -/
def Kept.startString (cfg : Config) (k : Kept) : Bytes :=
  (bundlesOf cfg k.text).startString (k.names cfg)

/-- What the monitor goes by after a list step on `text`. -/
def Kept.next (cfg : Config) (text : Bytes) : Option Kept → Kept
  | none   => ⟨text, 1⟩
  | some k =>
      if (bundlesOf cfg k.text).size ≠ (bundlesOf cfg text).size then ⟨text, 1⟩
      else ⟨k.text, k.steps + 1⟩

/-- The command with number `i`, when the monitor goes by `kept`. -/
def command (cfg : Config) (i : Nat) (kept : Option Kept) : Fired where
  format := cycle i
  args   := match i % 4 with
    | 0 => [cfg.gogoUserName, cfg.gogoPassword]
    | 2 => [cfg.gogoUserName, cfg.gogoPassword, []]
    | _ => [cfg.gogoUserName, cfg.gogoPassword, (kept.map (·.startString cfg)).getD []]

structure Supervisor where
  ready : Bool := false
  busy : Bool := false
  turns : Nat := 0
  kept : Option Kept := none

/-- Whether an iteration is a turn. -/
def Supervisor.acts (v : Supervisor) : Bool := v.ready && !v.busy

/-- The turns after the first one are numbered from zero, and every fourth is a listing. -/
def Supervisor.step (cfg : Config) (v : Supervisor) : Event → Supervisor
  | .gogoReady b                      => { v with ready := b }
  | .fireCommandOperationInProgress b => { v with busy := b }
  | .iteration pipe                   =>
      if v.acts then
        { v with
          turns := v.turns + 1
          kept := if v.turns % 4 = 1 then some (Kept.next cfg (fireCommandExecVP pipe) v.kept)
            else v.kept }
      else v

/-- The first turn fires nothing. -/
def Supervisor.fires (cfg : Config) (v : Supervisor) : Event → Option Fired
  | .iteration _ => if v.acts ∧ v.turns ≠ 0 then some (command cfg (v.turns - 1) v.kept) else none
  | _            => none

/-! ### The description of a state -/

/-- The bundle data of `s` are those of a kept listing: its records with the starts counted so
    far, and the lists derived from them. -/
structure Kept.Data (cfg : Config) (k : Kept) (s : Monitor) : Prop where
  table : ∃ table, s.bundlesWithNameAndId = some table ∧ ∀ name : Bytes, table[name]? =
    (bundlesOf cfg k.text)[name]?.map (·.countStarts (k.steps * (k.names cfg).count name))
  dead : s.deadBundles = getDeadBundles (bundlesOf cfg k.text)
  failed : s.failedBundles = getFailedBundles (bundlesOf cfg k.text)
  start : s.bundlesToStart = k.startString cfg

/-- No listing has been looked at. -/
structure Unfilled (s : Monitor) : Prop where
  table : s.bundlesWithNameAndId = none
  dead : s.deadBundles = []
  failed : s.failedBundles = []
  start : s.bundlesToStart = []

/-- The bundle data of `s` are those of what the monitor goes by. -/
def Holds (cfg : Config) (s : Monitor) : Option Kept → Prop
  | none   => Unfilled s
  | some k => k.Data cfg s

/-- A state of the monitor that is described by `v`. -/
structure Supervisor.Describes (cfg : Config) (v : Supervisor) (s : Monitor) : Prop where
  ready : s.gogoReady = v.ready
  busy : s.fireCommandOperationInProgress = v.busy
  idle : v.turns = 0 → s.lastCommandStr = []
  next : ∀ i, v.turns = i + 1 → s.lastCommandStr = cycle i
  stop : s.bundlesToStop = []
  data : Holds cfg s v.kept

/-! ### The bundle data of a list step -/

@[simp] theorem Bundle.countStarts_zero (b : Bundle) : b.countStarts 0 = b := rfl

@[simp] theorem Bundle.countStarts_countStarts (b : Bundle) (j k : Nat) :
    (b.countStarts j).countStarts k = b.countStarts (j + k) := by
  simp only [Bundle.countStarts]
  rw [Nat.add_assoc]

/-- Counting starts leaves the records as they are. -/
theorem sameRecords_of_counted {m n : BundleMap} {f : Bytes → Nat}
    (h : ∀ name : Bytes, m[name]? = n[name]?.map (·.countStarts (f name))) : SameRecords m n := by
  intro name
  rw [BundleMap.record?, h name, Option.map_map]
  rfl

/-- The ids of a state, with their order, depend on the records only. -/
theorem bundleIdsInState_congr {m n : BundleMap} (h : SameRecords m n) (st : Bytes) :
    bundleIdsInState st m = bundleIdsInState st n := by
  -- both lists are read off the table of the records
  have key : ∀ t : BundleMap, bundleIdsInState st t =
      (t.map fun _ b => b.record).toList.foldl
        (fun ids e => if e.2.state = st then ids ++ [e.2.id] else ids) [] := by
    intro t
    rw [bundleIdsInState, Std.TreeMap.foldl_eq_foldl_toList, Std.TreeMap.toList_map,
      List.foldl_map]
    rfl
  have hequiv : Std.TreeMap.Equiv (m.map fun _ b => b.record) (n.map fun _ b => b.record) := by
    apply Std.TreeMap.Equiv.of_forall_constGet?_eq
    intro name
    rw [Std.TreeMap.getElem?_map, Std.TreeMap.getElem?_map]
    exact h name
  rw [key m, key n, hequiv.toList_eq]

variable {cfg : Config}

theorem Kept.Data.sameRecords {k : Kept} {s : Monitor} {table : BundleMap} (h : k.Data cfg s)
    (htable : s.bundlesWithNameAndId = some table) : SameRecords table (bundlesOf cfg k.text) := by
  obtain ⟨table', htable', hget⟩ := h.table
  rw [htable, Option.some.injEq] at htable'
  subst htable'
  exact sameRecords_of_counted hget

/-- The refreshed table has the records of the listing gone by from now on, with the starts
    counted in the list steps before this one. -/
theorem getElem?_refreshTable_next {s : Monitor} {kept : Option Kept} (h : Holds cfg s kept)
    (text name : Bytes) :
    (refreshTable s.bundlesWithNameAndId (bundlesOf cfg text))[name]? =
      (bundlesOf cfg (Kept.next cfg text kept).text)[name]?.map (·.countStarts
        (((Kept.next cfg text kept).steps - 1) *
          ((Kept.next cfg text kept).names cfg).count name)) := by
  cases kept with
  | none =>
    have hunfilled : s.bundlesWithNameAndId = none := Unfilled.table h
    simp [hunfilled, refreshTable, Kept.next]
  | some k =>
    have hk : k.Data cfg s := h
    obtain ⟨table, htable, hget⟩ := hk.table
    have hsize := (hk.sameRecords htable).size_eq
    rw [htable, refreshTable, Kept.next, hsize]
    by_cases hne : (bundlesOf cfg k.text).size ≠ (bundlesOf cfg text).size
    · -- another number of bundles: the parsed table, with no start counted yet
      simp [hne]
    · rw [if_neg hne, if_neg hne, Nat.add_sub_cancel]
      exact hget name

/-- **A list step** leaves the bundle data of what the monitor goes by from now on. -/
theorem data_listStep {s : Monitor} {kept : Option Kept} (h : Holds cfg s kept) (text : Bytes) :
    (Kept.next cfg text kept).Data cfg (s.listStep cfg text) := by
  have hget := getElem?_refreshTable_next h text
  generalize hk : Kept.next cfg text kept = k at hget
  have hsame : SameRecords (refreshTable s.bundlesWithNameAndId (bundlesOf cfg text))
      (bundlesOf cfg k.text) := sameRecords_of_counted hget
  have hsteps : k.steps - 1 + 1 = k.steps := by
    rw [← hk]
    unfold Kept.next
    split
    · rfl
    · split_ifs <;> rfl
  constructor
  · refine ⟨_, rfl, fun name => ?_⟩
    rw [getElem?_buildBundlesToStart_snd]
    show (refreshTable s.bundlesWithNameAndId (bundlesOf cfg text))[name]?.map
      (·.countStarts ((startNames (refreshTable s.bundlesWithNameAndId (bundlesOf cfg text))
        cfg.processBundles cfg.systemBundles).count name)) = _
    -- this step counts once more what the steps before have counted
    have hnames : startNames (refreshTable s.bundlesWithNameAndId (bundlesOf cfg text))
        cfg.processBundles cfg.systemBundles = k.names cfg := hsame.startNames_eq _ _
    have hcount : ((k.steps - 1) * (k.names cfg).count name + (k.names cfg).count name) =
        k.steps * (k.names cfg).count name := by
      rw [← Nat.succ_mul, Nat.succ_eq_add_one, hsteps]
    rw [hnames, hget, Option.map_map]
    refine Option.map_congr fun b _ => ?_
    rw [Function.comp_apply, Bundle.countStarts_countStarts, hcount]
  · exact bundleIdsInState_congr hsame _
  · exact bundleIdsInState_congr hsame _
  · show (buildBundlesToStart (refreshTable s.bundlesWithNameAndId (bundlesOf cfg text)) _ _ _ _).1
      = _
    rw [buildBundlesToStart_fst, hsame.startNames_eq, hsame.startString_eq]
    rfl

/-- A step that is no list step leaves them alone. -/
theorem Holds.frame {s : Monitor} {kept : Option Kept} (h : Holds cfg s kept) {e : Event}
    (he : listText s e = none) : Holds cfg (step cfg s e) kept := by
  obtain ⟨htable, hdead, hfailed, hstart⟩ := step_frame cfg he
  cases kept with
  | none =>
    obtain ⟨table, dead, failed, start⟩ := h
    exact ⟨htable.trans table, hdead.trans dead, hfailed.trans failed, hstart.trans start⟩
  | some k =>
    obtain ⟨table, dead, failed, start⟩ := h
    refine ⟨?_, hdead.trans dead, hfailed.trans failed, hstart.trans start⟩
    rw [htable]
    exact table

/-! ### The refinement -/

theorem iterate_flags (cfg : Config) (s : Monitor) (pipe : Option Bytes) :
    (step cfg s (.iteration pipe)).gogoReady = s.gogoReady ∧
      (step cfg s (.iteration pipe)).fireCommandOperationInProgress =
        s.fireCommandOperationInProgress := by
  unfold step Monitor.iterate
  split_ifs <;> exact ⟨rfl, rfl⟩

theorem listText_eq_none {s : Monitor} {pipe : Option Bytes} (h : s.lastCommandStr ≠ gogoList) :
    listText s (.iteration pipe) = none := if_neg fun h' => h h'.2

variable {v : Supervisor} {s : Monitor}

theorem Supervisor.Describes.acts_eq (h : v.Describes cfg s) : v.acts = s.isReady := by
  rw [Supervisor.acts, Monitor.isReady, h.ready, h.busy]

/-- At a turn but the first, the monitor fires the command with its number. -/
theorem Supervisor.Describes.cycleArgs_eq (h : v.Describes cfg s) (i : Nat) :
    (⟨cycle i, cycleArgs cfg s i⟩ : Fired) = command cfg i v.kept := by
  have hstart : s.bundlesToStart = (v.kept.map (·.startString cfg)).getD [] := by
    have hdata := h.data
    cases hk : v.kept with
    | none =>
      rw [hk] at hdata
      exact Unfilled.start hdata
    | some k =>
      rw [hk] at hdata
      exact Kept.Data.start hdata
  rcases hi : i % 4 with _ | _ | _ | j <;>
    simp only [command, cycleArgs, hi, h.stop, hstart]

/-- An iteration that is held back changes nothing. -/
theorem describes_held (h : v.Describes cfg s) (hacts : v.acts = false)
    (pipe : Option Bytes) :
    (v.step cfg (.iteration pipe)).Describes cfg (step cfg s (.iteration pipe)) := by
  have hnot : s.isReady = false := h.acts_eq ▸ hacts
  have hsame : step cfg s (.iteration pipe) = s := by
    rw [step, Monitor.iterate, if_neg (by simp [hnot])]
  rw [Supervisor.step, if_neg (by simp [hacts]), hsame]
  exact h

/-- The first turn sets the protocol variable only. -/
theorem describes_first_turn (h : v.Describes cfg s) (hacts : v.acts = true)
    (hturns : v.turns = 0) (pipe : Option Bytes) :
    (v.step cfg (.iteration pipe)).Describes cfg (step cfg s (.iteration pipe)) := by
  have hr : s.isReady = true := h.acts_eq ▸ hacts
  have hlast := h.idle hturns
  obtain ⟨hready, hbusy⟩ := iterate_flags cfg s pipe
  obtain ⟨-, hnext⟩ := iterate_idle cfg hr hlast pipe
  rw [Supervisor.step, if_pos hacts, hturns]
  refine ⟨hready.trans h.ready, hbusy.trans h.busy, ?_, fun i hi => ?_,
    (bundlesToStop_step cfg s (.iteration pipe)).trans h.stop, ?_⟩
  · exact fun hzero => absurd hzero (Nat.succ_ne_zero 0)
  · have hzero : 0 + 1 = i + 1 := hi
    rw [hnext, show i = 0 by omega]
  · exact h.data.frame (listText_eq_none (by rw [hlast]; decide))

/-- Every other turn fires the next command, and takes in what it says if it is a listing. -/
theorem describes_next_turn (h : v.Describes cfg s) (hacts : v.acts = true) {i : Nat}
    (hturns : v.turns = i + 1) (pipe : Option Bytes) :
    (v.step cfg (.iteration pipe)).Describes cfg (step cfg s (.iteration pipe)) := by
  have hr : s.isReady = true := h.acts_eq ▸ hacts
  have hlast := h.next i hturns
  obtain ⟨hready, hbusy⟩ := iterate_flags cfg s pipe
  obtain ⟨-, hnext⟩ := iterate_cycle cfg hr hlast pipe
  rw [Supervisor.step, if_pos hacts, hturns]
  refine ⟨hready.trans h.ready, hbusy.trans h.busy, ?_, fun j hj => ?_,
    (bundlesToStop_step cfg s (.iteration pipe)).trans h.stop, ?_⟩
  · exact fun hzero => absurd hzero (Nat.succ_ne_zero (i + 1))
  · have hsucc : i + 1 + 1 = j + 1 := hj
    rw [hnext, show j = i + 1 by omega]
  · by_cases hlist : (i + 1) % 4 = 1
    · have hgogo : s.lastCommandStr = gogoList := by
        rw [hlast, show gogoList = cycle 0 from rfl, cycle_eq_iff]
        omega
      rw [step_of_listText (listText_eq_some_iff.mpr ⟨pipe, rfl, hr, hgogo, rfl⟩), if_pos hlist]
      exact data_listStep h.data _
    · have hgogo : s.lastCommandStr ≠ gogoList := by
        rw [hlast, show gogoList = cycle 0 from rfl, ne_eq, cycle_eq_iff]
        omega
      rw [if_neg hlist]
      exact h.data.frame (listText_eq_none hgogo)

/-- What an iteration fires. -/
theorem fired_eq_fires (h : v.Describes cfg s) (pipe : Option Bytes) :
    fired cfg s (.iteration pipe) = v.fires cfg (.iteration pipe) := by
  rw [Supervisor.fires]
  cases hacts : v.acts with
  | false =>
    have hnot : s.isReady = false := h.acts_eq ▸ hacts
    rw [if_neg (by simp)]
    exact (step_not_ready cfg fun _ _ => hnot).1
  | true =>
    have hr : s.isReady = true := h.acts_eq ▸ hacts
    cases hturns : v.turns with
    | zero =>
      rw [if_neg (by simp)]
      exact (iterate_idle cfg hr (h.idle hturns) pipe).1
    | succ i =>
      have hcommand := (iterate_cycle cfg hr (h.next i hturns) pipe).1
      rw [h.cycleArgs_eq] at hcommand
      rw [if_pos (by simp)]
      exact hcommand

/-- **Step lemma.**  The description is kept by every event, and says which command is fired. -/
theorem describes_step (cfg : Config) :
    Simulates (step cfg) (fired cfg) (Supervisor.step cfg) (Supervisor.fires cfg)
      fun s v => v.Describes cfg s where
  next s v e h := by
    cases e with
    | gogoReady b => exact ⟨rfl, h.busy, h.idle, h.next, h.stop, h.data.frame rfl⟩
    | fireCommandOperationInProgress b =>
      exact ⟨h.ready, rfl, h.idle, h.next, h.stop, h.data.frame rfl⟩
    | iteration pipe =>
      cases hacts : v.acts with
      | false => exact describes_held h hacts pipe
      | true =>
        cases hturns : v.turns with
        | zero => exact describes_first_turn h hacts hturns pipe
        | succ i => exact describes_next_turn h hacts hturns pipe
  answer s v e h := by
    cases e with
    | gogoReady b => rfl
    | fireCommandOperationInProgress b => rfl
    | iteration pipe => exact fired_eq_fires h pipe

/-- The state of the supervisor after a run. -/
def supervised (cfg : Config) (es : List Event) : Supervisor :=
  es.foldl (Supervisor.step cfg) {}

/-- The commands of the supervisor in a run. -/
def supervisedCommands (cfg : Config) (es : List Event) : List Fired :=
  outputs (Supervisor.step cfg) (Supervisor.fires cfg) {} es

theorem describes_initial (cfg : Config) : Supervisor.Describes cfg {} Monitor.initial :=
  ⟨rfl, rfl, fun _ => rfl, nofun, rfl, rfl, rfl, rfl, rfl⟩

theorem calls_eq_outputs (cfg : Config) (s₀ : Monitor) (es : List Event) :
    (calls cfg s₀ es).map (·.fired) = outputs (step cfg) (fired cfg) s₀ es := by
  rw [calls, List.map_filterMap, outputs]
  refine List.filterMap_congr fun p _ => ?_
  cases h : fired cfg p.1 p.2 <;> simp

/-- The simulation, from the start of the program. -/
theorem describes_reached (cfg : Config) (es : List Event) :
    (supervised cfg es).Describes cfg (reached cfg es) ∧
      outputs (step cfg) (fired cfg) Monitor.initial es = supervisedCommands cfg es :=
  (describes_step cfg).run (describes_initial cfg) es

/-- **The monitor refines the supervisor.**  After every run in which the commands of the
    supervisor fit into `strBuff`, the state of the monitor is the one the supervisor describes,
    with the records, the restart counters and the derived lists of the listing it goes by; and
    the commands fired are the supervisor's, string by string, as are the command lines. -/
theorem monitor_refines (cfg : Config) (es : List Event)
    (hfits : ∀ f ∈ supervisedCommands cfg es, f.FitsBuffer) :
    (supervised cfg es).Describes cfg (reached cfg es) ∧
      (calls cfg Monitor.initial es).map (·.fired) = supervisedCommands cfg es ∧
      runInBuffer cfg Monitor.initial es =
        some (reached cfg es, (supervisedCommands cfg es).map (·.command cfg)) := by
  obtain ⟨hdescribes, hcommands⟩ := describes_reached cfg es
  refine ⟨hdescribes, (calls_eq_outputs _ _ _).trans hcommands, ?_⟩
  rw [← hcommands] at hfits
  rw [runInBuffer_of_fits hfits, hcommands]
  rfl

/-- The run with the hostile listing: a listing and a start command. -/
theorem monitor_refines_hostileRun :
    (supervised shippedConfig hostileRun).Describes shippedConfig
        (reached shippedConfig hostileRun) ∧
      (calls shippedConfig Monitor.initial hostileRun).map (·.fired) =
        supervisedCommands shippedConfig hostileRun ∧
      runInBuffer shippedConfig Monitor.initial hostileRun = some (reached shippedConfig hostileRun,
        (supervisedCommands shippedConfig hostileRun).map (·.command shippedConfig)) :=
  monitor_refines shippedConfig hostileRun (by decide +kernel)

/-! ### The listing gone by -/

/-- What the monitor goes by after list steps on some texts. -/
def keptOf (cfg : Config) (texts : List Bytes) : Option Kept :=
  texts.foldl (fun kept text => some (Kept.next cfg text kept)) none

theorem keptOf_concat (cfg : Config) (texts : List Bytes) (text : Bytes) :
    keptOf cfg (texts ++ [text]) = some (Kept.next cfg text (keptOf cfg texts)) := by
  rw [keptOf, List.foldl_append]
  rfl

/-- **Run lemma.**  The bundle data are those of what the listings of the run leave. -/
theorem holds_reached (cfg : Config) (es : List Event) :
    Holds cfg (reached cfg es) (keptOf cfg (listings cfg es)) := by
  induction es using List.reverseRecOn with
  | nil => exact ⟨rfl, rfl, rfl, rfl⟩
  | append_singleton es e ih =>
    rw [listings_concat, reached_concat]
    cases ht : listText (reached cfg es) e with
    | none =>
      rw [Option.toList_none, List.append_nil]
      exact ih.frame ht
    | some text =>
      rw [Option.toList_some, keptOf_concat, step_of_listText ht]
      exact data_listStep ih text

/-- The listing `text` starts the last streak of a list of listings: those after it have as many
    bundles, and the one before it has not. -/
structure Streak (cfg : Config) (texts front : List Bytes) (text : Bytes) (rest : List Bytes) :
    Prop where
  cut : texts = front ++ text :: rest
  later : ∀ t ∈ rest, (bundlesOf cfg t).size = (bundlesOf cfg text).size
  earlier : ∀ t ∈ front.getLast?, (bundlesOf cfg t).size ≠ (bundlesOf cfg text).size

/-- One more listing goes on with the streak or starts another. -/
theorem Streak.concat {texts front rest : List Bytes} {text : Bytes}
    (h : Streak cfg texts front text rest) (t : Bytes) :
    (bundlesOf cfg text).size = (bundlesOf cfg t).size ∧
        Streak cfg (texts ++ [t]) front text (rest ++ [t]) ∨
      (bundlesOf cfg text).size ≠ (bundlesOf cfg t).size ∧
        Streak cfg (texts ++ [t]) texts t [] := by
  by_cases hsize : (bundlesOf cfg text).size = (bundlesOf cfg t).size
  · refine .inl ⟨hsize, by rw [h.cut]; simp, ?_, h.earlier⟩
    rw [List.forall_mem_append, List.forall_mem_singleton]
    exact ⟨h.later, hsize.symm⟩
  · refine .inr ⟨hsize, rfl, by simp, fun t' ht' => ?_⟩
    -- the last listing before belongs to the old streak
    have hlast : (bundlesOf cfg t').size = (bundlesOf cfg text).size := by
      have hmem : t' ∈ text :: rest := by
        rw [h.cut, List.getLast?_append_of_ne_nil _ (List.cons_ne_nil text rest)] at ht'
        exact List.mem_of_getLast? ht'
      rcases List.mem_cons.mp hmem with rfl | hrest
      · rfl
      · exact h.later t' hrest
    rw [hlast]
    exact hsize

theorem keptOf_spec (cfg : Config) {texts : List Bytes} (hne : texts ≠ []) :
    ∃ front text rest, Streak cfg texts front text rest ∧
      keptOf cfg texts = some ⟨text, rest.length + 1⟩ := by
  induction texts using List.reverseRecOn with
  | nil => exact absurd rfl hne
  | append_singleton texts t ih =>
    rw [keptOf_concat]
    by_cases hnil : texts = []
    · subst hnil
      exact ⟨[], t, [], ⟨rfl, by simp, by simp⟩, rfl⟩
    · obtain ⟨front, text, rest, hstreak, hkept⟩ := ih hnil
      rw [hkept, Kept.next]
      rcases hstreak.concat t with ⟨hsize, hnext⟩ | ⟨hsize, hnext⟩
      · refine ⟨front, text, rest ++ [t], hnext, ?_⟩
        rw [if_neg (by simpa using hsize), List.length_append]
        rfl
      · refine ⟨texts, t, [], hnext, ?_⟩
        rw [if_pos hsize]
        rfl

/-- **The streak.**  After every run with a listing, the table, the restart counters, the dead and
    failed ids and the start string are all those of one and the same listing: the first of the
    listings at the end of the run that have equally many bundles; and each restart counter says
    how often the bundle was configured to start, for every listing of this streak. -/
theorem bundle_data_streak (cfg : Config) (es : List Event) :
    (listings cfg es = [] → Unfilled (reached cfg es)) ∧
      (listings cfg es ≠ [] → ∃ front text rest, Streak cfg (listings cfg es) front text rest ∧
        Kept.Data cfg ⟨text, rest.length + 1⟩ (reached cfg es)) := by
  have hholds := holds_reached cfg es
  constructor
  · intro hnil
    rw [hnil] at hholds
    exact hholds
  · intro hne
    obtain ⟨front, text, rest, hstreak, hkept⟩ := keptOf_spec cfg hne
    rw [hkept] at hholds
    exact ⟨front, text, rest, hstreak, hholds⟩

/-! ### The turns of a run -/

/-- The pipe of an iteration that gets past the test of the two flags. -/
def turn (s : Monitor) : Event → Option (Option Bytes)
  | .iteration pipe => if s.isReady = true then some pipe else none
  | _               => none

/-- The pipes of the turns of a run, in order. -/
def turns (cfg : Config) (es : List Event) : List (Option Bytes) :=
  outputs (step cfg) turn Monitor.initial es

/-- The texts fetched in the list steps among some turns: the second, the sixth and so on. -/
def listTexts (pipes : List (Option Bytes)) : List Bytes :=
  (pipes.zipIdx.filter (·.2 % 4 = 1)).map (fireCommandExecVP ·.1)

theorem listTexts_concat (pipes : List (Option Bytes)) (pipe : Option Bytes) :
    listTexts (pipes ++ [pipe]) =
      listTexts pipes ++ if pipes.length % 4 = 1 then [fireCommandExecVP pipe] else [] := by
  rw [listTexts, List.zipIdx_append, List.filter_append, List.map_append, ← listTexts]
  split_ifs with h <;> simp [h]

theorem length_listTexts (pipes : List (Option Bytes)) :
    (listTexts pipes).length = (pipes.length + 2) / 4 := by
  induction pipes using List.reverseRecOn with
  | nil => rfl
  | append_singleton pipes pipe ih =>
    rw [listTexts_concat, List.length_append, ih, List.length_append, List.length_singleton]
    split_ifs with h
    · rw [List.length_singleton]
      omega
    · rw [List.length_nil]
      omega

/-- The supervisor after some turns with these pipes. -/
structure Supervisor.Took (cfg : Config) (v : Supervisor) (pipes : List (Option Bytes)) : Prop where
  turns : v.turns = pipes.length
  kept : v.kept = keptOf cfg (listTexts pipes)

/-- An iteration that is no turn changes nothing that is counted, and fires nothing. -/
theorem Supervisor.step_of_turn_none (h : v.Describes cfg s) {e : Event} (he : turn s e = none) :
    (v.step cfg e).turns = v.turns ∧ (v.step cfg e).kept = v.kept ∧ v.fires cfg e = none := by
  cases e with
  | gogoReady b => exact ⟨rfl, rfl, rfl⟩
  | fireCommandOperationInProgress b => exact ⟨rfl, rfl, rfl⟩
  | iteration pipe =>
    have hnot : v.acts = false := by
      rw [h.acts_eq]
      simpa [turn] using he
    rw [Supervisor.step, Supervisor.fires, hnot]
    exact ⟨rfl, rfl, rfl⟩

/-- A turn is counted, looks at a listing if it is its place, and fires unless it is the first. -/
theorem Supervisor.Took.step_of_turn {pipes : List (Option Bytes)} (ht : v.Took cfg pipes)
    (h : v.Describes cfg s) {e : Event} {pipe : Option Bytes} (he : turn s e = some pipe) :
    (v.step cfg e).Took cfg (pipes ++ [pipe]) ∧
      v.fires cfg e = if pipes.length = 0 then none
        else some (command cfg (pipes.length - 1) (keptOf cfg (listTexts pipes))) := by
  cases e with
  | gogoReady b => cases he
  | fireCommandOperationInProgress b => cases he
  | iteration pipe' =>
    rw [turn, Option.ite_none_right_eq_some, Option.some.injEq] at he
    obtain ⟨hready, rfl⟩ := he
    have hacts : v.acts = true := h.acts_eq.trans hready
    rw [Supervisor.step, Supervisor.fires, hacts, ← ht.turns, ← ht.kept, if_pos rfl]
    refine ⟨⟨?_, ?_⟩, ?_⟩
    · rw [List.length_append, List.length_singleton, ← ht.turns]
    · rw [listTexts_concat, ← ht.turns]
      split_ifs with hlist
      · rw [keptOf_concat, ← ht.kept]
      · rw [List.append_nil, ← ht.kept]
    · by_cases hzero : v.turns = 0 <;> simp [hzero]

/-- The commands of turns with these pipes: the first turn fires none, and each of the others
    fires the command with its number, for the listings looked at before. -/
def commandsOf (cfg : Config) (pipes : List (Option Bytes)) : List Fired :=
  (List.range (pipes.length - 1)).map fun i =>
    command cfg i (keptOf cfg ((listTexts pipes).take (i / 4 + 1)))

/-- The list commands do not depend on a listing. -/
theorem command_of_list {i : Nat} (h : i % 4 = 0) (kept kept' : Option Kept) :
    command cfg i kept = command cfg i kept' := by
  rw [command, command, h]
  rfl

theorem commandsOf_concat (cfg : Config) (pipes : List (Option Bytes)) (pipe : Option Bytes) :
    commandsOf cfg (pipes ++ [pipe]) = commandsOf cfg pipes ++
      (if pipes.length = 0 then none
        else some (command cfg (pipes.length - 1) (keptOf cfg (listTexts pipes)))).toList := by
  have hlen := length_listTexts pipes
  -- a command that has been fired does not depend on later turns
  have hold : ∀ i < pipes.length - 1, (listTexts (pipes ++ [pipe])).take (i / 4 + 1) =
      (listTexts pipes).take (i / 4 + 1) := by
    intro i hi
    rw [listTexts_concat, List.take_append_of_le_length (by omega)]
  by_cases hzero : pipes.length = 0
  · have hnil : pipes = [] := List.eq_nil_of_length_eq_zero hzero
    subst hnil
    rfl
  · have hsucc : (pipes ++ [pipe]).length - 1 = pipes.length - 1 + 1 := by
      rw [List.length_append, List.length_singleton]
      omega
    rw [commandsOf, hsucc, List.range_succ, List.map_append, List.map_singleton, if_neg hzero,
      Option.toList_some]
    congr 1
    · exact List.map_congr_left fun i hi => by rw [hold i (List.mem_range.mp hi)]
    · -- the command of this turn: all listings so far have been looked at, or it is a list command
      congr 1
      by_cases hlist : (pipes.length - 1) % 4 = 0
      · exact command_of_list hlist _ _
      · rw [listTexts_concat, if_neg (by omega), List.append_nil,
          List.take_of_length_le (by omega)]

theorem turns_concat (cfg : Config) (es : List Event) (e : Event) :
    turns cfg (es ++ [e]) = turns cfg es ++ (turn (reached cfg es) e).toList :=
  outputs_concat _ _ _ _ _

/-- **Run lemma.**  The supervisor and its commands, read off the turns. -/
theorem took_supervised (cfg : Config) (es : List Event) :
    (supervised cfg es).Took cfg (turns cfg es) ∧
      supervisedCommands cfg es = commandsOf cfg (turns cfg es) := by
  induction es using List.reverseRecOn with
  | nil => exact ⟨⟨rfl, rfl⟩, rfl⟩
  | append_singleton es e ih =>
    obtain ⟨htook, hfired⟩ := ih
    have hdescribes := (describes_reached cfg es).1
    have hnext : supervised cfg (es ++ [e]) = (supervised cfg es).step cfg e := by
      rw [supervised, List.foldl_append]
      rfl
    rw [hnext, turns_concat, supervisedCommands, outputs_concat, ← supervisedCommands, hfired]
    cases he : turn (reached cfg es) e with
    | none =>
      obtain ⟨hturns, hkept, hnone⟩ := Supervisor.step_of_turn_none hdescribes he
      rw [Option.toList_none, List.append_nil]
      refine ⟨⟨hturns.trans htook.turns, hkept.trans htook.kept⟩, ?_⟩
      show _ ++ ((supervised cfg es).fires cfg e).toList = _
      rw [hnone, Option.toList_none, List.append_nil]
    | some pipe =>
      obtain ⟨htook', hfires⟩ := htook.step_of_turn hdescribes he
      rw [Option.toList_some, commandsOf_concat, ← hfires]
      exact ⟨htook', rfl⟩

/-- **The commands of a run.**  As long as the commands that the turns call for fit into `strBuff`,
    the command lines of a run are determined by the pipes of its turns alone: the first turn fires
    nothing, the others fire the cycle, and a start command carries the ids of the bundles that are
    down in the listing gone by, the first of the last streak among the listings of the turns
    before. -/
theorem commands_of_turns (cfg : Config) (es : List Event)
    (hfits : ∀ f ∈ commandsOf cfg (turns cfg es), f.FitsBuffer) :
    (runInBuffer cfg Monitor.initial es).map Prod.snd =
      some ((List.range ((turns cfg es).length - 1)).map fun i =>
        (command cfg i (keptOf cfg ((listTexts (turns cfg es)).take (i / 4 + 1)))).command cfg) := by
  have hcommands : supervisedCommands cfg es = commandsOf cfg (turns cfg es) :=
    (took_supervised cfg es).2
  rw [← hcommands] at hfits
  rw [(monitor_refines cfg es hfits).2.2, hcommands, commandsOf, List.map_map]
  rfl

/-- The turns of the run with the hostile listing call for commands that fit. -/
theorem commands_of_turns_hostileRun :
    (runInBuffer shippedConfig Monitor.initial hostileRun).map Prod.snd =
      some ((List.range ((turns shippedConfig hostileRun).length - 1)).map fun i =>
        (command shippedConfig i (keptOf shippedConfig
          ((listTexts (turns shippedConfig hostileRun)).take (i / 4 + 1)))).command
            shippedConfig) :=
  commands_of_turns shippedConfig hostileRun (by decide +kernel)

end OsgiManager.ESB
