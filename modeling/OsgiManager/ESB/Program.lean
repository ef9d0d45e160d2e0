import OsgiManager.ESB.ConfigWriting
import OsgiManager.ESB.Supervisor

namespace OsgiManager.ESB

open OsgiManager.Lib OsgiManager.Rapidjson

/-!
# The program

From the bytes of the configuration file to the command lines.  `InitializeAndStart` sets the two
flags once, before it starts the monitor; the only other code that sets them is `Start`, which is
never run because `startWholly` is not set.  So no iteration of the loop is held back.

* `reached_startupEvents` — the monitor it starts is one after two events;
* `program_run` — the command lines of the program, and what it goes by.
-/

/-- The two calls of `InitializeAndStart`, as events of the monitor. -/
def startupEvents : List Event := [.gogoReady true, .fireCommandOperationInProgress false]

/-- The iterations of the monitor loop, with the pipes their commands get. -/
def iterations (pipes : List (Option Bytes)) : List Event := pipes.map .iteration

theorem reached_startupEvents (cfg : Config) : reached cfg startupEvents = Monitor.released := rfl

/-- The events before the loop fire nothing. -/
theorem calls_startup (cfg : Config) (es : List Event) :
    calls cfg Monitor.initial (startupEvents ++ es) = calls cfg Monitor.released es := by
  rw [calls, history_append, List.filterMap_append]
  rfl

theorem reached_startup (cfg : Config) (es : List Event) :
    reached cfg (startupEvents ++ es) = es.foldl (step cfg) Monitor.released := by
  rw [reached, List.foldl_append, ← reached, reached_startupEvents]

theorem iterations_concat (pipes : List (Option Bytes)) (pipe : Option Bytes) :
    startupEvents ++ iterations (pipes ++ [pipe]) =
      startupEvents ++ iterations pipes ++ [.iteration pipe] := by
  rw [iterations, List.map_append, ← iterations, List.append_assoc]
  rfl

/-- The flags stay as they have been set. -/
theorem isReady_iterations (cfg : Config) (pipes : List (Option Bytes)) :
    (reached cfg (startupEvents ++ iterations pipes)).isReady = true := by
  induction pipes using List.reverseRecOn with
  | nil => rfl
  | append_singleton pipes pipe ih =>
    obtain ⟨hready, hbusy⟩ :=
      iterate_flags cfg (reached cfg (startupEvents ++ iterations pipes)) pipe
    rw [iterations_concat, reached_concat, Monitor.isReady, hready, hbusy]
    exact ih

/-- So every iteration is a turn. -/
theorem turns_iterations (cfg : Config) (pipes : List (Option Bytes)) :
    turns cfg (startupEvents ++ iterations pipes) = pipes := by
  induction pipes using List.reverseRecOn with
  | nil => rfl
  | append_singleton pipes pipe ih =>
    have hturn : turn (reached cfg (startupEvents ++ iterations pipes)) (.iteration pipe) =
        some pipe := if_pos (isReady_iterations cfg pipes)
    rw [iterations_concat, turns_concat, ih, hturn]
    rfl

/-- **The program.**  Whatever file it is started with, as long as each command that the pipes of
    the iterations call for fits into `strBuff`: no iteration of the monitor loop is held back, so
    after the first one every iteration fires a command; the command lines and the bundle data are
    those the pipes call for, by the configuration of the file. -/
theorem program_run {regex extended : Bytes → Option Matcher} {tooBig : Bytes → Bool}
    {content : Bytes} {s : Started} (h : Starts regex extended tooBig content s)
    (pipes : List (Option Bytes)) (hfits : ∀ f ∈ commandsOf s.config pipes, f.FitsBuffer) :
    ∃ last lines, runInBuffer s.config s.monitor (iterations pipes) = some (last, lines) ∧
      lines.length = pipes.length - 1 ∧
      lines = (commandsOf s.config pipes).map (·.command s.config) ∧
      Holds s.config last (keptOf s.config (listTexts pipes)) := by
  obtain ⟨-, ms, t, -, -, hgives⟩ := starts_iff.mp h
  have hmonitor : s.monitor = Monitor.released := hgives.monitor
  obtain ⟨hdescribes, hsupervised⟩ := describes_reached s.config
    (startupEvents ++ iterations pipes)
  obtain ⟨htook, hcommands⟩ := took_supervised s.config (startupEvents ++ iterations pipes)
  rw [turns_iterations] at htook hcommands
  have houtputs : outputs (step s.config) (fired s.config) s.monitor (iterations pipes) =
      commandsOf s.config pipes := by
    rw [hmonitor, ← calls_eq_outputs, ← calls_startup, calls_eq_outputs, hsupervised, hcommands]
  rw [← houtputs] at hfits ⊢
  refine ⟨_, _, runInBuffer_of_fits hfits, ?_, rfl, ?_⟩
  · rw [List.length_map, houtputs, commandsOf, List.length_map, List.length_range]
  · have hdata := hdescribes.data
    rw [hmonitor, ← reached_startup, ← htook.kept]
    exact hdata

/-- A listing with two configured bundles, of which one is down. -/
def smallListing : Bytes :=
  ofString "\n\n[ 210] [Active] [ ] [Failed] [   80] file:C:/jboss/deploy/xom-1.2.5.jar\n" ++
    ofString "[ 211] [Active] [ ] [Started] [   80] file:C:/jboss/deploy/camel-core.jar\n"

/-- The pipes of an idle turn, a list step and the start command after it. -/
def smallPipes : List (Option Bytes) := [none, some smallListing, none]

/-- The start command names the bundle that is down. -/
theorem program_run_smallTexts :
    ∃ last lines, runInBuffer smallStarted.config smallStarted.monitor (iterations smallPipes) =
        some (last, lines) ∧
      lines.length = smallPipes.length - 1 ∧
      lines = (commandsOf smallStarted.config smallPipes).map (·.command smallStarted.config) ∧
      Holds smallStarted.config last (keptOf smallStarted.config (listTexts smallPipes)) :=
  program_run starts_smallTexts smallPipes (by decide +kernel)

end OsgiManager.ESB
