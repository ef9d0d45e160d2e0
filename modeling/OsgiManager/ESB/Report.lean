import OsgiManager.ESB.Monitor

namespace OsgiManager.ESB

open OsgiManager.Lib

/-!
# The published system information

Every information step fills a `SystemInfo` object from the text it fetches, assigns it to
the static `currentSystemInfo`, and from then on `getCurrentSystemInfo` hands out copies.
Both links lose the contents: `operator=` returns its target untouched, and the copy
constructor leaves every member of the new object empty.

* `PublishedRun` — in a run, what is handed out is always what was filled last;
* `published_iff` — this is so exactly for the reports that bring no values.
-/

/-- From the end of each information step until the next one, every call of
    `getCurrentSystemInfo` returns the members of the object filled from the text that the
    step fetched. -/
def PublishedRun (cfg : Config) (es : List Event) : Prop :=
  ∀ (before between after : List Event) (e : Event) (text : Bytes),
    es = before ++ e :: (between ++ after) →
    infoText (reached cfg before) e = some text →
    (∀ q ∈ history (step cfg) (step cfg (reached cfg before) e) between,
      infoText q.1 q.2 = none) →
    ∀ m, (reached cfg (before ++ e :: between)).getCurrentSystemInfo m =
      fillSystemInfo cfg.systemInfoParser text m

/-- The texts fetched by the information steps of a run, in order. -/
def reports (cfg : Config) (es : List Event) : List Bytes :=
  (history (step cfg) Monitor.initial es).filterMap fun p => infoText p.1 p.2

theorem mem_reports {cfg : Config} {es : List Event} {text : Bytes} : text ∈ reports cfg es ↔
    ∃ before e after, es = before ++ e :: after ∧ infoText (reached cfg before) e = some text := by
  rw [reports, List.mem_filterMap]
  constructor
  · rintro ⟨⟨s, e⟩, hp, htext⟩
    obtain ⟨before, after, hes, hs⟩ := mem_history_iff.mp hp
    refine ⟨before, e, after, hes, ?_⟩
    rw [reached, ← hs]
    exact htext
  · rintro ⟨before, e, after, hes, htext⟩
    exact ⟨(reached cfg before, e), mem_history_iff.mpr ⟨before, after, hes, rfl⟩, htext⟩

/-- The copy constructor preserves the members that are empty, and no others. -/
theorem SystemInfo.copy_apply_eq_iff (other : SystemInfo) (m : Member) :
    other.copy m = other m ↔ other m = [] := by
  show [] = other m ↔ other m = []
  exact eq_comm

/-- **The published report.**  The copy constructor preserves the members that are empty,
    the assignment operator those in which both objects agree already; and in a run, what
    `getCurrentSystemInfo` returns is what was filled from the last report exactly when the
    reports of the run bring no value for any member. -/
theorem published_iff (cfg : Config) (es : List Event) (other this rhs : SystemInfo) :
    (∀ m, other.copy m = other m ↔ other m = []) ∧
      (∀ m, this.assign rhs m = rhs m ↔ this m = rhs m) ∧
      (PublishedRun cfg es ↔
        ∀ text ∈ reports cfg es, ∀ m, BringsNothing cfg.systemInfoParser text m) := by
  refine ⟨other.copy_apply_eq_iff, fun _ => Iff.rfl, ?_, ?_⟩
  · intro h text htext m
    obtain ⟨before, e, after, hes, hinfo⟩ := mem_reports.mp htext
    -- right after the step, before any other event
    have hget := h before [] after e text hes hinfo (by simp) m
    rw [← fillSystemInfo_eq_nil_iff, ← hget]
    rfl
  · intro h before between after e text hes hinfo _ m
    have htext : text ∈ reports cfg es := mem_reports.mpr ⟨before, e, _, hes, hinfo⟩
    have hnil := (fillSystemInfo_eq_nil_iff cfg.systemInfoParser text m).mpr (h text htext m)
    show [] = fillSystemInfo cfg.systemInfoParser text m
    rw [hnil]

/-- A run of one cycle, with a report that names the version. -/
def reportRun : List Event :=
  [ .gogoReady true, .iteration none, .iteration none, .iteration none, .iteration none,
    .iteration (some (ofString "  Version                     1.8.0\n")) ]

/-- The version reported is not handed out. -/
theorem reportRun_not_published : ¬ PublishedRun shippedConfig reportRun := by
  intro h
  let text := ofString "  Version                     1.8.0\n"
  have hinfo : infoText (reached shippedConfig reportRun.dropLast) (.iteration (some text)) =
      some text := by decide +kernel
  have hget := h reportRun.dropLast [] [] (.iteration (some text)) text rfl hinfo (by simp)
    .version
  revert hget
  decide +kernel

end OsgiManager.ESB
