import OsgiManager.ESB.SetCommands
import OsgiManager.Lib.CellRule

namespace OsgiManager.ESB

open OsgiManager.Lib

/-!
# When the startup command is built

The replacing loop of a member searches its own output, so a value that brings its placeholder
back keeps it going for ever, be it that it mentions the placeholder or that it completes one
with the text around it.

* `Calm` — the texts on which the loop of a member ends;
* `ends_iff_calm` — exactly these, for keys without a percent sign;
* `startup_built_iff` — the startup command is built if every turn finds a calm text, and, if
  no key has a percent sign, only then.
-/

/-- The turn of a member comes to an end.  Either the placeholder does not occur.  Or the value
    does not contain it, and its pieces between percent signs do not make the text react.  For
    a key with a percent sign inside, either no placeholder that is replaced reaches into an
    inserted value, or the value has fewer of some byte than the placeholder, or it cannot
    complete a placeholder that starts before it. -/
def Calm (key value batchCommands : Bytes) : Prop :=
  ¬ placeholder key <:+: batchCommands ∨ (¬ placeholder key <:+: value ∧
    if percent ∈ key then
      OwnOccurrences (placeholder key) value [] batchCommands ∨
        (∃ c, value.count c < (placeholder key).count c) ∨ OneSided (placeholder key) value
    else
      ¬ ((ruleOf percent key value).Renews ∧
        (ruleOf percent key value).reacts none (batchCommands.splitOn percent).tail = true))

/-- For a key without a percent sign, the loop ends exactly on the calm texts. -/
theorem ends_iff_calm {key : Bytes} (hk : percent ∉ key) (value batchCommands : Bytes) :
    Ends (placeholder key) value batchCommands ↔ Calm key value batchCommands := by
  rw [Calm, if_neg hk, placeholder_eq]
  exact ends_delimited_iff hk batchCommands

/-- For every key, the loop ends on the calm texts. -/
theorem ends_of_calm {key value batchCommands : Bytes} (h : Calm key value batchCommands) :
    Ends (placeholder key) value batchCommands := by
  by_cases hk : percent ∈ key
  · rw [Calm, if_pos hk] at h
    rcases h with habsent | ⟨hvalue, hown | ⟨c, hc⟩ | hone⟩
    · exact ends_of_absent habsent
    · exact ends_of_ownOccurrences hown
    · exact ends_of_count hc batchCommands
    · exact ends_of_oneSided (placeholder_ne_nil key) hone hvalue batchCommands
  · exact (ends_iff_calm hk value batchCommands).mpr h

/-- Every member whose turn comes finds a calm text. -/
def EveryTurnCalm (set_commands : List SetCommand) (s : Bytes) : Prop :=
  ∀ before itr after t, set_commands = before ++ itr :: after → Expands before s t →
    Calm itr.key itr.value t

/-- The turns of a list of members: the first one, and then the others. -/
theorem everyTurnCalm_cons {itr : SetCommand} {set_commands : List SetCommand} {s : Bytes} :
    EveryTurnCalm (itr :: set_commands) s ↔ Calm itr.key itr.value s ∧
      ∀ t, Loop.Returns (expandBody itr.key itr.value) s t → EveryTurnCalm set_commands t := by
  constructor
  · intro h
    refine ⟨h [] itr set_commands s rfl (expands_nil.mpr rfl), ?_⟩
    intro t ht before itr' after u hset hu
    exact h (itr :: before) itr' after u (by rw [hset]; rfl) (expands_cons.mpr ⟨t, ht, hu⟩)
  · rintro ⟨hfirst, hothers⟩ before itr' after u hset hu
    cases before with
    | nil =>
      obtain ⟨rfl, _⟩ := List.cons.inj hset
      rw [expands_nil.mp hu]
      exact hfirst
    | cons itr₀ before =>
      obtain ⟨rfl, hrest⟩ := List.cons.inj hset
      obtain ⟨t, ht, hu⟩ := expands_cons.mp hu
      exact hothers t ht before itr' after u hrest hu

/-- The expansion ends if every turn finds a calm text. -/
theorem exists_expands_of_calm {set_commands : List SetCommand} {s : Bytes}
    (h : EveryTurnCalm set_commands s) : ∃ r, Expands set_commands s r := by
  induction set_commands generalizing s with
  | nil => exact ⟨s, expands_nil.mpr rfl⟩
  | cons itr set_commands ih =>
    obtain ⟨hfirst, hothers⟩ := everyTurnCalm_cons.mp h
    obtain ⟨t, ht⟩ := ends_of_calm hfirst
    obtain ⟨r, hr⟩ := ih (hothers t ht)
    exact ⟨r, expands_cons.mpr ⟨t, ht, hr⟩⟩

/-- If no key has a percent sign, the expansion only ends if every turn finds a calm text. -/
theorem everyTurnCalm_of_expands {set_commands : List SetCommand} {s r : Bytes}
    (hkeys : ∀ itr ∈ set_commands, percent ∉ itr.key) (h : Expands set_commands s r) :
    EveryTurnCalm set_commands s := by
  intro before itr after t hset ht
  rw [hset, expands_append] at h
  obtain ⟨t', ht', hrest⟩ := h
  obtain ⟨u, hu, _⟩ := expands_cons.mp hrest
  rw [ht.unique ht']
  exact (ends_iff_calm (hkeys itr (by simp [hset])) itr.value t').mp ⟨u, hu⟩

/-- **Startup command.**  It is built if every turn finds a calm text; if no key has a percent
    sign, it is built only then. -/
theorem startup_built_iff (batch_commands : List Bytes) (set_commands : List SetCommand) :
    (EveryTurnCalm set_commands (batchCommandsText batch_commands) →
        ∃ fuel c, karafStartupCommnad fuel batch_commands set_commands = some c) ∧
      ((∀ itr ∈ set_commands, percent ∉ itr.key) →
        ((∃ fuel c, karafStartupCommnad fuel batch_commands set_commands = some c) ↔
          EveryTurnCalm set_commands (batchCommandsText batch_commands))) := by
  have hbuilt : EveryTurnCalm set_commands (batchCommandsText batch_commands) →
      ∃ fuel c, karafStartupCommnad fuel batch_commands set_commands = some c := by
    intro hcalm
    obtain ⟨r, hr⟩ := exists_expands_of_calm hcalm
    obtain ⟨fuel, hc⟩ := karafStartupCommnad_eq_some_iff.mpr ⟨r, hr, rfl⟩
    exact ⟨fuel, _, hc⟩
  refine ⟨hbuilt, fun hkeys => ⟨?_, hbuilt⟩⟩
  rintro ⟨fuel, c, hc⟩
  obtain ⟨r, hr, _⟩ := karafStartupCommnad_eq_some_iff.mp ⟨fuel, hc⟩
  exact everyTurnCalm_of_expands hkeys hr

/-- A search path that is extended by its old value. -/
def pathCommand : SetCommand := ⟨ofString "PATH", ofString "C:/java/bin;%PATH%"⟩

/-- A value that does not contain its placeholder, but completes it on both sides. -/
def straddling : SetCommand := ⟨ofString "aa", ofString "a%a%a"⟩

/-- A loop that does not end keeps the startup command from being built. -/
theorem not_built_of_not_ends {itr : SetCommand} {batch_commands : List Bytes}
    (h : ¬ Ends (placeholder itr.key) itr.value (batchCommandsText batch_commands)) (fuel : Nat)
    (c : Bytes) : karafStartupCommnad fuel batch_commands [itr] ≠ some c := by
  intro hc
  obtain ⟨r, hr, _⟩ := karafStartupCommnad_eq_some_iff.mp ⟨fuel, hc⟩
  obtain ⟨t, ht, _⟩ := expands_cons.mp hr
  exact h ⟨t, ht⟩

/-- Neither member lets the startup command be built: the first value mentions its placeholder,
    the second one completes it with the text beside it. -/
theorem startup_not_built :
    (∀ fuel c, karafStartupCommnad fuel [ofString "set PATH=%PATH%"] [pathCommand] ≠ some c) ∧
      ∀ fuel c, karafStartupCommnad fuel [ofString "echo %a%aa%"] [straddling] ≠ some c := by
  refine ⟨not_built_of_not_ends (not_ends_of_reinserted (by decide +kernel) (by decide +kernel)),
    not_built_of_not_ends ?_⟩
  rw [placeholder_eq, ends_delimited_iff (by decide +kernel)]
  decide +kernel

end OsgiManager.ESB
