import OsgiManager.Lib.Cells

namespace OsgiManager.ESB

open OsgiManager.Lib

/-!
# The startup command

`InitializeAndStart` joins the batch commands to one string, replaces in it, for one member of
`set_commands` after the other, the key between percent signs by the value for as long as it
occurs, and puts the `set` commands in front.  The replacing loops need not end, so the model
runs them with fuel.

* `expandMembers` — the loops for all members, in the order of the file;
* `karafStartupCommnad` — the startup command, if all loops end;
* `Expands` — all loops end, and leave a certain string;
* `expands_cons`, `expands_append` — expansion member by member.
-/

/-- A member of `set_commands`, as the file has it. -/
structure SetCommand where
  jsonName : Bytes
  jsonValue : Bytes
deriving DecidableEq

/-- `itr->name.GetString()`. -/
def SetCommand.key (itr : SetCommand) : Bytes := cstr itr.jsonName

/-- `itr->value.GetString()`. -/
def SetCommand.value (itr : SetCommand) : Bytes := cstr itr.jsonValue

/-- `batchCommands` before the expansion: every command with a space before it. -/
def batchCommandsText (batch_commands : List Bytes) : Bytes :=
  batch_commands.flatMap fun c => ofString " " ++ cstr c

/-- `"%" + key + "%"`. -/
def placeholder (key : Bytes) : Bytes := ofString "%" ++ (key ++ ofString "%")

/-- The condition and the body of the replacing loop. -/
def expandBody (key value batchCommands : Bytes) : Bytes ⊕ Bytes :=
  match find (placeholder key) batchCommands with
  | some position => .inl (replace batchCommands position (placeholder key).length value)
  | none          => .inr batchCommands

/-- The replacing loop of one member. -/
def expandMember (fuel : Nat) (batchCommands : Bytes) (itr : SetCommand) : Option Bytes :=
  Loop.run (expandBody itr.key itr.value) fuel batchCommands

/-- The loop over the members of `set_commands`. -/
def expandMembers (fuel : Nat) (set_commands : List SetCommand) (batchCommands : Bytes) :
    Option Bytes := set_commands.foldlM (expandMember fuel) batchCommands

/-- `commandLineSetString`. -/
def commandLineSetString (set_commands : List SetCommand) : Bytes :=
  set_commands.flatMap fun itr =>
    ofString "set " ++ (itr.key ++ (ofString "=" ++ (itr.value ++ ofString " & ")))

/-- `karafStartupCommnad`, once the loops have ended. -/
def karafStartupCommnad (fuel : Nat) (batch_commands : List Bytes)
    (set_commands : List SetCommand) : Option Bytes :=
  (expandMembers fuel set_commands (batchCommandsText batch_commands)).map
    (commandLineSetString set_commands ++ ·)

/-- All loops end, and leave `r` of the string `s`. -/
def Expands (set_commands : List SetCommand) (s r : Bytes) : Prop :=
  ∃ fuel, expandMembers fuel set_commands s = some r

/-! ### The percent sign as a delimiter -/

/-- The percent sign. -/
def percent : Byte := '%'.toUInt8

theorem placeholder_eq (key : Bytes) : placeholder key = delimited percent key := by
  rw [placeholder, delimited]
  rfl

theorem placeholder_ne_nil (key : Bytes) : placeholder key ≠ [] := by
  rw [placeholder_eq, delimited]
  simp

theorem expandBody_eq (key value : Bytes) :
    expandBody key value = rewriteBody (placeholder key) value := rfl

/-! ### Expansion, member by member -/

/-- More fuel does not change the result. -/
theorem expandMembers_mono {n m : Nat} (hnm : n ≤ m) {set_commands : List SetCommand}
    {s r : Bytes} (h : expandMembers n set_commands s = some r) :
    expandMembers m set_commands s = some r := by
  induction set_commands generalizing s with
  | nil => exact h
  | cons itr set_commands ih =>
    rw [expandMembers, List.foldlM_cons] at h ⊢
    obtain ⟨t, ht, hr⟩ := Option.bind_eq_some_iff.mp h
    rw [show expandMember m s itr = some t from Loop.run_mono hnm ht]
    exact ih hr

@[simp] theorem expands_nil {s r : Bytes} : Expands [] s r ↔ r = s := by
  simp [Expands, expandMembers, eq_comm]

/-- The first member's loop, and then the others. -/
theorem expands_cons {itr : SetCommand} {set_commands : List SetCommand} {s r : Bytes} :
    Expands (itr :: set_commands) s r ↔
      ∃ t, Loop.Returns (expandBody itr.key itr.value) s t ∧ Expands set_commands t r := by
  constructor
  · rintro ⟨fuel, h⟩
    rw [expandMembers, List.foldlM_cons] at h
    obtain ⟨t, ht, hr⟩ := Option.bind_eq_some_iff.mp h
    exact ⟨t, ⟨fuel, ht⟩, fuel, hr⟩
  · rintro ⟨t, ⟨n, hn⟩, m, hm⟩
    refine ⟨max n m, ?_⟩
    rw [expandMembers, List.foldlM_cons,
      show expandMember (max n m) s itr = some t from Loop.run_mono (Nat.le_max_left n m) hn]
    exact expandMembers_mono (Nat.le_max_right n m) hm

theorem expands_append {as bs : List SetCommand} {s r : Bytes} :
    Expands (as ++ bs) s r ↔ ∃ t, Expands as s t ∧ Expands bs t r := by
  induction as generalizing s with
  | nil => simp
  | cons itr as ih =>
    simp only [List.cons_append, expands_cons, ih]
    constructor
    · rintro ⟨t, ht, u, hu, hr⟩
      exact ⟨u, ⟨t, ht, hu⟩, hr⟩
    · rintro ⟨u, ⟨t, ht, hu⟩, hr⟩
      exact ⟨t, ht, u, hu, hr⟩

/-- The expansion has at most one result. -/
theorem Expands.unique {set_commands : List SetCommand} {s r r' : Bytes}
    (h : Expands set_commands s r) (h' : Expands set_commands s r') : r = r' := by
  obtain ⟨n, hn⟩ := h
  obtain ⟨m, hm⟩ := h'
  have hn' := expandMembers_mono (Nat.le_max_left n m) hn
  rw [expandMembers_mono (Nat.le_max_right n m) hm, Option.some.injEq] at hn'
  exact hn'.symm

/-- The startup command is built exactly if all loops end. -/
theorem karafStartupCommnad_eq_some_iff {batch_commands : List Bytes}
    {set_commands : List SetCommand} {c : Bytes} :
    (∃ fuel, karafStartupCommnad fuel batch_commands set_commands = some c) ↔
      ∃ r, Expands set_commands (batchCommandsText batch_commands) r ∧
        c = commandLineSetString set_commands ++ r := by
  constructor
  · rintro ⟨fuel, h⟩
    obtain ⟨r, hr, rfl⟩ := Option.map_eq_some_iff.mp h
    exact ⟨r, ⟨fuel, hr⟩, rfl⟩
  · rintro ⟨r, ⟨fuel, hr⟩, rfl⟩
    exact ⟨fuel, by rw [karafStartupCommnad, hr]; rfl⟩

end OsgiManager.ESB
