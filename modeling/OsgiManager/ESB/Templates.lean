import OsgiManager.ESB.SetCommands
import OsgiManager.Lib.Substitution

namespace OsgiManager.ESB

open OsgiManager.Lib

/-!
# Expansion as substitution

Where keys and values have no percent sign, and what stands beside a placeholder sets it off
from the next one, the loops for all members together make one simultaneous substitution.

* `expands_substFrom` — the expansion is the substitution of all keys;
* `expands_template` — a template is expanded to its literals with the values between them.
-/

/-- The keys of `set_commands`. -/
def keysOf (set_commands : List SetCommand) : List Bytes := set_commands.map SetCommand.key

/-- The value of a key. -/
def valueOf (set_commands : List SetCommand) (key : Bytes) : Option Bytes :=
  (set_commands.find? (·.key = key)).map SetCommand.value

/-- Distinct keys, and no percent sign in any key or value. -/
structure PlainCommands (set_commands : List SetCommand) : Prop where
  distinct : (keysOf set_commands).Nodup
  plain_key : ∀ itr ∈ set_commands, percent ∉ itr.key
  plain_value : ∀ itr ∈ set_commands, percent ∉ itr.value

/-! ### The substitution of all keys -/

theorem key_mem_keysOf {set_commands : List SetCommand} {itr : SetCommand}
    (h : itr ∈ set_commands) : itr.key ∈ keysOf set_commands := List.mem_map.mpr ⟨itr, h, rfl⟩

theorem valueOf_cons (itr : SetCommand) (set_commands : List SetCommand) :
    valueOf (itr :: set_commands) =
      fun key => (only itr.key itr.value key).or (valueOf set_commands key) := by
  funext key
  rw [valueOf, List.find?_cons, only]
  by_cases h : itr.key = key
  · simp [h]
  · simp [h, Ne.symm h, valueOf]

theorem exists_of_valueOf {set_commands : List SetCommand} {key v : Bytes}
    (h : valueOf set_commands key = some v) :
    ∃ itr ∈ set_commands, itr.key = key ∧ itr.value = v := by
  obtain ⟨itr, hitr, rfl⟩ := Option.map_eq_some_iff.mp h
  have hkey := List.find?_some hitr
  exact ⟨itr, List.mem_of_find?_eq_some hitr, by simpa using hkey, rfl⟩

/-- With distinct keys, a member's value is the value of its key. -/
theorem valueOf_eq_some_iff {set_commands : List SetCommand} (h : (keysOf set_commands).Nodup)
    {key v : Bytes} : valueOf set_commands key = some v ↔
      ∃ itr ∈ set_commands, itr.key = key ∧ itr.value = v := by
  refine ⟨exists_of_valueOf, ?_⟩
  rintro ⟨itr, hitr, rfl, rfl⟩
  induction set_commands with
  | nil => simp at hitr
  | cons itr' set_commands ih =>
    rw [keysOf, List.map_cons, List.nodup_cons] at h
    simp only [valueOf_cons, only]
    rcases List.mem_cons.mp hitr with rfl | hitr
    · rw [if_pos rfl, Option.some_or]
    · have hne : itr.key ≠ itr'.key := fun heq => h.1 (heq ▸ key_mem_keysOf hitr)
      rw [if_neg hne, Option.none_or]
      exact ih h.2 hitr

/-- **The expansion.**  On separated cells, the loops of all members together compute the
    substitution of their keys. -/
theorem expands_substFrom {set_commands : List SetCommand} {keys : List Bytes}
    (hmem : ∀ itr ∈ set_commands, itr.key ∈ keys)
    (hkey : ∀ itr ∈ set_commands, percent ∉ itr.key)
    (hvalue : ∀ itr ∈ set_commands, percent ∉ itr.value) {y : Bytes} {cs : List Bytes}
    (hcells : AreCells percent (y :: cs)) (hsep : Sep keys False y cs) :
    Expands set_commands (glue percent (y :: cs))
      (glue percent (substFrom (valueOf set_commands) y cs)) := by
  induction set_commands generalizing y cs with
  | nil => simp [show valueOf [] = fun _ => none from rfl, substFrom_none]
  | cons itr set_commands ih =>
    obtain ⟨hmem₁, hmem⟩ := List.forall_mem_cons.mp hmem
    obtain ⟨hkey₁, hkey⟩ := List.forall_mem_cons.mp hkey
    obtain ⟨hvalue₁, hvalue⟩ := List.forall_mem_cons.mp hvalue
    have honly : ∀ x v, only itr.key itr.value x = some v → x ∈ keys := by
      intro x v hx
      rw [(only_eq_some.mp hx).1]
      exact hmem₁
    have hothers : ∀ x v, valueOf set_commands x = some v → x ∈ keys := by
      intro x v hx
      obtain ⟨itr', hitr', rfl, _⟩ := exists_of_valueOf hx
      exact hmem itr' hitr'
    obtain ⟨z, zs, hz⟩ := exists_substFrom (f := only itr.key itr.value) y cs
    have hloop : Loop.Returns (rewriteBody (delimited percent itr.key) itr.value)
        (glue percent ([] ++ y :: cs)) (glue percent ([] ++ substFrom (only itr.key itr.value) y cs)) :=
      returns_substFrom hkey₁ hvalue₁ hmem₁ hcells (by simp) (by simpa using hsep)
    rw [List.nil_append, List.nil_append, hz] at hloop
    refine expands_cons.mpr ⟨_, by rwa [expandBody_eq, placeholder_eq], ?_⟩
    -- the other members go on with the cells the first one leaves
    have hcells' : AreCells percent ((y ++ z) :: zs) := by
      rw [← hz]
      refine areCells_substFrom (fun x v hx => ?_) hcells
      rw [(only_eq_some.mp hx).2]
      exact hvalue₁
    have hrest := ih hmem hkey hvalue hcells' (hsep.substFrom honly hz)
    rwa [substFrom_substFrom hothers honly hsep hz, ← valueOf_cons] at hrest

/-! ### Templates -/

/-- Two members of the shipped configuration. -/
def karafBase : SetCommand :=
  ⟨ofString "KARAF_BASE", ofString "C:/jboss/jboss-fuse-6.2.1.redhat-084"⟩

/-- The Java installation of the shipped configuration. -/
def javaHome : SetCommand := ⟨ofString "JAVA_HOME", ofString "C:/Program Files/Java/jdk1.8.0_74"⟩

theorem plain_shippedPair : PlainCommands [karafBase, javaHome] where
  distinct := by decide +kernel
  plain_key := by decide +kernel
  plain_value := by decide +kernel

/-- A text of literals and placeholders: a first literal, and then placeholders with the
    literal that follows each of them. -/
structure Template where
  lead : Bytes
  parts : List (SetCommand × Bytes)

/-- The text a template stands for. -/
def Template.text (t : Template) : Bytes :=
  t.lead ++ t.parts.flatMap fun part => placeholder part.1.key ++ part.2

/-- The template with the value in the place of each placeholder. -/
def Template.fill (t : Template) : Bytes :=
  t.lead ++ t.parts.flatMap fun part => part.1.value ++ part.2

/-- A template over the keys of `set_commands`: literals have no percent sign, and one between
    two placeholders has a character that occurs in no key. -/
structure Template.Over (t : Template) (set_commands : List SetCommand) : Prop where
  mem : ∀ part ∈ t.parts, part.1 ∈ set_commands
  plain_lead : percent ∉ t.lead
  plain_literal : ∀ part ∈ t.parts, percent ∉ part.2
  separated : ∀ part ∈ t.parts.dropLast, Foreign (keysOf set_commands) part.2

/-- The cells of the parts of a template. -/
def partCells (parts : List (SetCommand × Bytes)) : List Bytes :=
  parts.flatMap fun part => [part.1.key, part.2]

theorem glue_partCells (y : Bytes) (parts : List (SetCommand × Bytes)) :
    glue percent (y :: partCells parts) =
      y ++ parts.flatMap fun part => placeholder part.1.key ++ part.2 := by
  induction parts generalizing y with
  | nil => simp [partCells]
  | cons part parts ih =>
    have hcons : y :: partCells (part :: parts) =
        [y] ++ part.1.key :: part.2 :: partCells parts := rfl
    rw [hcons, glue_key _ (by simp) (by simp), ih, glue_singleton, List.flatMap_cons,
      placeholder_eq, List.append_assoc]

/-- The literals of a template separate its keys. -/
theorem sep_partCells {keys : List Bytes} {i : Prop} {y : Bytes}
    {parts : List (SetCommand × Bytes)} (hy : i → Foreign keys y)
    (h : ∀ part ∈ parts.dropLast, Foreign keys part.2) : Sep keys i y (partCells parts) := by
  induction parts generalizing i y with
  | nil => trivial
  | cons part parts ih =>
    cases parts with
    | nil => exact ⟨fun _ => ⟨hy, fun hne => absurd rfl hne⟩, trivial⟩
    | cons part' parts =>
      rw [List.dropLast_cons_of_ne_nil (by simp), List.forall_mem_cons] at h
      -- the literal after the first placeholder is foreign, so it is no key
      have htail := ih (i := True) (y := part.2) (fun _ => h.1) h.2
      exact ⟨fun _ => ⟨hy, fun _ => h.1⟩, fun hkey => absurd hkey h.1.not_mem, htail⟩

/-- Filling in the keys of a template leaves one cell. -/
theorem substFrom_partCells {set_commands : List SetCommand}
    (hdistinct : (keysOf set_commands).Nodup) (y : Bytes) {parts : List (SetCommand × Bytes)}
    (hmem : ∀ part ∈ parts, part.1 ∈ set_commands) :
    substFrom (valueOf set_commands) y (partCells parts) =
      [y ++ parts.flatMap fun part => part.1.value ++ part.2] := by
  induction parts generalizing y with
  | nil => simp [partCells, substFrom]
  | cons part parts ih =>
    obtain ⟨hpart, hparts⟩ := List.forall_mem_cons.mp hmem
    have hvalue := (valueOf_eq_some_iff hdistinct).mpr ⟨part.1, hpart, rfl, rfl⟩
    have hcons : partCells (part :: parts) = part.1.key :: part.2 :: partCells parts := rfl
    rw [hcons, substFrom, hvalue]
    show substFrom _ (y ++ (part.1.value ++ part.2)) (partCells parts) = _
    rw [ih _ hparts, List.flatMap_cons, List.append_assoc]

/-- **Templates.**  The expansion of a template ends, and fills in the value of each
    placeholder. -/
theorem expands_template {set_commands : List SetCommand} (hplain : PlainCommands set_commands)
    {t : Template} (ht : t.Over set_commands) {batch_commands : List Bytes}
    (hbatch : batchCommandsText batch_commands = t.text) :
    Expands set_commands (batchCommandsText batch_commands) t.fill := by
  have hcells : AreCells percent (t.lead :: partCells t.parts) := by
    rw [areCells_cons]
    refine ⟨ht.plain_lead, fun c hc => ?_⟩
    obtain ⟨part, hpart, hc⟩ := List.mem_flatMap.mp hc
    rcases List.mem_pair.mp hc with rfl | rfl
    · exact hplain.plain_key _ (ht.mem part hpart)
    · exact ht.plain_literal part hpart
  have hmem : ∀ itr ∈ set_commands, itr.key ∈ keysOf set_commands :=
    fun itr hitr => key_mem_keysOf hitr
  have hexp := expands_substFrom hmem hplain.plain_key hplain.plain_value hcells
    (sep_partCells False.elim ht.separated)
  rw [substFrom_partCells hplain.distinct t.lead ht.mem, glue_singleton, glue_partCells] at hexp
  rw [hbatch]
  exact hexp

/-- A command of the shipped configuration, with two placeholders. -/
def classpath : Template :=
  ⟨ofString " -classpath ",
    [(karafBase, ofString "/conf;"), (javaHome, ofString "/lib;"), (karafBase, ofString "/lib/*")]⟩

theorem over_classpath : classpath.Over [karafBase, javaHome] where
  mem := by decide +kernel
  plain_lead := by decide +kernel
  plain_literal := by decide +kernel
  separated := by decide +kernel

theorem expands_classpath : Expands [karafBase, javaHome]
    (batchCommandsText [ofString "-classpath %KARAF_BASE%/conf;%JAVA_HOME%/lib;%KARAF_BASE%/lib/*"])
    classpath.fill :=
  expands_template plain_shippedPair over_classpath (by decide +kernel)

end OsgiManager.ESB
