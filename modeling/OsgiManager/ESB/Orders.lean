import OsgiManager.ESB.Templates
import OsgiManager.Lib.Commuting

namespace OsgiManager.ESB

open OsgiManager.Lib

/-!
# The order of the members

`set_commands` is worked off in the order of the file, one member after the other, and a member
whose turn is over has no second one.  The order does not matter as long as no replacement
meets the placeholder of another member.

* `Undisturbed` — in no text that replacements make does that happen;
* `expansion_orderless` — then the expansion leaves no placeholder, and every order of the
  members leads to the same string;
* `orders_differ` — how an order can decide.
-/

/-- One replacement: some member's placeholder, where it stands first. -/
def Substitutes (set_commands : List SetCommand) (s t : Bytes) : Prop :=
  ∃ itr ∈ set_commands, expandBody itr.key itr.value s = .inl t

/-- Whatever replacements have been made, in whatever order: the next one meets no placeholder of
    another member, neither where it takes the placeholder out nor where it puts the value in. -/
def Undisturbed (set_commands : List SetCommand) (batchCommands : Bytes) : Prop :=
  ∀ t, Relation.ReflTransGen (Substitutes set_commands) batchCommands t →
    ∀ itr ∈ set_commands, ∀ other ∈ set_commands, itr.key ≠ other.key →
      Spares (placeholder itr.key) itr.value (placeholder other.key) t

/-- The expansion is the loops of the members in turn. -/
theorem expands_iff_inTurn {set_commands : List SetCommand} {s r : Bytes} :
    Expands set_commands s r ↔
      Loop.InTurn (fun itr => expandBody itr.key itr.value) set_commands s r := by
  induction set_commands generalizing s with
  | nil => exact expands_nil
  | cons itr set_commands ih =>
    rw [expands_cons]
    exact exists_congr fun t => and_congr_right' ih

/-- What the loops of a list of members leave has no placeholder of the last one. -/
theorem not_infix_of_expands_concat {set_commands : List SetCommand} {itr : SetCommand}
    {s r : Bytes} (h : Expands (set_commands ++ [itr]) s r) : ¬ placeholder itr.key <:+: r := by
  obtain ⟨t, -, hlast⟩ := expands_append.mp h
  obtain ⟨u, hu, hr⟩ := expands_cons.mp hlast
  rw [expands_nil.mp hr]
  exact not_infix_of_returns (expandBody_eq itr.key itr.value ▸ hu)

/-- **Order.**  If it is undisturbed, an expansion that ends leads to the same string in every
    order of the members. -/
theorem Undisturbed.expands_perm {set_commands reordered : List SetCommand}
    (hdistinct : (keysOf set_commands).Nodup) {batchCommands r : Bytes}
    (h : Undisturbed set_commands batchCommands) (hperm : reordered.Perm set_commands)
    (hr : Expands set_commands batchCommands r) : Expands reordered batchCommands r := by
  have hleaves : ∀ itr : SetCommand, Loop.Leaves (expandBody itr.key itr.value) :=
    fun itr => leaves_rewriteBody (placeholder itr.key) itr.value
  rw [expands_iff_inTurn] at hr ⊢
  refine Loop.InTurn.perm (I := Relation.ReflTransGen (Substitutes set_commands) batchCommands)
    hleaves hperm.symm ?_ ?_ .refl hr
  · intro itr hitr s s' hs hpass
    exact hs.tail ⟨itr, hitr, hpass⟩
  · -- two members have two keys, and so their passes commute
    rw [keysOf, List.nodup_iff_pairwise_ne, List.pairwise_map] at hdistinct
    refine hdistinct.imp_of_mem fun hitr hother hne s hs => ?_
    exact commuteAt_rewriteBody (placeholder_ne_nil _) (placeholder_ne_nil _)
      (h s hs _ hitr _ hother hne) (h s hs _ hother _ hitr hne.symm)

/-- **Complete and orderless.**  A member's own loop leaves no occurrence of its placeholder.
    And an expansion that ends and is undisturbed leaves no placeholder of any member, and leads
    to one and the same string in every order of the members. -/
theorem expansion_orderless {set_commands : List SetCommand}
    (hdistinct : (keysOf set_commands).Nodup) {batchCommands r : Bytes}
    (h : Undisturbed set_commands batchCommands) (hr : Expands set_commands batchCommands r) :
    (∀ key value s t, Loop.Returns (expandBody key value) s t → ¬ placeholder key <:+: t) ∧
      (∀ itr ∈ set_commands, ¬ placeholder itr.key <:+: r) ∧
      ∀ reordered : List SetCommand, reordered.Perm set_commands →
        Expands reordered batchCommands r := by
  refine ⟨fun key value s t ht => not_infix_of_returns (expandBody_eq key value ▸ ht), ?_,
    fun reordered hperm => h.expands_perm hdistinct hperm hr⟩
  intro itr hitr
  -- put the member last
  have hlast : (set_commands.erase itr ++ [itr]).Perm set_commands :=
    (List.perm_append_singleton itr _).trans (List.perm_cons_erase hitr).symm
  exact not_infix_of_expands_concat (h.expands_perm hdistinct hlast hr)

/-- A list of texts that replacements do not leave, and in which they are undisturbed. -/
theorem undisturbed_of_closed {set_commands : List SetCommand} {batchCommands : Bytes}
    (texts : List Bytes) (hmem : batchCommands ∈ texts)
    (hclosed : ∀ t ∈ texts, ∀ itr ∈ set_commands,
      ∀ u ∈ (expandBody itr.key itr.value t).getLeft?, u ∈ texts)
    (hspares : ∀ t ∈ texts, ∀ itr ∈ set_commands, ∀ other ∈ set_commands, itr.key ≠ other.key →
      Spares (placeholder itr.key) itr.value (placeholder other.key) t) :
    Undisturbed set_commands batchCommands := by
  intro t ht
  have hreached : t ∈ texts := by
    induction ht with
    | refl => exact hmem
    | tail _ hpass ih =>
      obtain ⟨itr, hitr, hpass⟩ := hpass
      exact hclosed _ ih itr hitr _ (by rw [hpass]; rfl)
  exact hspares t hreached

/-- A value with percent signs that name no member. -/
def driveBase : SetCommand := ⟨ofString "KARAF_BASE", ofString "%Drive%/esb"⟩

/-- A short value beside it. -/
def jdkHome : SetCommand := ⟨ofString "JAVA_HOME", ofString "C:/jdk"⟩

/-- A member that the command does not mention. -/
def heapShare : SetCommand := ⟨ofString "HEAP_SHARE", ofString "50%"⟩

/-- A command with two placeholders side by side, and an underscore before the third one. -/
def adjacentCommand : Bytes := ofString " %KARAF_BASE%%JAVA_HOME%_%KARAF_BASE%"

/-- The texts that replacements make of it. -/
def adjacentTexts : List Bytes :=
  [ adjacentCommand,
    ofString " %Drive%/esb%JAVA_HOME%_%KARAF_BASE%",
    ofString " %Drive%/esb%JAVA_HOME%_%Drive%/esb",
    ofString " %KARAF_BASE%C:/jdk_%KARAF_BASE%",
    ofString " %Drive%/esbC:/jdk_%KARAF_BASE%",
    ofString " %Drive%/esbC:/jdk_%Drive%/esb" ]

theorem undisturbed_adjacentCommand : Undisturbed [driveBase, jdkHome, heapShare] adjacentCommand :=
  undisturbed_of_closed adjacentTexts (by decide +kernel) (by decide +kernel) (by decide +kernel)

theorem expansion_adjacentCommand :
    (∀ key value s t, Loop.Returns (expandBody key value) s t → ¬ placeholder key <:+: t) ∧
      (∀ itr ∈ [driveBase, jdkHome, heapShare],
        ¬ placeholder itr.key <:+: ofString " %Drive%/esbC:/jdk_%Drive%/esb") ∧
      ∀ reordered : List SetCommand, reordered.Perm [driveBase, jdkHome, heapShare] →
        Expands reordered adjacentCommand (ofString " %Drive%/esbC:/jdk_%Drive%/esb") :=
  expansion_orderless (by decide +kernel) undisturbed_adjacentCommand ⟨3, by decide +kernel⟩

/-- A value that mentions the placeholder of another member. -/
def nested : SetCommand := ⟨ofString "KARAF_ETC", ofString "%KARAF_BASE%/etc"⟩

/-- Distinct keys are not enough.  A value may mention the placeholder of a member whose turn is
    over, two placeholders may share a percent sign, and a value may complete a key, be it beside
    plain text or beside the value of another member; in each case the order of two members
    decides. -/
theorem orders_differ :
    (Expands [karafBase, nested] (batchCommandsText [ofString "%KARAF_ETC%"])
        (ofString " %KARAF_BASE%/etc") ∧
      placeholder karafBase.key <:+: ofString " %KARAF_BASE%/etc" ∧
      Expands [nested, karafBase] (batchCommandsText [ofString "%KARAF_ETC%"])
        (ofString " C:/jboss/jboss-fuse-6.2.1.redhat-084/etc")) ∧
    (Expands [karafBase, javaHome] (batchCommandsText [ofString "%KARAF_BASE%JAVA_HOME%"])
        (ofString " C:/jboss/jboss-fuse-6.2.1.redhat-084JAVA_HOME%") ∧
      Expands [javaHome, karafBase] (batchCommandsText [ofString "%KARAF_BASE%JAVA_HOME%"])
        (ofString " %KARAF_BASEC:/Program Files/Java/jdk1.8.0_74")) ∧
    (Expands [karafBase, ⟨ofString "C:/jboss/jboss-fuse-6.2.1.redhat-084/", []⟩]
        (batchCommandsText [ofString "%%KARAF_BASE%/%"]) (ofString " ") ∧
      Expands [⟨ofString "C:/jboss/jboss-fuse-6.2.1.redhat-084/", []⟩, karafBase]
        (batchCommandsText [ofString "%%KARAF_BASE%/%"])
        (ofString " %C:/jboss/jboss-fuse-6.2.1.redhat-084/%")) ∧
    (Expands [⟨ofString "bc", ofString "x%b"⟩, ⟨ofString "k", []⟩]
        (batchCommandsText [ofString "%bc%%k%c%bc%"]) (ofString " x%bcx%b") ∧
      Expands [⟨ofString "k", []⟩, ⟨ofString "bc", ofString "x%b"⟩]
        (batchCommandsText [ofString "%bc%%k%c%bc%"]) (ofString " xx%bbc%")) :=
  ⟨⟨⟨2, by decide +kernel⟩, by decide +kernel, ⟨2, by decide +kernel⟩⟩,
    ⟨⟨2, by decide +kernel⟩, ⟨2, by decide +kernel⟩⟩,
    ⟨⟨2, by decide +kernel⟩, ⟨2, by decide +kernel⟩⟩,
    ⟨⟨3, by decide +kernel⟩, ⟨3, by decide +kernel⟩⟩⟩

end OsgiManager.ESB
