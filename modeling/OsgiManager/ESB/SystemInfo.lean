import OsgiManager.ESB.Listing

namespace OsgiManager.ESB

open OsgiManager.Lib

/-!
# The system information report

A `SystemInfo` object has one string for each member; the model keeps them as a function
from the members.  `setValue` dispatches a report name to its member, and `GetSystemInfo`
feeds it the matching lines of a report.

* `SystemInfo.copy`, `SystemInfo.assign` — the copy constructor and the assignment operator
  of the source, neither of which looks at its argument;
* `fillSystemInfo` — the object `GetSystemInfo` fills line by line;
* `fillSystemInfo_eq_nil_iff` — a member stays empty exactly when the lines that name it
  bring no value.
-/

/-- The members of `SystemInfo`. -/
inductive Member where
  | javaVirtualMachine | version | vendor | pid | upTime | totalCompileTime
  | liveThreads | daemonThreads | peak | totalStarted
  | currentHeap | maximumHeap | committedHeap | pendingObjects | garbageCollector
  | currentClassesLoaded | totalClassesLoaded | totalClassesUnloaded
  | name | architecture | processors
deriving DecidableEq

/-- A `SystemInfo` object. -/
abbrev SystemInfo := Member → Bytes

/-- The default constructor: every string is empty. -/
def SystemInfo.new : SystemInfo := fun _ => []

/-- The copy constructor: its body is empty, so every member is default-constructed. -/
def SystemInfo.copy (_other : SystemInfo) : SystemInfo := SystemInfo.new

/-- `operator=`: with and without the self-assignment test, it returns `*this` untouched. -/
def SystemInfo.assign (this _rhs : SystemInfo) : SystemInfo := this

/-- The report names in the order in which `setValue` tests them, each with the member its
    branch writes.  `Live threads` is tested twice. -/
def reportNames : List (Bytes × Member) :=
  [ (ofString "Architecture", .architecture),
    (ofString "Committed heap size", .committedHeap),
    (ofString "Current classes loaded", .currentClassesLoaded),
    (ofString "Current heap size", .currentHeap),
    (ofString "Daemon threads", .daemonThreads),
    (ofString "Garbage collector", .garbageCollector),
    (ofString "Java Virtual Machine", .javaVirtualMachine),
    (ofString "Live threads", .liveThreads),
    (ofString "Live threads", .liveThreads),
    (ofString "Maximum heap size", .maximumHeap),
    (ofString "Name", .name),
    (ofString "Version", .version),
    (ofString "Vendor", .vendor),
    (ofString "Uptime", .upTime),
    (ofString "Total started", .totalStarted),
    (ofString "Total compile time", .totalCompileTime),
    (ofString "Total classes unloaded", .totalClassesUnloaded),
    (ofString "Total classes loaded", .totalClassesLoaded),
    (ofString "Processors", .processors),
    (ofString "Pid", .pid),
    (ofString "Pending objects", .pendingObjects),
    (ofString "Peak", .peak) ]

/-- What the branch of a member stores: the garbage collectors accumulate, one to a line,
    and every other member is overwritten. -/
def storedValue (info : SystemInfo) (m : Member) (value : Bytes) : Bytes :=
  if m = .garbageCollector ∧ (info m).length > 0 then info m ++ (ofString "\n" ++ value) else value

/-- `setValue`: the first branch whose name matches; no branch, no change. -/
def SystemInfo.setValue (info : SystemInfo) (name value : Bytes) : SystemInfo :=
  match reportNames.lookup name with
  | some m => Function.update info m (storedValue info m value)
  | none   => info

/-- The body of the loop over the lines of a report. -/
def readInfoLine (systemInfoParser : Matcher) (systemInfo : SystemInfo) (eachTextLine : Bytes) :
    SystemInfo :=
  match systemInfoParser.search eachTextLine with
  | some m => systemInfo.setValue (trim (m 1)) (trim (m 3))
  | none   => systemInfo

/-- The object `GetSystemInfo` fills line by line, before it is returned. -/
def fillSystemInfo (systemInfoParser : Matcher) (systemInfoText : Bytes) : SystemInfo :=
  (lines systemInfoText).foldl (readInfoLine systemInfoParser) SystemInfo.new

/-! ### The values a text brings for a member -/

/-- The value a line brings for a member: its trimmed third group, when the line matches and
    its trimmed first group is the member's report name. -/
def lineValue (p : Matcher) (m : Member) (line : Bytes) : Option Bytes :=
  (p.search line).bind fun groups =>
    if reportNames.lookup (trim (groups 1)) = some m then some (trim (groups 3)) else none

/-- The values a text brings for a member, in order. -/
def valuesOf (p : Matcher) (m : Member) (text : Bytes) : List Bytes :=
  (lines text).filterMap (lineValue p m)

/-- A line writes the members it brings a value for, and no other. -/
theorem readInfoLine_apply (p : Matcher) (info : SystemInfo) (line : Bytes) (m : Member) :
    readInfoLine p info line m =
      ((lineValue p m line).map (storedValue info m)).getD (info m) := by
  rw [readInfoLine, lineValue]
  cases p.search line with
  | none => rfl
  | some groups =>
    simp only [Option.bind_some, SystemInfo.setValue]
    cases hn : reportNames.lookup (trim (groups 1)) with
    | none => simp
    | some m' =>
      by_cases hm : m' = m
      · subst hm
        simp
      · -- the line is about another member
        have hm' : ¬ m = m' := fun h => hm h.symm
        simp [Function.update_of_ne hm', hm]

/-- A member after the lines of a text is its old value, with the values the lines bring for
    it stored one after the other. -/
theorem foldl_readInfoLine (p : Matcher) (m : Member) (ls : List Bytes) (info : SystemInfo) :
    ls.foldl (readInfoLine p) info m =
      (ls.filterMap (lineValue p m)).foldl (fun old v => storedValue (fun _ => old) m v)
        (info m) := by
  induction ls generalizing info with
  | nil => rfl
  | cons line ls ih =>
    rw [List.foldl_cons, ih, readInfoLine_apply, List.filterMap_cons]
    cases lineValue p m line <;> rfl

/-- An overwritten member holds the last value. -/
theorem foldl_storedValue_of_ne {m : Member} (hm : m ≠ .garbageCollector) (vs : List Bytes)
    (old : Bytes) :
    vs.foldl (fun old v => storedValue (fun _ => old) m v) old = vs.getLast?.getD old := by
  induction vs generalizing old with
  | nil => rfl
  | cons v vs ih =>
    rw [List.foldl_cons, ih, storedValue, if_neg (by simp [hm]), List.getLast?_cons]
    rfl

/-- The accumulating member stays empty exactly when all values are empty. -/
theorem foldl_storedValue_gc_eq_nil_iff (vs : List Bytes) (old : Bytes) :
    vs.foldl (fun old v => storedValue (fun _ => old) .garbageCollector v) old = [] ↔
      old = [] ∧ ∀ v ∈ vs, v = [] := by
  induction vs generalizing old with
  | nil => simp
  | cons v vs ih =>
    rw [List.foldl_cons, ih, storedValue, List.forall_mem_cons]
    by_cases ho : old = []
    · simp [ho]
    · have hpos : (0 : Nat) < old.length := List.length_pos_iff.mpr ho
      simp [ho, hpos]

/-- A text brings no value for a member: for the garbage collectors, no line has one; for
    any other member, the last line that names it has an empty one, if there is such a line. -/
def BringsNothing (p : Matcher) (text : Bytes) (m : Member) : Prop :=
  if m = .garbageCollector then ∀ v ∈ valuesOf p m text, v = []
  else ∀ v, (valuesOf p m text).getLast? = some v → v = []

/-- A member of the filled object is empty exactly when the text brings no value for it. -/
theorem fillSystemInfo_eq_nil_iff (p : Matcher) (text : Bytes) (m : Member) :
    fillSystemInfo p text m = [] ↔ BringsNothing p text m := by
  rw [fillSystemInfo, foldl_readInfoLine, BringsNothing, ← valuesOf]
  by_cases hm : m = .garbageCollector
  · subst hm
    rw [foldl_storedValue_gc_eq_nil_iff, if_pos rfl]
    simp [SystemInfo.new]
  · rw [foldl_storedValue_of_ne hm, if_neg hm]
    cases (valuesOf p m text).getLast? <;> simp [SystemInfo.new]

/-! ### The shipped expression -/

/-- `[ a-zA-z]`: the second range runs from `A` to a small `z`, so it has the six bytes
    between the two alphabets as well. -/
def infoNameClass (b : Byte) : Bool :=
  b = ' '.toUInt8 || ('a'.toUInt8 ≤ b && b ≤ 'z'.toUInt8) || ('A'.toUInt8 ≤ b && b ≤ 'z'.toUInt8)

/-- `[ a-zA-Z0-9=',\.:\-\(\)/\\_]` as a POSIX bracket expression: a backslash is an ordinary
    character there, and the range from backslash to backslash takes the hyphen's place. -/
def infoValueClass (b : Byte) : Bool :=
  letterClass b || ('0'.toUInt8 ≤ b && b ≤ '9'.toUInt8) || (ofString "=',\\.:()/_").contains b

/-- `systemInfoParser` of the configuration file, compiled as `std::regex::extended`:
    `^([ a-zA-z]+[ ])([ ]+)([ a-zA-Z0-9=',\.:\-\(\)/\\_]+)[ ]*$`.  The expression is anchored at
    both ends and has no alternatives, so letting earlier groups match as much as possible
    is what greedy backtracking does. -/
def systemInfoParser : Regex := .seqs
  [ .bol, .group 1 (.seqs [.plus infoNameClass, .set (· = ' '.toUInt8)]),
    .group 2 (.plus (· = ' '.toUInt8)), .group 3 (.plus infoValueClass),
    .star (· = ' '.toUInt8), .eol ]

end OsgiManager.ESB
