import OsgiManager.ESB.Bundle
import OsgiManager.Lib.Regex

namespace OsgiManager.ESB

open OsgiManager.Lib

/-!
# Reading a bundle listing

`MapBundleNamesToBundlesId` turns the text of the list command into a bundle table;
`GetDeadBundles` and `GetFailedBundles` pick the ids of one state out of a table.

* `mem_mapBundleNamesToBundlesId` — every entry of the table is the bundle of a matching line;
* `mem_bundleIdsInState` — the ids a state selects;
* `listParser` — the expression of the shipped configuration.
-/

/-- `trim`: the string between the first and the last byte that is no space; a string of
    spaces comes back unchanged. -/
def trim (str : Bytes) : Bytes :=
  match findFirstNotOf ' '.toUInt8 str, findLastNotOf ' '.toUInt8 str with
  | some first, some last => substr str first (last - first + 1)
  | _, _                  => str

theorem trim_isInfix (str : Bytes) : trim str <:+: str := by
  rw [trim]
  split
  · exact substr_isInfix _ _ _
  · exact List.infix_refl _

/-- The lines of a text: `boost::split` at line breaks. -/
def lines (text : Bytes) : List Bytes := text.splitOn '\n'.toUInt8

theorem lines_isInfix {text line : Bytes} (h : line ∈ lines text) : line <:+: text :=
  mem_splitOnP_isInfix h

/-- The `Bundle` object a match of the list expression is stored in. -/
def bundleOfMatch (m : Nat → Bytes) : Bundle where
  id        := trim (m 1)
  state     := trim (m 2)
  blueprint := trim (m 3)
  spring    := trim (m 4)
  level     := trim (m 5)
  name      := trim (m 6)

/-- The body of the loop over the lines. -/
def mapLine (regexListParser : Matcher) (bundles : BundleMap) (eachBundleLine : Bytes) :
    BundleMap :=
  match regexListParser.search eachBundleLine with
  -- a later line with the same name replaces the entry
  | some m => bundles.insert (bundleOfMatch m).name (bundleOfMatch m)
  | none   => bundles

/-- `MapBundleNamesToBundlesId`: the lines from the third on that match, keyed by name. -/
def mapBundleNamesToBundlesId (regexListParser : Matcher) (bundleList : Bytes) : BundleMap :=
  ((lines bundleList).drop 2).foldl (mapLine regexListParser) ∅

theorem foldl_mapLine {P : Bytes → Bundle → Prop} (p : Matcher) {ls : List Bytes}
    (hls : ∀ line ∈ ls, ∀ m, p.search line = some m → P (bundleOfMatch m).name (bundleOfMatch m))
    {bundles : BundleMap} (hb : ∀ name b, bundles[name]? = some b → P name b) :
    ∀ name b, (ls.foldl (mapLine p) bundles)[name]? = some b → P name b := by
  induction ls generalizing bundles with
  | nil => exact hb
  | cons line ls ih =>
    refine ih (fun l hl => hls l (List.mem_cons_of_mem _ hl)) ?_
    intro name b h
    rw [mapLine] at h
    split at h
    · rename_i m hm
      rw [Std.TreeMap.getElem?_insert] at h
      split at h
      · -- the entry of this line
        rename_i heq
        rw [Std.LawfulEqCmp.compare_eq_iff_eq] at heq
        cases Option.some.inj h
        exact heq ▸ hls line (by simp) m hm
      · exact hb name b h
    · exact hb name b h

/-- Every entry of the table is the fresh bundle of a matching line, under its own name. -/
theorem mem_mapBundleNamesToBundlesId {p : Matcher} {text name : Bytes} {b : Bundle}
    (h : (mapBundleNamesToBundlesId p text)[name]? = some b) :
    b.name = name ∧ ∃ line ∈ (lines text).drop 2, ∃ m, p.search line = some m ∧
      b = bundleOfMatch m := by
  let P : Bytes → Bundle → Prop := fun name b => b.name = name ∧
    ∃ line ∈ (lines text).drop 2, ∃ m, p.search line = some m ∧ b = bundleOfMatch m
  have hP : ∀ line ∈ (lines text).drop 2, ∀ m, p.search line = some m →
      P (bundleOfMatch m).name (bundleOfMatch m) :=
    fun line hl m hm => ⟨rfl, line, hl, m, hm, rfl⟩
  exact foldl_mapLine p hP (by simp) name b h

/-- A parse creates its bundles with the counter at zero. -/
theorem reStartCount_mapBundleNamesToBundlesId {p : Matcher} {text name : Bytes} {b : Bundle}
    (h : (mapBundleNamesToBundlesId p text)[name]? = some b) : b.reStartCount = 0 := by
  obtain ⟨_, _, _, m, _, rfl⟩ := mem_mapBundleNamesToBundlesId h
  rfl

/-! ### Ids by state -/

/-- The loop of `GetDeadBundles` and `GetFailedBundles`: the ids of the entries whose state
    is `st`, in the order of the map. -/
def bundleIdsInState (st : Bytes) (bundlesWithNameAndId : BundleMap) : List Bytes :=
  bundlesWithNameAndId.foldl
    (fun ids _ bundle => if bundle.state = st then ids ++ [bundle.id] else ids) []

/-- `GetDeadBundles`. -/
def getDeadBundles : BundleMap → List Bytes := bundleIdsInState (ofString "Dead")

/-- `GetFailedBundles`. -/
def getFailedBundles : BundleMap → List Bytes := bundleIdsInState (ofString "Failed")

/-- `GetListOfBundlesWhoesStateShouldBeEscalated`: still to do in the source. -/
def getListOfBundlesWhoesStateShouldBeEscalated (_bundlesWithNameAndId : BundleMap) :
    List Bytes := []

theorem mem_bundleIdsInState {st : Bytes} {bundles : BundleMap} {id : Bytes} :
    id ∈ bundleIdsInState st bundles ↔
      ∃ (name : Bytes) (b : Bundle), bundles[name]? = some b ∧ b.state = st ∧ b.id = id := by
  have key : ∀ (l : List (Bytes × Bundle)) (ids : List Bytes),
      id ∈ l.foldl (fun ids e => if e.2.state = st then ids ++ [e.2.id] else ids) ids ↔
        id ∈ ids ∨ ∃ e ∈ l, e.2.state = st ∧ e.2.id = id := by
    intro l
    induction l with
    | nil => simp
    | cons e l ih =>
      intro ids
      rw [List.foldl_cons, ih]
      by_cases he : e.2.state = st
      · simp [he, or_assoc, eq_comm]
      · simp [he]
  rw [bundleIdsInState, Std.TreeMap.foldl_eq_foldl_toList, key]
  simp only [List.not_mem_nil, false_or, Prod.exists, Std.TreeMap.mem_toList_iff_getElem?_eq_some]

/-- A table without entries has no ids in any state. -/
theorem bundleIdsInState_of_empty {bundles : BundleMap}
    (h : ∀ name : Bytes, bundles[name]? = none) (st : Bytes) :
    bundleIdsInState st bundles = [] := by
  rw [List.eq_nil_iff_forall_not_mem]
  intro id hid
  obtain ⟨name, b, hb, _⟩ := mem_bundleIdsInState.mp hid
  simp [h name] at hb

/-- The ids of a state depend on the records only. -/
theorem mem_bundleIdsInState_congr {m n : BundleMap} (h : SameRecords m n) (st id : Bytes) :
    id ∈ bundleIdsInState st m ↔ id ∈ bundleIdsInState st n := by
  have key : ∀ {m n : BundleMap}, SameRecords m n → id ∈ bundleIdsInState st m →
      id ∈ bundleIdsInState st n := by
    intro m n h hm
    obtain ⟨name, b, hb, hst, hid⟩ := mem_bundleIdsInState.mp hm
    obtain ⟨b', hb', hr⟩ := h.exists_getElem? hb
    have hc := Bundle.columns_of_record hr
    exact mem_bundleIdsInState.mpr ⟨name, b', hb', hc.2.1.trans hst, hc.1.trans hid⟩
  exact ⟨key h, key h.symm⟩

/-! ### The shipped expression -/

/-- `[ 0-9]`. -/
def digitClass (b : Byte) : Bool := b = ' '.toUInt8 || ('0'.toUInt8 ≤ b && b ≤ '9'.toUInt8)

/-- `[ a-zA-Z]`. -/
def letterClass (b : Byte) : Bool :=
  b = ' '.toUInt8 || ('a'.toUInt8 ≤ b && b ≤ 'z'.toUInt8) || ('A'.toUInt8 ≤ b && b ≤ 'Z'.toUInt8)

/-- `.`: any byte but a line terminator. -/
def dotClass (b : Byte) : Bool := b ≠ '\n'.toUInt8 && b ≠ '\r'.toUInt8

/-- `listParser` of the configuration file:
    `^\[([ 0-9]+)\] \[([ a-zA-Z]+)\] \[([ a-zA-Z]+)\] \[([ a-zA-Z]+)\] \[([ 0-9]+)\] file:.+/deploy/(.*.jar) *$`. -/
def listParser : Regex := .seqs
  [ .bol,
    .lit (ofString "["),   .group 1 (.plus digitClass),
    .lit (ofString "] ["), .group 2 (.plus letterClass),
    .lit (ofString "] ["), .group 3 (.plus letterClass),
    .lit (ofString "] ["), .group 4 (.plus letterClass),
    .lit (ofString "] ["), .group 5 (.plus digitClass),
    .lit (ofString "] file:"), .plus dotClass, .lit (ofString "/deploy/"),
    .group 6 (.seqs [.star dotClass, .set dotClass, .lit (ofString "jar")]),
    .star (· = ' '.toUInt8), .eol ]

end OsgiManager.ESB
