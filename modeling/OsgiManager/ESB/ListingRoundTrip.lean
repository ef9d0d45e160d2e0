import OsgiManager.ESB.TableEntries
import OsgiManager.Lib.Cells
import OsgiManager.Lib.Greedy
import Mathlib.Data.List.Nodup

namespace OsgiManager.ESB

open OsgiManager.Lib OsgiManager.Lib.Regex

/-!
# Rendering a listing and reading it back

The lines the shipped list expression is made for, and what the table makes of them.

* `ListingRecord` — a line of a listing: five padded columns in brackets, a deploy path and a
  jar name;
* `search_render` — the columns the expression finds in such a line;
* `listing_round_trip` — a listing of records with distinct names parses to their bundles.
-/

/-! ### Records -/

/-- A digit. -/
def isDigit (b : Byte) : Bool := '0'.toUInt8 ≤ b && b ≤ '9'.toUInt8

/-- A letter. -/
def isLetter (b : Byte) : Bool :=
  ('a'.toUInt8 ≤ b && b ≤ 'z'.toUInt8) || ('A'.toUInt8 ≤ b && b ≤ 'Z'.toUInt8)

/-- A word over a class, with spaces on both sides. -/
structure Column (p : Byte → Bool) where
  left : Nat
  word : Bytes
  right : Nat
  word_ne_nil : word ≠ []
  word_over : ∀ b ∈ word, p b

/-- The column as it is printed between its brackets. -/
def Column.text {p : Byte → Bool} (c : Column p) : Bytes :=
  spaces c.left ++ (c.word ++ spaces c.right)

/-- A line of a listing. -/
structure ListingRecord where
  id : Column isDigit
  state : Column isLetter
  blueprint : Column isLetter
  spring : Column isLetter
  level : Column isDigit
  path : Bytes
  name : Bytes
  right : Nat
  path_ne_nil : path ≠ []
  path_line : ∀ b ∈ path, dotClass b
  name_line : ∀ b ∈ name, dotClass b
  name_slash : '/'.toUInt8 ∉ name
  name_head : name.head? ≠ some ' '.toUInt8
  name_jar : ofString ".jar" <:+ name

namespace ListingRecord

/-- The record as a line. -/
def render (r : ListingRecord) : Bytes :=
  ofString "[" ++ (r.id.text ++ (ofString "] [" ++ (r.state.text ++ (ofString "] [" ++
    (r.blueprint.text ++ (ofString "] [" ++ (r.spring.text ++ (ofString "] [" ++ (r.level.text ++
      (ofString "] file:" ++ (r.path ++ (ofString "/deploy/" ++
        (r.name ++ spaces r.right)))))))))))))

/-- The bundle a record describes. -/
def bundle (r : ListingRecord) : Bundle where
  id        := r.id.word
  state     := r.state.word
  blueprint := r.blueprint.word
  spring    := r.spring.word
  level     := r.level.word
  name      := r.name

end ListingRecord

/-! ### Columns -/

/-- A word without spaces is trimmed. -/
theorem trimmed_of_not_mem {w : Bytes} (h : ' '.toUInt8 ∉ w) : Trimmed w :=
  ⟨fun hh => h (List.mem_of_mem_head? hh), fun hl => h (List.mem_of_getLast? hl)⟩

section
variable {p q : Byte → Bool}

theorem Column.text_ne_nil (c : Column p) : c.text ≠ [] := by
  simp [Column.text, c.word_ne_nil]

/-- A printed column holds spaces and bytes of the word's class. -/
theorem Column.text_over (c : Column p) (hspace : q ' '.toUInt8) (hp : ∀ b, p b → q b) :
    ∀ b ∈ c.text, q b := by
  rw [Column.text, List.forall_mem_append, List.forall_mem_append]
  exact ⟨forall_mem_spaces hspace _, fun b hb => hp b (c.word_over b hb),
    forall_mem_spaces hspace _⟩

/-- Trimming a printed column gives the word. -/
theorem Column.trim_text (c : Column p) (hspace : ¬ p ' '.toUInt8) : trim c.text = c.word :=
  trim_pad c.left c.right c.word_ne_nil
    (trimmed_of_not_mem fun h => hspace (c.word_over _ h))

end

theorem digitClass_of_isDigit {b : Byte} (h : isDigit b) : digitClass b := by
  simp only [isDigit] at h
  simp [digitClass, h]

theorem letterClass_of_isLetter {b : Byte} (h : isLetter b) : letterClass b := by
  simp only [isLetter, Bool.or_eq_true] at h
  rw [letterClass, Bool.or_assoc, Bool.or_eq_true, Bool.or_eq_true]
  exact Or.inr h

/-! ### One line -/

/-- The list expression after its anchor. -/
def listColumns : Regex := seq (lit (ofString "["))
  (seq (.group 1 (.plus digitClass)) (seq (lit (ofString "] ["))
  (seq (.group 2 (.plus letterClass)) (seq (lit (ofString "] ["))
  (seq (.group 3 (.plus letterClass)) (seq (lit (ofString "] ["))
  (seq (.group 4 (.plus letterClass)) (seq (lit (ofString "] ["))
  (seq (.group 5 (.plus digitClass)) (seq (lit (ofString "] file:"))
  (seq (.plus dotClass) (seq (lit (ofString "/deploy/"))
  (seq (.group 6 (.seqs [.star dotClass, .set dotClass, .lit (ofString "jar")]))
  (seq (.star (· = ' '.toUInt8)) (seq .eol .eps)))))))))))))))

theorem listParser_eq : listParser = seq .bol listColumns := rfl

section
variable {k : Cursor → List Cursor} {c c' : Cursor}

/-- A captured column with a literal after it. -/
theorem head?_andThen_cell {p : Byte → Bool} {n : Nat} {w sep sep' rest : Bytes} {b : Byte}
    (hsep : sep = b :: sep') (hc : c.rest = w ++ (sep ++ rest)) (hne : w ≠ []) (hw : ∀ b ∈ w, p b)
    (hb : ¬ p b)
    (hk : (k ⟨c.before ++ w ++ sep, rest, Function.update c.groups n w⟩).head? = some c') :
    (andThen (group n (plus p)) (andThen (lit sep) k) c).head? = some c' := by
  rw [hsep] at hc
  refine head?_andThen_column hc hne hw hb ?_
  rw [andThen_lit (show _ = sep ++ rest by rw [hsep]; rfl)]
  exact hk

/-- The path ends at the last `/deploy/`: the name has no slash. -/
theorem head?_andThen_path {path tail : Bytes} (hc : c.rest = path ++ (ofString "/deploy/" ++ tail))
    (hne : path ≠ []) (hpath : ∀ b ∈ path, dotClass b) (htail : '/'.toUInt8 ∉ tail)
    (hk : (k ⟨c.before ++ path ++ ofString "/deploy/", tail, c.groups⟩).head? = some c') :
    (andThen (plus dotClass) (andThen (lit (ofString "/deploy/")) k) c).head? = some c' := by
  refine head?_andThen_plus hc hne hpath ?_ fun x u' hx hu _ => ?_
  · rw [andThen_lit rfl]
    exact hk
  · -- a later occurrence would need a third slash
    refine andThen_eq_nil fun c₁ h₁ => absurd ?_ htail
    have hu' : u' = ofString "/deploy/" ++ c₁.rest := (mem_run_lit h₁).1
    have hcount := congrArg (List.count '/'.toUInt8) hu
    obtain ⟨b, x, rfl⟩ := List.exists_cons_of_ne_nil hx
    have hb : b = '/'.toUInt8 := (List.cons.inj hu).1.symm
    have htwo : (ofString "/deploy/").count '/'.toUInt8 = 2 := by decide
    rw [hu', List.count_append, List.count_append, List.count_append, htwo, hb,
      List.count_cons_self] at hcount
    exact List.count_pos_iff.mp (by omega)

/-- The name ends at the last `.jar`, after which there are only spaces. -/
theorem head?_andThen_name {stem : Bytes} {n right : Nat}
    (hc : c.rest = stem ++ (ofString ".jar" ++ spaces right)) (hstem : ∀ b ∈ stem, dotClass b)
    (hk : (k ⟨c.before ++ (stem ++ ofString ".jar"), spaces right,
      Function.update c.groups n (stem ++ ofString ".jar")⟩).head? = some c') :
    (andThen (group n (seqs [.star dotClass, .set dotClass, .lit (ofString "jar")])) k c).head? =
      some c' := by
  have hseqs : seqs [.star dotClass, .set dotClass, .lit (ofString "jar")] =
      seq (.star dotClass) (seq (.set dotClass) (seq (.lit (ofString "jar")) .eps)) := rfl
  rw [andThen_group, hseqs]
  simp only [andThen_seq, andThen_eps]
  refine head?_andThen_star hc hstem ?_ fun x u' hx hu _ => ?_
  · have hdot : ofString ".jar" ++ spaces right =
        '.'.toUInt8 :: (ofString "jar" ++ spaces right) := rfl
    have hjar : stem ++ ('.'.toUInt8 :: ofString "jar") = stem ++ ofString ".jar" := rfl
    rw [andThen_set hdot (by decide), andThen_lit rfl]
    simpa [hjar] using hk
  · -- a later `jar` would bring in a second `j`
    refine andThen_eq_nil fun c₁ h₁ => andThen_eq_nil fun c₂ h₂ => ?_
    obtain ⟨b, rest, hb, _, rfl⟩ := mem_run_set.mp h₁
    have hrest : rest = ofString "jar" ++ c₂.rest := (mem_run_lit h₂).1
    have hu' : u' = b :: rest := hb
    obtain ⟨y, x, rfl⟩ := List.exists_cons_of_ne_nil hx
    have htail : ofString "jar" ++ spaces right = (x ++ [b]) ++ (ofString "jar" ++ c₂.rest) := by
      have := (List.cons.inj hu).2
      rw [hu', hrest] at this
      rw [List.append_assoc]
      exact this
    obtain ⟨z, front, hfront⟩ := List.exists_cons_of_ne_nil (show x ++ [b] ≠ [] by simp)
    rw [hfront] at htail
    have hz : z = 'j'.toUInt8 := (List.cons.inj htail).1.symm
    have hcount := congrArg (List.count 'j'.toUInt8) htail
    have hone : (ofString "jar").count 'j'.toUInt8 = 1 := by decide
    have hnone : (spaces right).count 'j'.toUInt8 = 0 :=
      List.count_eq_zero.mpr (not_mem_spaces (by decide) right)
    rw [List.count_append, List.count_append, List.count_append, hone, hnone, hz,
      List.count_cons_self] at hcount
    omega

end

namespace ListingRecord

variable (r : ListingRecord)

/-- The groups of the match: the printed columns and the name. -/
def groups : Nat → Bytes :=
  Function.update (Function.update (Function.update (Function.update (Function.update
    (Function.update (fun _ => []) 1 r.id.text) 2 r.state.text) 3 r.blueprint.text)
      4 r.spring.text) 5 r.level.text) 6 r.name

/-- **One line.**  The list expression finds the columns of a rendered record. -/
theorem search_render : listParser.matcher.search r.render = some r.groups := by
  obtain ⟨stem, hstem⟩ := r.name_jar
  have hdigit : ∀ c : Column isDigit, ∀ b ∈ c.text, digitClass b :=
    fun c => c.text_over (by decide) fun _ => digitClass_of_isDigit
  have hletter : ∀ c : Column isLetter, ∀ b ∈ c.text, letterClass b :=
    fun c => c.text_over (by decide) fun _ => letterClass_of_isLetter
  have htail : '/'.toUInt8 ∉ r.name ++ spaces r.right := by
    rw [List.mem_append, not_or]
    exact ⟨r.name_slash, not_mem_spaces (by decide) _⟩
  have hstemline : ∀ b ∈ stem, dotClass b :=
    fun b hb => r.name_line b (hstem ▸ List.mem_append_left _ hb)
  have hname : r.name ++ spaces r.right = stem ++ (ofString ".jar" ++ spaces r.right) := by
    rw [← hstem, List.append_assoc]
  have hrun : ∃ before, (run listColumns (start r.render 0)).head? =
      some ⟨before, [], r.groups⟩ := by
    apply Exists.intro
    rw [← andThen_singleton, listColumns]
    simp only [andThen_seq, andThen_eps]
    rw [andThen_lit (c := start r.render 0) rfl]
    -- five columns, the path and the name
    refine head?_andThen_cell rfl rfl r.id.text_ne_nil (hdigit _) (by decide) ?_
    refine head?_andThen_cell rfl rfl r.state.text_ne_nil (hletter _) (by decide) ?_
    refine head?_andThen_cell rfl rfl r.blueprint.text_ne_nil (hletter _) (by decide) ?_
    refine head?_andThen_cell rfl rfl r.spring.text_ne_nil (hletter _) (by decide) ?_
    refine head?_andThen_cell rfl rfl r.level.text_ne_nil (hdigit _) (by decide) ?_
    refine head?_andThen_path rfl r.path_ne_nil r.path_line htail ?_
    refine head?_andThen_name hname hstemline ?_
    rw [hstem]
    refine head?_andThen_star (List.append_nil _).symm (forall_mem_spaces (by decide) _) ?_ ?_
    · rw [andThen_eol rfl]
      rfl
    · exact fun x u' hx hu _ => absurd (List.append_eq_nil_iff.mp hu.symm).1 hx
  obtain ⟨before, hbefore⟩ := hrun
  show search listParser r.render = _
  rw [listParser_eq, search_bol, hbefore]
  rfl

/-- The bundle of a rendered record's match. -/
theorem bundleOfMatch_groups : bundleOfMatch r.groups = r.bundle := by
  have hname : trim r.name = r.name := by
    obtain ⟨stem, hstem⟩ := r.name_jar
    refine trim_of_trimmed (by rw [← hstem]; simp [ofString]) ⟨r.name_head, ?_⟩
    rw [← hstem, List.getLast?_append,
      show (ofString ".jar").getLast? = some 'r'.toUInt8 by decide, Option.some_or]
    decide
  simp only [bundleOfMatch, groups, bundle, ne_eq, Nat.reduceEqDiff, not_false_eq_true,
    Function.update_self, Function.update_of_ne, hname]
  rw [r.id.trim_text (by decide), r.state.trim_text (by decide), r.blueprint.trim_text (by decide),
    r.spring.trim_text (by decide), r.level.trim_text (by decide)]

/-- A rendered record is one line. -/
theorem newline_not_mem_render : '\n'.toUInt8 ∉ r.render := by
  have hcolumn : ∀ {p : Byte → Bool} (c : Column p), ¬ p '\n'.toUInt8 → '\n'.toUInt8 ∉ c.text := by
    intro p c hp h
    have hover := c.text_over (q := (· ≠ '\n'.toUInt8)) (by decide) fun b hb =>
      decide_eq_true fun heq => hp (heq ▸ hb)
    exact absurd (hover _ h) (by decide)
  have hid := hcolumn r.id (by decide)
  have hstate := hcolumn r.state (by decide)
  have hblueprint := hcolumn r.blueprint (by decide)
  have hspring := hcolumn r.spring (by decide)
  have hlevel := hcolumn r.level (by decide)
  have hpath : '\n'.toUInt8 ∉ r.path := fun h => absurd (r.path_line _ h) (by decide)
  have hname : '\n'.toUInt8 ∉ r.name := fun h => absurd (r.name_line _ h) (by decide)
  have hspaces : '\n'.toUInt8 ∉ spaces r.right := not_mem_spaces (by decide) _
  simp only [render, List.mem_append, not_or]
  exact ⟨by decide, hid, by decide, hstate, by decide, hblueprint, by decide, hspring, by decide,
    hlevel, by decide, hpath, by decide, hname, hspaces⟩

end ListingRecord

/-! ### The whole listing -/

/-- A listing: two leading lines, the records on lines of their own, and a line break at the
    end or none. -/
def listingText (first second : Bytes) (records : List ListingRecord) (final : Bool) : Bytes :=
  glue '\n'.toUInt8 (first :: second :: records.map ListingRecord.render) ++
    if final then ofString "\n" else []

/-- The lines the records are on, and an empty one after a final line break. -/
theorem drop_lines_listingText {first second : Bytes} (hfirst : '\n'.toUInt8 ∉ first)
    (hsecond : '\n'.toUInt8 ∉ second) (records : List ListingRecord) (final : Bool) :
    (lines (listingText first second records final)).drop 2 =
      records.map ListingRecord.render ++ if final then [[]] else [] := by
  have hcells : AreCells '\n'.toUInt8 (first :: second :: records.map ListingRecord.render) := by
    simp only [areCells_cons]
    refine ⟨hfirst, hsecond, fun line hline => ?_⟩
    obtain ⟨r, _, rfl⟩ := List.mem_map.mp hline
    exact r.newline_not_mem_render
  rw [lines, listingText]
  cases final with
  | false => simp [splitOn_glue hcells]
  | true =>
    have hbreak : ofString "\n" = ['\n'.toUInt8] := rfl
    rw [if_pos rfl, if_pos rfl, hbreak, List.splitOn_append_cons_self,
      splitOn_glue hcells (by simp)]
    rfl

/-- The matches in the lines of a listing are those of its records. -/
theorem matchesOf_listingText {first second : Bytes} (hfirst : '\n'.toUInt8 ∉ first)
    (hsecond : '\n'.toUInt8 ∉ second) (records : List ListingRecord) (final : Bool) :
    matchesOf listParser.matcher ((lines (listingText first second records final)).drop 2) =
      records.map ListingRecord.groups := by
  have hempty : listParser.matcher.search [] = none := by decide +kernel
  rw [drop_lines_listingText hfirst hsecond, matchesOf, List.filterMap_append, List.filterMap_map]
  have hrecords : records.filterMap (listParser.matcher.search ∘ ListingRecord.render) =
      records.map ListingRecord.groups := by
    rw [← List.filterMap_eq_map]
    exact List.filterMap_congr fun r _ => r.search_render
  rw [hrecords]
  cases final <;> simp [hempty]

/-- With distinct names, the last match with a name is the only one. -/
theorem lastNamed_groups {records : List ListingRecord}
    (hnames : (records.map ListingRecord.name).Nodup) (name : Bytes) (b : Bundle) :
    (lastNamed (records.map ListingRecord.groups) name).map bundleOfMatch = some b ↔
      ∃ r ∈ records, r.name = name ∧ r.bundle = b := by
  induction records generalizing b with
  | nil => simp [lastNamed]
  | cons r records ih =>
    obtain ⟨hr, hnames⟩ := List.nodup_cons.mp hnames
    rw [List.map_cons, lastNamed_cons, r.bundleOfMatch_groups]
    by_cases hname : r.name = name
    · -- no later record has this name
      have hnone : (lastNamed (records.map ListingRecord.groups) name).map bundleOfMatch = none := by
        rw [Option.eq_none_iff_forall_ne_some]
        intro b' hb'
        obtain ⟨r', hr', hr'name, _⟩ := (ih hnames b').mp hb'
        exact hr (List.mem_map.mpr ⟨r', hr', hr'name.trans hname.symm⟩)
      rw [Option.map_eq_none_iff.mp hnone, Option.none_or,
        if_pos (show r.bundle.name = name from hname), Option.map_some, Option.some.injEq,
        r.bundleOfMatch_groups]
      constructor
      · exact fun hb => ⟨r, by simp, hname, hb⟩
      · rintro ⟨r', hr', hr'name, rfl⟩
        rcases List.mem_cons.mp hr' with rfl | hr'
        · rfl
        · exact absurd (List.mem_map.mpr ⟨r', hr', hr'name.trans hname.symm⟩) hr
    · rw [if_neg (show ¬ r.bundle.name = name from hname), Option.or_none, ih hnames]
      simp [hname]

/-- **Round trip.**  A listing of records with distinct names parses to a table with exactly
    their bundles. -/
theorem listing_round_trip {first second : Bytes} (hfirst : '\n'.toUInt8 ∉ first)
    (hsecond : '\n'.toUInt8 ∉ second) {records : List ListingRecord}
    (hnames : (records.map ListingRecord.name).Nodup) (final : Bool) :
    (mapBundleNamesToBundlesId listParser.matcher
        (listingText first second records final)).toList.Perm
      (records.map fun r => (r.name, r.bundle)) := by
  have hkeys : (records.map fun r => (r.name, r.bundle)).Nodup :=
    List.Nodup.of_map Prod.fst (by rwa [List.map_map])
  refine (List.perm_ext_iff_of_nodup ?_ hkeys).mpr fun ⟨name, b⟩ => ?_
  · refine List.Pairwise.imp (fun hab heq => hab ?_) (Std.TreeMap.distinct_keys_toList)
    rw [heq]
    exact Std.ReflCmp.compare_self
  · rw [Std.TreeMap.mem_toList_iff_getElem?_eq_some, getElem?_mapBundleNamesToBundlesId,
      matchesOf_listingText hfirst hsecond, lastNamed_groups hnames, List.mem_map]
    simp only [Prod.mk.injEq]

/-- A bundle below a path that mentions a deploy directory itself. -/
def xomRecord : ListingRecord where
  id        := ⟨1, ofString "210", 0, by decide, by decide +kernel⟩
  state     := ⟨0, ofString "Active", 5, by decide, by decide +kernel⟩
  blueprint := ⟨0, ofString "Created", 5, by decide, by decide +kernel⟩
  spring    := ⟨0, ofString "Started", 1, by decide, by decide +kernel⟩
  level     := ⟨3, ofString "80", 0, by decide, by decide +kernel⟩
  path      := ofString "C:/deploy/jboss"
  name      := ofString "xom-1.2.5.jar"
  right     := 2
  path_ne_nil := by decide
  path_line   := by decide +kernel
  name_line   := by decide +kernel
  name_slash  := by decide
  name_head   := by decide
  name_jar    := by decide +kernel

/-- A bundle whose name has the extension, and a space, inside. -/
def copyRecord : ListingRecord :=
  { xomRecord with
    name       := ofString "xom.jar copy.jar"
    name_line  := by decide +kernel
    name_slash := by decide
    name_head  := by decide
    name_jar   := by decide +kernel }

theorem listing_round_trip_pair :
    (mapBundleNamesToBundlesId listParser.matcher (listingText (ofString "START LEVEL 100")
        (ofString "   ID   State") [xomRecord, copyRecord] true)).toList.Perm
      ([xomRecord, copyRecord].map fun r => (r.name, r.bundle)) :=
  listing_round_trip (by decide +kernel) (by decide +kernel) (by decide +kernel) true

end OsgiManager.ESB
