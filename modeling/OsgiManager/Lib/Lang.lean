import OsgiManager.Lib.Bytes

namespace OsgiManager.Lib

/-!
# Languages with an effect

A `Lang σ` relates a value, the bytes read from there on, and the value after them.  The
combinators build the languages of delimited formats back to front: each says what its own
bytes are and what they do to the value, and goes on as the language `k`.

Every combinator has a lemma that strips the first byte (`one_cons`, `many_cons`,
`skipMany_skip` and `skipMany_start`), one that says that it reads at least one byte, and one
that says that it can be completed from any value (`Productive`).
-/

/-- `L s y s'`: reading `y` from the value `s` gives the value `s'`. -/
abbrev Lang (σ : Type*) := σ → Bytes → σ → Prop

namespace Lang

variable {σ : Type*} {P B : Byte → Bool} {act : σ → Byte → σ} {d b : Byte} {k : Lang σ} {s s' : σ}
  {y : Bytes}

/-- Nothing more to read. -/
def done : Lang σ := fun s y s' => y = [] ∧ s' = s

/-- One byte of a class, which acts on the value. -/
def one (P : Byte → Bool) (act : σ → Byte → σ) (k : Lang σ) : Lang σ := fun s y s' =>
  ∃ b rest, y = b :: rest ∧ P b = true ∧ k (act s b) rest s'

/-- A fixed byte, without effect. -/
def byte (c : Byte) (k : Lang σ) : Lang σ := one (· = c) (fun s _ => s) k

/-- Any number of bytes of a class, each of which acts on the value, and a delimiter. -/
def many (P : Byte → Bool) (act : σ → Byte → σ) (d : Byte) (k : Lang σ) : Lang σ := fun s y s' =>
  ∃ w rest, y = w ++ d :: rest ∧ (∀ b ∈ w, P b = true) ∧ k (w.foldl act s) rest s'

/-- The same, after any number of bytes of a second class, which are passed over. -/
def skipMany (B P : Byte → Bool) (act : σ → Byte → σ) (d : Byte) (k : Lang σ) : Lang σ :=
  fun s y s' => ∃ w rest, y = w ++ d :: rest ∧ (∀ b ∈ w.dropWhile B, P b = true) ∧
    k ((w.dropWhile B).foldl act s) rest s'

theorem byte_iff {c : Byte} : byte c k s y s' ↔ ∃ rest, y = c :: rest ∧ k s rest s' := by
  constructor
  · rintro ⟨b, rest, rfl, hb, hk⟩
    rw [decide_eq_true_eq] at hb
    exact ⟨rest, by rw [hb], hk⟩
  · rintro ⟨rest, rfl, hk⟩
    exact ⟨c, rest, rfl, decide_eq_true rfl, hk⟩

/-! ### The first byte -/

theorem one_cons : one P act k s (b :: y) s' ↔ P b = true ∧ k (act s b) y s' := by
  constructor
  · rintro ⟨c, rest, h, hc, hk⟩
    cases h
    exact ⟨hc, hk⟩
  · rintro ⟨hb, hk⟩
    exact ⟨b, y, rfl, hb, hk⟩

theorem byte_cons {c : Byte} : byte c k s (b :: y) s' ↔ b = c ∧ k s y s' := by
  rw [byte, one_cons, decide_eq_true_eq]

theorem many_delim (hd : P d = false) : many P act d k s (d :: y) s' ↔ k s y s' := by
  constructor
  · rintro ⟨w, rest, h, hw, hk⟩
    rcases List.cons_eq_append_iff.mp h with ⟨rfl, h⟩ | ⟨w, rfl, rfl⟩
    · cases h
      exact hk
    · -- the class does not have the delimiter
      have hc := hw d (by simp)
      rw [hd] at hc
      cases hc
  · exact fun hk => ⟨[], y, rfl, by simp, hk⟩

theorem many_cons (hb : b ≠ d) :
    many P act d k s (b :: y) s' ↔ P b = true ∧ many P act d k (act s b) y s' := by
  constructor
  · rintro ⟨w, rest, h, hw, hk⟩
    rcases List.cons_eq_append_iff.mp h with ⟨rfl, h⟩ | ⟨w, rfl, rfl⟩
    · exact absurd (List.cons.inj h).1 hb
    · obtain ⟨hP, hw⟩ := List.forall_mem_cons.mp hw
      exact ⟨hP, w, rest, rfl, hw, hk⟩
  · rintro ⟨hP, w, rest, rfl, hw, hk⟩
    exact ⟨b :: w, rest, rfl, List.forall_mem_cons.mpr ⟨hP, hw⟩, hk⟩

theorem skipMany_delim (hB : B d = false) (hP : P d = false) :
    skipMany B P act d k s (d :: y) s' ↔ k s y s' := by
  constructor
  · rintro ⟨w, rest, h, hw, hk⟩
    rcases List.cons_eq_append_iff.mp h with ⟨rfl, h⟩ | ⟨w, rfl, rfl⟩
    · cases h
      exact hk
    · -- the delimiter is neither passed over nor in the class
      rw [List.dropWhile_cons_of_neg (by simp [hB])] at hw
      have hc := hw d (by simp)
      rw [hP] at hc
      cases hc
  · exact fun hk => ⟨[], y, rfl, by simp, hk⟩

/-- A byte of the second class is passed over. -/
theorem skipMany_skip (hb : b ≠ d) (hB : B b = true) :
    skipMany B P act d k s (b :: y) s' ↔ skipMany B P act d k s y s' := by
  constructor
  · rintro ⟨w, rest, h, hw, hk⟩
    rcases List.cons_eq_append_iff.mp h with ⟨rfl, h⟩ | ⟨w, rfl, rfl⟩
    · exact absurd (List.cons.inj h).1 hb
    · rw [List.dropWhile_cons_of_pos hB] at hw hk
      exact ⟨w, rest, rfl, hw, hk⟩
  · rintro ⟨w, rest, rfl, hw, hk⟩
    refine ⟨b :: w, rest, rfl, ?_, ?_⟩ <;> rw [List.dropWhile_cons_of_pos hB]
    · exact hw
    · exact hk

/-- After the first byte that is not passed over, no byte is. -/
theorem skipMany_start (hb : b ≠ d) (hB : B b = false) :
    skipMany B P act d k s (b :: y) s' ↔ P b = true ∧ many P act d k (act s b) y s' := by
  have hstart : ∀ w, (b :: w).dropWhile B = b :: w := fun w =>
    List.dropWhile_cons_of_neg (by simp [hB])
  constructor
  · rintro ⟨w, rest, h, hw, hk⟩
    rcases List.cons_eq_append_iff.mp h with ⟨rfl, h⟩ | ⟨w, rfl, rfl⟩
    · exact absurd (List.cons.inj h).1 hb
    · rw [hstart] at hw hk
      obtain ⟨hP, hw⟩ := List.forall_mem_cons.mp hw
      exact ⟨hP, w, rest, rfl, hw, hk⟩
  · rintro ⟨hP, w, rest, rfl, hw, hk⟩
    refine ⟨b :: w, rest, rfl, ?_, ?_⟩ <;> rw [hstart]
    · exact List.forall_mem_cons.mpr ⟨hP, hw⟩
    · exact hk

/-! ### The effect of several bytes -/

/-- A function that goes on as the bytes act is what they do together. -/
theorem foldl_act {run : Bytes → σ → σ} (hnil : ∀ s, run [] s = s)
    (hcons : ∀ b w s, run w (act s b) = run (b :: w) s) (w : Bytes) (s : σ) :
    w.foldl act s = run w s := by
  induction w generalizing s with
  | nil => exact (hnil s).symm
  | cons b w ih =>
    rw [List.foldl_cons, ih]
    exact hcons b w s

/-! ### At least one byte -/

theorem one_nil : ¬ one P act k s [] s' := by
  rintro ⟨b, rest, h, -⟩
  cases h

theorem byte_nil {c : Byte} : ¬ byte c k s [] s' := one_nil

theorem many_nil : ¬ many P act d k s [] s' := by
  rintro ⟨w, rest, h, -⟩
  simp at h

theorem skipMany_nil : ¬ skipMany B P act d k s [] s' := by
  rintro ⟨w, rest, h, -⟩
  simp at h

/-! ### Completion -/

/-- From every value there is something to read. -/
def Productive (L : Lang σ) : Prop := ∀ s, ∃ y s', L s y s'

theorem productive_done : Productive (done : Lang σ) := fun s => ⟨[], s, rfl, rfl⟩

theorem Productive.one (hk : Productive k) (hb : P b = true) : Productive (one P act k) := by
  intro s
  obtain ⟨y, s', hy⟩ := hk (act s b)
  exact ⟨b :: y, s', b, y, rfl, hb, hy⟩

theorem Productive.byte {c : Byte} (hk : Productive k) : Productive (byte c k) :=
  hk.one (b := c) (decide_eq_true rfl)

theorem Productive.many (hk : Productive k) : Productive (many P act d k) := by
  intro s
  obtain ⟨y, s', hy⟩ := hk s
  exact ⟨d :: y, s', [], y, rfl, by simp, hy⟩

theorem Productive.skipMany (hk : Productive k) : Productive (skipMany B P act d k) := by
  intro s
  obtain ⟨y, s', hy⟩ := hk s
  exact ⟨d :: y, s', [], y, rfl, by simp, hy⟩

end Lang

end OsgiManager.Lib
