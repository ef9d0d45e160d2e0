import OsgiManager.Lib.Bytes

namespace OsgiManager.Lib

/-!
# Push parsers

A push parser is fed one byte at a time and answers, after each byte, that the input is
complete, that it is wrong, or that it wants more.  `parse` feeds it a buffer and `feed` one
buffer after the other; both stop at the first answer other than the last.

What a parser accepts from a state is given by a family of languages `L s`, each a relation
between the bytes to come and the result.  `Recognizes` says, one byte at a time, that the
parser computes the residuals of that family.

* `feed_eq_parse` — how the input is cut into buffers does not matter;
* `parse_spec` — a parser that recognizes `L` answers exactly what `L` says, at the right
  byte, and with the right result;
* `Decides` — the same about the bytes consumed alone.
-/

/-- The answers of a push parser. -/
inductive Verdict where
  | good | bad | indeterminate
deriving DecidableEq

namespace PushParser

variable {S D : Type*}

/-- Feeds a buffer: the answer, the state, and the bytes of the buffer left over. -/
def parse (consume : S → Byte → Verdict × S) : S → Bytes → Verdict × S × Bytes
  | s, []      => (.indeterminate, s, [])
  | s, b :: bs => match consume s b with
    | (.indeterminate, s') => parse consume s' bs
    | (v, s')              => (v, s', bs)

/-- Feeds one buffer after the other: the answer, the state, and the number of bytes consumed
    in all. -/
def feed (consume : S → Byte → Verdict × S) : S → List Bytes → Verdict × S × Nat
  | s, []            => (.indeterminate, s, 0)
  | s, buf :: bufs => match parse consume s buf with
    | (.indeterminate, s', _) =>
        let (v, s'', n) := feed consume s' bufs
        (v, s'', buf.length + n)
    | (v, s', left)           => (v, s', buf.length - left.length)

/-! ### Cutting the input -/

/-- The bytes left over are never more than those given. -/
theorem parse_left_le (consume : S → Byte → Verdict × S) (s : S) (bs : Bytes) :
    (parse consume s bs).2.2.length ≤ bs.length := by
  induction bs generalizing s with
  | nil => exact Nat.le_refl 0
  | cons b bs ih =>
    rw [parse, List.length_cons]
    rcases consume s b with ⟨_ | _ | _, t⟩
    · exact Nat.le_succ _
    · exact Nat.le_succ _
    · exact (ih t).trans (Nat.le_succ _)

/-- Feeding a concatenation. -/
theorem parse_append (consume : S → Byte → Verdict × S) (s : S) (as bs : Bytes) :
    parse consume s (as ++ bs) = match parse consume s as with
      | (.indeterminate, s', _) => parse consume s' bs
      | (v, s', left)           => (v, s', left ++ bs) := by
  induction as generalizing s with
  | nil => rfl
  | cons a as ih =>
    rw [List.cons_append, parse, parse]
    rcases consume s a with ⟨_ | _ | _, t⟩
    · rfl
    · rfl
    · exact ih t

/-- **Cutting.**  Feeding the input in buffers is feeding it whole. -/
theorem feed_eq_parse (consume : S → Byte → Verdict × S) (s : S) (bufs : List Bytes) :
    feed consume s bufs =
      ((parse consume s bufs.flatten).1, (parse consume s bufs.flatten).2.1,
        bufs.flatten.length - (parse consume s bufs.flatten).2.2.length) := by
  induction bufs generalizing s with
  | nil => rfl
  | cons buf bufs ih =>
    rw [feed, List.flatten_cons, parse_append]
    rcases parse consume s buf with ⟨v, t, left⟩
    cases v with
    | good | bad =>
      -- the buffers that are not looked at count on both sides
      simp only [List.length_append]
      rw [Nat.add_sub_add_right]
    | indeterminate =>
      have hle := parse_left_le consume t bufs.flatten
      simp only [ih t, List.length_append]
      rw [Nat.add_sub_assoc hle]

/-! ### Recognizing a family of languages -/

/-- Some continuation of `w` is in the language. -/
def Viable (L : Bytes → D → Prop) (w : Bytes) : Prop := ∃ y d, L (w ++ y) d

/-- `w` itself is in the language. -/
def Accepts (L : Bytes → D → Prop) (w : Bytes) : Prop := ∃ d, L w d

theorem Viable.front {L : Bytes → D → Prop} {v w : Bytes} (h : Viable L w) (hp : v <+: w) :
    Viable L v := by
  obtain ⟨y, d, hy⟩ := h
  obtain ⟨t, rfl⟩ := hp
  exact ⟨t ++ y, d, by rwa [← List.append_assoc]⟩

theorem Accepts.viable {L : Bytes → D → Prop} {w : Bytes} (h : Accepts L w) : Viable L w := by
  obtain ⟨d, hd⟩ := h
  exact ⟨[], d, by rwa [List.append_nil]⟩

/-- Byte by byte, the parser goes through the residuals of the languages `L s`; `out` is the
    result it holds when it says that the input is complete. -/
structure Recognizes (consume : S → Byte → Verdict × S) (L : S → Bytes → D → Prop)
    (out : S → D) : Prop where
  /-- No state is complete already. -/
  nil : ∀ s d, ¬ L s [] d
  /-- Every state can be completed. -/
  viable : ∀ s, ∃ y d, L s y d
  good : ∀ {s b s'}, consume s b = (.good, s') → ∀ y d, L s (b :: y) d ↔ y = [] ∧ d = out s'
  bad : ∀ {s b s'}, consume s b = (.bad, s') → ∀ y d, ¬ L s (b :: y) d
  next : ∀ {s b s'}, consume s b = (.indeterminate, s') → ∀ y d, L s (b :: y) d ↔ L s' y d

/-- The three ways in which a parser answers the input `bs` for the language `L`. -/
inductive Answers (L : Bytes → D → Prop) (out : S → D) (bs : Bytes) : Verdict × S × Bytes → Prop
  /-- The bytes consumed are in the language, with the parser's result and no other; no
      continuation of them is, and no shorter front part. -/
  | good {w left : Bytes} {s : S} (cut : bs = w ++ left)
      (accepts : ∀ y d, L (w ++ y) d ↔ y = [] ∧ d = out s)
      (rejects : ∀ v, v <+: w → v ≠ w → ¬ Accepts L v) : Answers L out bs (.good, s, left)
  /-- The last byte consumed is the first after which no continuation is in the language, and
      the bytes before it are not either. -/
  | bad {w left : Bytes} {b : Byte} {s : S} (cut : bs = w ++ b :: left) (viable : Viable L w)
      (dead : ¬ Viable L (w ++ [b])) (rejects : ∀ v, v <+: w → ¬ Accepts L v) :
      Answers L out bs (.bad, s, left)
  /-- The whole input is consumed; it can be continued, and no front part is in the
      language. -/
  | indeterminate {s : S} (viable : Viable L bs) (rejects : ∀ v, v <+: bs → ¬ Accepts L v) :
      Answers L out bs (.indeterminate, s, [])

/-- An answer for the residual after a byte is an answer for the language before it. -/
theorem Answers.cons {L L' : Bytes → D → Prop} {out : S → D} {b : Byte} {bs : Bytes}
    {r : Verdict × S × Bytes} (hnil : ∀ d, ¬ L [] d) (hnext : ∀ y d, L (b :: y) d ↔ L' y d)
    (h : Answers L' out bs r) : Answers L out (b :: bs) r := by
  have hviable : ∀ w, Viable L (b :: w) ↔ Viable L' w := fun w =>
    exists₂_congr fun y d => hnext (w ++ y) d
  have haccepts : ∀ w, Accepts L (b :: w) ↔ Accepts L' w := fun w =>
    exists_congr fun d => hnext w d
  -- a front part of `b :: w` is empty, or `b` before a front part of `w`
  have hprefix : ∀ {v w : Bytes}, v <+: b :: w → v = [] ∨ ∃ u, v = b :: u ∧ u <+: w := by
    rintro (_ | ⟨c, u⟩) w hv
    · exact .inl rfl
    · obtain ⟨hc, hu⟩ := List.cons_prefix_cons.mp hv
      exact .inr ⟨u, by rw [hc], hu⟩
  have hempty : ¬ Accepts L [] := fun ⟨d, hd⟩ => hnil d hd
  cases h with
  | @good w left s cut accepts rejects =>
    refine .good (w := b :: w) (congrArg (b :: ·) cut) (fun y d => ?_) fun v hv hne => ?_
    · rw [List.cons_append, hnext]
      exact accepts y d
    · rcases hprefix hv with rfl | ⟨u, rfl, hu⟩
      · exact hempty
      · exact mt (haccepts u).mp (rejects u hu fun h => hne (h ▸ rfl))
  | @bad w left c s cut viable dead rejects =>
    refine .bad (w := b :: w) (congrArg (b :: ·) cut) ((hviable _).mpr viable)
      (mt (hviable _).mp dead) fun v hv => ?_
    rcases hprefix hv with rfl | ⟨u, rfl, hu⟩
    · exact hempty
    · exact mt (haccepts u).mp (rejects u hu)
  | indeterminate viable rejects =>
    refine .indeterminate ((hviable _).mpr viable) fun v hv => ?_
    rcases hprefix hv with rfl | ⟨u, rfl, hu⟩
    · exact hempty
    · exact mt (haccepts u).mp (rejects u hu)

/-- **Correctness of a push parser.**  A parser that recognizes a family of languages answers
    every input as the language of its state says. -/
theorem parse_spec {consume : S → Byte → Verdict × S} {L : S → Bytes → D → Prop} {out : S → D}
    (h : Recognizes consume L out) (s : S) (bs : Bytes) :
    Answers (L s) out bs (parse consume s bs) := by
  have hnil : ∀ (s : S) (v : Bytes), v <+: [] → ¬ Accepts (L s) v := by
    rintro s v hv ⟨d, hd⟩
    rw [List.prefix_nil.mp hv] at hd
    exact h.nil s d hd
  induction bs generalizing s with
  | nil => exact .indeterminate (h.viable s) (hnil s)
  | cons b bs ih =>
    rw [parse]
    rcases hc : consume s b with ⟨_ | _ | _, t⟩
    · refine .good (w := [b]) rfl (h.good hc) fun v hv hne => ?_
      have hv' : v <+: [] := by
        rcases List.prefix_concat_iff.mp (show v <+: [] ++ [b] from hv) with rfl | hv
        · exact absurd rfl hne
        · exact hv
      exact hnil s v hv'
    · refine .bad (w := []) rfl (h.viable s) ?_ (hnil s)
      rintro ⟨y, d, hd⟩
      exact h.bad hc y d hd
    · exact (ih t).cons (h.nil s) (h.next hc)

/-- The bytes consumed are the input without what is left over. -/
theorem take_consumed {bs w left : Bytes} (cut : bs = w ++ left) :
    bs.take (bs.length - left.length) = w := by
  rw [cut, List.length_append, Nat.add_sub_cancel, List.take_left]

/-- If the input starts with an element of the language, that is what the parser stops at, with
    its result. -/
theorem Answers.of_accepts {L : Bytes → D → Prop} {out : S → D} {bs w left : Bytes} {v : Verdict}
    {s : S} {d : D} (h : Answers L out bs (v, s, left)) (hw : w <+: bs) (hL : L w d) :
    v = .good ∧ w = bs.take (bs.length - left.length) ∧ d = out s := by
  cases h with
  | @good u left s cut accepts rejects =>
    have hu : bs.take (bs.length - left.length) = u := take_consumed cut
    -- `w` cannot end before the bytes consumed do: the parser would have stopped there
    have huw : u <+: w := by
      by_contra hnot
      have hlen : w.length ≤ u.length := by
        by_contra hlt
        exact hnot (List.prefix_of_prefix_length_le ⟨left, cut.symm⟩ hw (by omega))
      have hwu := List.prefix_of_prefix_length_le hw ⟨left, cut.symm⟩ hlen
      refine rejects w hwu (fun heq => hnot ?_) ⟨d, hL⟩
      rw [heq]
    -- nothing beyond the bytes consumed is in the language
    obtain ⟨y, rfl⟩ := huw
    obtain ⟨rfl, hd⟩ := (accepts y d).mp hL
    exact ⟨rfl, by rw [hu, List.append_nil], hd⟩
  | @bad u left b s cut viable dead rejects =>
    have hub : u ++ [b] <+: bs := ⟨left, by rw [cut, List.append_assoc]; rfl⟩
    exfalso
    -- a `w` that goes on beyond the wrong byte would make it viable
    by_cases hlen : w.length ≤ u.length
    · exact rejects w (List.prefix_of_prefix_length_le hw ⟨b :: left, cut.symm⟩ hlen) ⟨d, hL⟩
    · have hpre : u ++ [b] <+: w := by
        refine List.prefix_of_prefix_length_le hub hw ?_
        rw [List.length_append, List.length_singleton]
        omega
      exact dead (Accepts.viable ⟨d, hL⟩ |>.front hpre)
  | indeterminate viable rejects => exact absurd ⟨d, hL⟩ (rejects w hw)

/-- What an answer says about the bytes consumed: they are in the language exactly if the
    answer is good, cannot be continued exactly if it is bad, and every shorter front part was
    still open. -/
structure Decides (L : Bytes → D → Prop) (bs consumed : Bytes) (v : Verdict) : Prop where
  consumed_front : consumed <+: bs
  good_iff : v = .good ↔ Accepts L consumed
  bad_iff : v = .bad ↔ ¬ Viable L consumed
  earlier : ∀ w, w <+: consumed → w ≠ consumed → Viable L w ∧ ¬ Accepts L w
  whole : v = .indeterminate → consumed = bs

theorem Answers.decides {L : Bytes → D → Prop} {out : S → D} {bs left : Bytes} {v : Verdict} {s : S}
    (h : Answers L out bs (v, s, left)) :
    Decides L bs (bs.take (bs.length - left.length)) v := by
  cases h with
  | @good w left s cut accepts rejects =>
    have hacc : Accepts L w := ⟨out s, by simpa using (accepts [] (out s)).mpr ⟨rfl, rfl⟩⟩
    rw [take_consumed cut]
    refine ⟨⟨left, cut.symm⟩, ⟨fun _ => hacc, fun _ => rfl⟩, ?_, fun v hv hne => ?_, nofun⟩
    · exact ⟨nofun, fun h => absurd hacc.viable h⟩
    · exact ⟨hacc.viable.front hv, rejects v hv hne⟩
  | @bad w left b s cut viable dead rejects =>
    -- the byte that was wrong has been consumed too
    have hcut : bs = (w ++ [b]) ++ left := by rw [cut, List.append_assoc]; rfl
    rw [take_consumed hcut]
    refine ⟨⟨left, hcut.symm⟩, ?_, ⟨fun _ => dead, fun _ => rfl⟩,
      fun v hv hne => ?_, nofun⟩
    · exact ⟨nofun, fun h => absurd h.viable dead⟩
    · rcases List.prefix_concat_iff.mp hv with rfl | hv
      · exact absurd rfl hne
      · exact ⟨viable.front hv, rejects v hv⟩
  | indeterminate viable rejects =>
    rw [List.length_nil, Nat.sub_zero, List.take_length]
    refine ⟨List.prefix_refl _, ?_, ?_, fun v hv _ => ?_, fun _ => rfl⟩
    · exact ⟨nofun, fun h => absurd h (rejects _ (List.prefix_refl _))⟩
    · exact ⟨nofun, fun h => absurd viable h⟩
    · exact ⟨viable.front hv, rejects v hv⟩

end PushParser

end OsgiManager.Lib
