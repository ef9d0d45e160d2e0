import OsgiManager.Rapidjson.Itoa
import OsgiManager.Rapidjson.Numbers

namespace OsgiManager.Rapidjson

open OsgiManager.Lib

/-!
# Machine numbers

What becomes of a number in the reader, in a value and in the writer.  `ParseNumber` calls a
handler function for the smallest type that its loops say the digits fit into, a value keeps the
bits of a number and the types it fits into, and `Accept` calls the function for the first of these.

* `Number` — a call of one of the five handler functions for numbers;
* `Doubles.convert` — the call that the reader makes for a number text;
* `Number.data` — the constructors of `GenericValue`, and `NumberData.number` the choice that
  `Accept` makes;
* `Number.text` — what the writer puts out;
* `data_of_integer` — the data of an integer do not depend on the function it came by;
* `convert_text` — what the writer puts out for an integer is read as this integer.

The conversions between doubles and their texts are left out: `Doubles` stands for them.
-/

/-- The bits of a `double`. -/
abbrev Double := BitVec 64

/-- `Double::IsNanOrInf`. -/
def isNanOrInf (d : Double) : Bool := d &&& 0x7FF0000000000000 = 0x7FF0000000000000

/-- A call of `Int`, `Uint`, `Int64`, `Uint64` or `Double`. -/
inductive Number where
  | int (i : BitVec 32)
  | uint (u : BitVec 32)
  | int64 (i64 : BitVec 64)
  | uint64 (u64 : BitVec 64)
  | double (d : Double)
deriving DecidableEq

/-- The integer a call brings. -/
def Number.integer : Number → Option Int
  | .int i      => some i.toInt
  | .uint u     => some u.toNat
  | .int64 i64  => some i64.toInt
  | .uint64 u64 => some u64.toNat
  | .double _   => none

/-- `strtod` is the double that `ParseNumber` computes for a number text, or `none` where it gives
    up because the number is too big; `dtoa` is what `WriteDouble` puts out for a finite double. -/
structure Doubles where
  strtod : Bytes → Option Double
  dtoa : Double → Bytes

/-! ### In the reader -/

/-- The loops of `ParseNumber` over the digits of an integer: a digit that would take `i` past
    the bound is left, and so are those after it. -/
def digitLoop (limit : Nat) (last : Byte) : Nat → Bytes → Nat × Bytes
  | i, []      => (i, [])
  | i, c :: cs =>
      if i ≥ limit ∧ (i ≠ limit ∨ c > last) then (i, c :: cs)
      else digitLoop limit last (i * 10 + (c.toNat - '0'.toNat)) cs

/-- The loop for 32 bits and, if it leaves digits, the one for 64 bits; `none` if that leaves
    digits as well. -/
def parseDigits (limit limit64 : Nat) (last : Byte) (call : BitVec 32 → Number)
    (call64 : BitVec 64 → Number) (int : Bytes) : Option Number :=
  let i := digitLoop limit last 0 int
  if i.2 = [] then some (call (.ofNat 32 i.1))
  else
    -- use64bit
    let i64 := digitLoop limit64 last i.1 i.2
    if i64.2 = [] then some (call64 (.ofNat 64 i64.1)) else none

/-- The integer part of a number, with or without a minus; `none` if it takes a double. -/
def parseInteger (minus : Bool) (int : Bytes) : Option Number :=
  if minus then
    parseDigits 214748364 0x0CCCCCCCCCCCCCCC '8'.toUInt8 (fun i => .int (~~~i + 1))
      (fun i64 => .int64 (~~~i64 + 1)) int
  else parseDigits 429496729 0x1999999999999999 '5'.toUInt8 .uint .uint64 int

/-- The call for a number text.  With a fraction or an exponent, it is one of `Double`. -/
def Doubles.convert (D : Doubles) (text : Bytes) : Option Number :=
  let s := takeDigits (parseMinus text).2
  match if s.2 = [] then parseInteger ((parseMinus text).1 ≠ []) s.1 else none with
  | some n => some n
  | none   => (D.strtod text).map .double

/-- The number texts for which `ParseNumber` reports `kParseErrorNumberTooBig`. -/
def Doubles.tooBig (D : Doubles) (text : Bytes) : Bool := (D.convert text).isNone

/-! ### In a value -/

def kNumberType : BitVec 16 := 6
def kNumberFlag : BitVec 16 := 0x0010
def kIntFlag : BitVec 16 := 0x0020
def kUintFlag : BitVec 16 := 0x0040
def kInt64Flag : BitVec 16 := 0x0080
def kUint64Flag : BitVec 16 := 0x0100
def kDoubleFlag : BitVec 16 := 0x0200
def kNumberIntFlag : BitVec 16 := kNumberType ||| kNumberFlag ||| kIntFlag ||| kInt64Flag
def kNumberUintFlag : BitVec 16 :=
  kNumberType ||| kNumberFlag ||| kUintFlag ||| kUint64Flag ||| kInt64Flag
def kNumberInt64Flag : BitVec 16 := kNumberType ||| kNumberFlag ||| kInt64Flag
def kNumberUint64Flag : BitVec 16 := kNumberType ||| kNumberFlag ||| kUint64Flag
def kNumberDoubleFlag : BitVec 16 := kNumberType ||| kNumberFlag ||| kDoubleFlag

/-- The data of a `GenericValue` that is a number: the union `Number`, and the flags. -/
structure NumberData where
  n : BitVec 64
  flags : BitVec 16
deriving DecidableEq

/-- The constructors of `GenericValue` for numbers. -/
def Number.data : Number → NumberData
  | .int i => ⟨i.signExtend 64,
      if i.toInt ≥ 0 then kNumberIntFlag ||| kUintFlag ||| kUint64Flag else kNumberIntFlag⟩
  | .uint u => ⟨u.setWidth 64,
      if u &&& 0x80000000 ≠ 0 then kNumberUintFlag else kNumberUintFlag ||| kIntFlag ||| kInt64Flag⟩
  | .int64 i64 => ⟨i64, kNumberInt64Flag |||
      if i64.toInt ≥ 0 then
        kNumberUint64Flag ||| (if i64 &&& 0xFFFFFFFF00000000 = 0 then kUintFlag else 0) |||
          (if i64 &&& 0xFFFFFFFF80000000 = 0 then kIntFlag else 0)
      else if i64.toInt ≥ -0x80000000 then kIntFlag else 0⟩
  | .uint64 u64 => ⟨u64, kNumberUint64Flag |||
      (if u64 &&& 0x8000000000000000 = 0 then kInt64Flag else 0) |||
      (if u64 &&& 0xFFFFFFFF00000000 = 0 then kUintFlag else 0) |||
      (if u64 &&& 0xFFFFFFFF80000000 = 0 then kIntFlag else 0)⟩
  | .double d => ⟨d, kNumberDoubleFlag⟩

/-- The call that `Accept` makes for a number. -/
def NumberData.number (data : NumberData) : Number :=
  if data.flags &&& kDoubleFlag ≠ 0 then .double data.n
  else if data.flags &&& kIntFlag ≠ 0 then .int (data.n.setWidth 32)
  else if data.flags &&& kUintFlag ≠ 0 then .uint (data.n.setWidth 32)
  else if data.flags &&& kInt64Flag ≠ 0 then .int64 data.n
  else .uint64 data.n

/-! ### In the writer -/

/-- What is put out for a number; nothing for a double that is not finite. -/
def Number.text (D : Doubles) : Number → Bytes
  | .int i      => i32toa i
  | .uint u     => u32toa u.toNat
  | .int64 i64  => i64toa i64
  | .uint64 u64 => u64toa u64.toNat
  | .double d   => if isNanOrInf d then [] else D.dtoa d

/-! ### What the reader makes of digits -/

variable {n : Number} {z : Int} {D : Doubles}

theorem le_valueFrom (ds : Bytes) (i : Nat) : i ≤ Decimal.valueFrom i ds := by
  induction ds generalizing i with
  | nil => exact le_refl i
  | cons c ds ih =>
    have h := ih (Response.naturalStep i c)
    rw [Response.naturalStep] at h
    exact le_trans (by omega) h

/-- A digit. -/
theorem toNat_of_isDigit {c : Byte} (h : Json.isDigit c = true) : 48 ≤ c.toNat ∧ c.toNat ≤ 57 := by
  simp only [Json.isDigit, Bool.and_eq_true, decide_eq_true_eq] at h
  exact h

/-- **One loop.**  It takes all digits if the number they write is within its bound.  If not, it
    leaves some, and the number so far is within the bound. -/
theorem digitLoop_spec {limit : Nat} {last : Byte} (hlast : Json.isDigit last = true) {ds : Bytes}
    (hds : ∀ c ∈ ds, Json.isDigit c = true) {i : Nat} (hi : i ≤ limit * 10 + (last.toNat - 48)) :
    (Decimal.valueFrom i ds ≤ limit * 10 + (last.toNat - 48) ∧
        digitLoop limit last i ds = (Decimal.valueFrom i ds, [])) ∨
      limit * 10 + (last.toNat - 48) < Decimal.valueFrom i ds ∧ ∃ j c cs,
        digitLoop limit last i ds = (j, c :: cs) ∧ j ≤ limit * 10 + (last.toNat - 48) ∧
          Decimal.valueFrom j (c :: cs) = Decimal.valueFrom i ds ∧
          ∀ b ∈ c :: cs, Json.isDigit b = true := by
  induction ds generalizing i with
  | nil => exact .inl ⟨hi, rfl⟩
  | cons c ds ih =>
    have hc := toNat_of_isDigit (hds c List.mem_cons_self)
    have hl := toNat_of_isDigit hlast
    have hvalue : Decimal.valueFrom i (c :: ds) = Decimal.valueFrom (i * 10 + (c.toNat - 48)) ds :=
      rfl
    have hle := le_valueFrom ds (i * 10 + (c.toNat - 48))
    rw [digitLoop, hvalue]
    split_ifs with hstop
    · -- the next digit takes the number past the bound
      have hpast : limit * 10 + (last.toNat - 48) < i * 10 + (c.toNat - 48) := by
        rcases hstop.2 with hne | hgt
        · omega
        · have hgt' : last.toNat < c.toNat := hgt
          omega
      exact .inr ⟨by omega, i, c, ds, rfl, hi, rfl, hds⟩
    · have hwithin : i * 10 + (c.toNat - 48) ≤ limit * 10 + (last.toNat - 48) := by
        rw [not_and_or, not_or, not_not] at hstop
        rcases hstop with hlt | ⟨heq, hle'⟩
        · omega
        · have hle'' : c.toNat ≤ last.toNat := Nat.not_lt.mp hle'
          omega
      exact ih (fun b hb => hds b (List.mem_cons_of_mem c hb)) hwithin

/-- **Both loops.**  The number is taken in 32 bits if it fits, else in 64 bits if it fits. -/
theorem parseDigits_eq {limit limit64 : Nat} {last : Byte} (hlast : Json.isDigit last = true)
    (hlimit : limit ≤ limit64) (call : BitVec 32 → Number) (call64 : BitVec 64 → Number)
    {int : Bytes} (hint : ∀ c ∈ int, Json.isDigit c = true) :
    parseDigits limit limit64 last call call64 int =
      if Decimal.value int ≤ limit * 10 + (last.toNat - 48) then
        some (call (.ofNat 32 (Decimal.value int)))
      else if Decimal.value int ≤ limit64 * 10 + (last.toNat - 48) then
        some (call64 (.ofNat 64 (Decimal.value int)))
      else none := by
  rw [parseDigits]
  rcases digitLoop_spec hlast hint (Nat.zero_le _) with
    ⟨hfits, hloop⟩ | ⟨hpast, j, c, cs, hloop, hj, hvalue, hcs⟩
  · rw [hloop, Decimal.value, if_pos rfl, if_pos hfits]
  rw [hloop, if_neg (List.cons_ne_nil c cs), Decimal.value, if_neg (Nat.not_le.mpr hpast)]
  -- the second loop goes on where the first one has stopped
  have hj' : j ≤ limit64 * 10 + (last.toNat - 48) := by omega
  rcases digitLoop_spec hlast hcs hj' with
    ⟨hfits, hloop'⟩ | ⟨hpast', j', c', cs', hloop', -⟩
  · rw [hvalue] at hfits hloop'
    rw [hloop', if_pos rfl, if_pos hfits]
  · rw [hvalue] at hpast'
    rw [hloop', if_neg (List.cons_ne_nil c' cs'), if_neg (Nat.not_le.mpr hpast')]

theorem neg_ofNat (w n : Nat) : ~~~BitVec.ofNat w n + 1 = BitVec.ofInt w (-n) := by
  rw [BitVec.ofInt_neg, BitVec.ofInt_natCast]
  exact (BitVec.neg_eq_not_add _).symm

/-- Without a minus, the call is one of `Uint`, `Uint64` and `Double`. -/
theorem parseInteger_plus {int : Bytes} (hint : ∀ c ∈ int, Json.isDigit c = true) :
    parseInteger false int =
      if Decimal.value int ≤ 4294967295 then some (.uint (.ofNat 32 (Decimal.value int)))
      else if Decimal.value int ≤ 18446744073709551615 then
        some (.uint64 (.ofNat 64 (Decimal.value int)))
      else none :=
  parseDigits_eq (show Json.isDigit '5'.toUInt8 = true by decide)
    (show 429496729 ≤ 0x1999999999999999 by decide) .uint .uint64 hint

/-- With a minus, it is one of `Int`, `Int64` and `Double`. -/
theorem parseInteger_minus {int : Bytes} (hint : ∀ c ∈ int, Json.isDigit c = true) :
    parseInteger true int =
      if Decimal.value int ≤ 2147483648 then some (.int (.ofInt 32 (-Decimal.value int)))
      else if Decimal.value int ≤ 9223372036854775808 then
        some (.int64 (.ofInt 64 (-Decimal.value int)))
      else none := by
  rw [← neg_ofNat, ← neg_ofNat]
  exact parseDigits_eq (show Json.isDigit '8'.toUInt8 = true by decide)
    (show 214748364 ≤ 0x0CCCCCCCCCCCCCCC by decide) (fun i => .int (~~~i + 1))
    (fun i64 => .int64 (~~~i64 + 1)) hint

/-! ### What a value keeps -/

/-- The data of an integer: its bits, and each type it fits into. -/
def integerData (z : Int) : NumberData :=
  ⟨.ofInt 64 z, kNumberType ||| kNumberFlag |||
    (if -2147483648 ≤ z ∧ z < 2147483648 then kIntFlag else 0) |||
    (if 0 ≤ z ∧ z < 4294967296 then kUintFlag else 0) |||
    (if z < 9223372036854775808 then kInt64Flag else 0) |||
    (if 0 ≤ z then kUint64Flag else 0)⟩

/-- A mask of all bits from `k` on tells whether a number is less than `2 ^ k`. -/
theorem and_mask_eq_zero_iff {w k : Nat} (hk : k < w) (x : BitVec w) :
    x &&& (BitVec.allOnes w <<< k) = 0 ↔ x.toNat < 1 <<< k := by
  rw [Nat.one_shiftLeft, BitVec.toNat_lt_iff_getLsbD_eq_false k hk]
  constructor
  · intro h i
    rcases Nat.lt_or_ge (k + i) w with hlt | hge
    · have hbit := congrArg (fun y => y.getLsbD (k + i)) h
      have hmask : (BitVec.allOnes w <<< k).getLsbD (k + i) = true := by
        simp
        omega
      rw [BitVec.getLsbD_and, hmask, Bool.and_true] at hbit
      exact hbit.trans BitVec.getLsbD_zero
    · exact BitVec.getLsbD_of_ge x (k + i) hge
  · intro h
    apply BitVec.eq_of_getLsbD_eq
    intro i hi
    rcases Nat.lt_or_ge i k with hlt | hge
    · simp [hlt]
    · have hbit := h (i - k)
      rw [Nat.add_sub_cancel' hge] at hbit
      simp [hbit]

theorem and_0x80000000 (u : BitVec 32) : u &&& 0x80000000 = 0 ↔ u.toNat < 2147483648 :=
  and_mask_eq_zero_iff (show 31 < 32 by decide) u

/-- The masks of the constructors for 64 bits. -/
theorem and_masks (u : BitVec 64) :
    (u &&& 0xFFFFFFFF80000000 = 0 ↔ u.toNat < 2147483648) ∧
      (u &&& 0xFFFFFFFF00000000 = 0 ↔ u.toNat < 4294967296) ∧
      (u &&& 0x8000000000000000 = 0 ↔ u.toNat < 9223372036854775808) :=
  ⟨and_mask_eq_zero_iff (show 31 < 64 by decide) u, and_mask_eq_zero_iff (show 32 < 64 by decide) u,
    and_mask_eq_zero_iff (show 63 < 64 by decide) u⟩

/-- **The data of an integer** do not depend on the function it came by. -/
theorem data_of_integer (h : n.integer = some z) : n.data = integerData z := by
  cases n with
  | double d => cases h
  | int i =>
    cases h
    have hlt := i.toInt_lt
    have hge := i.le_toInt
    rw [Number.data, integerData, NumberData.mk.injEq]
    refine ⟨rfl, ?_⟩
    split_ifs <;> first | omega | decide
  | uint u =>
    cases h
    have hlt := u.isLt
    rw [Number.data, integerData, NumberData.mk.injEq, BitVec.ofInt_natCast, BitVec.ofNat_toNat]
    refine ⟨rfl, ?_⟩
    simp only [ne_eq, and_0x80000000]
    split_ifs <;> first | omega | decide
  | int64 i64 =>
    cases h
    have hlt := i64.isLt
    have hcond := i64.toInt_eq_toNat_cond
    rw [Number.data, integerData, NumberData.mk.injEq, BitVec.ofInt_toInt]
    refine ⟨rfl, ?_⟩
    simp only [and_masks]
    split_ifs <;> first | omega | decide
  | uint64 u64 =>
    cases h
    have hlt := u64.isLt
    rw [Number.data, integerData, NumberData.mk.injEq, BitVec.ofInt_natCast, BitVec.ofNat_toNat,
      BitVec.setWidth_eq]
    refine ⟨rfl, ?_⟩
    simp only [and_masks]
    split_ifs <;> first | omega | decide

theorem integer_bounds (h : n.integer = some z) :
    -9223372036854775808 ≤ z ∧ z < 18446744073709551616 := by
  cases n with
  | double d => cases h
  | int i =>
    cases h
    have hlt := i.toInt_lt
    have hge := i.le_toInt
    omega
  | uint u =>
    cases h
    have hlt := u.isLt
    omega
  | int64 i64 =>
    cases h
    have hlt := i64.toInt_lt
    have hge := i64.le_toInt
    omega
  | uint64 u64 =>
    cases h
    have hlt := u64.isLt
    omega

/-- The first of `Int`, `Uint`, `Int64` and `Uint64` that an integer fits into. -/
def narrowest (z : Int) : Number :=
  if -2147483648 ≤ z ∧ z < 2147483648 then .int (.ofInt 32 z)
  else if 0 ≤ z ∧ z < 4294967296 then .uint (.ofInt 32 z)
  else if z < 9223372036854775808 then .int64 (.ofInt 64 z)
  else .uint64 (.ofInt 64 z)

theorem setWidth_ofInt (z : Int) : (BitVec.ofInt 64 z).setWidth 32 = BitVec.ofInt 32 z := by
  apply BitVec.eq_of_toNat_eq
  rw [BitVec.toNat_setWidth, BitVec.toNat_ofInt, BitVec.toNat_ofInt]
  omega

/-- The flags of an integer tell which types it fits into. -/
theorem integerData_flags (z : Int) :
    (integerData z).flags &&& kDoubleFlag = 0 ∧
      ((integerData z).flags &&& kIntFlag ≠ 0 ↔ -2147483648 ≤ z ∧ z < 2147483648) ∧
      ((integerData z).flags &&& kUintFlag ≠ 0 ↔ 0 ≤ z ∧ z < 4294967296) ∧
      ((integerData z).flags &&& kInt64Flag ≠ 0 ↔ z < 9223372036854775808) := by
  dsimp only [integerData]
  split_ifs <;> refine ⟨by decide, ?_, ?_, ?_⟩ <;>
    first | exact iff_of_true (by decide) ‹_› | exact iff_of_false (by decide) ‹_›

/-- **The choice of `Accept`.** -/
theorem number_integerData (z : Int) : (integerData z).number = narrowest z := by
  obtain ⟨hdouble, hint, huint, hint64⟩ := integerData_flags z
  rw [NumberData.number, if_neg (not_not.mpr hdouble), narrowest]
  simp only [hint, huint, hint64]
  rw [show (integerData z).n = BitVec.ofInt 64 z from rfl, setWidth_ofInt]

theorem integer_narrowest (h : -9223372036854775808 ≤ z ∧ z < 18446744073709551616) :
    (narrowest z).integer = some z := by
  rw [narrowest]
  split_ifs with hint huint hint64
  · rw [Number.integer, BitVec.toInt_ofInt_eq_self (by decide) (by omega) (by omega)]
  · rw [Number.integer, BitVec.toNat_ofInt, Option.some.injEq]
    omega
  · rw [Number.integer, BitVec.toInt_ofInt_eq_self (by decide) (by omega) (by omega)]
  · rw [Number.integer, BitVec.toNat_ofInt, Option.some.injEq]
    omega

/-! ### What is put out is read again -/

/-- An integer in decimal. -/
def integerText (z : Int) : Bytes :=
  (if z < 0 then ['-'.toUInt8] else []) ++ Decimal.text z.natAbs

/-- The magnitude of a negative number, as `i32toa` and `i64toa` compute it. -/
theorem toNat_not_add_one {w : Nat} (x : BitVec w) (h : x.toInt < 0) :
    (~~~x + 1).toNat = x.toInt.natAbs := by
  have hneg : ~~~x + 1 = -x := (BitVec.neg_eq_not_add x).symm
  have hlt := x.isLt
  rw [hneg, BitVec.toNat_neg]
  rw [BitVec.toInt_eq_toNat_cond] at h ⊢
  split_ifs at h ⊢ with hhalf
  · omega
  · rw [Nat.mod_eq_of_lt (by omega)]
    omega

/-- **What is put out for an integer** does not depend on the function it came by. -/
theorem text_of_integer (h : n.integer = some z) : n.text D = integerText z := by
  cases n with
  | double d => cases h
  | int i =>
    cases h
    have hlt := i.isLt
    have hcond := i.toInt_eq_toNat_cond
    rw [Number.text, i32toa, integerText]
    split_ifs with hneg
    · rw [toNat_not_add_one i hneg, u32toa_eq (by omega)]
      rfl
    · rw [u32toa_eq (by omega), List.nil_append]
      congr 1
      omega
  | uint u =>
    cases h
    have hlt := u.isLt
    rw [Number.text, integerText, u32toa_eq (by omega), if_neg (by omega)]
    rfl
  | int64 i64 =>
    cases h
    have hlt := i64.isLt
    have hcond := i64.toInt_eq_toNat_cond
    rw [Number.text, i64toa, integerText]
    split_ifs with hneg
    · rw [toNat_not_add_one i64 hneg, u64toa_eq (by omega)]
      rfl
    · rw [u64toa_eq (by omega), List.nil_append]
      congr 1
      omega
  | uint64 u64 =>
    cases h
    have hlt := u64.isLt
    rw [Number.text, integerText, u64toa_eq (by omega), if_neg (by omega)]
    rfl

theorem takeDigits_text (m : Nat) : takeDigits (Decimal.text m) = (Decimal.text m, []) := by
  have hdigits : ∀ b ∈ Decimal.text m, Json.isDigit b = true :=
    fun b hb => Decimal.isDigit_of_mem_text hb
  have htake := takeDigits_append hdigits (show Json.isDigit (peek []) = false from rfl)
  rwa [List.append_nil] at htake

/-- An integer in decimal, split by the reader. -/
theorem parseMinus_integerText (z : Int) : parseMinus (integerText z) =
    (if z < 0 then ['-'.toUInt8] else [], Decimal.text z.natAbs) := by
  apply parseMinus_append
  · split_ifs
    · exact .inr rfl
    · exact .inl rfl
  · have hdigit := peek_intText (Decimal.intText_text z.natAbs) []
    rw [List.append_nil] at hdigit
    intro h
    rw [h] at hdigit
    cases hdigit

/-- **Reading an integer.**  The reader makes a call that brings this integer. -/
theorem convert_integerText (h : -9223372036854775808 ≤ z ∧ z < 18446744073709551616) :
    ∃ m, D.convert (integerText z) = some m ∧ m.integer = some z := by
  have hdigits : ∀ b ∈ Decimal.text z.natAbs, Json.isDigit b = true :=
    fun b hb => Decimal.isDigit_of_mem_text hb
  obtain ⟨m, hm, hz⟩ : ∃ m, parseInteger (decide (z < 0)) (Decimal.text z.natAbs) = some m ∧
      m.integer = some z := by
    by_cases hneg : z < 0
    · rw [decide_eq_true hneg, parseInteger_minus hdigits, Decimal.value_text,
        show -(z.natAbs : Int) = z by omega]
      split_ifs with hint hint64
      · refine ⟨_, rfl, ?_⟩
        rw [Number.integer, BitVec.toInt_ofInt_eq_self (by decide) (by omega) (by omega)]
      · refine ⟨_, rfl, ?_⟩
        rw [Number.integer, BitVec.toInt_ofInt_eq_self (by decide) (by omega) (by omega)]
      · omega
    · rw [decide_eq_false hneg, parseInteger_plus hdigits, Decimal.value_text]
      split_ifs with huint huint64
      · refine ⟨_, rfl, ?_⟩
        rw [Number.integer, BitVec.toNat_ofNat, Option.some.injEq]
        omega
      · refine ⟨_, rfl, ?_⟩
        rw [Number.integer, BitVec.toNat_ofNat, Option.some.injEq]
        omega
      · omega
  refine ⟨m, ?_, hz⟩
  rw [Doubles.convert, parseMinus_integerText, takeDigits_text, if_pos rfl]
  have hminus : ((if z < 0 then ['-'.toUInt8] else []) ≠ []) ↔ z < 0 := by
    split_ifs with hneg <;> simp [hneg]
  simp only [hminus, hm]

theorem numberText_integerText (z : Int) : Json.NumberText (integerText z) := by
  refine ⟨if z < 0 then ['-'.toUInt8] else [], Decimal.text z.natAbs, [], [], ?_, ?_,
    Decimal.intText_text _, .inl rfl, .inl rfl⟩
  · rw [List.append_nil, List.append_nil]
    rfl
  · split_ifs
    · exact .inr rfl
    · exact .inl rfl

/-! ### From a call to the data and back -/

/-- The call that `Accept` makes for a value that came by a call. -/
def Number.narrow (n : Number) : Number := n.data.number

/-- A call is one for a double or brings an integer. -/
theorem Number.double_or_integer (n : Number) : (∃ d, n = .double d) ∨ ∃ z, n.integer = some z := by
  cases n with
  | double d => exact .inl ⟨d, rfl⟩
  | _ => exact .inr ⟨_, rfl⟩

theorem narrow_double (d : Double) : (Number.double d).narrow = .double d :=
  if_pos (show kNumberDoubleFlag &&& kDoubleFlag ≠ 0 by decide)

/-- For an integer, it is one of the first of the four functions that it fits into. -/
theorem narrow_of_integer (h : n.integer = some z) : n.narrow = narrowest z := by
  rw [Number.narrow, data_of_integer h, number_integerData]

/-- It brings the same integer. -/
theorem integer_narrow (n : Number) : n.narrow.integer = n.integer := by
  rcases n.double_or_integer with ⟨d, rfl⟩ | ⟨z, hz⟩
  · rw [narrow_double]
  · rw [narrow_of_integer hz, integer_narrowest (integer_bounds hz), hz]

/-- Calls that are for the same integer, or the same one for a double. -/
def Number.Alike (n m : Number) : Prop := n = m ∨ ∃ z, n.integer = some z ∧ m.integer = some z

theorem alike_narrow (n : Number) : n.Alike n.narrow := by
  rcases n.double_or_integer with ⟨d, rfl⟩ | ⟨z, hz⟩
  · exact .inl (narrow_double d).symm
  · exact .inr ⟨z, hz, (integer_narrow n).trans hz⟩

/-- A value and the writer tell them apart no more. -/
theorem Number.Alike.data_eq {m : Number} (h : n.Alike m) : n.data = m.data := by
  rcases h with rfl | ⟨z, hn, hm⟩
  · rfl
  · rw [data_of_integer hn, data_of_integer hm]

theorem Number.Alike.text_eq {m : Number} (h : n.Alike m) : n.text D = m.text D := by
  rcases h with rfl | ⟨z, hn, hm⟩
  · rfl
  · rw [text_of_integer hn, text_of_integer hm]

/-- A double that is put out as a number text, which is read as this double. -/
structure Doubles.ReadsBack (D : Doubles) (d : Double) : Prop where
  finite : isNanOrInf d = false
  number : Json.NumberText (D.dtoa d)
  double : D.convert (D.dtoa d) = some (.double d)

/-- **Numbers.**  What is put out for a number is the text of one, and is read as it. -/
theorem convert_text (h : ∀ d, n = .double d → D.ReadsBack d) :
    Json.NumberText (n.text D) ∧ ∃ m, D.convert (n.text D) = some m ∧ m.data = n.data := by
  rcases n.double_or_integer with ⟨d, rfl⟩ | ⟨z, hz⟩
  · have hd := h d rfl
    rw [show (Number.double d).text D = D.dtoa d from if_neg (by rw [hd.finite]; decide)]
    exact ⟨hd.number, .double d, hd.double, rfl⟩
  · rw [text_of_integer hz]
    obtain ⟨m, hm, hmz⟩ := convert_integerText (D := D) (integer_bounds hz)
    exact ⟨numberText_integerText z, m, hm, (data_of_integer hmz).trans (data_of_integer hz).symm⟩

end OsgiManager.Rapidjson
