import Mathlib.Tactic.Linarith

/-!
# Checked arithmetic

`wtf/CheckedArithmetic.h`.  The subtraction of signed integers turns down the least integer as the
difference of a negative and another integer; the multiplication of unsigned integers looks whether
the product has become less than its left factor, which tells nothing of most products that wrap.

* `safe_exact_iff`: where an operation is exact, and the expressions whose products are.
-/

namespace WebKit.WTF

structure IntegerType where
  isSigned : Bool
  width : ℕ
  width_pos : 0 < width
  deriving DecidableEq

namespace IntegerType

/-- `std::numeric_limits<T>::min()` -/
def min (t : IntegerType) : ℤ := if t.isSigned then -2 ^ (t.width - 1) else 0

/-- `std::numeric_limits<T>::max()` -/
def max (t : IntegerType) : ℤ := if t.isSigned then 2 ^ (t.width - 1) - 1 else 2 ^ t.width - 1

def Fits (t : IntegerType) (n : ℤ) : Prop := t.min ≤ n ∧ n ≤ t.max

instance (t : IntegerType) (n : ℤ) : Decidable (t.Fits n) := inferInstanceAs (Decidable (_ ∧ _))

/-- The conversion to a type, in two's complement. -/
def convert (t : IntegerType) (n : ℤ) : ℤ :=
  if t.isSigned then n.bmod (2 ^ t.width) else n % 2 ^ t.width

/-- The values of a type. -/
def Value (t : IntegerType) : Type := { n : ℤ // t.Fits n }

def int64 : IntegerType := ⟨true, 64, by decide⟩

end IntegerType

/-! ## `ArithmeticOperations` -/

namespace ArithmeticOperations

variable (result : IntegerType) (lhs rhs : ℤ)

/-- `(lhs ^ rhs) >= 0` -/
def signsMatch : Prop := lhs < 0 ↔ rhs < 0

instance : Decidable (signsMatch lhs rhs) := inferInstanceAs (Decidable (_ ↔ _))

def signedAdd : Option ℤ :=
  if signsMatch lhs rhs ∧
      if 0 ≤ lhs then result.max - rhs < lhs else rhs < -(lhs - result.min) then none
  else some (result.convert (lhs + rhs))

def signedSub : Option ℤ :=
  if ¬signsMatch lhs rhs ∧
      if 0 ≤ lhs then lhs > result.max + rhs else rhs > result.max + lhs then none
  else some (result.convert (lhs - rhs))

def signedMultiply : Option ℤ :=
  if if signsMatch lhs rhs then
      if 0 ≤ lhs then lhs ≠ 0 ∧ result.max.tdiv lhs < rhs
      else (lhs = result.min ∨ rhs = result.min) ∨ result.max.tdiv (-lhs) < -rhs
    else if lhs < 0 then rhs ≠ 0 ∧ lhs < result.min.tdiv rhs
      else lhs ≠ 0 ∧ rhs < result.min.tdiv lhs then none
  else some (result.convert (lhs * rhs))

def unsignedAdd : Option ℤ :=
  let temp := result.convert (lhs + rhs)
  if temp < lhs then none else some temp

def unsignedSub : Option ℤ :=
  let temp := result.convert (lhs - rhs)
  if temp > lhs then none else some temp

def unsignedMultiply : Option ℤ :=
  let temp := result.convert (lhs * rhs)
  if temp < lhs then none else some temp

/-- What the operations on an `int` and an `unsigned` do with their result in an `int64_t`. -/
def narrow (temp : ℤ) : Option ℤ :=
  if temp < result.min then none
  else if temp > result.max then none
  else some (result.convert temp)

def mixedAdd : Option ℤ := narrow result (IntegerType.int64.convert (lhs + rhs))

def mixedSub : Option ℤ := narrow result (IntegerType.int64.convert (lhs - rhs))

def mixedMultiply : Option ℤ := narrow result (IntegerType.int64.convert (lhs * rhs))

end ArithmeticOperations

inductive Operator
  | add
  | sub
  | multiply

def Operator.apply : Operator → ℤ → ℤ → ℤ
  | add, lhs, rhs => lhs + rhs
  | sub, lhs, rhs => lhs - rhs
  | multiply, lhs, rhs => lhs * rhs

/-- The types of the operands and of the result.  Only `int` and `unsigned` are mixed. -/
structure Combination where
  lhs : IntegerType
  rhs : IntegerType
  result : IntegerType
  width_rhs : rhs.width = lhs.width
  width_result : result.width = lhs.width
  unmixed : lhs.isSigned = rhs.isSigned → result.isSigned = lhs.isSigned
  mixed : lhs.isSigned ≠ rhs.isSigned → lhs.width = 32

open ArithmeticOperations

variable (c : Combination) (lhs rhs : ℤ)

def safeAdd : Option ℤ :=
  match c.lhs.isSigned, c.rhs.isSigned with
  | true, true => signedAdd c.result lhs rhs
  | false, false => unsignedAdd c.result lhs rhs
  | true, false => mixedAdd c.result lhs rhs
  | false, true => mixedAdd c.result rhs lhs

def safeSub : Option ℤ :=
  match c.lhs.isSigned, c.rhs.isSigned with
  | true, true => signedSub c.result lhs rhs
  | false, false => unsignedSub c.result lhs rhs
  | true, false => mixedSub c.result lhs rhs
  | false, true => mixedSub c.result lhs rhs

def safeMultiply : Option ℤ :=
  match c.lhs.isSigned, c.rhs.isSigned with
  | true, true => signedMultiply c.result lhs rhs
  | false, false => unsignedMultiply c.result lhs rhs
  | true, false => mixedMultiply c.result lhs rhs
  | false, true => mixedMultiply c.result rhs lhs

def Operator.safe : Operator → Option ℤ
  | add => safeAdd c lhs rhs
  | sub => safeSub c lhs rhs
  | multiply => safeMultiply c lhs rhs

/-! ## `Checked` -/

/-- A `Checked<T, RecordOverflow>` -/
structure Checked where
  m_value : ℤ
  m_overflowed : Bool

namespace Checked

def hasOverflowed (v : Checked) : Bool := v.m_overflowed

/-- `unsafeGet`, which crashes after an overflow. -/
def unsafeGet (v : Checked) : Option ℤ := if v.hasOverflowed then none else some v.m_value

/-- The operators `+`, `-` and `*`: the right operand is not read after an overflow of the left. -/
def operate (op : Operator) (v w : Checked) : Checked :=
  let y := if v.hasOverflowed then 0 else w.m_value
  match v.hasOverflowed || w.hasOverflowed, op.safe c v.m_value y with
  | false, some result => ⟨result, false⟩
  | _, _ => ⟨0, true⟩

/-- The operators `+=`, `-=` and `*=` -/
def assign (op : Operator) (v w : Checked) : Checked :=
  match op.safe c v.m_value w.m_value with
  | some result => ⟨result, v.hasOverflowed || w.hasOverflowed⟩
  | none => ⟨v.m_value, true⟩

end Checked

/-- `Result<U, V>::ResultType` for types of one width -/
def resultType (u v : IntegerType) : IntegerType :=
  if u.isSigned && !v.isSigned then v else u

inductive Expression : IntegerType → Type
  | value {t : IntegerType} (n : t.Value) : Expression t
  | operate (op : Operator) (c : Combination) (hc : c.result = resultType c.lhs c.rhs)
      (a : Expression c.lhs) (b : Expression c.rhs) : Expression c.result
  | assign (op : Operator) (c : Combination) (hc : c.result = c.lhs)
      (a : Expression c.lhs) (b : Expression c.rhs) : Expression c.result

namespace Expression

def eval : {t : IntegerType} → Expression t → Checked
  | _, value n => ⟨n.1, false⟩
  | _, operate op c _ a b => Checked.operate c op a.eval b.eval
  | _, assign op c _ a b => Checked.assign c op a.eval b.eval

/-- The mathematical value. -/
def exact : {t : IntegerType} → Expression t → ℤ
  | _, value n => n.1
  | _, operate op _ _ a b | _, assign op _ _ a b => op.apply a.exact b.exact

/-- Every intermediate value fits its type. -/
def AllFit : {t : IntegerType} → Expression t → Prop
  | _, value _ => True
  | _, operate op c _ a b | _, assign op c _ a b =>
    a.AllFit ∧ b.AllFit ∧ c.result.Fits (op.apply a.exact b.exact)

end Expression

/-! ## Where the operations are exact -/

/-- The mathematical result, where it fits. -/
def IntegerType.represent (t : IntegerType) (n : ℤ) : Option ℤ := if t.Fits n then some n else none

/-- The least integer is the difference of a negative integer and another. -/
def TurnsDownLeast : Prop :=
  (c.lhs.isSigned ∧ c.rhs.isSigned) ∧ (lhs < 0 ∧ 0 ≤ rhs) ∧ lhs - rhs = c.result.min

def TurnsDownZero : Prop :=
  (c.lhs.isSigned = false ∧ c.rhs.isSigned = false) ∧ rhs = 0 ∧ lhs ≠ 0

/-- The product wraps, and has not become less than its left factor. -/
def WrapsUnseen : Prop :=
  (c.lhs.isSigned = false ∧ c.rhs.isSigned = false) ∧
    2 ^ c.result.width ≤ lhs * rhs ∧ lhs ≤ lhs * rhs % 2 ^ c.result.width

def Operator.Meets : Operator → Prop
  | add => True
  | sub => ¬TurnsDownLeast c lhs rhs
  | multiply => ¬TurnsDownZero c lhs rhs ∧ ¬WrapsUnseen c lhs rhs

/-- No product of the expression wraps unseen. -/
def Expression.ProductsMeet : {t : IntegerType} → Expression t → Prop
  | _, value _ => True
  | _, operate op c _ a b | _, assign op c _ a b =>
    a.ProductsMeet ∧ b.ProductsMeet ∧ (op = .multiply → ¬WrapsUnseen c a.exact b.exact)

/-- Without an overflow at the end every intermediate value fits, and the value is exact. -/
def Expression.ReportsOverflow {t : IntegerType} (e : Expression t) : Prop :=
  e.eval.hasOverflowed = false → e.AllFit ∧ e.eval.unsafeGet = some e.exact

namespace IntegerType

variable {t u : IntegerType} {n : ℤ}

theorem eq_of_isSigned_eq (hs : t.isSigned = u.isSigned) (hw : t.width = u.width) : t = u := by
  cases t
  simp_all

theorem two_pow_width (t : IntegerType) : (2 : ℤ) ^ t.width = 2 * 2 ^ (t.width - 1) := by
  rw [← pow_succ', Nat.sub_add_cancel t.width_pos]

theorem max_nonneg (t : IntegerType) : 0 ≤ t.max := by
  have hpos : (0 : ℤ) < 2 ^ (t.width - 1) := by positivity
  have htwice := t.two_pow_width
  rw [max]
  split <;> omega

theorem min_signed (hs : t.isSigned) : t.min = -t.max - 1 := by
  rw [min, max, if_pos hs, if_pos hs]
  omega

variable (hs : t.isSigned = false)

include hs

theorem min_unsigned : t.min = 0 := by
  rw [min, hs]
  rfl

theorem max_unsigned : t.max = 2 ^ t.width - 1 := by
  rw [max, hs]
  rfl

theorem convert_unsigned (n : ℤ) : t.convert n = n % 2 ^ t.width := by
  rw [convert, hs]
  rfl

omit hs

theorem convert_of_fits (h : t.Fits n) : t.convert n = n := by
  obtain ⟨hmin, hmax⟩ := h
  have htwice := t.two_pow_width
  cases hs : t.isSigned with
  | true =>
    rw [min_signed hs] at hmin
    rw [max, if_pos hs] at hmin hmax
    rw [convert, if_pos hs]
    refine Int.bmod_eq_of_le ?_ ?_ <;> push_cast <;> omega
  | false =>
    rw [min_unsigned hs] at hmin
    rw [max_unsigned hs] at hmax
    rw [convert_unsigned hs, Int.emod_eq_of_lt hmin (by omega)]

theorem refused_eq {p : Prop} [Decidable p] (h : p ↔ ¬t.Fits n) :
    (if p then none else some (t.convert n)) = t.represent n := by
  by_cases hfits : t.Fits n
  · rw [if_neg fun hp => h.mp hp hfits, convert_of_fits hfits, represent, if_pos hfits]
  · rw [if_pos (h.mpr hfits), represent, if_neg hfits]

end IntegerType

open IntegerType

namespace ArithmeticOperations

variable {result : IntegerType} {lhs rhs : ℤ}

theorem signsMatch_iff : signsMatch lhs rhs ↔ (0 ≤ lhs ↔ 0 ≤ rhs) := by
  rw [signsMatch]
  omega

theorem tdiv_lt_iff {n : ℤ} (ha : 0 ≤ a) (hb : 0 < b) : a.tdiv b < n ↔ a < n * b := by
  rw [Int.tdiv_eq_ediv_of_nonneg ha, Int.ediv_lt_iff_lt_mul hb]

theorem lt_tdiv_iff {n : ℤ} (ha : a ≤ 0) (hb : 0 < b) : n < a.tdiv b ↔ n * b < a := by
  rw [← neg_lt_neg_iff, ← Int.neg_tdiv, tdiv_lt_iff (by omega) hb, neg_mul, neg_lt_neg_iff]

section Signed

variable (hs : result.isSigned) (hl : result.Fits lhs) (hr : result.Fits rhs)
include hs hl hr

theorem signedAdd_eq : signedAdd result lhs rhs = result.represent (lhs + rhs) := by
  obtain ⟨hl, hl'⟩ := hl
  obtain ⟨hr, hr'⟩ := hr
  refine refused_eq ?_
  rw [signsMatch, Fits]
  split <;> omega

theorem signedSub_eq (hnot : lhs < 0 → 0 ≤ rhs → lhs - rhs ≠ result.min) :
    signedSub result lhs rhs = result.represent (lhs - rhs) := by
  have hmin := min_signed hs
  obtain ⟨hl, hl'⟩ := hl
  obtain ⟨hr, hr'⟩ := hr
  refine refused_eq ?_
  rw [signsMatch, Fits]
  split <;> omega

theorem signedMultiply_eq : signedMultiply result lhs rhs = result.represent (lhs * rhs) := by
  have hmin := min_signed hs
  have hmax := result.max_nonneg
  refine refused_eq ?_
  rw [Fits]
  by_cases hleft : 0 ≤ lhs
  · by_cases hright : 0 ≤ rhs
    · have hpos := mul_nonneg hleft hright
      rw [if_pos (signsMatch_iff.mpr (by omega)), if_pos hleft]
      rcases hleft.eq_or_lt with rfl | hlt
      · omega
      · rw [tdiv_lt_iff hmax hlt, mul_comm rhs]
        omega
    · have hneg := mul_nonpos_of_nonneg_of_nonpos hleft (not_le.mp hright).le
      rw [if_neg fun h => by rw [signsMatch_iff] at h; omega, if_neg hleft.not_gt]
      rcases hleft.eq_or_lt with rfl | hlt
      · rw [zero_mul]
        omega
      · rw [lt_tdiv_iff (by omega) hlt, mul_comm rhs]
        omega
  · by_cases hright : 0 ≤ rhs
    · have hneg := mul_nonpos_of_nonpos_of_nonneg (not_le.mp hleft).le hright
      rw [if_neg fun h => by rw [signsMatch_iff] at h; omega, if_pos (not_le.mp hleft)]
      rcases hright.eq_or_lt with rfl | hlt
      · rw [mul_zero]
        omega
      · rw [lt_tdiv_iff (by omega) hlt]
        omega
    · have hpos := mul_pos_of_neg_of_neg (not_le.mp hleft) (not_le.mp hright)
      rw [if_pos (signsMatch_iff.mpr (by omega)), if_neg hleft, tdiv_lt_iff hmax (by omega),
        neg_mul_neg, mul_comm rhs]
      -- with the least integer as a factor the product is out of range
      have hleast : lhs = result.min ∨ rhs = result.min → result.max < lhs * rhs := by
        rintro (rfl | rfl) <;> nlinarith
      omega

end Signed

section Unsigned

variable (hs : result.isSigned = false) (hl : result.Fits lhs) (hr : result.Fits rhs)
include hs hl hr

theorem unsignedAdd_eq : unsignedAdd result lhs rhs = result.represent (lhs + rhs) := by
  rw [Fits, min_unsigned hs, max_unsigned hs] at hl hr
  simp only [unsignedAdd, convert_unsigned hs, represent, Fits, min_unsigned hs, max_unsigned hs]
  by_cases hlt : lhs + rhs < 2 ^ result.width
  · rw [Int.emod_eq_of_lt (by omega) hlt, if_neg (by omega), if_pos (by omega)]
  · rw [← Int.sub_emod_right, Int.emod_eq_of_lt (by omega) (by omega), if_pos (by omega),
      if_neg (by omega)]

theorem unsignedSub_eq : unsignedSub result lhs rhs = result.represent (lhs - rhs) := by
  rw [Fits, min_unsigned hs, max_unsigned hs] at hl hr
  simp only [unsignedSub, convert_unsigned hs, represent, Fits, min_unsigned hs, max_unsigned hs]
  by_cases hle : rhs ≤ lhs
  · rw [Int.emod_eq_of_lt (by omega) (by omega), if_neg (by omega), if_pos (by omega)]
  · rw [← Int.add_emod_right, Int.emod_eq_of_lt (by omega) (by omega), if_pos (by omega),
      if_neg (by omega)]

theorem unsignedMultiply_eq_iff : unsignedMultiply result lhs rhs = result.represent (lhs * rhs) ↔
    ¬(rhs = 0 ∧ lhs ≠ 0) ∧
      ¬(2 ^ result.width ≤ lhs * rhs ∧ lhs ≤ lhs * rhs % 2 ^ result.width) := by
  rw [Fits, min_unsigned hs, max_unsigned hs] at hl hr
  simp only [unsignedMultiply, convert_unsigned hs, represent,
    Fits, min_unsigned hs, max_unsigned hs]
  have hnonneg := mul_nonneg hl.1 hr.1
  by_cases hlt : lhs * rhs < 2 ^ result.width
  · rw [Int.emod_eq_of_lt hnonneg hlt]
    rcases hr.1.eq_or_lt with rfl | hpos
    · simp only [mul_zero]
      split <;> simp <;> omega
    · have hle : lhs ≤ lhs * rhs := le_mul_of_one_le_right hl.1 hpos
      rw [if_neg hle.not_gt, if_pos (by omega)]
      simp
      omega
  · have hnot : ¬(0 ≤ lhs * rhs ∧ lhs * rhs ≤ 2 ^ result.width - 1) := by omega
    have hne : rhs ≠ 0 := by
      rintro rfl
      rw [mul_zero] at hlt
      exact hlt (by positivity)
    split <;> simp [hne] <;> omega

end Unsigned

/-! ## The operations on an `int` and an `unsigned` -/

theorem narrow_eq (h : int64.Fits n) :
    narrow result (int64.convert n) = result.represent n := by
  rw [convert_of_fits h, ← refused_eq (p := n < result.min ∨ n > result.max)]
  · rw [narrow]
    split_ifs <;> first | rfl | omega
  · rw [Fits]
    omega

variable {t u : IntegerType}

theorem fits_int64 (ht : t.isSigned) (hu : u.isSigned = false) (hwt : t.width = 32)
    (hwu : u.width = 32) (hx : t.Fits x) (hy : u.Fits y) (op : Operator) :
    int64.Fits (op.apply x y) ∧ int64.Fits (op.apply y x) := by
  rw [Fits, min_signed ht, IntegerType.max, if_pos ht, hwt] at hx
  rw [Fits, min_unsigned hu, max_unsigned hu, hwu] at hy
  have hmin : int64.min = -2 ^ 63 := rfl
  have hmax : int64.max = 2 ^ 63 - 1 := rfl
  rw [Fits, Fits]
  cases op
  case multiply =>
    simp only [Operator.apply, mul_comm y]
    norm_num at hx hy ⊢
    have hhigh : x * y ≤ 2147483647 * 4294967295 := by nlinarith
    have hlow : -2147483648 * 4294967295 ≤ x * y := by nlinarith
    omega
  all_goals
    simp only [Operator.apply]
    omega

end ArithmeticOperations

section Exact

variable {c : Combination} {lhs rhs : ℤ}

theorem TurnsDownLeast.safe (h : TurnsDownLeast c lhs rhs) : safeSub c lhs rhs = none := by
  obtain ⟨⟨hl, hr⟩, ⟨hneg, hnonneg⟩, heq⟩ := h
  have hmin := min_signed (hl ▸ c.unmixed (hl.trans hr.symm))
  rw [safeSub, hl, hr]
  refine if_pos ⟨fun hmatch => ?_, ?_⟩
  · rw [signsMatch_iff] at hmatch
    omega
  · rw [if_neg (by omega)]
    omega

theorem TurnsDownZero.safe (hlhs : c.lhs.Fits lhs) (h : TurnsDownZero c lhs rhs) :
    safeMultiply c lhs rhs = none := by
  obtain ⟨⟨hl, hr⟩, rfl, hne⟩ := h
  rw [Fits, min_unsigned hl] at hlhs
  rw [safeMultiply, hl, hr]
  refine if_pos ?_
  rw [mul_zero, convert_unsigned (hl ▸ c.unmixed (hl.trans hr.symm)), Int.zero_emod]
  omega

section

variable (op : Operator) (h : c.lhs.isSigned ≠ c.rhs.isSigned)
include h

theorem Operator.safe_mixed :
    op.safe c lhs rhs = narrow c.result (int64.convert (op.apply lhs rhs)) := by
  cases hl : c.lhs.isSigned <;> cases hr : c.rhs.isSigned <;> rw [hl, hr] at h
  all_goals first | exact absurd rfl h | skip
  all_goals cases op
  all_goals simp only [Operator.safe, safeAdd, safeSub, safeMultiply, hl, hr, Operator.apply,
    mixedAdd, mixedSub, mixedMultiply, add_comm, mul_comm]

theorem Operator.meets_of_mixed : op.Meets c lhs rhs := by
  cases op with
  | add => trivial
  | sub => exact fun hleast => h (hleast.1.1.trans hleast.1.2.symm)
  | multiply =>
    exact ⟨fun hzero => h (hzero.1.1.trans hzero.1.2.symm),
      fun hwraps => h (hwraps.1.1.trans hwraps.1.2.symm)⟩

theorem fits_int64_of_mixed
    (hlhs : c.lhs.Fits lhs) (hrhs : c.rhs.Fits rhs) : int64.Fits (op.apply lhs rhs) := by
  have hw := c.mixed h
  have hw' := c.width_rhs.trans hw
  cases hl : c.lhs.isSigned with
  | true => exact (fits_int64 hl (by simpa [hl] using h) hw hw' hlhs hrhs op).1
  | false => exact (fits_int64 (by simpa [hl] using h) hl hw' hw hrhs hlhs op).2

end

/-- An operation is exact where it meets its condition. -/
theorem Operator.safe_eq_iff (op : Operator) (hlhs : c.lhs.Fits lhs) (hrhs : c.rhs.Fits rhs) :
    op.safe c lhs rhs = c.result.represent (op.apply lhs rhs) ↔ op.Meets c lhs rhs := by
  by_cases h : c.lhs.isSigned = c.rhs.isSigned
  · have htypes := eq_of_isSigned_eq (c.unmixed h) c.width_result
    have htypes' := eq_of_isSigned_eq ((c.unmixed h).trans h)
      (c.width_result.trans c.width_rhs.symm)
    rw [← htypes] at hlhs
    rw [← htypes'] at hrhs
    cases hs : c.result.isSigned with
    | true =>
      have hl := (c.unmixed h).symm.trans hs
      have hr := h.symm.trans hl
      cases op with
      | add =>
        rw [safe, safeAdd, hl, hr]
        exact iff_of_true (signedAdd_eq hs hlhs hrhs) trivial
      | sub =>
        refine ⟨fun heq hleast => ?_, fun hnot => ?_⟩
        · obtain ⟨-, -, hmin⟩ := id hleast
          rw [safe, hleast.safe, apply, hmin, represent, if_pos] at heq
          · cases heq
          · exact ⟨le_refl _, by rw [min_signed hs]; have := c.result.max_nonneg; omega⟩
        · rw [safe, safeSub, hl, hr]
          exact signedSub_eq hs hlhs hrhs fun hneg hnonneg heq =>
            hnot ⟨⟨hl, hr⟩, ⟨hneg, hnonneg⟩, heq⟩
      | multiply =>
        rw [safe, safeMultiply, hl, hr]
        refine iff_of_true (signedMultiply_eq hs hlhs hrhs) ⟨fun hzero => ?_, fun hwraps => ?_⟩
        · exact absurd (hl.symm.trans hzero.1.1) nofun
        · exact absurd (hl.symm.trans hwraps.1.1) nofun
    | false =>
      have hl := (c.unmixed h).symm.trans hs
      have hr := h.symm.trans hl
      cases op with
      | add =>
        rw [safe, safeAdd, hl, hr]
        exact iff_of_true (unsignedAdd_eq hs hlhs hrhs) trivial
      | sub =>
        rw [safe, safeSub, hl, hr]
        exact iff_of_true (unsignedSub_eq hs hlhs hrhs)
          fun hleast => absurd (hl.symm.trans hleast.1.1) nofun
      | multiply =>
        rw [safe, safeMultiply, Meets, TurnsDownZero, WrapsUnseen, hl, hr]
        simpa [apply] using unsignedMultiply_eq_iff hs hlhs hrhs
  · exact iff_of_true ((op.safe_mixed h).trans (narrow_eq (fits_int64_of_mixed op h hlhs hrhs)))
      (op.meets_of_mixed h)

theorem Operator.represent_of_safe {op : Operator} (hlhs : c.lhs.Fits lhs)
    (hrhs : c.rhs.Fits rhs) (hnot : op = multiply → ¬WrapsUnseen c lhs rhs) {n : ℤ}
    (h : op.safe c lhs rhs = some n) : c.result.Fits (op.apply lhs rhs) ∧ n = op.apply lhs rhs := by
  have hmeets : op.Meets c lhs rhs := by
    cases op with
    | add => trivial
    | sub => exact fun hleast => absurd (hleast.safe.symm.trans h) nofun
    | multiply => exact ⟨fun hzero => absurd ((hzero.safe hlhs).symm.trans h) nofun, hnot rfl⟩
  rw [(op.safe_eq_iff hlhs hrhs).mpr hmeets, represent] at h
  split at h
  · rename_i hfits
    exact ⟨hfits, (Option.some.inj h).symm⟩
  · cases h

end Exact

/-! ## Expressions -/

namespace Checked

variable {c : Combination} {op : Operator} {v w : Checked}

theorem operate_eq (h : (operate c op v w).hasOverflowed = false) :
    (v.hasOverflowed = false ∧ w.hasOverflowed = false) ∧
      op.safe c v.m_value w.m_value = some (operate c op v w).m_value := by
  rw [operate] at h ⊢
  split at h
  · rename_i n hflags hsafe
    have hnot := Bool.or_eq_false_iff.mp hflags
    rw [hnot.1] at hsafe
    exact ⟨hnot, hsafe⟩
  · cases h

theorem assign_eq (h : (assign c op v w).hasOverflowed = false) :
    (v.hasOverflowed = false ∧ w.hasOverflowed = false) ∧
      op.safe c v.m_value w.m_value = some (assign c op v w).m_value := by
  rw [assign] at h ⊢
  split at h
  · rename_i n hsafe
    exact ⟨Bool.or_eq_false_iff.mp h, by rw [hsafe]⟩
  · cases h

end Checked

namespace Expression

/-- What is shown of an expression: without an overflow its values fit, and the last is exact. -/
def IsExact {t : IntegerType} (e : Expression t) : Prop :=
  e.ProductsMeet → e.eval.hasOverflowed = false →
    t.Fits e.exact ∧ e.AllFit ∧ e.eval.m_value = e.exact

theorem fits_of_operands {c : Combination} {op : Operator} {a : Expression c.lhs}
    {b : Expression c.rhs} (ha : a.IsExact) (hb : b.IsExact) (hmeets : a.ProductsMeet ∧
      b.ProductsMeet ∧ (op = .multiply → ¬WrapsUnseen c a.exact b.exact))
    (h : (a.eval.hasOverflowed = false ∧ b.eval.hasOverflowed = false) ∧
      op.safe c a.eval.m_value b.eval.m_value = some n) : c.result.Fits (op.apply a.exact b.exact) ∧
    (a.AllFit ∧ b.AllFit ∧ c.result.Fits (op.apply a.exact b.exact)) ∧
      n = op.apply a.exact b.exact := by
  obtain ⟨⟨hover, hover'⟩, hsafe⟩ := h
  obtain ⟨hleft, hall, heq⟩ := ha hmeets.1 hover
  obtain ⟨hright, hall', heq'⟩ := hb hmeets.2.1 hover'
  rw [heq, heq'] at hsafe
  obtain ⟨hfits, hn⟩ := Operator.represent_of_safe hleft hright hmeets.2.2 hsafe
  exact ⟨hfits, ⟨hall, hall', hfits⟩, hn⟩

theorem isExact {t : IntegerType} (e : Expression t) : e.IsExact := by
  intro hmeets h
  induction e with
  | value n => exact ⟨n.2, trivial, rfl⟩
  | operate op c _ a b iha ihb => exact fits_of_operands iha ihb hmeets (Checked.operate_eq h)
  | assign op c _ a b iha ihb => exact fits_of_operands iha ihb hmeets (Checked.assign_eq h)

theorem reportsOverflow {e : Expression t} (hmeets : e.ProductsMeet) :
    e.ReportsOverflow := by
  intro h
  obtain ⟨-, hall, heq⟩ := e.isExact hmeets h
  rw [Checked.unsafeGet, h, heq]
  exact ⟨hall, rfl⟩

end Expression

/-- An operation is exact where it meets its condition, and an expression reports its overflow where
its products do. -/
theorem safe_exact_iff (op : Operator) (lhs : c.lhs.Value) (rhs : c.rhs.Value)
    {t : IntegerType} (e : Expression t) :
    (op.safe c lhs.1 rhs.1 = c.result.represent (op.apply lhs.1 rhs.1) ↔
      op.Meets c lhs.1 rhs.1) ∧ (e.ProductsMeet → e.ReportsOverflow) :=
  ⟨op.safe_eq_iff lhs.2 rhs.2, Expression.reportsOverflow⟩

/-- `unsigned`, on both sides. -/
def unsigneds : Combination :=
  have u : IntegerType := ⟨false, 32, by decide⟩
  ⟨u, u, u, rfl, rfl, fun _ => rfl, fun h => absurd rfl h⟩

/-- `x * y` for two `unsigned`. -/
def product (x y : ℕ) (hx : unsigneds.lhs.Fits x) (hy : unsigneds.rhs.Fits y) :
    Expression unsigneds.result :=
  .operate .multiply unsigneds rfl (.value ⟨x, hx⟩) (.value ⟨y, hy⟩)

theorem safe_exact_product : (product 6 7 (by decide) (by decide)).ReportsOverflow :=
  (safe_exact_iff unsigneds .multiply ⟨6, by decide⟩ ⟨7, by decide⟩ _).2
    ⟨trivial, trivial, fun _ h => by
      obtain ⟨-, hle, -⟩ := h
      revert hle
      decide⟩

/-- `0x10001 * 0x10001` wraps to `0x20001`. -/
theorem not_safe_exact_product : ¬((∀ (c : Combination) (op : Operator) (lhs : c.lhs.Value)
    (rhs : c.rhs.Value), op.safe c lhs.1 rhs.1 = c.result.represent (op.apply lhs.1 rhs.1)) ∧
    ∀ (t : IntegerType) (e : Expression t), e.ReportsOverflow) := by
  intro h
  have hproduct := h.2 _ (product 0x10001 0x10001 (by decide) (by decide)) (by decide)
  exact absurd hproduct.2 (by decide)

end WebKit.WTF
