import Mathlib.Data.BitVec
import Mathlib.Data.Nat.Digits.Lemmas

/-!
# The number directives of `printf`

`printf` of `kernel/printf.c` and `vprintf` of `user/printf.c` scan the format in the same
way and call `printint` with the same base and sign. They differ in the number that
`printint` takes: the kernel widens an `int` to 64 bits, the user library narrows a
`uint64` to an `int`. A store past the 16 characters of the buffer is `none`.
-/

namespace Xv6.Printf

section Model

variable {w : Nat} (digits : List Char)

/-- The loop `do buf[i++] = digits[x % base]; while((x /= base) != 0)` with room for some
more characters; the last one that is stored comes first. -/
def store (base : Nat) : Nat → Nat → List Char → Option (List Char)
  | 0, _, _ => none
  | room + 1, x, buf =>
    let buf := digits.getD (x % base) '0' :: buf
    if x / base = 0 then some buf else store base room (x / base) buf

def printint (xx : BitVec w) (base : Nat) (sign : Bool) : Option (List Char) := do
  let neg := sign && decide (xx.toInt < 0)
  let x := if neg then -xx else xx
  let buf ← store digits base 16 x.toNat []
  if neg then
    if buf.length < 16 then some ('-' :: buf) else none
  else
    some buf

def printptr (x : BitVec 64) : List Char :=
  '0' :: 'x' :: (List.range 16).map fun i => digits.getD ((x <<< (4 * i)) >>> 60).toNat '0'

def emit (first rest : Option (List Char)) : Option (List Char) := do
  return (← first) ++ (← rest)

variable (int : BitVec 32 → BitVec w) (long : BitVec 64 → BitVec w)
  (string : BitVec 64 → List Char) (args : Nat → BitVec 64)

/-- `printint(va_arg(ap, int), ...)`, then the rest. -/
def short (k base : Nat) (sign : Bool) : Option (List Char) → Option (List Char) :=
  emit (printint digits (int ((args k).setWidth 32)) base sign)

/-- `printint(va_arg(ap, uint64), ...)`, then the rest. -/
def wide (k base : Nat) (sign : Bool) : Option (List Char) → Option (List Char) :=
  emit (printint digits (long (args k)) base sign)

/-- The loop over the format from the argument `k`. The conversions `int` and `long` are
those of the call of `printint`, and `string` reads memory. -/
def format : List Char → Nat → Option (List Char)
  | [], _ => some []
  | '%' :: 'd' :: rest, k => short digits int args k 10 true (format rest (k + 1))
  | '%' :: 'l' :: 'd' :: rest, k => wide digits long args k 10 true (format rest (k + 1))
  | '%' :: 'l' :: 'l' :: 'd' :: rest, k => wide digits long args k 10 true (format rest (k + 1))
  | '%' :: 'u' :: rest, k => short digits int args k 10 false (format rest (k + 1))
  | '%' :: 'l' :: 'u' :: rest, k => wide digits long args k 10 false (format rest (k + 1))
  | '%' :: 'l' :: 'l' :: 'u' :: rest, k => wide digits long args k 10 false (format rest (k + 1))
  | '%' :: 'x' :: rest, k => short digits int args k 16 false (format rest (k + 1))
  | '%' :: 'l' :: 'x' :: rest, k => wide digits long args k 16 false (format rest (k + 1))
  | '%' :: 'l' :: 'l' :: 'x' :: rest, k => wide digits long args k 16 false (format rest (k + 1))
  | '%' :: 'p' :: rest, k => emit (some (printptr digits (args k))) (format rest (k + 1))
  | '%' :: 's' :: rest, k =>
    emit (some (if args k = 0 then "(null)".toList else string (args k))) (format rest (k + 1))
  | '%' :: '%' :: rest, k => emit (some ['%']) (format rest k)
  | ['%'], _ => some []
  | '%' :: c :: rest, k => emit (some ['%', c]) (format rest k)
  | c :: rest, k => emit (some [c]) (format rest k)

end Model

def Kernel.digits : List Char := "0123456789abcdef".toList

def User.digits : List Char := "0123456789ABCDEF".toList

/-- Here `printint` takes a `long long`. -/
def Kernel.printf := format (w := 64) Kernel.digits (BitVec.signExtend 64) id

/-- Here `printint` takes an `int`. -/
def User.vprintf := format (w := 32) User.digits id (BitVec.setWidth 32)

/-! ## What a directive means -/

inductive Length
  | none
  | l
  | ll

inductive Conversion
  | d
  | u
  | x

/-- One of `d`, `u`, `x`, `ld`, `lu`, `lx`, `lld`, `llu`, `llx`. -/
structure Directive where
  length : Length
  conversion : Conversion

namespace Directive

def text (dir : Directive) : List Char :=
  '%' :: ((match dir.length with | .none => [] | .l => ['l'] | .ll => ['l', 'l']) ++
    [match dir.conversion with | .d => 'd' | .u => 'u' | .x => 'x'])

def base (dir : Directive) : Nat := match dir.conversion with | .x => 16 | _ => 10

def sign (dir : Directive) : Bool := match dir.conversion with | .d => true | _ => false

/-- The argument at the width and the sign of the directive. -/
def value (dir : Directive) (v : BitVec 64) : Int :=
  match dir.length, dir.conversion with
  | .none, .d => (v.setWidth 32).toInt
  | .none, _ => (v.setWidth 32).toNat
  | _, .d => v.toInt
  | _, _ => v.toNat

end Directive

/-- The canonical numeral, with digits in the given case. -/
def numeral (case : Char → Char) (base : Nat) (z : Int) : List Char :=
  (if z < 0 then ['-'] else []) ++ (Nat.toDigits base z.natAbs).map case

/-- Wherever the directive stands in a format, its output is the numeral of its argument. -/
def Exact (case : Char → Char)
    (printf : (BitVec 64 → List Char) → (Nat → BitVec 64) → List Char → Nat → Option (List Char))
    (dir : Directive) (v : BitVec 64) : Prop :=
  ∀ string args rest k, args k = v → printf string args (dir.text ++ rest) k =
    emit (some (numeral case dir.base (dir.value v))) (printf string args rest (k + 1))

/-! ## `printint` -/

section Printint

variable {w : Nat} {digits : List Char} {case : Char → Char} {base : Nat}
  {int : BitVec 32 → BitVec w} {long : BitVec 64 → BitVec w} {v : BitVec 64}

theorem store_eq (large : 1 < base) (table : ∀ d < base, digits.getD d '0' = case d.digitChar)
    (room x : Nat) (buf : List Char) : store digits base (room + 1) x buf =
      if x < base ^ (room + 1) then some ((Nat.toDigits base x).map case ++ buf) else none := by
  have positive : 0 < base := by omega
  induction room generalizing x buf with
  | zero =>
    simp only [store, zero_add, pow_one, Nat.div_eq_zero_iff_lt positive]
    split
    next small =>
      rw [Nat.mod_eq_of_lt small, table x small, Nat.toDigits_of_lt_base small]
      rfl
    next => rfl
  | succ room ih =>
    rw [store]
    simp only [table _ (Nat.mod_lt x positive), Nat.div_eq_zero_iff_lt positive]
    split
    next small =>
      rw [if_pos (small.trans_le (Nat.le_self_pow (by omega) base)), Nat.mod_eq_of_lt small,
        Nat.toDigits_of_lt_base small]
      rfl
    next least =>
      rw [ih, Nat.toDigits_of_base_le large (not_lt.mp least), pow_succ base (room + 1)]
      simp [Nat.div_lt_iff_lt_mul positive]

/-- The digits of a numeral give its number back, and none of them is a sign. -/
theorem value_toDigits (large : 1 < base)
    (reads : ∀ d < base, case d.digitChar ≠ '-' ∧ digits.idxOf (case d.digitChar) = d) (x : Nat) :
    '-' ∉ (Nat.toDigits base x).map case ∧
      ((Nat.toDigits base x).map case).foldl (fun n c => base * n + digits.idxOf c) 0 = x := by
  induction x using Nat.strongRecOn with
  | ind x ih =>
    by_cases small : x < base
    · simp [Nat.toDigits_of_lt_base small, reads x small, (reads x small).1.symm]
    · have last := reads (x % base) (Nat.mod_lt x (by omega))
      have before := ih (x / base) (Nat.div_lt_self (by omega) large)
      rw [Nat.toDigits_of_base_le large (not_lt.mp small), List.map_append, List.mem_append,
        List.foldl_append, before.2]
      simp [before.1, last, last.1.symm, Nat.div_add_mod]

theorem numeral_inj (large : 1 < base)
    (reads : ∀ d < base, case d.digitChar ≠ '-' ∧ digits.idxOf (case d.digitChar) = d) {y z : Int}
    (same : numeral case base y = numeral case base z) : y = z := by
  have left := value_toDigits large reads y.natAbs
  have right := value_toDigits large reads z.natAbs
  unfold numeral at same
  split at same <;> split at same
  · rw [List.append_cancel_left same] at left
    omega
  · exact absurd (same ▸ List.mem_cons_self : '-' ∈ [] ++ _) right.1
  · exact absurd (same ▸ List.mem_cons_self : '-' ∈ [] ++ _) left.1
  · rw [List.append_cancel_left same] at left
    omega

/-- What `printint` makes of its argument. -/
def read (xx : BitVec w) (sign : Bool) : Int := if sign then xx.toInt else xx.toNat

variable (case) in
/-- `printint` prints the numeral if it has no more than 16 characters. -/
theorem printint_eq (large : 1 < base) (table : ∀ d < base, digits.getD d '0' = case d.digitChar)
    (xx : BitVec w) (sign : Bool) : printint digits xx base sign =
      if -(base ^ 15 : Nat) < read xx sign ∧ read xx sign < (base ^ 16 : Nat) then
        some (numeral case base (read xx sign)) else none := by
  have bound := xx.isLt
  have value := xx.toInt_eq_toNat_cond
  have some : 0 < base ^ 15 := Nat.pow_pos (by omega)
  have more : base ^ 15 ≤ base ^ 16 := Nat.pow_le_pow_right (by omega) (by decide)
  by_cases negative : sign = true ∧ xx.toInt < 0
  · obtain ⟨rfl, minus⟩ := negative
    have abs : (-xx).toNat = xx.toInt.natAbs := by
      rw [BitVec.toNat_neg, Nat.mod_eq_of_lt] <;> split at value <;> omega
    have length := Nat.length_toDigits_le_iff (n := xx.toInt.natAbs) large (show 0 < 15 by decide)
    by_cases small : xx.toInt.natAbs < base ^ 15
    · rw [if_pos (by simp only [read, if_true]; omega)]
      simp [printint, read, numeral, minus, abs, store_eq large table, small.trans_le more]
      omega
    · rw [if_neg (by simp only [read, if_true]; omega)]
      by_cases fits : xx.toInt.natAbs < base ^ 16
      · simp [printint, minus, abs, store_eq large table, fits]
        omega
      · simp [printint, minus, abs, store_eq large table, fits]
  · have plain : (sign && decide (xx.toInt < 0)) = false := by simpa using negative
    have same : 0 ≤ read xx sign ∧ (read xx sign).natAbs = xx.toNat := by
      unfold read
      split
      next signed =>
        have := not_and.mp negative signed
        split at value <;> omega
      · omega
    have fits : (-(base ^ 15 : Nat) < read xx sign ∧ read xx sign < (base ^ 16 : Nat)) ↔
        xx.toNat < base ^ 16 := by omega
    simp only [fits]
    by_cases small : xx.toNat < base ^ 16 <;>
      simp [printint, numeral, plain, store_eq large table, small, same, not_lt.mpr same.1]

/-- The argument of `printint` in the call for the directive. -/
def Directive.passed (int : BitVec 32 → BitVec w) (long : BitVec 64 → BitVec w)
    (dir : Directive) (v : BitVec 64) : BitVec w :=
  match dir.length with
  | .none => int (v.setWidth 32)
  | _ => long v

/-- A directive is exact if and only if `printint` reads the value in its argument and the
numeral fits into the buffer. -/
theorem exact_iff {dir : Directive} (table : ∀ d < 16, digits.getD d '0' = case d.digitChar)
    (reads : ∀ d < 16, case d.digitChar ≠ '-' ∧ digits.idxOf (case d.digitChar) = d) :
    Exact case (format digits int long) dir v ↔
      read (dir.passed int long v) dir.sign = dir.value v ∧
        -(dir.base ^ 15 : Nat) < dir.value v ∧ dir.value v < (dir.base ^ 16 : Nat) := by
  have base : 1 < dir.base ∧ dir.base ≤ 16 := by
    unfold Directive.base
    split <;> decide
  have number := printint_eq case base.1 (fun d bound => table d (by omega))
    (dir.passed int long v) dir.sign
  have printed : ∀ string args rest k, args k = v →
      format digits int long string args (dir.text ++ rest) k =
        emit (printint digits (dir.passed int long v) dir.base dir.sign)
          (format digits int long string args rest (k + 1)) := by
    rintro string args rest k rfl
    obtain ⟨length, conversion⟩ := dir
    cases length <;> cases conversion <;> rfl
  constructor
  · intro exact
    have alone := exact (fun _ => []) (fun _ => v) [] 0 rfl
    rw [printed _ _ _ _ rfl, number] at alone
    split at alone
    next fits =>
      have same : numeral case dir.base _ ++ [] = numeral case dir.base _ ++ [] :=
        Option.some.inj alone
      rw [List.append_nil, List.append_nil] at same
      have value := numeral_inj base.1 (fun d bound => reads d (by omega)) same
      exact ⟨value, value ▸ fits⟩
    next => cases alone
  · rintro ⟨same, fits⟩ string args rest k arg
    rw [printed _ _ _ _ arg, number, same, if_pos fits]

end Printint

/-! ## Results -/

/-- No more than 16 characters, and no unsigned 32-bit value that the call takes for a
negative `int`. -/
def Kernel.Fits (dir : Directive) (v : BitVec 64) : Prop :=
  match dir.length, dir.conversion with
  | .none, .d => True
  | .none, _ => (v.setWidth 32).toNat < 2 ^ 31
  | _, .d => -10 ^ 15 < v.toInt ∧ v.toInt < 10 ^ 16
  | _, .u => v.toNat < 10 ^ 16
  | _, .x => True

/-- **The kernel's number directives are exact for these values and no others.** -/
theorem Kernel.printf_exact_iff (dir : Directive) (v : BitVec 64) :
    Exact id Kernel.printf dir v ↔ Kernel.Fits dir v := by
  have narrow := (v.setWidth 32).isLt
  have bound := v.isLt
  have int := (v.setWidth 32).toInt_eq_toNat_cond
  have signed : ((v.setWidth 32).signExtend 64).toInt = (v.setWidth 32).toInt :=
    BitVec.toInt_signExtend_of_le (by decide)
  have unsigned := ((v.setWidth 32).signExtend 64).toInt_eq_toNat_cond
  refine (exact_iff (by decide) (by decide)).trans ?_
  obtain ⟨length, conversion⟩ := dir
  cases length <;> cases conversion <;>
    simp only [Directive.base, Directive.value, Directive.sign, Directive.passed, read,
      Kernel.Fits, if_true, Bool.false_eq_true, if_false, signed, id, iff_true, true_and] <;>
    split at int <;> split at unsigned <;> omega

/-- `%lu` of ten to the sixteenth stores past the buffer. -/
theorem Kernel.printf_overflows : ¬ Exact id Kernel.printf ⟨.l, .u⟩ (10 ^ 16) := by
  intro exact
  have printed : none = some _ := exact (fun _ => []) (fun _ => 10 ^ 16) [] 0 rfl
  cases printed

/-- Those of 32 bits. -/
def User.Fits (dir : Directive) (v : BitVec 64) : Prop :=
  match dir.length, dir.conversion with
  | .none, _ => True
  | _, .d => -2 ^ 31 ≤ v.toInt ∧ v.toInt < 2 ^ 31
  | _, _ => v.toNat < 2 ^ 32

/-- **The user library's number directives are exact for these values and no others, and
`printint` never stores past its buffer.** -/
theorem User.vprintf_exact_iff (dir : Directive) (v : BitVec 64) :
    (Exact Char.toUpper User.vprintf dir v ↔ User.Fits dir v) ∧
      ∀ (xx : BitVec 32) (sign : Bool), printint User.digits xx dir.base sign ≠ none := by
  have table : ∀ d < 16, User.digits.getD d '0' = d.digitChar.toUpper := by decide
  constructor
  · have narrow := (v.setWidth 32).isLt
    have bound := v.isLt
    have low : (v.setWidth 32).toNat = v.toNat % 2 ^ 32 := BitVec.toNat_setWidth ..
    have int := (v.setWidth 32).toInt_eq_toNat_cond
    have long := v.toInt_eq_toNat_cond
    refine (exact_iff table (by decide)).trans ?_
    obtain ⟨length, conversion⟩ := dir
    cases length <;> cases conversion <;>
      simp only [Directive.base, Directive.value, Directive.sign, Directive.passed, read,
        User.Fits, if_true, Bool.false_eq_true, if_false, id, iff_true, true_and] <;>
      split at int <;> split at long <;> omega
  · intro xx sign
    have base : 10 ≤ dir.base ∧ dir.base ≤ 16 := by
      unfold Directive.base
      split <;> decide
    have room : 10 ^ 15 ≤ dir.base ^ 15 := Nat.pow_le_pow_left base.1 15
    have more : dir.base ^ 15 ≤ dir.base ^ 16 := Nat.pow_le_pow_right (by omega) (by decide)
    have bound := xx.isLt
    have value := xx.toInt_eq_toNat_cond
    rw [printint_eq Char.toUpper (by omega) fun d bound => table d (by omega), if_pos]
    · exact Option.some_ne_none _
    unfold read
    split at value <;> split <;> omega

/-- `%ld` of ten to the tenth prints the low 32 bits. -/
theorem User.vprintf_truncates : ¬ Exact Char.toUpper User.vprintf ⟨.l, .d⟩ (10 ^ 10) := by
  intro exact
  have printed : some "1410065408".toList = some _ :=
    exact (fun _ => []) (fun _ => 10 ^ 10) [] 0 rfl
  revert printed
  decide

end Xv6.Printf
