/- # Literals as they are spelled

A literal is spelled as a truth value, as a number in base ten or sixteen with any
zeros in front, or as a character in quotes. Each spelling has one value, and reading
finds it, or refuses it where a byte cannot hold it, unless the digits of a decimal
number are too many to be read. A text that is no spelling is no literal. The code of a
byte literal has the literal's value modulo 256 as its operand, from which the value can
be told again.

What carries this is that the readers of numerals accept exactly the digits that are
written for a number, zeros in front apart (`exists_padded_iff`).

Key definitions: `Text.padded`, `Literal.Spelling`, `Literal.Spelling.Fits`,
`Constant.EmittedAs`.
Key theorems: `Text.exists_padded_iff`, `Text.integer?_eq_some_iff`,
`Text.hexadecimal?_eq_some_iff`, `Literal.Spelling.read_text`,
`Literal.read_unspelled`, `literals_exact`.
-/
import Micro51.Code.Expr
import Micro51.Literal
import Micro51.Proofs.LineText
import Micro51.Proofs.OperatorCode

namespace Micro51

open Text

/-! ### Numerals of a base -/

namespace Text

/-- The digits of a number, with zeros in front. -/
def padded (base zeros n : Nat) : Text := List.replicate zeros '0' ++ Nat.toDigits base n

section

variable {base zeros n : Nat} {t : Text} {c : Char}

theorem digitValue_digitChar {d : Nat} (small : d < 16) : digitValue (Nat.digitChar d) = d := by
  have all : ∀ d < 16, digitValue (Nat.digitChar d) = d := by decide
  exact all d small

theorem valueOf_concat : valueOf base (t ++ [c]) = base * valueOf base t + digitValue c := by
  simp [valueOf]

theorem valueOf_cons_zero : valueOf base ('0' :: t) = valueOf base t := by
  have zero : digitValue '0' = 0 := by decide
  simp [valueOf, zero]

/-- The digits that are written for a number have its value. -/
theorem valueOf_toDigits (many : 1 < base) (few : base ≤ 16) :
    valueOf base (Nat.toDigits base n) = n := by
  induction n using Nat.strongRecOn with
  | _ n ih =>
    rw [Nat.toDigits_eq_if many]
    split
    · next small =>
      have digit : n < 16 := Nat.lt_of_lt_of_le small few
      simp [valueOf, digitValue_digitChar digit]
    · have last : n % base < 16 := Nat.lt_of_lt_of_le (Nat.mod_lt n (by omega)) few
      rw [valueOf_concat, ih (n / base) (Nat.div_lt_self (by omega) many),
        digitValue_digitChar last, Nat.div_add_mod]

theorem valueOf_padded (many : 1 < base) (few : base ≤ 16) :
    valueOf base (padded base zeros n) = n := by
  induction zeros with
  | zero => exact valueOf_toDigits many few
  | succ zeros ih => exact valueOf_cons_zero.trans ih

theorem padded_ne_nil : padded base zeros n ≠ [] :=
  List.append_ne_nil_of_right_ne_nil _ Nat.toDigits_ne_nil

theorem exists_digitChar_of_mem_padded (many : 1 < base) (hc : c ∈ padded base zeros n) :
    ∃ d < base, c = Nat.digitChar d := by
  rcases List.mem_append.mp hc with hc | hc
  · exact ⟨0, by omega, List.eq_of_mem_replicate hc⟩
  · exact Solid.exists_digitChar many n c hc

/-- A digit behind the digits of a number: once the number is not zero it is one digit
longer, and before that there is one more zero in front. -/
theorem exists_padded_concat (many : 1 < base) {d : Nat} (small : d < base) :
    ∃ zeros' n', padded base zeros n ++ [Nat.digitChar d] = padded base zeros' n' := by
  rcases Nat.eq_zero_or_pos n with rfl | pos
  · refine ⟨zeros + 1, d, ?_⟩
    rw [padded, padded, Nat.toDigits_zero, Nat.toDigits_of_lt_base small, List.replicate_succ']
  · refine ⟨zeros, base * n + d, ?_⟩
    rw [padded, padded, ← Nat.toDigits_append_toDigits many pos small,
      Nat.toDigits_of_lt_base small, List.append_assoc]

theorem exists_padded (many : 1 < base) (nonempty : t ≠ [])
    (digits : ∀ c ∈ t, ∃ d < base, c = Nat.digitChar d) : ∃ zeros n, t = padded base zeros n := by
  -- from the last digit back: the digits before it already write a number
  induction t using List.reverseRecOn with
  | nil => exact absurd rfl nonempty
  | append_singleton t c ih =>
    obtain ⟨d, small, rfl⟩ := digits c (by simp)
    cases t with
    | nil => exact ⟨0, d, (Nat.toDigits_of_lt_base small).symm⟩
    | cons e t =>
      obtain ⟨zeros, n, whole⟩ := ih (List.cons_ne_nil e t) fun c hc =>
        digits c (List.mem_append_left _ hc)
      rw [whole]
      exact exists_padded_concat many small

/-- **Digits and numbers.** The texts that have only digits and the value `n` are those that
are written for `n`, zeros in front apart. -/
theorem exists_padded_iff (many : 1 < base) (few : base ≤ 16) :
    (∃ zeros, t = padded base zeros n) ↔
      t ≠ [] ∧ (∀ c ∈ t, ∃ d < base, c = Nat.digitChar d) ∧ valueOf base t = n := by
  constructor
  · rintro ⟨zeros, rfl⟩
    exact ⟨padded_ne_nil, fun _ => exists_digitChar_of_mem_padded many, valueOf_padded many few⟩
  · rintro ⟨nonempty, digits, rfl⟩
    obtain ⟨zeros, n, rfl⟩ := exists_padded many nonempty digits
    exact ⟨zeros, by rw [valueOf_padded many few]⟩

/-! ### What the readers accept -/

theorem isHexDigit_iff : isHexDigit c = true ↔ ∃ d < 16, c = Nat.digitChar d := by
  constructor
  · intro digit
    have name : isNameChar c = true := by
      simp only [isHexDigit, Bool.or_eq_true, Bool.and_eq_true, decide_eq_true_eq] at digit
      rcases digit with digit | ⟨low, high⟩
      · simp [isNameChar, digit]
      · have letter : c ≤ 'z' := Nat.le_trans high (by decide)
        simp [isNameChar, isLetter, low, letter]
    -- every character of a name is tried
    have same := of_isNameChar (p := fun c => !isHexDigit c ||
      (digitValue c < 16 && c == Nat.digitChar (digitValue c))) name (by decide +kernel)
    simp only [digit, Bool.not_true, Bool.false_or, Bool.and_eq_true, decide_eq_true_eq,
      beq_iff_eq] at same
    exact ⟨digitValue c, same⟩
  · have all : ∀ d < 16, isHexDigit (Nat.digitChar d) = true := by decide
    rintro ⟨d, small, rfl⟩
    exact all d small

theorem notMem_padded (many : 1 < base) (few : base ≤ 16) (other : isHexDigit c = false) :
    c ∉ padded base zeros n := by
  intro hc
  obtain ⟨d, small, rfl⟩ := exists_digitChar_of_mem_padded many hc
  rw [isHexDigit_iff.mpr ⟨d, Nat.lt_of_lt_of_le small few, rfl⟩] at other
  cases other

theorem isDigit_iff : c.isDigit = true ↔ ∃ d < 10, c = Nat.digitChar d := by
  constructor
  · intro digit
    obtain ⟨d, -, rfl⟩ := isHexDigit_iff.mp (show isHexDigit c = true by simp [isHexDigit, digit])
    rw [Nat.isDigit_digitChar, decide_eq_true_eq] at digit
    exact ⟨d, digit, rfl⟩
  · rintro ⟨d, small, rfl⟩
    rw [Nat.isDigit_digitChar, decide_eq_true_eq]
    exact small

/-- A reader that asks for digits only, and for one at least, accepts what is written for a
number. -/
theorem digits_eq_some_iff (many : 1 < base) (few : base ≤ 16) {p : Char → Bool}
    (digit : ∀ {c}, p c = true ↔ ∃ d < base, c = Nat.digitChar d) :
    (if !t.isEmpty && t.all p then some (valueOf base t) else none) = some n ↔
      ∃ zeros, t = padded base zeros n := by
  rw [exists_padded_iff many few]
  simp only [← digit, Option.ite_none_right_eq_some, Bool.and_eq_true, Bool.not_eq_true',
    List.isEmpty_eq_false_iff, List.all_eq_true, Option.some.injEq, and_assoc, ne_eq]

theorem natural?_eq_some_iff : natural? t = some n ↔ ∃ zeros, t = padded 10 zeros n :=
  digits_eq_some_iff (by decide) (by decide) isDigit_iff

/-- The sign in front of a number. -/
def sign : Bool → Text
  | true => ['-']
  | false => []

theorem integer?_eq_some_iff {z : Int} : integer? t = some z ↔
    ∃ minus zeros n, t = sign minus ++ padded 10 zeros n ∧ z = if minus then -(n : Int) else n := by
  constructor
  · intro number
    unfold integer? at number
    split at number
    · next rest =>
      cases digits : natural? rest with
      | none =>
        rw [digits] at number
        cases number
      | some n =>
        rw [digits] at number
        obtain ⟨zeros, rfl⟩ := natural?_eq_some_iff.mp digits
        exact ⟨true, zeros, n, rfl, (Option.some.inj number).symm⟩
    · obtain ⟨n, digits, rfl⟩ := Option.map_eq_some_iff.mp number
      obtain ⟨zeros, rfl⟩ := natural?_eq_some_iff.mp digits
      exact ⟨false, zeros, n, rfl, rfl⟩
  · rintro ⟨minus, zeros, n, rfl, rfl⟩
    have digits : natural? (padded 10 zeros n) = some n := natural?_eq_some_iff.mpr ⟨zeros, rfl⟩
    cases minus with
    | true =>
      show integer? ('-' :: padded 10 zeros n) = some (-(n : Int))
      rw [integer?, digits]
      rfl
    | false =>
      show integer? (padded 10 zeros n) = some (n : Int)
      unfold integer?
      split
      · next rest whole =>
        have minus : '-' ∉ padded 10 zeros n := notMem_padded (by decide) (by decide) (by decide)
        rw [whole] at minus
        exact absurd List.mem_cons_self minus
      · rw [digits]
        rfl

theorem hexadecimal?_eq_some_iff : hexadecimal? t = some n ↔
    ∃ zeros, withoutFinalNewline t = '0' :: 'x' :: padded 16 zeros n := by
  unfold hexadecimal?
  split
  · next whole =>
    rw [digits_eq_some_iff (by decide) (by decide) isHexDigit_iff, whole]
    simp
  · next other =>
    refine iff_of_false (by simp) ?_
    rintro ⟨zeros, whole⟩
    exact other _ whole

end

end Text

/-! ### Spellings -/

namespace Literal

/-- How a literal is spelled: as a truth value, as a number in base ten or sixteen with zeros
in front of its digits, or as a character in quotes. -/
inductive Spelling where
  | truth (b : Bool)
  | decimal (minus : Bool) (zeros magnitude : Nat)
  | hexadecimal (zeros magnitude : Nat)
  | character (c : Char)
  deriving DecidableEq, Repr

namespace Spelling

/-- The literal as it is written. -/
def text : Spelling → Text
  | truth true => "true".toList
  | truth false => "false".toList
  | decimal minus zeros n => sign minus ++ padded 10 zeros n
  | hexadecimal zeros n => '0' :: 'x' :: padded 16 zeros n
  | character c => [quote, c, quote]

/-- The number that the literal stands for. -/
def value : Spelling → Int
  | truth b => b.toNat
  | decimal minus _ n => if minus then -(n : Int) else n
  | hexadecimal _ n => n
  | character c => c.toNat

/-- The digits of a decimal number, zeros in front included; only of these there can be too
many. -/
def digits : Spelling → Nat
  | decimal _ zeros n => (padded 10 zeros n).length
  | _ => 0

/-- Is the literal a number in two's complement? That is a decimal one where a signed value is
wanted, and every negative one. -/
def complemented (signed : Bool) : Spelling → Bool
  | decimal minus zeros n => signed || (decimal minus zeros n).value < 0
  | _ => false

/-- The type that the literal is given. -/
def type (signed : Bool) : Spelling → VarType
  | truth _ => .bool
  | decimal minus zeros n => if (decimal minus zeros n).complemented signed then .cint else .int
  | hexadecimal .. => if signed then .cint else .int
  | character _ => .char

/-- The least and the greatest value that is allowed. -/
def bounds (signed : Bool) (s : Spelling) : Int × Int :=
  if s.complemented signed then (-128, 127) else (0, 255)

/-- Is the value allowed? -/
def Fits (signed : Bool) (s : Spelling) : Prop :=
  (s.bounds signed).1 ≤ s.value ∧ s.value ≤ (s.bounds signed).2

instance (signed : Bool) (s : Spelling) : Decidable (s.Fits signed) :=
  inferInstanceAs (Decidable (_ ∧ _))

/-- The allowed values as they are told, in the base of the literal. -/
def range (signed : Bool) : Spelling → String
  | hexadecimal .. => "0x00..0xff"
  | s => toString (s.bounds signed).1 ++ ".." ++ toString (s.bounds signed).2

/-- The constant that the literal is. -/
def constant (signed : Bool) (s : Spelling) : Constant :=
  ⟨String.ofList s.text, s.type signed, s.value⟩

/-- Why the literal is refused where its value is not allowed. -/
def refusal (signed : Bool) (s : Spelling) : Cause :=
  .outOfRange (String.ofList s.text) (s.range signed)

end Spelling

/-! ### Reading a spelling -/

section

variable {t : Text} {signed : Bool}

/-- What a reader of numbers accepts is not a word that it refuses. -/
theorem ofList_ne_of_number {N : Type} {reader : Text → Option N} {n : N}
    (number : reader t = some n) (word : String) (refused : reader word.toList = none) :
    String.ofList t ≠ word := by
  rintro rfl
  rw [String.toList_ofList, number] at refused
  cases refused

theorem read_of_hexadecimal {n : Nat} (number : hexadecimal? t = some n) :
    read t signed =
      if n ≤ 255 then .ok (some ⟨String.ofList t, if signed then .cint else .int, n⟩)
      else .error (.outOfRange (String.ofList t) "0x00..0xff") := by
  unfold read
  simp only [if_neg (ofList_ne_of_number number "true" (by decide)),
    if_neg (ofList_ne_of_number number "false" (by decide)), number, gt_iff_lt,
    ← Nat.not_le, ite_not]

theorem read_of_decimal {z : Int} (other : hexadecimal? t = none) (number : decimal? t = some z)
    (short : digitCount t ≤ digitLimit) :
    read t signed =
      if signed || z < 0 then
        if -128 ≤ z ∧ z ≤ 127 then .ok (some ⟨String.ofList t, .cint, z⟩)
        else .error (.outOfRange (String.ofList t) "-128..127")
      else if z ≤ 255 then .ok (some ⟨String.ofList t, .int, z⟩)
      else .error (.outOfRange (String.ofList t) "0..255") := by
  have outside : (decide (z < -128) || decide (z > 127)) = true ↔ ¬(-128 ≤ z ∧ z ≤ 127) := by
    rw [Bool.or_eq_true, decide_eq_true_eq, decide_eq_true_eq]
    omega
  have above : z > 255 ↔ ¬z ≤ 255 := by omega
  unfold read
  simp only [if_neg (ofList_ne_of_number number "true" (by decide)),
    if_neg (ofList_ne_of_number number "false" (by decide)), other,
    number?_eq_some_iff.mpr ⟨number, short⟩, outside, above, ite_not]

/-- A numeral with too many digits is not read, whatever number it writes. -/
theorem read_of_overlong {z : Int} (other : hexadecimal? t = none) (number : decimal? t = some z)
    (long : digitLimit < digitCount t) :
    read t signed = .error (.digitsExceeded (digitCount t)) := by
  have exceeded : number? t = .error (.digitsExceeded (digitCount t)) :=
    number?_eq_error_iff.mpr ⟨rfl, long, by rw [number]; rfl⟩
  unfold read
  simp only [if_neg (ofList_ne_of_number number "true" (by decide)),
    if_neg (ofList_ne_of_number number "false" (by decide)), other, exceeded]

theorem read_character (c : Char) :
    read [quote, c, quote] signed =
      if c.toNat ≤ 255 then .ok (some ⟨String.ofList [quote, c, quote], .char, c.toNat⟩)
      else .error (.outOfRange (String.ofList [quote, c, quote]) "0..255") := by
  have noWord (word : String) (long : word.toList.length ≠ 3) :
      String.ofList [quote, c, quote] ≠ word := by
    rintro rfl
    exact long (by rw [String.toList_ofList]; rfl)
  unfold read
  simp only [if_neg (noWord "true" (by decide)), if_neg (noWord "false" (by decide)),
    show hexadecimal? [quote, c, quote] = none from rfl,
    number?_of_none (show decimal? [quote, c, quote] = none from rfl), gt_iff_lt, ← Nat.not_le,
    ite_not,
    beq_self_eq_true, Bool.and_self, if_true]

end

namespace Spelling

/-- No newline ends a spelling. -/
theorem withoutFinalNewline_text (s : Spelling) : withoutFinalNewline s.text = s.text := by
  have behind (front : Text) {base zeros n : Nat} (many : 1 < base) (few : base ≤ 16) :
      (front ++ padded base zeros n).getLast? ≠ some '\n' := by
    rw [List.getLast?_append_of_ne_nil _ padded_ne_nil]
    intro last
    exact notMem_padded many few (by decide) (List.mem_of_getLast? last)
  refine withoutFinalNewline_eq_self ?_
  cases s with
  | truth b => cases b <;> decide
  | decimal minus zeros n => exact behind (sign minus) (by decide) (by decide)
  | hexadecimal zeros n => exact behind ['0', 'x'] (by decide) (by decide)
  | character c =>
    rw [show (character c).text.getLast? = some quote from rfl]
    decide

/-- The second character keeps the two bases apart. -/
theorem x_notMem_decimal (minus : Bool) (zeros n : Nat) : 'x' ∉ (decimal minus zeros n).text := by
  show 'x' ∉ sign minus ++ padded 10 zeros n
  rw [List.mem_append, not_or]
  refine ⟨?_, notMem_padded (by decide) (by decide) (by decide)⟩
  cases minus <;> decide

theorem hexadecimal?_decimal (minus : Bool) (zeros n : Nat) :
    hexadecimal? (decimal minus zeros n).text = none := by
  rw [Option.eq_none_iff_forall_ne_some]
  intro v number
  obtain ⟨zeros', whole⟩ := hexadecimal?_eq_some_iff.mp number
  rw [withoutFinalNewline_text] at whole
  exact x_notMem_decimal minus zeros n (by simp [whole])

theorem decimal?_decimal (minus : Bool) (zeros n : Nat) :
    decimal? (decimal minus zeros n).text = some (decimal minus zeros n).value := by
  rw [decimal?, withoutFinalNewline_text, integer?_eq_some_iff]
  exact ⟨minus, zeros, n, rfl, rfl⟩

theorem digitCount_decimal (minus : Bool) (zeros n : Nat) :
    digitCount (decimal minus zeros n).text = (decimal minus zeros n).digits := by
  have digit (c : Char) (hc : c ∈ padded 10 zeros n) : c.isDigit = true :=
    isDigit_iff.mpr (exists_digitChar_of_mem_padded (by decide) hc)
  show (sign minus ++ padded 10 zeros n).countP Char.isDigit = (padded 10 zeros n).length
  rw [List.countP_append, List.countP_eq_length.mpr digit]
  cases minus <;> exact Nat.zero_add _

theorem hexadecimal?_hexadecimal (zeros n : Nat) :
    hexadecimal? (hexadecimal zeros n).text = some n :=
  hexadecimal?_eq_some_iff.mpr ⟨zeros, withoutFinalNewline_text _⟩

section

variable {signed : Bool} {s : Spelling}

theorem fits_iff_of_complemented (h : s.complemented signed = true) :
    s.Fits signed ↔ -128 ≤ s.value ∧ s.value ≤ 127 := by
  rw [Fits, bounds, if_pos h]

theorem fits_iff_of_plain (h : s.complemented signed = false) :
    s.Fits signed ↔ 0 ≤ s.value ∧ s.value ≤ 255 := by
  rw [Fits, bounds, if_neg (by simp [h])]

/-- A literal that has no sign only has to be small. -/
theorem fits_iff_of_natural (h : s.complemented signed = false) {n : Nat} (value : s.value = n) :
    s.Fits signed ↔ n ≤ 255 := by
  rw [fits_iff_of_plain h, value]
  omega

end

/-- **A spelling is read as its constant, or refused if its value is not allowed**, unless it
has too many digits. -/
theorem read_text (s : Spelling) (signed : Bool) (short : s.digits ≤ digitLimit) :
    read s.text signed =
      if s.Fits signed then .ok (some (s.constant signed)) else .error (s.refusal signed) := by
  cases s with
  | truth b => cases b <;> cases signed <;> decide
  | decimal minus zeros n =>
    have rule : (signed || decide ((decimal minus zeros n).value < 0)) =
        (decimal minus zeros n).complemented signed := rfl
    rw [← digitCount_decimal] at short
    rw [read_of_decimal (hexadecimal?_decimal minus zeros n) (decimal?_decimal minus zeros n) short,
      rule]
    cases complemented : (decimal minus zeros n).complemented signed with
    | true =>
      simp only [fits_iff_of_complemented complemented, constant, type, refusal, range,
        bounds, complemented, if_true]
      rfl
    | false =>
      -- the lower bound of an unsigned number needs no test: a negative one is never unsigned
      have natural : 0 ≤ (decimal minus zeros n).value := by
        rw [complemented, Bool.or_eq_false_iff, decide_eq_false_iff_not] at rule
        omega
      simp only [fits_iff_of_plain complemented, constant, type, refusal, range,
        bounds, complemented, natural, true_and, Bool.false_eq_true, if_false]
      rfl
  | hexadecimal zeros n =>
    rw [read_of_hexadecimal (hexadecimal?_hexadecimal zeros n)]
    have fits : (hexadecimal zeros n).Fits signed ↔ n ≤ 255 := fits_iff_of_natural rfl rfl
    simp only [fits]
    rfl
  | character c =>
    show read [quote, c, quote] signed = _
    rw [read_character]
    have fits : (character c).Fits signed ↔ c.toNat ≤ 255 := fits_iff_of_natural rfl rfl
    simp only [fits]
    rfl

/-- **A spelling with too many digits is not read.** -/
theorem read_text_of_overlong (s : Spelling) (signed : Bool) (long : digitLimit < s.digits) :
    read s.text signed = .error (.digitsExceeded s.digits) := by
  cases s with
  | decimal minus zeros n =>
    rw [← digitCount_decimal] at long ⊢
    exact read_of_overlong (hexadecimal?_decimal minus zeros n) (decimal?_decimal minus zeros n) long
  | truth | hexadecimal | character => exact absurd long (Nat.not_lt_zero _)

end Spelling

/-- **A text that is no spelling is no literal**, if it is read to its end. -/
theorem read_unspelled {t : Text} {signed : Bool} (last : t.getLast? ≠ some '\n')
    (unspelled : ∀ s : Spelling, s.text ≠ t) : read t signed = .ok none := by
  have whole := withoutFinalNewline_eq_self last
  have noWord (b : Bool) (word : String) (truth : (Spelling.truth b).text = word.toList) :
      String.ofList t ≠ word := by
    rintro rfl
    exact unspelled (.truth b) (truth.trans String.toList_ofList)
  have notHexadecimal : hexadecimal? t = none := by
    rw [Option.eq_none_iff_forall_ne_some]
    intro n number
    obtain ⟨zeros, digits⟩ := hexadecimal?_eq_some_iff.mp number
    exact unspelled (.hexadecimal zeros n) (digits.symm.trans whole)
  have notDecimal : decimal? t = none := by
    rw [Option.eq_none_iff_forall_ne_some]
    intro z number
    rw [decimal?, whole] at number
    obtain ⟨minus, zeros, n, rfl, -⟩ := integer?_eq_some_iff.mp number
    exact unspelled (.decimal minus zeros n) rfl
  unfold read
  simp only [if_neg (noWord true "true" rfl), if_neg (noWord false "false" rfl), notHexadecimal,
    number?_of_none notDecimal]
  split
  · next a c b =>
    rw [if_neg]
    intro quotes
    rw [Bool.and_eq_true, beq_iff_eq, beq_iff_eq] at quotes
    obtain ⟨rfl, rfl⟩ := quotes
    exact unspelled (.character c) rfl
  · rfl

end Literal

/-! ### The operand in the code -/

/-- Wherever the code loads or copies the constant, this is the operand. -/
structure Constant.EmittedAs (c : Constant) (operand : String) : Prop where
  toAcc : (Operand.literal c).loadAcc.map Line.text = ["mov A, " ++ operand]
  toB : (Operand.literal c).loadB.map Line.text = ["mov 0F0h, " ++ operand]
  toVariable : ∀ v : Variable, v.kind = .byte →
    ((Operand.literal c).copyTo v).map Line.text = ["mov " ++ v.placeText ++ ", " ++ operand]

theorem Constant.emittedAs {c : Constant} (byte : c.kind = .byte) :
    c.EmittedAs ("#" ++ toString (byteOf c.value)) where
  toAcc := by
    have acc : "mov " ++ Place.acc.text ++ ", " = "mov A, " := by decide
    simp only [Operand.loadAcc, Operand.kind, byte, List.map_cons, List.map_nil, ← acc]
    rfl
  toB := by
    have b : "mov " ++ regB.text ++ ", " = "mov 0F0h, " := by decide
    simp only [Operand.loadB, Operand.kind, byte, List.map_cons, List.map_nil, ← b]
    rfl
  toVariable v kind := by
    simp only [Operand.copyTo, Variable.placeText, kind, List.map_cons, List.map_nil]
    rfl

theorem byteOf_eq (z : Int) : (byteOf z : Int) = z % 256 := by
  unfold byteOf
  omega

/-- Two's complement gives back what fits in it. -/
theorem toInt_byteOf {z : Int} (low : -128 ≤ z) (high : z ≤ 127) :
    (BitVec.ofNat 8 (byteOf z)).toInt = z := by
  rw [byteOf_toByte, BitVec.toInt_ofInt]
  exact Int.bmod_eq_of_le (by omega) (by omega)

/-- **Literals are read and emitted exactly, up to a number of digits.** Where its value is
allowed, a spelling is read as the constant of that value. The code of a byte then has an operand
`#k`, where `k` is the value modulo 256; read in two's complement for a decimal number of that
kind, else as it stands, `k` gives back the value. Where its value is not allowed, a spelling is
refused for its value. A decimal number of more than 4300 digits, zeros in front included, is not
read and not refused for its value either: its digits are too many. A text that no newline ends
and that is no spelling is not taken for a literal. -/
theorem literals_exact (signed : Bool) :
    (∀ s : Literal.Spelling, s.digits ≤ digitLimit → s.Fits signed →
      Literal.read s.text signed = .ok (some (s.constant signed)) ∧
      ((s.constant signed).kind = .byte → ∃ k : Nat, k ≤ 255 ∧ (k : Int) = s.value % 256 ∧
        (s.constant signed).EmittedAs ("#" ++ toString k) ∧
        (if s.complemented signed then (BitVec.ofNat 8 k).toInt else k) = s.value)) ∧
    (∀ s : Literal.Spelling, s.digits ≤ digitLimit → ¬s.Fits signed →
      Literal.read s.text signed = .error (s.refusal signed) ∧
      (s.refusal signed).category = .value) ∧
    (∀ s : Literal.Spelling, digitLimit < s.digits →
      Literal.read s.text signed = .error (.digitsExceeded s.digits) ∧
      (Cause.digitsExceeded s.digits).category = .limit) ∧
    ∀ t : Text, t.getLast? ≠ some '\n' → (∀ s : Literal.Spelling, s.text ≠ t) →
      Literal.read t signed = .ok none := by
  refine ⟨fun s short fits => ⟨?_, fun byte => ?_⟩, fun s short unfit => ⟨?_, rfl⟩,
    fun s long => ⟨s.read_text_of_overlong signed long, rfl⟩, fun t last unspelled => ?_⟩
  · rw [s.read_text signed short, if_pos fits]
  · have value := byteOf_eq s.value
    refine ⟨byteOf s.value, by omega, value, Constant.emittedAs byte, ?_⟩
    cases complemented : s.complemented signed with
    | true =>
      obtain ⟨low, high⟩ := (Literal.Spelling.fits_iff_of_complemented complemented).mp fits
      exact toInt_byteOf low high
    | false =>
      obtain ⟨low, high⟩ := (Literal.Spelling.fits_iff_of_plain complemented).mp fits
      show (byteOf s.value : Int) = s.value
      omega
  · rw [s.read_text signed short, if_neg unfit]
  · exact Literal.read_unspelled last unspelled

/-- The least negative number, the first that is too great where a sign is wanted, a zero with
more zeros in front than can be read, and a base without digits. -/
theorem literals_exact_edges :
    (Literal.read "-0128".toList false = .ok (some ⟨"-0128", .cint, -128⟩) ∧
      (⟨"-0128", .cint, -128⟩ : Constant).EmittedAs "#128") ∧
    Literal.read "128".toList true = .error (.outOfRange "128" "-128..127") ∧
    Literal.read (List.replicate 4300 '0' ++ ['0']) false = .error (.digitsExceeded 4301) ∧
    Literal.read "0x".toList false = .ok none := by
  have unspelled (s : Literal.Spelling) : s.text ≠ "0x".toList := by
    intro same
    cases s with
    | truth b => cases b <;> exact absurd same (by decide)
    | decimal minus zeros n =>
      exact Literal.Spelling.x_notMem_decimal minus zeros n (by rw [same]; decide)
    | hexadecimal zeros n =>
      have digits : ['0', 'x'] ++ padded 16 zeros n = ['0', 'x'] ++ [] := same
      exact padded_ne_nil (List.append_cancel_left digits)
    | character c =>
      have short : 3 = 2 := congrArg List.length same
      cases short
  obtain ⟨least, emitted⟩ := (literals_exact false).1 (.decimal true 1 128) (by decide) (by decide)
  obtain ⟨k, -, value, operand, -⟩ := emitted rfl
  obtain rfl : k = 128 := by
    have : (-128 : Int) % 256 = 128 := by decide
    exact Int.ofNat.inj (value.trans this)
  obtain ⟨refused, -⟩ := (literals_exact true).2.1 (.decimal false 0 128) (by decide) (by decide)
  have many : (Literal.Spelling.decimal false 4300 0).digits = 4301 := by
    rw [Literal.Spelling.digits, padded, List.length_append, List.length_replicate]
    decide
  obtain ⟨exceeded, -⟩ := (literals_exact false).2.2.1 (.decimal false 4300 0) (by
    rw [many]
    decide)
  rw [many] at exceeded
  exact ⟨⟨least, operand⟩, refused, exceeded, (literals_exact false).2.2.2 _ (by decide) unspelled⟩

/-- Not every decimal number that a byte can hold is read: a zero with enough zeros in front of
it is not. -/
theorem literals_have_digit_limit :
    ¬∀ (signed : Bool) (s : Literal.Spelling), s.Fits signed →
      Literal.read s.text signed = .ok (some (s.constant signed)) := by
  intro all
  have read := all false (.decimal false 4300 0) (by decide)
  rw [Literal.Spelling.read_text_of_overlong] at read
  · cases read
  · rw [Literal.Spelling.digits, padded, List.length_append, List.length_replicate]
    decide

end Micro51
