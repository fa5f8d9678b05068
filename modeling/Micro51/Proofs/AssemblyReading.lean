/- # Lines of assembly are read back from their text

A reader of assembly, as an assembler has one: the first line includes the register
definition file, and what every other line is can be told from its words. An operand is
only read in its range: an address or a number is a byte, a bit is one of eight, a
register one of the bank. A line whose operands are in range, and whose symbol is one
word, is what the reader makes of its text.

Key definitions: `Place.read?`, `Source.read?`, `BitPlace.read?`, `Label.read?`,
`Instr.read?`, `Line.read?`, `readAssembly`, `Named.Fits`, `Line.Worded`, `Line.Ranged`.
Key theorems: `Place.read?_text`, `Source.read?_text`, `BitPlace.read?_text`,
`Instr.read?_operands`, `Line.read?_text`.
-/
import Micro51.Proofs.LineText
import Micro51.Proofs.Operands
import Micro51.Proofs.Spellings

namespace Micro51

open Text

/-! ### A reader of assembly -/

/-- A capital digit of base sixteen. -/
def isCapitalHexDigit (c : Char) : Bool := c.isDigit || ('A' ≤ c && c ≤ 'F')

/-- The number that the digits of base sixteen in front of an `h` write. -/
def hexNumber? (t : Text) : Option Nat :=
  let digits := t.dropLast
  if t.getLast? == some 'h' && !digits.isEmpty && digits.all isCapitalHexDigit then
    some (valueOf 16 (digits.map Char.toLower))
  else none

/-- The number that the digits of base two in front of a `b` write. -/
def binaryNumber? (t : Text) : Option Nat :=
  let digits := t.dropLast
  if t.getLast? == some 'b' && !digits.isEmpty && digits.all (fun c => c == '0' || c == '1') then
    some (valueOf 2 digits)
  else none

/-- A byte in base sixteen, with the zero in front that tells it from a name. -/
def hexByte? : Text → Option Nat
  | '0' :: t => (hexNumber? t).filter (· < 256)
  | _ => none

def Place.read? : Text → Option Place
  | ['A'] => some .acc
  | 'R' :: digits =>
    (((natural? digits).map fun n : Nat => Register.mk n).filter (· ∈ Register.bank)).map .register
  | t => (hexByte? t).map fun n : Nat => .direct n

def Source.read? : Text → Option Source
  | '#' :: t =>
    (hexByte? t).map (.immediate · .hexadecimal) <|>
      ((binaryNumber? t).filter (· < 256)).map (.immediate · .binary) <|>
      ((natural? t).filter (· < 256)).map (.immediate · .decimal)
  | t => (Place.read? t).map .place

def BitPlace.read? (t : Text) : Option BitPlace :=
  match t.splitOn '.' with
  | [place, digit] =>
    ((natural? digit).filter (· < 8)).bind fun n =>
      if place = "acc".toList then some (.acc n)
      else (hexByte? place).map fun a : Nat => .direct a n
  | _ => if t = ['C'] then some .carry else none

def Label.read? : Text → Option Label
  | 'l' :: digits => (natural? digits).map .jump
  | 'M' :: digits => (natural? digits).map .method
  | t => if t = "main".toList then some .main else none

/-! Mnemonics, by the operands that they take. -/

def bareTable : List (String × Instr) := [("ret", .ret), ("reti", .reti), ("nop", .nop)]

def accTable : List (String × Instr) :=
  [("clr", .clrAcc), ("cpl", .cplAcc), ("rlc", .rlc), ("rrc", .rrc)]

def pairTable : List (String × Instr) := [("mul", .mul), ("div", .div)]

def jumpTable : List (String × (Label → Instr)) :=
  [("jmp", .jmp), ("ljmp", .ljmp), ("jz", .jz), ("jc", .jc), ("jnc", .jnc), ("call", .call)]

def bitTable : List (String × (BitPlace → Instr)) := [("setb", .setb), ("clr", .clr), ("cpl", .cpl)]

def placeTable : List (String × (Place → Instr)) := [("inc", .inc), ("dec", .dec)]

def addressTable : List (String × (Int → Instr)) := [("push", .push), ("pop", .pop)]

def moveTable : List (String × (Place → Source → Instr)) :=
  [("mov", .mov), ("anl", .anl), ("orl", .orl), ("xrl", .xrl)]

def moveBitTable : List (String × (BitPlace → BitPlace → Instr)) := [("mov", .movBit)]

def accSourceTable : List (String × (Source → Instr)) := [("add", .add), ("subb", .subb)]

def bitJumpTable : List (String × (BitPlace → Label → Instr)) := [("jb", .jb), ("jnb", .jnb)]

def countTable : List (String × (Place → Label → Instr)) := [("djnz", .djnz)]

def compareTable : List (String × (Source → Label → Instr)) := [("cjne", .cjne)]

/-- The instruction with a mnemonic and operands. -/
def Instr.read? (mnemonic : String) : List Text → Option Instr
  | [] => bareTable.lookup mnemonic
  | [x] =>
    (if x = ['A'] then accTable.lookup mnemonic else none) <|>
    (if x = ['A', 'B'] then pairTable.lookup mnemonic else none) <|>
    (do return (← jumpTable.lookup mnemonic) (← Label.read? x)) <|>
    (do return (← bitTable.lookup mnemonic) (← BitPlace.read? x)) <|>
    (do return (← placeTable.lookup mnemonic) (← Place.read? x)) <|>
    (do return (← addressTable.lookup mnemonic) (← hexByte? x))
  | [x, y] =>
    (do return (← moveTable.lookup mnemonic) (← Place.read? x) (← Source.read? y)) <|>
    (do return (← moveBitTable.lookup mnemonic) (← BitPlace.read? x) (← BitPlace.read? y)) <|>
    (if x = ['A'] then do return (← accSourceTable.lookup mnemonic) (← Source.read? y)
      else none) <|>
    (do return (← bitJumpTable.lookup mnemonic) (← BitPlace.read? x) (← Label.read? y)) <|>
    (do return (← countTable.lookup mnemonic) (← Place.read? x) (← Label.read? y))
  | [x, y, z] =>
    if x = ['A'] then
      do return (← compareTable.lookup mnemonic) (← Source.read? y) (← Label.read? z)
    else none
  | _ => none

/-- The operands among words: behind all but the last is a comma. -/
def operands? : List Text → Option (List Text)
  | [] => some []
  | [x] => some [x]
  | x :: xs => if x.getLast? = some ',' then (operands? xs).map (x.dropLast :: ·) else none

/-- The instruction that a word and the operands behind it make. -/
def codeLine? (word : Text) (words : List Text) : Option Line := do
  return .code (← Instr.read? (String.ofList word) (← operands? words))

/-- The line that a word and the words behind it make. -/
def Line.ofWords? (word : Text) : List Text → Option Line
  | [] =>
    if word = "end".toList then some .endOfCode
    else if word.getLast? = some ':' then (Label.read? word.dropLast).map .label
    else codeLine? word []
  | [operand] =>
    if word = "org".toList then (hexNumber? operand).map .origin else codeLine? word [operand]
  | [kind, place] =>
    if kind = "data".toList then
      (hexByte? place).map fun a : Nat => .byteSymbol (String.ofList word) a
    else if kind = "bit".toList then
      match BitPlace.read? place with
      | some (.direct a n) => some (.bitSymbol (String.ofList word) a n)
      | _ => none
    else codeLine? word [kind, place]
  | words => codeLine? word words

/-- What a line behind the first one is. -/
def Line.read? (t : Text) : Option Line :=
  match t.splitOn ' ' with
  | [] => none
  | word :: words =>
    if word = [';'] then some (.comment (String.ofList (t.drop 2))) else Line.ofWords? word words

/-- The lines that an assembly consists of. -/
def readAssembly (text : String) : Option (List Line) :=
  match text.toList.splitOn '\n' with
  | first :: lines =>
    if "include ".toList.isPrefixOf first && lines.getLast? == some [] then
      (lines.dropLast.mapM Line.read?).map (.registerFile (String.ofList (first.drop 8)) :: ·)
    else none
  | [] => none

/-! ### Numbers -/

theorem natural?_toString (n : Nat) : natural? (toString n).toList = some n := by
  rw [Nat.toString_eq_repr, Nat.toList_repr]
  exact natural?_eq_some_iff.mpr ⟨0, rfl⟩

theorem getLast?_toString_ne {c : Char} (other : c.isDigit = false) (n : Nat) :
    (toString n).toList.getLast? ≠ some c := by
  intro last
  rw [isDigit_of_mem_toString (List.mem_of_getLast? last)] at other
  cases other

theorem writeHex_natCast (n : Nat) :
    ∃ zeros, (writeHex n).toList = (padded 16 zeros n).map Char.toUpper := by
  have sign : ¬(n : Int) < 0 := by omega
  refine ⟨2 - (Nat.toDigits 16 n).length, ?_⟩
  simp [writeHex, padded, sign]

/-- The capital digits of a number are read. -/
theorem hexNumber?_writeHex (n : Nat) : hexNumber? ((writeHex n).toList ++ ['h']) = some n := by
  obtain ⟨zeros, written⟩ := writeHex_natCast n
  have capital : ∀ d < 16, isCapitalHexDigit (Nat.digitChar d).toUpper = true ∧
      (Nat.digitChar d).toUpper.toLower = Nat.digitChar d := by
    decide
  have digits : ((padded 16 zeros n).map Char.toUpper).all isCapitalHexDigit = true := by
    refine List.all_eq_true.mpr fun c hc => ?_
    obtain ⟨x, hx, rfl⟩ := List.mem_map.mp hc
    obtain ⟨d, small, rfl⟩ := exists_digitChar_of_mem_padded (by decide) hx
    exact (capital d small).1
  have small : ((padded 16 zeros n).map Char.toUpper).map Char.toLower = padded 16 zeros n := by
    rw [List.map_map]
    refine (List.map_congr_left fun x hx => ?_).trans (List.map_id _)
    obtain ⟨d, small, rfl⟩ := exists_digitChar_of_mem_padded (by decide) hx
    exact (capital d small).2
  have some_ : ((padded 16 zeros n).map Char.toUpper).isEmpty = false := by
    simpa using padded_ne_nil
  simp only [hexNumber?, written, List.getLast?_concat, List.dropLast_concat, digits, some_, small,
    valueOf_padded (show 1 < 16 by decide) (Nat.le_refl 16), beq_self_eq_true, Bool.not_false,
    Bool.and_self, ↓reduceIte]

theorem binaryNumber?_writeBinary (n : Nat) :
    binaryNumber? ((writeBinary n).toList ++ ['b']) = some n := by
  have written : ∃ zeros, (writeBinary n).toList = padded 2 zeros n :=
    ⟨8 - (Nat.toDigits 2 n).length, by simp [writeBinary, padded]⟩
  obtain ⟨zeros, written⟩ := written
  have digits : (padded 2 zeros n).all (fun c => c == '0' || c == '1') = true := by
    have both : ∀ d < 2, (Nat.digitChar d == '0' || Nat.digitChar d == '1') = true := by decide
    refine List.all_eq_true.mpr fun c hc => ?_
    obtain ⟨d, small, rfl⟩ := exists_digitChar_of_mem_padded (by decide) hc
    exact both d small
  have some_ : (padded 2 zeros n).isEmpty = false := by
    simpa using padded_ne_nil
  simp only [binaryNumber?, written, List.getLast?_concat, List.dropLast_concat, digits, some_,
    valueOf_padded (show 1 < 2 by decide) (show 2 ≤ 16 by decide), beq_self_eq_true,
    Bool.not_false, Bool.and_self, ↓reduceIte]

theorem toList_addressText (n : Nat) :
    (addressText n).toList = '0' :: ((writeHex n).toList ++ ['h']) := by
  simp [addressText]

theorem hexByte?_addressText {n : Nat} (small : n < 256) :
    hexByte? (addressText n).toList = some n := by
  rw [toList_addressText, hexByte?, hexNumber?_writeHex, Option.filter_some,
    if_pos (by simpa using small)]

/-- A byte in base sixteen ends in an `h`. -/
theorem hexByte?_eq_none {t : Text} (h : t.getLast? ≠ some 'h') : hexByte? t = none := by
  unfold hexByte?
  split
  · next rest =>
    have last : rest.getLast? ≠ some 'h' := by
      intro last
      cases rest with
      | nil => cases last
      | cons c rest => exact h last
    simp [hexNumber?, last]
  · rfl

theorem binaryNumber?_eq_none {t : Text} (h : t.getLast? ≠ some 'b') : binaryNumber? t = none := by
  simp [binaryNumber?, h]

/-! ### Operands -/

/-- The operand lies in the range that it is read in. -/
def Named.Fits : Named → Prop
  | byte a => 0 ≤ a ∧ a < 256
  | bit a n => (0 ≤ a ∧ a < 256) ∧ n < 8
  | accBit n => n < 8
  | register r => 0 ≤ r.index ∧ r.index < Target.registerCount
  | number v _ => v < 256

instance : DecidablePred Named.Fits
  | .byte a => inferInstanceAs (Decidable (0 ≤ a ∧ a < 256))
  | .bit a n => inferInstanceAs (Decidable ((0 ≤ a ∧ a < 256) ∧ n < 8))
  | .accBit n => inferInstanceAs (Decidable (n < 8))
  | .register r => inferInstanceAs (Decidable (0 ≤ r.index ∧ r.index < Target.registerCount))
  | .number v _ => inferInstanceAs (Decidable (v < 256))

/-- An address in range is read back. -/
theorem hexByte?_eq {a : Int} (range : 0 ≤ a ∧ a < 256) :
    ∃ n : Nat, hexByte? (addressText a).toList = some n ∧ (n : Int) = a := by
  obtain ⟨n, rfl⟩ := Int.eq_ofNat_of_zero_le range.1
  exact ⟨n, hexByte?_addressText (by omega), rfl⟩

theorem Place.read?_text {p : Place} (fits : ∀ n ∈ p.named, n.Fits) :
    Place.read? p.text.toList = some p := by
  cases p with
  | acc => rfl
  | direct a =>
    have range : (Named.byte a).Fits := fits _ List.mem_cons_self
    obtain ⟨n, read, rfl⟩ := hexByte?_eq range
    have other : Place.read? (addressText n).toList =
        (hexByte? (addressText n).toList).map fun n : Nat => .direct n := by
      rw [toList_addressText]
      rfl
    rw [text, other, read]
    rfl
  | register r =>
    have range : (Named.register r).Fits := fits _ List.mem_cons_self
    obtain ⟨index⟩ := r
    obtain ⟨n, rfl⟩ := Int.eq_ofNat_of_zero_le range.1
    have member : (⟨n⟩ : Register) ∈ Register.bank := Register.mem_bank.mpr range
    have written : (Place.register ⟨n⟩).text.toList = 'R' :: (toString n).toList := by
      rw [text, Register.name, String.toList_append]
      rfl
    rw [written, Place.read?, natural?_toString]
    simp [member]

/-- No place begins like a number. -/
theorem Place.head?_text_ne (p : Place) : p.text.toList.head? ≠ some '#' := by
  cases p <;> simp [text, addressText, Register.name]

theorem Source.read?_text {s : Source} (fits : ∀ n ∈ s.named, n.Fits) :
    Source.read? s.text.toList = some s := by
  cases s with
  | place p =>
    have other : Source.read? p.text.toList = (Place.read? p.text.toList).map .place := by
      unfold Source.read?
      split
      · next same => exact absurd (by rw [same]; rfl) p.head?_text_ne
      · rfl
    rw [text, other, Place.read?_text fits]
    rfl
  | immediate v radix =>
    have small : v < 256 := fits (.number v radix) List.mem_cons_self
    cases radix with
    | decimal =>
      have written : (Source.immediate v .decimal).text.toList = '#' :: (toString v).toList := by
        rw [text, String.toList_append]
        rfl
      rw [written, Source.read?, hexByte?_eq_none (getLast?_toString_ne (by decide) v),
        binaryNumber?_eq_none (getLast?_toString_ne (by decide) v), natural?_toString]
      simp [small]
    | hexadecimal =>
      have written : (Source.immediate v .hexadecimal).text.toList =
          '#' :: (addressText v).toList := by
        rw [text, String.toList_append]
        rfl
      rw [written, Source.read?, hexByte?_addressText small]
      rfl
    | binary =>
      have written : (Source.immediate v .binary).text.toList =
          '#' :: ((writeBinary v).toList ++ ['b']) := by
        rw [text, String.toList_append, String.toList_append]
        rfl
      have notHex : hexByte? ((writeBinary v).toList ++ ['b']) = none :=
        hexByte?_eq_none (by simp)
      rw [written, Source.read?, notHex, binaryNumber?_writeBinary]
      simp [small]

/-- A bit is written as a place, a point and the number of the bit. -/
theorem splitOn_point {place digit : Text} (hp : '.' ∉ place) (hd : '.' ∉ digit) :
    (place ++ '.' :: digit).splitOn '.' = [place, digit] := by
  have pieces : ∀ l ∈ [place, digit], '.' ∉ l := by simpa using ⟨hp, hd⟩
  have split := List.splitOn_intercalate '.' pieces (List.cons_ne_nil _ _)
  simpa [List.intercalate] using split

theorem point_notMem_toString (n : Nat) : '.' ∉ (toString n).toList := by
  intro h
  exact absurd (isDigit_of_mem_toString h) (by decide)

theorem point_notMem_addressText (n : Nat) : '.' ∉ (addressText n).toList := by
  obtain ⟨zeros, written⟩ := writeHex_natCast n
  have visible : ∀ d < 16, '.' ≠ (Nat.digitChar d).toUpper := by decide
  rw [toList_addressText, written]
  simp only [List.mem_cons, List.mem_append, List.mem_map, List.not_mem_nil, or_false, not_or]
  refine ⟨by decide, ?_, by decide⟩
  rintro ⟨x, hx, same⟩
  obtain ⟨d, small, rfl⟩ := exists_digitChar_of_mem_padded (by decide) hx
  exact visible d small same.symm

theorem BitPlace.read?_text {x : BitPlace} (fits : ∀ n ∈ x.named, n.Fits) :
    BitPlace.read? x.text.toList = some x := by
  cases x with
  | carry => decide +kernel
  | acc n =>
    have small : n < 8 := fits (.accBit n) List.mem_cons_self
    have written : (BitPlace.acc n).text.toList = "acc".toList ++ '.' :: (toString n).toList := by
      rw [text, String.toList_append]
      rfl
    have split := splitOn_point (show '.' ∉ "acc".toList by decide) (point_notMem_toString n)
    simp only [written, BitPlace.read?, split, natural?_toString, Option.filter_some, small,
      decide_true, ↓reduceIte, Option.bind_some]
  | direct a n =>
    have range : (Named.bit a n).Fits := fits _ List.mem_cons_self
    obtain ⟨⟨low, high⟩, small⟩ := range
    obtain ⟨k, rfl⟩ := Int.eq_ofNat_of_zero_le low
    have written : (BitPlace.direct k n).text.toList =
        (addressText k).toList ++ '.' :: (toString n).toList := by
      rw [text, bitText, String.toList_append, String.toList_append, List.append_assoc]
      rfl
    have other : (addressText k).toList ≠ "acc".toList := by
      rw [toList_addressText]
      exact fun same => absurd (List.cons.inj same).1 (by decide)
    have byte : k < 256 := by omega
    have split := splitOn_point (point_notMem_addressText k) (point_notMem_toString n)
    simp only [written, BitPlace.read?, split, natural?_toString, hexByte?_addressText byte,
      Option.filter_some, small, other, decide_true, ↓reduceIte, Option.bind_some, Option.map_some]

theorem Label.read?_name (l : Label) : Label.read? l.name.toList = some l := by
  cases l with
  | main => rfl
  | jump n | method n =>
    rw [name, String.toList_append]
    show (natural? (toString n).toList).map _ = _
    rw [natural?_toString]
    rfl

/-- A bit is no place. -/
theorem Place.read?_bitPlace (x : BitPlace) : Place.read? x.text.toList = none := by
  cases x with
  | carry => rfl
  | acc n => simp [BitPlace.text, Place.read?, hexByte?]
  | direct a n =>
    have written : (BitPlace.direct a n).text.toList =
        '0' :: ((writeHex a).toList ++ 'h' :: '.' :: (toString n).toList) := by
      rw [BitPlace.text, bitText, addressText]
      simp only [String.toList_append, List.append_assoc]
      rfl
    have last : (BitPlace.direct a n).text.toList.getLast? ≠ some 'h' := by
      have some_ : (toString n).toList ≠ [] := by simp
      rw [written, List.getLast?_cons_of_ne_nil (by simp),
        List.getLast?_append_of_ne_nil _ (by simp),
        List.getLast?_cons_of_ne_nil (by simp), List.getLast?_cons_of_ne_nil some_]
      exact getLast?_toString_ne (by decide) n
    have other : Place.read? (BitPlace.direct a n).text.toList =
        (hexByte? (BitPlace.direct a n).text.toList).map fun n : Nat => .direct n := by
      rw [written]
      rfl
    rw [other, hexByte?_eq_none last]
    rfl

/-! ### Instructions -/

/-- The mnemonic of an instruction. -/
def Instr.mnemonic : Instr → String
  | mov .. | movBit .. => "mov"
  | setb _ => "setb"
  | clr _ | clrAcc => "clr"
  | cpl _ | cplAcc => "cpl"
  | anl .. => "anl"
  | orl .. => "orl"
  | xrl .. => "xrl"
  | add _ => "add"
  | subb _ => "subb"
  | mul => "mul"
  | div => "div"
  | inc _ => "inc"
  | dec _ => "dec"
  | rlc => "rlc"
  | rrc => "rrc"
  | jmp _ => "jmp"
  | ljmp _ => "ljmp"
  | jz _ => "jz"
  | jc _ => "jc"
  | jnc _ => "jnc"
  | jb .. => "jb"
  | jnb .. => "jnb"
  | cjne .. => "cjne"
  | djnz .. => "djnz"
  | call _ => "call"
  | ret => "ret"
  | reti => "reti"
  | push _ => "push"
  | pop _ => "pop"
  | nop => "nop"

/-- The operands of an instruction as they are written. -/
def Instr.operands : Instr → List String
  | mov d s | anl d s | orl d s | xrl d s => [d.text, s.text]
  | movBit d s => [d.text, s.text]
  | setb x | clr x | cpl x => [x.text]
  | clrAcc | cplAcc | rlc | rrc => ["A"]
  | add s | subb s => ["A", s.text]
  | mul | div => ["AB"]
  | inc d | dec d => [d.text]
  | jmp l | ljmp l | jz l | jc l | jnc l | call l => [l.name]
  | jb x l | jnb x l => [x.text, l.name]
  | cjne s l => ["A", s.text, l.name]
  | djnz d l => [d.text, l.name]
  | push a | pop a => [addressText a]
  | ret | reti | nop => []

/-- The words of an instruction behind its mnemonic: a comma follows each operand but the
last. -/
def withCommas : List String → List String
  | [] => []
  | [x] => [x]
  | x :: xs => (x ++ ",") :: withCommas xs

theorem operands?_withCommas (ws : List String) :
    operands? ((withCommas ws).map String.toList) = some (ws.map String.toList) := by
  fun_induction withCommas ws with
  | case1 => rfl
  | case2 x => rfl
  | case3 x xs more ih =>
    have last : (x ++ ",").toList.getLast? = some ',' := by simp
    have front : (x ++ ",").toList.dropLast = x.toList := by simp
    have words : (withCommas xs).map String.toList ≠ [] := by
      intro none
      rw [none] at ih
      exact more (List.map_eq_nil_iff.mp (Option.some.inj ih).symm)
    rw [List.map_cons, operands?, last, if_pos rfl, ih, front]
    · rfl
    · exact words

theorem Instr.text_eq (i : Instr) :
    i.text Label.name = " ".intercalate (i.mnemonic :: withCommas i.operands) := by
  apply String.toList_inj.mp
  cases i <;> simp [text, mnemonic, operands, withCommas]

theorem Instr.solid_words (i : Instr) : ∀ w ∈ i.mnemonic :: withCommas i.operands, Solid w := by
  have comma : Solid "," := by decide
  have acc : Solid "A" := by decide
  cases i <;> simp [mnemonic, operands, withCommas, comma, acc] <;> decide

/-- **An instruction is read back** from its mnemonic and its operands. -/
theorem Instr.read?_operands {i : Instr} (fits : ∀ n ∈ i.named, n.Fits) :
    Instr.read? i.mnemonic (i.operands.map String.toList) = some i := by
  cases i with
  | mov d s | anl d s | orl d s | xrl d s =>
    obtain ⟨hd, hs⟩ := List.forall_mem_append.mp fits
    simp [mnemonic, operands, Instr.read?, List.lookup_cons, moveTable, Place.read?_text hd,
      Source.read?_text hs]
  | movBit d s =>
    obtain ⟨hd, hs⟩ := List.forall_mem_append.mp fits
    simp [mnemonic, operands, Instr.read?, moveTable, moveBitTable, Place.read?_bitPlace,
      BitPlace.read?_text hd, BitPlace.read?_text hs]
  | setb x | clr x | cpl x =>
    have other : x.text.toList ≠ ['A'] := by
      intro same
      have none := Place.read?_bitPlace x
      rw [same] at none
      cases none
    simp [mnemonic, operands, Instr.read?, List.lookup_cons, jumpTable, bitTable, pairTable,
      BitPlace.read?_text fits, other]
  | jb x l | jnb x l =>
    simp [mnemonic, operands, Instr.read?, List.lookup_cons, moveTable, moveBitTable,
      accSourceTable, bitJumpTable, BitPlace.read?_text fits, Label.read?_name]
  | add s | subb s =>
    simp [mnemonic, operands, Instr.read?, List.lookup_cons, moveTable, moveBitTable,
      accSourceTable, Source.read?_text fits]
  | cjne s l =>
    simp [mnemonic, operands, Instr.read?, compareTable, Source.read?_text fits, Label.read?_name]
  | inc d | dec d =>
    simp [mnemonic, operands, Instr.read?, List.lookup_cons, accTable, pairTable, jumpTable,
      bitTable, placeTable, Place.read?_text fits]
  | djnz d l =>
    simp [mnemonic, operands, Instr.read?, List.lookup_cons, moveTable, moveBitTable,
      accSourceTable, bitJumpTable, countTable, Place.read?_text fits, Label.read?_name]
  | jmp l | ljmp l | jz l | jc l | jnc l | call l =>
    simp [mnemonic, operands, Instr.read?, List.lookup_cons, accTable, pairTable, jumpTable,
      Label.read?_name]
  | push a | pop a =>
    have range : (Named.byte a).Fits := fits _ List.mem_cons_self
    obtain ⟨n, read, rfl⟩ := hexByte?_eq range
    simp [mnemonic, operands, Instr.read?, List.lookup_cons, accTable, pairTable, jumpTable,
      bitTable, placeTable, addressTable, read]
  | clrAcc | cplAcc | rlc | rrc =>
    simp [mnemonic, operands, Instr.read?, List.lookup_cons, accTable]
  | mul | div => simp [mnemonic, operands, Instr.read?, List.lookup_cons, pairTable]
  | ret | reti | nop => simp [mnemonic, operands, Instr.read?, List.lookup_cons, bareTable]

/-! ### Lines -/

/-- The line has no symbol, or its symbol is a word of its own. -/
def Line.Worded : Line → Prop
  | byteSymbol s _ | bitSymbol s _ _ => Solid s ∧ s ≠ ";"
  | _ => True

/-- The line is none that includes a file, and its operands are in their ranges. -/
def Line.Ranged : Line → Prop
  | registerFile _ => False
  | x => ∀ n ∈ x.named, n.Fits

theorem splitOn_words {words : List String} (ne : words ≠ []) (solid : ∀ w ∈ words, Solid w) :
    (" ".intercalate words).toList.splitOn ' ' = words.map String.toList := by
  rw [String.toList_intercalate]
  refine List.splitOn_intercalate ' ' (fun l hl => ?_) (by simpa using ne)
  obtain ⟨w, hw, rfl⟩ := List.mem_map.mp hl
  exact (solid w hw).1

/-- A line that is written as words is read from them. -/
theorem Line.read?_of_words {x : Line} {word : String} {words : List String}
    (written : x.text = " ".intercalate (word :: words)) (solid : ∀ w ∈ word :: words, Solid w)
    (other : word ≠ ";") (reads : ofWords? word.toList (words.map String.toList) = some x) :
    Line.read? x.text.toList = some x := by
  have other : word.toList ≠ [';'] := fun same => other (String.toList_inj.mp same)
  simp only [Line.read?, written, splitOn_words (List.cons_ne_nil _ _) solid, List.map_cons, other,
    ↓reduceIte, reads]

/-- No mnemonic is taken for anything else. -/
theorem Instr.mnemonic_ne (i : Instr) : i.mnemonic ≠ ";" ∧ i.mnemonic.toList ≠ "end".toList ∧
    i.mnemonic.toList ≠ "org".toList ∧ i.mnemonic.toList.getLast? ≠ some ':' := by
  cases i <;> simp [mnemonic]

theorem Line.ofWords?_code {i : Instr} (fits : ∀ n ∈ i.named, n.Fits) :
    ofWords? i.mnemonic.toList ((withCommas i.operands).map String.toList) = some (.code i) := by
  have reads : codeLine? i.mnemonic.toList ((withCommas i.operands).map String.toList) =
      some (.code i) := by
    rw [codeLine?, operands?_withCommas, String.ofList_toList]
    simp [Instr.read?_operands fits]
  obtain ⟨-, notEnd, notOrg, noColon⟩ := i.mnemonic_ne
  have comma {x : String} {word : Text} (h : word.getLast? ≠ some ',') :
      (x ++ ",").toList ≠ word := by
    rintro rfl
    exact h (by simp)
  rw [← reads]
  generalize i.operands = operands
  rcases operands with - | ⟨x, - | ⟨y, - | ⟨z, rest⟩⟩⟩
  · exact (if_neg notEnd).trans (if_neg noColon)
  · exact if_neg notOrg
  · exact (if_neg (comma (by decide))).trans (if_neg (comma (by decide)))
  · cases rest <;> rfl

/-- **A line is read back from its text.** -/
theorem Line.read?_text {x : Line} (worded : x.Worded) (ranged : x.Ranged) :
    Line.read? x.text.toList = some x := by
  cases x with
  | code i =>
    exact read?_of_words i.text_eq i.solid_words i.mnemonic_ne.1 (ofWords?_code ranged)
  | label l =>
    have written : (Line.label l).text = " ".intercalate [l.name ++ ":"] := by
      simp [text, textWith]
    refine read?_of_words written ?_ ?_ ?_
    · exact List.forall_mem_singleton.mpr (Solid.append_iff.mpr ⟨Solid.label l, by decide⟩)
    · intro same
      have last := congrArg (·.toList.getLast?) same
      simp at last
    · have notEnd : (l.name ++ ":").toList ≠ "end".toList := by
        intro same
        have last := congrArg List.getLast? same
        simp at last
      have colon : (l.name ++ ":").toList.getLast? = some ':' := by simp
      have front : (l.name ++ ":").toList.dropLast = l.name.toList := by simp
      rw [List.map_nil, ofWords?, if_neg notEnd, if_pos colon, front, Label.read?_name]
      rfl
  | comment t =>
    have split : (Line.comment t).text.toList.splitOn ' ' = [';'] :: t.toList.splitOn ' ' := by
      rw [text, textWith, String.toList_append]
      show List.splitOn ' ' ([';'] ++ ' ' :: t.toList) = _
      rw [List.splitOn, List.splitOnP_append_cons _ _ (by simp)]
      rfl
    have rest : (Line.comment t).text.toList.drop 2 = t.toList := by
      rw [text, textWith, String.toList_append]
      rfl
    simp only [Line.read?, split, ↓reduceIte, rest, String.ofList_toList]
  | byteSymbol s a =>
    obtain ⟨solid, other⟩ := worded
    have range : (Named.byte a).Fits := ranged _ List.mem_cons_self
    have written : (Line.byteSymbol s a).text = " ".intercalate [s, "data", addressText a] := by
      apply String.toList_inj.mp
      simp [text, textWith]
    refine read?_of_words written ?_ other ?_
    · simp [solid]; decide
    · obtain ⟨n, read, rfl⟩ := hexByte?_eq range
      simp [ofWords?, read]
  | bitSymbol s a n =>
    obtain ⟨solid, other⟩ := worded
    have written : (Line.bitSymbol s a n).text = " ".intercalate [s, "bit", bitText a n] := by
      apply String.toList_inj.mp
      simp [text, textWith]
    refine read?_of_words written ?_ other ?_
    · simp [solid]; decide
    · have read : BitPlace.read? (bitText a n).toList = some (.direct a n) :=
        BitPlace.read?_text (x := .direct a n) ranged
      simp [ofWords?, read]
  | origin a =>
    have written : (Line.origin a).text = " ".intercalate ["org", writeHex a ++ "h"] := by
      apply String.toList_inj.mp
      simp [text, textWith]
    refine read?_of_words written ?_ (by decide) ?_
    · simp; decide
    · simp [ofWords?, hexNumber?_writeHex]
  | registerFile f => exact ranged.elim
  | endOfCode => decide +kernel

theorem mapM_read?_text {lines : List Line} (worded : ∀ x ∈ lines, x.Worded)
    (ranged : ∀ x ∈ lines, x.Ranged) :
    (lines.map (·.text.toList)).mapM Line.read? = some lines := by
  induction lines with
  | nil => rfl
  | cons x lines ih =>
    obtain ⟨word, words⟩ := List.forall_mem_cons.mp worded
    obtain ⟨range, ranges⟩ := List.forall_mem_cons.mp ranged
    rw [List.map_cons, List.mapM_cons, Line.read?_text word range, ih words ranges]
    rfl

end Micro51
