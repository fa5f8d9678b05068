/- # Lines as they are written

A label is told apart by its text: no other line is written like a line that
defines a label, and no two labels are written alike. All that the generator
writes on a line stays on it, so the text of an assembly falls into its lines
again.

Key definitions: `Solid`, `OneLine`, `Written`.
Key theorems: `Label.name_injective`, `Line.text_eq_label_iff`,
`count_labelText`, `written_pieces`, `splitOn_assemblyText`.
-/
import Mathlib.Data.List.Basic
import Micro51.Proofs.Machine
import Micro51.Proofs.Trimming
import Micro51.Code

namespace Micro51

/-! ### Numbers and labels -/

theorem isDigit_of_mem_toString {n : Nat} {c : Char} (hc : c ∈ (toString n).toList) :
    c.isDigit = true := by
  rw [Nat.toString_eq_repr, Nat.toList_repr] at hc
  exact Nat.isDigit_of_mem_toDigits (by decide) (by decide) hc

theorem Label.name_injective : Function.Injective Label.name := by
  have digits {n : Nat} {c : Char} (hc : c ∈ Nat.toDigits 10 n) : c.isDigit = true :=
    Nat.isDigit_of_mem_toDigits (by decide) (by decide) hc
  have main {n : Nat} (h : ['a', 'i', 'n'] = Nat.toDigits 10 n) : False := by
    have : 'a' ∈ Nat.toDigits 10 n := by rw [← h]; simp
    exact absurd (digits this) (by decide)
  have number {n m : Nat} (h : Nat.toDigits 10 n = Nat.toDigits 10 m) : n = m := by
    have h := congrArg (Nat.ofDigitChars 10 · 0) h
    simpa only [Nat.ofDigitChars_toDigits (show 1 < 10 by decide) (Nat.le_refl 10)] using h
  intro a b h
  have h := congrArg String.toList h
  cases a <;> cases b <;> simp [name] at h <;>
    first
    | rfl
    | rw [number h]

/-! ### Words and lines -/

/-- The text has neither a blank nor a line break in it. -/
def Solid (s : String) : Prop := ' ' ∉ s.toList ∧ '\n' ∉ s.toList

instance (s : String) : Decidable (Solid s) := inferInstanceAs (Decidable (_ ∧ _))

namespace Solid

@[simp] theorem append_iff {s t : String} : Solid (s ++ t) ↔ Solid s ∧ Solid t := by
  simp only [Solid, String.toList_append, List.mem_append, not_or]
  exact and_and_and_comm

theorem exists_digitChar {b : Nat} (hb : 1 < b) (n : Nat) :
    ∀ c ∈ Nat.toDigits b n, ∃ d < b, c = Nat.digitChar d := by
  induction n using Nat.strongRecOn with
  | _ n ih =>
    intro c hc
    rw [Nat.toDigits_eq_if hb] at hc
    split at hc
    · next hn => exact ⟨n, hn, List.mem_singleton.mp hc⟩
    · next hn =>
      rcases List.mem_append.mp hc with hc | hc
      · exact ih (n / b) (Nat.div_lt_self (by omega) hb) c hc
      · exact ⟨_, Nat.mod_lt _ (by omega), List.mem_singleton.mp hc⟩

/-- Digits, capital or not, are solid. -/
theorem of_digits {t : Text}
    (digits : ∀ c ∈ t, ∃ d < 16, c = Nat.digitChar d ∨ c = (Nat.digitChar d).toUpper) :
    Solid (String.ofList t) := by
  have visible : ∀ d < 16, (' ' ≠ Nat.digitChar d ∧ ' ' ≠ (Nat.digitChar d).toUpper) ∧
      '\n' ≠ Nat.digitChar d ∧ '\n' ≠ (Nat.digitChar d).toUpper := by
    decide
  rw [Solid, String.toList_ofList]
  constructor
  · intro h
    obtain ⟨d, lt, same | same⟩ := digits _ h
    · exact (visible d lt).1.1 same
    · exact (visible d lt).1.2 same
  · intro h
    obtain ⟨d, lt, same | same⟩ := digits _ h
    · exact (visible d lt).2.1 same
    · exact (visible d lt).2.2 same

theorem toDigits {b : Nat} (hb : 1 < b) (few : b ≤ 16) (n : Nat) :
    Solid (String.ofList (Nat.toDigits b n)) := by
  refine of_digits fun c hc => ?_
  obtain ⟨d, lt, hd⟩ := exists_digitChar hb n c hc
  exact ⟨d, by omega, .inl hd⟩

@[simp] theorem zeros (n : Nat) : Solid (String.ofList (List.replicate n '0')) :=
  of_digits fun _ hc => ⟨0, by decide, .inl (List.eq_of_mem_replicate hc)⟩

@[simp] theorem toString_nat (n : Nat) : Solid (toString n) := by
  rw [Nat.toString_eq_ofList_toDigits]
  exact toDigits (by decide) (by decide) n

@[simp] theorem toString_int (n : Int) : Solid (toString n) := by
  cases n with
  | ofNat n => exact toString_nat n
  | negSucc n =>
    show Solid ("-" ++ toString (n + 1))
    simp only [append_iff, toString_nat, and_true]
    decide

@[simp] theorem writeHex (n : Int) : Solid (Text.writeHex n) := by
  have digits : Solid (String.ofList ((Nat.toDigits 16 n.natAbs).map Char.toUpper)) := by
    refine of_digits fun c hc => ?_
    obtain ⟨x, hx, rfl⟩ := List.mem_map.mp hc
    obtain ⟨d, lt, rfl⟩ := exists_digitChar (by decide) _ _ hx
    exact ⟨d, lt, .inr rfl⟩
  simp only [Text.writeHex, String.ofList_append, append_iff, zeros, true_and]
  split
  · rw [show '-' :: (Nat.toDigits 16 n.natAbs).map Char.toUpper = ['-'] ++ _ from rfl,
      String.ofList_append, append_iff]
    exact ⟨by decide, digits⟩
  · exact digits

@[simp] theorem writeBinary (n : Nat) : Solid (Text.writeBinary n) := by
  simp only [Text.writeBinary, String.ofList_append, append_iff, zeros, true_and]
  exact toDigits (by decide) (by decide) n

@[simp] theorem addressText (a : Int) : Solid (Micro51.addressText a) := by
  simp only [Micro51.addressText, append_iff, writeHex, and_true]
  decide

@[simp] theorem bitText (a : Int) (n : Int) : Solid (Micro51.bitText a n) := by
  simp only [Micro51.bitText, append_iff, addressText, toString_int, and_true]
  decide

@[simp] theorem label (l : Label) : Solid l.name := by
  cases l with
  | main => decide
  | jump n | method n =>
    simp only [Label.name, append_iff, toString_nat, and_true]
    decide

@[simp] theorem place (x : Place) : Solid x.text := by
  cases x with
  | acc => decide
  | direct a => exact addressText a
  | register r =>
    simp only [Place.text, Register.name, append_iff, toString_int, and_true]
    decide

@[simp] theorem source (x : Source) : Solid x.text := by
  have hash : Solid "#" := by decide
  have base : Solid "b" := by decide
  cases x with
  | place x => exact place x
  | immediate v radix =>
    cases radix <;> simp only [Source.text, append_iff, toString_nat, addressText, writeBinary,
      hash, base, and_true]

@[simp] theorem bitPlace (x : BitPlace) : Solid x.text := by
  cases x with
  | carry => decide
  | acc n =>
    simp only [BitPlace.text, append_iff, toString_nat, and_true]
    decide
  | direct a n => exact bitText a n

end Solid

/-- The text has no line break in it. -/
def OneLine (s : String) : Prop := '\n' ∉ s.toList

instance (s : String) : Decidable (OneLine s) := inferInstanceAs (Decidable ('\n' ∉ s.toList))

theorem Solid.oneLine {s : String} (h : Solid s) : OneLine s := h.2

namespace OneLine

@[simp] theorem append_iff {s t : String} : OneLine (s ++ t) ↔ OneLine s ∧ OneLine t := by
  simp [OneLine]

@[simp] theorem label (l : Label) : OneLine l.name := (Solid.label l).oneLine

/-- An instruction is written on one line. -/
@[simp] theorem instr (i : Instr) : OneLine (i.text Label.name) := by
  cases i <;> simp only [Instr.text, append_iff, label, Solid.oneLine, Solid.place, Solid.source,
    Solid.bitPlace, Solid.addressText, and_true] <;> decide

end OneLine

/-! ### Lines that define labels -/

/-- An instruction is written with a blank behind its mnemonic, or without any
operand. -/
theorem Instr.blank_mem_text (i : Instr) :
    ' ' ∈ (i.text Label.name).toList ∨ ':' ∉ (i.text Label.name).toList := by
  cases i <;> simp [Instr.text]

/-- Only the line that defines a label is written like one. -/
theorem Line.text_eq_label_iff {x : Line} {l : Label} : x.text = l.name ++ ":" ↔ x = .label l := by
  constructor
  · intro h
    have blank : ' ' ∉ x.text.toList := by
      rw [h]
      simpa using (Solid.label l).1
    have colon : ':' ∈ x.text.toList := by
      rw [h]
      simp
    cases x with
    | label l' =>
      have h := congrArg String.toList h
      simp only [text, textWith, String.toList_append] at h
      rw [Label.name_injective (String.toList_inj.mp (List.append_cancel_right h))]
    | code i =>
      rcases i.blank_mem_text with hi | hi
      · exact absurd hi blank
      · exact absurd colon hi
    | endOfCode => exact absurd colon (by decide)
    | _ => exact absurd (by simp [text, textWith]) blank
  · rintro rfl
    rfl

/-- As often as a label is defined, its line stands in the text. -/
theorem count_labelText (lines : List Line) (l : Label) :
    (lines.map Line.text).count (l.name ++ ":") = (definedLabels lines).count l := by
  induction lines with
  | nil => rfl
  | cons x lines ih =>
    rw [List.map_cons, List.count_cons, ih]
    by_cases hx : x = .label l
    · subst hx
      rw [if_pos (by simp [Line.text, Line.textWith]), definedLabels_label, List.count_cons_self]
    · rw [if_neg (by simpa [Line.text_eq_label_iff] using hx), Nat.add_zero]
      cases x with
      | label l' =>
        have ne : l' ≠ l := fun h => hx (h ▸ rfl)
        rw [definedLabels_label, List.count_cons_of_ne ne]
      | _ => rfl

/-! ### Lines of code -/

/-- Every one of the lines is written on one line. -/
def Written (lines : List Line) : Prop := ∀ x ∈ lines, OneLine x.text

namespace Written

@[simp] theorem nil : Written [] := List.forall_mem_nil _

@[simp] theorem append_iff {xs ys : List Line} : Written (xs ++ ys) ↔ Written xs ∧ Written ys :=
  List.forall_mem_append

@[simp] theorem code_iff {i : Instr} {xs : List Line} : Written (.code i :: xs) ↔ Written xs := by
  rw [Written, List.forall_mem_cons]
  exact and_iff_right (OneLine.instr i)

@[simp] theorem label_iff {l : Label} {xs : List Line} : Written (.label l :: xs) ↔ Written xs := by
  rw [Written, List.forall_mem_cons]
  refine and_iff_right ?_
  show OneLine (l.name ++ ":")
  simp only [OneLine.append_iff, OneLine.label, true_and]
  decide

theorem flatMap {α : Type} {f : α → List Line} {zs : List α} (h : ∀ z ∈ zs, Written (f z)) :
    Written (zs.flatMap f) := by
  intro x hx
  obtain ⟨z, hz, hx⟩ := List.mem_flatMap.mp hx
  exact h z hz x hx

end Written

/-! ### Code is written on lines of its own -/

@[simp] theorem written_moveBit (o : Operand) (dst : BitPlace) : Written (moveBit o dst) := by
  cases o <;> simp [moveBit]

@[simp] theorem Operand.written_loadAcc (o : Operand) : Written o.loadAcc := by
  unfold loadAcc
  cases o.kind <;> simp

@[simp] theorem Operand.written_loadB (o : Operand) : Written o.loadB := by
  unfold loadB
  cases o.kind <;> simp

@[simp] theorem Operand.written_copyTo (o : Operand) (v : Variable) : Written (o.copyTo v) := by
  unfold copyTo
  cases v.kind <;> simp

@[simp] theorem Variable.written_store (v : Variable) : Written v.store := by
  unfold store
  cases v.kind <;> simp

@[simp] theorem BinaryOp.written_code (op : BinaryOp) : Written op.code := by
  cases op <;> simp [BinaryOp.code]

theorem Relation.written_code (r : Relation) (signed : Bool) (first second : Label) :
    Written (r.code signed first second) := by
  cases signed <;> cases r <;> simp [Relation.code, flipSigns, loadOne]

theorem Expr.written_loadBoth {l r : Expr} (hl : Written l.code) (hr : Written r.code) :
    Written (loadBoth l r l.code r.code) := by
  unfold loadBoth
  split <;> simp [hl, hr]

@[simp] theorem Expr.written_code (e : Expr) : Written e.code := by
  induction e with
  | operand o => exact o.written_loadAcc
  | not e ih | bitOf e _ _ _ ih => simp [code, ih]
  | step s v => simp [code]
  | binary op l r ihl ihr => simp [code, written_loadBoth ihl ihr]
  | shift s l r again test ihl ihr => simp [code, written_loadBoth ihl ihr, Shift.code]
  | compare c signed l r first second ihl ihr =>
    simp [code, written_loadBoth ihl ihr, c.written_code]

@[simp] theorem Value.written_code (v : Value) : Written v.code := by
  cases v with
  | expr e => exact e.written_code
  | call c =>
    have arguments : Written ((c.method.parameters.zip c.arguments).flatMap
        fun pa => passArgument pa.1 pa.2) := by
      refine .flatMap fun pa _ => ?_
      unfold passArgument
      split <;> simp
    simpa [code, Call.code] using arguments

@[simp] theorem Assignment.written_code (a : Assignment) : Written a.code := by
  unfold code
  split
  · simp
  · simp
  · split <;> simp

@[simp] theorem written_saveContext (rs : List Register) : Written (saveContext rs) := by
  intro x hx
  obtain ⟨a, -, rfl⟩ := List.mem_map.mp hx
  exact OneLine.instr _

@[simp] theorem Program.written_returnCode (p : Program) (method : Option Method) :
    Written (p.returnCode method) := by
  have restore (rs : List Register) : Written (restoreContext rs) := by
    intro x hx
    obtain ⟨a, -, rfl⟩ := List.mem_map.mp hx
    exact OneLine.instr _
  unfold returnCode
  cases method with
  | none => simp
  | some m => cases h : p.isHandler m <;> simp [h, restore]

theorem Variable.oneLine_directive (v : Variable) {symbol : String} (h : OneLine symbol) :
    OneLine (v.directive symbol).text := by
  unfold directive
  cases v.kind with
  | bit =>
    show OneLine (symbol ++ " bit " ++ bitText v.address v.bit)
    simp only [OneLine.append_iff, Solid.oneLine, Solid.bitText, h, true_and, and_true]
    decide
  | byte =>
    show OneLine (symbol ++ " data " ++ addressText v.address)
    simp only [OneLine.append_iff, Solid.oneLine, Solid.addressText, h, true_and, and_true]
    decide

/-- A command is written on lines of its own if its symbol is. -/
theorem Command.written_code (c : Command) (p : Program) (method : Option Method)
    {symbol : String} (h : OneLine symbol) (index : Nat) :
    Written (c.code p method symbol index) := by
  cases c with
  | declaration v initial =>
    refine List.forall_mem_cons.mpr ⟨v.oneLine_directive h, ?_⟩
    cases initial with
    | none => exact Written.nil
    | some a => exact a.written_code
  | closeBlock b exit => cases hb : b.form <;> simp [code, hb]
  | openMethod m => cases hm : p.isHandler m <;> simp [code, hm]
  | giveBack m result => cases result <;> simp [code]
  | _ => simp [code]

theorem oneLine_symbolFor (declared used : List String) {name : String} (h : OneLine name) :
    OneLine (symbolFor declared used name) := by
  unfold symbolFor
  split
  · simp only
    cases hs : List.find? _ _ with
    | none => exact h
    | some s =>
      obtain ⟨n, -, rfl⟩ := List.mem_map.mp (List.mem_of_find?_eq_some hs)
      simp only [Option.getD_some, numberedName, OneLine.append_iff, Solid.oneLine,
        Solid.toString_nat, h, true_and, and_true]
      decide
  · exact h

theorem written_echo (o : Options) {source : Text} (h : o.comments = true → '\n' ∉ source) :
    Written (echo o source) := by
  unfold echo
  simp only
  split
  · next asked =>
    have newline := h (Bool.and_eq_true_iff.mp asked).1
    refine List.forall_mem_singleton.mpr ?_
    show OneLine ("; " ++ String.ofList (Text.trim source))
    simp only [OneLine, String.toList_append, String.toList_ofList, List.mem_append, not_or]
    exact ⟨by decide, fun hn => newline (Text.trim_subset source hn)⟩
  · exact .nil

theorem Written.guarded {code : List Line} (h : Written code) (on : Bool) :
    Written (guarded on code) := by
  unfold Micro51.guarded
  split
  · simpa [guardOn, guardOff] using h
  · exact h

/-- The pieces of a program are written on lines of their own if its names are, and the
source lines that are echoed. -/
theorem written_pieces (p : Program) (o : Options) :
    ∀ (cs : List (Command × Text)) (method : Option Method) (used : List String) (index : Nat),
      (∀ cs' ∈ cs, (o.comments = true → '\n' ∉ cs'.2) ∧
        ∀ v initial, cs'.1 = .declaration v initial → OneLine v.name) →
      ∀ piece ∈ pieces p o method used index cs, Written piece.lines
  | [], _, _, _, _ => by simp [pieces]
  | (c, source) :: rest, method, used, index, h => by
    obtain ⟨⟨oneLine, name⟩, others⟩ := List.forall_mem_cons.mp h
    have symbol : OneLine (c.nextSymbol p.declaredNames used).1 := by
      cases c with
      | declaration v initial => exact oneLine_symbolFor _ _ (name v initial rfl)
      | _ => exact (by decide : OneLine "")
    rw [pieces]
    refine List.forall_mem_cons.mpr ⟨?_, written_pieces p o rest _ _ _ others⟩
    have code := c.written_code p (c.methodHere method) symbol index
    exact Written.append_iff.mpr ⟨written_echo o oneLine, code.guarded _⟩

theorem written_prologue (bindings : List Binding) : Written (prologue bindings) := by
  have entry (b : Binding) : Written b.vectorEntry := by
    have origin : OneLine (Line.origin b.source.vector).text := by
      show OneLine ("org " ++ Text.writeHex b.source.vector ++ "h")
      simp only [OneLine.append_iff, Solid.oneLine, Solid.writeHex, and_true]
      decide
    have call : Written [.code (.call b.method.label), .code .reti] := by simp
    exact List.forall_mem_cons.mpr ⟨origin, call⟩
  have setup (b : Binding) : Written b.setup := by
    unfold Binding.setup
    split <;> simp
  have entries (bs : List Binding) : Written (bs.flatMap Binding.vectorEntry) :=
    .flatMap fun b _ => entry b
  have setups (bs : List Binding) : Written (bs.flatMap Binding.setup) :=
    .flatMap fun b _ => setup b
  unfold prologue
  split
  · simp [mainEntry]
  · simp only
    split <;> simp [mainEntry, guardOff, entries, setups]

/-! ### The text of an assembly -/

/-- A text falls into the lines that it was put together from. -/
theorem splitOn_assemblyText {lines : List Line} (ne : lines ≠ []) (h : Written lines) :
    (assemblyText lines).toList.splitOn '\n' = lines.map (·.text.toList) ++ [[]] := by
  have split : (['\n'].intercalate (lines.map (·.text.toList))).splitOn '\n' =
      lines.map (·.text.toList) :=
    List.splitOn_intercalate '\n' (by simpa [Written, OneLine] using h) (by simpa using ne)
  have text : (assemblyText lines).toList =
      ['\n'].intercalate (lines.map (·.text.toList)) ++ '\n' :: [] := by
    rw [assemblyText, String.toList_append, String.toList_intercalate, List.map_map]
    rfl
  rw [text, List.splitOn, List.splitOnP_append_cons _ _ (by simp)]
  exact congrArg₂ _ split (List.splitOn_nil _)

end Micro51
