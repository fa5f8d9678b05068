/- # Trailing comments

A comment behind a line is taken off before the line is read, unless a quote is still
open where it starts. Quotes open and close a literal in turn. So the comment is taken
off exactly if the code of the line has an even number of quotes, which is so for all
literals but that of the quote itself: it has three. Else the semicolon becomes part of
the line, behind a blank, and the line is not accepted any more.

Key definitions: `Text.appendToLine`, `SourceLine.quotes`.
Key theorems: `Text.lines_appendToLine`, `SourceLine.uncommented_append`,
`SourceLine.normalize_commented`, `SourceLine.stray_of_open`, `residue_unpaired`,
`assembly_commented`.
-/
import Micro51.Proofs.LayoutFree
import Micro51.Proofs.ResidueLines
import Micro51.Proofs.Splicing

namespace Micro51

/-! ### A text with more on one of its lines -/

namespace Text

instance (t : Text) : Decidable (Unbroken t) :=
  decidable_of_iff (t.all (!isLineEnd ·) = true) (by simp [Unbroken])

/-- The text with `more` at the end of its line `i`. -/
def appendToLine (more : Text) : Nat → Text → Text
  | _, [] => more
  | 0, c :: t => if isLineEnd c then more ++ c :: t else c :: appendToLine more 0 t
  | i + 1, '\r' :: '\n' :: t => '\r' :: '\n' :: appendToLine more i t
  | i + 1, c :: t => c :: appendToLine more (if isLineEnd c then i else i + 1) t

/-- A line end closes the line that is being read, whatever it is. -/
theorem exists_linesAfter_end {c : Char} (h : isLineEnd c = true) (t : Text) :
    ∃ rest, ∀ line, linesAfter line (c :: t) = line.reverse :: rest := by
  by_cases double : ∃ t', c = '\r' ∧ t = '\n' :: t'
  · obtain ⟨t', rfl, rfl⟩ := double
    exact ⟨linesAfter [] t', fun _ => rfl⟩
  · refine ⟨linesAfter [] t, fun line => ?_⟩
    rw [linesAfter, if_pos h]
    exact fun t' e e' => double ⟨t', e, e'⟩

/-- No newline gets to the front. -/
theorem exists_of_appendToLine {more t t' : Text} {i : Nat} (unbroken : Unbroken more)
    (h : appendToLine more i t = '\n' :: t') : ∃ t'', t = '\n' :: t'' := by
  have first {u : Text} (h : more = '\n' :: u) : False := by
    have ends := unbroken '\n' (h ▸ List.mem_cons_self)
    cases ends
  revert h
  fun_cases appendToLine more i t with
  | case1 i => exact fun h => (first h).elim
  | case2 c t _ =>
    intro h
    cases more with
    | nil => exact ⟨t, congrArg (· :: t) (List.cons.inj h).1⟩
    | cons d more => exact (first (congrArg (· :: more) (List.cons.inj h).1)).elim
  | case3 c t _ => exact fun h => ⟨t, congrArg (· :: t) (List.cons.inj h).1⟩
  | case4 i t => exact fun h => absurd (List.cons.inj h).1 (by decide)
  | case5 i c t _ => exact fun h => ⟨t, congrArg (· :: t) (List.cons.inj h).1⟩

theorem linesAfter_appendToLine {more : Text} (unbroken : Unbroken more) (i : Nat) (t : Text) :
    ∀ {line l : Text}, (linesAfter line t)[i]? = some l →
      linesAfter line (appendToLine more i t) = (linesAfter line t).set i (l ++ more) := by
  fun_induction appendToLine more i t with
  | case1 i =>
    intro line l h
    have longer := linesAfter_append unbroken line []
    rw [List.append_nil] at longer
    rw [longer]
    rw [linesAfter] at h ⊢
    rw [linesAfter]
    split at h
    · cases h
    · next some =>
      rw [List.getElem?_singleton] at h
      split at h
      · next zero =>
        cases h
        rw [if_neg some, if_neg (by simpa using fun _ => by simpa using some), zero]
        simp
      · cases h
  | case2 c t ended =>
    intro line l h
    obtain ⟨rest, lines⟩ := exists_linesAfter_end ended t
    rw [linesAfter_append unbroken, lines, lines]
    rw [lines] at h
    cases h
    simp
  | case3 c t inside ih =>
    intro line l h
    rw [linesAfter_cons (Bool.eq_false_iff.mpr inside)] at h ⊢
    rw [linesAfter_cons (Bool.eq_false_iff.mpr inside)]
    exact ih h
  | case4 i t ih =>
    intro line l h
    exact congrArg (line.reverse :: ·) (ih h)
  | case5 i c t single ih =>
    intro line l h
    by_cases ended : isLineEnd c = true
    · rw [if_pos ended] at ih ⊢
      -- the line end stays alone, as no newline gets behind it
      have alone : ∀ t', c = '\r' → appendToLine more i t = '\n' :: t' → False := by
        intro t' return_ newline
        obtain ⟨t'', rfl⟩ := exists_of_appendToLine unbroken newline
        exact single t'' return_ rfl
      rw [linesAfter, if_pos ended] at h ⊢
      · rw [linesAfter, if_pos ended]
        · exact congrArg (line.reverse :: ·) (ih h)
        · exact fun t' e e' => single t' e e'
      · exact alone
      · exact fun t' e e' => single t' e e'
    · rw [if_neg ended] at ih ⊢
      rw [linesAfter_cons (Bool.eq_false_iff.mpr ended)] at h ⊢
      rw [linesAfter_cons (Bool.eq_false_iff.mpr ended)]
      exact ih h

theorem lines_appendToLine {more t l : Text} {i : Nat} (unbroken : Unbroken more)
    (h : (lines t)[i]? = some l) : lines (appendToLine more i t) = (lines t).set i (l ++ more) :=
  linesAfter_appendToLine unbroken i t h

end Text

/-! ### Lines with a comment -/

namespace SourceLine

open Text

/-- How many quotes there are in the code of a line. -/
def quotes (line : Text) : Nat := (normalize line).count quote

section

variable {c : Char} {line : Text}

theorem quotes_eq (line : Text) : quotes line = (uncommented false line).count quote := by
  obtain ⟨w, w', blank, blank', whole⟩ := exists_trim (uncommented false line)
  have none {w : Text} (blank : Blank w) : w.count quote = 0 :=
    List.count_eq_zero.mpr fun h => absurd (blank _ h) (by decide)
  rw [whole, List.count_append, List.count_append, none blank, none blank', Nat.zero_add]
  rfl

theorem uncommented_quote (b : Bool) (line : Text) :
    uncommented b (quote :: line) = quote :: uncommented (!b) line := by
  rw [uncommented, if_pos rfl]

theorem uncommented_literal (hc : c ≠ quote) (line : Text) :
    uncommented true (c :: line) = c :: uncommented true line := by
  rw [uncommented, if_neg hc, if_pos rfl]

theorem uncommented_code (hc : c ≠ quote) (inside : c ≠ ';') (line : Text) :
    uncommented false (c :: line) = lower c ++ uncommented false line := by
  rw [uncommented, if_neg hc, if_neg Bool.false_ne_true, if_neg inside]

/-- Is a literal open behind the line, if it is open in front of it or not? -/
def isOpenBehind (b : Bool) (line : Text) : Bool :=
  (b.toNat + (uncommented b line).count quote) % 2 == 1

theorem isOpenBehind_nil (b : Bool) : isOpenBehind b [] = b := by cases b <;> rfl

theorem isOpenBehind_quote (b : Bool) (line : Text) :
    isOpenBehind b (quote :: line) = isOpenBehind (!b) line := by
  have parity (n : Nat) : (b.toNat + (n + 1)) % 2 = ((!b).toNat + n) % 2 := by
    cases b
    · rw [Bool.not_false, Bool.toNat_false, Bool.toNat_true]
      omega
    · rw [Bool.not_true, Bool.toNat_false, Bool.toNat_true]
      omega
  unfold isOpenBehind
  rw [uncommented_quote, List.count_cons_self, parity]

theorem isOpenBehind_literal (hc : c ≠ quote) (line : Text) :
    isOpenBehind true (c :: line) = isOpenBehind true line := by
  unfold isOpenBehind
  rw [uncommented_literal hc, List.count_cons_of_ne hc]

theorem isOpenBehind_code (hc : c ≠ quote) (inside : c ≠ ';') (line : Text) :
    isOpenBehind false (c :: line) = isOpenBehind false line := by
  unfold isOpenBehind
  rw [uncommented_code hc inside, List.count_append,
    List.count_eq_zero.mpr fun h => hc (eq_of_mem_lower (by decide) h), Nat.zero_add]

/-- What is behind a line is read as it is in a literal or not, unless the line has a
comment already. -/
theorem uncommented_append (b : Bool) (line rest : Text) :
    uncommented b (line ++ rest) =
        uncommented b line ++ uncommented (isOpenBehind b line) rest ∨
      uncommented b (line ++ rest) = uncommented b line ∧ isOpenBehind b line = false := by
  induction line generalizing b with
  | nil =>
    rw [isOpenBehind_nil]
    exact .inl rfl
  | cons c line ih =>
    rw [List.cons_append]
    by_cases hc : c = quote
    · subst hc
      rw [uncommented_quote, uncommented_quote, isOpenBehind_quote]
      exact (ih (!b)).imp (congrArg (quote :: ·)) (.imp_left (congrArg (quote :: ·)))
    · cases b with
      | true =>
        rw [uncommented_literal hc, uncommented_literal hc, isOpenBehind_literal hc]
        exact (ih true).imp (congrArg (c :: ·)) (.imp_left (congrArg (c :: ·)))
      | false =>
        by_cases inside : c = ';'
        · subst inside
          exact .inr ⟨rfl, rfl⟩
        · rw [uncommented_code hc inside, uncommented_code hc inside, isOpenBehind_code hc inside,
            List.append_assoc]
          exact (ih false).imp (congrArg (lower c ++ ·)) (.imp_left (congrArg (lower c ++ ·)))

theorem isOpenBehind_eq (line : Text) : isOpenBehind false line = (quotes line % 2 == 1) := by
  rw [isOpenBehind, quotes_eq, Bool.toNat_false, Nat.zero_add]

/-- **A comment behind closed literals is taken off.** -/
theorem normalize_commented (closed : quotes line % 2 = 0) (t : Text) :
    normalize (line ++ ' ' :: ';' :: t) = normalize line := by
  have closed : isOpenBehind false line = false := by rw [isOpenBehind_eq, closed]; rfl
  unfold normalize
  rcases uncommented_append false line (' ' :: ';' :: t) with h | ⟨h, -⟩
  · have blank : Blank [' '] := List.forall_mem_singleton.mpr rfl
    rw [h, closed]
    exact trim_append_blank _ blank
  · rw [h]

theorem not_blank_trimLeft {u : Text} (visible : ¬Blank u) : ¬Blank (trimLeft u) := by
  have whole : u = u.takeWhile isBlank ++ trimLeft u := List.takeWhile_append_dropWhile.symm
  intro blank
  refine visible ?_
  rw [whole]
  exact List.forall_mem_append.mpr ⟨fun c hc => List.mem_takeWhile_imp hc, blank⟩

theorem exists_trimRight_semicolon (u : Text) : ∃ v, trimRight (';' :: u) = ';' :: v := by
  by_cases blank : Blank u
  · exact ⟨[], trimRight_append_blank [';'] blank⟩
  · exact ⟨trimRight u, trimRight_append [';'] blank⟩

/-- **A comment behind an open literal stays**, and its semicolon is stray. -/
theorem stray_of_open (opened : quotes line % 2 = 1) (t : Text) :
    Stray (normalize (line ++ ' ' :: ';' :: t)) := by
  have kept : uncommented false (line ++ ' ' :: ';' :: t) =
      uncommented false line ++ ' ' :: ';' :: uncommented true t := by
    have isOpen : isOpenBehind false line = true := by rw [isOpenBehind_eq, opened]; rfl
    rcases uncommented_append false line (' ' :: ';' :: t) with h | ⟨-, closed⟩
    · rw [h, isOpen]
      rfl
    · rw [isOpen] at closed
      cases closed
  have visible : ¬Blank (uncommented false line) := by
    intro blank
    have member : quote ∈ uncommented false line := by
      rw [quotes_eq] at opened
      rw [← List.count_pos_iff]
      omega
    exact absurd (blank _ member) (by decide)
  obtain ⟨v, tail⟩ := exists_trimRight_semicolon (uncommented true t)
  refine ⟨trimLeft (uncommented false line), v, not_blank_trimLeft visible, ?_⟩
  calc normalize (line ++ ' ' :: ';' :: t)
      = trimRight (trimLeft (uncommented false line ++ ' ' :: ';' :: uncommented true t)) := by
        rw [normalize, kept, trim]
    _ = trimRight (trimLeft (uncommented false line) ++ [' '] ++ (';' :: uncommented true t)) := by
        rw [trimLeft_append _ visible, List.append_assoc]
        rfl
    _ = trimLeft (uncommented false line) ++ [' '] ++ trimRight (';' :: uncommented true t) :=
        trimRight_append _ fun blank =>
          absurd (blank ';' List.mem_cons_self) (by decide)
    _ = trimLeft (uncommented false line) ++ ' ' :: ';' :: v := by
        rw [tail, List.append_assoc]
        rfl

end

end SourceLine

/-! ### Programs with a comment -/

/-- The literal of the quote. -/
def quoteLiteral : Text := [Text.quote, Text.quote, Text.quote]

/-- Quotes come in pairs but for the literal of the quote. -/
theorem residue_unpaired :
    Text.Residue Text.quote fun t => t.count Text.quote % 2 = 1 ∧ ¬quoteLiteral <:+: t where
  notOrdinary := by decide
  mem := by
    rintro t ⟨odd, -⟩
    rw [← List.count_pos_iff]
    omega
  append := by
    rintro a b ⟨odd, none⟩
    rw [List.count_append] at odd
    have left : ¬quoteLiteral <:+: a := fun h => none (h.trans (List.infix_append' [] a b))
    have right : ¬quoteLiteral <:+: b := fun h => none (h.trans (List.suffix_append a b).isInfix)
    rcases Nat.mod_two_eq_zero_or_one (a.count Text.quote) with even | oddLeft
    · exact .inr ⟨by omega, right⟩
    · exact .inl ⟨oddLeft, left⟩
  literal := by
    rintro m ⟨odd, none⟩
    by_cases same : m = Text.quote
    · subst same
      exact none List.infix_rfl
    · rw [List.count_cons_self, List.count_cons_of_ne same, List.count_cons_self] at odd
      cases odd

namespace Program

variable {raw : List Text} {p : Program} {i : Nat} {line : Text}

/-- With a comment behind closed literals the program has the same code. -/
theorem exists_read_commented (read : Program.read raw = .ok p) (here : raw[i]? = some line)
    (closed : SourceLine.quotes line % 2 = 0) (t : Text) {o : Options}
    (silent : o.comments = false) :
    ∃ p', Program.read (raw.set i (line ++ ' ' :: ';' :: t)) = .ok p' ∧ p'.code o = p.code o := by
  obtain ⟨inside, same⟩ := List.getElem?_eq_some_iff.mp here
  have normalized : (raw.set i (line ++ ' ' :: ';' :: t)).map SourceLine.normalize =
      raw.map SourceLine.normalize := by
    rw [List.map_set, SourceLine.normalize_commented closed, ← List.map_set, ← same,
      List.set_getElem_self]
  exact exists_read_of_same silent read (congrArg (·.filter isSignificant) normalized.symm)
    (by rw [normalized])

/-- With a comment behind an open literal it is not accepted, whatever the other lines
are. -/
theorem read_commented_ne_ok (here : raw[i]? = some line)
    (opened : SourceLine.quotes line % 2 = 1) (t : Text) (p : Program) :
    Program.read (raw.set i (line ++ ' ' :: ';' :: t)) ≠ .ok p := by
  intro read
  obtain ⟨inside, -⟩ := List.getElem?_eq_some_iff.mp here
  exact Program.not_stray_of_read read (List.getElem?_set_self inside)
    (SourceLine.stray_of_open opened t)

/-- On a line without the literal of the quote all literals are closed. -/
theorem quotes_even (read : Program.read raw = .ok p) (here : raw[i]? = some line)
    (noInterrupt : LineForm.of (SourceLine.normalize line) ≠ .keyword .interrupt)
    (none : ¬quoteLiteral <:+: SourceLine.normalize line) : SourceLine.quotes line % 2 = 0 := by
  rcases Nat.mod_two_eq_zero_or_one (SourceLine.quotes line) with even | odd
  · exact even
  · exact absurd ⟨odd, none⟩ (Program.not_residue_of_read read here noInterrupt residue_unpaired)

end Program

/-- **A trailing comment is invisible behind closed literals, and only there.** A program
that is accepted has the same assembly with a comment at the end of any of its lines if
the code of that line has an even number of quotes, and is not accepted any more if the
number is odd. It is even if the line has no literal of the quote, interrupt lines
apart. -/
theorem assembly_commented {o : Options} (silent : o.comments = false) {source : Text}
    {file assembly : String} (accepted : (compileSource o source file).assembly? = some assembly)
    {i : Nat} {line : Text} (here : (Text.lines source)[i]? = some line) {t : Text}
    (unbroken : Text.Unbroken t) :
    (compileSource o (Text.appendToLine (' ' :: ';' :: t) i source) file).assembly? =
        (if SourceLine.quotes line % 2 = 0 then some assembly else none) ∧
      (LineForm.of (SourceLine.normalize line) ≠ .keyword .interrupt →
        ¬quoteLiteral <:+: SourceLine.normalize line → SourceLine.quotes line % 2 = 0) := by
  have more : Text.Unbroken (' ' :: ';' :: t) :=
    List.forall_mem_cons.mpr ⟨rfl, List.forall_mem_cons.mpr ⟨rfl, unbroken⟩⟩
  rw [assembly?_compileSource] at accepted ⊢
  rw [Text.lines_appendToLine more here]
  cases read : Program.read (Text.lines source) with
  | error fault =>
    rw [read] at accepted
    cases accepted
  | ok p =>
    refine ⟨?_, Program.quotes_even read here⟩
    rw [read] at accepted
    split
    · next closed =>
      obtain ⟨p', read', code⟩ := Program.exists_read_commented read here closed t silent
      rw [read', ← accepted]
      simp only [Except.toOption, Option.map_some, code]
    · next opened =>
      cases read' : Program.read ((Text.lines source).set i (line ++ ' ' :: ';' :: t)) with
      | error fault => rfl
      | ok p' => exact absurd read' (Program.read_commented_ne_ok here (by omega) t p')

/-- Lines with literals, one of them with a comment. -/
def lettersProgram : Text :=
  Text.joinLines (["char c := ';'", "if [c = 'A']  ; isn't it?", "c++", "endif"].map String.toList)

theorem assembly_commented_letters :
    ∃ assembly, (compileSource {} lettersProgram "letters.tc").assembly? = some assembly ∧
      (compileSource {} (Text.appendToLine " ; that's '''".toList 0 lettersProgram)
        "letters.tc").assembly? = some assembly ∧
      (compileSource {} (Text.appendToLine " ; ''' again".toList 1 lettersProgram)
        "letters.tc").assembly? = some assembly := by
  have checked : (compileSource {} lettersProgram "letters.tc").assembly?.isSome = true := by
    decide +kernel
  obtain ⟨assembly, accepted⟩ := Option.isSome_iff_exists.mp checked
  have line₀ : (Text.lines lettersProgram)[0]? = some "char c := ';'".toList := by decide +kernel
  have line₁ : (Text.lines lettersProgram)[1]? = some "if [c = 'A']  ; isn't it?".toList := by
    decide +kernel
  have first := assembly_commented rfl accepted line₀ (t := " that's '''".toList) (by decide +kernel)
  have second := assembly_commented rfl accepted line₁ (t := " ''' again".toList) (by decide +kernel)
  have closedFirst := first.2 (by decide +kernel) (by decide +kernel)
  have closedSecond := second.2 (by decide +kernel) (by decide +kernel)
  rw [if_pos closedFirst] at first
  rw [if_pos closedSecond] at second
  exact ⟨assembly, accepted, first.1, second.1⟩

/-- A comment behind the literal of the quote is not taken off. -/
theorem comment_kept_behind_quote :
    (compileSource {} "int x := '''".toList "x.tc").assembly? =
        some ("include reg8051.inc\nmain:\nmov 081h, #07Fh\nx data 031h\nmov 031h, #39\n" ++
          "jmp main\nend\n") ∧
      (compileSource {} "int x := ''' ;".toList "x.tc").assembly? = none := by
  decide +kernel

end Micro51
