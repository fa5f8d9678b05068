/- # The grammar of blocks

Which outlines are programs, said without a machine: a program is a sequence of
statements and methods, a statement with a body stands between an opening line
and the closing line of the same shape, and an `if` has at most one `else`. A
derivation carries what its surroundings allow, so that every derivation is one of a
program: a `break` only inside a body, a `return` only inside a method, and no
more `fortil`s around each other than there are registers.

The machine that reads an outline gets through the lines of a derivation, and
gives them the roles that their places in the derivation have. Conversely, what
lines can still follow is a matter of what is open (`Completes`), and a step of
the machine puts one more line in front of them.

Key definitions: `Surroundings`, `Statements`, `Units`, `Units.lines`, `Units.roles`,
`Completes`.
Key theorems: `Statements.passes`, `Units.passes`, `Completes.step`,
`Completes.of_run`, `block_structure`.
-/
import Micro51.Proofs.Outline

namespace Micro51

/-! ### Derivations -/

/-- Where a statement stands: in a method or not, in a body or not, and with how
many registers held by the bodies around it. -/
structure Surroundings where
  inMethod : Bool := false
  inBody : Bool := false
  registers : Nat := 0

/-- A place in a body of the given shape. -/
def Surroundings.inside (p : Surroundings) (s : Shape) : Surroundings :=
  ⟨p.inMethod, true, s.registers + p.registers⟩

/-- A sequence of statements. A `fortil` is allowed where a register is left. -/
inductive Statements : Surroundings → Type where
  | nil {p : Surroundings} : Statements p
  | blank {p : Surroundings} (t : Text) (h : t.all Text.isBlank = true) (rest : Statements p) :
    Statements p
  | leave {p : Surroundings} (h : p.inBody = true) (rest : Statements p) : Statements p
  | giveBack {p : Surroundings} (h : p.inMethod = true) (rest : Statements p) : Statements p
  | block {p : Surroundings} (first last : Bracket) (same : first.shape = last.shape)
    (free : first.shape = .fortil → p.registers < Target.registerCount)
    (body : Statements (p.inside first.shape)) (rest : Statements p) : Statements p
  | ifElse {p : Surroundings} (yes no : Statements (p.inside .branch)) (rest : Statements p) :
    Statements p

namespace Statements

def lines {p : Surroundings} : Statements p → List OutlineLine
  | nil => []
  | blank t h rest => .blank t h :: rest.lines
  | leave _ rest => .leave :: rest.lines
  | giveBack _ rest => .giveBack :: rest.lines
  | block first last _ _ body rest =>
    .opening first :: (body.lines ++ .closing last :: rest.lines)
  | ifElse yes no rest =>
    .opening (.word .branch) :: (yes.lines ++ .otherwise :: (no.lines ++
      .closing (.word .branch) :: rest.lines))

/-- The roles of the lines from line `index` on, in the body that was opened on
line `around`. A closing line belongs to the line that opened its body, which is
the `else` for an `if` that has one. -/
def roles {p : Surroundings} (index : Nat) (around : Option Nat) : Statements p → List Role
  | nil => []
  | blank _ _ rest => .empty :: rest.roles (index + 1) around
  | leave _ rest => .leave around :: rest.roles (index + 1) around
  | giveBack _ rest => .giveBack :: rest.roles (index + 1) around
  | block first _ _ _ body rest =>
    let last := index + 1 + body.lines.length
    .opening first.shape :: (body.roles (index + 1) (some index) ++
      .closing index :: rest.roles (last + 1) around)
  | ifElse yes no rest =>
    let middle := index + 1 + yes.lines.length
    let last := middle + 1 + no.lines.length
    .opening .branch :: (yes.roles (index + 1) (some index) ++
      .otherwise index :: (no.roles (middle + 1) (some middle) ++
        .closing middle :: rest.roles (last + 1) around))

end Statements

/-- A program: statements and methods. -/
inductive Units where
  | last (s : Statements {})
  | method (before : Statements {}) (name : MethodName) (body : Statements { inMethod := true })
    (rest : Units)

namespace Units

def lines : Units → List OutlineLine
  | last s => s.lines
  | method before name body rest =>
    before.lines ++ .openMethod name :: (body.lines ++ .closeMethod :: rest.lines)

/-- The roles of the lines from line `index` on. -/
def roles (index : Nat) : Units → List Role
  | last s => s.roles index none
  | method before _ body rest =>
    let first := index + before.lines.length
    let last := first + 1 + body.lines.length
    before.roles index none ++ .openMethod ::
      (body.roles (first + 1) none ++ .closeMethod :: rest.roles (last + 1))

end Units

/-! ### The machine reads every derivation -/

namespace Outline

/-- Where the next line stands. -/
def surroundings (o : Outline) : Surroundings := ⟨o.inMethod, !o.frames.isEmpty, o.registers⟩

/-- The line of the innermost open body. -/
def around (o : Outline) : Option Nat := o.frames.head?.map (·.line)

/-- The machine gets from `o` to `o'` through the lines from line `index` on, and
gives them the roles. -/
def Passes (o : Outline) (index : Nat) (ls : List OutlineLine) (roles : List Role) (o' : Outline) :
    Prop :=
  ∀ more, o.run index (ls ++ more) = (o'.run (index + ls.length) more).map (roles ++ ·)

namespace Passes

variable {o o₁ o₂ : Outline} {index : Nat} {l : OutlineLine} {role : Role}
  {ls ls' : List OutlineLine} {roles roles' : List Role}

theorem nil : o.Passes index [] [] o := fun more => by
  rw [List.nil_append, List.length_nil, Nat.add_zero]
  exact Option.map_id'.symm

theorem cons (step : o.step index l = some (role, o₁)) (h : o₁.Passes (index + 1) ls roles o₂) :
    o.Passes index (l :: ls) (role :: roles) o₂ := fun more => by
  rw [List.cons_append, run, step, Option.bind_some, h more, Option.map_map, List.length_cons,
    Nat.add_right_comm, Nat.add_assoc]
  rfl

theorem append (h : o.Passes index ls roles o₁)
    (h' : o₁.Passes (index + ls.length) ls' roles' o₂) :
    o.Passes index (ls ++ ls') (roles ++ roles') o₂ := fun more => by
  rw [List.append_assoc, h, h', Option.map_map, List.length_append, Nat.add_assoc]
  simp only [Function.comp_def, List.append_assoc]

end Passes
end Outline

/-- The machine gets through statements that are allowed where it stands, and what
is open behind them is what was open before. -/
theorem Statements.passes {p : Surroundings} (s : Statements p) : ∀ {o : Outline} {index : Nat},
    o.surroundings = p → o.Passes index s.lines (s.roles index o.around) o := by
  induction s with
  | nil => exact fun _ => .nil
  | blank t h rest ih => exact fun here => .cons rfl (ih here)
  | leave inside rest ih =>
    rintro ⟨frames, m⟩ index rfl
    cases frames with
    | nil => cases inside
    | cons f fs => exact .cons rfl (ih rfl)
  | giveBack inside rest ih =>
    rintro ⟨frames, m⟩ index rfl
    cases inside
    exact .cons rfl (ih rfl)
  | block first last same free body rest ihBody ihRest =>
    rintro o index rfl
    have opened : o.step index (.opening first) = some (.opening first.shape,
        { o with frames := ⟨index, first.shape, false⟩ :: o.frames }) := if_pos free
    have closed (line : Nat) : Outline.step line (.closing last)
        { o with frames := ⟨index, first.shape, false⟩ :: o.frames } =
          some (.closing index, o) := if_pos same
    exact .cons opened (.append (ihBody rfl) (.cons (closed _) (ihRest rfl)))
  | ifElse yes no rest ihYes ihNo ihRest =>
    rintro o index rfl
    have opened : o.step index (.opening (.word .branch)) = some (.opening .branch,
        { o with frames := ⟨index, .branch, false⟩ :: o.frames }) :=
      o.step_opening index (by decide)
    exact .cons opened (.append (ihYes rfl) (.cons rfl
      (.append (ihNo rfl) (.cons rfl (ihRest rfl)))))

/-- The machine gets through every program. -/
theorem Units.passes : ∀ (u : Units) (index : Nat),
    Outline.Passes {} index u.lines (u.roles index) {}
  | last s, _ => s.passes rfl
  | method before _ body rest, _ =>
    .append (before.passes rfl) (.cons rfl (.append (body.passes rfl) (.cons rfl (rest.passes _))))

theorem Units.run_lines (u : Units) : Outline.run 0 {} u.lines = some (u.roles 0) := by
  have run := u.passes 0 []
  rw [List.append_nil] at run
  rw [run, Outline.run, if_pos rfl, Option.map_some, List.append_nil]

/-! ### What the machine reads is derived -/

theorem Bracket.eq_of_shape_branch {b : Bracket} (h : b.shape = .branch) : b = .word .branch := by
  cases b with
  | word s => exact congrArg Bracket.word h
  | sign => cases h

/-- The lines that can follow where something is open: the statements up to the
end of the innermost body, and so on outwards. -/
inductive Completes : Outline → List OutlineLine → Prop where
  | units (u : Units) : Completes {} u.lines
  | method (body : Statements { inMethod := true }) (u : Units) :
    Completes ⟨[], true⟩ (body.lines ++ .closeMethod :: u.lines)
  | close {f : Frame} {fs : List Frame} {m : Bool} {ls : List OutlineLine} (last : Bracket)
    (same : f.shape = last.shape) (body : Statements (Outline.surroundings ⟨f :: fs, m⟩))
    (rest : Completes ⟨fs, m⟩ ls) : Completes ⟨f :: fs, m⟩ (body.lines ++ .closing last :: ls)
  | divide {line : Nat} {fs : List Frame} {m : Bool} {ls : List OutlineLine}
    (yes no : Statements (Outline.surroundings ⟨⟨line, .branch, false⟩ :: fs, m⟩))
    (rest : Completes ⟨fs, m⟩ ls) :
    Completes ⟨⟨line, .branch, false⟩ :: fs, m⟩
      (yes.lines ++ .otherwise :: (no.lines ++ .closing (.word .branch) :: ls))

namespace Completes

variable {o o' : Outline} {ls : List OutlineLine} {index : Nat} {l : OutlineLine} {role : Role}

/-- A statement that is allowed can stand before what follows. -/
theorem prepend {p : Surroundings} (h : Completes o ls) (here : o.surroundings = p)
    (first : List OutlineLine) (add : Statements p → Statements p)
    (lines : ∀ s, (add s).lines = first ++ s.lines) : Completes o (first ++ ls) := by
  cases h with
  | units u =>
    obtain rfl : {} = p := here
    cases u with
    | last s =>
      have added := units (.last (add s))
      rwa [Units.lines, lines] at added
    | method before name body rest =>
      have added := units (.method (add before) name body rest)
      rwa [Units.lines, lines, List.append_assoc] at added
  | method body u =>
    obtain rfl : { inMethod := true } = p := here
    have added := method (add body) u
    rwa [lines, List.append_assoc] at added
  | close last same body rest =>
    subst here
    have added := close last same (add body) rest
    rwa [lines, List.append_assoc] at added
  | divide yes no rest =>
    subst here
    have added := divide (add yes) no rest
    rwa [lines, List.append_assoc] at added

/-- A body that is opened and then completed is a statement before what follows. -/
theorem opening {b : Bracket} (free : b.shape = .fortil → o.registers < Target.registerCount)
    (h : Completes { o with frames := ⟨index, b.shape, false⟩ :: o.frames } ls) :
    Completes o (.opening b :: ls) := by
  generalize hs : b.shape = s at h
  cases h with
  | close last same body rest =>
    subst hs
    have added := rest.prepend rfl (.opening b :: (body.lines ++ [.closing last]))
      (.block b last same free body) fun s => by
        rw [List.cons_append, List.append_assoc]
        rfl
    simpa using added
  | divide yes no rest =>
    rw [Bracket.eq_of_shape_branch hs]
    have added := rest.prepend rfl (.opening (.word .branch) :: (yes.lines ++ .otherwise ::
      (no.lines ++ [.closing (.word .branch)]))) (.ifElse yes no) fun s => by
        rw [List.cons_append, List.append_assoc, List.cons_append, List.append_assoc]
        rfl
    simpa using added

/-- A step of the machine puts its line before what follows. -/
theorem step (step : o.step index l = some (role, o')) (h : Completes o' ls) :
    Completes o (l :: ls) := by
  obtain ⟨frames, m⟩ := o
  cases l with
  | blank t blank =>
    cases step
    exact h.prepend rfl [.blank t blank] (.blank t blank) fun _ => rfl
  | opening b =>
    rw [Outline.step] at step
    split at step
    · next free =>
      cases step
      exact opening free h
    · cases step
  | closing b =>
    cases frames with
    | nil => cases step
    | cons f fs =>
      rw [Outline.step] at step
      split at step
      · next same =>
        cases step
        exact close b same .nil h
      · cases step
  | otherwise =>
    cases frames with
    | nil => cases step
    | cons f fs =>
      obtain ⟨line, shape, divided⟩ := f
      rw [Outline.step] at step
      split at step
      · next isIf =>
        obtain ⟨rfl, rfl⟩ := isIf
        cases step
        cases h with
        | close last same no rest =>
          rw [Bracket.eq_of_shape_branch same.symm]
          exact divide .nil no rest
      · cases step
  | leave =>
    cases frames with
    | nil => cases step
    | cons f fs =>
      cases step
      exact h.prepend rfl [.leave] (.leave rfl) fun _ => rfl
  | giveBack =>
    cases m with
    | false => cases step
    | true =>
      cases step
      exact h.prepend rfl [.giveBack] (.giveBack rfl) fun _ => rfl
  | openMethod name =>
    cases frames with
    | cons f fs => cases step
    | nil =>
      cases m with
      | true => cases step
      | false =>
        cases step
        cases h with
        | method body u => exact units (.method .nil name body u)
  | closeMethod =>
    cases frames with
    | cons f fs => cases step
    | nil =>
      cases m with
      | false => cases step
      | true =>
        cases step
        cases h with
        | units u => exact method .nil u

/-- What the machine gets through completes what is open. -/
theorem of_run : ∀ {ls : List OutlineLine} {o : Outline} {index : Nat} {roles : List Role},
    o.run index ls = some roles → Completes o ls
  | [], o, index, roles, h => by
    by_cases closed : o = {}
    · rw [closed]
      exact units (.last .nil)
    · rw [Outline.run, if_neg closed] at h
      cases h
  | l :: ls, o, index, roles, h => by
    rw [Outline.run, Option.bind_eq_some_iff] at h
    obtain ⟨⟨role, o'⟩, stepped, h⟩ := h
    obtain ⟨rest, run, -⟩ := Option.map_eq_some_iff.mp h
    exact step stepped (of_run run)

end Completes

/-- The machine gets through exactly the lines of programs. -/
theorem Outline.run_isSome_iff {ls : List OutlineLine} :
    (∃ roles, Outline.run 0 {} ls = some roles) ↔ ∃ u : Units, u.lines = ls := by
  constructor
  · rintro ⟨roles, h⟩
    cases Completes.of_run h with
    | units u => exact ⟨u, rfl⟩
  · rintro ⟨u, rfl⟩
    exact ⟨u.roles 0, u.run_lines⟩

/-! ### Programs -/

/-- **Block structure.** Lines that only open, close and leave, with a name of its
own for each method, are read as a program exactly if they are the lines of one in
the grammar. There is then one command for each line, and its role is the one of
the line in the derivation: a closing command refers to the line that opened its
body, the `else` for an `if` that has one, and a `break` to the innermost body
around it. -/
theorem block_structure (ls : List OutlineLine)
    (distinct : (ls.filterMap OutlineLine.methodName?).Nodup) :
    ((∃ p, Program.read (ls.map OutlineLine.text) = .ok p) ↔ ∃ u : Units, u.lines = ls) ∧
      ∀ p, Program.read (ls.map OutlineLine.text) = .ok p →
        p.commands.length = ls.length ∧
          ∀ u : Units, u.lines = ls → p.commands.map Command.role = u.roles 0 := by
  have read := Program.read_outline distinct
  refine ⟨?_, fun p hp => ⟨?_, ?_⟩⟩
  · rw [← Outline.run_isSome_iff, ← read]
    cases Program.read (ls.map OutlineLine.text) with
    | ok p => simp [Except.toOption]
    | error fault => simp [Except.toOption]
  · obtain ⟨_, _, _, -, run, -⟩ := Program.exists_run hp
    have lines := run.length_eq
    rw [List.length_map, List.length_map] at lines
    exact lines.symm
  · rintro u rfl
    rw [hp, u.run_lines] at read
    exact Option.some.inj read

/-- A method with an `if` in a loop, and a block behind it. -/
def nestedUnits : Units :=
  .method .nil ⟨"pulse".toList, by decide +kernel, by decide +kernel, by decide⟩
    (.block (.word .fortil) (.word .fortil) rfl (by decide)
      (.ifElse (.leave rfl .nil) (.giveBack rfl .nil) .nil) .nil)
    (.last (.block .sign (.word .plain) rfl (by decide) (.leave rfl .nil)
      (.blank ['\t'] (by decide) .nil)))

theorem block_structure_nestedUnits :
    ∃ p, Program.read (["method pulse[]", "fortil 1", "if [true]", "break", "else", "return", "endif",
        "endfortil", "endmethod", "\x7b", "break", "endblock", "\t"].map String.toList) = .ok p ∧
      p.commands.map Command.role =
        [.openMethod, .opening .fortil, .opening .branch, .leave (some 2), .otherwise 2, .giveBack,
          .closing 4, .closing 1, .closeMethod, .opening .plain, .leave (some 9), .closing 9,
          .empty] := by
  obtain ⟨accepted, roles⟩ := block_structure nestedUnits.lines (by decide +kernel)
  obtain ⟨p, hp⟩ := accepted.mpr ⟨nestedUnits, rfl⟩
  exact ⟨p, hp, (roles p hp).2 nestedUnits rfl⟩

end Micro51
