/- # Keeping count of the stack

What lies on the stack can be read off the code from top to bottom: a push
adds a byte, a pop takes one away, and a jump must find the stack as the lines
in front of its target leave it. A `Ledger` is what such a reading knows in
front of a line. It also knows of some bytes whose they are: a byte that a
method pushes before it changes anything is the one that its caller had, and
popped back to its place it is so again.

Where every line fits the ledger in front of it, control flow does not matter:
whichever way a line is reached, as much is on the stack as the reading says.

Key definitions: `StackShape`, `Ledger`, `Ledger.next`, `marks`,
`Ledger.Permits`, `Fits`, `Checked`, `Flow`, `Outstanding`, `StackLevel`.
Key theorems: `Checked.permits`, `Checked.shape_target`, `Flow.counted`,
`Outstanding.counted`, `Checked.stackLevel`.
-/
import Micro51.Proofs.Jumps

namespace Micro51

/-- Is the label a target inside a section, and not an entry? -/
def Label.isJump : Label → Bool
  | jump _ => true
  | _ => false

/-- The direct address of a place. -/
def Place.address? : Place → Option Int
  | direct a => some a
  | _ => none

@[simp] theorem Place.address?_acc : Place.acc.address? = none := rfl

@[simp] theorem Place.address?_direct (a : Int) : (Place.direct a).address? = some a := rfl

@[simp] theorem Place.address?_register (r : Register) : (Place.register r).address? = none := rfl

/-- The direct address of the byte that a bit lies in. -/
def BitPlace.address? : BitPlace → Option Int
  | direct a _ => some a
  | _ => none

@[simp] theorem BitPlace.address?_carry : BitPlace.carry.address? = none := rfl

@[simp] theorem BitPlace.address?_acc (n : Nat) : (BitPlace.acc n).address? = none := rfl

@[simp] theorem BitPlace.address?_direct (a : Int) (n : Nat) :
    (BitPlace.direct a n).address? = some a := rfl

namespace Instr

/-- The direct address that an instruction writes. -/
def address? : Instr → Option Int
  | mov d _ | anl d _ | orl d _ | xrl d _ | inc d | dec d | djnz d _ => d.address?
  | movBit d _ | setb d | clr d | cpl d => d.address?
  | pop a => some a
  | _ => none

/-- Does the instruction leave the stack and its pointer alone? A call counts as
one that comes back. -/
def isLevel : Instr → Bool
  | push _ | pop _ | ret | reti => false
  | i => i.address? != some Target.sp

/-- Can the line behind the instruction come next? -/
def goesOn : Instr → Bool
  | jmp _ | ljmp _ | ret | reti => false
  | _ => true

/-- What an instruction adds to the pushes that are outstanding. -/
def pushes : Instr → Int
  | push _ => 1
  | pop _ => -1
  | _ => 0

end Instr

/-! ### The reading -/

/-- What lies on the stack above the caller's part of it. -/
structure StackShape where
  /-- The bytes that the method must leave as it found them; `none` in the main
  program. -/
  owed : Option (List Int)
  /-- The bytes pushed since the entry, the top first. `some a` is the byte that
  was at the address `a` at the entry. -/
  slots : List (Option Int)

/-- Between two commands, all that is owed lies on the stack, and nothing else. -/
def StackShape.base (owed : Option (List Int)) : StackShape :=
  ⟨owed, (owed.getD []).reverse.map some⟩

/-- What is known in front of a line of the code. -/
structure Ledger extends shape : StackShape where
  /-- The addresses that hold again, or still, what they held at the entry. -/
  kept : List Int
  /-- Can the line be reached from the one above it? -/
  live : Bool

namespace Ledger

/-- In front of the first line, where no jump and no call leads. -/
def start : Ledger := ⟨⟨none, []⟩, [], false⟩

/-- What is known behind an instruction. A return is the end of one way through
the method; the lines below it belong to another, on which the context is still
on the stack. -/
def exec (h : Ledger) : Instr → Ledger
  | .push a => { h with slots := (if a ∈ h.kept then some a else none) :: h.slots }
  | .pop a =>
    { h with
      slots := h.slots.tail
      kept := (if h.slots.head? = some (some a) then [a] else []) ++ h.kept.filter (· ≠ a) }
  | .ret => ⟨.base h.owed, [], false⟩
  | .jmp _ | .ljmp _ | .reti => ⟨h.shape, [], false⟩
  | _ => ⟨h.shape, [], h.live⟩

/-- What is known behind a label; a method that is entered owes `owes`. -/
def enter (owes : Label → List Int) (h : Ledger) : Label → Ledger
  | .jump _ => ⟨h.shape, [], true⟩
  | .method n => ⟨⟨some (owes (.method n)), []⟩, owes (.method n), true⟩
  | .main => ⟨⟨none, []⟩, [], true⟩

/-- What is known behind a line. -/
def next (owes : Label → List Int) (h : Ledger) : Line → Ledger
  | .code i => h.exec i
  | .label l => h.enter owes l
  | _ => h

/-- What is known behind some lines. -/
def after (owes : Label → List Int) (h : Ledger) (lines : List Line) : Ledger :=
  lines.foldl (next owes) h

/-- An instruction that the ledger allows, where the labels have the shapes
`M`. -/
structure Permits (M : List (Label × StackShape)) (h : Ledger) (i : Instr) : Prop where
  jump : ∀ l, i.jump? = some l → (l, h.shape) ∈ M
  pointer : h.owed.isSome = true → i.address? ≠ some Target.sp
  pop : ∀ a, i = .pop a → h.slots ≠ []
  ret : i = .ret → h.slots = [] ∧ ∃ owed, h.owed = some owed ∧ owed ⊆ h.kept
  reti : i = .reti → h.live = false

/-- A line that the ledger allows: an entry is not run into from above. -/
def Allows (M : List (Label × StackShape)) (h : Ledger) : Line → Prop
  | .code i => h.Permits M i
  | .label l => l.isJump = true ∨ h.live = false
  | _ => True

end Ledger

/-- The label that a line defines, if jumps may lead to it: a method is called. -/
def Line.joint? : Line → Option Label
  | label (.method _) => none
  | x => x.label?

/-- The labels of the lines that jumps may lead to, with the shape of the stack
behind each. -/
def marks (owes : Label → List Int) (h : Ledger) : List Line → List (Label × StackShape)
  | [] => []
  | x :: xs =>
    (x.joint?.map fun l => (l, (h.next owes x).shape)).toList ++ marks owes (h.next owes x) xs

/-- Each line is allowed by the ledger in front of it. -/
def Fits (owes : Label → List Int) (M : List (Label × StackShape)) (h : Ledger) : List Line → Prop
  | [] => True
  | x :: xs => h.Allows M x ∧ Fits owes M (h.next owes x) xs

section

variable {owes : Label → List Int} {M : List (Label × StackShape)}

namespace Ledger

variable (h : Ledger) (x : Line) (xs ys : List Line)

@[simp] theorem after_nil : h.after owes [] = h := rfl

@[simp] theorem after_cons : h.after owes (x :: xs) = (h.next owes x).after owes xs := rfl

@[simp] theorem after_append : h.after owes (xs ++ ys) = (h.after owes xs).after owes ys :=
  List.foldl_append

end Ledger

@[simp] theorem marks_nil (h : Ledger) : marks owes h [] = [] := rfl

@[simp] theorem marks_append (h : Ledger) (xs ys : List Line) :
    marks owes h (xs ++ ys) = marks owes h xs ++ marks owes (h.after owes xs) ys := by
  induction xs generalizing h with
  | nil => rfl
  | cons x xs ih => simp [marks, ih]

theorem marks_map_fst (owes : Label → List Int) (h : Ledger) (xs : List Line) :
    (marks owes h xs).map Prod.fst = xs.filterMap Line.joint? := by
  induction xs generalizing h with
  | nil => rfl
  | cons x xs ih =>
    rw [marks, List.map_append, ih, List.filterMap_cons]
    cases x.joint? <;> rfl

/-- Where the main program starts, nothing is on the stack. -/
theorem marks_main {h : Ledger} {xs : List Line} {s : StackShape}
    (mark : (.main, s) ∈ marks owes h xs) : s = .base none := by
  induction xs generalizing h with
  | nil => cases mark
  | cons x xs ih =>
    rcases List.mem_append.mp mark with here | later
    · obtain ⟨l, hl, same⟩ := Option.map_eq_some_iff.mp (Option.mem_toList.mp here)
      obtain ⟨rfl, rfl⟩ := Prod.mk.inj same
      cases x with
      | label l =>
        cases l with
        | main => rfl
        | _ => cases hl
      | _ => cases hl
    · exact ih later

theorem Line.joint?_ne (x : Line) (n : Nat) : x.joint? ≠ some (.method n) := by
  cases x with
  | label l => cases l <;> simp [joint?, label?]
  | _ => simp [joint?, label?]

theorem main_mem_marks {h : Ledger} {xs : List Line} (start : .label .main ∈ xs) :
    (.main, .base none) ∈ marks owes h xs := by
  have joint : .main ∈ (marks owes h xs).map Prod.fst := by
    rw [marks_map_fst]
    exact List.mem_filterMap.mpr ⟨_, start, rfl⟩
  obtain ⟨⟨l, s⟩, mark, rfl⟩ := List.mem_map.mp joint
  rw [← marks_main mark]
  exact mark

theorem joints_sublist (xs : List Line) : (xs.filterMap Line.joint?).Sublist (definedLabels xs) := by
  induction xs with
  | nil => exact .refl _
  | cons x xs ih =>
    cases x with
    | label l =>
      cases l with
      | method n => exact ih.cons _
      | _ => exact ih.cons_cons _
    | _ => exact ih

@[simp] theorem fits_append (h : Ledger) (xs ys : List Line) :
    Fits owes M h (xs ++ ys) ↔ Fits owes M h xs ∧ Fits owes M (h.after owes xs) ys := by
  induction xs generalizing h with
  | nil => simp [Fits]
  | cons x xs ih => simp [Fits, ih, and_assoc]

end

/-! ### Lines that leave the stack alone -/

/-- Does the line leave the stack and its pointer alone? -/
def Line.isLevel : Line → Bool
  | code i => i.isLevel
  | label l => l.isJump
  | _ => true

@[simp] theorem Line.isLevel_code (i : Instr) : (code i).isLevel = i.isLevel := rfl

@[simp] theorem Line.isLevel_label (l : Label) : (label l).isLevel = l.isJump := rfl

section

variable {owes : Label → List Int} {M : List (Label × StackShape)} {i : Instr}

theorem Instr.address?_of_isLevel (level : i.isLevel = true) : i.address? ≠ some Target.sp := by
  unfold isLevel at level
  split at level
  · cases level
  · cases level
  · cases level
  · cases level
  · simpa using level

theorem Ledger.shape_exec (level : i.isLevel = true) (h : Ledger) :
    (h.exec i).shape = h.shape := by
  cases i <;> first | rfl | cases level

theorem Ledger.shape_next {x : Line} (level : x.isLevel = true) (h : Ledger) :
    (h.next owes x).shape = h.shape := by
  cases x with
  | code i => exact shape_exec level h
  | label l => cases l <;> first | rfl | cases level
  | _ => rfl

theorem Ledger.Permits.of_isLevel (level : i.isLevel = true) {h : Ledger}
    (jump : ∀ l, i.jump? = some l → (l, h.shape) ∈ M) : h.Permits M i where
  jump := jump
  pointer _ := i.address?_of_isLevel level
  pop := by rintro a rfl; cases level
  ret := by rintro rfl; cases level
  reti := by rintro rfl; cases level

theorem Ledger.Permits.of_push (h : Ledger) (a : Int) : h.Permits M (.push a) where
  jump := by simp [Instr.jump?]
  pointer := by simp [Instr.address?]
  pop := by simp
  ret := by simp
  reti := by simp

theorem Ledger.Permits.of_pop {h : Ledger} {a : Int} (ha : a ≠ Target.sp) (slots : h.slots ≠ []) :
    h.Permits M (.pop a) where
  jump := by simp [Instr.jump?]
  pointer _ := by simpa [Instr.address?] using ha
  pop _ _ := slots
  ret := by simp
  reti := by simp

theorem Ledger.shape_after {xs : List Line} (level : ∀ x ∈ xs, x.isLevel = true) (h : Ledger) :
    (h.after owes xs).shape = h.shape := by
  induction xs generalizing h with
  | nil => rfl
  | cons x xs ih =>
    obtain ⟨first, rest⟩ := List.forall_mem_cons.mp level
    rw [after_cons, ih rest, shape_next first]

/-- All labels of such lines have the shape in front of them. -/
theorem marks_of_isLevel {xs : List Line} (level : ∀ x ∈ xs, x.isLevel = true) (h : Ledger) :
    marks owes h xs = (definedLabels xs).map fun l => (l, h.shape) := by
  induction xs generalizing h with
  | nil => rfl
  | cons x xs ih =>
    obtain ⟨first, rest⟩ := List.forall_mem_cons.mp level
    rw [marks, ih rest, Ledger.shape_next first]
    cases x with
    | label l => cases l <;> first | rfl | cases first
    | _ => rfl

theorem Fits.of_isLevel {xs : List Line} (level : ∀ x ∈ xs, x.isLevel = true) {h : Ledger}
    (jumps : ∀ l ∈ jumpTargets xs, (l, h.shape) ∈ M) : Fits owes M h xs := by
  induction xs generalizing h with
  | nil => trivial
  | cons x xs ih =>
    obtain ⟨first, rest⟩ := List.forall_mem_cons.mp level
    refine ⟨?_, ih rest fun l hl => ?_⟩
    · cases x with
      | code i =>
        refine .of_isLevel first fun l hl => jumps l ?_
        simp [hl]
      | label l => exact .inl first
      | _ => trivial
    · rw [Ledger.shape_next first]
      exact jumps l (((List.sublist_cons_self x xs).filterMap _).subset hl)

end

/-! ### Code that fits -/

/-- The whole code fits, and no label stands in it twice. -/
structure Checked (owes : Label → List Int) (code : List Line) : Prop where
  fits : Fits owes (marks owes .start code) .start code
  once : (definedLabels code).Nodup

theorem linesBehind_eq_some {l : Label} {code lines : List Line}
    (h : linesBehind l code = some lines) : ∃ pre, code = pre ++ .label l :: lines := by
  induction code with
  | nil => cases h
  | cons x xs ih =>
    rw [linesBehind] at h
    split at h
    · next hx =>
      cases h
      exact ⟨[], by rw [hx]; rfl⟩
    · obtain ⟨pre, rfl⟩ := ih h
      exact ⟨x :: pre, rfl⟩

/-- What is known in front of the last lines of the code. -/
def Tracks (owes : Label → List Int) (code rest : List Line) (h : Ledger) : Prop :=
  ∃ pre, code = pre ++ rest ∧ Ledger.start.after owes pre = h

section

variable {owes : Label → List Int} {code rest lines : List Line} {h h' : Ledger} {x : Line}
  {l : Label}

/-- Only one thing is known in front of a line. -/
theorem Tracks.unique (first : Tracks owes code rest h) (second : Tracks owes code rest h') :
    h = h' := by
  obtain ⟨pre, rfl, rfl⟩ := first
  obtain ⟨pre', same, rfl⟩ := second
  rw [List.append_cancel_right same]

theorem Tracks.next (known : Tracks owes code (x :: rest) h) :
    Tracks owes code rest (h.next owes x) := by
  obtain ⟨pre, rfl, rfl⟩ := known
  exact ⟨pre ++ [x], by simp, by simp⟩

/-- Behind a label, what is known comes from the line above it. -/
theorem Tracks.of_linesBehind (owes : Label → List Int) (found : linesBehind l code = some lines) :
    ∃ h : Ledger, Tracks owes code lines (h.enter owes l) ∧
      ∀ l' ∈ (Line.label l).joint?, (l', (h.enter owes l).shape) ∈ marks owes .start code := by
  obtain ⟨pre, rfl⟩ := linesBehind_eq_some found
  refine ⟨Ledger.start.after owes pre, ⟨pre ++ [.label l], by simp, by simp [Ledger.next]⟩, ?_⟩
  intro l' hl'
  simp [marks, Option.mem_def.mp hl', Ledger.next]

namespace Checked

theorem allows (checked : Checked owes code) (known : Tracks owes code (x :: rest) h) :
    h.Allows (marks owes .start code) x := by
  obtain ⟨pre, rfl, rfl⟩ := known
  exact ((fits_append _ _ _).mp checked.fits).2.1

theorem permits (checked : Checked owes code) {i : Instr}
    (known : Tracks owes code (.code i :: rest) h) : h.Permits (marks owes .start code) i :=
  checked.allows known

/-- A label has one shape. -/
theorem marks_inj (checked : Checked owes code) {s s' : StackShape}
    (first : (l, s) ∈ marks owes .start code) (second : (l, s') ∈ marks owes .start code) :
    s = s' := by
  have once : ((marks owes .start code).map Prod.fst).Nodup := by
    rw [marks_map_fst]
    exact checked.once.sublist (joints_sublist code)
  exact congrArg Prod.snd (List.inj_on_of_nodup_map once first second rfl)

/-- Where a jump leads, the stack has the shape that it has at the jump. -/
theorem shape_target (checked : Checked owes code) {s : StackShape}
    (jump : (l, s) ∈ marks owes .start code) (found : linesBehind l code = some lines) :
    ∃ h : Ledger, Tracks owes code lines h ∧ h.shape = s ∧ h.kept = [] ∧ h.live = true := by
  obtain ⟨h, known, mark⟩ := Tracks.of_linesBehind owes found
  refine ⟨h.enter owes l, known, ?_⟩
  cases l with
  | method n =>
    have joint := List.mem_map_of_mem (f := Prod.fst) jump
    rw [marks_map_fst] at joint
    obtain ⟨x, -, hx⟩ := List.mem_filterMap.mp joint
    exact absurd hx (x.joint?_ne n)
  | jump n => exact ⟨checked.marks_inj (mark _ rfl) jump, rfl, rfl⟩
  | main => exact ⟨checked.marks_inj (mark _ rfl) jump, rfl, rfl⟩

end Checked

end

/-! ### Control flow -/

/-- One step of control flow through the code, with the pushes that are
outstanding: to the next line, or to where a jump leads. A call is passed as one
that comes back. -/
inductive Flow (code : List Line) : List Line × Int → List Line × Int → Prop where
  | pass {x : Line} {rest : List Line} {n : Int} (other : ∀ i, x ≠ .code i) :
      Flow code (x :: rest, n) (rest, n)
  | next {i : Instr} {rest : List Line} {n : Int} (on : i.goesOn = true) :
      Flow code (.code i :: rest, n) (rest, n + i.pushes)
  | jump {i : Instr} {l : Label} {rest lines : List Line} {n : Int} (jump : i.jump? = some l)
      (found : linesBehind l code = some lines) :
      Flow code (.code i :: rest, n) (lines, n + i.pushes)

/-- Some way through the code from behind the label `l` comes to the lines `rest`
with `n` pushes outstanding. -/
def Outstanding (code : List Line) (l : Label) (rest : List Line) (n : Int) : Prop :=
  ∃ start, linesBehind l code = some start ∧
    Relation.ReflTransGen (Flow code) (start, 0) (rest, n)

/-- From whichever of the entries a line is reached, and in whichever way, the
same number of pushes is outstanding there; nothing is popped that was not
pushed; at a return nothing is left, nor where the main program starts again. -/
structure StackLevel (code : List Line) (entries : List Label) : Prop where
  entered : ∀ l ∈ entries, ∃ start, Outstanding code l start 0
  unique : ∀ l ∈ entries, ∀ l' ∈ entries, ∀ rest n n',
    Outstanding code l rest n → Outstanding code l' rest n' → n = n'
  nonneg : ∀ l ∈ entries, ∀ rest n, Outstanding code l rest n → 0 ≤ n
  ret : ∀ l ∈ entries, ∀ rest n, Outstanding code l (.code .ret :: rest) n → n = 0
  again : ∀ l ∈ entries, ∀ rest n, Outstanding code l (.code (.jmp .main) :: rest) n → n = 0

/-- The reading counts as many pushes as are outstanding. -/
def Counted (owes : Label → List Int) (code rest : List Line) (n : Int) : Prop :=
  ∃ h : Ledger, Tracks owes code rest h ∧ h.live = true ∧ h.slots.length = n

section

variable {owes : Label → List Int} {code rest : List Line} {l : Label} {n : Int}

theorem Instr.pushes_of_jump {i : Instr} (jump : i.jump? = some l) : i.pushes = 0 := by
  cases i <;> first | rfl | cases jump

/-- An instruction behind which the next line can come adds to the slots what it
adds to the pushes. -/
theorem Ledger.Permits.length_exec {M : List (Label × StackShape)} {h : Ledger} {i : Instr}
    (permits : h.Permits M i) (on : i.goesOn = true) :
    ((h.exec i).slots.length : Int) = h.slots.length + i.pushes ∧ (h.exec i).live = h.live := by
  cases i with
  | push a => exact ⟨by simp [exec, Instr.pushes], rfl⟩
  | pop a =>
    have some := permits.pop a rfl
    refine ⟨?_, rfl⟩
    have pos := List.length_pos_iff.mpr some
    simp only [exec, Instr.pushes, List.length_tail]
    omega
  | jmp | ljmp | ret | reti => cases on
  | _ => exact ⟨(Int.add_zero _).symm, rfl⟩

/-- Each step of control flow keeps the count. -/
theorem Flow.counted (checked : Checked owes code) {a b : List Line × Int} (flow : Flow code a b)
    (counted : Counted owes code a.1 a.2) : Counted owes code b.1 b.2 := by
  obtain ⟨h, known, live, length⟩ := counted
  cases flow with
  | @pass x rest n other =>
    refine ⟨h.next owes x, known.next, ?_⟩
    have allows := checked.allows known
    cases x with
    | code i => exact absurd rfl (other i)
    | label l =>
      -- an entry is not run into, so the label is one inside a section
      rcases allows with jump | dead
      · cases l with
        | jump n => exact ⟨rfl, length⟩
        | _ => cases jump
      · rw [live] at dead
        cases dead
    | _ => exact ⟨live, length⟩
  | @next i rest n on =>
    obtain ⟨count, same⟩ := (checked.permits known).length_exec on
    refine ⟨h.exec i, known.next, same.trans live, ?_⟩
    rw [count]
    exact congrArg (· + i.pushes) length
  | @jump i l rest lines n jump found =>
    obtain ⟨h', known', shape, -, live'⟩ :=
      checked.shape_target ((checked.permits known).jump l jump) found
    refine ⟨h', known', live', ?_⟩
    rw [Instr.pushes_of_jump jump, Int.add_zero, shape]
    exact length

/-- Every way through the code keeps the count. -/
theorem Outstanding.counted (checked : Checked owes code) (entry : l.isJump = false)
    (h : Outstanding code l rest n) : Counted owes code rest n := by
  obtain ⟨start, found, way⟩ := h
  have first : Counted owes code start 0 := by
    obtain ⟨h, known, -⟩ := Tracks.of_linesBehind owes found
    refine ⟨h.enter owes l, known, ?_⟩
    cases l with
    | jump n => cases entry
    | _ => exact ⟨rfl, rfl⟩
  have along {a b : List Line × Int} (way : Relation.ReflTransGen (Flow code) a b)
      (first : Counted owes code a.1 a.2) : Counted owes code b.1 b.2 := by
    induction way with
    | refl => exact first
    | tail _ flow ih => exact flow.counted checked ih
  exact along way first

/-- **Code that fits keeps the stack level** on every way from an entry. -/
theorem Checked.stackLevel (checked : Checked owes code) {entries : List Label}
    (entry : ∀ l ∈ entries, l.isJump = false) (defined : entries ⊆ definedLabels code) :
    StackLevel code entries where
  entered l hl := by
    obtain ⟨pre, start, split⟩ := List.append_of_mem (mem_definedLabels.mp (defined hl))
    exact ⟨start, start, settled_of_nodup checked.once l start ⟨pre, split.symm⟩, .refl⟩
  unique l hl l' hl' rest n n' first second := by
    obtain ⟨h, known, -, length⟩ := first.counted checked (entry l hl)
    obtain ⟨h', known', -, length'⟩ := second.counted checked (entry l' hl')
    rw [← length, ← length', known.unique known']
  nonneg l hl rest n way := by
    obtain ⟨h, -, -, length⟩ := way.counted checked (entry l hl)
    omega
  ret l hl rest n way := by
    obtain ⟨h, known, -, length⟩ := way.counted checked (entry l hl)
    rw [← length, ((checked.permits known).ret rfl).1]
    rfl
  again l hl rest n way := by
    obtain ⟨h, known, -, length⟩ := way.counted checked (entry l hl)
    rw [← length, marks_main ((checked.permits known).jump .main rfl)]
    rfl

end

end Micro51
