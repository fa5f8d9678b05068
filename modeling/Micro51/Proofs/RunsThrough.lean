/- # Lines that run through

What the code of a value does hangs on its own lines only: it jumps to labels of
its own, calls nothing and does not return. So a run of the lines on their own is
a run of them wherever they stand, line for line, and it ends behind the last one.
On the way only the flags of the status word change, as long as no line writes it.

Key definitions: `Machine.followedBy`, `Instr.isLocal`, `RunsThrough`, `SameBut`,
`SameFrame`.
Key theorems: `Instr.exec_followedBy`, `Instr.exec_goesOn`, `Runs.runsThrough`,
`RunsThrough.append`.
-/
import Micro51.Proofs.GuardedRuns

namespace Micro51

/-! ### Flags -/

/-- The bytes differ in the bits `ns` at most. -/
def SameBut (ns : List Nat) (x y : Byte) : Prop := ∀ i, i ∉ ns → x.getLsbD i = y.getLsbD i

/-- The bits of the status word that arithmetic sets: overflow, half carry and
carry. -/
def flagBits : List Nat := [2, 6, 7]

namespace SameBut

variable {ns : List Nat} {x y z : Byte}

theorem refl (x : Byte) : SameBut ns x x := fun _ _ => rfl

theorem trans (first : SameBut ns x y) (second : SameBut ns y z) : SameBut ns x z :=
  fun i hi => (first i hi).trans (second i hi)

theorem setBit {n : Nat} (v : Bool) (hn : n ∈ ns) (lt : n < 8) (h : SameBut ns x y) :
    SameBut ns (setBit x n v) y := by
  intro i hi
  rw [getLsbD_setBit _ _ _ lt, if_neg fun same : i = n => hi (same ▸ hn)]
  exact h i hi

end SameBut

theorem Machine.status_withCarry (s : Machine) (c : Bool) :
    SameBut flagBits (s.withCarry c).psw s.psw :=
  (SameBut.refl _).setBit c (by decide) (by decide)

theorem Machine.status_withFlags (s : Machine) (c half overflow : Bool) :
    SameBut flagBits (s.withFlags c half overflow).psw s.psw :=
  ((((SameBut.refl _).setBit overflow (by decide) (by decide)).setBit half (by decide)
    (by decide)).setBit c (by decide) (by decide))

/-! ### Lines behind those to come -/

/-- The machine with more lines behind those to come. -/
def Machine.followedBy (s : Machine) (after : List Line) : Machine :=
  { s with rest := s.rest ++ after }

/-- Does the instruction go on inside the lines around it, if its jumps do? -/
def Instr.isLocal : Instr → Bool
  | call _ | ret | reti => false
  | _ => true

/-- A line without calls and returns. -/
def Line.isLocal : Line → Bool
  | code i => i.isLocal
  | _ => true

section

variable {C L after : List Line} (s : Machine)

theorem Machine.load_followedBy (x : Source) : (s.followedBy after).load x = s.load x := by
  cases x with
  | place p => cases p <;> rfl
  | immediate => rfl

theorem Machine.bit_followedBy (x : BitPlace) : (s.followedBy after).bit x = s.bit x := by
  cases x <;> rfl

theorem Machine.setDirect_followedBy (address : Int) (x : Byte) :
    (s.followedBy after).setDirect address x =
      (s.setDirect address x).map (·.followedBy after) := by
  unfold setDirect
  repeat' split
  all_goals rfl

theorem Machine.store_followedBy (d : Place) (x : Byte) :
    (s.followedBy after).store d x = (s.store d x).map (·.followedBy after) := by
  cases d with
  | direct a => exact s.setDirect_followedBy a x
  | _ => rfl

theorem Machine.storeBit_followedBy (d : BitPlace) (v : Bool) :
    (s.followedBy after).storeBit d v = (s.storeBit d v).map (·.followedBy after) := by
  cases d with
  | direct a n =>
    have same : (s.followedBy after).direct a = s.direct a := rfl
    simp only [storeBit, same, setDirect_followedBy, Option.bind_eq_bind, Option.map_bind]
    rfl
  | _ => rfl

theorem Machine.goto_followedBy {l : Label}
    (found : linesBehind l L = (linesBehind l C).map (· ++ after)) :
    (s.followedBy after).goto L l = (s.goto C l).map (·.followedBy after) := by
  rw [goto, found, goto, Option.map_map, Option.map_map]
  rfl

/-- An instruction does the same in front of more lines, if its jumps lead to the
same place. -/
theorem Instr.exec_followedBy {i : Instr} (isLocal : i.isLocal = true)
    (found : ∀ l, i.jump? = some l → linesBehind l L = (linesBehind l C).map (· ++ after)) :
    i.exec L (s.followedBy after) = (i.exec C s).map (·.followedBy after) := by
  have jump {l : Label} (h : i.jump? = some l) (t : Machine) :
      (t.followedBy after).goto L l = (t.goto C l).map (·.followedBy after) :=
    t.goto_followedBy (found l h)
  have taken {l : Label} (h : i.jump? = some l) (t : Machine) (c : Prop) [Decidable c] :
      (if c then (t.followedBy after).goto L l else some (t.followedBy after)) =
        (if c then t.goto C l else some t).map (·.followedBy after) := by
    split
    · exact jump h t
    · rfl
  have passed {l : Label} (h : i.jump? = some l) (t : Machine) (c : Prop) [Decidable c] :
      (if c then some (t.followedBy after) else (t.followedBy after).goto L l) =
        (if c then some t else t.goto C l).map (·.followedBy after) := by
    split
    · rfl
    · exact jump h t
  have direct (a : Int) : (s.followedBy after).direct a = s.direct a := rfl
  cases i with
  | call | ret | reti => cases isLocal
  | mov | anl | orl | xrl | inc | dec =>
    simp only [exec, Machine.load_followedBy, Machine.store_followedBy, Option.bind_eq_bind,
      Option.map_bind, Function.comp_def]
  | movBit | setb | clr | cpl =>
    simp only [exec, Machine.bit_followedBy, Machine.storeBit_followedBy, Option.bind_eq_bind,
      Option.map_bind, Function.comp_def]
  | clrAcc | cplAcc | mul | rlc | rrc | nop => rfl
  | add x | subb x =>
    simp only [exec, Machine.load_followedBy]
    cases s.load x <;> rfl
  | div =>
    have same : (s.followedBy after).b = s.b := rfl
    simp only [exec, same]
    split <;> rfl
  | jmp l | ljmp l => exact jump rfl s
  | jz l => exact taken rfl s (s.a = 0)
  | jc l => exact taken rfl s (s.carry = true)
  | jnc l => exact passed rfl s (s.carry = true)
  | jb x l =>
    simp only [exec, Machine.bit_followedBy]
    cases s.bit x with
    | none => rfl
    | some v => exact taken rfl s (v = true)
  | jnb x l =>
    simp only [exec, Machine.bit_followedBy]
    cases s.bit x with
    | none => rfl
    | some v => exact passed rfl s (v = true)
  | cjne x l =>
    simp only [exec, Machine.load_followedBy]
    cases s.load x with
    | none => rfl
    | some y => exact passed rfl (s.withCarry (decide (s.a.toNat < y.toNat))) (s.a = y)
  | djnz d l =>
    simp only [exec, Machine.load_followedBy, Machine.store_followedBy]
    cases s.load (.place d) with
    | none => rfl
    | some x =>
      simp only [Option.bind_eq_bind, Option.bind_some]
      cases s.store d (x - 1) with
      | none => rfl
      | some t => exact passed rfl t (x - 1 = 0)
  | push a =>
    simp only [exec, direct]
    cases s.direct a <;> rfl
  | pop a =>
    have same : (s.followedBy after).stack = s.stack := rfl
    simp only [exec, same]
    cases s.stack with
    | nil => rfl
    | cons slot stack =>
      cases slot with
      | back => rfl
      | byte x => exact Machine.setDirect_followedBy { s with stack } a x

end

/-! ### Where an instruction leads -/

/-- The next line is to come, or the lines that the instruction jumps to; of the
status word only flags have changed. -/
structure GoesOn (code : List Line) (i : Instr) (s t : Machine) : Prop where
  next : t.rest = s.rest ∨ ∃ l, i.jump? = some l ∧ linesBehind l code = some t.rest
  status : SameBut flagBits t.psw s.psw

section

variable {code : List Line} {i : Instr} {s s' t : Machine}

theorem Machine.setDirect_status {a : Int} {x : Byte} (h : s.setDirect a x = some t)
    (other : some a ≠ some Target.psw) : t.rest = s.rest ∧ t.psw = s.psw := by
  rw [setDirect] at h
  split at h
  · cases h
    exact ⟨rfl, rfl⟩
  split at h
  · cases h
    exact ⟨rfl, rfl⟩
  rw [if_neg fun same => other (congrArg some same)] at h
  repeat' split at h
  all_goals
    cases h
    try exact ⟨rfl, rfl⟩

theorem Machine.store_status {d : Place} {x : Byte} (h : s.store d x = some t)
    (other : d.address? ≠ some Target.psw) : t.rest = s.rest ∧ t.psw = s.psw := by
  cases d with
  | direct a => exact setDirect_status h other
  | _ =>
    cases h
    exact ⟨rfl, rfl⟩

theorem GoesOn.kept (same : t.rest = s.rest ∧ t.psw = s.psw) : GoesOn code i s t :=
  ⟨.inl same.1, same.2 ▸ .refl _⟩

theorem GoesOn.storeBit {d : BitPlace} {v : Bool} (h : s.storeBit d v = some t)
    (other : d.address? ≠ some Target.psw) : GoesOn code i s t := by
  cases d with
  | carry =>
    cases h
    exact ⟨.inl rfl, s.status_withCarry v⟩
  | acc n =>
    cases h
    exact ⟨.inl rfl, .refl _⟩
  | direct a n =>
    obtain ⟨x, -, h⟩ := Option.bind_eq_some_iff.mp h
    exact .kept (Machine.setDirect_status h other)

theorem GoesOn.goto {l : Label} (jump : i.jump? = some l) (h : s'.goto code l = some t)
    (status : SameBut flagBits s'.psw s.psw) : GoesOn code i s t := by
  obtain ⟨lines, found, rfl⟩ := Option.map_eq_some_iff.mp h
  exact ⟨.inr ⟨l, jump, found⟩, status⟩

/-- A jump that is taken or not, behind something that goes on. -/
theorem GoesOn.branch {l : Label} {c : Prop} [Decidable c] (jump : i.jump? = some l)
    (rest : s'.rest = s.rest) (status : SameBut flagBits s'.psw s.psw)
    (h : (if c then s'.goto code l else some s') = some t ∨
      (if c then some s' else s'.goto code l) = some t) : GoesOn code i s t := by
  have passed (h : some s' = some t) : GoesOn code i s t := by
    cases h
    exact ⟨.inl rest, status⟩
  rcases h with h | h <;> split at h
  · exact .goto jump h status
  · exact passed h
  · exact passed h
  · exact .goto jump h status

/-- **An instruction that neither calls nor returns** goes on at the next line or
where it jumps to. -/
theorem Instr.exec_goesOn (isLocal : i.isLocal = true) (other : i.address? ≠ some Target.psw)
    (h : i.exec code s = some t) : GoesOn code i s t := by
  cases i with
  | call | ret | reti => cases isLocal
  | clrAcc | cplAcc | nop =>
    cases h
    exact ⟨.inl rfl, .refl _⟩
  | mul =>
    cases h
    exact ⟨.inl rfl, Machine.status_withFlags _ _ _ _⟩
  | rlc | rrc =>
    cases h
    exact ⟨.inl rfl, Machine.status_withCarry _ _⟩
  | div =>
    rw [exec] at h
    split at h <;> cases h <;> exact ⟨.inl rfl, Machine.status_withFlags _ _ _ _⟩
  | add x | subb x =>
    obtain ⟨y, -, h⟩ := Option.bind_eq_some_iff.mp h
    cases h
    exact ⟨.inl rfl, Machine.status_withFlags _ _ _ _⟩
  | push x =>
    obtain ⟨y, -, h⟩ := Option.bind_eq_some_iff.mp h
    cases h
    exact ⟨.inl rfl, .refl _⟩
  | setb | clr => exact .storeBit h other
  | movBit | cpl =>
    obtain ⟨y, -, h⟩ := Option.bind_eq_some_iff.mp h
    exact .storeBit h other
  | mov | inc | dec =>
    obtain ⟨y, -, h⟩ := Option.bind_eq_some_iff.mp h
    exact .kept (Machine.store_status h other)
  | anl | orl | xrl =>
    obtain ⟨y, -, h⟩ := Option.bind_eq_some_iff.mp h
    obtain ⟨z, -, h⟩ := Option.bind_eq_some_iff.mp h
    exact .kept (Machine.store_status h other)
  | jmp | ljmp => exact .goto rfl h (.refl _)
  | jz | jc => exact .branch rfl rfl (.refl _) (.inl h)
  | jnc => exact .branch rfl rfl (.refl _) (.inr h)
  | jb =>
    obtain ⟨y, -, h⟩ := Option.bind_eq_some_iff.mp h
    exact .branch rfl rfl (.refl _) (.inl h)
  | jnb =>
    obtain ⟨y, -, h⟩ := Option.bind_eq_some_iff.mp h
    exact .branch rfl rfl (.refl _) (.inr h)
  | cjne =>
    obtain ⟨y, -, h⟩ := Option.bind_eq_some_iff.mp h
    exact .branch rfl (show (s.withCarry _).rest = s.rest from rfl) (s.status_withCarry _) (.inr h)
  | djnz d l =>
    obtain ⟨y, -, h⟩ := Option.bind_eq_some_iff.mp h
    obtain ⟨s', stored, h⟩ := Option.bind_eq_some_iff.mp h
    obtain ⟨rest, psw⟩ := Machine.store_status stored other
    exact .branch rfl rest (psw ▸ .refl _) (.inr h)
  | pop a =>
    rw [exec.eq_def] at h
    simp only at h
    split at h
    · have same := Machine.setDirect_status h other
      exact .kept same
    · cases h

end

/-! ### Runs of a stretch -/

/-- Runs the next line, which is one of the stretch. -/
def Stretch.Step (L : List Line) (r : Stretch) (h : Nat) (s t : Machine) : Prop :=
  (∃ x lines, x :: lines <:+ r.body ∧ s.rest = x :: lines ++ r.tail) ∧
    s.step L = some t ∧ t.height ≤ h

/-- The machine runs the stretch from its first line to behind its last, and no line
outside, with at most `h` bytes on the stack on the way. -/
structure RunsThrough (L : List Line) (r : Stretch) (h : Nat) (s t : Machine) : Prop where
  starts : s.rest = r.body ++ r.tail
  ends : t.rest = r.tail
  run : Relation.ReflTransGen (r.Step L h) s t

namespace RunsThrough

variable {L first second tail : List Line} {h h' : Nat} {s t u : Machine}

theorem refl (next : s.rest = tail) : RunsThrough L ⟨[], tail⟩ h s s := ⟨next, next, .refl⟩

theorem mono {r : Stretch} (run : RunsThrough L r h s t) (le : h ≤ h') :
    RunsThrough L r h' s t := by
  refine ⟨run.starts, run.ends, Relation.ReflTransGen.mono ?_ _ _ run.run⟩
  rintro v w ⟨inside, step, height⟩
  exact ⟨inside, step, height.trans le⟩

/-- One stretch after the other is one stretch. -/
theorem append (before : RunsThrough L ⟨first, second ++ tail⟩ h s t)
    (behind : RunsThrough L ⟨second, tail⟩ h t u) :
    RunsThrough L ⟨first ++ second, tail⟩ h s u := by
  refine ⟨?_, behind.ends,
    (Relation.ReflTransGen.mono ?_ _ _ before.run).trans
      (Relation.ReflTransGen.mono ?_ _ _ behind.run)⟩
  · rw [List.append_assoc]
    exact before.starts
  · rintro v w ⟨⟨x, lines, ⟨pre, split⟩, rest⟩, step⟩
    have split : pre ++ x :: lines = first := split
    have rest : v.rest = x :: lines ++ (second ++ tail) := rest
    exact ⟨⟨x, lines ++ second, ⟨pre, by simp [← split]⟩, by simp [rest]⟩, step⟩
  · rintro v w ⟨⟨x, lines, inside, rest⟩, step⟩
    exact ⟨⟨x, lines, inside.trans (List.suffix_append first second), rest⟩, step⟩

end RunsThrough

/-- The registers and the stack are as they were, and of the status word only flags
have changed. -/
structure SameFrame (s t : Machine) : Prop where
  regs : t.regs = s.regs
  stack : t.stack = s.stack
  status : SameBut flagBits t.psw s.psw

/-- Lines that go on inside themselves and leave the status word to arithmetic. -/
structure Detached (C : List Line) : Prop where
  isLocal : ∀ x ∈ C, x.isLocal = true
  jumps : SelfContained C
  status : ∀ i, .code i ∈ C → i.address? ≠ some Target.psw

/-- A label that is not defined twice is settled. -/
theorem settled_of_count {l : Label} {L : List Line} (h : (definedLabels L).count l ≤ 1) :
    Settled L l := by
  induction L with
  | nil => intro lines hs; simp at hs
  | cons x xs ih =>
    intro lines hs
    have fewer : (definedLabels xs).count l ≤ (definedLabels (x :: xs)).count l :=
      ((List.sublist_cons_self x xs).filterMap _).count_le l
    rw [linesBehind]
    rcases List.suffix_cons_iff.mp hs with heq | hs
    · obtain ⟨rfl, rfl⟩ := List.cons.inj heq
      rw [if_pos rfl]
    · have hmem : l ∈ definedLabels xs := mem_definedLabels.mpr (hs.subset List.mem_cons_self)
      have hx : x ≠ .label l := by
        rintro rfl
        rw [definedLabels_label, List.count_cons_self] at h
        have := List.count_pos_iff.mpr hmem
        omega
      rw [if_neg hx]
      exact ih (by omega) lines hs

section

variable {C L after : List Line} {h : Nat} {s t u v : Machine}

/-- Behind a label of the lines come the same lines, and the others behind them. -/
theorem linesBehind_of_place {l : Label} (place : C ++ after <:+ L) (settled : Settled L l)
    (hl : l ∈ definedLabels C) : linesBehind l L = (linesBehind l C).map (· ++ after) := by
  have first (C : List Line) (hl : .label l ∈ C) :
      ∃ lines, linesBehind l C = some lines ∧ .label l :: lines <:+ C := by
    induction C with
    | nil => cases hl
    | cons x xs ih =>
      rw [linesBehind]
      by_cases hx : x = .label l
      · exact ⟨xs, if_pos hx, hx ▸ List.suffix_rfl⟩
      · obtain ⟨lines, found, place⟩ := ih ((List.mem_cons.mp hl).resolve_left (Ne.symm hx))
        exact ⟨lines, by rw [if_neg hx, found], place.trans (List.suffix_cons x xs)⟩
  obtain ⟨lines, found, stands⟩ := first C (mem_definedLabels.mp hl)
  obtain ⟨pre, rfl⟩ := stands
  rw [found]
  exact settled _ (List.IsSuffix.trans ⟨pre, by simp⟩ place)

/-- A step of the lines on their own is a step of them wherever they stand. -/
theorem Detached.step (detached : Detached C)
    (found : ∀ l ∈ definedLabels C, linesBehind l L = (linesBehind l C).map (· ++ after))
    (inside : u.rest <:+ C) (run : u.step C = some v) :
    (∃ x lines, x :: lines <:+ C ∧ u.rest = x :: lines) ∧
      (u.followedBy after).step L = some (v.followedBy after) ∧ v.rest <:+ C ∧
      SameBut flagBits v.psw u.psw := by
  rw [Machine.step] at run
  cases next : u.rest with
  | nil =>
    rw [next] at run
    cases run
  | cons x lines =>
    rw [next] at run inside
    have member : x ∈ C := inside.subset List.mem_cons_self
    have later : lines <:+ C := (List.suffix_cons x lines).trans inside
    have whole : (u.followedBy after).rest = x :: (lines ++ after) := by
      rw [Machine.followedBy, next, List.cons_append]
    refine ⟨⟨x, lines, inside, rfl⟩, ?_⟩
    rw [Machine.step, whole]
    cases x with
    | code i =>
      have run : i.exec C { u with rest := lines } = some v := run
      have target (l : Label) (jump : i.jump? = some l) : l ∈ definedLabels C :=
        detached.jumps (List.mem_filterMap.mpr ⟨_, member, jump⟩)
      have isLocal : i.isLocal = true := detached.isLocal _ member
      have same := Instr.exec_followedBy { u with rest := lines } isLocal
        fun l jump => found l (target l jump)
      rw [run] at same
      obtain ⟨goes, status⟩ := Instr.exec_goesOn isLocal (detached.status i member) run
      refine ⟨same, ?_, status⟩
      rcases goes with rest | ⟨l, jump, behind⟩
      · exact rest ▸ later
      · obtain ⟨pre, split⟩ := linesBehind_eq_some behind
        exact ⟨pre ++ [.label l], by simp [split]⟩
    | origin | endOfCode => cases run
    | _ =>
      cases run
      exact ⟨rfl, later, .refl _⟩

/-- **A run of the lines on their own** is a run through them wherever they stand. -/
theorem Runs.runsThrough (detached : Detached C) (place : C ++ after <:+ L)
    (settled : ∀ l ∈ definedLabels C, Settled L l) (starts : s.rest = C ++ after)
    (run : Runs C h { s with rest := C } t) (ends : t.rest = []) :
    RunsThrough L ⟨C, after⟩ h s (t.followedBy after) ∧ SameBut flagBits t.psw s.psw := by
  have found (l : Label) (hl : l ∈ definedLabels C) := linesBehind_of_place place (settled l hl) hl
  have whole : s = Machine.followedBy { s with rest := C } after := by
    rw [Machine.followedBy, ← starts]
  -- the lines to come stay lines of the stretch
  have lifted : Relation.ReflTransGen (Stretch.Step L ⟨C, after⟩ h) s (t.followedBy after) ∧
      t.rest <:+ C ∧ SameBut flagBits t.psw s.psw := by
    clear ends
    induction run with
    | refl => exact ⟨whole ▸ .refl, List.suffix_rfl, .refl _⟩
    | @tail u v _ step ih =>
      obtain ⟨before, inside, status⟩ := ih
      obtain ⟨⟨x, lines, sub, next⟩, step', inside', status'⟩ :=
        detached.step found inside step.1
      refine ⟨before.tail ⟨⟨x, lines, sub, ?_⟩, step', step.2⟩, inside', status'.trans status⟩
      rw [Machine.followedBy, next]
  refine ⟨⟨starts, ?_, lifted.1⟩, lifted.2.2⟩
  rw [Machine.followedBy, ends, List.nil_append]

end

end Micro51
