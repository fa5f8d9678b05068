/- # Values and assignments in the assembly

The code of a value that is no call runs through wherever it stands: from its first
line to behind its last, over no other line, as long as no label of it is defined
elsewhere. It leaves the value in the accumulator. Besides accumulator, B and flags
it changes only the variables under `++` and `--`, and the code of an assignment its
target.

Key definitions: `Expr.Computed`, `Expr.Computes`, `Assignment.Carried`,
`Assignment.Carries`, `Command.assignments`.
Key theorems: `Expr.detached_code`, `Expr.computes`, `Assignment.carries`,
`value_code_computes`.
-/
import Micro51.Proofs.Footprint
import Micro51.Proofs.Guards
import Micro51.Proofs.Kinds
import Micro51.Proofs.ReadingState
import Micro51.Proofs.RunsThrough

namespace Micro51

/-! ### Lines without calls and returns -/

section

variable {xs ys : List Line}

attribute [local simp] Instr.isLocal

/-- No line calls or returns. -/
def LocalLines (lines : List Line) : Prop := ∀ x ∈ lines, x.isLocal = true

@[simp] theorem localLines_nil : LocalLines [] := List.forall_mem_nil _

@[simp] theorem localLines_cons {x : Line} :
    LocalLines (x :: xs) ↔ x.isLocal = true ∧ LocalLines xs := List.forall_mem_cons

@[simp] theorem localLines_append : LocalLines (xs ++ ys) ↔ LocalLines xs ∧ LocalLines ys :=
  List.forall_mem_append

@[simp] theorem Line.isLocal_code (i : Instr) : (Line.code i).isLocal = i.isLocal := rfl

@[simp] theorem Line.isLocal_label (l : Label) : (Line.label l).isLocal = true := rfl

theorem localLines_moveBit (o : Operand) (dst : BitPlace) : LocalLines (moveBit o dst) := by
  cases o with
  | stored v => simp [moveBit]
  | literal c =>
    simp only [moveBit, localLines_cons, localLines_nil, and_true]
    split <;> rfl

theorem Operand.localLines_loadAcc (o : Operand) : LocalLines o.loadAcc := by
  unfold loadAcc
  cases o.kind with
  | bit => exact localLines_moveBit _ _
  | byte => simp

theorem Operand.localLines_loadB (o : Operand) : LocalLines o.loadB := by
  unfold loadB
  cases o.kind with
  | bit => exact localLines_moveBit _ _
  | byte => simp

theorem Operand.localLines_copyTo (o : Operand) (v : Variable) : LocalLines (o.copyTo v) := by
  unfold copyTo
  cases v.kind with
  | bit => exact localLines_moveBit _ _
  | byte => simp

theorem Variable.localLines_store (v : Variable) : LocalLines v.store := by
  unfold store
  cases v.kind <;> simp

theorem BinaryOp.localLines_code (op : BinaryOp) : LocalLines op.code := by
  cases op <;> simp [code]

namespace Expr

theorem localLines_loadBoth {l r : Expr} (hl : LocalLines l.code) (hr : LocalLines r.code) :
    LocalLines (loadBoth l r l.code r.code) := by
  unfold loadBoth
  split
  · next o => simp [hl, o.localLines_loadB]
  · next o _ => simp [hr, o.localLines_loadAcc]
  · simp [hl, hr]

theorem localLines_code (e : Expr) : LocalLines e.code := by
  induction e with
  | operand o => exact o.localLines_loadAcc
  | not e ih => cases kind : e.kind <;> simp [code, ih, kind]
  | step s v => cases s <;> simp [code]
  | bitOf e n isSet done ih => simp [code, ih]
  | binary op l r ihl ihr => simp [code, localLines_loadBoth ihl ihr, op.localLines_code]
  | shift s l r again test ihl ihr =>
    have shift : LocalLines (s.code again test) := by cases s <;> simp [Shift.code]
    simp [code, localLines_loadBoth ihl ihr, shift]
  | compare c signed l r first second ihl ihr =>
    have compare : LocalLines (c.code signed first second) := by
      cases signed <;> cases c <;> simp [Relation.code, flipSigns, loadOne]
    simp [code, localLines_loadBoth ihl ihr, compare]

end Expr

theorem Assignment.localLines_code {a : Assignment} {e : Expr} (value : a.value = .expr e) :
    LocalLines a.code := by
  have inner : LocalLines a.value.code := by
    rw [value]
    exact e.localLines_code
  unfold code
  split
  · simp [inner]
  · next op _ =>
    simp [inner, Operand.localLines_loadAcc, op.localLines_code, Variable.localLines_store]
  · split
    · exact Operand.localLines_copyTo _ _
    · simp [inner, Variable.localLines_store]

end

/-! ### Code on its own -/

/-- Lines that name only variables which lie where variables can lie do not write the
status word. -/
theorem Within.status {ext : Extent} {xs : List Line} (within : Within ext xs)
    (placed : ∀ v ∈ ext.stored, v.Placed) (i : Instr) (hi : .code i ∈ xs) :
    i.address? ≠ some Target.psw := by
  have storage {v : Variable} (hv : v ∈ ext.stored) : v.address ≠ Target.psw :=
    (Machine.storage_ne (placed v hv).address).2.2.1
  refine Instr.address?_ne_of_named fun n hn => ?_
  have allowed := (within _ hi).2 n hn
  cases n with
  | byte a =>
    rintro ⟨⟩
    rcases allowed with acc | b | stored
    · cases acc
    · cases b
    · obtain ⟨v, hv, same⟩ := List.mem_map.mp stored
      exact storage (List.mem_of_mem_filter hv) same
  | bit a n =>
    rintro ⟨⟩
    rcases allowed with ⟨b, -⟩ | stored
    · cases b
    · obtain ⟨v, hv, same⟩ := List.mem_map.mp stored
      exact storage (List.mem_of_mem_filter hv) (Prod.mk.inj same).1
  | _ => simp [Named.address?]

section

variable {live : List Variable} {L C after : List Line} {h : Nat} {s : Machine} {m : Memory}

/-- Lines that work on the live variables only, and on nothing that is declared. -/
def Extent.ofLive (live : List Variable) : Extent := ⟨live, [], []⟩

theorem Expr.detached_code (placed : ∀ v ∈ live, v.Placed) {e : Expr} (wf : e.WellFormed live) :
    Detached e.code := by
  have within : Within (.ofLive live) e.code := e.within_code wf
  exact ⟨e.localLines_code, e.selfContained_code, within.status placed⟩

theorem Assignment.detached_code {sc : Scope} (placed : ∀ v ∈ sc.stored, v.Placed) {a : Assignment}
    {e : Expr} (wf : a.WellFormed sc) (value : a.value = .expr e) : Detached a.code := by
  have within : Within (.ofLive sc.stored) a.code :=
    Assignment.within_code wf (List.Subset.refl _) (by rw [value]; exact List.nil_subset _)
  exact ⟨a.localLines_code value, a.selfContained_code, within.status placed⟩

/-- Where the lines on their own come to their end, they run through wherever they
stand. -/
theorem Reaches.runsThrough {P : Byte → Byte → Prop} (detached : Detached C)
    (place : C ++ after <:+ L)
    (once : ∀ l ∈ definedLabels C, (definedLabels L).count l ≤ 1) (next : s.rest = C ++ after)
    (reach : Reaches C h { s with rest := C } [] m P) :
    ∃ t, RunsThrough L ⟨C, after⟩ h s t ∧ P t.a t.b ∧ t.mem = m ∧ SameFrame s t := by
  obtain ⟨a, b, psw, run, hp⟩ := reach
  obtain ⟨through, status⟩ := run.runsThrough detached place
    (fun l hl => settled_of_count (once l hl)) next rfl
  exact ⟨_, through, hp, rfl, rfl, rfl, status⟩

end

/-! ### Values and assignments -/

/-- From the machine `s`, which stands in front of the lines of the expression in `L`,
with `after` behind them, the lines run through to the machine `t` and compute the
value `x`. -/
structure Expr.Computed (L after : List Line) (e : Expr) (s t : Machine) (x : Byte) : Prop where
  run : RunsThrough L ⟨e.code, after⟩ (s.height + e.stackNeed) s t
  value : e.eval s.mem = some (x, t.mem)
  result : e.kind.Holds t.a x
  frame : SameFrame s t
  others : ChangesOnly e.stepped s.mem t.mem

/-- Wherever the lines of the expression stand in code that defines none of their
labels twice, they compute it, if no divisor is zero. -/
def Expr.Computes (e : Expr) : Prop :=
  ∀ (L after : List Line) (s : Machine), e.code ++ after <:+ L →
    (∀ l ∈ definedLabels e.code, (definedLabels L).count l ≤ 1) → s.rest = e.code ++ after →
    e.DivisorsNonzero s.mem → ∃ t x, e.Computed L after s t x

/-- From the machine `s`, which stands in front of the lines of the assignment in `L`,
with `after` behind them, the lines run through to the machine `t` and assign the value
of `e`. -/
structure Assignment.Carried (L after : List Line) (a : Assignment) (e : Expr) (s t : Machine) :
    Prop where
  run : RunsThrough L ⟨a.code, after⟩ (s.height + e.stackNeed) s t
  memory : a.run s.mem = some t.mem
  value : ∃ x m, e.eval s.mem = some (x, m) ∧ a.Stores x m t.mem
  frame : SameFrame s t
  others : ∀ p i, ¬a.Covers p i → (∀ v ∈ e.stepped, ¬v.Covers p i) →
    (t.mem p).getLsbD i = (s.mem p).getLsbD i

/-- Wherever the lines of the assignment stand in code that defines none of their
labels twice, they assign the value of `e`, if no divisor is zero. -/
def Assignment.Carries (a : Assignment) (e : Expr) : Prop :=
  ∀ (L after : List Line) (s : Machine), a.code ++ after <:+ L →
    (∀ l ∈ definedLabels a.code, (definedLabels L).count l ≤ 1) → s.rest = a.code ++ after →
    a.DivisorsNonzero e s.mem → ∃ t, a.Carried L after e s t

section

variable {live : List Variable} {sc : Scope}

/-- **The code of an expression** computes it wherever it stands. -/
theorem Expr.computes (placed : ∀ v ∈ live, v.Placed) {e : Expr} (wf : e.WellFormed live)
    (labels : (definedLabels e.code).Nodup) : e.Computes := by
  intro L after s place once next nonzero
  obtain ⟨x, m, value⟩ := e.exists_eval nonzero
  have settled (l : Label) (_ : l ∈ e.labels) : Settled e.code l := settled_of_nodup labels l
  have reach := e.runnable placed wf settled (s := { s with rest := e.code }) (k := [])
    (List.append_nil _).symm List.suffix_rfl value (Nat.le_refl _)
  obtain ⟨t, run, result, rfl, frame⟩ := reach.runsThrough (e.detached_code placed wf) place once next
  exact ⟨t, x, run, value, result, frame, e.eval_changesOnly placed wf value⟩

/-- **The code of an assignment** assigns wherever it stands. -/
theorem Assignment.carries (placed : ∀ v ∈ sc.stored, v.Placed) {a : Assignment}
    (wf : a.WellFormed sc) (labels : (definedLabels a.code).Nodup) {e : Expr}
    (value : a.value = .expr e) : a.Carries e := by
  intro L after s place once next nonzero
  obtain ⟨m, ran⟩ := a.exists_run value nonzero
  have settled (l : Label) (_ : l ∈ a.value.labels) : Settled a.code l := settled_of_nodup labels l
  have need : a.value.stackNeed = e.stackNeed := by rw [value]; rfl
  have reach := Assignment.code_reaches placed wf settled (s := { s with rest := a.code }) (k := [])
    (List.append_nil _).symm List.suffix_rfl ran (Nat.le_refl _)
  obtain ⟨t, run, -, rfl, frame⟩ :=
    reach.runsThrough (a.detached_code placed wf value) place once next
  obtain ⟨x, m₁, worked, stores, others⟩ := a.run_stores placed wf value ran
  rw [need] at run
  exact ⟨t, run, ran, ⟨x, m₁, worked, stores⟩, frame, others⟩

end

/-! ### Values of programs -/

/-- The assignment of a command. -/
def Command.assignments : Command → List Assignment
  | declaration _ (some a) | assignment a => [a]
  | _ => []

section

variable {raw : List Text} {supply : Supply} {sigs : Signatures} {st : BodyState}

/-- The expressions of a value share its labels out. -/
theorem Numbered.nodup_exprs {n m : Nat} {v : Value} (numbered : Numbered n v.labels m) :
    ∀ e ∈ v.exprs, (definedLabels e.code).Nodup := by
  intro e he
  rw [e.definedLabels_perm.nodup_iff]
  refine numbered.nodup.1.sublist ?_
  cases v with
  | expr e' => rw [List.mem_singleton.mp he]; exact List.Sublist.refl _
  | call c =>
    obtain ⟨before, behind, split⟩ := List.append_of_mem he
    simp only [Value.labels, show c.arguments = before ++ e :: behind from split,
      List.flatMap_append, List.flatMap_cons]
    exact (List.sublist_append_left _ _).trans (List.sublist_append_right _ _)

/-- Every expression that is read computes. -/
theorem ReadingState.computes (reading : ReadingState raw supply sigs st) (sound : supply.Sound)
    {v : Value} {n m : Nat} (wf : v.WellFormed ⟨sigs.methods, st.live⟩)
    (numbered : Numbered n v.labels m) :
    ∀ e ∈ v.exprs, (definedLabels e.code).Nodup ∧ e.Computes := by
  intro e he
  have labels := numbered.nodup_exprs e he
  exact ⟨labels, e.computes (reading.placed sound) (wf.exprs e he) labels⟩

/-- Every assignment of an expression that is read is carried out. -/
theorem ReadingState.carries (reading : ReadingState raw supply sigs st) (sound : supply.Sound)
    {a : Assignment} {n : Nat} (assigns : Assigns sigs st a n) {e : Expr}
    (value : a.value = .expr e) : (definedLabels a.code).Nodup ∧ a.Carries e := by
  have labels : (definedLabels a.code).Nodup := by
    rw [assigns.wellFormed.definedLabels_perm.nodup_iff]
    exact assigns.value.numbered.nodup.1
  exact ⟨labels, a.carries (reading.placed sound) assigns.wellFormed labels value⟩

/-- The values of a line are read in the state before it, or behind the name that it
declares. -/
theorem LineStep.reads {index : Nat} {line : Text} {st' : BodyState} {c : Command}
    (step : LineStep sigs index line st c st') :
    ∃ st₁, (st₁ = st ∨ ∃ v s, Declares sigs st v s ∧ st₁ = (st.withSupply s).add v) ∧
      (∀ v ∈ c.values, ∃ n, Reads sigs st₁ v n) ∧ ∀ a ∈ c.assignments, ∃ n, Assigns sigs st₁ a n := by
  cases step with
  | @initialized v s a n new initial =>
    exact ⟨_, .inr ⟨v, s, new, rfl⟩, List.forall_mem_singleton.mpr ⟨n, initial.value⟩,
      List.forall_mem_singleton.mpr ⟨n, initial⟩⟩
  | assignment assigned =>
    exact ⟨st, .inl rfl, List.forall_mem_singleton.mpr ⟨_, assigned.value⟩,
      List.forall_mem_singleton.mpr ⟨_, assigned⟩⟩
  | value read | openIf read | openWhile read | openFortil read | giveBackValue _ read
  | sleep read =>
    exact ⟨st, .inl rfl, List.forall_mem_singleton.mpr ⟨_, read⟩, List.forall_mem_nil _⟩
  | _ => exact ⟨st, .inl rfl, List.forall_mem_nil _, List.forall_mem_nil _⟩

/-- The values of a command of a program were read in a state of its reading. -/
theorem Program.exists_reads {p : Program} (hp : Program.read raw supply = .ok p) {c : Command}
    (hc : c ∈ p.commands) :
    ∃ sigs st, ReadingState raw supply sigs st ∧ (∀ v ∈ c.values, ∃ n, Reads sigs st v n) ∧
      ∀ a ∈ c.assignments, ∃ n, Assigns sigs st a n := by
  obtain ⟨sigs, start, steps, h, -⟩ := Program.read_eq_ok hp
  obtain ⟨i, hi⟩ := List.getElem?_of_mem hc
  obtain ⟨st, st', at_⟩ := Transcript.exists_line h hp hi
  obtain ⟨line, step⟩ := at_.lineStep h
  obtain ⟨st₁, rfl | ⟨v, s, new, rfl⟩, values, assignments⟩ := step.reads
  · exact ⟨sigs, _, .between h at_.before, values, assignments⟩
  · exact ⟨sigs, _, .declared h at_.before new, values, assignments⟩

end

/-- **Code of values and assignments is correct.** Every expression that is read,
and every expression of a program, computes: its lines run through wherever they
stand, leave the value in the accumulator and change nothing but accumulator, B, flags
and the variables under `++` and `--`. Every assignment of an expression stores its
value in the target, and changes nothing else. No label of the lines is defined twice in
them, and none in the assembly of the program. -/
theorem value_code_computes {raw : List Text} {supply : Supply} (sound : supply.Sound) :
    (∀ sigs st, ReadingState raw supply sigs st →
      (∀ t signed n v n', resolve ⟨sigs.methods, st.live⟩ t signed n = .ok v n' →
        ∀ e ∈ v.exprs, (definedLabels e.code).Nodup ∧ e.Computes) ∧
      ∀ op t a st', readAssignment sigs op t st = .ok a st' → ∀ e, a.value = .expr e →
        (definedLabels a.code).Nodup ∧ a.Carries e) ∧
    ∀ p, Program.read raw supply = .ok p →
      (∀ c ∈ p.commands,
        (∀ v ∈ c.values, ∀ e ∈ v.exprs, (definedLabels e.code).Nodup ∧ e.Computes) ∧
        ∀ a ∈ c.assignments, ∀ e, a.value = .expr e →
          (definedLabels a.code).Nodup ∧ a.Carries e) ∧
      ∀ o, (definedLabels (p.code o)).Nodup := by
  refine ⟨fun sigs st reading => ⟨fun t signed n v n' read => ?_, fun op t a st' read e value => ?_⟩,
    fun p hp => ⟨fun c hc => ?_, Program.definedLabels_nodup hp⟩⟩
  · obtain ⟨wf, numbered⟩ := resolve_wellFormed read
    exact reading.computes sound wf numbered
  · obtain ⟨n, assigns, -⟩ := readAssignment_step read
    exact reading.carries sound assigns value
  · obtain ⟨sigs, st, reading, values, assignments⟩ := Program.exists_reads hp hc
    refine ⟨fun v hv => ?_, fun a ha e value => ?_⟩
    · obtain ⟨n, read⟩ := values v hv
      exact reading.computes sound read.wellFormed read.numbered
    · obtain ⟨n, assigns⟩ := assignments a ha
      exact reading.carries sound assigns value

/-- A variable that is a divisor and is stepped besides. -/
def steppedDivisor : List Text := ["bool b", "int y", "b := 8 / y != y--"].map String.toList

/-- With 4 in every byte, the right operand steps `y` before it divides: 8 / 3 is not 3,
so the last line leaves the bit of `b` set. -/
theorem value_code_computes_steppedDivisor :
    ∃ p a e t, Program.read steppedDivisor = .ok p ∧ .assignment a ∈ p.commands ∧
      a.value = .expr e ∧ a.DivisorsNonzero e (fun _ => 4) ∧
      a.Carried a.code [] e ⟨a.code, 0, 0, 0, fun _ => 0, [], fun _ => 4, fun _ => (0, 0)⟩ t ∧
      t.mem 0x20 = 5 ∧ t.mem 0x31 = 3 := by
  let b : Variable := ⟨"b", .bool, 0x20, 0, false⟩
  let y : Variable := ⟨"y", .int, 0x31, 0, false⟩
  let e : Expr := .compare .unequal false
    (.binary .divide (.operand (.literal ⟨"8", .int, 8⟩)) (.operand (.stored y)))
    (.step .decrement y) (.jump 1) (.jump 2)
  let a : Assignment := ⟨b, .set, .expr e⟩
  obtain ⟨p, hp, checks⟩ : ∃ p, Program.read steppedDivisor = .ok p ∧
      decide (.assignment a ∈ p.commands) = true := Program.exists_of_any (by decide +kernel)
  have member : .assignment a ∈ p.commands := of_decide_eq_true checks
  have sound : Supply.Sound {} := ⟨by decide, by decide⟩
  have nonzero : a.DivisorsNonzero e (fun _ => 4) := by
    refine ⟨⟨trivial, fun y m stepped => ⟨trivial, fun _ x y' m' value => ?_⟩⟩, fun op update => by
      cases update⟩
    cases stepped
    cases value
    decide
  obtain ⟨-, carries⟩ := (((value_code_computes sound).2 p hp).1 _ member).2 a
    (List.mem_singleton_self a) e rfl
  obtain ⟨t, carried⟩ := carries a.code []
    ⟨a.code, 0, 0, 0, fun _ => 0, [], fun _ => 4, fun _ => (0, 0)⟩ (by simp) (by decide) (by simp)
    nonzero
  have cells : (a.run fun _ => 4).map (fun m => (m 0x20, m 0x31)) = some (5, 3) := by
    decide +kernel
  have memory : (a.run fun _ => 4) = some t.mem := carried.memory
  rw [memory, Option.map_some, Option.some.injEq, Prod.mk.injEq] at cells
  exact ⟨p, a, e, t, hp, member, rfl, nonzero, carried, cells⟩

end Micro51
