/- # Guarded commands

The commands of a program that run through are guarded against interrupts, wherever a
handler could come between them. But a command can call methods, whose commands are
guarded too. So the guard of a command holds if no method that runs meanwhile has a
guarded command; otherwise interrupts are enabled as soon as such a command is done,
although the calling one is not.

Key definitions: `Program.IsGuarded`, `Program.IsBody`, `Program.ReachedBody`.
Key theorems: `LineAt.mild`, `Program.IsGuarded.exists_code`, `guard_holds_iff`.
-/
import Micro51.Proofs.CallStorage
import Micro51.Proofs.GuardedRuns

namespace Micro51

/-! ### Mild code -/

theorem Place.address?_ne_of_named {d : Place} {a : Int} (h : ∀ n ∈ d.named, n.address? ≠ some a) :
    d.address? ≠ some a := by
  cases d with
  | direct b => exact h _ (List.mem_singleton_self _)
  | _ => simp

theorem BitPlace.address?_ne_of_named {d : BitPlace} {a : Int}
    (h : ∀ n ∈ d.named, n.address? ≠ some a) : d.address? ≠ some a := by
  cases d with
  | direct b n => exact h _ (List.mem_singleton_self _)
  | _ => simp

/-- An instruction writes only what it names. -/
theorem Instr.address?_ne_of_named {i : Instr} {a : Int}
    (h : ∀ n ∈ i.named, n.address? ≠ some a) : i.address? ≠ some a := by
  cases i with
  | mov | anl | orl | xrl =>
    exact Place.address?_ne_of_named fun n hn => h n (List.mem_append_left _ hn)
  | movBit => exact BitPlace.address?_ne_of_named fun n hn => h n (List.mem_append_left _ hn)
  | setb | clr | cpl => exact BitPlace.address?_ne_of_named h
  | inc | dec | djnz => exact Place.address?_ne_of_named h
  | pop a => exact h _ (List.mem_singleton_self _)
  | _ => simp [address?]

section

variable {raw : List Text} {p : Program} {o : Options} {sigs : Signatures}
  {start st st' : BodyState} {steps : List (Command × BodyState)} {i : Nat} {c : Command}
  {m : Method}

/-- The code of a command is mild. -/
theorem LineAt.mild (at_ : LineAt start steps i st c st')
    (h : Transcript.of raw {} = .read sigs start steps none) (hp : Program.read raw = .ok p)
    (used : List String) {instr : Instr}
    (hx : .code instr ∈ c.code p (p.methodAt i) (c.nextSymbol p.declaredNames used).1 i) :
    instr.Mild := by
  obtain ⟨line, step⟩ := at_.lineStep h
  rw [at_.methodAt_eq h hp] at hx
  have context (hx : .code instr ∈ c.contextCode p) : instr ≠ .reti := by
    rintro rfl
    cases c <;> simp [Command.contextCode] at hx
  have spare {a : Int} (spare : Target.IsSpare a) : instr.address? ≠ some a := by
    refine Instr.address?_ne_of_named ?_
    rcases step.inScope_code p p.declaredNames used _ hx with context | inScope
    · exact Command.address?_ne_of_context context spare
    · exact inScope.address?_ne (at_.housed h) spare
  refine ⟨spare (by decide), spare (by decide), ?_⟩
  rcases step.inScope_code p p.declaredNames used _ hx with hx | inScope
  · exact context hx
  · exact inScope.1

/-- The lines of a piece are tame. -/
theorem LineAt.tame (at_ : LineAt start steps i st c st')
    (h : Transcript.of raw {} = .read sigs start steps none) (hp : Program.read raw = .ok p)
    {piece : Piece} (hpiece : (p.allPieces o)[i]? = some piece) {x : Line} (hx : x ∈ piece.lines) :
    x.Tame := by
  obtain ⟨source, used, -, whole⟩ := at_.piece h hp
  rw [whole o, Option.some.injEq] at hpiece
  subst hpiece
  rintro instr rfl
  rcases mem_echo_guarded hx with ⟨t, comment⟩ | on | off | hx
  · cases comment
  · exact .inl on
  · exact .inr (.inl off)
  · exact .inr (.inr (at_.mild h hp used hx))

/-- The code of a command has no guard in it. -/
theorem LineAt.guardOff_notMem (at_ : LineAt start steps i st c st')
    (h : Transcript.of raw {} = .read sigs start steps none) (hp : Program.read raw = .ok p)
    (used : List String) :
    guardOff ∉ c.code p (p.methodAt i) (c.nextSymbol p.declaredNames used).1 i :=
  fun hx => (at_.mild h hp used hx).enable rfl

/-! ### Guarded commands -/

/-- The command on line `i` is guarded. -/
structure Program.IsGuarded (p : Program) (o : Options) (i : Nat) (c : Command) : Prop where
  command : p.commands[i]? = some c
  on : (p.guards o (p.methodAt i) && c.isStraight) = true

/-- The stretch is the body of a method, behind its entry and up to its last
return. -/
structure Program.IsBody (p : Program) (o : Options) (m : Method) (r : Stretch) : Prop where
  lines : r.body ⊆ (p.methodPieces o m).flatMap (·.lines)
  place : .label m.label :: r.body ++ r.tail <:+ p.code o
  jumps : SelfContained r.body
  returns : ∃ behind, r.tail = .code .ret :: behind

/-- Every method has a body. -/
theorem Program.exists_isBody (hp : Program.read raw = .ok p) (o : Options) (hm : m ∈ p.methods) :
    ∃ r, p.IsBody o m r := by
  obtain ⟨code, rfl, closed, whole⟩ := Program.exists_methodCode hp o hm
  have together : (p.methodPieces o code.method).flatMap (·.lines) <:+: p.code o := by
    refine List.IsInfix.trans ?_ (p.methods_infix o)
    obtain ⟨before, behind, split⟩ := List.append_of_mem hm
    rw [Program.filter_allPieces hp o, split]
    simp only [List.flatMap_append, List.flatMap_cons]
    exact List.infix_append' _ _ _
  obtain ⟨before, behind, split⟩ := together
  rw [whole, MethodCode.lines] at split
  refine ⟨⟨code.body, .code .ret :: behind⟩, ?_, ⟨before ++ code.before, ?_⟩, closed.body, behind,
    rfl⟩
  · rw [whole]
    exact fun x hx => List.mem_append_left _
      (List.mem_append_right _ (List.mem_cons_of_mem _ hx))
  · rw [← split]
    simp only [List.append_assoc, List.cons_append, List.nil_append]

/-- Every line of a body belongs to a command of the method. -/
theorem Program.IsBody.exists_lineAt {r : Stretch} (body : p.IsBody o m r)
    (h : Transcript.of raw {} = .read sigs start steps none) (hp : Program.read raw = .ok p)
    {x : Line} (hx : x ∈ r.body) :
    ∃ i st c st' piece, LineAt start steps i st c st' ∧ p.commands[i]? = some c ∧
      p.methodAt i = some m ∧ (p.allPieces o)[i]? = some piece ∧ x ∈ piece.lines := by
  obtain ⟨piece, hpiece, hx⟩ := List.mem_flatMap.mp (body.lines hx)
  obtain ⟨i, inside, hpiece⟩ := Program.mem_methodPieces hpiece
  have lt := (List.getElem?_eq_some_iff.mp hpiece).1
  rw [Program.length_allPieces hp o] at lt
  have hc := List.getElem?_eq_getElem lt
  obtain ⟨st, st', at_⟩ := Transcript.exists_line h hp hc
  exact ⟨i, st, _, st', piece, at_, hc, inside, hpiece, hx⟩

/-- What a body calls, the method calls. -/
theorem Program.IsBody.calls {r : Stretch} (body : p.IsBody o m r) (hp : Program.read raw = .ok p)
    {l : Label} (hl : l ∈ callTargets r.body) : ∃ m', p.Calls m m' ∧ m'.label = l := by
  obtain ⟨sigs, start, steps, h, -⟩ := Program.read_eq_ok hp
  obtain ⟨x, hx, call⟩ := List.mem_filterMap.mp hl
  obtain ⟨i, st, c, st', piece, at_, hc, inside, hpiece, hx⟩ := body.exists_lineAt h hp hx
  obtain ⟨source, used, -, whole⟩ := at_.piece h hp
  rw [whole o, Option.some.injEq] at hpiece
  subst hpiece
  have target := List.mem_filterMap.mpr ⟨x, hx, call⟩
  rw [← callTargets, callTargets_echo, c.callTargets_code] at target
  obtain ⟨m', hm', label⟩ := List.mem_map.mp target
  exact ⟨m', ⟨i, c, hc, inside, hm'⟩, label⟩

/-- The bodies of the methods that run while a command is carried out. -/
def Program.ReachedBody (p : Program) (o : Options) (c : Command) (r : Stretch) : Prop :=
  ∃ m, p.Reached c m ∧ p.IsBody o m r

/-- A call of a method that is reached leads into its body. -/
theorem Program.Reached.exists_body (hp : Program.read raw = .ok p) (o : Options)
    (hc : p.commands[i]? = some c) (reached : p.Reached c m) :
    ∃ r, p.ReachedBody o c r ∧ linesBehind m.label (p.code o) = some (r.body ++ r.tail) := by
  obtain ⟨r, body⟩ := Program.exists_isBody hp o (reached.mem_methods hp hc)
  exact ⟨r, ⟨m, reached, body⟩,
    settled_of_nodup (Program.definedLabels_nodup hp o) m.label _ body.place⟩

/-- What is called in the body of a method that is reached is reached too. -/
theorem Program.ReachedBody.closed (hp : Program.read raw = .ok p) (hc : p.commands[i]? = some c)
    {r : Stretch} (body : p.ReachedBody o c r) : r.Closed (p.code o) (p.ReachedBody o c) := by
  obtain ⟨m, ⟨m₀, first, path⟩, body⟩ := body
  refine ⟨(List.suffix_cons _ _).trans body.place, body.jumps, fun l hl => ?_, fun x hx => ?_⟩
  · obtain ⟨m', calls, rfl⟩ := body.calls hp hl
    exact Program.Reached.exists_body hp o hc ⟨m₀, first, path.tail calls⟩
  · obtain ⟨sigs, start, steps, h, -⟩ := Program.read_eq_ok hp
    obtain ⟨j, st, c', st', piece, at_, -, -, hpiece, hx⟩ := body.exists_lineAt h hp hx
    exact at_.tame h hp hpiece hx

/-- **The code of a guarded command** has the guard around it, wherever it stands. -/
theorem Program.IsGuarded.exists_code (guarded : p.IsGuarded o i c)
    (hp : Program.read raw = .ok p) :
    ∃ source body, raw[i]? = some source ∧ (p.allPieces o)[i]? =
        some ⟨(p.methodAt i).isSome, echo o source ++ guardOn :: body ++ [guardOff]⟩ ∧
      ∀ post, guardOn :: body ++ guardOff :: post <:+ p.code o →
        GuardedCode (p.code o) body post (p.ReachedBody o c) := by
  obtain ⟨sigs, start, steps, h, -⟩ := Program.read_eq_ok hp
  obtain ⟨hc, on⟩ := guarded
  obtain ⟨st, st', at_⟩ := Transcript.exists_line h hp hc
  obtain ⟨source, used, text, whole⟩ := at_.piece h hp
  have piece := whole o
  rw [on, Micro51.guarded, if_pos rfl, ← List.append_assoc] at piece
  have straight : c.isStraight = true := (Bool.and_eq_true_iff.mp on).2
  refine ⟨source, _, text, piece, fun post place => ?_⟩
  refine ⟨Program.definedLabels_nodup hp o, ⟨(List.suffix_cons _ _).trans place,
    Command.selfContained_of_isStraight straight p _ _ i, fun l hl => ?_, fun x hx => ?_⟩,
    at_.guardOff_notMem h hp used, fun r body => body.closed hp hc, fun r body => ?_⟩
  · rw [c.callTargets_code] at hl
    obtain ⟨m, hm, rfl⟩ := List.mem_map.mp hl
    exact Program.Reached.exists_body hp o hc ⟨m, hm, .refl⟩
  · rintro instr rfl
    exact .inr (.inr (at_.mild h hp used hx))
  · obtain ⟨m, -, isBody⟩ := body
    exact isBody.returns

/-- No guard ends in a method without guarded commands. -/
theorem Program.IsBody.guardOff_notMem {r : Stretch} (body : p.IsBody o m r)
    (hp : Program.read raw = .ok p)
    (unguarded : ∀ i c, p.methodAt i = some m → ¬p.IsGuarded o i c) : guardOff ∉ r.body := by
  intro hx
  obtain ⟨sigs, start, steps, h, -⟩ := Program.read_eq_ok hp
  obtain ⟨i, st, c, st', piece, at_, hc, inside, hpiece, hx⟩ := body.exists_lineAt h hp hx
  obtain ⟨source, used, -, whole⟩ := at_.piece h hp
  have off : (p.guards o (p.methodAt i) && c.isStraight) = false :=
    Bool.eq_false_iff.mpr fun on => unguarded i c inside ⟨hc, on⟩
  rw [whole o, Option.some.injEq, off] at hpiece
  subst hpiece
  rcases List.mem_append.mp hx with hx | hx
  · obtain ⟨t, comment⟩ := mem_echo hx
    cases comment
  · exact at_.guardOff_notMem h hp used hx

/-- **A guard holds exactly if no other guard ends inside it.** A guarded command
stands between the start and the end of its guard. When the machine has run the start,
it comes to no line outside the command until it comes to the end, but for the methods
that are called. Interrupts stay disabled on the way if and only if no guard ends in
these calls, and so they do if no method that is reached has a guarded command. -/
theorem guard_holds_iff (hp : Program.read raw = .ok p) (o : Options)
    (guarded : p.IsGuarded o i c) :
    p.assemble o = .ok (assemblyText (p.code o)) ∧
      ∃ source body, raw[i]? = some source ∧ (p.allPieces o)[i]? =
          some ⟨(p.methodAt i).isSome, echo o source ++ guardOn :: body ++ [guardOff]⟩ ∧
        (∃ post, guardOn :: body ++ guardOff :: post <:+ p.code o) ∧
        ∀ (post : List Line) (s : Machine), guardOn :: body ++ guardOff :: post <:+ p.code o →
          s.rest = guardOn :: body ++ guardOff :: post →
          ∃ s', s.step (p.code o) = some s' ∧
            (∀ t, GuardOpen (p.code o) post s' 0 t →
              ∃ xs, xs <:+ body ∧ t.rest = xs ++ guardOff :: post) ∧
            (GuardHolds (p.code o) post s' ↔ ∀ n t lines, GuardOpen (p.code o) post s' n t →
              t.rest = guardOff :: lines → n = 0) ∧
            ((∀ m j c', p.Reached c m → p.methodAt j = some m → ¬p.IsGuarded o j c') →
              GuardHolds (p.code o) post s') := by
  obtain ⟨source, body, text, piece, inside⟩ := guarded.exists_code hp
  refine ⟨Program.assemble_of_fresh o hp, source, body, text, piece, ?_,
    fun post s place next => ?_⟩
  · obtain ⟨before, behind, split⟩ := Program.piece_infix (List.mem_of_getElem? piece)
    exact ⟨behind, before ++ echo o source, by simp [← split]⟩
  have g := inside post place
  obtain ⟨s', stored, start, off⟩ :=
    Machine.storeBit_enableAll { s with rest := body ++ guardOff :: post } false
  have step : s.step (p.code o) = some s' := by
    rw [Machine.step, next]
    exact stored
  have exactly := GuardOpen.holds_iff g start off
  refine ⟨s', step, fun t run => run.holds g start, exactly, fun unguarded => ?_⟩
  refine exactly.mpr fun n t lines run next => run.eq_zero_of_end g start ?_ next
  rintro r ⟨m, reached, isBody⟩
  exact isBody.guardOff_notMem hp fun j c' inside => unguarded m j c' reached inside

end

/-- A guarded command that calls a method without guards. -/
def doubled : List Text :=
  ["interrupt timer0 tick", "int n := 3", "n := twice[n]", "method twice[int x]", "return x * 2",
    "endmethod", "method tick[]", "endmethod"].map String.toList

/-- From the first line of the assembly, the machine comes to the guard of the call,
and through the call to the end of the guard, with interrupts disabled all the time. -/
theorem guard_holds_iff_doubled :
    ∃ p c body post s s' t, Program.read doubled = .ok p ∧ p.IsGuarded {} 2 c ∧
      Inside (p.code {}) { busyMachine with rest := p.code {} } 0 s ∧
      s.rest = guardOn :: body ++ guardOff :: post ∧ callTargets body = [.method 1] ∧
      s.step (p.code {}) = some s' ∧ GuardOpen (p.code {}) post s' 0 t ∧
      t.rest = guardOff :: post ∧ t.mem 0x32 = 6 ∧ GuardHolds (p.code {}) post s' := by
  have checked : ((Program.read doubled).toOption.any fun p =>
      let post := (p.code {}).drop 22
      (p.commands[2]?.any fun c => p.guards {} (p.methodAt 2) && c.isStraight) &&
        (p.commands.zipIdx.all fun cj =>
          !(p.guards {} (p.methodAt cj.2) && cj.1.isStraight && (p.methodAt cj.2).isSome)) &&
        ((p.allPieces {})[2]?.any fun piece =>
          callTargets piece.lines == [.method 1] && piece.lines ++ post == (p.code {}).drop 17) &&
        (runSteps (Machine.stepInside (p.code {})) 13
            (0, { busyMachine with rest := p.code {} })).any fun s =>
          s.1 == 0 && s.2.rest == (p.code {}).drop 17 &&
          (s.2.step (p.code {})).any fun s' =>
            (runSteps (Machine.stepGuarded (p.code {}) post) 7 (0, s')).any fun t =>
              t.1 == 0 && t.2.rest == guardOff :: post && t.2.mem 0x32 == 6) = true := by
    decide +kernel
  obtain ⟨p, hp, checked⟩ := Program.exists_of_any checked
  simp only [Bool.and_eq_true] at checked
  obtain ⟨⟨⟨straight, plain⟩, lines⟩, reached⟩ := checked
  obtain ⟨s, reached, checked⟩ := Option.any_eq_true _ _ |>.mp reached
  simp only [Bool.and_eq_true, beq_iff_eq] at checked
  obtain ⟨⟨own, here⟩, window⟩ := checked
  have reached : Inside (p.code {}) { busyMachine with rest := p.code {} } 0 s.2 := by
    rw [show s = (0, s.2) from Prod.ext own rfl] at reached
    exact reaches_of_runSteps 13 reached
  obtain ⟨c, hc, on⟩ := Option.any_eq_true _ _ |>.mp straight
  obtain ⟨-, source, body, -, piece, -, all⟩ := guard_holds_iff hp {} ⟨hc, on⟩
  rw [piece, Option.any_some] at lines
  simp only [Bool.and_eq_true, beq_iff_eq] at lines
  obtain ⟨calls, lines⟩ := lines
  have lines : guardOn :: body ++ guardOff :: (p.code {}).drop 22 = (p.code {}).drop 17 := by
    rw [← lines]
    simp [echo]
  have calls : callTargets body = [.method 1] := by
    rw [← calls]
    simp [echo, guardOn, guardOff, Instr.call?]
  obtain ⟨s', step, -, -, holds⟩ := all _ s.2 (lines ▸ List.drop_suffix _ _)
    (here.trans lines.symm)
  rw [step, Option.any_some] at window
  obtain ⟨t, run, window⟩ := Option.any_eq_true _ _ |>.mp window
  simp only [Bool.and_eq_true, beq_iff_eq] at window
  obtain ⟨⟨none, last⟩, result⟩ := window
  refine ⟨p, c, body, _, _, s', t.2, hp, ⟨hc, on⟩, reached, here.trans lines.symm, calls, step,
    ?_, last, result, holds ?_⟩
  · rw [show t = (0, t.2) from Prod.ext none rfl] at run
    exact reaches_of_runSteps 7 run
  · intro m j c' _ inside other
    have bare := List.all_eq_true.mp plain (c', j)
      (List.mem_zipIdx_iff_getElem?.mpr other.command)
    rw [Bool.not_eq_true', other.on, inside] at bare
    cases bare

/-- A guarded command that calls a method with a guarded command. -/
def bumped : List Text :=
  ["interrupt timer0 tick", "int n", "bump", "method bump[]", "n := n + 1", "endmethod",
    "method tick[]", "endmethod"].map String.toList

/-- From the first line of the assembly, the machine comes to the guard of the call;
before it has come back from the call, interrupts are enabled. -/
theorem guard_fails_bumped :
    ∃ p c body post s s' t, Program.read bumped = .ok p ∧ p.IsGuarded {} 2 c ∧
      (p.allPieces {})[2]? = some ⟨false, guardOn :: body ++ [guardOff]⟩ ∧
      Inside (p.code {}) { busyMachine with rest := p.code {} } 0 s ∧
      guardOn :: body ++ guardOff :: post <:+ p.code {} ∧
      s.rest = guardOn :: body ++ guardOff :: post ∧ s.step (p.code {}) = some s' ∧
      GuardOpen (p.code {}) post s' 1 t ∧ t.bit enableAll = some true := by
  have checked : ((Program.read bumped).toOption.any fun p =>
      let body := [.code (.call (.method 1))]
      let post := (p.code {}).drop 17
      (p.commands[2]?.any fun c => p.guards {} (p.methodAt 2) && c.isStraight) &&
        (p.allPieces {})[2]? == some ⟨false, guardOn :: body ++ [guardOff]⟩ &&
        guardOn :: body ++ guardOff :: post == (p.code {}).drop 14 &&
        (runSteps (Machine.stepInside (p.code {})) 10
            (0, { busyMachine with rest := p.code {} })).any fun s =>
          s.1 == 0 && s.2.rest == (p.code {}).drop 14 &&
          (s.2.step (p.code {})).any fun s' =>
            (runSteps (Machine.stepGuarded (p.code {}) post) 7 (0, s')).any fun t =>
              t.1 == 1 && t.2.bit enableAll == some true) = true := by
    decide +kernel
  obtain ⟨p, hp, checked⟩ := Program.exists_of_any checked
  simp only [Bool.and_eq_true, beq_iff_eq] at checked
  obtain ⟨⟨⟨straight, piece⟩, lines⟩, reached⟩ := checked
  obtain ⟨s, reached, checked⟩ := Option.any_eq_true _ _ |>.mp reached
  simp only [Bool.and_eq_true, beq_iff_eq] at checked
  obtain ⟨⟨own, here⟩, window⟩ := checked
  obtain ⟨c, hc, on⟩ := Option.any_eq_true _ _ |>.mp straight
  obtain ⟨s', step, window⟩ := Option.any_eq_true _ _ |>.mp window
  obtain ⟨t, run, window⟩ := Option.any_eq_true _ _ |>.mp window
  simp only [Bool.and_eq_true, beq_iff_eq] at window
  rw [show s = (0, s.2) from Prod.ext own rfl] at reached
  rw [show t = (1, t.2) from Prod.ext window.1 rfl] at run
  exact ⟨p, c, _, _, s.2, s', t.2, hp, ⟨hc, on⟩, piece, reaches_of_runSteps 10 reached,
    lines ▸ List.drop_suffix _ _, here.trans lines.symm, step, reaches_of_runSteps 7 run, window.2⟩

end Micro51
