/- # Storage across calls

Storage is handed out by the text: what a method declares lies behind the globals
above its body, as if it ran where it stands. But it runs where it is called, while
the variables and the loops of the calling line are in use. So a call keeps the two
apart exactly if no loop is open there that the method could count in the register of,
and if no more variables of a kind are live there than above the method.

Key definitions: `Variable.TakenAt`, `Program.Reached`, `RegistersApart`,
`PlacesApart`, `RoomAbove`.
Key theorems: `Fills.exists_takenAt`, `LineAt.enclosed`, `call_apart_iff`.
-/
import Mathlib.Logic.Relation
import Micro51.Proofs.Operands

namespace Micro51

/-! ### Places in order -/

/-- How much of a kind is in use. -/
def Usage.count (u : Usage) : Kind → Int
  | .byte => u.lastByte
  | .bit => u.bitsUsed

/-- The place of a variable that is taken when `n` of its kind are in use. -/
def Kind.placeAt : Kind → Int → Int × Nat
  | byte, n => (n + 1, 0)
  | bit, n => bitPlaceAt n

/-- The variable was taken when `n` of its kind were in use. -/
def Variable.TakenAt (v : Variable) (n : Int) : Prop := (v.address, v.bit) = v.kind.placeAt n

theorem Kind.placeAt_injective {k : Kind} {m n : Int} (h : k.placeAt m = k.placeAt n) : m = n := by
  cases k with
  | byte =>
    have := (Prod.mk.inj h).1
    omega
  | bit => exact bitPlaceAt_injective h

section

variable {u w : Usage} {vs : List Variable}

theorem Fills.count_eq (h : Fills u vs w) (k : Kind) : w.count k = u.count k + kindCount k vs := by
  rw [h.usage_eq]
  cases k <;> rfl

theorem Fills.count_le (h : Fills u vs w) (k : Kind) : u.count k ≤ w.count k := by
  have := h.count_eq k
  omega

/-- The first variable takes the first place of its kind. -/
theorem Fills.of_cons {v : Variable} (h : Fills u (v :: vs) w) :
    v.TakenAt (u.count v.kind) ∧
      ∃ u', (∀ k, u'.count k = u.count k + if k = v.kind then 1 else 0) ∧ Fills u' vs w := by
  cases h with
  | byte own kind place room rest =>
    refine ⟨?_, _, fun k => ?_, rest⟩
    · rw [Variable.TakenAt, kind, place.1, place.2]
      rfl
    · rw [kind]
      cases k <;> simp [Usage.count]
  | bit own kind place room rest =>
    refine ⟨?_, _, fun k => ?_, rest⟩
    · rw [Variable.TakenAt, kind, place]
      rfl
    · rw [kind]
      cases k <;> simp [Usage.count]

/-- Variables that fill storage are taken in it. -/
theorem Fills.takenAt (h : Fills u vs w) :
    ∀ v ∈ vs, ∃ n, v.TakenAt n ∧ u.count v.kind ≤ n ∧ n < w.count v.kind := by
  induction vs generalizing u with
  | nil => exact List.forall_mem_nil _
  | cons v vs ih =>
    obtain ⟨taken, u', counts, rest⟩ := h.of_cons
    refine List.forall_mem_cons.mpr ⟨⟨_, taken, Int.le_refl _, ?_⟩, fun x hx => ?_⟩
    · have := rest.count_le v.kind
      rw [counts, if_pos rfl] at this
      omega
    · obtain ⟨n, taken, low, high⟩ := ih rest x hx
      rw [counts] at low
      exact ⟨n, taken, by split at low <;> omega, high⟩

/-- Variables that fill storage leave no gap in it. -/
theorem Fills.exists_takenAt (h : Fills u vs w) {k : Kind} {n : Int} (low : u.count k ≤ n)
    (high : n < w.count k) : ∃ v ∈ vs, v.kind = k ∧ v.TakenAt n := by
  induction vs generalizing u with
  | nil =>
    have := h.count_eq k
    simp only [kindCount, List.countP_nil] at this
    omega
  | cons v vs ih =>
    obtain ⟨taken, u', counts, rest⟩ := h.of_cons
    by_cases first : k = v.kind ∧ n = u.count k
    · obtain ⟨rfl, rfl⟩ := first
      exact ⟨v, List.mem_cons_self, rfl, taken⟩
    · have behind : u'.count k ≤ n := by
        rw [counts]
        split
        · next same =>
          have : n ≠ u.count k := fun first' => first ⟨same, first'⟩
          omega
        · omega
      obtain ⟨x, hx, found⟩ := ih rest behind
      exact ⟨x, List.mem_cons_of_mem _ hx, found⟩

end

/-- The variables lie on each other. Two bits do so only in one bit of a byte. -/
def Variable.Overlaps (v w : Variable) : Prop :=
  v.address = w.address ∧ (v.kind = .bit → w.kind = .bit → v.bit = w.bit)

/-- Variables lie on each other if they are of one kind and were taken when as many of
it were in use. -/
theorem Variable.TakenAt.overlaps_iff {v w : Variable} {m n : Int} (hv : v.TakenAt m)
    (hw : w.TakenAt n) (housed : v.Housed ∧ w.Housed) :
    v.Overlaps w ↔ v.kind = w.kind ∧ m = n := by
  have ports : ∀ a ∈ Target.ports.map Prod.snd, 0x80 ≤ a := by decide
  constructor
  · rintro ⟨address, bits⟩
    have kinds : v.kind = w.kind := by
      cases kv : v.kind <;> cases kw : w.kind
      · rfl
      · have bit := housed.1.bit kv
        rcases housed.2.byte kw with byte | port
        · omega
        · have := ports _ port
          omega
      · have bit := housed.2.bit kw
        rcases housed.1.byte kv with byte | port
        · omega
        · have := ports _ port
          omega
      · rfl
    refine ⟨kinds, Kind.placeAt_injective (k := w.kind) ?_⟩
    rw [TakenAt, kinds] at hv
    rw [← hv, ← hw]
    cases kw : w.kind with
    | bit => rw [address, bits (kinds.trans kw) kw]
    | byte =>
      rw [kw] at hv
      rw [TakenAt, kw] at hw
      rw [address, (Prod.mk.inj hv).2, (Prod.mk.inj hw).2]
  · rintro ⟨kinds, rfl⟩
    rw [TakenAt, kinds] at hv
    obtain ⟨address, bit⟩ := Prod.mk.inj (hv.trans hw.symm)
    exact ⟨address, fun _ _ => bit⟩

/-! ### The storage of a method -/

/-- A variable that is declared in the body of a method. -/
def Program.OwnVariable (p : Program) (m : Method) (v : Variable) : Prop :=
  ∃ (i : Nat) (initial : Option Assignment),
    p.commands[i]? = some (.declaration v initial) ∧ p.methodAt i = some m

/-- A register that counts a loop in the body of a method. -/
def Program.OwnRegister (p : Program) (m : Method) (r : Register) : Prop :=
  ∃ (i : Nat) (limit : Value) (again : Label),
    p.commands[i]? = some (.openFortil limit r again) ∧ p.methodAt i = some m

section

variable {sigs : Signatures} {index : Nat} {line : Text} {st st' : BodyState} {c : Command}

theorem BodyState.locals_withBlock (st : BodyState) (b : Block) :
    (st.withBlock b).locals = st.locals ++ b.locals := by
  simp [locals, withBlock, methodLocals]

theorem BodyState.locals_of_top {b : Block} {outer : List Block} (top : st.blocks = b :: outer) :
    st.locals = (st.leaving b outer).locals ++ b.locals := by
  simp [locals, leaving, release, methodLocals, top]

/-- A method is opened where nothing is open. -/
theorem LineStep.nothing_open {m : Method}
    (step : LineStep sigs index line st (.openMethod m) st') :
    st.locals = [] ∧ st.loopRegisters = [] := by
  cases step with
  | openMethod _ _ _ noMethod noBlock =>
    simp [BodyState.locals, BodyState.methodLocals, BodyState.loopRegisters, noMethod, noBlock]

/-- A declared variable takes storage behind what is in use. -/
theorem LineStep.fills_declared (step : LineStep sigs index line st c st') :
    ∃ w, Fills st.supply.usage c.declared w := by
  cases step with
  | declaration new | initialized new _ => exact ⟨_, new.fills⟩
  | _ => exact ⟨_, .nil⟩

/-- Only a declaration adds to the variables of what is open. -/
theorem LineStep.mem_locals (step : LineStep sigs index line st c st') {v : Variable}
    (hv : v ∈ st'.locals) : v ∈ st.locals ∨ v ∈ c.declared := by
  have added {v' : Variable} {s : Supply} (hv : v ∈ ((st.withSupply s).add v').locals) :
      v ∈ st.locals ∨ v ∈ [v'] := by
    rcases (st.withSupply s).add_locals v' with ⟨-, locals⟩ | ⟨-, locals, -⟩
    · rw [locals] at hv
      exact List.mem_append.mp hv
    · rw [locals] at hv
      cases hv
  have opened {st : BodyState} {i : Nat} {f : BlockForm}
      (hv : v ∈ (st.withBlock ⟨i, f, []⟩).locals) :
      v ∈ st.locals := by
    rwa [st.locals_withBlock, List.append_nil] at hv
  have left {b : Block} {outer : List Block} (top : st.blocks = b :: outer)
      (hv : v ∈ (st.leaving b outer).locals) : v ∈ st.locals := by
    rw [BodyState.locals_of_top top]
    exact List.mem_append_left _ hv
  cases step with
  | declaration new | initialized new _ => exact added hv
  | openBlock => exact .inl (opened hv)
  | openIf | openWhile | openFortil => exact .inl (opened hv)
  | openElse top => exact .inl (left top (opened hv))
  | closeElse top | closeFortil top | closeOther top => exact .inl (left top hv)
  | openMethod _ _ _ _ noBlock =>
    simp [BodyState.locals, BodyState.methodLocals, BodyState.entering, noBlock] at hv
  | closeMethod inside noBlock =>
    simp [BodyState.locals, BodyState.methodLocals, BodyState.returning, BodyState.release,
      noBlock] at hv
  | _ => exact .inl hv

/-- Only a loop adds to the registers that count. -/
theorem LineStep.mem_loopRegisters (step : LineStep sigs index line st c st') {r : Register}
    (hr : r ∈ st'.loopRegisters) :
    r ∈ st.loopRegisters ∨ ∃ limit again, c = .openFortil limit r again := by
  have opened {st : BodyState} {b : Block} (hr : r ∈ (st.withBlock b).loopRegisters) :
      r ∈ st.loopRegisters ∨ b.form.register? = some r := by
    rw [LoopsCounted.loopRegisters_withBlock, List.mem_append, Option.mem_toList] at hr
    exact hr
  have left {b : Block} {outer : List Block} (top : st.blocks = b :: outer)
      (hr : r ∈ (st.leaving b outer).loopRegisters) : r ∈ st.loopRegisters := by
    rw [LoopsCounted.loopRegisters_of_top top]
    exact List.mem_append_left _ hr
  cases step with
  | @declaration v s _ | @initialized v s _ _ _ _ =>
    exact .inl ((LoopsCounted.loopRegisters_add (st.withSupply s) v) ▸ hr)
  | openBlock | openIf | openWhile =>
    exact .inl ((opened hr).resolve_right (by simp [BlockForm.register?]))
  | openFortil =>
    rcases opened hr with old | new
    · exact .inl old
    · cases new
      exact .inr ⟨_, _, rfl⟩
  | openElse top =>
    exact .inl (left top ((opened hr).resolve_right (by simp [BlockForm.register?])))
  | closeElse top | closeFortil top | closeOther top => exact .inl (left top hr)
  | _ => exact .inl hr

end

section

variable {raw : List Text} {p : Program} {sigs : Signatures} {start st st' : BodyState}
  {steps : List (Command × BodyState)} {i k n : Nat} {c : Command} {m : Method}

theorem LineRun.globalsFrom_append {index : Nat} {lines : List Text} {cs : List Command}
    (run : LineRun sigs index st lines cs st') (ds : List Command) :
    globalsFrom st.depth (cs ++ ds) = globalsFrom st.depth cs ++ globalsFrom st'.depth ds := by
  induction run with
  | nil => rfl
  | cons step _ ih =>
    rw [List.cons_append, globalsFrom, globalsFrom, ← step.depth, ih, List.append_assoc]

/-- The globals above a line stay the first globals. -/
theorem Transcript.globals_append (h : Transcript.of raw {} = .read sigs start steps none)
    (hst : (start :: steps.map (·.2))[n]? = some st) (le : n ≤ k) :
    globalsFrom 0 ((steps.map (·.1)).take k) = globalsFrom 0 ((steps.map (·.1)).take n) ++
      globalsFrom st.depth (((steps.map (·.1)).drop n).take (k - n)) := by
  obtain ⟨s, -, rfl, read⟩ := Transcript.of_eq_read h
  have run := LineRun.of_readLines read hst
  have split : (steps.map (·.1)).take k =
      (steps.map (·.1)).take n ++ ((steps.map (·.1)).drop n).take (k - n) := by
    rw [← List.take_add, Nat.add_sub_cancel' le]
  rw [split]
  exact run.globalsFrom_append _

theorem LineAt.globals_succ (at_ : LineAt start steps i st c st')
    (h : Transcript.of raw {} = .read sigs start steps none) :
    globalsFrom 0 ((steps.map (·.1)).take (i + 1)) =
      globalsFrom 0 ((steps.map (·.1)).take i) ++ c.global st.depth := by
  have one : ((steps.map (·.1)).drop i).take (i + 1 - i) = [c] := by
    obtain ⟨lt, hc⟩ := List.getElem?_eq_some_iff.mp at_.command
    rw [List.drop_eq_getElem_cons lt, hc, Nat.add_sub_cancel_left]
    rfl
  rw [Transcript.globals_append h at_.before (Nat.le_succ i), one]
  simp [globalsFrom]

/-- In the body of a method, no global is declared since its opening line, and what is
open holds variables and registers of the method. -/
structure Enclosed (p : Program) (start : BodyState) (steps : List (Command × BodyState)) (n : Nat)
    (m : Method) (st : BodyState) : Prop where
  opened : ∃ k opening after, LineAt start steps k opening (.openMethod m) after ∧
    globalsFrom 0 ((steps.map (·.1)).take n) = globalsFrom 0 ((steps.map (·.1)).take k)
  locals : ∀ v ∈ st.locals, p.OwnVariable m v
  registers : ∀ r ∈ st.loopRegisters, p.OwnRegister m r

theorem Transcript.enclosed (h : Transcript.of raw {} = .read sigs start steps none)
    (hp : Program.read raw = .ok p) (hst : (start :: steps.map (·.2))[n]? = some st)
    (inside : st.openMethod? = some m) : Enclosed p start steps n m st := by
  refine Transcript.invariant h
    (P := fun n st => ∀ m, st.openMethod? = some m → Enclosed p start steps n m st) ?_ ?_ n st hst m
    inside
  · obtain ⟨s, -, rfl, -⟩ := Transcript.of_eq_read h
    intro m inside
    cases inside
  · intro i st c st' line at_ step before m inside
    have command : p.commands[i]? = some c := by
      rw [Program.eq_of_transcript h hp]
      exact at_.command
    have here := at_.methodAt_eq h hp
    have globals := at_.globals_succ h
    rcases step.method_cases with ⟨m', rfl, -, one⟩ | ⟨_, -, ⟨none, -⟩, -⟩ | ⟨same, -, stands⟩
    · obtain rfl : m' = m := Option.some.inj (one.symm.trans inside)
      obtain ⟨locals, registers⟩ := step.nothing_open
      refine ⟨⟨i, st, st', at_, globals.trans (List.append_nil _)⟩, fun v hv => ?_, fun r hr => ?_⟩
      · rcases step.mem_locals hv with old | new
        · rw [locals] at old
          cases old
        · cases new
      · rcases step.mem_loopRegisters hr with old | ⟨_, _, new⟩
        · rw [registers] at old
          cases old
        · cases new
    · rw [none] at inside
      cases inside
    · rw [same] at inside
      obtain ⟨⟨k, opening, after, opens, globals'⟩, locals, registers⟩ := before m inside
      rw [stands, inside] at here
      have deep : st.depth ≠ 0 := by
        have isSome : st.method.isSome = true := by
          rw [← Option.isSome_map (f := (·.method))]
          exact Option.isSome_of_mem inside
        simp [BodyState.depth, isSome]
      have none : c.global st.depth = [] := by
        cases c with
        | declaration v initial => exact if_neg deep
        | _ => rfl
      rw [none, List.append_nil] at globals
      refine ⟨⟨k, opening, after, opens, globals.trans globals'⟩, fun v hv => ?_, fun r hr => ?_⟩
      · rcases step.mem_locals hv with old | new
        · exact locals v old
        · cases c with
          | declaration v' initial =>
            rw [List.mem_singleton.mp new]
            exact ⟨i, initial, command, here⟩
          | _ => cases new
      · rcases step.mem_loopRegisters hr with old | ⟨limit, again, rfl⟩
        · exact registers r old
        · exact ⟨i, limit, again, command, here⟩

/-- Every method is opened. -/
theorem Program.exists_opening (hp : Program.read raw = .ok p) (hm : m ∈ p.methods) :
    ∃ k : Nat, p.commands[k]? = some (.openMethod m) := by
  rw [(Program.methods_eq_opened hp).1] at hm
  obtain ⟨c, hc, opened⟩ := List.mem_flatMap.mp hm
  obtain rfl : c = .openMethod m := by
    cases c with
    | openMethod m' => rw [List.mem_singleton.mp opened]
    | _ => cases opened
  exact List.mem_iff_getElem?.mp hc

/-- A method is opened on one line only. -/
theorem Program.opening_unique (hp : Program.read raw = .ok p) {j k : Nat}
    (hj : p.commands[j]? = some (.openMethod m)) (hk : p.commands[k]? = some (.openMethod m)) :
    j = k := by
  obtain ⟨opened, once⟩ := Program.methods_eq_opened hp
  rw [opened] at once
  have apart := List.pairwise_iff_getElem.mp (List.nodup_flatMap.mp once).2
  have notBefore {j k : Nat} (hj : p.commands[j]? = some (.openMethod m))
      (hk : p.commands[k]? = some (.openMethod m)) : ¬ j < k := by
    intro lt
    obtain ⟨ltj, hj⟩ := List.getElem?_eq_some_iff.mp hj
    obtain ⟨ltk, hk⟩ := List.getElem?_eq_some_iff.mp hk
    have disjoint : p.commands[j].opened.Disjoint p.commands[k].opened := apart j k ltj ltk lt
    rw [hj, hk] at disjoint
    exact disjoint List.mem_cons_self List.mem_cons_self
  have := notBefore hj hk
  have := notBefore hk hj
  omega

/-- What a method declares, seen from the state in front of its opening line. -/
structure BodyStorage (p : Program) (m : Method) (opening : BodyState) : Prop where
  behind : ∀ v, p.OwnVariable m v → ∃ n, v.TakenAt n ∧ opening.supply.usage.count v.kind ≤ n
  first : ∀ v, p.OwnVariable m v → ∃ w, p.OwnVariable m w ∧ w.kind = v.kind ∧
    w.TakenAt (opening.supply.usage.count v.kind)
  housed : ∀ v, p.OwnVariable m v → v.Housed ∧ v.address ≤ 0x7F
  register : ∀ r, p.OwnRegister m r → p.OwnRegister m ⟨0⟩

/-- The layers of variables at a line, as storage. -/
theorem Transcript.layers (h : Transcript.of raw {} = .read sigs start steps none)
    (hst : (start :: steps.map (·.2))[n]? = some st) :
    Fills ((Supply.usage {}).plus sigs.parameters)
      (globalsFrom 0 ((steps.map (·.1)).take n) ++ st.locals) st.supply.usage := by
  have fills := (Transcript.tidy h hst).fills
  rw [List.append_assoc] at fills
  obtain ⟨w, parameters, rest⟩ := fills.split
  rw [← parameters.usage_eq]
  exact rest

/-- The first of the open loops counts in the first register. -/
theorem LoopsCounted.first_mem (loops : LoopsCounted st) (some_ : st.loopRegisters ≠ []) :
    (⟨0⟩ : Register) ∈ st.loopRegisters := by
  rw [loops.registers]
  exact List.mem_map.mpr ⟨0, List.mem_range.mpr (List.length_pos_of_ne_nil some_), rfl⟩

section

variable {opening after : BodyState}

/-- From the opening line of a method on, only its own variables are added. -/
theorem LineAt.enclosed (opens : LineAt start steps k opening (.openMethod m) after)
    (h : Transcript.of raw {} = .read sigs start steps none) (hp : Program.read raw = .ok p)
    (hst : (start :: steps.map (·.2))[n]? = some st) (inside : st.openMethod? = some m) :
    Enclosed p start steps n m st ∧ Fills opening.supply.usage st.locals st.supply.usage := by
  have enclosed := Transcript.enclosed h hp hst inside
  refine ⟨enclosed, ?_⟩
  obtain ⟨k', _, _, opens', same⟩ := enclosed.opened
  have unique : k' = k := by
    have commands := Program.eq_of_transcript h hp
    refine Program.opening_unique (m := m) hp ?_ ?_
    · rw [commands]
      exact opens'.command
    · rw [commands]
      exact opens.command
  obtain ⟨line, step⟩ := opens.lineStep h
  have globals := Transcript.layers h opens.before
  rw [step.nothing_open.1, List.append_nil] at globals
  have whole := Transcript.layers h hst
  rw [same, unique] at whole
  obtain ⟨w, first, rest⟩ := whole.split
  rw [first.usage_eq, ← globals.usage_eq] at rest
  exact rest

/-- A variable of a method is taken behind those that are open in it. -/
theorem LineAt.ownVariable (opens : LineAt start steps k opening (.openMethod m) after)
    (h : Transcript.of raw {} = .read sigs start steps none) (hp : Program.read raw = .ok p)
    {v : Variable} (own : p.OwnVariable m v) :
    ∃ (st : BodyState) (w : Usage), Fills st.supply.usage [v] w ∧
      Fills opening.supply.usage st.locals st.supply.usage ∧
      (∀ x ∈ st.locals, p.OwnVariable m x) ∧ v.Housed := by
  obtain ⟨j, initial, hj, here⟩ := own
  obtain ⟨st, st', at_⟩ := Transcript.exists_line h hp hj
  obtain ⟨line, step⟩ := at_.lineStep h
  obtain ⟨enclosed, rest⟩ := opens.enclosed h hp at_.before ((at_.methodAt_eq h hp).symm.trans here)
  obtain ⟨w, new⟩ : ∃ w, Fills st.supply.usage [v] w := by
    cases step with
    | declaration new | initialized new _ => exact ⟨_, new.fills⟩
  refine ⟨st, w, new, rest, enclosed.locals, at_.housed h v ?_⟩
  exact List.mem_append_left _ (List.mem_append_right _ List.mem_cons_self)

/-- **The storage of a method.** Its variables lie behind the globals above it, and the
first of each kind right behind them. Its loops count from the first register on. -/
theorem LineAt.bodyStorage (opens : LineAt start steps k opening (.openMethod m) after)
    (h : Transcript.of raw {} = .read sigs start steps none) (hp : Program.read raw = .ok p) :
    BodyStorage p m opening := by
  refine ⟨fun v own => ?_, fun v own => ?_, fun v own => ?_, fun r own => ?_⟩
  · obtain ⟨st, w, new, rest, -⟩ := opens.ownVariable h hp own
    exact ⟨_, new.of_cons.1, rest.count_le _⟩
  · obtain ⟨st, w, new, rest, locals, -⟩ := opens.ownVariable h hp own
    by_cases older : opening.supply.usage.count v.kind < st.supply.usage.count v.kind
    · obtain ⟨x, hx, kind, taken⟩ := rest.exists_takenAt (Int.le_refl _) older
      exact ⟨x, locals x hx, kind, taken⟩
    · have same : opening.supply.usage.count v.kind = st.supply.usage.count v.kind := by
        have := rest.count_le v.kind
        omega
      rw [same]
      exact ⟨v, own, rfl, new.of_cons.1⟩
  · obtain ⟨st, w, new, -, -, housed⟩ := opens.ownVariable h hp own
    refine ⟨housed, ?_⟩
    cases new with
    | byte own kind place room rest =>
      have room : st.supply.usage.lastByte + 1 < 0x80 := room
      omega
    | bit own kind place room rest =>
      have := (housed.bit kind).2.1
      omega
  · obtain ⟨j, limit, again, hj, here⟩ := own
    obtain ⟨st, st', at_⟩ := Transcript.exists_line h hp hj
    obtain ⟨line, step⟩ := at_.lineStep h
    obtain ⟨enclosed, -⟩ := opens.enclosed h hp at_.before ((at_.methodAt_eq h hp).symm.trans here)
    have loops := Transcript.loopsCounted h at_.before
    by_cases some_ : st.loopRegisters = []
    · have first : r = ⟨0⟩ := by
        have last := loops.last
        rw [some_] at last
        cases step with
        | openFortil read kind taken =>
          obtain ⟨⟨index, -⟩, -⟩ := Supply.takeRegister_eq_ok taken
          have index : r.index = st.supply.lastRegister + 1 := index
          rw [last] at index
          exact congrArg Register.mk index
      exact first ▸ ⟨j, limit, again, hj, here⟩
    · exact enclosed.registers _ (loops.first_mem some_)

end

/-! ### The storage of a calling line -/

/-- The number of variables of a kind that are live, without ports and parameters, is
what is in use behind the parameters. -/
theorem Transcript.count_eq (h : Transcript.of raw {} = .read sigs start steps none)
    (hst : (start :: steps.map (·.2))[n]? = some st) (k : Kind) :
    st.supply.usage.count k =
      ((Supply.usage {}).plus sigs.parameters).count k + kindCount k st.declared := by
  rw [(Transcript.layers h hst).count_eq, (Transcript.tidy h hst).declared_eq, kindCount, kindCount,
    List.countP_reverse]

/-- The variables that are live while a command is carried out, without ports and
parameters. -/
theorem LineAt.held (at_ : LineAt start steps i st c st')
    (h : Transcript.of raw {} = .read sigs start steps none) :
    ∃ w, Fills ((Supply.usage {}).plus sigs.parameters)
        (globalsFrom 0 ((steps.map (·.1)).take i) ++ st.locals ++ c.declared) w ∧
      ∀ k, w.count k = ((Supply.usage {}).plus sigs.parameters).count k +
        kindCount k (st.declared ++ c.declared) := by
  obtain ⟨line, step⟩ := at_.lineStep h
  obtain ⟨w, new⟩ := step.fills_declared
  refine ⟨w, (Transcript.layers h at_.before).append new, fun k => ?_⟩
  rw [new.count_eq, Transcript.count_eq h at_.before, kindCount, kindCount, kindCount,
    List.countP_append, Int.natCast_add, Int.add_assoc]

/-- No parameter is among the variables behind the parameters. -/
theorem Transcript.notMem_parameters (h : Transcript.of raw {} = .read sigs start steps none)
    {vs : List Variable} {w : Usage} (fills : Fills ((Supply.usage {}).plus sigs.parameters) vs w)
    {v : Variable} (hv : v ∈ vs) : v ∉ sigs.parameters := by
  intro parameter
  obtain ⟨n, taken, low, -⟩ := fills.takenAt v hv
  have first : (start :: steps.map (·.2))[0]? = some start := rfl
  have all := (Transcript.tidy h first).fills
  rw [List.append_assoc] at all
  obtain ⟨w', parameters, -⟩ := all.split
  obtain ⟨n', taken', -, high⟩ := parameters.takenAt v parameter
  rw [parameters.usage_eq] at high
  have := Kind.placeAt_injective (taken.symm.trans taken')
  omega

/-! ### Calls -/

/-- A command in the body of a method calls another method. -/
def Program.Calls (p : Program) (m m' : Method) : Prop :=
  ∃ (i : Nat) (c : Command), p.commands[i]? = some c ∧ p.methodAt i = some m ∧ m' ∈ c.called

/-- A method that runs while a command is carried out. -/
def Program.Reached (p : Program) (c : Command) (m : Method) : Prop :=
  ∃ m₀ ∈ c.called, Relation.ReflTransGen p.Calls m₀ m

/-- The method counts in no register of a loop that is open in the state `st`. -/
def RegistersApart (p : Program) (st : BodyState) (m : Method) : Prop :=
  ∀ r, p.OwnRegister m r → r ∉ st.loopRegisters

/-- No variable of the method lies on one that is in use while the command `c` is carried
out in the state `st`, parameters aside. -/
def PlacesApart (p : Program) (st : BodyState) (c : Command) (m : Method) : Prop :=
  ∀ v, p.OwnVariable m v → ∀ w ∈ st.live ++ c.declared,
    w ∉ p.methods.flatMap (·.parameters) → ¬ v.Overlaps w

/-- Of no kind that the method declares are more variables in use while the command `c` is
carried out in the state `st` than in the state `opening` above the method. -/
def RoomAbove (p : Program) (st : BodyState) (c : Command) (m : Method) (opening : BodyState) :
    Prop :=
  ∀ v, p.OwnVariable m v →
    kindCount v.kind (st.declared ++ c.declared) ≤ kindCount v.kind opening.declared

theorem Program.Reached.mem_methods (hp : Program.read raw = .ok p) (hc : p.commands[i]? = some c)
    (reached : p.Reached c m) : m ∈ p.methods := by
  obtain ⟨sigs, start, steps, h, same⟩ := Program.read_eq_ok hp
  have known {i : Nat} {c : Command} {m : Method} (hc : p.commands[i]? = some c)
      (hm : m ∈ c.called) : m ∈ p.methods := by
    obtain ⟨st, st', at_⟩ := Transcript.exists_line h hp hc
    obtain ⟨line, step⟩ := at_.lineStep h
    rw [same]
    exact step.called_subset hm
  obtain ⟨m₀, hm₀, path⟩ := reached
  induction path with
  | refl => exact known hc hm₀
  | tail _ call _ =>
    obtain ⟨j, c', hj, -, hm⟩ := call
    exact known hj hm

/-- The loops of a method count from the first register on, like all others. -/
theorem LineAt.registersApart_iff {opening after : BodyState}
    (at_ : LineAt start steps i st c st')
    (opens : LineAt start steps k opening (.openMethod m) after)
    (h : Transcript.of raw {} = .read sigs start steps none) (hp : Program.read raw = .ok p) :
    RegistersApart p st m ↔ ((∃ r, p.OwnRegister m r) → st.loopRegisters = []) := by
  constructor
  · rintro apart ⟨r, own⟩
    by_contra some_
    exact apart _ ((opens.bodyStorage h hp).register r own)
      ((Transcript.loopsCounted h at_.before).first_mem some_)
  · intro none r own hr
    rw [none ⟨r, own⟩] at hr
    cases hr

/-- The variables of a method lie behind those in use above it, without a gap. -/
theorem LineAt.placesApart_iff {opening after : BodyState} (at_ : LineAt start steps i st c st')
    (opens : LineAt start steps k opening (.openMethod m) after)
    (h : Transcript.of raw {} = .read sigs start steps none) (hp : Program.read raw = .ok p) :
    PlacesApart p st c m ↔ RoomAbove p st c m opening := by
  have storage := opens.bodyStorage h hp
  obtain ⟨w, held, count⟩ := at_.held h
  have above := Transcript.count_eq h opens.before
  have methods : p.methods = sigs.methods := by rw [Program.eq_of_transcript h hp]
  have live := (Transcript.tidy h at_.before).live
  have housed := at_.housed h
  constructor
  · intro apart v own
    by_contra more
    obtain ⟨x, ownx, kind, taken⟩ := storage.first v own
    have low := above v.kind
    have high := count v.kind
    obtain ⟨y, hy, kind', taken'⟩ := held.exists_takenAt (k := v.kind)
      (n := opening.supply.usage.count v.kind) (by omega) (by omega)
    have mem : y ∈ st.live ++ c.declared := by
      rw [live]
      simp only [List.mem_append, List.mem_reverse] at hy ⊢
      tauto
    refine apart x ownx y mem ?_ ?_
    · rw [methods]
      exact Transcript.notMem_parameters h held hy
    · exact (taken.overlaps_iff taken' ⟨(storage.housed x ownx).1,
        housed y (List.mem_append_left _ mem)⟩).mpr ⟨kind.trans kind'.symm, rfl⟩
  · intro room v own x hx other overlaps
    obtain ⟨_, secure⟩ := Transcript.secure h at_.before
    have below := (storage.housed v own).2
    have hx' : x ∈ globalsFrom 0 ((steps.map (·.1)).take i) ++ st.locals ++ c.declared := by
      have cases_ := hx
      rw [live] at cases_
      simp only [List.mem_append, List.mem_reverse] at cases_ ⊢
      rcases cases_ with (((global | bound) | local_) | port) | new
      · exact .inl (.inl global)
      · exact absurd (secure.bound bound) (by rwa [methods] at other)
      · exact .inl (.inr local_)
      · have ports : ∀ x ∈ Variable.predefinedList, 0x80 ≤ x.address := by decide
        have := ports x port
        have := overlaps.1
        omega
      · exact .inr new
    obtain ⟨n, taken, -, high⟩ := held.takenAt x hx'
    obtain ⟨n', taken', low⟩ := storage.behind v own
    obtain ⟨kinds, rfl⟩ := (taken'.overlaps_iff taken ⟨(storage.housed v own).1,
      housed x (List.mem_append_left _ hx)⟩).mp overlaps
    have room := room v own
    have := above v.kind
    have := count v.kind
    rw [← kinds] at high
    omega

/-- Where nothing is open, no more is in use than above a method further down. -/
theorem LineAt.roomAbove {opening after : BodyState} (at_ : LineAt start steps i st c st')
    (opens : LineAt start steps k opening (.openMethod m) after)
    (h : Transcript.of raw {} = .read sigs start steps none) (above : i < k)
    (depth : st.depth = 0) : st.loopRegisters = [] ∧ RoomAbove p st c m opening := by
  have noBlock : st.blocks = [] := by
    rw [BodyState.depth] at depth
    exact List.eq_nil_of_length_eq_zero (by omega)
  have noMethod : st.method = none := by
    cases method : st.method with
    | none => rfl
    | some m => simp [BodyState.depth, method] at depth
  refine ⟨by rw [BodyState.loopRegisters, noBlock]; rfl, fun v _ => ?_⟩
  have locals : st.locals = [] := by
    simp [BodyState.locals, BodyState.methodLocals, noBlock, noMethod]
  have new : c.declared = c.global st.depth := by
    rw [depth]
    cases c <;> rfl
  obtain ⟨line, step⟩ := opens.lineStep h
  have earlier := Transcript.globals_append h at_.behind above
  rw [at_.globals_succ h] at earlier
  rw [(Transcript.tidy h at_.before).declared_eq, (Transcript.tidy h opens.before).declared_eq,
    locals, step.nothing_open.1, earlier, new]
  simp only [kindCount, List.countP_append, List.countP_reverse, List.append_nil]
  omega

end

/-- **What a call overwrites.** Let a command reach a method, by a call of its own or
through other methods. The method counts in no register of a loop that is open at the
command if and only if no loop is open there, or the method has none. It declares no
variable on one that is live there and not a parameter if and only if of no kind that it
declares are more variables in use there than above the method. So a call with nothing
open, above all methods that it reaches, overwrites nothing. -/
theorem call_apart_iff {raw : List Text} {p : Program} (hp : Program.read raw = .ok p) :
    ∃ sigs start steps, Transcript.of raw {} = .read sigs start steps none ∧
      p.commands = steps.map (·.1) ∧
      ∀ i st c st' m, LineAt start steps i st c st' → p.Reached c m →
        ∃ k opening after, LineAt start steps k opening (.openMethod m) after ∧
          (RegistersApart p st m ↔ ((∃ r, p.OwnRegister m r) → st.loopRegisters = [])) ∧
          (PlacesApart p st c m ↔ RoomAbove p st c m opening) ∧
          (i < k → st.depth = 0 → RegistersApart p st m ∧ PlacesApart p st c m) := by
  obtain ⟨sigs, start, steps, h, same⟩ := Program.read_eq_ok hp
  have commands : p.commands = steps.map (·.1) := by rw [same]
  refine ⟨sigs, start, steps, h, commands, fun i st c st' m at_ reached => ?_⟩
  have hm := reached.mem_methods hp (commands ▸ at_.command)
  obtain ⟨k, hk⟩ := Program.exists_opening hp hm
  obtain ⟨opening, after, opens⟩ := Transcript.exists_line h hp hk
  have registers := at_.registersApart_iff opens h hp
  have places := at_.placesApart_iff opens h hp
  refine ⟨k, opening, after, opens, registers, places, fun above depth => ?_⟩
  obtain ⟨none, room⟩ := at_.roomAbove (p := p) opens h above depth
  exact ⟨registers.mpr fun _ => none, places.mpr room⟩

/-- The state in front of a line. -/
def Transcript.stateBefore? (t : Transcript) (i : Nat) : Option BodyState :=
  match t with
  | read _ start steps _ => (start :: steps.map (·.2))[i]?
  | refused _ => none

/-- A call that reaches a method with a variable and a loop through another one. -/
def relayed : List Text :=
  ["int level := 1", "relay", "method relay[]", "note", "endmethod", "method note[]",
    "int seen := 2", "fortil 3", "endfortil", "endmethod"].map String.toList

theorem call_apart_iff_relayed :
    ∃ p sigs start steps, Program.read relayed = .ok p ∧
      Transcript.of relayed {} = .read sigs start steps none ∧
      ∃ (st : BodyState) (c : Command) (st' : BodyState) (m : Method),
        LineAt start steps 1 st c st' ∧ p.Reached c m ∧ m ∉ c.called ∧ p.OwnRegister m ⟨0⟩ ∧
        RegistersApart p st m ∧ PlacesApart p st c m := by
  have checked : ((Program.read relayed).toOption.any fun p =>
      ([1, 3, 5, 7].map fun i => (p.commands[i]?, p.methodAt i)) ==
        [(some (.value (.call ⟨⟨"relay", [], .method 1, 2⟩, []⟩)), none),
        (some (.value (.call ⟨⟨"note", [], .method 2, 5⟩, []⟩)), some ⟨"relay", [], .method 1, 2⟩),
        (some (.openMethod ⟨"note", [], .method 2, 5⟩), some ⟨"note", [], .method 2, 5⟩),
        (some (.openFortil (.expr (.operand (.literal ⟨"3", .int, 3⟩))) ⟨0⟩ (.jump 1)),
          some ⟨"note", [], .method 2, 5⟩)] &&
      ((Transcript.of relayed {}).stateBefore? 1).map BodyState.depth == some 0) = true := by
    decide +kernel
  obtain ⟨p, hp, checked⟩ := Program.exists_of_any checked
  obtain ⟨sigs, start, steps, h, commands, all⟩ := call_apart_iff hp
  simp only [Bool.and_eq_true, beq_iff_eq, List.map_cons, List.map_nil, List.cons.injEq,
    Prod.mk.injEq, and_true] at checked
  obtain ⟨⟨⟨call, -⟩, ⟨call', inside⟩, ⟨opening, -⟩, loop, inside'⟩, state⟩ := checked
  obtain ⟨st, st', at_⟩ := Transcript.exists_line h hp call
  rw [h] at state
  obtain ⟨st₀, before, depth⟩ := Option.map_eq_some_iff.mp state
  obtain rfl : st₀ = st := Option.some.inj (before.symm.trans at_.before)
  have reached : p.Reached (.value (.call ⟨⟨"relay", [], .method 1, 2⟩, []⟩))
      ⟨"note", [], .method 2, 5⟩ :=
    ⟨_, List.mem_cons_self, .single ⟨3, _, call', inside, List.mem_cons_self⟩⟩
  obtain ⟨k, _, _, opens, -, -, safe⟩ := all 1 st₀ _ st' _ at_ reached
  have below : k = 5 := Program.opening_unique hp (commands ▸ opens.command) opening
  exact ⟨p, sigs, start, steps, hp, h, st₀, _, st', _, at_, reached, by decide,
    ⟨7, _, _, loop, inside'⟩, safe (by omega) depth⟩

/-- A method with a variable and a loop, called in a loop while a variable is live. -/
def loopInLoop : List Text :=
  ["method work[]", "int t := 9", "fortil 2", "endfortil", "endmethod", "int x := 1", "fortil 3",
    "work", "endfortil"].map String.toList

/-- Both loops of it count in the first register, and both variables lie in the first
byte. -/
theorem call_overwrites_loopInLoop :
    ∃ p sigs start steps, Program.read loopInLoop = .ok p ∧
      Transcript.of loopInLoop {} = .read sigs start steps none ∧
      ∃ (i : Nat) (st : BodyState) (c : Command) (st' : BodyState) (m : Method),
        LineAt start steps i st c st' ∧ p.Reached c m ∧ p.methodAt i ≠ some m ∧
        (∃ r, p.OwnRegister m r ∧ r ∈ st.loopRegisters) ∧
        ∃ v w, p.OwnVariable m v ∧ w ∈ st.live ∧ w ∉ p.methods.flatMap (·.parameters) ∧
          v.Overlaps w := by
  have checked : ((Program.read loopInLoop).toOption.any fun p =>
      ([1, 2, 7].map fun i => (p.commands[i]?, p.methodAt i)) ==
        [(some (.declaration ⟨"t", .int, 0x31, 0, false⟩ (some ⟨⟨"t", .int, 0x31, 0, false⟩,
          .set, .expr (.operand (.literal ⟨"9", .int, 9⟩))⟩)), some ⟨"work", [], .method 1, 0⟩),
        (some (.openFortil (.expr (.operand (.literal ⟨"2", .int, 2⟩))) ⟨0⟩ (.jump 1)),
          some ⟨"work", [], .method 1, 0⟩),
        (some (.value (.call ⟨⟨"work", [], .method 1, 0⟩, []⟩)), none)] &&
      p.methods.flatMap (·.parameters) == [] &&
      ((Transcript.of loopInLoop {}).stateBefore? 7).map
        (fun st => (st.loopRegisters, st.declared)) ==
        some ([⟨0⟩], [⟨"x", .int, 0x31, 0, false⟩])) = true := by
    decide +kernel
  obtain ⟨p, hp, checked⟩ := Program.exists_of_any checked
  obtain ⟨sigs, start, steps, h, -⟩ := Program.read_eq_ok hp
  simp only [Bool.and_eq_true, beq_iff_eq, List.map_cons, List.map_nil, List.cons.injEq,
    Prod.mk.injEq, and_true] at checked
  obtain ⟨⟨⟨⟨declared, inside⟩, ⟨loop, inside'⟩, call, outside⟩, parameters⟩, state⟩ := checked
  obtain ⟨st, st', at_⟩ := Transcript.exists_line h hp call
  rw [h] at state
  obtain ⟨st₀, before, found⟩ := Option.map_eq_some_iff.mp state
  obtain rfl : st₀ = st := Option.some.inj (before.symm.trans at_.before)
  obtain ⟨registers, live⟩ := Prod.mk.inj found
  have hx : ⟨"x", .int, 0x31, 0, false⟩ ∈ st₀.declared := by
    rw [live]
    exact List.mem_cons_self
  refine ⟨p, sigs, start, steps, hp, h, 7, st₀, _, st', ⟨"work", [], .method 1, 0⟩, at_,
    ⟨_, List.mem_cons_self, .refl⟩, by simp [outside], ⟨⟨0⟩, ⟨2, _, _, loop, inside'⟩, ?_⟩,
    _, _, ⟨1, _, declared, inside⟩, List.mem_of_mem_filter hx, ?_, rfl, by simp⟩
  · rw [registers]
    exact List.mem_cons_self
  · rw [parameters]
    exact List.not_mem_nil

end Micro51
