/- # No label is defined twice

The labels that the code of a command defines are the labels that were taken
while its line was read, with one exception: the label behind an `if` with an
`else` is taken at the `else` and defined at the closing line. So a run of lines
defines, and owes, exactly the labels taken on the way.

Key definitions: `Command.jumpLabels`, `Command.entryLabels`,
`BodyState.owedLabels`.
Key theorems: `LineRun.jumpLabels_perm`, `Program.definedLabels_nodup`.
-/
import Micro51.Code
import Micro51.Proofs.Machine
import Micro51.Proofs.Storage
import Mathlib.Data.List.Nodup

namespace Micro51

/-- The jump targets that the code of a command defines. -/
def Command.jumpLabels : Command → List Label
  | declaration _ (some a) | assignment a => a.value.labels
  | value v | openIf v | giveBack _ (some v) => v.labels
  | openElse _ _ otherwise => [otherwise]
  | openWhile c top => c.labels ++ [top]
  | openFortil limit _ top => limit.labels ++ [top]
  | closeBlock _ exit => [exit]
  | sleep v outer inner done => v.labels ++ [outer, inner, done]
  | _ => []

/-- The entry that the code of a command defines. -/
def Command.entryLabels : Command → List Label
  | openMethod m => [m.label]
  | _ => []

/-! ### The labels in the code of values -/

theorem definedLabels_moveBit (o : Operand) (dst : BitPlace) :
    definedLabels (moveBit o dst) = [] := by
  cases o <;> rfl

theorem Operand.definedLabels_loadAcc (o : Operand) : definedLabels o.loadAcc = [] := by
  unfold loadAcc
  split
  · exact definedLabels_moveBit ..
  · rfl

theorem Operand.definedLabels_loadB (o : Operand) : definedLabels o.loadB = [] := by
  unfold loadB
  split
  · exact definedLabels_moveBit ..
  · rfl

theorem Operand.definedLabels_copyTo (o : Operand) (v : Variable) :
    definedLabels (o.copyTo v) = [] := by
  unfold copyTo
  split
  · exact definedLabels_moveBit ..
  · rfl

theorem Variable.definedLabels_store (v : Variable) : definedLabels v.store = [] := by
  unfold store
  split <;> rfl

theorem BinaryOp.definedLabels_code (op : BinaryOp) : definedLabels op.code = [] := by
  cases op <;> rfl

theorem Relation.definedLabels_code (r : Relation) (signed : Bool) (first second : Label) :
    definedLabels (r.code signed first second) = [first, second] := by
  cases signed <;> cases r <;> rfl

namespace Expr

theorem definedLabels_loadBoth (l r : Expr) :
    (definedLabels (loadBoth l r l.code r.code)).Perm
      (definedLabels l.code ++ definedLabels r.code) := by
  unfold loadBoth
  split
  · next o =>
    rw [definedLabels_append, Operand.definedLabels_loadB]
    exact List.Perm.append_left _ (by rw [code, Operand.definedLabels_loadAcc])
  · next o _ =>
    rw [definedLabels_append, definedLabels_code, Operand.definedLabels_loadAcc, code,
      Operand.definedLabels_loadAcc, List.append_nil, List.nil_append]
  · rw [definedLabels_append, definedLabels_append, definedLabels_code, definedLabels_code]
    simpa using List.perm_append_comm

/-- The code of an expression defines the labels of the expression. -/
theorem definedLabels_perm (e : Expr) : (definedLabels e.code).Perm e.labels := by
  induction e with
  | operand o =>
    rw [code, Operand.definedLabels_loadAcc]
    exact .refl _
  | not e ih =>
    rw [code, definedLabels_append]
    simpa [labels] using ih
  | step s v => exact .refl _
  | bitOf e n isSet done ih =>
    rw [code, definedLabels_append]
    exact ih.append_right _
  | binary op l r ihl ihr =>
    rw [code, definedLabels_append, BinaryOp.definedLabels_code, List.append_nil]
    exact (definedLabels_loadBoth l r).trans (ihl.append ihr)
  | shift s l r again test ihl ihr =>
    rw [code, definedLabels_append]
    exact ((definedLabels_loadBoth l r).trans (ihl.append ihr)).append_right [again, test]
  | compare c signed l r first second ihl ihr =>
    rw [code, definedLabels_append, Relation.definedLabels_code]
    exact ((definedLabels_loadBoth l r).trans (ihl.append ihr)).append_right _

end Expr

theorem definedLabels_passArgument (p : Variable) (e : Expr) :
    (definedLabels (passArgument p e)).Perm e.labels := by
  unfold passArgument
  split
  · next o =>
    rw [Operand.definedLabels_copyTo]
    exact .refl _
  · rw [definedLabels_append, Variable.definedLabels_store, List.append_nil]
    exact e.definedLabels_perm

/-- The code of a value defines the labels of the value. -/
theorem Value.WellFormed.definedLabels_perm {sc : Scope} {v : Value} (wf : v.WellFormed sc) :
    (definedLabels v.code).Perm v.labels := by
  cases v with
  | expr e => exact e.definedLabels_perm
  | call c =>
    have args : ∀ (ps : List Variable) (es : List Expr), es.length = ps.length →
        (definedLabels ((ps.zip es).flatMap fun pa => passArgument pa.1 pa.2)).Perm
          (es.flatMap Expr.labels) := by
      intro ps es
      induction es generalizing ps with
      | nil => simp
      | cons e es ih =>
        intro hlen
        obtain ⟨p, ps, rfl⟩ : ∃ p ps', ps = p :: ps' := List.exists_cons_of_length_eq_add_one hlen.symm
        rw [List.zip_cons_cons, List.flatMap_cons, definedLabels_append, List.flatMap_cons]
        exact (definedLabels_passArgument p e).append (ih ps (Nat.succ.inj hlen))
    rw [code, Call.code, definedLabels_append]
    simpa [labels] using args _ _ wf.count

/-- The code of an assignment defines the labels of its value. -/
theorem Assignment.WellFormed.definedLabels_perm {sc : Scope} {a : Assignment} (wf : a.WellFormed sc) :
    (definedLabels a.code).Perm a.value.labels := by
  have value := wf.value.definedLabels_perm
  unfold code
  split
  · rw [definedLabels_append]
    simpa using value
  · next op _ =>
    simp only [definedLabels_append, definedLabels_code, Operand.definedLabels_loadAcc,
      BinaryOp.definedLabels_code, Variable.definedLabels_store, List.append_nil]
    exact value
  · split
    · next o ho =>
      rw [Operand.definedLabels_copyTo, ho]
      exact .refl _
    · rw [definedLabels_append, Variable.definedLabels_store, List.append_nil]
      exact value

/-! ### The labels in the code of commands -/

theorem definedLabels_map_code (is : List Instr) : definedLabels (is.map .code) = [] := by
  induction is with
  | nil => rfl
  | cons i is ih => exact ih

theorem definedLabels_saveContext (rs : List Register) : definedLabels (saveContext rs) = [] := by
  have : saveContext rs = ((savedBytes rs).map Instr.push).map .code := by
    rw [saveContext, List.map_map]
    rfl
  rw [this, definedLabels_map_code]

theorem definedLabels_restoreContext (rs : List Register) :
    definedLabels (restoreContext rs) = [] := by
  have : restoreContext rs = ((savedBytes rs).reverse.map Instr.pop).map .code := by
    rw [restoreContext, List.map_map]
    rfl
  rw [this, definedLabels_map_code]

theorem Program.definedLabels_returnCode (p : Program) (method : Option Method) :
    definedLabels (p.returnCode method) = [] := by
  unfold returnCode
  rw [definedLabels_append]
  split
  · split
    · rw [definedLabels_restoreContext]
      rfl
    · rfl
  · rfl

theorem definedLabels_directive (v : Variable) (symbol : String) (lines : List Line) :
    definedLabels (v.directive symbol :: lines) = definedLabels lines := by
  unfold Variable.directive
  split <;> rfl

/-- The code of a command that was read defines the labels of the command. -/
theorem LineStep.definedLabels_perm {sigs : Signatures} {index : Nat} {line : Text}
    {st st' : BodyState} {c : Command} (step : LineStep sigs index line st c st') (p : Program)
    (method : Option Method) (symbol : String) (i : Nat) :
    (definedLabels (c.code p method symbol i)).Perm (c.jumpLabels ++ c.entryLabels) := by
  cases step with
  | empty | interrupt | openBlock | openElse | leave => exact .refl _
  | declaration _ =>
    rw [Command.code, definedLabels_directive]
    exact .refl _
  | initialized _ initial =>
    rw [Command.code, definedLabels_directive]
    simpa [Command.jumpLabels, Command.entryLabels] using initial.wellFormed.definedLabels_perm
  | assignment assigned =>
    simpa [Command.code, Command.jumpLabels, Command.entryLabels] using
      assigned.wellFormed.definedLabels_perm
  | value read =>
    simpa [Command.code, Command.jumpLabels, Command.entryLabels] using
      read.wellFormed.definedLabels_perm
  | openIf read _ =>
    simpa [Command.code, Command.jumpLabels, Command.entryLabels] using
      read.wellFormed.definedLabels_perm
  | openWhile read _ =>
    have perm := read.wellFormed.definedLabels_perm
    simpa [Command.code, Command.jumpLabels, Command.entryLabels] using
      (perm.cons _).trans (List.perm_append_singleton _ _).symm
  | openFortil read _ _ =>
    simpa [Command.code, Command.jumpLabels, Command.entryLabels] using
      read.wellFormed.definedLabels_perm.append_right _
  | closeElse _ form | closeFortil _ form =>
    simp [Command.code, form, Command.jumpLabels, Command.entryLabels]
  | closeOther _ form =>
    rcases form with form | form | ⟨start, form⟩ <;>
      simp [Command.code, form, Command.jumpLabels, Command.entryLabels]
  | openMethod =>
    rw [Command.code, definedLabels_label]
    split
    · rw [definedLabels_saveContext]
      exact .refl _
    · exact .refl _
  | closeMethod | giveBack =>
    rw [Command.code]
    simp [Program.definedLabels_returnCode, Command.jumpLabels, Command.entryLabels]
  | giveBackValue _ read =>
    rw [Command.code]
    simpa [Program.definedLabels_returnCode, Command.jumpLabels, Command.entryLabels] using
      read.wellFormed.definedLabels_perm
  | sleep read _ =>
    simpa [Command.code, Command.jumpLabels, Command.entryLabels] using
      read.wellFormed.definedLabels_perm.append_right _

/-! ### Labels taken and labels defined -/

/-- The label behind the block, where it was taken before the closing line. -/
def BlockForm.owed? : BlockForm → Option Label
  | elsePart _ exit => some exit
  | _ => none

/-- The labels that are taken and not yet defined. -/
def BodyState.owedLabels (st : BodyState) : List Label := st.blocks.filterMap (·.form.owed?)

theorem BodyState.owedLabels_add (st : BodyState) (v : Variable) :
    (st.add v).owedLabels = st.owedLabels := by
  obtain ⟨_, _, blocks, method⟩ := st
  cases blocks with
  | cons b outer => rfl
  | nil => cases method <;> rfl

theorem BodyState.owedLabels_of_top {st : BodyState} {b : Block} {outer : List Block}
    (top : st.blocks = b :: outer) :
    st.owedLabels = b.form.owed?.toList ++ outer.filterMap (·.form.owed?) := by
  rw [owedLabels, top, List.filterMap_cons]
  cases b.form.owed? <;> rfl

theorem Declares.labels_eq {sigs : Signatures} {st : BodyState} {v : Variable} {s : Supply}
    (new : Declares sigs st v s) : ((st.withSupply s).add v).supply.labels = st.supply.labels := by
  rw [((st.withSupply s).add_others v).2.2]
  exact congrArg (·.labels) new.others

/-- A line defines the labels that it takes, and those that are owed no more. -/
theorem LineStep.jumpLabels_perm {sigs : Signatures} {index : Nat} {line : Text}
    {st st' : BodyState} {c : Command} (step : LineStep sigs index line st c st') :
    ∃ fresh, Numbered st.supply.labels fresh st'.supply.labels ∧
      (c.jumpLabels ++ st'.owedLabels).Perm (fresh ++ st.owedLabels) := by
  cases step with
  | empty | interrupt | openBlock | leave | giveBack => exact ⟨[], .nil _, .refl _⟩
  | declaration new =>
    refine ⟨[], ?_, ?_⟩
    · rw [new.labels_eq]
      exact .nil _
    · rw [BodyState.owedLabels_add]
      exact .refl _
  | @initialized v s a n new initial =>
    have numbered := initial.value.numbered
    rw [new.labels_eq] at numbered
    refine ⟨_, numbered, List.Perm.append_left _ ?_⟩
    show List.Perm ((st.withSupply s).add v).owedLabels _
    rw [BodyState.owedLabels_add]
    exact .refl _
  | assignment assigned => exact ⟨_, assigned.value.numbered, .refl _⟩
  | value read => exact ⟨_, read.numbered, .refl _⟩
  | openIf read _ => exact ⟨_, read.numbered, .refl _⟩
  | giveBackValue _ read => exact ⟨_, read.numbered, .refl _⟩
  | openWhile read _ => exact ⟨_, read.numbered.append ⟨rfl, rfl⟩, .refl _⟩
  | openFortil read _ taken => exact ⟨_, read.numbered.append ⟨rfl, rfl⟩, .refl _⟩
  | sleep read _ => exact ⟨_, read.numbered.append ⟨rfl, rfl⟩, .refl _⟩
  | openElse top form =>
    refine ⟨[.jump _, .jump _], ⟨rfl, rfl⟩, ?_⟩
    rw [BodyState.owedLabels_of_top top, form]
    exact List.Perm.swap ..
  | closeElse top form =>
    refine ⟨[], ?_, ?_⟩
    · rw [BodyState.leaving_labels]
      exact .nil _
    · rw [BodyState.owedLabels_of_top top, form]
      exact .refl _
  | closeFortil top form =>
    refine ⟨[.jump _], ⟨rfl, rfl⟩, ?_⟩
    rw [BodyState.owedLabels_of_top top, form]
    exact .refl _
  | closeOther top form =>
    refine ⟨[.jump _], ⟨rfl, rfl⟩, ?_⟩
    rw [BodyState.owedLabels_of_top top]
    rcases form with form | form | ⟨start, form⟩ <;> rw [form] <;> exact .refl _
  | openMethod => exact ⟨[], .nil _, .refl _⟩
  | @closeMethod m inside noBlock =>
    refine ⟨[], ?_, .refl _⟩
    have : (st.returning m).supply.labels = st.supply.labels :=
      congrArg (·.labels) (Supply.giveBack_eq m.locals st.supply)
    rw [this]
    exact .nil _

/-- Two steps in a row, each of which settles what is new in it and what is no
longer open, settle both. -/
theorem perm_of_steps {α : Type} {settled settled' new new' before between after : List α}
    (first : (settled ++ between).Perm (new ++ before))
    (second : (settled' ++ after).Perm (new' ++ between)) :
    (settled ++ settled' ++ after).Perm (new ++ new' ++ before) := by
  rw [List.append_assoc, List.append_assoc]
  calc List.Perm (settled ++ (settled' ++ after)) (settled ++ (new' ++ between)) :=
        second.append_left _
    List.Perm _ (new' ++ (settled ++ between)) := List.perm_append_comm_assoc ..
    List.Perm _ (new' ++ (new ++ before)) := first.append_left _
    List.Perm _ (new ++ (new' ++ before)) := List.perm_append_comm_assoc ..

/-- A run of lines defines the labels that it takes, and those that are owed no
more. -/
theorem LineRun.jumpLabels_perm {sigs : Signatures} {index : Nat} {lines : List Text}
    {st st' : BodyState} {cs : List Command} (run : LineRun sigs index st lines cs st') :
    ∃ fresh, Numbered st.supply.labels fresh st'.supply.labels ∧
      (cs.flatMap Command.jumpLabels ++ st'.owedLabels).Perm (fresh ++ st.owedLabels) := by
  induction run with
  | nil => exact ⟨[], .nil _, .refl _⟩
  | @cons _ st st₁ st' _ _ c cs step _ ih =>
    obtain ⟨first, numbered, perm⟩ := step.jumpLabels_perm
    obtain ⟨fresh, numbered', perm'⟩ := ih
    refine ⟨first ++ fresh, numbered.append numbered', ?_⟩
    rw [List.flatMap_cons]
    exact perm_of_steps perm perm'

/-- Labels that were taken in a row differ, and are no entries. -/
theorem Numbered.nodup {n m : Nat} {ls : List Label} (h : Numbered n ls m) :
    ls.Nodup ∧ ∀ l ∈ ls, ∃ i, l = .jump i := by
  rw [h.2]
  refine ⟨List.Nodup.map (fun _ _ heq => Label.jump.inj heq) (List.nodup_range' ..), ?_⟩
  intro l hl
  obtain ⟨i, -, rfl⟩ := List.mem_map.mp hl
  exact ⟨i, rfl⟩

/-! ### Entries of methods -/

section

variable {sigs : Signatures} {all : List Text} {s s' : Supply}
  (methods : MethodRun [] 0 s all sigs.methods s')
include methods

/-- Every `method` line opens the method that was read from it. -/
theorem LineStep.openMethod_line {index : Nat} {line : Text} {st st' : BodyState} {m : Method}
    (step : LineStep sigs index line st (.openMethod m) st') (at_ : all[index]? = some line) :
    m ∈ sigs.methods ∧ m.line = index := by
  cases step with
  | openMethod form signature known _ _ _ _ =>
    obtain ⟨m', hm', hline, inside', signature'⟩ := methods.method_at at_ form
    have hm : m ∈ sigs.methods := List.mem_of_find?_eq_some known
    have name : m.name = m'.name := by
      rw [signature] at signature'
      obtain ⟨rfl, -⟩ := Prod.mk.inj (Option.some.inj signature')
      simpa using List.find?_some known
    have names := methods.names_nodup List.nodup_nil
    obtain rfl := List.inj_on_of_nodup_map names hm hm' name
    exact ⟨hm, by omega⟩

/-- The methods that a run opens, in the order of their lines. -/
theorem LineRun.entryLabels_eq {index : Nat} {lines : List Text} {st st' : BodyState}
    {cs : List Command} (run : LineRun sigs index st lines cs st') (at_ : all.drop index = lines) :
    ∃ ms : List Method, cs.flatMap Command.entryLabels = ms.map (·.label) ∧
      (∀ m ∈ ms, m ∈ sigs.methods ∧ index ≤ m.line) ∧ ms.Pairwise (·.line < ·.line) := by
  induction run with
  | nil => exact ⟨[], rfl, by simp, .nil⟩
  | @cons index st st₁ st' line lines c cs step rest ih =>
    have here : all[index]? = some line := by
      have := congrArg (·[0]?) at_
      simpa using this
    have tail : all.drop (index + 1) = lines := by
      rw [← List.drop_drop, at_]
      rfl
    obtain ⟨ms, labels, known, sorted⟩ := ih tail
    rw [List.flatMap_cons, labels]
    by_cases hm : ∃ m, c = .openMethod m
    · obtain ⟨m, rfl⟩ := hm
      obtain ⟨hmem, hline⟩ := step.openMethod_line methods here
      refine ⟨m :: ms, rfl, ?_, ?_⟩
      · rintro m' (_ | ⟨_, hm'⟩)
        · exact ⟨hmem, by omega⟩
        · have := known m' hm'
          exact ⟨this.1, by omega⟩
      · refine .cons (fun m' hm' => ?_) sorted
        have := known m' hm'
        omega
    · have none : c.entryLabels = [] := by
        cases c <;> first | rfl | exact absurd ⟨_, rfl⟩ hm
      rw [none]
      refine ⟨ms, rfl, fun m hm => ⟨(known m hm).1, ?_⟩, sorted⟩
      have := (known m hm).2
      omega

/-- No entry is defined twice, since every method has its own label. -/
theorem LineRun.entryLabels_nodup {st st' : BodyState} {cs : List Command}
    (run : LineRun sigs 0 st all cs st') :
    (cs.flatMap Command.entryLabels).Nodup ∧
      ∀ l ∈ cs.flatMap Command.entryLabels, ∃ n, l = .method n := by
  obtain ⟨ms, labels, known, sorted⟩ := run.entryLabels_eq methods rfl
  obtain ⟨new, hnew, -, numbered⟩ := methods.added
  rw [List.nil_append] at hnew
  rw [← hnew] at numbered
  have distinct : (sigs.methods.map (·.label)).Nodup := by
    rw [numbered]
    exact List.Nodup.map (fun _ _ heq => Label.method.inj heq) (List.nodup_range' ..)
  rw [labels]
  constructor
  · refine List.pairwise_map.mpr (sorted.imp_of_mem fun {a b} ha hb hlt heq => ?_)
    have := List.inj_on_of_nodup_map distinct (known a ha).1 (known b hb).1 heq
    rw [this] at hlt
    omega
  · intro l hl
    obtain ⟨m, hm, rfl⟩ := List.mem_map.mp hl
    have : m.label ∈ sigs.methods.map (·.label) := List.mem_map_of_mem (known m hm).1
    rw [numbered] at this
    obtain ⟨n, -, hn⟩ := List.mem_map.mp this
    exact ⟨n, hn.symm⟩

end

/-! ### Whole programs -/

theorem definedLabels_flatMap {α : Type} {f : α → List Line} (h : ∀ x, definedLabels (f x) = [])
    (xs : List α) : definedLabels (xs.flatMap f) = [] := by
  induction xs with
  | nil => rfl
  | cons x xs ih => rw [List.flatMap_cons, definedLabels_append, h, ih, List.nil_append]

theorem definedLabels_prologue (bindings : List Binding) :
    definedLabels (prologue bindings) = [.main] := by
  unfold prologue
  split
  · rfl
  · have entry (b : Binding) : definedLabels b.vectorEntry = [] := rfl
    have setup (b : Binding) : definedLabels b.setup = [] := by
      unfold Binding.setup
      rw [definedLabels_append]
      split <;> rfl
    have timers (t : Bool) : definedLabels (if t then
        [.code (.mov (.direct Target.tmod) (.immediate 0 .decimal))] else []) = [] := by
      cases t <;> rfl
    simp only [definedLabels_append, definedLabels_code, definedLabels_flatMap entry,
      definedLabels_flatMap setup, timers]
    rfl

theorem definedLabels_echo (o : Options) (source : Text) (code : List Line) (on : Bool) :
    definedLabels (echo o source ++ guarded on code) = definedLabels code := by
  have silent : definedLabels (echo o source) = [] := by
    unfold echo
    simp only
    split <;> rfl
  rw [definedLabels_append, silent, List.nil_append]
  unfold guarded
  split
  · simp [guardOn, guardOff]
  · rfl

/-- The pieces of a program define the labels of its commands. -/
theorem LineRun.definedLabels_pieces {sigs : Signatures} {index : Nat} {lines : List Text}
    {st st' : BodyState} {cs : List Command} (run : LineRun sigs index st lines cs st') (p : Program)
    (o : Options) : ∀ (method : Option Method) (used : List String) (sources : List Text),
      sources.length = cs.length →
      (definedLabels ((pieces p o method used index (cs.zip sources)).flatMap (·.lines))).Perm
        (cs.flatMap Command.jumpLabels ++ cs.flatMap Command.entryLabels) := by
  induction run with
  | nil => intro _ _ _ _; exact .refl _
  | @cons index st st₁ st' line lines c cs step rest ih =>
    intro method used sources hlen
    obtain ⟨source, sources, rfl⟩ : ∃ a as, sources = a :: as :=
      List.exists_cons_of_length_eq_add_one hlen
    rw [List.zip_cons_cons, pieces, List.flatMap_cons, definedLabels_append, definedLabels_echo,
      List.flatMap_cons, List.flatMap_cons]
    have first := step.definedLabels_perm p (c.methodHere method)
      (c.nextSymbol p.declaredNames used).1 index
    refine (first.append (ih _ _ sources (Nat.succ.inj hlen))).trans ?_
    simp only [List.append_assoc]
    exact List.Perm.append_left _ (List.perm_append_comm_assoc ..)

/-- The assembly of a program defines the main label and the labels of its
pieces. -/
theorem Program.definedLabels_code_perm (p : Program) (o : Options) :
    (definedLabels (p.code o)).Perm
      (.main :: definedLabels ((p.allPieces o).flatMap (·.lines))) := by
  have sections : ((p.allPieces o).filter (!·.inMethod) ++
      (p.allPieces o).filter (·.inMethod)).Perm (p.allPieces o) :=
    List.perm_append_comm.trans (List.filter_append_perm _ _)
  have lines := (sections.flatMap_right (·.lines)).filterMap Line.label?
  rw [List.flatMap_append] at lines
  have frame : definedLabels (p.code o) = .main ::
      definedLabels (((p.allPieces o).filter (!·.inMethod)).flatMap (·.lines) ++
        ((p.allPieces o).filter (·.inMethod)).flatMap (·.lines)) := by
    unfold code
    simp only [List.cons_append, List.append_assoc, definedLabels_append]
    show definedLabels (prologue p.interrupts ++ _) = _
    rw [definedLabels_append, definedLabels_prologue]
    simp only [definedLabels_append, definedLabels_code, List.cons_append, List.nil_append]
    simp [definedLabels, Line.label?]
  rw [frame]
  exact lines.cons _

/-- **No label of a program is defined twice.** -/
theorem Program.definedLabels_nodup {raw : List Text} {supply : Supply} {p : Program}
    (h : Program.read raw supply = .ok p) (o : Options) : (definedLabels (p.code o)).Nodup := by
  obtain ⟨sigs, s, st', methods, run, noBlock, -, rfl, -⟩ := Program.exists_run h
  obtain ⟨fresh, numbered, perm⟩ := run.jumpLabels_perm
  obtain ⟨entries, isEntry⟩ := run.entryLabels_nodup methods
  obtain ⟨jumps, isJump⟩ := numbered.nodup
  -- nothing is owed at the start, and nothing at the end
  have owed : st'.owedLabels = [] := by
    rw [BodyState.owedLabels, noBlock]
    rfl
  have nothing : BodyState.owedLabels { supply := s } = [] := rfl
  rw [owed, nothing, List.append_nil, List.append_nil] at perm
  have length : p.lines.length = p.commands.length := by
    rw [← run.length_eq, List.length_map]
  have all := (run.definedLabels_pieces p o none [] p.lines length).trans (perm.append_right _)
  refine (p.definedLabels_code_perm o).nodup_iff.mpr ?_
  refine List.nodup_cons.mpr ⟨fun hmain => ?_, all.nodup_iff.mpr ?_⟩
  · rcases List.mem_append.mp (all.mem_iff.mp hmain) with hmain | hmain
    · obtain ⟨_, hi⟩ := isJump _ hmain
      cases hi
    · obtain ⟨_, hi⟩ := isEntry _ hmain
      cases hi
  · refine List.nodup_append.mpr ⟨jumps, entries, fun l hl l' hl' heq => ?_⟩
    obtain ⟨_, rfl⟩ := isJump l hl
    obtain ⟨_, rfl⟩ := isEntry l' hl'
    cases heq

end Micro51
