/- # The code of a program is laid out

A program is a list of commands, its tree is read from the end, and labels are
looked up from the closing lines. Going through the lines, what is still to come
is code for the open blocks one inside the other: `Spine` says so for the blocks
that are open between two lines, and each line adds its command to it.

Key definitions: `BodyState.spine`, `Closes`, `Spine`.
Key theorems: `Program.closing?_of_mem`, `Spine.step`, `LineRun.spine`.
-/
import Micro51.Proofs.Labels
import Micro51.Proofs.Layout

namespace Micro51

/-! ### Places of live variables -/

/-- Storage that is handed out from a fresh supply on is where variables live. -/
theorem Fills.placed {u w : Usage} {vs : List Variable} (fills : Fills u vs w)
    (bytes : Target.byteBase ≤ u.lastByte) (bits : 0 ≤ u.bitsUsed) : ∀ v ∈ vs, v.Placed := by
  induction fills with
  | nil => simp
  | byte own kind place room rest ih =>
    rintro v (_ | ⟨_, hv⟩)
    · refine ⟨.inl ?_, by omega⟩
      simp only [Target.byteBase, Target.bitBase, Target.byteEnd] at *
      omega
    · exact ih (by simp only; omega) bits v hv
  | bit own kind place room rest ih =>
    rintro v (_ | ⟨_, hv⟩)
    · obtain ⟨haddress, hbit⟩ := Prod.mk.inj place
      simp only [Target.bitCount] at room
      refine ⟨.inl ?_, by omega⟩
      simp only [Target.bitBase, Target.byteEnd] at *
      omega
    · exact ih bytes (by simp only; omega) v hv

/-- The parameters of the methods live where variables can live, and so does
every live variable, if the parameters among them are those of a method. -/
theorem Tidy.placed_of_bound {sigs : Signatures} {u : Usage} {globals : List Variable}
    {st : BodyState} (tidy : Tidy sigs u globals st) (bound : st.bound ⊆ sigs.parameters)
    (bytes : Target.byteBase ≤ u.lastByte) (bits : 0 ≤ u.bitsUsed) :
    (∀ v ∈ sigs.parameters, v.Placed) ∧ ∀ v ∈ st.live, v.Placed := by
  have placed := tidy.fills.placed bytes bits
  refine ⟨fun v hv => placed v (by simp [hv]), fun v hv => ?_⟩
  rw [tidy.live] at hv
  rcases List.mem_append.mp hv with hv | hv
  · refine placed v ?_
    simp only [List.mem_reverse, List.mem_append] at hv ⊢
    rcases hv with (hv | hv) | hv
    · exact .inl (.inr hv)
    · exact .inl (.inl (bound hv))
    · exact .inr hv
  · have ports : ∀ v ∈ Variable.predefinedList, v.address ∈ Target.ports.map Prod.snd ∧ v.bit < 8 := by
      decide
    exact ⟨.inr (ports v hv).1, (ports v hv).2⟩

/-- Outside methods, every live variable lives where variables can live. -/
theorem Tidy.placed {sigs : Signatures} {globals : List Variable} {st : BodyState}
    (tidy : Tidy sigs (Supply.usage {}) globals st) (noMethod : st.method = none) :
    ∀ v ∈ st.live, v.Placed := by
  have noBound : st.bound = [] := by rw [BodyState.bound, noMethod]
  exact (tidy.placed_of_bound (by simp [noBound]) (by decide) (by decide)).2

/-! ### Every block is closed once -/

/-- The line of the block that a command ends. -/
def Command.closedLines : Command → List Nat
  | openElse b .. | closeBlock b _ => [b.line]
  | _ => []

/-- The line of the block that the command on line `index` begins. -/
def Command.openedLines (index : Nat) : Command → List Nat
  | openBlock | openIf _ | openElse .. | openWhile .. | openFortil .. => [index]
  | _ => []

/-- The lines of the open blocks. -/
def BodyState.openLines (st : BodyState) : List Nat := st.blocks.map (·.line)

theorem BodyState.openLines_add (st : BodyState) (v : Variable) :
    (st.add v).openLines = st.openLines := by
  obtain ⟨_, _, blocks, method⟩ := st
  cases blocks with
  | cons b outer => rfl
  | nil => cases method <;> rfl

theorem LineStep.closedLines_perm {sigs : Signatures} {index : Nat} {line : Text}
    {st st' : BodyState} {c : Command} (step : LineStep sigs index line st c st') :
    (c.closedLines ++ st'.openLines).Perm (c.openedLines index ++ st.openLines) := by
  cases step with
  | declaration _ =>
    rw [BodyState.openLines_add]
    exact .refl _
  | @initialized v s a n _ _ =>
    show List.Perm ((st.withSupply s).add v).openLines _
    rw [BodyState.openLines_add]
    exact .refl _
  | openElse top _ =>
    rw [BodyState.openLines, BodyState.openLines, top]
    exact List.Perm.swap ..
  | closeElse top _ | closeFortil top _ | closeOther top _ =>
    rw [BodyState.openLines, BodyState.openLines, top]
    exact .refl _
  | _ => exact .refl _

/-- A run of lines closes the blocks that it opens, and those that were open. -/
theorem LineRun.closedLines_perm {sigs : Signatures} {index : Nat} {lines : List Text}
    {st st' : BodyState} {cs : List Command} (run : LineRun sigs index st lines cs st') :
    ∃ opened : List Nat, opened.Pairwise (· < ·) ∧ (∀ i ∈ opened, index ≤ i) ∧
      (cs.flatMap Command.closedLines ++ st'.openLines).Perm (opened ++ st.openLines) := by
  induction run with
  | nil => exact ⟨[], .nil, by simp, .refl _⟩
  | @cons index st st₁ st' _ _ c cs step _ ih =>
    obtain ⟨opened, sorted, later, perm⟩ := ih
    have here : ∀ i ∈ c.openedLines index, i = index := by
      cases c <;> simp [Command.openedLines]
    have single : (c.openedLines index).Pairwise (· < ·) := by
      cases c <;> simp [Command.openedLines]
    refine ⟨c.openedLines index ++ opened, ?_, ?_, ?_⟩
    · refine List.pairwise_append.mpr ⟨single, sorted, fun i hi j hj => ?_⟩
      have := here i hi
      have := later j hj
      omega
    · intro i hi
      rcases List.mem_append.mp hi with hi | hi
      · exact Nat.le_of_eq (here i hi).symm
      · exact Nat.le_of_succ_le (later i hi)
    · rw [List.flatMap_cons]
      exact perm_of_steps step.closedLines_perm perm

theorem Command.mem_closedLines {c : Command} {line : Nat} {cl : Closing}
    (h : c.closing? line = some cl) : line ∈ c.closedLines := by
  cases c <;> simp only [closing?, reduceCtorEq] at h <;> split at h <;> simp_all [closedLines]

/-- Where no block is closed twice, each closing command is the one that is found. -/
theorem closingIn?_of_mem {cs : List Command} (once : (cs.flatMap Command.closedLines).Nodup)
    {c : Command} (hc : c ∈ cs) {line : Nat} {cl : Closing} (h : c.closing? line = some cl) :
    closingIn? cs line = some cl := by
  induction cs with
  | nil => cases hc
  | cons first cs ih =>
    rw [List.flatMap_cons, List.nodup_append] at once
    obtain ⟨-, once, apart⟩ := once
    rw [closingIn?, List.findSome?_cons]
    rcases List.mem_cons.mp hc with rfl | hc
    · rw [h]
    · cases hf : first.closing? line with
      | none => exact ih once hc
      | some cl' =>
        have later : line ∈ cs.flatMap Command.closedLines :=
          List.mem_flatMap.mpr ⟨c, hc, Command.mem_closedLines h⟩
        exact absurd rfl (apart line (Command.mem_closedLines hf) line later)

/-- Every command that closes a block of a program is the one the block's labels
are looked up from. -/
theorem Program.closing?_of_mem {raw : List Text} {supply : Supply} {p : Program}
    (h : Program.read raw supply = .ok p) {c : Command} (hc : c ∈ p.commands) {line : Nat}
    {cl : Closing} (closes : c.closing? line = some cl) : p.closing? line = some cl := by
  obtain ⟨sigs, s, st', -, run, noBlock, -, -⟩ := Program.exists_run h
  obtain ⟨opened, sorted, -, perm⟩ := run.closedLines_perm
  have nothing : st'.openLines = [] := by
    rw [BodyState.openLines, noBlock]
    rfl
  have start : BodyState.openLines { supply := s } = [] := rfl
  rw [nothing, start, List.append_nil, List.append_nil] at perm
  exact closingIn?_of_mem (perm.nodup_iff.mpr (sorted.imp Nat.ne_of_lt)) hc closes

/-! ### Code for open blocks -/

/-- The open blocks of the main program, the innermost first, without their
variables. -/
def BodyState.spine (st : BodyState) : List (Nat × BlockForm) :=
  match st.method with
  | some _ => []
  | none => st.blocks.map fun b => (b.line, b.form)

/-- The number of counted loops among open blocks. -/
def loopDepth (blocks : List (Nat × BlockForm)) : Nat :=
  (blocks.filterMap (·.2.register?)).length

/-- The lines end the block that was opened on `line`; `otherwise` is what
follows in an `else` part, in `d` counted loops. -/
inductive Closes (p : Program) (d line : Nat) : BlockForm → Body → List Line → Prop where
  | plain : Closes p d line .plain .done [.label (p.exitOf line)]
  | ifPart (same : p.otherwiseOf line = p.exitOf line) :
      Closes p d line .ifPart .done [.label (p.exitOf line)]
  | ifElse {no : Body} {ln : List Line} (other : Laid (some (p.exitOf line)) d no ln) :
      Closes p d line .ifPart no
        (.code (.jmp (p.exitOf line)) :: .label (p.otherwiseOf line) ::
          (ln ++ [.label (p.exitOf line)]))
  | elsePart {ifLine : Nat} {exit : Label} (same : exit = p.exitOf line) :
      Closes p d line (.elsePart ifLine exit) .done [.label exit]
  | whileLoop {top : Label} :
      Closes p d line (.whileLoop top) .done [.code (.jmp top), .label (p.exitOf line)]
  | fortil {r : Register} {top : Label} :
      Closes p d line (.fortil r top) .done
        [.code (.djnz (.register r) top), .label (p.exitOf line)]

/-- The lines are code for what is still to come in the open blocks and behind
them. -/
inductive Spine (p : Program) : List (Nat × BlockForm) → List Level → List Line → Prop where
  | base {body : Body} {ls : List Line} (laid : Laid none 0 body ls) : Spine p [] [{ body }] ls
  | block {line : Nat} {form : BlockForm} {outer : List (Nat × BlockForm)} {l : Level}
      {levels : List Level} {li lc ls : List Line}
      (laid : Laid (some (p.exitOf line)) (loopDepth ((line, form) :: outer)) l.body li)
      (closes : Closes p (loopDepth outer) line form l.otherwise lc)
      (rest : Spine p outer levels ls) :
      Spine p ((line, form) :: outer) (l :: levels) (li ++ (lc ++ ls))

namespace Spine

variable {p : Program} {blocks : List (Nat × BlockForm)} {l : Level} {levels : List Level}
  {ls : List Line}

/-- Puts code in front of the innermost block. -/
theorem prepend (spine : Spine p blocks (l :: levels) ls) {body : Body} {code : List Line}
    (wrap : ∀ around ls', Laid around (loopDepth blocks) l.body ls' →
      (∀ b ∈ blocks.head?, around = some (p.exitOf b.1)) →
      Laid around (loopDepth blocks) body (code ++ ls')) :
    Spine p blocks ({ l with body := body } :: levels) (code ++ ls) := by
  cases spine with
  | base laid => exact .base (wrap _ _ laid nofun)
  | block laid closes rest =>
    rw [← List.append_assoc]
    exact .block (wrap _ _ laid (by rintro _ ⟨⟩; rfl)) closes rest

/-- Puts lines that do nothing in front of the innermost block. -/
theorem silent (spine : Spine p blocks levels ls) {lines : List Line}
    (hl : ∀ x ∈ lines, x.isSilent = true) : Spine p blocks levels (lines ++ ls) := by
  have wrap {around : Option Label} {d : Nat} {body : Body} {ls' : List Line}
      (laid : Laid around d body ls') : Laid around d body (lines ++ ls') := by
    induction lines with
    | nil => exact laid
    | cons x xs ih =>
      obtain ⟨hx, hxs⟩ := List.forall_mem_cons.mp hl
      exact .silent hx (ih hxs)
  cases spine with
  | base laid => exact .base (wrap laid)
  | block laid closes rest =>
    rw [← List.append_assoc]
    exact .block (wrap laid) closes rest

theorem exists_cons (spine : Spine p blocks levels ls) : ∃ l lv, levels = l :: lv := by
  cases spine with
  | base _ => exact ⟨_, _, rfl⟩
  | block _ _ _ => exact ⟨_, _, rfl⟩

/-! #### One command in front -/

theorem assign (spine : Spine p blocks levels ls) {a : Assignment} (ready : a.Ready) :
    Spine p blocks ((Command.assignment a).nest levels) (a.code ++ ls) := by
  obtain ⟨l, lv, rfl⟩ := spine.exists_cons
  exact spine.prepend fun _ _ laid _ => .assign ready laid

theorem value (spine : Spine p blocks levels ls) {v : Value} (ready : v.Ready) :
    Spine p blocks ((Command.value v).nest levels) (v.code ++ ls) := by
  obtain ⟨l, lv, rfl⟩ := spine.exists_cons
  exact spine.prepend fun _ _ laid _ => .value ready laid

theorem sleep (spine : Spine p blocks levels ls) {v : Value} (ready : v.Ready)
    (outer inner done : Label) :
    Spine p blocks ((Command.sleep v outer inner done).nest levels)
      (v.code ++ sleepLoops outer inner done ++ ls) := by
  obtain ⟨l, lv, rfl⟩ := spine.exists_cons
  refine spine.prepend fun _ _ laid _ => ?_
  rw [List.append_assoc]
  exact .sleep ready laid

section

variable {line : Nat} {form : BlockForm} {outer : List (Nat × BlockForm)} {top : Label}

theorem leave (spine : Spine p ((line, form) :: outer) levels ls) :
    Spine p ((line, form) :: outer) ((Command.leave line).nest levels)
      (.code (.jmp (p.exitOf line)) :: ls) := by
  obtain ⟨l, lv, rfl⟩ := spine.exists_cons
  show Spine p _ _ ([_] ++ ls)
  refine spine.prepend fun around ls' laid head => ?_
  obtain rfl := head _ rfl
  exact .leave laid

theorem closeBlock (spine : Spine p outer levels ls) {lc : List Line}
    (closes : Closes p (loopDepth outer) line form .done lc) :
    Spine p ((line, form) :: outer) ({} :: levels) (lc ++ ls) := by
  show Spine p _ _ ([] ++ (lc ++ ls))
  exact .block .done closes spine

/-- What an opening line finds behind it: the code of its block, what closes the
block, and the code for the blocks around. -/
theorem opened (spine : Spine p ((line, form) :: outer) levels ls) :
    ∃ inner otherwise l lv li lc ls', levels = ⟨inner, otherwise⟩ :: l :: lv ∧
      ls = li ++ (lc ++ ls') ∧
      Laid (some (p.exitOf line)) (loopDepth ((line, form) :: outer)) inner li ∧
      Closes p (loopDepth outer) line form otherwise lc ∧ Spine p outer (l :: lv) ls' := by
  cases spine with
  | block laid closes rest =>
    obtain ⟨l, lv, rfl⟩ := rest.exists_cons
    exact ⟨_, _, _, _, _, _, _, rfl, rfl, laid, closes, rest⟩

theorem openElse {index : Nat} {b : Block} {exit otherwise : Label}
    (spine : Spine p ((index, .elsePart line exit) :: outer) levels ls)
    (hexit : p.exitOf line = exit) :
    Spine p ((line, .ifPart) :: outer) ((Command.openElse b exit otherwise).nest levels)
      (.code (.jmp exit) :: .label (p.otherwiseOf line) :: ls) := by
  obtain ⟨inner, otherwise, l, lv, li, lc, ls', rfl, rfl, laid, closes, rest⟩ := spine.opened
  cases closes with
  | elsePart same =>
    rw [← same, ← hexit] at laid
    have close : Closes p (loopDepth outer) line .ifPart inner _ := .ifElse laid
    have block : Spine p ((line, .ifPart) :: outer) (⟨.done, inner⟩ :: l :: lv) _ :=
      .block .done close rest
    simp only [hexit, List.nil_append, List.cons_append, List.append_assoc] at block
    exact block

theorem openBlock (spine : Spine p ((line, .plain) :: outer) levels ls) :
    Spine p outer (Command.openBlock.nest levels) ls := by
  obtain ⟨inner, otherwise, l, lv, li, lc, ls', rfl, rfl, laid, closes, rest⟩ := spine.opened
  cases closes
  rw [← List.append_assoc]
  refine rest.prepend fun around ls'' laid' _ => ?_
  rw [List.append_assoc]
  exact .block laid laid'

theorem openIf (spine : Spine p ((line, .ifPart) :: outer) levels ls) {c : Value} (ready : c.Ready)
    (kind : c.kind? ≠ some .byte) :
    Spine p outer ((Command.openIf c).nest levels)
      (c.code ++ [.code (.jnb accBit (p.otherwiseOf line))] ++ ls) := by
  obtain ⟨inner, otherwise, l, lv, li, lc, ls', rfl, rfl, laid, closes, rest⟩ := spine.opened
  rw [← List.append_assoc, ← List.append_assoc]
  refine rest.prepend fun around ls'' laid' _ => ?_
  simp only [List.append_assoc, List.cons_append, List.nil_append]
  cases closes with
  | ifPart same =>
    rw [same]
    exact .ifThen ready kind laid laid'
  | ifElse other =>
    simp only [List.append_assoc, List.cons_append, List.nil_append]
    exact .ifElse ready kind laid other laid'

theorem openWhile (spine : Spine p ((line, .whileLoop top) :: outer) levels ls) {c : Value}
    (ready : c.Ready) (kind : c.kind? ≠ some .byte) :
    Spine p outer ((Command.openWhile c top).nest levels)
      (.label top :: c.code ++ [.code (.jnb accBit (p.exitOf line))] ++ ls) := by
  obtain ⟨inner, otherwise, l, lv, li, lc, ls', rfl, rfl, laid, closes, rest⟩ := spine.opened
  cases closes
  rw [← List.append_assoc, ← List.append_assoc]
  refine rest.prepend fun around ls'' laid' _ => ?_
  simp only [List.append_assoc, List.cons_append, List.nil_append]
  exact .whileLoop ready kind laid laid'

theorem openFortil (spine : Spine p ((line, .fortil ⟨loopDepth outer⟩ top) :: outer) levels ls)
    {limit : Value} (ready : limit.Ready) (kind : limit.kind? ≠ some .bit) :
    Spine p outer ((Command.openFortil limit ⟨loopDepth outer⟩ top).nest levels)
      (limit.code ++ [.code (.mov (.register ⟨loopDepth outer⟩) (.place .acc)),
        .code (.jz (p.exitOf line)), .label top] ++ ls) := by
  obtain ⟨inner, otherwise, l, lv, li, lc, ls', rfl, rfl, laid, closes, rest⟩ := spine.opened
  cases closes
  rw [← List.append_assoc, ← List.append_assoc]
  refine rest.prepend fun around ls'' laid' _ => ?_
  simp only [List.append_assoc, List.cons_append, List.nil_append]
  exact .fortil ready kind laid laid'

end

end Spine

/-! ### Each line adds its command -/

namespace BodyState

theorem spine_of_noMethod {st : BodyState} (noMethod : st.method = none) :
    st.spine = st.blocks.map fun b => (b.line, b.form) := by
  rw [spine, noMethod]

theorem spine_add (st : BodyState) (v : Variable) : (st.add v).spine = st.spine := by
  obtain ⟨_, _, blocks, method⟩ := st
  cases blocks with
  | cons b outer => rfl
  | nil => cases method <;> rfl

theorem spine_withBlock {st : BodyState} (noMethod : st.method = none) (b : Block) :
    (st.withBlock b).spine = (b.line, b.form) :: st.spine := by
  rw [spine_of_noMethod noMethod, spine_of_noMethod (by exact noMethod)]
  rfl

theorem spine_of_top {st : BodyState} (noMethod : st.method = none) {b : Block}
    {outer : List Block} (top : st.blocks = b :: outer) :
    st.spine = (b.line, b.form) :: (st.leaving b outer).spine := by
  rw [spine_of_noMethod noMethod, spine_of_noMethod (by exact noMethod), top]
  rfl

theorem loopDepth_spine {st : BodyState} (noMethod : st.method = none) :
    loopDepth st.spine = st.loopRegisters.length := by
  rw [spine_of_noMethod noMethod, loopDepth, loopRegisters, List.filterMap_map,
    List.filterMap_reverse, List.length_reverse]
  rfl

end BodyState

theorem Variable.isSilent_directive (v : Variable) (symbol : String) :
    (v.directive symbol).isSilent = true := by
  unfold directive
  cases v.kind <;> rfl

theorem exitOf_eq {p : Program} {line : Nat} {cl : Closing} (h : p.closing? line = some cl) :
    p.exitOf line = cl.exit := by
  rw [Program.exitOf, h]

theorem otherwiseOf_eq {p : Program} {line : Nat} {cl : Closing} (h : p.closing? line = some cl) :
    p.otherwiseOf line = cl.otherwise.getD cl.exit := by
  rw [Program.otherwiseOf, h]

section

variable {sigs : Signatures} {index : Nat} {line : Text} {st st' : BodyState} {c : Command}
  {p : Program} {levels : List Level} {ls : List Line}

/-- The code of a line that closes a block closes it. -/
theorem LineStep.closes {b : Block} {exit : Label} {d : Nat}
    (step : LineStep sigs index line st (.closeBlock b exit) st')
    (closing : p.closing? b.line = some ⟨exit, none, b.locals⟩) (symbol : String) :
    Closes p d b.line b.form .done ((Command.closeBlock b exit).code p none symbol index) := by
  have hexit := exitOf_eq closing
  have hother := otherwiseOf_eq closing
  simp only [Option.getD_none] at hexit hother
  rw [Command.code]
  cases step with
  | closeElse top form =>
    rw [form]
    exact .elsePart hexit.symm
  | closeFortil top form =>
    rw [form, ← hexit]
    exact .fortil
  | closeOther top form =>
    rcases form with form | form | ⟨start, form⟩ <;> rw [form, ← hexit]
    · exact .plain
    · exact .ifPart (hother.trans hexit.symm)
    · exact .whileLoop

theorem LineStep.spine_of_closeBlock {b : Block} {exit : Label}
    (step : LineStep sigs index line st (.closeBlock b exit) st') (noMethod : st.method = none) :
    st.spine = (b.line, b.form) :: st'.spine := by
  cases step with
  | closeElse top _ | closeFortil top _ | closeOther top _ =>
    exact BodyState.spine_of_top noMethod top

/-- A loop counts in the first register that no loop around it uses. -/
theorem LoopsCounted.register_eq (loops : LoopsCounted st) (noMethod : st.method = none) {n : Nat}
    {r : Register} {s : Supply} (taken : (st.withLabels n).supply.takeRegister = .ok (r, s)) :
    r = ⟨loopDepth st.spine⟩ := by
  obtain ⟨⟨next, -⟩, -⟩ := Supply.takeRegister_eq_ok taken
  have last : (st.withLabels n).supply.lastRegister = _ := loops.last
  rw [last, ← BodyState.loopDepth_spine noMethod, Int.sub_add_cancel] at next
  cases r
  exact congrArg Register.mk next

/-- A line outside methods adds its command to what is to come. -/
theorem Spine.step (step : LineStep sigs index line st c st') (noMethod : st.method = none)
    (main : ∀ m, c ≠ .openMethod m)
    (closing : ∀ line cl, c.closing? line = some cl → p.closing? line = some cl)
    (placed : ∀ v ∈ st.live, v.Placed) (placed' : ∀ v ∈ st'.live, v.Placed)
    (loops : LoopsCounted st) (symbol : String) (spine : Spine p st'.spine levels ls) :
    Spine p st.spine (c.nest levels) (c.code p none symbol index ++ ls) := by
  have ready {v : Value} {n : Nat} (read : Reads sigs st v n) : v.Ready :=
    ⟨_, read.wellFormed, placed⟩
  have closed {b : Block} {exit : Label} (hc : c = .closeBlock b exit) :
      Spine p st.spine (c.nest levels) (c.code p none symbol index ++ ls) := by
    subst hc
    rw [step.spine_of_closeBlock noMethod]
    exact spine.closeBlock (step.closes (closing _ _ (if_pos rfl)) symbol)
  cases step with
  | empty | interrupt => exact spine
  | @declaration v s new =>
    rw [BodyState.spine_add] at spine
    show Spine p _ _ ([_] ++ ls)
    exact spine.silent (List.forall_mem_singleton.mpr (v.isSilent_directive symbol))
  | @initialized v s a n new initial =>
    have spine : Spine p ((st.withSupply s).add v).spine levels ls := spine
    rw [BodyState.spine_add] at spine
    have assigned := spine.assign ⟨_, initial.wellFormed, placed'⟩
    have same : (Command.assignment a).nest levels = (Command.declaration v (some a)).nest levels := by
      cases levels <;> rfl
    rw [same] at assigned
    show Spine p _ _ ([_] ++ (a.code ++ ls))
    exact assigned.silent (List.forall_mem_singleton.mpr (v.isSilent_directive symbol))
  | assignment assigned => exact spine.assign ⟨_, assigned.wellFormed, placed⟩
  | value read => exact spine.value (ready read)
  | openBlock =>
    rw [BodyState.spine_withBlock noMethod] at spine
    exact spine.openBlock
  | openIf read kind =>
    rw [BodyState.spine_withBlock (by exact noMethod)] at spine
    exact spine.openIf (ready read) kind
  | @openElse b outer top form =>
    have found := closing b.line _ (if_pos rfl)
    have otherwise : p.otherwiseOf b.line = .jump (st.supply.labels + 2) := otherwiseOf_eq found
    rw [BodyState.spine_withBlock (by exact noMethod)] at spine
    rw [BodyState.spine_of_top noMethod top, form, Command.code, ← otherwise]
    exact spine.openElse (exitOf_eq found)
  | openWhile read kind =>
    rw [BodyState.spine_withBlock (by exact noMethod)] at spine
    exact spine.openWhile (ready read) kind
  | @openFortil limit n r s read kind taken =>
    obtain rfl := loops.register_eq noMethod taken
    rw [BodyState.spine_withBlock (by exact noMethod)] at spine
    exact spine.openFortil (ready read) kind
  | closeElse | closeFortil | closeOther => exact closed rfl
  | leave top =>
    rw [BodyState.spine_of_top noMethod top] at spine ⊢
    exact spine.leave
  | openMethod => exact absurd rfl (main _)
  | closeMethod inside _ | giveBack inside | giveBackValue inside _ =>
    rw [noMethod] at inside
    cases inside
  | sleep read kind => exact spine.sleep (ready read) ..

/-! ### Lines inside methods are left out -/

theorem Command.methodHere_of_ne (notFirst : ∀ m, c ≠ .openMethod m) (method : Option Method) :
    c.methodHere method = method := by
  cases c <;> first | rfl | exact absurd rfl (notFirst _)

theorem Command.methodAfter_of_ne (notLast : ∀ m vs, c ≠ .closeMethod m vs)
    (method : Option Method) : c.methodAfter method = method := by
  cases c <;> first | rfl | exact absurd rfl (notLast _ _)

/-- The method that the code of a line stands in is open exactly if one is open
in the state. -/
theorem LineStep.isSome_methodAfter (step : LineStep sigs index line st c st')
    {method : Option Method} (same : method.isSome = st.method.isSome) :
    (c.methodAfter (c.methodHere method)).isSome = st'.method.isSome := by
  have added (st : BodyState) (v : Variable) : (st.add v).method.isSome = st.method.isSome := by
    obtain ⟨_, _, blocks, method⟩ := st
    cases blocks with
    | cons b outer => rfl
    | nil => cases method <;> rfl
  cases step with
  | @declaration v s _ => exact same.trans (added (st.withSupply s) v).symm
  | @initialized v s _ _ _ _ => exact same.trans (added (st.withSupply s) v).symm
  | openMethod | closeMethod => rfl
  | _ => exact same

/-- No block of the main program is open around a line that stands in a method. -/
theorem LineStep.spine_eq_nil (step : LineStep sigs index line st c st')
    {method : Option Method} (same : method.isSome = st.method.isSome)
    (inside : (c.methodHere method).isSome = true) : st.spine = [] ∧ st'.spine = [] := by
  have nothing {st : BodyState} (h : st.method.isSome = true) : st.spine = [] := by
    obtain ⟨m, hm⟩ := Option.isSome_iff_exists.mp h
    rw [BodyState.spine, hm]
  have behind := step.isSome_methodAfter same
  cases step with
  | openMethod _ _ _ noMethod noBlock =>
    rw [BodyState.spine_of_noMethod noMethod, noBlock]
    exact ⟨rfl, rfl⟩
  | closeMethod inside noBlock =>
    refine ⟨nothing (same.symm.trans (by assumption)), ?_⟩
    rw [BodyState.spine_of_noMethod rfl]
    exact congrArg _ noBlock
  | _ => exact ⟨nothing (same.symm.trans inside), nothing (behind.symm.trans inside)⟩

/-- A line that stands in no method leaves none open. -/
theorem LineStep.method_eq_none (step : LineStep sigs index line st c st')
    {method : Option Method} (same : method.isSome = st.method.isSome)
    (outside : c.methodHere method = none) :
    st.method = none ∧ st'.method = none ∧ ∀ m, c ≠ .openMethod m := by
  have main : ∀ m, c ≠ .openMethod m := by
    rintro m rfl
    cases outside
  have before : method = none := by
    cases c with
    | openMethod m => exact absurd rfl (main m)
    | _ => exact outside
  have after : c.methodAfter none = none := by cases c <;> rfl
  have behind := step.isSome_methodAfter same
  rw [outside, after] at behind
  rw [before] at same
  have closed {m : Option OpenMethod} (h : (none : Option Method).isSome = m.isSome) : m = none :=
    Option.not_isSome_iff_eq_none.mp (by rw [← h]; simp)
  exact ⟨closed same, closed behind, main⟩

/-- The lines of a program that stand in no method. -/
theorem LineStep.outsideMethods_cons (step : LineStep sigs index line st c st')
    {method : Option Method} (same : method.isSome = st.method.isSome) (cs : List Command) :
    outsideMethods st.method.isSome (c :: cs) =
      if (c.methodHere method).isSome then outsideMethods st'.method.isSome cs
      else c :: outsideMethods st'.method.isSome cs := by
  rw [← step.isSome_methodAfter same, ← same]
  cases step with
  | closeMethod inside _ =>
    have inside : method.isSome = true := by
      rw [same, inside]
      rfl
    exact (if_pos inside).symm
  | _ => rfl

end

theorem echo_silent (o : Options) (source : Text) : ∀ l ∈ echo o source, l.isSilent = true := by
  unfold echo
  simp only
  split
  · exact List.forall_mem_singleton.mpr rfl
  · simp

/-- From any line on, what is to come outside methods is code for the blocks that
are open there. -/
theorem LineRun.spine {sigs : Signatures} {index : Nat} {lines : List Text} {st st' : BodyState}
    {cs : List Command} {p : Program} (o : Options) (noInterrupts : p.interrupts = [])
    (run : LineRun sigs index st lines cs st') (noBlock : st'.blocks = [])
    (noMethod : st'.method = none) :
    ∀ {globals : List Variable} (method : Option Method) (used : List String) (sources : List Text),
      Tidy sigs (Supply.usage {}) globals st → LoopsCounted st →
      (∀ c ∈ cs, ∀ line cl, c.closing? line = some cl → p.closing? line = some cl) →
      sources.length = cs.length → method.isSome = st.method.isSome →
      Spine p st.spine (levelsOf st.method.isSome cs)
        (((pieces p o method used index (cs.zip sources)).filter (!·.inMethod)).flatMap (·.lines)) := by
  induction run with
  | nil =>
    intro _ _ _ _ _ _ _ _ _
    rw [BodyState.spine_of_noMethod noMethod, noBlock, noMethod]
    exact .base .done
  | @cons index st st₁ st' line lines c cs step rest ih =>
    intro globals method used sources tidy loops closing length same
    obtain ⟨source, sources, rfl⟩ : ∃ a as, sources = a :: as :=
      List.exists_cons_of_length_eq_add_one length
    have tidy₁ := tidy.step step
    have behind := ih noBlock noMethod (c.methodAfter (c.methodHere method))
      (c.nextSymbol p.declaredNames used).2 sources tidy₁ (loops.step step)
      (fun c' hc' => closing c' (List.mem_cons_of_mem c hc')) (Nat.succ.inj length)
      (step.isSome_methodAfter same)
    rw [List.zip_cons_cons, pieces, levelsOf, step.outsideMethods_cons same]
    by_cases inside : (c.methodHere method).isSome = true
    · obtain ⟨here, next⟩ := step.spine_eq_nil same inside
      rw [next] at behind
      rw [here, if_pos inside, List.filter_cons_of_neg (by simp [inside])]
      exact behind
    · have here : c.methodHere method = none := Option.not_isSome_iff_eq_none.mp inside
      obtain ⟨outside, outside₁, main⟩ := step.method_eq_none same here
      have added := Spine.step step outside main (closing c List.mem_cons_self)
        (tidy.placed outside) (tidy₁.placed outside₁) loops
        (c.nextSymbol p.declaredNames used).1 behind
      have unguarded : p.guards o none = false := by simp [Program.guards, noInterrupts]
      rw [if_neg inside, List.filter_cons_of_pos (by simp [inside]), List.flatMap_cons]
      simp only [here, unguarded, Bool.false_and, guarded, List.append_assoc] at added ⊢
      exact added.silent (echo_silent o source)

end Micro51
