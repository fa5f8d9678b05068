/- # The code of a program fits its ledger

Between two commands, a section has on the stack what it owes and nothing else,
and every label of a block stands between two commands. `Poised` says what the
lines to come in a section need for that, while blocks are open; each line keeps
it. So the lines of each section fit, and with the frame around them the whole
code does.

Key definitions: `Meets`, `Poised`, `Sealed`, `Upcoming`, `Secure`.
Key theorems: `LineStep.poised`, `Upcoming.step`, `LineRun.upcoming`,
`Program.checked`.
-/
import Micro51.Proofs.Neutral
import Micro51.Proofs.Sections

namespace Micro51

/-! ### What the lines to come need -/

/-- The label stands between commands: there, all that is owed lies on the stack,
and nothing else. -/
def Meets (owes : Label → List Int) (o : Option (List Int)) (lines : List Line) (l : Label) : Prop :=
  ∀ h : Ledger, h.shape = .base o → (l, .base o) ∈ marks owes h lines

/-- Lines to come inside open blocks, in a section that owes `o`: the labels
behind the blocks stand between commands, and the lines fit if the loops that are
open begin between commands. The main program ends as it began. -/
structure Poised (p : Program) (o : Option (List Int)) (frames : List (Nat × BlockForm))
    (lines : List Line) : Prop where
  exits : ∀ f ∈ frames, Meets p.owes o lines (p.exitOf f.1)
  others : ∀ f ∈ frames, f.2 = .ifPart → Meets p.owes o lines (p.otherwiseOf f.1)
  shared : ∀ f ∈ frames, ∀ ifLine exit, f.2 = .elsePart ifLine exit → p.exitOf f.1 = exit
  fits : ∀ (h : Ledger) (M : List (Label × StackShape)), h.shape = .base o →
    marks p.owes h lines ⊆ M → (∀ t ∈ frames.filterMap (·.2.top?), (t, .base o) ∈ M) →
    Fits p.owes M h lines
  level : o = none → ∀ h : Ledger, h.shape = .base o → (h.after p.owes lines).shape = .base o

theorem Meets.behind {owes : Label → List Int} {o : Option (List Int)} {outs : List Label}
    {code ls : List Line} {l : Label} (h : Meets owes o ls l) (front : Front owes o outs code) :
    Meets owes o (code ++ ls) l := by
  intro h₀ shape
  rw [marks_append]
  exact List.mem_append_right _ (h _ (front.level h₀ shape))

theorem Meets.before {owes : Label → List Int} {o : Option (List Int)} {code : List Line}
    {l : Label} (h : Meets owes o code l) (ls : List Line) : Meets owes o (code ++ ls) l := by
  intro h₀ shape
  rw [marks_append]
  exact List.mem_append_left _ (h h₀ shape)

/-- The labels of lines that do not touch the stack stand between commands if the
lines do. -/
theorem Meets.of_isLevel {owes : Label → List Int} {o : Option (List Int)} {code : List Line}
    {l : Label} (level : ∀ x ∈ code, x.isLevel = true) (hl : l ∈ definedLabels code) :
    Meets owes o code l := by
  intro h shape
  rw [marks_of_isLevel level, shape]
  exact List.mem_map_of_mem hl

namespace Poised

variable {p : Program} {o : Option (List Int)} {f : Nat × BlockForm} {fs : List (Nat × BlockForm)}
  {outs : List Label} {code ls : List Line}

theorem nil : Poised p o [] [] :=
  ⟨by simp, by simp, by simp, fun _ _ _ _ _ => trivial, fun _ _ => id⟩

/-- The main program ends as it began, with code in front too. -/
theorem level_append (h : Poised p o fs ls) (front : Front p.owes o outs code) (main : o = none)
    (h₀ : Ledger) (shape : h₀.shape = .base o) :
    (h₀.after p.owes (code ++ ls)).shape = .base o := by
  rw [Ledger.after_append]
  exact h.level main _ (front.level h₀ shape)

/-- Code in front that jumps to labels between commands. -/
theorem prepend (h : Poised p o fs ls) (front : Front p.owes o outs code)
    (out : ∀ l ∈ outs, Meets p.owes o (code ++ ls) l) : Poised p o fs (code ++ ls) where
  exits g hg := (h.exits g hg).behind front
  others g hg form := (h.others g hg form).behind front
  shared := h.shared
  fits h₀ M shape own tops := by
    have outside (l : Label) (hl : l ∈ outs) : (l, .base o) ∈ M := own (out l hl h₀ shape)
    rw [marks_append, List.append_subset] at own
    exact (fits_append ..).mpr ⟨front.fits h₀ M shape own.1 outside,
      h.fits _ M (front.level h₀ shape) own.2 tops⟩
  level := h.level_append front

theorem straight (h : Poised p o fs ls) (neutral : Neutral p.owes [] code) :
    Poised p o fs (code ++ ls) :=
  h.prepend (neutral.front o) (by simp)

/-- Code in front that opens the innermost block: a loop gets its label there. -/
theorem opening (h : Poised p o (f :: fs) ls) (front : Front p.owes o outs code)
    (top : ∀ t ∈ f.2.top?, Meets p.owes o (code ++ ls) t)
    (out : ∀ l ∈ outs, Meets p.owes o (code ++ ls) l) : Poised p o fs (code ++ ls) := by
  obtain ⟨exits, others, shared, fits, level⟩ := h.prepend front out
  refine ⟨fun g hg => exits g (List.mem_cons_of_mem _ hg),
    fun g hg => others g (List.mem_cons_of_mem _ hg),
    fun g hg => shared g (List.mem_cons_of_mem _ hg), fun h₀ M shape own tops => ?_, level⟩
  refine fits h₀ M shape own fun t ht => ?_
  obtain ⟨g, hg, hgt⟩ := List.mem_filterMap.mp ht
  rcases List.mem_cons.mp hg with rfl | hg
  · exact own (top t hgt h₀ shape)
  · exact tops t (List.mem_filterMap.mpr ⟨g, hg, hgt⟩)

/-- Code in front that closes a block: the block is open before it. -/
theorem closing (h : Poised p o fs ls) (front : Front p.owes o outs code)
    (exit : Meets p.owes o (code ++ ls) (p.exitOf f.1))
    (other : f.2 = .ifPart → Meets p.owes o (code ++ ls) (p.otherwiseOf f.1))
    (shared : ∀ ifLine exit, f.2 = .elsePart ifLine exit → p.exitOf f.1 = exit)
    (out : ∀ l ∈ outs, Meets p.owes o (code ++ ls) l ∨ l ∈ f.2.top?) :
    Poised p o (f :: fs) (code ++ ls) where
  exits := List.forall_mem_cons.mpr ⟨exit, fun g hg => (h.exits g hg).behind front⟩
  others := List.forall_mem_cons.mpr ⟨other, fun g hg form => (h.others g hg form).behind front⟩
  shared := List.forall_mem_cons.mpr ⟨shared, h.shared⟩
  fits h₀ M shape own tops := by
    have outside (l : Label) (hl : l ∈ outs) : (l, .base o) ∈ M := by
      rcases out l hl with meets | top
      · exact own (meets h₀ shape)
      · exact tops l (List.mem_filterMap.mpr ⟨f, List.mem_cons_self, top⟩)
    rw [marks_append, List.append_subset] at own
    refine (fits_append ..).mpr ⟨front.fits h₀ M shape own.1 outside,
      h.fits _ M (front.level h₀ shape) own.2 fun t ht => tops t ?_⟩
    exact ((List.sublist_cons_self f fs).filterMap _).subset ht
  level := h.level_append front

end Poised

/-! ### One line after the other -/

theorem Numbered.isJump {n m : Nat} {ls : List Label} (h : Numbered n ls m) :
    ∀ l ∈ ls, l.isJump = true := by
  intro l hl
  obtain ⟨k, rfl⟩ := h.nodup.2 l hl
  rfl

theorem Neutral.guarded {owes : Label → List Int} {code : List Line} (h : Neutral owes [] code)
    (on : Bool) : Neutral owes [] (guarded on code) := by
  have guard (i : Instr) (level : i.isLevel = true) (jump : i.jump? = none) :
      Neutral owes [] [.code i] :=
    .of_isLevel (List.forall_mem_singleton.mpr level) (by simp [jump])
  cases on with
  | false => exact h
  | true =>
    exact ((guard (.clr enableAll) rfl rfl).append h).append (guard (.setb enableAll) rfl rfl)

/-- A single jump. -/
theorem Neutral.jump (owes : Label → List Int) {i : Instr} {l : Label} (level : i.isLevel = true)
    (target : i.jump? = some l) : Neutral owes [l] [.code i] :=
  .of_isLevel (List.forall_mem_singleton.mpr level) (by simp [target])

namespace Poised

variable {p : Program} {o : Option (List Int)} {fs : List (Nat × BlockForm)} {ls : List Line}
  {index n : Nat} {v : Value} (method : Option Method) (symbol : String)

theorem openBlock {form : BlockForm} (h : Poised p o ((index, form) :: fs) ls)
    (plain : form.top? = none) : Poised p o fs ls := by
  have nothing : Front p.owes o [] [] := ⟨fun _ => id, fun _ _ _ _ _ => trivial⟩
  exact h.opening nothing (by simp [plain]) (by simp)

theorem openIf (h : Poised p o ((index, .ifPart) :: fs) ls) (value : Neutral p.owes [] v.code) :
    Poised p o fs ((Command.openIf v).code p method symbol index ++ ls) := by
  have front := (value.jumping (.jump p.owes (i := .jnb accBit (p.otherwiseOf index)) rfl rfl)).front o
  refine h.opening front (by simp [BlockForm.top?]) ?_
  exact List.forall_mem_singleton.mpr ((h.others _ List.mem_cons_self rfl).behind front)

theorem openWhile (h : Poised p o ((index, .whileLoop (.jump n)) :: fs) ls)
    (value : Neutral p.owes [] v.code) :
    Poised p o fs ((Command.openWhile v (.jump n)).code p method symbol index ++ ls) := by
  have label : ∀ x ∈ [Line.label (.jump n)], x.isLevel = true := by
    simp [Label.isJump]
  have start : Neutral p.owes [] [.label (.jump n)] := .of_isLevel label (by simp)
  have front := ((start.append value).jumping
    (.jump p.owes (i := .jnb accBit (p.exitOf index)) rfl rfl)).front o
  refine h.opening front (fun t ht => ?_) ?_
  · cases ht
    exact (Meets.of_isLevel label (by simp)).before _
  · exact List.forall_mem_singleton.mpr ((h.exits _ List.mem_cons_self).behind front)

theorem openFortil {r : Register} (h : Poised p o ((index, .fortil r (.jump n)) :: fs) ls)
    (value : Neutral p.owes [] v.code) :
    Poised p o fs ((Command.openFortil v r (.jump n)).code p method symbol index ++ ls) := by
  have level : ∀ x ∈ [Line.code (.mov (.register r) (.place .acc)), .code (.jz (p.exitOf index)),
      .label (.jump n)], x.isLevel = true := by
    simp [Instr.isLevel, Instr.address?, Label.isJump]
  have last : Neutral p.owes [p.exitOf index] [.code (.mov (.register r) (.place .acc)),
      .code (.jz (p.exitOf index)), .label (.jump n)] :=
    .of_isLevel level (by simp [Instr.jump?])
  have front := (value.jumping last).front o
  refine h.opening front (fun t ht => ?_) ?_
  · cases ht
    exact ((Meets.of_isLevel level (by simp)).behind (value.front o)).before ls
  · exact List.forall_mem_singleton.mpr ((h.exits _ List.mem_cons_self).behind front)

/-- An `else` closes the part before it; the label behind the whole is the one
behind the part that begins here. -/
theorem openElse {b : Block} {k : Nat} (h : Poised p o ((index, .elsePart b.line (.jump n)) :: fs) ls)
    (form : b.form = .ifPart) (hexit : p.exitOf b.line = .jump n)
    (hother : p.otherwiseOf b.line = .jump k) :
    Poised p o ((b.line, b.form) :: fs)
      ((Command.openElse b (.jump n) (.jump k)).code p method symbol index ++ ls) := by
  have exit : Meets p.owes o ls (.jump n) := by
    rw [← h.shared _ List.mem_cons_self _ _ rfl]
    exact h.exits _ List.mem_cons_self
  have level : ∀ x ∈ [Line.code (.jmp (.jump n)), .label (.jump k)], x.isLevel = true := by
    simp [Instr.isLevel, Instr.address?, Label.isJump]
  have front : Front p.owes o [.jump n] [.code (.jmp (.jump n)), .label (.jump k)] :=
    (Neutral.of_isLevel level (by simp [Instr.jump?])).front o
  refine (h.openBlock rfl).closing front ?_ (fun _ => ?_) (fun _ _ form' => ?_) fun l hl => .inl ?_
  · rw [hexit]
    exact exit.behind front
  · rw [hother]
    exact (Meets.of_isLevel level (by simp)).before ls
  · rw [form] at form'
    cases form'
  · rw [List.mem_singleton.mp hl]
    exact exit.behind front

end Poised

section

variable {sigs : Signatures} {index : Nat} {line : Text} {st st' : BodyState} {c : Command}
  {p : Program} {ls : List Line} {o : Option (List Int)}

/-- The code of a closing line closes its block. -/
theorem LineStep.poised_closeBlock {b : Block} {exit : Label}
    (step : LineStep sigs index line st (.closeBlock b exit) st')
    (closing : p.closing? b.line = some ⟨exit, none, b.locals⟩)
    (owed : ∀ l ∈ st.owedLabels, l.isJump = true) (method : Option Method) (symbol : String)
    (h : Poised p o st'.frames ls) :
    Poised p o st.frames ((Command.closeBlock b exit).code p method symbol index ++ ls) := by
  have hexit : p.exitOf b.line = exit := exitOf_eq closing
  have hother : p.otherwiseOf b.line = exit := otherwiseOf_eq closing
  have jump : exit.isJump = true := by
    cases step with
    | closeElse top form =>
      refine owed exit ?_
      simp [BodyState.owedLabels_of_top top, form, BlockForm.owed?]
    | closeFortil | closeOther => rfl
  have level : ∀ x ∈ (Command.closeBlock b exit).code p method symbol index, x.isLevel = true := by
    cases form : b.form <;> simp [Command.code, form, jump, Instr.isLevel, Instr.address?]
  have front : Neutral p.owes b.form.top?.toList
      ((Command.closeBlock b exit).code p method symbol index) :=
    .of_isLevel level fun l hl => .inr (Command.jumpTargets_closeBlock .. ▸ hl)
  have meets : Meets p.owes o ((Command.closeBlock b exit).code p method symbol index ++ ls) exit :=
    (Meets.of_isLevel level (by simp [Command.definedLabels_closeBlock])).before ls
  rw [step.frames_closeBlock]
  refine h.closing (front.front o) ?_ (fun _ => ?_)
    (fun _ _ form => hexit.trans (step.exit_of_elsePart form)) fun l hl => .inr ?_
  · rw [hexit]
    exact meets
  · rw [hother]
    exact meets
  · exact Option.mem_toList.mp hl

/-- **Every line keeps what is to come poised.** -/
theorem LineStep.poised (step : LineStep sigs index line st c st')
    (closing : ∀ line cl, c.closing? line = some cl → p.closing? line = some cl)
    (notFirst : ∀ m, c ≠ .openMethod m) (notLast : ∀ m vs, c ≠ .closeMethod m vs)
    {method : Option Method} (same : method.isSome = st.method.isSome)
    (clear : ∀ m, Target.sp ∉ p.context m) (before : Scope.Placed ⟨sigs.methods, st.live⟩)
    (behind : Scope.Placed ⟨sigs.methods, st'.live⟩) (owed : ∀ l ∈ st.owedLabels, l.isJump = true)
    (symbol : String) {on : Bool} (unguarded : c.isStraight = false → on = false)
    (h : Poised p (method.map p.context) st'.frames ls) :
    Poised p (method.map p.context) st.frames
      (guarded on (c.code p method symbol index) ++ ls) := by
  have value {v : Value} {n : Nat} (read : Reads sigs st v n) : Neutral p.owes [] v.code :=
    Value.neutral_code before read.wellFormed read.numbered.isJump
  have directive (v : Variable) : Neutral p.owes [] [v.directive symbol] := by
    refine .of_selfContained ?_ (v.plain_directive symbol).selfContained
    unfold Variable.directive
    cases v.kind <;> exact List.forall_mem_singleton.mpr rfl
  have closed {b : Block} {exit : Label} (hc : c = .closeBlock b exit) :
      Poised p (method.map p.context) st.frames (guarded on (c.code p method symbol index) ++ ls) := by
    subst hc
    obtain rfl := unguarded rfl
    exact step.poised_closeBlock (closing _ _ (if_pos rfl)) owed method symbol h
  have back (inside : st.method.isSome = true) :
      Front p.owes (method.map p.context) [] (p.returnCode method) := by
    obtain ⟨m, rfl⟩ := Option.isSome_iff_exists.mp (same.trans inside)
    exact (p.front_returnCode (clear m) p.owes).1
  cases step with
  | empty | interrupt =>
    obtain rfl := unguarded rfl
    exact h
  | @declaration v s new =>
    obtain rfl := unguarded rfl
    rw [BodyState.frames_add] at h
    exact h.straight (directive v)
  | @initialized v s a n new initial =>
    have h : Poised p (method.map p.context) ((st.withSupply s).add v).frames ls := h
    rw [BodyState.frames_add] at h
    have assigned : Neutral p.owes [] a.code :=
      Assignment.neutral_code behind initial.wellFormed initial.value.numbered.isJump
    exact h.straight (((directive v).append assigned).guarded on)
  | assignment assigned =>
    have neutral : Neutral p.owes [] _ :=
      Assignment.neutral_code before assigned.wellFormed assigned.value.numbered.isJump
    exact h.straight (neutral.guarded on)
  | value read => exact h.straight ((value read).guarded on)
  | openBlock =>
    obtain rfl := unguarded rfl
    exact h.openBlock rfl
  | openIf read kind =>
    obtain rfl := unguarded rfl
    exact h.openIf method symbol (value read)
  | openElse top form =>
    obtain rfl := unguarded rfl
    have found := closing _ _ (if_pos rfl)
    rw [BodyState.frames_of_top top]
    exact h.openElse method symbol form (exitOf_eq found) (otherwiseOf_eq found)
  | openWhile read kind =>
    obtain rfl := unguarded rfl
    exact h.openWhile method symbol (value read)
  | openFortil read kind taken =>
    obtain rfl := unguarded rfl
    exact h.openFortil method symbol (value read)
  | closeElse | closeFortil | closeOther => exact closed rfl
  | @leave b outer top =>
    obtain rfl := unguarded rfl
    have front := (Neutral.jump p.owes (i := .jmp (p.exitOf b.line)) rfl rfl).front
      (method.map p.context)
    refine h.prepend front (List.forall_mem_singleton.mpr (Meets.behind ?_ front))
    refine h.exits (b.line, b.form) ?_
    rw [BodyState.frames_of_top top]
    exact List.mem_cons_self
  | openMethod => exact absurd rfl (notFirst _)
  | closeMethod => exact absurd rfl (notLast _ _)
  | giveBack inside =>
    obtain rfl := unguarded rfl
    exact h.prepend (back (by rw [inside]; rfl)) (by simp)
  | giveBackValue inside read =>
    obtain rfl := unguarded rfl
    exact h.prepend (((value read).front _).append (back (by rw [inside]; rfl))) (by simp)
  | @sleep v n read kind =>
    obtain rfl := unguarded rfl
    have loops : Neutral p.owes [] (sleepLoops (.jump (n + 1)) (.jump (n + 2)) (.jump (n + 3))) := by
      refine .of_selfContained ?_ (selfContained_sleepLoops ..)
      simp [sleepLoops, Instr.isLevel, Instr.address?, Label.isJump, regB, Target.b, Target.acc,
        Target.sp]
    exact h.straight ((value read).append loops)

end

/-! ### Sections -/

/-- Lines that fit where nothing runs into them from above. -/
def Sealed (p : Program) (lines : List Line) : Prop :=
  ∀ (h : Ledger) (M : List (Label × StackShape)), h.live = false → marks p.owes h lines ⊆ M →
    Fits p.owes M h lines

/-- The lines to come in their sections: `main` of the main program, `rest` of
methods, among them first those of the method that is open, if one is. -/
inductive Upcoming (p : Program) (frames : List (Nat × BlockForm)) :
    Option Method → List Line → List Line → Prop where
  | outside {main rest : List Line} (pending : Poised p none frames main)
      (closed : Sealed p rest) : Upcoming p frames none main rest
  | inside {m : Method} {main rest : List Line} (pending : Poised p none [] main)
      (open_ : Poised p (some (p.context m)) frames rest) : Upcoming p frames (some m) main rest

section

variable {p : Program} {xs ls : List Line} {m : Method}

theorem Sealed.comments (h : Sealed p ls) (comments : ∀ x ∈ xs, ∃ t, x = .comment t) :
    Sealed p (xs ++ ls) := by
  induction xs with
  | nil => exact h
  | cons x xs ih =>
    obtain ⟨⟨t, rfl⟩, rest⟩ := List.forall_mem_cons.mp comments
    exact fun h₀ M dead own => ⟨trivial, ih rest h₀ M dead own⟩

/-- The entry of a method puts on the stack what the method owes. -/
theorem Sealed.entry {n : Nat} (label : m.label = .method n) (owes : p.owes m.label = p.context m)
    (h : Poised p (some (p.context m)) [] ls) (method : Option Method) (symbol : String)
    (index : Nat) : Sealed p ((Command.openMethod m).code p method symbol index ++ ls) := by
  intro h₀ M dead own
  rw [Program.code_openMethod, List.cons_append] at own ⊢
  have entered : h₀.next p.owes (.label m.label) =
      ⟨⟨some (p.context m), []⟩, p.context m, true⟩ := by
    rw [← owes, label]
    rfl
  have saved := Ledger.after_pushes p.owes (p.context m)
    ⟨⟨some (p.context m), []⟩, p.context m, true⟩ (List.Subset.refl _)
  refine ⟨.inr dead, ?_⟩
  rw [entered]
  refine (fits_append ..).mpr ⟨.pushes _ _, h.fits _ M ?_ ?_ (by simp)⟩
  · rw [saved]
    simp [StackShape.base]
  · rw [marks, entered, marks_append] at own
    exact (List.append_subset.mp (List.append_subset.mp own).2).2

/-- The last return of a method. -/
theorem Poised.last (closed : Sealed p ls) (clear : Target.sp ∉ p.context m) :
    Poised p (some (p.context m)) [] (p.returnCode (some m) ++ ls) := by
  obtain ⟨front, dead⟩ := p.front_returnCode clear p.owes
  refine ⟨by simp, by simp, by simp, fun h M shape own _ => ?_, by simp⟩
  rw [marks_append, List.append_subset] at own
  exact (fits_append ..).mpr ⟨front.fits h M shape own.1 (by simp),
    closed _ M (dead h shape) own.2⟩

theorem neutral_echo (owes : Label → List Int) (o : Options) (source : Text) :
    Neutral owes [] (echo o source) := by
  refine .of_selfContained (fun x hx => ?_) (plain_echo o source).selfContained
  obtain ⟨t, rfl⟩ := mem_echo hx
  rfl

end

section

variable {sigs : Signatures} {index : Nat} {line : Text} {st st' : BodyState} {c : Command}
  {p : Program} {main rest : List Line}

/-- The entry of a method: above it, another section ends. -/
theorem Upcoming.openMethod {m : Method} {n : Nat} (label : m.label = .method n)
    (owes : p.owes m.label = p.context m) (h : Upcoming p [] (some m) main rest) (o : Options)
    (source : Text) (symbol : String) (index : Nat) :
    Upcoming p [] none main
      (echo o source ++ ((Command.openMethod m).code p (some m) symbol index ++ rest)) := by
  cases h with
  | inside pending open_ =>
    have entered := Sealed.entry label owes open_ (some m) symbol index
    exact .outside pending (entered.comments fun _ => mem_echo)

/-- The end of a method is its last return. -/
theorem Upcoming.closeMethod {m : Method} (clear : Target.sp ∉ p.context m)
    (h : Upcoming p [] none main rest) (o : Options) (source : Text) :
    Upcoming p [] (some m) main (echo o source ++ (p.returnCode (some m) ++ rest)) := by
  cases h with
  | outside pending closed =>
    exact .inside pending ((Poised.last closed clear).straight (neutral_echo p.owes o source))

/-- A line puts its code in front of the section it stands in. -/
theorem Upcoming.step (step : LineStep sigs index line st c st')
    (closing : ∀ line cl, c.closing? line = some cl → p.closing? line = some cl)
    {method : Option Method} (same : method.isSome = st.method.isSome)
    (clear : ∀ m, Target.sp ∉ p.context m)
    (entry : ∀ m ∈ c.opened, p.owes m.label = p.context m ∧ ∃ n, m.label = .method n)
    (before : Scope.Placed ⟨sigs.methods, st.live⟩) (behind : Scope.Placed ⟨sigs.methods, st'.live⟩)
    (owed : ∀ l ∈ st.owedLabels, l.isJump = true) (o : Options) (symbol : String) (source : Text)
    {on : Bool} (unguarded : c.isStraight = false → on = false)
    (h : Upcoming p st'.frames (c.methodAfter (c.methodHere method)) main rest) :
    let code := echo o source ++ guarded on (c.code p (c.methodHere method) symbol index)
    if (c.methodHere method).isSome
    then Upcoming p st.frames method main (code ++ rest)
    else Upcoming p st.frames method (code ++ main) rest := by
  intro code
  by_cases opens : ∃ m, c = .openMethod m
  · obtain ⟨m, rfl⟩ := opens
    obtain rfl := unguarded rfl
    obtain ⟨owes, n, label⟩ := entry m (List.mem_singleton.mpr rfl)
    cases step with
    | openMethod _ _ _ noMethod noBlock =>
      have frames := BodyState.frames_of_noBlock noBlock
      have frames' : (st.entering m).frames = [] := frames
      obtain rfl : method = none := by
        rw [noMethod] at same
        exact Option.not_isSome_iff_eq_none.mp (by simp [same])
      have inMethod : ((Command.openMethod m).methodHere none).isSome = true := rfl
      rw [frames'] at h
      rw [frames, if_pos inMethod, List.append_assoc]
      exact h.openMethod label owes o source symbol index
  · have notFirst : ∀ m, c ≠ .openMethod m := fun m hm => opens ⟨m, hm⟩
    have here := Command.methodHere_of_ne notFirst method
    rw [here] at h ⊢
    by_cases closes : ∃ m vs, c = .closeMethod m vs
    · obtain ⟨m, vs, rfl⟩ := closes
      obtain rfl := unguarded rfl
      cases step with
      | @closeMethod m inside noBlock =>
        have frames := BodyState.frames_of_noBlock noBlock
        have frames' : (st.returning m).frames = [] := frames
        obtain ⟨m', rfl⟩ : ∃ m', method = some m' := by
          rw [inside] at same
          exact Option.isSome_iff_exists.mp same
        have inMethod : (some m').isSome = true := rfl
        rw [frames'] at h
        rw [frames, if_pos inMethod, List.append_assoc]
        exact h.closeMethod (clear m') o source
    · have notLast : ∀ m vs, c ≠ .closeMethod m vs := fun m vs hm => closes ⟨m, vs, hm⟩
      rw [Command.methodAfter_of_ne notLast] at h
      have poised {ls : List Line} (hp : Poised p (method.map p.context) st'.frames ls) :
          Poised p (method.map p.context) st.frames (code ++ ls) := by
        show Poised p _ st.frames
          (echo o source ++ guarded on (c.code p (c.methodHere method) symbol index) ++ ls)
        rw [here, List.append_assoc]
        exact (step.poised closing notFirst notLast same clear before behind owed symbol
          unguarded hp).straight (neutral_echo p.owes o source)
      cases h with
      | outside pending closed =>
        rw [if_neg (by simp)]
        exact .outside (poised pending) closed
      | inside pending open_ =>
        rw [if_pos (Option.isSome_some)]
        exact .inside pending (poised open_)

end

/-! ### All lines -/

/-- The bound parameters are always those of a method of the signatures. -/
theorem LineStep.bound_subset {sigs : Signatures} {index : Nat} {line : Text} {st st' : BodyState}
    {c : Command} (step : LineStep sigs index line st c st') (bound : st.bound ⊆ sigs.parameters) :
    st'.bound ⊆ sigs.parameters := by
  cases step with
  | @declaration v s new =>
    rw [((st.withSupply s).add_others v).2.1]
    exact bound
  | @initialized v s a n new _ =>
    show ((st.withSupply s).add v).bound ⊆ _
    rw [((st.withSupply s).add_others v).2.1]
    exact bound
  | openMethod _ _ known =>
    intro v hv
    exact List.mem_flatMap.mpr ⟨_, List.mem_of_find?_eq_some known, hv⟩
  | closeMethod => exact List.nil_subset _
  | _ => exact bound

/-- What the reading keeps true that the stack depends on: no variable is where
the stack pointer is, and no label that is owed is an entry. -/
structure Secure (sigs : Signatures) (globals : List Variable) (st : BodyState) : Prop where
  tidy : Tidy sigs (Supply.usage {}) globals st
  bound : st.bound ⊆ sigs.parameters
  owed : ∀ l ∈ st.owedLabels, l.isJump = true

namespace Secure

variable {sigs : Signatures} {globals : List Variable} {st st' : BodyState} {index : Nat}
  {line : Text} {c : Command}

theorem placed (h : Secure sigs globals st) : Scope.Placed ⟨sigs.methods, st.live⟩ := by
  obtain ⟨parameters, live⟩ := h.tidy.placed_of_bound h.bound (by decide) (by decide)
  exact ⟨live, fun m hm v hv => parameters v (List.mem_flatMap.mpr ⟨m, hm, hv⟩)⟩

theorem step (h : Secure sigs globals st) (step : LineStep sigs index line st c st') :
    Secure sigs (globals ++ c.global st.depth) st' := by
  refine ⟨h.tidy.step step, step.bound_subset h.bound, fun l hl => ?_⟩
  obtain ⟨fresh, numbered, perm⟩ := step.jumpLabels_perm
  rcases List.mem_append.mp (perm.subset (List.mem_append_right _ hl)) with new | old
  · exact numbered.isJump l new
  · exact h.owed l old

end Secure

/-- A method that a line opens is one of the signatures. -/
theorem LineStep.opened_subset {sigs : Signatures} {index : Nat} {line : Text} {st st' : BodyState}
    {c : Command} (step : LineStep sigs index line st c st') : c.opened ⊆ sigs.methods := by
  cases step with
  | openMethod _ _ known => exact List.cons_subset.mpr ⟨List.mem_of_find?_eq_some known, by simp⟩
  | _ => exact List.nil_subset _

/-- From any line on, what is to come fits in its sections. -/
theorem LineRun.upcoming {sigs : Signatures} {index : Nat} {lines : List Text} {st st' : BodyState}
    {cs : List Command} {p : Program} (o : Options) (clear : ∀ m, Target.sp ∉ p.context m)
    (entry : ∀ m ∈ sigs.methods, p.owes m.label = p.context m ∧ ∃ n, m.label = .method n)
    (run : LineRun sigs index st lines cs st') (noBlock : st'.blocks = [])
    (noMethod : st'.method = none) :
    ∀ {globals : List Variable} (method : Option Method) (used : List String) (sources : List Text),
      Secure sigs globals st →
      (∀ c ∈ cs, ∀ line cl, c.closing? line = some cl → p.closing? line = some cl) →
      sources.length = cs.length → method.isSome = st.method.isSome →
      Upcoming p st.frames method
        (((pieces p o method used index (cs.zip sources)).filter (!·.inMethod)).flatMap (·.lines))
        (((pieces p o method used index (cs.zip sources)).filter (·.inMethod)).flatMap (·.lines)) := by
  induction run with
  | @nil _ st =>
    intro _ method _ _ _ _ _ same
    have frames := BodyState.frames_of_noBlock noBlock
    obtain rfl : method = none := by
      rw [noMethod] at same
      exact Option.not_isSome_iff_eq_none.mp (by simp [same])
    rw [frames]
    exact .outside .nil fun _ _ _ _ => trivial
  | @cons index st st₁ st' line lines c cs step rest ih =>
    intro globals method used sources secure closing length same
    obtain ⟨source, sources, rfl⟩ : ∃ a as, sources = a :: as :=
      List.exists_cons_of_length_eq_add_one length
    have secure₁ := secure.step step
    have behind := ih noBlock noMethod (c.methodAfter (c.methodHere method))
      (c.nextSymbol p.declaredNames used).2 sources secure₁
      (fun c' hc' => closing c' (List.mem_cons_of_mem c hc')) (Nat.succ.inj length)
      (step.isSome_methodAfter same)
    have added := Upcoming.step step (closing c List.mem_cons_self) same clear
      (fun m hm => entry m (step.opened_subset hm)) secure.placed secure₁.placed secure.owed o
      (c.nextSymbol p.declaredNames used).1 source
      (fun h => by rw [h, Bool.and_false] : c.isStraight = false →
        (p.guards o (c.methodHere method) && c.isStraight) = false) behind
    rw [List.zip_cons_cons, pieces]
    by_cases inside : (c.methodHere method).isSome = true
    · rw [if_pos inside] at added
      rw [List.filter_cons_of_neg (by simp [inside]), List.filter_cons_of_pos (by simp [inside]),
        List.flatMap_cons]
      exact added
    · rw [if_neg inside] at added
      rw [List.filter_cons_of_pos (by simp [inside]), List.filter_cons_of_neg (by simp [inside]),
        List.flatMap_cons]
      exact added

/-! ### The registers of loops -/

theorem Register.mem_bank {r : Register} :
    r ∈ bank ↔ 0 ≤ r.index ∧ r.index < Target.registerCount := by
  rw [bank, List.mem_map]
  constructor
  · rintro ⟨i, hi, rfl⟩
    have hi : i < 8 := List.mem_range.mp hi
    exact ⟨Int.natCast_nonneg i, Int.ofNat_lt.mpr hi⟩
  · rintro ⟨low, high⟩
    have high : r.index < 8 := high
    refine ⟨r.index.toNat, List.mem_range.mpr (show r.index.toNat < 8 by omega), ?_⟩
    exact congrArg Register.mk (Int.toNat_of_nonneg low)

/-- The registers that a handler saves are those of the loops anywhere in the
program. -/
theorem Program.mem_loopRegisters {p : Program} {r : Register} :
    r ∈ p.loopRegisters ↔ (0 ≤ r.index ∧ r.index < Target.registerCount) ∧
      ∃ limit top, .openFortil limit r top ∈ p.commands := by
  rw [loopRegisters, List.mem_filter, Register.mem_bank, List.contains_iff_mem, List.mem_filterMap]
  refine and_congr_right fun _ => ⟨?_, ?_⟩
  · rintro ⟨c, hc, found⟩
    cases c with
    | openFortil limit r' top =>
      cases found
      exact ⟨limit, top, hc⟩
    | _ => cases found
  · rintro ⟨limit, top, hc⟩
    exact ⟨_, hc, rfl⟩

/-- Loops count in the registers of bank 0. -/
theorem LineRun.register_range {sigs : Signatures} {index : Nat} {lines : List Text}
    {st st' : BodyState} {cs : List Command} (run : LineRun sigs index st lines cs st')
    (loops : LoopsCounted st) : ∀ limit r top, .openFortil limit r top ∈ cs →
      0 ≤ r.index ∧ r.index < Target.registerCount := by
  induction run with
  | nil => exact fun _ _ _ hc => absurd hc List.not_mem_nil
  | @cons index st st₁ st' line lines c cs step rest ih =>
    intro limit r top hc
    rcases List.mem_cons.mp hc with rfl | hc
    · cases step with
      | openFortil _ _ taken =>
        obtain ⟨⟨next, room⟩, -⟩ := Supply.takeRegister_eq_ok taken
        have next : r.index = st.supply.lastRegister + 1 := next
        have room : st.supply.lastRegister + 1 < Target.registerCount := room
        have last := loops.last
        omega
    · exact ih (loops.step step) limit r top hc

/-! ### The frame -/

section

variable (owes : Label → List Int) (M : List (Label × StackShape))

theorem isLevel_setup (b : Binding) : ∀ x ∈ b.setup, x.isLevel = true := by
  have level (i : Instr) (h : i.isLevel = true) : ∀ x ∈ [Line.code i], x.isLevel = true :=
    List.forall_mem_singleton.mpr h
  unfold Binding.setup
  refine List.forall_mem_append.mpr ⟨?_, by simp [Instr.isLevel, Instr.address?]; decide⟩
  split
  · exact level _ rfl
  · exact List.forall_mem_nil _

/-- The vector table is not run into. -/
theorem fits_vectorEntries (bs : List Binding) (h : Ledger) (dead : h.live = false) :
    Fits owes M h (bs.flatMap Binding.vectorEntry) ∧
      (h.after owes (bs.flatMap Binding.vectorEntry)).live = false := by
  induction bs generalizing h with
  | nil => exact ⟨trivial, dead⟩
  | cons b bs ih =>
    obtain ⟨fits, still⟩ := ih ((h.exec (.call b.method.label)).exec .reti) rfl
    exact ⟨⟨trivial, .of_isLevel rfl (by simp [Instr.jump?]), ⟨by simp [Instr.jump?],
      by simp [Instr.address?], by simp, by simp, fun _ => dead⟩, fits⟩, still⟩

/-- At its entry the main program has the stack to itself. -/
theorem fits_mainEntry (h : Ledger) (dead : h.live = false) :
    Fits owes M h mainEntry ∧ (h.after owes mainEntry).shape = .base none :=
  ⟨⟨.inr dead, ⟨by simp [Instr.jump?], by simp [Ledger.next, Ledger.enter], by simp, by simp,
    by simp⟩, trivial⟩, rfl⟩

/-- In front of the main program, the code fits; its jump leads to the entry. -/
theorem fits_prologue {M : List (Label × StackShape)} (start : (.main, .base none) ∈ M)
    (bindings : List Binding) :
    Fits owes M .start (prologue bindings) ∧
      (Ledger.start.after owes (prologue bindings)).shape = .base none := by
  have isMain (l : Label) (hl : (Instr.ljmp .main).jump? = some l) :
      (l, Ledger.start.shape) ∈ M := by
    cases hl
    exact start
  unfold prologue
  split
  · exact fits_mainEntry owes M _ rfl
  · generalize bindingsBy [.external0, .timer0, .external1, .timer1] bindings = vectors
    generalize bindingsBy [.external0, .external1, .timer0, .timer1] bindings = setups
    generalize (bindings.any fun b => (b.source.timerMode? b.counter).isSome) = timers
    generalize hlast : (if timers then [Line.code (.mov (.direct Target.tmod) (.immediate 0 .decimal))]
      else []) ++ (setups.flatMap Binding.setup ++ [guardOff]) = last
    have level : ∀ x ∈ last, x.isLevel = true := by
      rw [← hlast]
      refine List.forall_mem_append.mpr ⟨by cases timers <;> decide,
        List.forall_mem_append.mpr ⟨fun x hx => ?_, by decide⟩⟩
      obtain ⟨b, -, hx⟩ := List.mem_flatMap.mp hx
      exact isLevel_setup b x hx
    have plain : jumpTargets last = [] := by
      rw [← hlast]
      cases timers <;> simp [(plain_setups _).jumps, guardOff, Instr.jump?]
    obtain ⟨table, dead⟩ := fits_vectorEntries owes M vectors
      (Ledger.start.exec (.ljmp .main)) rfl
    obtain ⟨entry, shape⟩ := fits_mainEntry owes M _ dead
    simp only [List.append_assoc, List.cons_append, hlast]
    refine ⟨⟨.of_isLevel rfl isMain, (fits_append ..).mpr ⟨table,
      (fits_append ..).mpr ⟨entry, .of_isLevel level (by simp [plain])⟩⟩⟩, ?_⟩
    rw [Ledger.after_cons, Ledger.after_append, Ledger.after_append, Ledger.shape_after level]
    exact shape

end

/-! ### Whole programs -/

section

variable {raw : List Text} {p : Program}

theorem Program.owes_label (h : Program.read raw = .ok p) {m : Method} (hm : m ∈ p.methods) :
    p.owes m.label = p.context m ∧ ∃ n, m.label = .method n := by
  obtain ⟨sigs, s, st', methods, -, -, -, -, same⟩ := Program.exists_run h
  obtain ⟨new, hnew, -, numbered⟩ := methods.added
  rw [List.nil_append] at hnew
  rw [← hnew, ← same] at numbered
  have distinct : (p.methods.map (·.label)).Nodup := by
    rw [numbered]
    exact List.Nodup.map (fun _ _ heq => Label.method.inj heq) (List.nodup_range' ..)
  constructor
  · obtain ⟨m', found⟩ : ∃ m', p.methods.find? (·.label == m.label) = some m' := by
      rw [← Option.isSome_iff_exists, List.find?_isSome]
      exact ⟨m, hm, beq_self_eq_true _⟩
    have label : m'.label = m.label := by simpa using List.find?_some found
    rw [Program.owes, found,
      List.inj_on_of_nodup_map distinct (List.mem_of_find?_eq_some found) hm label]
    rfl
  · have : m.label ∈ p.methods.map (·.label) := List.mem_map_of_mem hm
    rw [numbered] at this
    obtain ⟨n, -, hn⟩ := List.mem_map.mp this
    exact ⟨n, hn.symm⟩

/-- Every loop of a program has its register saved by the handlers. -/
theorem Program.mem_loopRegisters_of_mem (h : Program.read raw = .ok p) {limit : Value}
    {r : Register} {top : Label} (hc : .openFortil limit r top ∈ p.commands) :
    r ∈ p.loopRegisters := by
  obtain ⟨sigs, s, st', methods, run, -⟩ := Program.exists_run h
  have range := run.register_range methods.loopsCounted limit r top hc
  exact Program.mem_loopRegisters.mpr ⟨range, limit, top, hc⟩

/-- A context has accumulator, B, status word and registers only. -/
theorem Program.mem_context {m : Method} {a : Int} (ha : a ∈ p.context m) :
    a ∈ [Target.acc, Target.b, Target.psw] ∨ 0 ≤ a ∧ a < Target.registerCount := by
  unfold context at ha
  split at ha
  · rcases List.mem_append.mp ha with fixed | loop
    · exact .inl fixed
    · obtain ⟨r, hr, rfl⟩ := List.mem_map.mp loop
      exact .inr (Program.mem_loopRegisters.mp hr).1
  · cases ha

/-- No context holds the stack pointer. -/
theorem Program.sp_notMem_context (p : Program) (m : Method) : Target.sp ∉ p.context m := by
  intro hsp
  rcases Program.mem_context hsp with fixed | register
  · exact absurd fixed (by decide)
  · exact absurd register (by decide)

/-- **The code of a program fits.** -/
theorem Program.checked (h : Program.read raw = .ok p) (o : Options) :
    Checked p.owes (p.code o) := by
  refine ⟨?_, Program.definedLabels_nodup h o⟩
  obtain ⟨sigs, s, st', methods, run, noBlock, noMethod, hlines, same⟩ := Program.exists_run h
  have length : p.lines.length = p.commands.length := by
    rw [← run.length_eq, List.length_map, hlines]
  have secure : Secure sigs [] { supply := s } := ⟨methods.tidy, by simp [BodyState.bound], by
    simp [BodyState.owedLabels]⟩
  have upcoming := run.upcoming o p.sp_notMem_context
    (fun m hm => Program.owes_label h (same ▸ hm)) noBlock noMethod none [] p.lines secure
    (fun c hc _ _ closes => Program.closing?_of_mem h hc closes) length rfl
  have start : (.main, .base none) ∈ marks p.owes .start (p.code o) := by
    obtain ⟨main, rest, sectioned⟩ := Program.sectioned h o
    exact main_mem_marks (mem_definedLabels.mp sectioned.main_mem)
  cases upcoming with
  | outside pending closed =>
    have code : p.code o = [.registerFile o.registerFile] ++ (prologue p.interrupts ++
        (((p.allPieces o).filter (!·.inMethod)).flatMap (·.lines) ++ ([.code (.jmp .main)] ++
          (((p.allPieces o).filter (·.inMethod)).flatMap (·.lines) ++ [.endOfCode])))) := by
      simp [Program.code]
    generalize hM : marks p.owes .start (p.code o) = M at start ⊢
    have own : marks p.owes .start (p.code o) ⊆ M := hM ▸ List.Subset.refl _
    obtain ⟨first, shape⟩ := fits_prologue p.owes start p.interrupts
    have behind := pending.level rfl _ shape
    have back (l : Label) (hl : (Instr.jmp .main).jump? = some l) : (l, .base none) ∈ M := by
      cases hl
      exact start
    rw [code] at own ⊢
    simp only [marks_append, List.append_subset] at own
    obtain ⟨-, -, ownMain, -, ownRest, -⟩ := own
    simp only [fits_append]
    refine ⟨⟨trivial, trivial⟩, first, pending.fits _ M shape ownMain (by simp [BodyState.frames]),
      ⟨.of_isLevel rfl ?_, trivial⟩, closed _ M rfl ownRest, trivial, trivial⟩
    intro l hl
    exact behind ▸ back l hl

end

end Micro51
