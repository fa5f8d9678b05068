/- # Code that leaves the stack as it found it

The code of a value or an assignment pushes a byte now and then, and pops it
again before it ends: wherever it stands, the stack behind it is the one in front
of it. Code of this kind is neutral. A return is neutral only between commands,
where what the method owes is all that it has on the stack.

Key definitions: `Neutral`, `Program.context`, `Program.owes`, `Front`.
Key theorems: `Neutral.stacked`, `Expr.neutral_code`, `Value.neutral_code`,
`Assignment.neutral_code`, `Program.front_returnCode`.
-/
import Micro51.Proofs.Ledger

namespace Micro51

/-- Code that leaves the stack as it found it, whatever is on it. Its jumps lead
to its own labels or to the labels `outs`. -/
structure Neutral (owes : Label → List Int) (outs : List Label) (code : List Line) : Prop where
  level : ∀ h : Ledger, (h.after owes code).shape = h.shape
  fits : ∀ (h : Ledger) (M : List (Label × StackShape)), marks owes h code ⊆ M →
    (∀ l ∈ outs, (l, h.shape) ∈ M) → Fits owes M h code

namespace Neutral

variable {owes : Label → List Int} {outs : List Label} {xs ys : List Line}

/-- Lines that do not touch the stack are neutral. -/
theorem of_isLevel (level : ∀ x ∈ xs, x.isLevel = true)
    (jumps : ∀ l ∈ jumpTargets xs, l ∈ definedLabels xs ∨ l ∈ outs) : Neutral owes outs xs where
  level h := h.shape_after level
  fits h M own out := by
    refine .of_isLevel level fun l hl => ?_
    rcases jumps l hl with inside | outside
    · apply own
      rw [marks_of_isLevel level]
      exact List.mem_map_of_mem inside
    · exact out l outside

theorem of_selfContained (level : ∀ x ∈ xs, x.isLevel = true) (inside : SelfContained xs) :
    Neutral owes outs xs :=
  of_isLevel level fun _ hl => .inl (inside hl)

theorem append (hx : Neutral owes outs xs) (hy : Neutral owes outs ys) :
    Neutral owes outs (xs ++ ys) where
  level h := by rw [Ledger.after_append, hy.level, hx.level]
  fits h M own out := by
    rw [marks_append, List.append_subset] at own
    refine (fits_append ..).mpr ⟨hx.fits h M own.1 out, hy.fits _ M own.2 ?_⟩
    rw [hx.level]
    exact out

/-- Code that jumps nowhere else stays neutral with jumps behind it. -/
theorem jumping (hx : Neutral owes [] xs) (hy : Neutral owes outs ys) :
    Neutral owes outs (xs ++ ys) :=
  append ⟨hx.level, fun h M own _ => hx.fits h M own (by simp)⟩ hy

theorem flatMap {α : Type} {f : α → List Line} (zs : List α)
    (h : ∀ z ∈ zs, Neutral owes outs (f z)) : Neutral owes outs (zs.flatMap f) := by
  induction zs with
  | nil => exact of_isLevel (by simp) (by simp)
  | cons z zs ih =>
    obtain ⟨first, rest⟩ := List.forall_mem_cons.mp h
    rw [List.flatMap_cons]
    exact first.append (ih rest)

/-- A byte may wait on the stack while neutral code runs. -/
theorem stacked (hx : Neutral owes [] xs) (a : Int) {b : Int} (hb : b ≠ Target.sp) :
    Neutral owes [] (.code (.push a) :: xs ++ [.code (.pop b)]) := by
  have level (h : Ledger) : ((h.exec (.push a)).after owes xs).shape =
      ⟨h.owed, (if a ∈ h.kept then some a else none) :: h.slots⟩ := hx.level _
  constructor
  · intro h
    have popped (h : Ledger) : (h.exec (.pop b)).shape = ⟨h.shape.owed, h.shape.slots.tail⟩ := rfl
    rw [List.cons_append, Ledger.after_cons, Ledger.after_append]
    show (Ledger.exec ((h.exec (.push a)).after owes xs) (.pop b)).shape = _
    rw [popped, level]
    rfl
  · intro h M own _
    rw [List.cons_append]
    refine ⟨.of_push h a, (fits_append ..).mpr ⟨?_, ?_, trivial⟩⟩
    · refine hx.fits _ M ?_ (by simp)
      refine List.Subset.trans ?_ own
      show marks owes (h.exec (.push a)) xs ⊆ marks owes (h.exec (.push a)) (xs ++ _)
      simp
    · refine .of_pop hb fun empty => ?_
      have slots := congrArg StackShape.slots (level h)
      rw [show (((h.exec (.push a)).after owes xs).slots = []) from empty] at slots
      cases slots

end Neutral

/-! ### Values and assignments -/

section

variable {owes : Label → List Int} {outs : List Label}

theorem Variable.Placed.ne_pointer {v : Variable} (placed : v.Placed) : v.address ≠ Target.sp :=
  (Machine.storage_ne placed.address).2.2.2.1

theorem isLevel_moveBit {o : Operand} {dst : BitPlace} (h : dst.address? ≠ some Target.sp) :
    ∀ x ∈ moveBit o dst, x.isLevel = true := by
  cases o with
  | stored v => simp [moveBit, Instr.isLevel, Instr.address?, h]
  | literal c =>
    simp only [moveBit, List.forall_mem_singleton]
    split <;> simp [Instr.isLevel, Instr.address?, h]

theorem Operand.isLevel_loadAcc (o : Operand) : ∀ x ∈ o.loadAcc, x.isLevel = true := by
  unfold loadAcc
  cases o.kind with
  | bit => exact isLevel_moveBit (by simp [accBit, BitPlace.address?])
  | byte => exact List.forall_mem_singleton.mpr rfl

theorem Operand.isLevel_loadB (o : Operand) : ∀ x ∈ o.loadB, x.isLevel = true := by
  unfold loadB
  cases o.kind with
  | bit => exact isLevel_moveBit (by decide)
  | byte => exact List.forall_mem_singleton.mpr rfl

theorem Operand.isLevel_copyTo (o : Operand) {v : Variable} (placed : v.Placed) :
    ∀ x ∈ o.copyTo v, x.isLevel = true := by
  have ne := placed.ne_pointer
  unfold copyTo
  cases v.kind with
  | bit => exact isLevel_moveBit (by simpa [Variable.bitPlace] using ne)
  | byte =>
    simpa [Instr.isLevel, Instr.address?, Variable.place] using ne

theorem Variable.isLevel_store {v : Variable} (placed : v.Placed) :
    ∀ x ∈ v.store, x.isLevel = true := by
  have ne := placed.ne_pointer
  unfold store
  cases v.kind <;>
    simpa [Instr.isLevel, Instr.address?, Variable.place, bitPlace] using ne

theorem BinaryOp.isLevel_code (op : BinaryOp) : ∀ x ∈ op.code, x.isLevel = true := by
  cases op <;> decide

theorem Shift.isLevel_code (s : Shift) {again test : Label} (ha : again.isJump = true)
    (ht : test.isJump = true) : ∀ x ∈ s.code again test, x.isLevel = true := by
  cases s <;> simp [code, Instr.isLevel, Instr.address?, ha, ht, regB,
    Target.b, Target.sp]

theorem Relation.isLevel_code (r : Relation) (signed : Bool) {first second : Label}
    (hf : first.isJump = true) (hs : second.isJump = true) :
    ∀ x ∈ r.code signed first second, x.isLevel = true := by
  cases r <;> cases signed <;> simp [code, flipSigns, loadOne, Instr.isLevel,
    Instr.address?, hf, hs, regB, Target.b, Target.sp]

namespace Expr

theorem neutral_loadBoth {l r : Expr} (hl : Neutral owes [] l.code) (hr : Neutral owes [] r.code) :
    Neutral owes [] (loadBoth l r l.code r.code) := by
  unfold loadBoth
  split
  · next o => exact hl.append (.of_selfContained o.isLevel_loadB o.plain_loadB.selfContained)
  · next o _ =>
    have move : Neutral owes [] [.code (.mov regB (.place .acc))] :=
      .of_isLevel (by decide) (by simp [Instr.jump?])
    exact hr.append (move.append (.of_selfContained o.isLevel_loadAcc o.plain_loadAcc.selfContained))
  · have waiting := hr.append (hl.stacked Target.acc (b := Target.b) (by decide))
    rw [List.append_assoc]
    exact waiting

/-- **The code of an expression is neutral.** -/
theorem neutral_code {live : List Variable} (placed : ∀ v ∈ live, v.Placed) (e : Expr)
    (wf : e.WellFormed live) (jumps : ∀ l ∈ e.labels, l.isJump = true) :
    Neutral owes [] e.code := by
  induction e with
  | operand o => exact .of_selfContained o.isLevel_loadAcc o.plain_loadAcc.selfContained
  | not e ih =>
    refine (ih wf jumps).append (.of_isLevel ?_ ?_)
    · cases e.kind <;> decide
    · cases e.kind <;> simp [Instr.jump?]
  | step s v =>
    have ne := (placed v wf.1).ne_pointer
    refine .of_isLevel ?_ ?_
    · cases s <;> simp [code, Instr.isLevel, Instr.address?, Variable.place, ne]
    · cases s <;> simp [code, Instr.jump?]
  | bitOf e n isSet done ih =>
    simp only [labels, List.forall_mem_append, List.forall_mem_cons] at jumps
    obtain ⟨inner, hset, hdone, -⟩ := jumps
    refine (ih wf.1 inner).append (.of_isLevel ?_ ?_)
    · simp [Instr.isLevel, Instr.address?, accBit, hset, hdone]
    · simp [Instr.jump?]
  | binary op l r ihl ihr =>
    simp only [labels, List.forall_mem_append] at jumps
    exact (neutral_loadBoth (ihl wf.1 jumps.1) (ihr wf.2.1 jumps.2)).append
      (.of_selfContained op.isLevel_code op.plain_code.selfContained)
  | shift s l r again test ihl ihr =>
    simp only [labels, List.forall_mem_append, List.forall_mem_cons] at jumps
    obtain ⟨⟨left, right⟩, hagain, htest, -⟩ := jumps
    exact (neutral_loadBoth (ihl wf.1 left) (ihr wf.2.1 right)).append
      (.of_selfContained (s.isLevel_code hagain htest) (s.selfContained_code again test))
  | compare c signed l r first second ihl ihr =>
    simp only [labels, List.forall_mem_append, List.forall_mem_cons] at jumps
    obtain ⟨⟨left, right⟩, hfirst, hsecond, -⟩ := jumps
    exact (neutral_loadBoth (ihl wf.1 left) (ihr wf.2.1 right)).append
      (.of_selfContained (c.isLevel_code signed hfirst hsecond)
        (c.selfContained_code signed first second))

end Expr

theorem neutral_passArgument {live : List Variable} (placed : ∀ v ∈ live, v.Placed) {q : Variable}
    (hq : q.Placed) {e : Expr} (wf : e.WellFormed live) (jumps : ∀ l ∈ e.labels, l.isJump = true) :
    Neutral owes [] (passArgument q e) := by
  have whole : Neutral owes [] e.code := e.neutral_code placed wf jumps
  unfold passArgument
  split
  · next o => exact .of_selfContained (o.isLevel_copyTo hq) (o.plain_copyTo q).selfContained
  · exact whole.append (.of_selfContained (q.isLevel_store hq) q.plain_store.selfContained)

end

/-- Every variable that a value can name, or pass an argument in, lives where
variables can live. -/
structure Scope.Placed (sc : Scope) : Prop where
  stored : ∀ v ∈ sc.stored, v.Placed
  parameters : ∀ m ∈ sc.methods, ∀ v ∈ m.parameters, v.Placed

section

variable {owes : Label → List Int} {outs : List Label} {sc : Scope}

/-- The code of a value is neutral. -/
theorem Value.neutral_code (placed : sc.Placed) {v : Value} (wf : v.WellFormed sc)
    (jumps : ∀ l ∈ v.labels, l.isJump = true) : Neutral owes [] v.code := by
  cases v with
  | expr e => exact e.neutral_code placed.stored wf jumps
  | call c =>
    have arguments : Neutral owes []
        ((c.method.parameters.zip c.arguments).flatMap fun pa => passArgument pa.1 pa.2) := by
      refine .flatMap _ fun pa hpa => ?_
      obtain ⟨hp, he⟩ := List.of_mem_zip hpa
      refine neutral_passArgument placed.stored (placed.parameters _ wf.known _ hp)
        (wf.arguments _ he) fun l hl => jumps l ?_
      exact List.mem_flatMap.mpr ⟨pa.2, he, hl⟩
    refine arguments.append (.of_isLevel ?_ ?_)
    · exact List.forall_mem_singleton.mpr rfl
    · simp [Instr.jump?]

/-- The code of an assignment is neutral. -/
theorem Assignment.neutral_code (placed : sc.Placed) {a : Assignment} (wf : a.WellFormed sc)
    (jumps : ∀ l ∈ a.value.labels, l.isJump = true) : Neutral owes [] a.code := by
  have target := placed.stored _ wf.target
  have value : Neutral owes [] a.value.code := Value.neutral_code placed wf.value jumps
  have store : Neutral owes [] a.target.store :=
    .of_selfContained (a.target.isLevel_store target) a.target.plain_store.selfContained
  unfold code
  split
  · next n _ =>
    refine value.append (.of_isLevel ?_ ?_)
    · simpa [Instr.isLevel, Instr.address?, Variable.place] using target.ne_pointer
    · simp [Instr.jump?]
  · next op _ =>
    have load : Neutral owes [] (.code (.mov regB (.place .acc)) ::
        (Operand.stored a.target).loadAcc) := by
      refine .of_isLevel (List.forall_mem_cons.mpr ⟨rfl, Operand.isLevel_loadAcc _⟩) ?_
      simp [Instr.jump?, (Operand.stored a.target).plain_loadAcc.jumps]
    have combine : Neutral owes [] op.code :=
      .of_selfContained op.isLevel_code op.plain_code.selfContained
    exact ((value.append load).append combine).append store
  · split
    · next o _ => exact .of_selfContained (o.isLevel_copyTo target) (o.plain_copyTo _).selfContained
    · exact value.append store

end

/-! ### What a method owes -/

namespace Program

/-- The bytes that a method must leave as it found them: the context, if it
handles an interrupt. -/
def context (p : Program) (m : Method) : List Int :=
  if p.isHandler m then savedBytes p.loopRegisters else []

/-- The bytes that the method with an entry must leave as it found them. -/
def owes (p : Program) (l : Label) : List Int :=
  ((p.methods.find? (·.label == l)).map p.context).getD []

theorem returnCode_some (p : Program) (m : Method) :
    p.returnCode (some m) =
      (p.context m).reverse.map (fun a => .code (.pop a)) ++ [.code .ret] := by
  simp only [returnCode, context]
  split <;> rfl

theorem code_openMethod (p : Program) (m : Method) (method : Option Method) (symbol : String)
    (index : Nat) : (Command.openMethod m).code p method symbol index =
      .label m.label :: (p.context m).map fun a => .code (.push a) := by
  simp only [Command.code, context]
  split <;> rfl

end Program

section

variable {owes : Label → List Int} {M : List (Label × StackShape)}

/-- Bytes that are pushed before they change are known to be the caller's. -/
theorem Ledger.after_pushes (owes : Label → List Int) (as : List Int) (h : Ledger)
    (kept : as ⊆ h.kept) :
    h.after owes (as.map fun a => .code (.push a)) =
      { h with slots := as.reverse.map some ++ h.slots } := by
  induction as generalizing h with
  | nil => rfl
  | cons a as ih =>
    obtain ⟨ha, has⟩ := List.cons_subset.mp kept
    rw [List.map_cons, after_cons]
    show Ledger.after owes (h.exec (.push a)) _ = _
    rw [ih (h.exec (.push a)) has]
    simp [exec, ha]

theorem Fits.pushes (as : List Int) (h : Ledger) :
    Fits owes M h (as.map fun a => .code (.push a)) := by
  induction as generalizing h with
  | nil => trivial
  | cons a as ih => exact ⟨.of_push h a, ih _⟩

/-- What lies on top of the stack and is popped to where it came from is there
again. -/
theorem Ledger.after_pops (owes : Label → List Int) (as : List Int) (rest : List (Option Int))
    (h : Ledger) (slots : h.slots = as.map some ++ rest) :
    ∃ kept, h.after owes (as.map fun a => .code (.pop a)) = ⟨⟨h.owed, rest⟩, kept, h.live⟩ ∧
      as ⊆ kept ∧ h.kept ⊆ kept := by
  induction as generalizing h with
  | nil => exact ⟨h.kept, by rw [← show h.slots = rest from slots]; rfl, by simp, fun _ => id⟩
  | cons a as ih =>
    have popped : h.exec (.pop a) =
        ⟨⟨h.owed, as.map some ++ rest⟩, [a] ++ h.kept.filter (· ≠ a), h.live⟩ := by
      simp [exec, slots]
    obtain ⟨kept, behind, new, old⟩ := ih (h.exec (.pop a)) (by rw [popped])
    have here : a ∈ kept := old (by simp [popped])
    refine ⟨kept, ?_, List.cons_subset.mpr ⟨here, new⟩, fun c hc => ?_⟩
    · rw [List.map_cons, after_cons]
      show Ledger.after owes (h.exec (.pop a)) _ = _
      rw [behind, popped]
    · by_cases same : c = a
      · rw [same]
        exact here
      · exact old (by simp [popped, hc, same])

theorem Fits.pops (as : List Int) (rest : List (Option Int)) (h : Ledger)
    (slots : h.slots = as.map some ++ rest) (clear : Target.sp ∉ as) :
    Fits owes M h (as.map fun a => .code (.pop a)) := by
  induction as generalizing h with
  | nil => trivial
  | cons a as ih =>
    obtain ⟨ha, has⟩ := not_or.mp (List.mem_cons.not.mp clear)
    refine ⟨.of_pop (Ne.symm ha) ?_, ih _ ?_ has⟩
    · intro empty
      rw [slots] at empty
      cases empty
    · show h.slots.tail = _
      rw [slots]
      rfl

end

/-! ### Code between commands -/

/-- Code that is neutral between the commands of a section that owes `o`. -/
structure Front (owes : Label → List Int) (o : Option (List Int)) (outs : List Label)
    (code : List Line) : Prop where
  level : ∀ h : Ledger, h.shape = .base o → (h.after owes code).shape = .base o
  fits : ∀ (h : Ledger) (M : List (Label × StackShape)), h.shape = .base o →
    marks owes h code ⊆ M → (∀ l ∈ outs, (l, .base o) ∈ M) → Fits owes M h code

theorem Neutral.front {owes : Label → List Int} {outs : List Label} {code : List Line}
    (neutral : Neutral owes outs code) (o : Option (List Int)) : Front owes o outs code where
  level h shape := (neutral.level h).trans shape
  fits h M shape own out := neutral.fits h M own (by rw [shape]; exact out)

theorem Front.append {owes : Label → List Int} {o : Option (List Int)} {outs : List Label}
    {xs ys : List Line} (hx : Front owes o outs xs) (hy : Front owes o outs ys) :
    Front owes o outs (xs ++ ys) where
  level h shape := by
    rw [Ledger.after_append]
    exact hy.level _ (hx.level h shape)
  fits h M shape own out := by
    rw [marks_append, List.append_subset] at own
    exact (fits_append ..).mpr
      ⟨hx.fits h M shape own.1 out, hy.fits _ M (hx.level h shape) own.2 out⟩

/-- A return gives back what is owed. -/
theorem Program.front_returnCode (p : Program) {m : Method} (clear : Target.sp ∉ p.context m)
    (owes : Label → List Int) :
    Front owes (some (p.context m)) [] (p.returnCode (some m)) ∧
      ∀ h : Ledger, h.shape = .base (some (p.context m)) →
        (h.after owes (p.returnCode (some m))).live = false := by
  have behind (h : Ledger) (shape : h.shape = .base (some (p.context m))) :=
    h.after_pops owes (p.context m).reverse []
      (by rw [shape, List.append_nil]; rfl)
  rw [returnCode_some]
  refine ⟨⟨fun h shape => ?_, fun h M shape _ _ => ?_⟩, fun h shape => ?_⟩
  all_goals obtain ⟨kept, after, new, -⟩ := behind h shape
  · rw [Ledger.after_append, after, shape]
    rfl
  · refine (fits_append ..).mpr ⟨?_, ?_, trivial⟩
    · refine .pops _ [] h (by rw [shape, List.append_nil]; rfl) ?_
      rwa [List.mem_reverse]
    · rw [after]
      refine ⟨by simp [Instr.jump?], by simp [Instr.address?], by simp,
        fun _ => ⟨rfl, p.context m, ?_, fun a ha => ?_⟩, by simp⟩
      · rw [shape]
        rfl
      · exact new (List.mem_reverse.mpr ha)
  · rw [Ledger.after_append, after]
    rfl

end Micro51
