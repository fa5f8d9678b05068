/- # Arguments in turn and at once

Arguments are passed from left to right: each is worked out and stored in its parameter
before the next one is looked at. So an argument that mentions an earlier parameter
finds the new value there. Where none does, the result is as if all of them had been
worked out first: what an expression gives, and what it does besides, hangs only on the
places of the variables that it mentions.

Key definitions: `Expr.mentions`, `passAll`, `evalAll`, `PassNonzero`, `Independent`,
`AllApart`.
Key theorems: `Expr.eval_congr`, `passAll_changesOnly`, `passAll_at_once`.
-/
import Micro51.Proofs.CallStorage
import Micro51.Proofs.Footprint

namespace Micro51

/-! ### What an expression hangs on -/

/-- The variables that an expression reads or steps. -/
def Expr.mentions : Expr → List Variable
  | operand (.stored v) | step _ v => [v]
  | operand (.literal _) => []
  | not e | bitOf e .. => e.mentions
  | binary _ l r | shift _ l r .. | compare _ _ l r .. => l.mentions ++ r.mentions

theorem Expr.stepped_subset (e : Expr) : e.stepped ⊆ e.mentions := by
  induction e with
  | operand o => exact List.nil_subset _
  | step s v => exact List.Subset.refl _
  | not e ih | bitOf e n isSet done ih => exact ih
  | binary op l r ihl ihr | shift s l r again test ihl ihr
  | compare c signed l r first second ihl ihr =>
    exact List.append_subset.mpr ⟨fun v hv => List.mem_append_left _ (ihl hv),
      fun v hv => List.mem_append_right _ (ihr hv)⟩

theorem Expr.WellFormed.mentions_subset {live : List Variable} {e : Expr} (wf : e.WellFormed live) :
    e.mentions ⊆ live := by
  induction e with
  | operand o =>
    cases o with
    | stored v => exact List.cons_subset.mpr ⟨wf, List.nil_subset _⟩
    | literal c => exact List.nil_subset _
  | step s v => exact List.cons_subset.mpr ⟨wf.1, List.nil_subset _⟩
  | not e ih => exact ih wf
  | bitOf e n isSet done ih => exact ih wf.1
  | binary op l r ihl ihr | shift s l r again test ihl ihr
  | compare c signed l r first second ihl ihr =>
    exact List.append_subset.mpr ⟨ihl wf.1, ihr wf.2.1⟩

/-- Variables that cover one bit lie on each other. -/
theorem Variable.overlaps_of_covers {v w : Variable} {a : Int} {i : Nat} (hv : v.Covers a i)
    (hw : w.Covers a i) : v.Overlaps w :=
  ⟨hv.1.trans hw.1.symm, fun kv kw => (hv.2 kv).trans (hw.2 kw).symm⟩

namespace ChangesOnly

variable {v : Variable} {ws : List Variable} {m m' : Memory}

/-- A variable reads the same if it lies on none of those that changed. -/
theorem read_eq (changes : ChangesOnly ws m m') (apart : ∀ w ∈ ws, ¬v.Overlaps w) :
    v.read m' = v.read m := by
  have same {i : Nat} (covered : v.Covers v.address i) :
      (m' v.address).getLsbD i = (m v.address).getLsbD i :=
    changes _ _ fun w hw other => apart w hw (Variable.overlaps_of_covers covered other)
  unfold Variable.read
  cases kind : v.kind with
  | bit => exact congrArg bitByte (same ⟨rfl, fun _ => rfl⟩)
  | byte =>
    refine BitVec.eq_of_getLsbD_eq fun i _ => same ⟨rfl, fun bit => ?_⟩
    rw [kind] at bit
    cases bit

/-- Memories that are written alike differ as before. -/
theorem write_both (changes : ChangesOnly ws m m') (bit : v.bit < 8) (x : Byte) :
    ChangesOnly ws (v.write x m) (v.write x m') := by
  intro a i others
  unfold Variable.write
  by_cases same : a = v.address
  · subst same
    rw [Function.update_self, Function.update_self]
    cases v.kind with
    | byte => rfl
    | bit =>
      show (Micro51.setBit _ v.bit _).getLsbD i = (Micro51.setBit _ v.bit _).getLsbD i
      rw [getLsbD_setBit _ _ _ bit, getLsbD_setBit _ _ _ bit, changes _ _ others]
  · rw [Function.update_of_ne same, Function.update_of_ne same]
    exact changes a i others

end ChangesOnly

/-- The variables each lie apart from all of `ws`. -/
def ApartFrom (ws vs : List Variable) : Prop := ∀ v ∈ vs, v.bit < 8 ∧ ∀ w ∈ ws, ¬v.Overlaps w

namespace Expr

variable {l r : Expr} {ws : List Variable} {m m' m₁ : Memory} {x y : Byte}

/-- In memories that differ in `ws` at most, the expression gives one value and does the
same. -/
def Steady (ws : List Variable) (e : Expr) : Prop :=
  ∀ {m m' m₁ : Memory} {x : Byte}, ChangesOnly ws m m' → e.eval m = some (x, m₁) →
    ∃ m₁', e.eval m' = some (x, m₁') ∧ ChangesOnly ws m₁ m₁'

theorem evalBoth_congr (hl : l.Steady ws) (hr : r.Steady ws) (changes : ChangesOnly ws m m')
    (value : evalBoth r l.eval r.eval m = some (x, y, m₁)) :
    ∃ m₁', evalBoth r l.eval r.eval m' = some (x, y, m₁') ∧ ChangesOnly ws m₁ m₁' := by
  by_cases plain : r.isOperand = true
  · obtain ⟨o, rfl⟩ := r.exists_of_isOperand plain
    obtain ⟨left, rfl⟩ := evalBoth_right value
    obtain ⟨m₁', left', changes'⟩ := hl changes left
    obtain ⟨m₂, right, -⟩ := hr changes' (show (operand o).eval m₁ = some (o.eval m₁, m₁) from rfl)
    have right : some (o.eval m₁', m₁') = some (o.eval m₁, m₂) := right
    obtain ⟨same, rfl⟩ := Prod.mk.inj (Option.some.inj right)
    exact ⟨m₁', by simp [evalBoth, isOperand, left', eval, same], changes'⟩
  · have plain := Bool.eq_false_iff.mpr plain
    obtain ⟨m₂, right, left⟩ := evalBoth_other plain value
    obtain ⟨m₂', right', changes₂⟩ := hr changes right
    obtain ⟨m₁', left', changes'⟩ := hl changes₂ left
    exact ⟨m₁', by simp [evalBoth, plain, right', left'], changes'⟩

/-- **An expression hangs on the variables that it mentions.** Where nothing of them has
changed, it gives the same and changes the same. -/
theorem eval_congr (e : Expr) (apart : ApartFrom ws e.mentions) : e.Steady ws := by
  have both {l r : Expr} (apart : ApartFrom ws (l.mentions ++ r.mentions)) :
      ApartFrom ws l.mentions ∧ ApartFrom ws r.mentions := List.forall_mem_append.mp apart
  intro m m' m₁ x changes value
  induction e generalizing m m' m₁ x with
  | operand o =>
    cases value
    refine ⟨m', ?_, changes⟩
    cases o with
    | literal c => rfl
    | stored v =>
      have same := changes.read_eq (apart v List.mem_cons_self).2
      exact congrArg (fun x => some (x, m')) same
  | step s v =>
    cases value
    obtain ⟨bit, apart⟩ := apart v List.mem_cons_self
    refine ⟨_, ?_, changes.write_both bit _⟩
    simp only [eval, changes.read_eq apart]
  | not e ih =>
    simp only [eval, Option.bind_eq_bind, Option.bind_eq_some_iff, Option.pure_def] at value
    obtain ⟨⟨x', m₂⟩, inner, heq⟩ := value
    cases heq
    obtain ⟨m₁', inner', changes'⟩ := ih apart changes inner
    exact ⟨m₁', by simp [eval, inner'], changes'⟩
  | bitOf e n isSet done ih =>
    simp only [eval, Option.bind_eq_bind, Option.bind_eq_some_iff, Option.pure_def] at value
    obtain ⟨⟨x', m₂⟩, inner, heq⟩ := value
    cases heq
    obtain ⟨m₁', inner', changes'⟩ := ih apart changes inner
    exact ⟨m₁', by simp [eval, inner'], changes'⟩
  | binary op l r ihl ihr =>
    simp only [eval, Option.bind_eq_bind, Option.bind_eq_some_iff, Option.pure_def] at value
    obtain ⟨⟨x', y', m₂⟩, inner, z, applied, heq⟩ := value
    cases heq
    obtain ⟨m₁', inner', changes'⟩ := evalBoth_congr (ihl (both apart).1) (ihr (both apart).2)
      changes inner
    exact ⟨m₁', by simp [eval, inner', applied], changes'⟩
  | shift s l r again test ihl ihr =>
    simp only [eval, Option.bind_eq_bind, Option.bind_eq_some_iff, Option.pure_def] at value
    obtain ⟨⟨x', y', m₂⟩, inner, heq⟩ := value
    cases heq
    obtain ⟨m₁', inner', changes'⟩ := evalBoth_congr (ihl (both apart).1) (ihr (both apart).2)
      changes inner
    exact ⟨m₁', by simp [eval, inner'], changes'⟩
  | compare c signed l r first second ihl ihr =>
    simp only [eval, Option.bind_eq_bind, Option.bind_eq_some_iff, Option.pure_def] at value
    obtain ⟨⟨x', y', m₂⟩, inner, heq⟩ := value
    cases heq
    obtain ⟨m₁', inner', changes'⟩ := evalBoth_congr (ihl (both apart).1) (ihr (both apart).2)
      changes inner
    exact ⟨m₁', by simp [eval, inner'], changes'⟩

end Expr

/-! ### Passing -/

/-- The memory once the arguments are passed: from left to right, each is worked out and
stored in its parameter. -/
def passAll : List (Variable × Expr) → Memory → Option Memory
  | [], m => some m
  | pa :: pas, m => (pa.2.eval m).bind fun r => passAll pas (pa.1.write r.1 r.2)

/-- The values of expressions that are worked out from left to right, and the memory
behind. -/
def evalAll : List Expr → Memory → Option (List Byte × Memory)
  | [], m => some ([], m)
  | e :: es, m => (e.eval m).bind fun r =>
    (evalAll es r.2).map fun rest => (r.1 :: rest.1, rest.2)

/-- No divisor is zero while the arguments are passed. -/
def PassNonzero : List (Variable × Expr) → Memory → Prop
  | [], _ => True
  | pa :: pas, m => pa.2.DivisorsNonzero m ∧
    ∀ x m', pa.2.eval m = some (x, m') → PassNonzero pas (pa.1.write x m')

/-- The variables that passing the arguments writes. -/
def passWritten (pas : List (Variable × Expr)) : List Variable := pas.flatMap fun pa => pa.1 :: pa.2.stepped

/-- No argument mentions the parameter of an earlier one. -/
def Independent (pas : List (Variable × Expr)) : Prop :=
  pas.Pairwise fun earlier later => earlier.1 ∉ later.2.mentions

/-- Different variables of these lie apart. -/
structure AllApart (vs : List Variable) : Prop where
  bit : ∀ v ∈ vs, v.bit < 8
  apart : ∀ v ∈ vs, ∀ w ∈ vs, v ≠ w → ¬v.Overlaps w

section

variable {stored : List Variable} {pa : Variable × Expr} {pas : List (Variable × Expr)} {m m' m₁ : Memory}

theorem passAll_cons_eq_some :
    passAll (pa :: pas) m = some m' ↔
      ∃ x m₁, pa.2.eval m = some (x, m₁) ∧ passAll pas (pa.1.write x m₁) = some m' := by
  simp [passAll, Option.bind_eq_some_iff]

/-- Passing writes the parameters and what is stepped in the arguments. -/
theorem passAll_changesOnly (placed : ∀ v ∈ stored, v.Placed)
    (wf : ∀ pa ∈ pas, pa.1 ∈ stored ∧ pa.2.WellFormed stored) (passed : passAll pas m = some m') :
    ChangesOnly (passWritten pas) m m' := by
  induction pas generalizing m with
  | nil =>
    cases passed
    exact .refl _
  | cons pa pas ih =>
    obtain ⟨⟨known, wfb⟩, wf⟩ := List.forall_mem_cons.mp wf
    obtain ⟨x, m₁, value, rest⟩ := passAll_cons_eq_some.mp passed
    have first := pa.2.eval_changesOnly placed wfb value
    have stored := ChangesOnly.write x m₁ (placed pa.1 known).bit
    refine ((first.trans stored).trans (ih wf rest)).mono ?_
    intro v hv
    simp only [passWritten, List.flatMap_cons, List.mem_append, List.mem_cons] at hv ⊢
    tauto

/-- A variable that no argument behind writes keeps what it holds. -/
theorem read_of_passAll (placed : ∀ v ∈ stored, v.Placed) (all : AllApart stored)
    (wf : ∀ pa ∈ pas, pa.1 ∈ stored ∧ pa.2.WellFormed stored) (passed : passAll pas m = some m')
    {v : Variable} (hv : v ∈ stored) (other : v ∉ passWritten pas) : v.read m' = v.read m := by
  refine (passAll_changesOnly placed wf passed).read_eq fun w hw => ?_
  have known : w ∈ stored := by
    obtain ⟨pa, hb, hw⟩ := List.mem_flatMap.mp hw
    rcases List.mem_cons.mp hw with rfl | hw
    · exact (wf pa hb).1
    · exact (wf pa hb).2.mentions_subset (pa.2.stepped_subset hw)
  exact all.apart v hv w known fun same => other (same ▸ hw)

/-- **Independent arguments** are passed as if all were worked out before the first is
stored. -/
theorem passAll_at_once (placed : ∀ v ∈ stored, v.Placed) (all : AllApart stored)
    (wf : ∀ pa ∈ pas, pa.1 ∈ stored ∧ pa.2.WellFormed stored) (distinct : (pas.map Prod.fst).Nodup)
    (independent : Independent pas) (passed : passAll pas m = some m') :
    ∃ xs m₁, evalAll (pas.map Prod.snd) m = some (xs, m₁) ∧ ChangesOnly (pas.map Prod.fst) m₁ m' ∧
      ∀ px ∈ (pas.map Prod.fst).zip xs, px.1.kind.Holds (px.1.read m') px.2 := by
  -- `m` is the memory without what was stored in the parameters `ws` so far
  suffices general : ∀ ws ⊆ stored, (∀ pa ∈ pas, ∀ w ∈ ws, w ∉ pa.2.mentions) → ∀ m₀,
      ChangesOnly ws m₀ m →
      ∃ xs m₁, evalAll (pas.map Prod.snd) m₀ = some (xs, m₁) ∧
        ChangesOnly (ws ++ pas.map Prod.fst) m₁ m' ∧
        ∀ px ∈ (pas.map Prod.fst).zip xs, px.1.kind.Holds (px.1.read m') px.2 by
    exact general [] (List.nil_subset _) (fun _ _ => List.forall_mem_nil _) m (.refl m)
  induction pas generalizing m with
  | nil =>
    intro ws _ _ m₀ changes
    cases passed
    exact ⟨[], m₀, rfl, by simpa using changes, by simp⟩
  | cons pa pas ih =>
    intro ws sub unmentioned m₀ changes
    obtain ⟨⟨known, wfb⟩, wf⟩ := List.forall_mem_cons.mp wf
    obtain ⟨new, distinct⟩ := List.nodup_cons.mp distinct
    obtain ⟨later, independent⟩ := List.pairwise_cons.mp independent
    obtain ⟨x, m₁, value, rest⟩ := passAll_cons_eq_some.mp passed
    obtain ⟨avoids, unmentioned⟩ := List.forall_mem_cons.mp unmentioned
    have apart : ApartFrom ws pa.2.mentions := fun v hv =>
      ⟨all.bit v (wfb.mentions_subset hv), fun w hw => all.apart v (wfb.mentions_subset hv) w
        (sub hw) fun same => avoids w hw (same ▸ hv)⟩
    -- worked out in `m₀`, the argument gives `x` too
    have back : ChangesOnly ws m m₀ := fun a i others => (changes a i others).symm
    obtain ⟨m₀', value₀, changes₀⟩ := pa.2.eval_congr apart back value
    have stored : ChangesOnly (ws ++ [pa.1]) m₀' (pa.1.write x m₁) :=
      ChangesOnly.trans (fun a i others => (changes₀ a i others).symm)
        (.write x m₁ (all.bit _ known))
    have avoided : ∀ b ∈ pas, ∀ w ∈ ws ++ [pa.1], w ∉ b.2.mentions := fun b hb =>
      List.forall_mem_append.mpr ⟨unmentioned b hb, List.forall_mem_singleton.mpr (later b hb)⟩
    obtain ⟨xs, m₂, values, others, holds⟩ := ih wf distinct independent rest (ws ++ [pa.1])
      (List.append_subset.mpr ⟨sub, List.cons_subset.mpr ⟨known, List.nil_subset _⟩⟩) avoided m₀'
      stored
    refine ⟨x :: xs, m₂, by simp [evalAll, value₀, values], by simpa using others, ?_⟩
    -- the arguments behind leave the parameter alone
    have kept : pa.1.read m' = pa.1.read (pa.1.write x m₁) := by
      refine read_of_passAll placed all wf rest known fun written => ?_
      obtain ⟨b, hb, hw⟩ := List.mem_flatMap.mp written
      rcases List.mem_cons.mp hw with same | hw
      · exact new (List.mem_map.mpr ⟨b, hb, same.symm⟩)
      · exact later b hb (b.2.stepped_subset hw)
    rw [List.map_cons, List.zip_cons_cons, List.forall_mem_cons]
    refine ⟨?_, holds⟩
    rw [kept]
    exact pa.1.holds_read_write x m₁ (all.bit _ known)

end

end Micro51
