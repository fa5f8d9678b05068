/- # Outcomes of computations that may fail

A computation that ends well, taken apart: what each of its parts gave, and
the state between them. The rules are equations and equivalences, so that
one rewriting turns a whole computation into the facts that it establishes.

Key theorems: `Outcome.bind_eq_ok`, `Outcome.bind_of_ok`,
`Outcome.bind_of_error`, `Outcome.ite_eq_ok`, `Outcome.mapM_eq_ok`,
`Outcome.except_bind_eq_ok`.
-/
import Micro51.Body

namespace Micro51
namespace Outcome

variable {ε σ α β : Type}

theorem bind_eq_ok {x : EStateM ε σ α} {f : α → EStateM ε σ β} {s s' : σ} {b : β} :
    (x >>= f) s = .ok b s' ↔ ∃ a t, x s = .ok a t ∧ f a t = .ok b s' := by
  change EStateM.bind x f s = _ ↔ _
  unfold EStateM.bind
  cases h : x s with
  | ok a t =>
    refine ⟨fun h => ⟨a, t, rfl, h⟩, fun ⟨_, _, e, h⟩ => ?_⟩
    cases e
    exact h
  | error e t => simp

theorem bind_of_ok {x : EStateM ε σ α} {f : α → EStateM ε σ β} {s s' : σ} {a : α}
    (h : x s = .ok a s') : (x >>= f) s = f a s' := by
  change EStateM.bind x f s = _
  rw [EStateM.bind, h]

theorem bind_of_error {x : EStateM ε σ α} {f : α → EStateM ε σ β} {s s' : σ} {e : ε}
    (h : x s = .error e s') : (x >>= f) s = .error e s' := by
  change EStateM.bind x f s = _
  rw [EStateM.bind, h]

theorem pure_eq_ok {a b : α} {s s' : σ} :
    (pure a : EStateM ε σ α) s = .ok b s' ↔ a = b ∧ s = s' := by
  change EStateM.Result.ok a s = _ ↔ _
  simp

theorem throw_eq_ok {e : ε} {b : α} {s s' : σ} :
    ¬(throw e : EStateM ε σ α) s = .ok b s' := by
  change ¬EStateM.Result.error e s = _
  simp

theorem throw_bind_eq_ok {e : ε} {f : α → EStateM ε σ β} {b : β} {s s' : σ} :
    ¬((throw e : EStateM ε σ α) >>= f) s = .ok b s' := by
  change ¬EStateM.Result.error e s = _
  simp

theorem get_bind (f : σ → EStateM ε σ β) (s : σ) : (get >>= f) s = f s s := rfl

theorem set_bind (t : σ) (f : PUnit → EStateM ε σ β) (s : σ) : (set t >>= f) s = f ⟨⟩ t := rfl

theorem modify_bind (g : σ → σ) (f : PUnit → EStateM ε σ β) (s : σ) :
    (modify g >>= f) s = f ⟨⟩ (g s) := rfl

theorem ite_eq_ok {c : Prop} [Decidable c] {x y : EStateM ε σ α} {s s' : σ} {b : α} :
    (if c then x else y) s = .ok b s' ↔ c ∧ x s = .ok b s' ∨ ¬c ∧ y s = .ok b s' := by
  by_cases h : c <;> simp [h]

/-- Where a whole list is gone through, every element is, and every result comes from
one. -/
theorem mapM_eq_ok {f : α → EStateM ε σ β} {xs : List α} {bs : List β} {s s' : σ}
    (h : xs.mapM f s = .ok bs s') :
    (∀ b ∈ bs, ∃ a ∈ xs, ∃ t t', f a t = .ok b t') ∧ ∀ a ∈ xs, ∃ b t t', f a t = .ok b t' := by
  induction xs generalizing bs s with
  | nil =>
    rw [List.mapM_nil, pure_eq_ok] at h
    obtain ⟨rfl, -⟩ := h
    exact ⟨List.forall_mem_nil _, List.forall_mem_nil _⟩
  | cons x xs ih =>
    simp only [List.mapM_cons, bind_eq_ok, pure_eq_ok] at h
    obtain ⟨b, t, first, bs', t', rest, rfl, rfl⟩ := h
    obtain ⟨results, elements⟩ := ih rest
    refine ⟨List.forall_mem_cons.mpr ⟨⟨x, List.mem_cons_self, s, t, first⟩, fun b hb => ?_⟩,
      List.forall_mem_cons.mpr ⟨⟨b, s, t, first⟩, elements⟩⟩
    obtain ⟨a, ha, done⟩ := results b hb
    exact ⟨a, List.mem_cons_of_mem x ha, done⟩

theorem except_bind_eq_ok {x : Except ε α} {f : α → Except ε β} {b : β} :
    (x >>= f) = .ok b ↔ ∃ a, x = .ok a ∧ f a = .ok b := by
  cases x <;> simp [bind, Except.bind]

end Outcome

/-! ### The parts of reading a line -/

namespace Reading

open Outcome

theorem take_eq_ok {α : Type} {f : Supply → Except Cause (α × Supply)} {a : α}
    {st st' : BodyState} :
    take f st = .ok a st' ↔ ∃ s, f st.supply = .ok (a, s) ∧ { st with supply := s } = st' := by
  unfold take
  cases f st.supply with
  | ok p => simp [Prod.ext_iff, and_assoc]
  | error cause => simp

theorem label_bind {β : Type} (f : Label → Reading β) (st : BodyState) :
    (label >>= f) st = f (.jump (st.supply.labels + 1))
      { st with supply := { st.supply with labels := st.supply.labels + 1 } } := rfl

theorem value_eq_ok {sigs : Signatures} {t : Text} {signed : Bool} {v : Value}
    {st st' : BodyState} :
    value sigs t signed st = .ok v st' ↔
      ∃ n, resolve ⟨sigs.methods, st.live⟩ t signed st.supply.labels = .ok v n ∧
        { st with supply := { st.supply with labels := n } } = st' := by
  unfold value
  cases resolve ⟨sigs.methods, st.live⟩ t signed st.supply.labels with
  | ok w n => simp [and_assoc]
  | error cause n => simp

theorem check_eq_ok {α : Type} {e : Except Cause α} {a : α} {st st' : BodyState} :
    check e st = .ok a st' ↔ e = .ok a ∧ st = st' := by
  unfold check
  split <;> simp

theorem stored_eq_ok {name : Text} {v : Variable} {st st' : BodyState} :
    stored name st = .ok v st' ↔
      st.live.find? (·.name == String.ofList name) = some v ∧ st = st' := by
  unfold stored
  cases st.live.find? (·.name == String.ofList name) <;> simp

theorem expectBare_bind_eq_ok {line keyword : Text} {β : Type} {f : Unit → Reading β} {b : β}
    {st st' : BodyState} :
    (expectBare line keyword >>= f) st = .ok b st' ↔
      Text.words line = [keyword] ∧ f () st = .ok b st' := by
  unfold expectBare
  by_cases h : Text.words line = [keyword]
  · simp only [h, ↓reduceIte, true_and]
    rfl
  · simp only [h, ↓reduceIte, false_and, iff_false]
    exact throw_bind_eq_ok

theorem openBlock_bind {β : Type} (b : Block) (f : Unit → Reading β) (st : BodyState) :
    (openBlock b >>= f) st = f () { st with blocks := b :: st.blocks } := rfl

end Reading
end Micro51
