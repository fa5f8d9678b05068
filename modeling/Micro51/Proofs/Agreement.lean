/- # The replay of addresses agrees with the reading

Reading a program and replaying it take the same variables and give the same
ones back, in the same order (`LineStep.usage`, `replayCommand_eq`). So the
two supplies stay as far apart as they were at the start. If that is not at
all, every address is confirmed. If it is, the first variable of the kind
that differs is refused, and nothing runs out before that.

Key definitions: `Command.declared`, `Command.ended`, `Apart`.
Key theorems: `Apart.replayVariables`, `Apart.replayRun`, `assemble_fails_iff`.
-/
import Micro51.Code
import Micro51.Proofs.Storage

namespace Micro51

open Outcome

/-! ### What a command takes and gives back -/

/-- The variable that a command declares. -/
def Command.declared : Command → List Variable
  | declaration v _ => [v]
  | _ => []

/-- The variables that a command ends. -/
def Command.ended : Command → List Variable
  | openElse b .. | closeBlock b _ => b.locals
  | closeMethod _ locals => locals
  | _ => []

/-- Reading a line takes the variable it declares and gives back those it
ends. -/
theorem LineStep.usage {sigs : Signatures} {index : Nat} {line : Text} {st st' : BodyState}
    {c : Command} (h : LineStep sigs index line st c st') :
    ∃ s : Supply, Fills st.supply.usage c.declared s.usage ∧
      st'.supply.usage = (s.giveBack c.ended).usage := by
  cases h with
  | declaration new | initialized new =>
    refine ⟨_, new.fills, ?_⟩
    show ((st.withSupply _).add _).supply.usage = _
    rw [(BodyState.add_others _ _).2.2]
    rfl
  | openFortil _ _ taken =>
    obtain ⟨-, rfl⟩ := Supply.takeRegister_eq_ok taken
    exact ⟨st.supply, .nil, rfl⟩
  | _ => exact ⟨st.supply, .nil, rfl⟩

/-- Replaying a command does the same. -/
theorem replayCommand_eq (s : Supply) (c : Command) :
    replayCommand s c =
      (c.declared.foldlM replayVariable s).map (·.giveBack c.ended) := by
  cases c with
  | declaration v initial =>
    rw [replayCommand, Command.declared, List.foldlM_cons]
    cases replayVariable s v <;> rfl
  | _ => rfl

/-! ### Two supplies apart -/

/-- The storage `r` of the replay lies `d` bytes and `e` bits behind the
storage `u` of the reading. Where it does not agree, no storage of the kind is
in use. -/
structure Apart (d e : Int) (u r : Usage) : Prop where
  bytes : r.lastByte = u.lastByte - d
  bits : r.bitsUsed = u.bitsUsed - e
  noBytes : d ≠ 0 → r.lastByte ≤ Target.byteBase
  noBits : e ≠ 0 → r.bitsUsed ≤ 0

/-- How far apart storage of a kind is. -/
def Kind.drift (d e : Int) : Kind → Int
  | byte => d
  | bit => e

namespace Apart

variable {d e : Int} {u w : Usage} {r : Supply}

/-- One variable is confirmed exactly if its kind of storage agrees. -/
theorem replayVariable_eq {v : Variable} (h : Apart d e u r.usage) (fills : Fills u [v] w) :
    v.kind.drift d e = 0 ∧ (∃ r', replayVariable r v = .ok r' ∧ Apart d e w r'.usage) ∨
      v.kind.drift d e ≠ 0 ∧ replayVariable r v = .error (.addressDiffers v.name) := by
  obtain ⟨bytes, bits, noBytes, noBits⟩ := h
  simp only [Supply.usage] at bytes bits noBytes noBits
  cases fills with
  | byte _ kind place room rest =>
    cases rest
    have room' : r.lastByte + 1 < Target.byteEnd := by
      by_cases hd : d = 0
      · omega
      · have := noBytes hd
        simp only [Target.byteBase, Target.byteEnd] at this ⊢
        omega
    have replay : replayVariable r v =
        if r.lastByte + 1 = v.address ∧ 0 = v.bit then
          .ok { r with lastByte := r.lastByte + 1 }
        else .error (.addressDiffers v.name) := by
      rw [replayVariable, Supply.takeVariable_of_byte v.name kind room']
      rfl
    rw [kind, replay, place.1, place.2]
    by_cases hd : d = 0
    · refine .inl ⟨hd, _, if_pos ⟨by omega, rfl⟩, ?_⟩
      refine ⟨?_, bits, fun hne => absurd hd hne, noBits⟩
      show r.lastByte + 1 = u.lastByte + 1 - d
      omega
    · exact .inr ⟨hd, if_neg (by omega)⟩
  | bit _ kind place room rest =>
    cases rest
    have room' : r.bitsUsed < Target.bitCount := by
      by_cases he : e = 0
      · omega
      · have := noBits he
        simp only [Target.bitCount]
        omega
    have replay : replayVariable r v =
        if (bitPlaceAt r.bitsUsed).1 = v.address ∧ (bitPlaceAt r.bitsUsed).2 = v.bit then
          .ok { r with bitsUsed := r.bitsUsed + 1 }
        else .error (.addressDiffers v.name) := by
      rw [replayVariable, Supply.takeVariable_of_bit v.name kind room']
      rfl
    have same : (bitPlaceAt r.bitsUsed).1 = v.address ∧ (bitPlaceAt r.bitsUsed).2 = v.bit ↔
        r.bitsUsed = u.bitsUsed := by
      rw [← Prod.mk.injEq, place]
      exact ⟨bitPlaceAt_injective, congrArg bitPlaceAt⟩
    rw [kind, replay]
    by_cases he : e = 0
    · refine .inl ⟨he, _, if_pos (same.mpr (by omega)), ?_⟩
      refine ⟨bytes, ?_, noBytes, fun hne => absurd he hne⟩
      show r.bitsUsed + 1 = u.bitsUsed + 1 - e
      omega
    · refine .inr ⟨he, if_neg fun hsame => he ?_⟩
      have := same.mp hsame
      omega

/-- Variables are confirmed exactly if all their kinds of storage agree. -/
theorem replayVariables {vs : List Variable} (h : Apart d e u r.usage) (fills : Fills u vs w) :
    (∀ v ∈ vs, v.kind.drift d e = 0) ∧
        (∃ r', vs.foldlM replayVariable r = .ok r' ∧ Apart d e w r'.usage) ∨
      (∃ v ∈ vs, v.kind.drift d e ≠ 0) ∧
        ∃ name, vs.foldlM replayVariable r = .error (.addressDiffers name) := by
  induction vs generalizing u r with
  | nil =>
    cases fills
    exact .inl ⟨by simp, r, rfl, h⟩
  | cons v vs ih =>
    obtain ⟨t, first, rest⟩ := (show Fills u ([v] ++ vs) w from fills).split
    rw [List.foldlM_cons]
    rcases h.replayVariable_eq first with ⟨drift, r', hr', h'⟩ | ⟨drift, hr⟩
    · rw [hr']
      rcases ih h' rest with ⟨all, ok⟩ | ⟨⟨x, hx, hd⟩, error⟩
      · exact .inl ⟨List.forall_mem_cons.mpr ⟨drift, all⟩, ok⟩
      · exact .inr ⟨⟨x, List.mem_cons_of_mem _ hx, hd⟩, error⟩
    · rw [hr]
      exact .inr ⟨⟨v, List.mem_cons_self, drift⟩, v.name, rfl⟩

theorem giveBack {s : Supply} (h : Apart d e s.usage r.usage) (vs : List Variable) :
    Apart d e (s.giveBack vs).usage (r.giveBack vs).usage := by
  have hs := Supply.giveBack_plus vs s
  have hr := Supply.giveBack_plus vs r
  rw [← hs, ← hr] at h
  obtain ⟨bytes, bits, noBytes, noBits⟩ := h
  simp only [Usage.plus] at bytes bits noBytes noBits
  refine ⟨by omega, by omega, fun hd => ?_, fun he => ?_⟩
  · have := noBytes hd
    omega
  · have := noBits he
    omega

/-- The commands of a run are confirmed exactly if all their kinds of storage
agree. -/
theorem replayRun {sigs : Signatures} {index : Nat} {st st' : BodyState} {lines : List Text}
    {cs : List Command} (run : LineRun sigs index st lines cs st')
    (h : Apart d e st.supply.usage r.usage) :
    (∀ v ∈ cs.flatMap Command.declared, v.kind.drift d e = 0) ∧
        (∃ r', cs.foldlM replayCommand r = .ok r') ∨
      (∃ v ∈ cs.flatMap Command.declared, v.kind.drift d e ≠ 0) ∧
        ∃ name, cs.foldlM replayCommand r = .error (.addressDiffers name) := by
  induction run generalizing r with
  | nil => exact .inl ⟨by simp, r, rfl⟩
  | @cons _ st t _ _ _ c cs step _ ih =>
    obtain ⟨s, fills, after⟩ := step.usage
    rw [List.foldlM_cons, replayCommand_eq, List.flatMap_cons]
    rcases h.replayVariables fills with ⟨all, r', hr', h'⟩ | ⟨⟨v, hv, hd⟩, name, hr⟩
    · have next := h'.giveBack c.ended
      rw [← after] at next
      rw [hr']
      rcases ih next with ⟨rest, ok⟩ | ⟨⟨v, hv, hd⟩, error⟩
      · refine .inl ⟨fun v hv => ?_, ok⟩
        rcases List.mem_append.mp hv with hv | hv
        · exact all v hv
        · exact rest v hv
      · exact .inr ⟨⟨v, List.mem_append_right _ hv, hd⟩, error⟩
    · rw [hr]
      exact .inr ⟨⟨v, List.mem_append_left _ hv, hd⟩, name, rfl⟩

end Apart

/-! ### Operands that are copied -/

theorem Operand.fits_of_kind {o : Operand} {v : Variable} (h : o.kind = v.kind) :
    o.fits v = true := by
  unfold fits
  split
  · next c hv =>
    rw [hv] at h
    exact beq_iff_eq.mpr h
  · rfl

theorem Value.WellFormed.fits {s : Scope} {v : Value} (h : v.WellFormed s) : v.fits = true := by
  cases v with
  | expr e => rfl
  | call c =>
    rw [Value.fits, List.all_eq_true]
    rintro ⟨p, e⟩ hpe
    have kind := h.kinds _ hpe
    cases e with
    | operand o => exact Operand.fits_of_kind kind
    | _ => rfl

theorem Assigns.fits {sigs : Signatures} {st : BodyState} {a : Assignment} {n : Nat}
    (h : Assigns sigs st a n) : a.fits = true := by
  unfold Assignment.fits
  split
  · next o mode value =>
    refine Operand.fits_of_kind ?_
    have kind := h.kind o.kind (by rw [value]; rfl)
    rw [mode] at kind
    exact kind
  · exact h.value.wellFormed.fits

/-- What a command copies can be copied. -/
theorem LineStep.fits {sigs : Signatures} {index : Nat} {line : Text} {st st' : BodyState}
    {c : Command} (h : LineStep sigs index line st c st') : c.fits = true := by
  cases h with
  | initialized _ initial => exact initial.fits
  | assignment assigned => exact assigned.fits
  | value read | openIf read | openWhile read | openFortil read | giveBackValue _ read
  | sleep read => exact read.wellFormed.fits
  | _ => rfl

theorem LineRun.fits {sigs : Signatures} {index : Nat} {st st' : BodyState} {lines : List Text}
    {cs : List Command} (run : LineRun sigs index st lines cs st') :
    cs.all Command.fits = true := by
  induction run with
  | nil => rfl
  | cons step _ ih =>
    rw [List.all_cons, step.fits, ih]
    rfl

/-! ### Whole programs -/

/-- The parameters and the declared variables of a program. -/
def Program.variables (p : Program) : List Variable :=
  p.methods.flatMap (·.parameters) ++ p.commands.flatMap Command.declared

/-- Replaying a program confirms all its addresses, or refuses one of them. -/
theorem Program.replay_of_read {raw : List Text} {supply : Supply} {p : Program}
    (h : Program.read raw supply = .ok p) :
    (∀ v ∈ p.variables, v.kind.drift (supply.lastByte - 0x30) supply.bitsUsed = 0) ∧
        (∃ r, p.replay = .ok r) ∨
      (∃ v ∈ p.variables, v.kind.drift (supply.lastByte - 0x30) supply.bitsUsed ≠ 0) ∧
        ∃ name, p.replay = .error (.addressDiffers name) := by
  obtain ⟨sigs, s, st, signatures, run, -, -, -, methods⟩ := Program.exists_run h
  obtain ⟨new, hnew, fills, -⟩ := signatures.fills
  rw [List.nil_append] at hnew
  rw [← hnew, ← methods] at fills
  have first : Apart (supply.lastByte - 0x30) supply.bitsUsed supply.usage
      ({} : Supply).usage := by
    refine ⟨?_, ?_, fun _ => Int.le_refl _, fun _ => Int.le_refl _⟩
    · show (0x30 : Int) = supply.lastByte - (supply.lastByte - 0x30)
      omega
    · show (0 : Int) = supply.bitsUsed - supply.bitsUsed
      omega
  unfold Program.replay Program.variables
  rcases first.replayVariables fills with ⟨all, r, hr, apart⟩ | ⟨⟨v, hv, hd⟩, name, hr⟩
  · rw [hr]
    rcases apart.replayRun run with ⟨rest, ok⟩ | ⟨⟨v, hv, hd⟩, error⟩
    · refine .inl ⟨fun v hv => ?_, ok⟩
      rcases List.mem_append.mp hv with hv | hv
      · exact all v hv
      · exact rest v hv
    · exact .inr ⟨⟨v, List.mem_append_right _ hv, hd⟩, error⟩
  · rw [hr]
    exact .inr ⟨⟨v, List.mem_append_left _ hv, hd⟩, name, rfl⟩

theorem Program.fits_of_read {raw : List Text} {supply : Supply} {p : Program}
    (h : Program.read raw supply = .ok p) : p.commands.all Command.fits = true := by
  obtain ⟨sigs, s, st, -, run, -⟩ := Program.exists_run h
  exact run.fits

/-- The assembly of a program that was read fails only where an address
differs. -/
theorem Program.assemble_of_read {raw : List Text} {supply : Supply} {p : Program} (o : Options)
    (h : Program.read raw supply = .ok p) :
    (∀ v ∈ p.variables, v.kind.drift (supply.lastByte - 0x30) supply.bitsUsed = 0) ∧
        p.assemble o = .ok (assemblyText (p.code o)) ∨
      (∃ v ∈ p.variables, v.kind.drift (supply.lastByte - 0x30) supply.bitsUsed ≠ 0) ∧
        ∃ name, p.assemble o = .error (.addressDiffers name) := by
  unfold Program.assemble
  rcases Program.replay_of_read h with ⟨all, r, hr⟩ | ⟨some_, name, hr⟩
  · refine .inl ⟨all, ?_⟩
    rw [hr]
    exact if_pos (Program.fits_of_read h)
  · refine .inr ⟨some_, name, ?_⟩
    rw [hr]
    rfl

/-- A program that was read from a fresh supply is assembled. -/
theorem Program.assemble_of_fresh {raw : List Text} {p : Program} (o : Options)
    (h : Program.read raw = .ok p) : p.assemble o = .ok (assemblyText (p.code o)) := by
  rcases Program.assemble_of_read o h with ⟨-, ok⟩ | ⟨⟨v, -, differs⟩, -⟩
  · exact ok
  · refine absurd ?_ differs
    cases v.kind <;> decide

/-- A program that was read from any supply can be assembled, unless the
supply had handed out bytes or bits before and the program has a variable of
that kind; then the failure is one of code generation. -/
theorem assemble_fails_iff {raw : List Text} {supply : Supply} {p : Program}
    (h : Program.read raw supply = .ok p) (o : Options) :
    ((∃ cause, p.assemble o = .error cause) ↔
      (supply.lastByte ≠ 0x30 ∧ ∃ v ∈ p.variables, v.kind = .byte) ∨
        (supply.bitsUsed ≠ 0 ∧ ∃ v ∈ p.variables, v.kind = .bit)) ∧
    (∀ cause, p.assemble o = .error cause → cause.category = .generation) ∧
    (supply.lastByte = 0x30 ∧ supply.bitsUsed = 0 →
      p.assemble o = .ok (assemblyText (p.code o))) := by
  have drift : (∃ v ∈ p.variables, v.kind.drift (supply.lastByte - 0x30) supply.bitsUsed ≠ 0) ↔
      (supply.lastByte ≠ 0x30 ∧ ∃ v ∈ p.variables, v.kind = .byte) ∨
        (supply.bitsUsed ≠ 0 ∧ ∃ v ∈ p.variables, v.kind = .bit) := by
    constructor
    · rintro ⟨v, hv, hd⟩
      cases kind : v.kind with
      | byte =>
        rw [kind] at hd
        exact .inl ⟨fun he => hd (Int.sub_eq_zero.mpr he), v, hv, kind⟩
      | bit =>
        rw [kind] at hd
        exact .inr ⟨hd, v, hv, kind⟩
    · rintro (⟨hne, v, hv, kind⟩ | ⟨hne, v, hv, kind⟩)
      · refine ⟨v, hv, ?_⟩
        rw [kind]
        exact fun he => hne (Int.sub_eq_zero.mp he)
      · refine ⟨v, hv, ?_⟩
        rw [kind]
        exact hne
  rcases Program.assemble_of_read o h with ⟨all, ok⟩ | ⟨some_, name, error⟩
  · rw [ok]
    refine ⟨⟨fun ⟨_, hc⟩ => (nomatch hc), fun differs => ?_⟩, fun _ hc => (nomatch hc), fun _ => rfl⟩
    obtain ⟨v, hv, hd⟩ := drift.mpr differs
    exact absurd (all v hv) hd
  · have differs := drift.mp some_
    rw [error]
    refine ⟨⟨fun _ => differs, fun _ => ⟨_, rfl⟩⟩, fun cause hc => ?_, fun ⟨bytes, bits⟩ => ?_⟩
    · cases hc
      rfl
    · rcases differs with ⟨hne, -⟩ | ⟨hne, -⟩
      · exact absurd bytes hne
      · exact absurd bits hne

/-- A supply that has handed out a byte before: the bool is confirmed, the
byte in the block is not. -/
theorem assemble_fails_byte_taken :
    ∃ p, Program.read (["bool b", "block", "int a", "endblock"].map String.toList)
        { lastByte := 0x31 } = .ok p ∧
      ∃ cause, p.assemble {} = .error cause ∧ cause.category = .generation := by
  obtain ⟨p, hp⟩ := Program.exists_of_isOk
    (["bool b", "block", "int a", "endblock"].map String.toList) { lastByte := 0x31 }
    (by decide +kernel)
  have byte : (match Program.read (["bool b", "block", "int a", "endblock"].map String.toList)
      { lastByte := 0x31 } with
      | .ok q => q.variables.any (·.kind == .byte)
      | .error _ => false) = true := by decide +kernel
  rw [hp] at byte
  obtain ⟨v, hv, kind⟩ := List.any_eq_true.mp byte
  obtain ⟨iff, category, -⟩ := assemble_fails_iff hp {}
  obtain ⟨cause, hc⟩ := iff.mpr (.inl ⟨by decide, v, hv, beq_iff_eq.mp kind⟩)
  exact ⟨p, hp, cause, hc, category cause hc⟩

end Micro51
