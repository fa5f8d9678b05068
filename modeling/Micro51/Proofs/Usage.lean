/- # Storage in use

Of a supply, only two counters say where variables live: the last byte and
the number of bits. `Fills` says that variables took their places one after
the other between two states of these counters. From it follow the places
themselves, without a gap and without a repetition, and that giving the
variables back restores the counters.

Key definitions: `Usage`, `Fills`, `byteAddresses`, `bitPlaces`.
Key theorems: `Supply.takeVariable_eq_ok`, `Fills.usage_giveBack`,
`Fills.byteAddresses_eq`, `Fills.bitPlaces_eq`.
-/
import Micro51.Proofs.Outcome

namespace Micro51

open Outcome

/-- The counters of a supply that variables are taken from. -/
@[ext]
structure Usage where
  lastByte : Int
  bitsUsed : Int

/-- The storage that is in use. -/
def Supply.usage (s : Supply) : Usage := ⟨s.lastByte, s.bitsUsed⟩

/-- The number of variables of a kind. -/
def kindCount (k : Kind) (vs : List Variable) : Nat := vs.countP (·.kind = k)

/-- The storage in use after variables are added to it. -/
def Usage.plus (u : Usage) (vs : List Variable) : Usage :=
  ⟨u.lastByte + kindCount .byte vs, u.bitsUsed + kindCount .bit vs⟩

/-- The place of the bit that is taken when `k` bits are in use. -/
def bitPlaceAt (k : Int) : Int × Nat := (Target.bitBase + k / 8, (k % 8).toNat)

/-- The variables `vs` take their places one after the other, from the usage
`u` on, and then `w` is in use. -/
inductive Fills : Usage → List Variable → Usage → Prop where
  | nil {u : Usage} : Fills u [] u
  | byte {u w : Usage} {v : Variable} {vs : List Variable} (own : v.predefined = false)
      (kind : v.kind = .byte) (place : v.address = u.lastByte + 1 ∧ v.bit = 0)
      (room : u.lastByte + 1 < Target.byteEnd) (rest : Fills ⟨u.lastByte + 1, u.bitsUsed⟩ vs w) :
      Fills u (v :: vs) w
  | bit {u w : Usage} {v : Variable} {vs : List Variable} (own : v.predefined = false)
      (kind : v.kind = .bit) (place : (v.address, v.bit) = bitPlaceAt u.bitsUsed)
      (room : u.bitsUsed < Target.bitCount) (rest : Fills ⟨u.lastByte, u.bitsUsed + 1⟩ vs w) :
      Fills u (v :: vs) w

/-- The supply with other storage in use. -/
def Supply.withUsage (s : Supply) (u : Usage) : Supply :=
  { s with lastByte := u.lastByte, bitsUsed := u.bitsUsed }

/-- What taking a place for a variable does. -/
theorem Supply.takeVariable_eq_ok {s s' : Supply} {type : VarType} {name : String} {v : Variable}
    (h : s.takeVariable type name = .ok (v, s')) :
    v.name = name ∧ v.type = type ∧ Fills s.usage [v] s'.usage ∧ s' = s.withUsage s'.usage := by
  unfold takeVariable at h
  split at h
  · next hk =>
    simp only [except_bind_eq_ok, takeBit] at h
    obtain ⟨_, hb, h⟩ := h
    split at hb
    · cases hb
    · next room =>
      cases hb
      cases h
      exact ⟨rfl, rfl, .bit rfl hk rfl (Int.not_le.mp room) .nil, rfl⟩
  · next hk =>
    simp only [except_bind_eq_ok, takeByte] at h
    obtain ⟨_, hb, h⟩ := h
    split at hb
    · cases hb
    · next room =>
      cases hb
      cases h
      exact ⟨rfl, rfl, .byte rfl hk ⟨rfl, rfl⟩ (Int.not_le.mp room) .nil, rfl⟩

theorem Supply.takeVariable_of_byte {s : Supply} {type : VarType} (name : String)
    (kind : type.kind = .byte) (room : s.lastByte + 1 < Target.byteEnd) :
    s.takeVariable type name =
      .ok (⟨name, type, s.lastByte + 1, 0, false⟩, { s with lastByte := s.lastByte + 1 }) := by
  rw [takeVariable, kind, takeByte, if_neg (Int.not_le.mpr room)]
  rfl

theorem Supply.takeVariable_of_bit {s : Supply} {type : VarType} (name : String)
    (kind : type.kind = .bit) (room : s.bitsUsed < Target.bitCount) :
    s.takeVariable type name =
      .ok (⟨name, type, (bitPlaceAt s.bitsUsed).1, (bitPlaceAt s.bitsUsed).2, false⟩,
        { s with bitsUsed := s.bitsUsed + 1 }) := by
  rw [takeVariable, kind, takeBit, if_neg (Int.not_le.mpr room)]
  rfl

namespace Fills

variable {u w x : Usage} {vs ws : List Variable}

theorem append (h : Fills u vs w) (h' : Fills w ws x) : Fills u (vs ++ ws) x := by
  induction h with
  | nil => exact h'
  | byte own kind place room _ ih => exact .byte own kind place room (ih h')
  | bit own kind place room _ ih => exact .bit own kind place room (ih h')

theorem split : ∀ {vs : List Variable} {u : Usage}, Fills u (vs ++ ws) x →
    ∃ w, Fills u vs w ∧ Fills w ws x
  | [], _, h => ⟨_, .nil, h⟩
  | _ :: _, _, .byte own kind place room rest => by
    obtain ⟨w, h1, h2⟩ := split rest
    exact ⟨w, .byte own kind place room h1, h2⟩
  | _ :: _, _, .bit own kind place room rest => by
    obtain ⟨w, h1, h2⟩ := split rest
    exact ⟨w, .bit own kind place room h1, h2⟩

theorem own (h : Fills u vs w) : ∀ v ∈ vs, v.predefined = false := by
  induction h with
  | nil => simp
  | byte own _ _ _ _ ih => exact List.forall_mem_cons.mpr ⟨own, ih⟩
  | bit own _ _ _ _ ih => exact List.forall_mem_cons.mpr ⟨own, ih⟩

theorem usage_eq (h : Fills u vs w) : w = u.plus vs := by
  induction h with
  | nil => simp [Usage.plus, kindCount]
  | byte _ kind _ _ _ ih =>
    rw [ih]
    simp [Usage.plus, kindCount, kind]
    omega
  | bit _ kind _ _ _ ih =>
    rw [ih]
    simp [Usage.plus, kindCount, kind]
    omega

theorem byte_room (h : Fills u vs w) (hu : u.lastByte < Target.byteEnd) :
    w.lastByte < Target.byteEnd := by
  induction h with
  | nil => exact hu
  | byte _ _ _ room _ ih => exact ih room
  | bit _ _ _ _ _ ih => exact ih hu

theorem bit_room (h : Fills u vs w) (hu : u.bitsUsed ≤ Target.bitCount) :
    w.bitsUsed ≤ Target.bitCount := by
  induction h with
  | nil => exact hu
  | byte _ _ _ _ _ ih => exact ih hu
  | bit _ _ _ room _ ih => exact ih room

end Fills

/-! ### Giving back -/

theorem Supply.giveBack_cons (s : Supply) (v : Variable) (vs : List Variable) :
    s.giveBack (v :: vs) = (s.giveVariableBack v).giveBack vs := rfl

theorem Supply.giveVariableBack_plus (s : Supply) (v : Variable) :
    (s.giveVariableBack v).usage.plus [v] = s.usage := by
  unfold giveVariableBack
  split <;> next kind => simp [Usage.plus, kindCount, kind, usage, giveBitBack, giveByteBack]

/-- Giving back touches nothing but the storage in use. -/
theorem Supply.giveBack_eq : ∀ (vs : List Variable) (s : Supply),
    s.giveBack vs = s.withUsage (s.giveBack vs).usage
  | [], _ => rfl
  | v :: vs, s => by
    have others (u : Usage) : (s.giveVariableBack v).withUsage u = s.withUsage u := by
      unfold giveVariableBack
      split <;> rfl
    rw [giveBack_cons, ← others]
    exact giveBack_eq vs (s.giveVariableBack v)

theorem Usage.plus_cons (u : Usage) (v : Variable) (vs : List Variable) :
    u.plus (v :: vs) = (u.plus vs).plus [v] := by
  simp only [plus, kindCount, List.countP_cons, List.countP_nil, mk.injEq]
  omega

/-- Giving back undoes taking. Only the numbers of variables count for it, not
their order. -/
theorem Supply.giveBack_plus : ∀ (vs : List Variable) (s : Supply),
    (s.giveBack vs).usage.plus vs = s.usage
  | [], s => by simp [giveBack, Usage.plus, kindCount]
  | v :: vs, s => by
    rw [Usage.plus_cons, giveBack_cons, giveBack_plus vs, giveVariableBack_plus]

theorem Usage.plus_right_cancel {u w : Usage} {vs : List Variable} (h : u.plus vs = w.plus vs) :
    u = w := by
  simp only [plus, mk.injEq] at h
  ext <;> omega

theorem Fills.usage_giveBack {u : Usage} {vs : List Variable} {s : Supply}
    (h : Fills u vs s.usage) : (s.giveBack vs).usage = u :=
  Usage.plus_right_cancel ((Supply.giveBack_plus vs s).trans h.usage_eq)

/-! ### The places -/

/-- The addresses of the variables that are bytes. -/
def byteAddresses (vs : List Variable) : List Int :=
  (vs.filter (·.kind = .byte)).map (·.address)

/-- The places of the variables that are bits. -/
def bitPlaces (vs : List Variable) : List (Int × Nat) :=
  (vs.filter (·.kind = .bit)).map fun v => (v.address, v.bit)

theorem Fills.byteAddresses_eq {u w : Usage} {vs : List Variable} (h : Fills u vs w) :
    byteAddresses vs =
      (List.range (kindCount .byte vs)).map fun (i : Nat) => u.lastByte + 1 + i := by
  induction h with
  | nil => rfl
  | byte _ kind place _ _ ih =>
    simp only [byteAddresses, kindCount, kind, decide_true, List.filter_cons_of_pos,
      List.countP_cons_of_pos, List.map_cons, place.1, List.range_succ_eq_map, List.map_map] at ih ⊢
    rw [ih]
    simp only [Int.natCast_zero, Int.add_zero, List.cons.injEq, true_and]
    refine List.map_congr_left fun i _ => ?_
    simp only [Function.comp_apply, Int.natCast_succ]
    omega
  | bit _ kind _ _ _ ih =>
    simpa [byteAddresses, kindCount, kind] using ih

theorem Fills.bitPlaces_eq {u w : Usage} {vs : List Variable} (h : Fills u vs w) :
    bitPlaces vs =
      (List.range (kindCount .bit vs)).map fun (i : Nat) => bitPlaceAt (u.bitsUsed + i) := by
  induction h with
  | nil => rfl
  | byte _ kind _ _ _ ih =>
    simpa [bitPlaces, kindCount, kind] using ih
  | bit _ kind place _ _ ih =>
    simp only [bitPlaces, kindCount, kind, decide_true, List.filter_cons_of_pos,
      List.countP_cons_of_pos, List.map_cons, place, List.range_succ_eq_map, List.map_map] at ih ⊢
    rw [ih]
    simp only [Int.natCast_zero, Int.add_zero, List.cons.injEq, true_and]
    refine List.map_congr_left fun i _ => ?_
    simp only [Function.comp_apply, Int.natCast_succ]
    congr 1
    omega

theorem bitPlaceAt_injective {j k : Int} (h : bitPlaceAt j = bitPlaceAt k) : j = k := by
  simp only [bitPlaceAt, Prod.mk.injEq] at h
  omega

end Micro51
