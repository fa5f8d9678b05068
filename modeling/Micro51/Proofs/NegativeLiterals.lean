/- # Negative numbers in chains

The sign of a negative number is no operator: a chain with negative numbers, written
with single blanks, has the tree that it has with other numbers in their place. But for
`*`, `/` and `%` this holds only where no negative number stands next to them. The minus
comes before these operators in the ranking, and so the sign is looked for first; as no
operand stands in front of it, reading fails.

Key definitions: `Operand.isNegative`, `Chain.spaced`, `Chain.SignsApart`.
Key theorems: `Chain.signFree_tree`, `Chain.readsAs_spaced`, `Chain.resolve_spaced_error`,
`negative_literals_intact_iff`.
-/
import Micro51.Proofs.Precedence

namespace Micro51

open Text SourceLine Outcome

/-! ### Signs next to tight operators -/

/-- No signed operand stands next to a tight operator. -/
def signsApart {α : Type} (signed : α → Bool) (first : α) : List (DyadicOp × α) → Prop
  | [] => True
  | p :: rest =>
    (p.1.isTight = true → signed first = false ∧ signed p.2 = false) ∧ signsApart signed p.2 rest

/-- No signed operand stands next to a tight operator. -/
def Chain.SignsApart {α : Type} (signed : α → Bool) (c : Chain α) : Prop :=
  signsApart signed c.first c.rest

instance decidableSignsApart {α : Type} (signed : α → Bool) :
    (first : α) → (rest : List (DyadicOp × α)) → Decidable (signsApart signed first rest)
  | _, [] => inferInstanceAs (Decidable True)
  | first, p :: rest =>
    have := decidableSignsApart signed p.2 rest
    inferInstanceAs (Decidable ((p.1.isTight = true → signed first = false ∧ signed p.2 = false) ∧
      signsApart signed p.2 rest))

instance {α : Type} (signed : α → Bool) (c : Chain α) : Decidable (c.SignsApart signed) :=
  decidableSignsApart signed c.first c.rest

namespace Chain

variable {α : Type} {signed : α → Bool} {c l r : Chain α} {op : DyadicOp}

/-- Around an operator that is not tight, signs can stand. -/
theorem signsApart_join (loose : op.isTight = false) :
    (l.join op r).SignsApart signed ↔ l.SignsApart signed ∧ r.SignsApart signed := by
  obtain ⟨first, rest⟩ := l
  induction rest generalizing first with
  | nil => simp [SignsApart, signsApart, join, loose]
  | cons p rest ih =>
    have later := ih p.2
    simp only [SignsApart, signsApart, join, List.cons_append] at later ⊢
    rw [later, and_assoc]

/-- Between tight operators only, no operand is signed. -/
theorem signsApart_of_tight (some : c.rest ≠ []) (tight : ∀ q ∈ c.operators, q.isTight = true) :
    c.SignsApart signed ↔ ∀ a ∈ c.operands, signed a = false := by
  obtain ⟨first, rest⟩ := c
  induction rest generalizing first with
  | nil => exact absurd rfl some
  | cons p rest ih =>
    obtain ⟨here, later⟩ := List.forall_mem_cons.mp tight
    have operands : (⟨first, p :: rest⟩ : Chain α).operands = first :: (⟨p.2, rest⟩ : Chain α).operands :=
      rfl
    rw [operands, List.forall_mem_cons]
    by_cases last : rest = []
    · simp [SignsApart, signsApart, Chain.operands, here, last]
    · rw [← ih p.2 last later]
      refine ⟨fun h => ⟨(h.1 here).1, h.2⟩, fun h => ⟨fun _ => ⟨h.1, ?_⟩, h.2⟩⟩
      exact (ih p.2 last later).mp h.2 p.2 List.mem_cons_self

theorem tight_of_loosest (loosest : c.loosest? = some op) (tight : op.isTight = true) :
    ∀ q ∈ c.operators, q.isTight = true := by
  have all : ∀ op ∈ DyadicOp.ranking, op.isTight = true → ∀ q ∈ DyadicOp.ranking,
      q.isTight = false → q ∈ DyadicOp.ranking.takeWhile (· ≠ op) := by decide
  intro q hq
  by_contra loose
  rw [Bool.not_eq_true] at loose
  exact (loosest?_eq_some loosest).2 q (all op op.mem_ranking tight q q.mem_ranking loose) hq

/-- **Signs below tight operators of the tree** are the ones next to tight operators. -/
theorem signFree_tree (signed : α → Bool) (c : Chain α) :
    c.tree.SignFree signed ↔ c.SignsApart signed := by
  induction c using cut_induction with
  | single a =>
    rw [tree_of_single]
    exact Iff.rfl
  | cut op l r h ihl ihr =>
    obtain ⟨loosest, -, -⟩ := cut?_eq_some h
    rw [tree_of_cut h, OpTree.SignFree, leaves_tree, leaves_tree, ← operands_join]
    by_cases tight : op.isTight = true
    · have some : (l.join op r).rest ≠ [] := by simp [join]
      rw [signsApart_of_tight some (tight_of_loosest loosest tight)]
      refine ⟨fun free => free.1 tight, fun clear => ⟨fun _ => clear, ?_⟩⟩
      rw [operands_join, List.forall_mem_append] at clear
      exact ⟨.of_leaves (by rw [leaves_tree]; exact clear.1),
        .of_leaves (by rw [leaves_tree]; exact clear.2)⟩
    · rw [ihl, ihr, signsApart_join (Bool.eq_false_iff.mpr tight)]
      simp [tight]

end Chain

theorem OpTree.leaves_map {α β : Type} (f : α → β) (t : OpTree α) :
    (t.map f).leaves = t.leaves.map f := by
  induction t with
  | leaf a => rfl
  | node op l r ihl ihr => rw [map, leaves, ihl, ihr, leaves, List.map_append]

theorem OpTree.map_map {α β γ : Type} (f : α → β) (g : β → γ) (t : OpTree α) :
    (t.map f).map g = t.map (g ∘ f) := by
  induction t with
  | leaf a => rfl
  | node op l r ihl ihr => rw [map, map, ihl, ihr, map]

/-- Only the signs count. -/
theorem OpTree.signFree_map {α β γ : Type} {t : OpTree α} {f : α → β} {g : α → γ}
    {signed : β → Bool} {signed' : γ → Bool}
    (same : ∀ a ∈ t.leaves, signed (f a) = signed' (g a)) :
    (t.map f).SignFree signed ↔ (t.map g).SignFree signed' := by
  induction t with
  | leaf a => exact Iff.rfl
  | node op l r ihl ihr =>
    obtain ⟨left, right⟩ := List.forall_mem_append.mp same
    have clear : (∀ b ∈ (l.map f).leaves ++ (r.map f).leaves, signed b = false) ↔
        ∀ b ∈ (l.map g).leaves ++ (r.map g).leaves, signed' b = false := by
      rw [leaves_map, leaves_map, leaves_map, leaves_map, ← List.map_append, ← List.map_append,
        List.forall_mem_map, List.forall_mem_map]
      exact forall₂_congr fun a ha => by rw [same a ha]
    simp only [map, SignFree, clear, ihl left, ihr right]

/-! ### Reading among signs -/

namespace OpTree

variable {sc : Scope}

/-- **A sign below a tight operator** is refused as a minus without a left operand. -/
theorem read_of_not_signFree {t : OpTree (Term × Text)}
    (leaves : ∀ p ∈ t.leaves, ReadsAs (resolve sc p.2 false) p.1.Fits p.1.expr p.1.labels)
    (fits : (t.map Prod.fst).Fits) (signs : ¬(t.map Prod.snd).SignFree isSigned) (n : Nat) :
    ∃ m, (t.map Prod.snd).read sc n = .error (.operandMissing "-") m := by
  induction t generalizing n with
  | leaf p => exact absurd trivial signs
  | node op l r ihl ihr =>
    obtain ⟨leavesLeft, leavesRight⟩ := List.forall_mem_append.mp leaves
    obtain ⟨fitsLeft, fitsRight, -⟩ := fits
    by_cases clear : op.isTight = true →
        ∀ x ∈ (l.map Prod.snd).leaves ++ (r.map Prod.snd).leaves, isSigned x = false
    · rw [map, read_node clear]
      by_cases left : (l.map Prod.snd).SignFree isSigned
      · have right : ¬(r.map Prod.snd).SignFree isSigned := fun right => signs ⟨clear, left, right⟩
        obtain ⟨m, failed⟩ := ihr leavesRight fitsRight right (n + (l.map Prod.fst).labels)
        rw [bind_of_ok ((readsAs leavesLeft left).ok fitsLeft n), bind_of_ok (asOperand_expr ..)]
        exact ⟨m, bind_of_error failed⟩
      · obtain ⟨m, failed⟩ := ihl leavesLeft fitsLeft left n
        exact ⟨m, bind_of_error failed⟩
    · simp only [Classical.not_imp, not_forall, Bool.not_eq_false] at clear
      obtain ⟨tight, x, hx, signed⟩ := clear
      rw [map, read, if_pos]
      · exact ⟨n, rfl⟩
      · rw [Bool.and_eq_true, List.any_eq_true]
        exact ⟨tight, x, hx, signed⟩

end OpTree

/-! ### Chains with single blanks -/

/-- Is the operand a negative number? -/
def Operand.isNegative : Operand → Bool
  | stored _ => false
  | literal c => c.value < 0

/-- How a chain is written with single blanks between its tokens. -/
def Chain.spaced (c : Chain Operand) : Text :=
  c.first.text.toList ++
    c.rest.flatMap fun p => ' ' :: p.1.symbol.toList ++ ' ' :: p.2.text.toList

/-- The operands of the chain with the blanks around them. Those behind an operator begin
with a blank. -/
theorem Chain.exists_sides_spaced (c : Chain Operand) {w : Text} (blank : Blank w) :
    ∃ e : Chain (Operand × Text), e.map Prod.fst = c ∧ (e.map Prod.snd).text = w ++ c.spaced ∧
      (∀ p ∈ e.operands, Renders [p.1.text.toList] p.2) ∧ (∃ t, e.first.2 = w ++ t) ∧
      ∀ p ∈ e.rest, p.2.2.head? = some ' ' := by
  have space : Blank [' '] := List.forall_mem_singleton.mpr (by decide)
  obtain ⟨first, rest⟩ := c
  induction rest generalizing first w with
  | nil =>
    refine ⟨⟨(first, w ++ first.text.toList), []⟩, rfl, ?_, ?_, ⟨_, rfl⟩, List.forall_mem_nil _⟩
    · simp [text, map, spaced]
    · rw [operands, List.map_nil, List.forall_mem_singleton,
        ← List.append_nil (w ++ first.text.toList)]
      exact .cons blank (.nil (List.forall_mem_nil _))
  | cons p rest ih =>
    obtain ⟨e, operands, text, renders, ⟨t, front⟩, heads⟩ := ih space p.2
    refine ⟨join ⟨(first, w ++ first.text.toList ++ [' ']), []⟩ p.1 e, ?_, ?_, ?_,
      ⟨first.text.toList ++ [' '], List.append_assoc ..⟩, ?_⟩
    · rw [join_map, operands]
      rfl
    · rw [join_map, text_join, text]
      simp [Chain.text, map, spaced]
    · rw [operands_join, List.forall_mem_append]
      exact ⟨List.forall_mem_singleton.mpr (.cons blank (.nil space)), renders⟩
    · refine List.forall_mem_cons.mpr ⟨?_, heads⟩
      show e.first.2.head? = some ' '
      rw [front]
      rfl

section

variable {sc : Scope} {o : Operand} {x : Text}

theorem Operand.Signless.isNegative_eq (signless : o.Signless sc) : o.isNegative = false := by
  cases signless with
  | stored live => rfl
  | @unsigned n byte =>
    have : ¬(n.value : Int) < 0 := by omega
    exact decide_eq_false this

theorem Operand.Negative.isNegative_eq (negative : o.Negative) : o.isNegative = true := by
  cases negative with
  | @literal n some byte =>
    have : -(n.value : Int) < 0 := by omega
    exact decide_eq_true this

/-- A negative number can stand between operators, and its sign in front. -/
theorem Operand.Negative.isSide (negative : o.Negative) (renders : Renders [o.text.toList] x) :
    IsSide x ∧ isSigned x = true := by
  obtain ⟨w, w', blank, blank', rfl⟩ := renders.exists_of_single
  cases negative with
  | @literal n some byte =>
    have whole : w ++ (Operand.literal n.negative).text.toList ++ w' = w ++ '-' :: (n.text ++ w') := by
      simp [n.text_negative]
    have behind : ∀ c ∈ n.text ++ w', isJoint c = false ∧ isNesting c = false :=
      List.forall_mem_append.mpr ⟨n.isWord.not_isJoint, fun c hc => not_isJoint_of_isBlank (blank' c hc)⟩
    rw [whole]
    refine ⟨⟨?_, ?_, ?_, ?_⟩, isSigned_of_blank blank⟩
    · refine List.forall_mem_append.mpr ⟨fun c hc => (not_isJoint_of_isBlank (blank c hc)).2, ?_⟩
      exact List.forall_mem_cons.mpr ⟨by decide, fun c hc => (behind c hc).2⟩
    · have split : w ++ '-' :: (n.text ++ w') = (w ++ ['-']) ++ n.text ++ w' := by simp
      have usable := n.isWord.isLeftOperand
      rw [split, isLeftOperand_append_blank _ blank',
        isLeftOperand_append _ (visible_of_isLeftOperand usable), usable]
    · rw [trimLeft_blank_append blank]
      exact ofWord?_firstWord (x := []) (by decide) (by decide)
    · intro a d b split joint
      rcases Chain.mem_side split with ⟨b', inside⟩ | ⟨a', rfl, rest⟩
      · have := not_isJoint_of_isBlank (blank d (by simp [inside]))
        rw [this.1] at joint
        cases joint
      · cases a' with
        | nil =>
          obtain ⟨rfl, -⟩ := List.cons.inj rest
          exact ⟨rfl, by rwa [List.append_nil]⟩
        | cons e a' =>
          rw [(behind d (by simp [(List.cons.inj rest).2])).1] at joint
          cases joint

/-- What an operand on its own is between operators, and how it is read. -/
theorem Operand.side_and_reading (named : sc.Named) (operand : o.Signless sc ∨ o.Negative)
    (renders : Renders [o.text.toList] x) :
    IsSide x ∧ isSigned x = o.isNegative ∧
      ReadsAs (resolve sc x false) (Term.plain o).Fits (Term.plain o).expr (Term.plain o).labels := by
  rcases operand with signless | negative
  · have joints := Term.not_isJoint named (t := .plain o) signless renders
    refine ⟨Term.isSide named (t := .plain o) signless renders, ?_,
      Term.readsAs named (.plain o) signless renders⟩
    rw [signless.isNegative_eq, ← Bool.not_eq_true]
    intro signed
    cases (joints '-' (mem_of_isSigned signed)).1
  · obtain ⟨side, signed⟩ := negative.isSide renders
    refine ⟨side, by rw [signed, negative.isNegative_eq], ?_⟩
    rw [resolve_single renders, resolve_negative named negative]
    exact .plain o

/-- **A chain with single blanks is read by its tree**, with the blanks around its operands. -/
theorem Chain.exists_tree_spaced (named : sc.Named) {c : Chain Operand}
    (operands : ∀ o ∈ c.operands, o.Signless sc ∨ o.Negative) :
    ∃ t : OpTree (Term × Text), t.map Prod.fst = c.tree.map .plain ∧
      resolve sc c.spaced false = (t.map Prod.snd).read sc ∧
      (∀ p ∈ t.leaves, ReadsAs (resolve sc p.2 false) p.1.Fits p.1.expr p.1.labels) ∧
      ((t.map Prod.snd).SignFree isSigned ↔ c.SignsApart Operand.isNegative) := by
  obtain ⟨e, rfl, text, renders, -, heads⟩ := c.exists_sides_spaced (w := []) (List.forall_mem_nil _)
  rw [operands_map, List.forall_mem_map] at operands
  have known (p : Operand × Text) (hp : p ∈ e.operands) :=
    Operand.side_and_reading named (operands p hp) (renders p hp)
  have sides : (e.map Prod.snd).Sides := by
    refine ⟨?_, ?_⟩
    · rw [operands_map, List.forall_mem_map]
      exact fun p hp => (known p hp).1
    · intro p hp minus
      obtain ⟨q, hq, rfl⟩ := List.mem_map.mp hp
      rw [heads q hq] at minus
      cases minus
  refine ⟨e.tree.map fun p => (.plain p.1, p.2), ?_, ?_, ?_, ?_⟩
  · rw [OpTree.map_map, tree_map, OpTree.map_map]
    rfl
  · rw [OpTree.map_map, ← List.nil_append (e.map Prod.fst).spaced, ← text, resolve_text named sides,
      tree_map]
    rfl
  · rw [OpTree.leaves_map, List.forall_mem_map, leaves_tree]
    exact fun p hp => (known p hp).2.2
  · rw [OpTree.map_map, ← signFree_tree, tree_map]
    refine OpTree.signFree_map fun p hp => ?_
    rw [leaves_tree] at hp
    exact (known p hp).2.1

/-- Signs apart from tight operators stay with their numbers. -/
theorem Chain.readsAs_spaced (named : sc.Named) {c : Chain Operand}
    (operands : ∀ o ∈ c.operands, o.Signless sc ∨ o.Negative)
    (apart : c.SignsApart Operand.isNegative) :
    ReadsAs (resolve sc c.spaced false) (c.tree.map .plain).Fits (fun n => (c.tree.map .plain).expr n)
      (c.tree.map .plain).labels := by
  obtain ⟨t, terms, read, leaves, signs⟩ := exists_tree_spaced named operands
  rw [read, ← terms]
  exact OpTree.readsAs leaves (signs.mpr apart)

/-- A sign next to a tight operator is refused. -/
theorem Chain.resolve_spaced_error (named : sc.Named) {c : Chain Operand}
    (operands : ∀ o ∈ c.operands, o.Signless sc ∨ o.Negative) (fits : (c.tree.map .plain).Fits)
    (apart : ¬c.SignsApart Operand.isNegative) (n : Nat) :
    ∃ m, resolve sc c.spaced false n = .error (.operandMissing "-") m := by
  obtain ⟨t, terms, read, leaves, signs⟩ := exists_tree_spaced named operands
  rw [← terms] at fits
  rw [read]
  exact OpTree.read_of_not_signFree leaves fits (mt signs.mp apart) n

end

/-! ### Numbers in place of negative ones -/

/-- Puts numbers without a sign in the place of negative ones. -/
structure StandIn (f : Operand → Operand) : Prop where
  negative : ∀ o, o.Negative → ∃ n : Numeral, n.value ≤ 255 ∧ f o = .literal n.unsigned
  other : ∀ o, ¬o.Negative → f o = o

namespace StandIn

variable {sc : Scope} {f : Operand → Operand} {o : Operand}

theorem signless (standIn : StandIn f) (operand : o.Signless sc ∨ o.Negative) :
    (f o).Signless sc := by
  by_cases negative : o.Negative
  · obtain ⟨n, byte, same⟩ := standIn.negative o negative
    rw [same]
    exact .unsigned byte
  · rw [standIn.other o negative]
    exact operand.resolve_right negative

theorem kind_eq (standIn : StandIn f) (o : Operand) : (f o).kind = o.kind := by
  by_cases negative : o.Negative
  · obtain ⟨n, -, same⟩ := standIn.negative o negative
    rw [same]
    cases negative with
    | literal => rfl
  · rw [standIn.other o negative]

/-- The kinds fit as before. -/
theorem fits_iff (standIn : StandIn f) (t : OpTree Operand) :
    (((t.map f).map .plain).Fits ↔ (t.map .plain).Fits) ∧
      ((t.map f).map .plain).kind = (t.map .plain).kind := by
  induction t with
  | leaf o =>
    exact ⟨iff_of_true (Term.plain_fits (f o)) (Term.plain_fits o), standIn.kind_eq o⟩
  | node op l r ihl ihr =>
    simp only [OpTree.map, OpTree.Fits, OpTree.kind, ihl, ihr, and_self]

end StandIn

/-- **Negative numbers among operators.** In every state in which values are read, take a
chain with single blanks whose kinds fit. With other numbers in the place of negative ones
it is read as its tree. With the negative ones it is read as the same tree if and only if
none of them stands next to `*`, `/` or `%`; if one does, reading fails at its sign. -/
theorem negative_literals_intact_iff {raw : List Text} {supply : Supply} {sigs : Signatures}
    {st : BodyState} (reading : ReadingState raw supply sigs st) {c : Chain Operand}
    (operands : ∀ o ∈ c.operands, o.Signless ⟨sigs.methods, st.live⟩ ∨ o.Negative)
    (fits : (c.tree.map .plain).Fits) (n : Nat) :
    (∀ f, StandIn f → resolve ⟨sigs.methods, st.live⟩ (c.map f).spaced false n =
      .ok (.expr (((c.tree.map f).map .plain).expr n)) (n + ((c.tree.map f).map .plain).labels)) ∧
    (resolve ⟨sigs.methods, st.live⟩ c.spaced false n =
        .ok (.expr ((c.tree.map .plain).expr n)) (n + (c.tree.map .plain).labels) ↔
      c.SignsApart Operand.isNegative) ∧
    (¬c.SignsApart Operand.isNegative →
      ∃ m, resolve ⟨sigs.methods, st.live⟩ c.spaced false n = .error (.operandMissing "-") m) := by
  have named := reading.named
  refine ⟨fun f standIn => ?_, ⟨fun read => ?_, fun apart => ?_⟩, fun apart => ?_⟩
  · have signless : ∀ o ∈ (c.map f).operands, o.Signless ⟨sigs.methods, st.live⟩ := by
      rw [Chain.operands_map, List.forall_mem_map]
      exact fun o ho => standIn.signless (operands o ho)
    have apart : (c.map f).SignsApart Operand.isNegative := by
      rw [← Chain.signFree_tree]
      refine .of_leaves ?_
      rw [Chain.leaves_tree]
      exact fun o ho => (signless o ho).isNegative_eq
    have reads := Chain.readsAs_spaced named (fun o ho => .inl (signless o ho)) apart
    rw [Chain.tree_map] at reads
    exact reads.ok ((standIn.fits_iff c.tree).1.mpr fits) n
  · by_contra apart
    obtain ⟨m, failed⟩ := Chain.resolve_spaced_error named operands fits apart n
    rw [read] at failed
    cases failed
  · exact (Chain.readsAs_spaced named operands apart).ok fits n
  · exact Chain.resolve_spaced_error named operands fits apart n

/-- The numeral of the last digit of a number. -/
def Numeral.ofDigit (n : Nat) : Numeral :=
  ofDigits ⟨n % 10, Nat.mod_lt n (Nat.succ_pos 9)⟩ [] length_nil_lt

/-- The chain `-5 + x * 2 > -7`. -/
def signedSum : Chain Operand where
  first := .literal (Numeral.ofDigit 5).negative
  rest := [(.plain .add, .stored firstByte),
    (.plain .multiply, .literal (Numeral.ofDigit 2).unsigned),
    (.compare .bigger, .literal (Numeral.ofDigit 7).negative)]

/-- How the chain is read: with the same tree as `5 + x * 2 > 7`. -/
def signedSumExpr : Expr :=
  .compare .bigger true
    (.binary .add (.operand (.literal ⟨"-5", .cint, -5⟩))
      (.binary .multiply (.operand (.stored firstByte)) (.operand (.literal ⟨"2", .int, 2⟩))))
    (.operand (.literal ⟨"-7", .cint, -7⟩)) (.jump 1) (.jump 2)

theorem negative_literals_intact_iff_signedSum :
    ∃ sigs st, ReadingState ["int x".toList] {} sigs st ∧ (signedSum.tree.map .plain).Fits ∧
      signedSum.SignsApart Operand.isNegative ∧
      resolve ⟨sigs.methods, st.live⟩ "-5 + x * 2 > -7".toList false 0 =
        .ok (.expr signedSumExpr) 2 := by
  obtain ⟨sigs, st, reading, live⟩ := ReadingState.exists_firstByte
  have operands : ∀ o ∈ signedSum.operands, o.Signless ⟨sigs.methods, st.live⟩ ∨ o.Negative := by
    simp only [signedSum, Chain.operands, List.map_cons, List.map_nil, List.forall_mem_cons]
    exact ⟨.inr (.literal (by decide) (by decide)), .inl (.stored live), .inl (.unsigned (by decide)),
      .inr (.literal (by decide) (by decide)), List.forall_mem_nil _⟩
  have fits : (signedSum.tree.map .plain).Fits := by decide +kernel
  have apart : signedSum.SignsApart Operand.isNegative := by decide
  have text : signedSum.spaced = "-5 + x * 2 > -7".toList := by decide +kernel
  have tree : (signedSum.tree.map .plain).expr 0 = signedSumExpr ∧
      (signedSum.tree.map .plain).labels = 2 := by decide +kernel
  have read := (negative_literals_intact_iff reading operands fits 0).2.1.mpr apart
  rw [text, tree.1, tree.2] at read
  exact ⟨sigs, st, reading, fits, apart, read⟩

/-- The chain of a product with `x`. -/
def productWith (factor : Constant) : Chain Operand where
  first := .stored firstByte
  rest := [(.plain .multiply, .literal factor)]

/-- `x * 3` is read as a product, but the sign of `x * -3` is refused. -/
theorem sign_behind_product_refused :
    ∃ sigs st, ReadingState ["int x".toList] {} sigs st ∧
      resolve ⟨sigs.methods, st.live⟩ "x * 3".toList false 0 =
        .ok (.expr (.binary .multiply (.operand (.stored firstByte))
          (.operand (.literal ⟨"3", .int, 3⟩)))) 0 ∧
      ∃ m, resolve ⟨sigs.methods, st.live⟩ "x * -3".toList false 0 =
        .error (.operandMissing "-") m := by
  let three := Numeral.ofDigit 3
  obtain ⟨sigs, st, reading, live⟩ := ReadingState.exists_firstByte
  have operands {c : Constant} (h : (Operand.literal c).Signless ⟨sigs.methods, st.live⟩ ∨
      (Operand.literal c).Negative) : ∀ o ∈ (productWith c).operands,
        o.Signless ⟨sigs.methods, st.live⟩ ∨ o.Negative := by
    simp only [productWith, Chain.operands, List.map_cons, List.map_nil, List.forall_mem_cons]
    exact ⟨.inl (.stored live), h, List.forall_mem_nil _⟩
  refine ⟨sigs, st, reading, ?_, ?_⟩
  · have text : "x * 3".toList = (productWith three.unsigned).spaced := by decide +kernel
    have apart : (productWith three.unsigned).SignsApart Operand.isNegative := by decide
    have fits : ((productWith three.unsigned).tree.map .plain).Fits := by decide +kernel
    have tree : ((productWith three.unsigned).tree.map .plain).expr 0 =
        .binary .multiply (.operand (.stored firstByte)) (.operand (.literal ⟨"3", .int, 3⟩)) ∧
        ((productWith three.unsigned).tree.map .plain).labels = 0 := by decide +kernel
    have reads := Chain.readsAs_spaced reading.named (operands (.inl (.unsigned (by decide)))) apart
    rw [text, reads.ok fits 0, tree.1, tree.2]
  · have text : "x * -3".toList = (productWith three.negative).spaced := by decide +kernel
    have apart : ¬(productWith three.negative).SignsApart Operand.isNegative := by decide
    have fits : ((productWith three.negative).tree.map .plain).Fits := by decide +kernel
    rw [text]
    exact Chain.resolve_spaced_error reading.named
      (operands (.inr (.literal (by decide) (by decide)))) fits apart 0

end Micro51
