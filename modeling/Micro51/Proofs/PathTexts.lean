/- # A path text and its normal form lead to the same place

A path is read off a text without the components that mean nothing, and written
as a text again before it is looked up. The new text is read as the same path; it
is no longer than the old one, and where the old one leads somewhere it leads to
the same trail.

Key definitions: `Path.Plain`.
Key theorems: `Path.plain_ofString`, `Path.Plain.ofString_text`,
`Path.utf8ByteSize_text_le`, `Disk.trailOf_text`, `Disk.absolute_of_trailOf_text`,
`Disk.parts_ne_nil_of_find`.
-/
import Micro51.Proofs.Cycles
import Micro51.Proofs.DiskWrites

namespace Micro51

/-! ### Texts cut at a character -/

namespace Text

theorem splitAt_replicate_append (c : Char) (n : Nat) (t : Text) :
    splitAt c (List.replicate n c ++ t) = List.replicate n [] ++ splitAt c t := by
  induction n with
  | zero => rfl
  | succ n ih =>
    rw [List.replicate_succ, List.cons_append, splitAt, if_pos rfl, ih]
    rfl

/-- Parts left out leave characters out. -/
theorem intercalate_filter_sublist (c : Char) (keep : Text → Bool) : ∀ ts : List Text,
    ([c].intercalate (ts.filter keep)).Sublist ([c].intercalate ts)
  | [] => List.Sublist.refl _
  | [t] => by
    by_cases kept : keep t
    · rw [List.filter_cons_of_pos kept, List.filter_nil]
    · rw [List.filter_cons_of_neg kept, List.filter_nil]
      exact List.nil_sublist _
  | t :: t' :: ts => by
    have rest := intercalate_filter_sublist c keep (t' :: ts)
    rw [List.intercalate_cons_cons]
    by_cases kept : keep t
    · rw [List.filter_cons_of_pos kept]
      cases more : (t' :: ts).filter keep with
      | nil =>
        rw [List.intercalate_singleton, List.append_assoc]
        exact List.sublist_append_left ..
      | cons u us =>
        rw [more] at rest
        rw [List.intercalate_cons_cons]
        exact rest.append_left _
    · rw [List.filter_cons_of_neg kept]
      exact rest.trans (List.sublist_append_right ..)

theorem utf8ByteSize_le_of_sublist {a b : Text} (h : a.Sublist b) :
    (String.ofList a).utf8ByteSize ≤ (String.ofList b).utf8ByteSize := by
  induction h with
  | slnil => exact Nat.le_refl _
  | cons c _ ih =>
    rw [String.ofList_cons, String.utf8ByteSize_append]
    omega
  | cons_cons c _ ih =>
    rw [String.ofList_cons, String.ofList_cons, String.utf8ByteSize_append,
      String.utf8ByteSize_append]
    omega

end Text

/-! ### Paths written and read again -/

theorem slashParts_ne_nil (s : String) : slashParts s ≠ [] := by
  rw [slashParts, Text.splitAt_eq, Ne, List.map_eq_nil_iff]
  exact List.splitOn_ne_nil '/' _

namespace Path

theorem text_ne_empty (p : Path) : p.text ≠ "" := by
  intro empty
  simp only [text] at empty
  split at empty
  · exact absurd empty (by decide)
  · next filled => exact filled (String.isEmpty_iff.mpr empty)

/-- A path that a text can write: so many slashes are its root, and its
components are proper. -/
structure Plain (p : Path) (n : Nat) : Prop extends p.Proper where
  slashes : p.root.toList = List.replicate n '/'
  atMost : n = 0 ∨ n = 1 ∨ n = 2

variable {p : Path} {n : Nat}

theorem plain_ofString (s : String) :
    ∃ n, (ofString s).Plain n ∧ n ≤ (s.toList.takeWhile (· == '/')).length := by
  have root : (ofString s).root = rootOf s := rfl
  unfold rootOf at root
  split at root
  · exact ⟨0, ⟨proper_ofString s, by rw [root]; rfl, .inl rfl⟩, Nat.zero_le _⟩
  · next two =>
    exact ⟨2, ⟨proper_ofString s, by rw [root]; rfl, .inr (.inr rfl)⟩, Nat.le_of_eq two.symm⟩
  · next some _ =>
    exact ⟨1, ⟨proper_ofString s, by rw [root]; rfl, .inr (.inl rfl)⟩, Nat.pos_of_ne_zero some⟩

/-- There are three paths without components. -/
theorem Plain.eq_of_nil (h : p.Plain n) (nil : p.parts = []) :
    p = ⟨"", []⟩ ∨ p = ⟨"/", []⟩ ∨ p = ⟨"//", []⟩ := by
  obtain ⟨root, parts⟩ := p
  obtain rfl : parts = [] := nil
  have slashes : root.toList = List.replicate n '/' := h.slashes
  rcases h.atMost with rfl | rfl | rfl
  · exact .inl (congrArg (Path.mk · []) (String.toList_inj.mp slashes))
  · exact .inr (.inl (congrArg (Path.mk · []) (String.toList_inj.mp slashes)))
  · exact .inr (.inr (congrArg (Path.mk · []) (String.toList_inj.mp slashes)))

/-- Joined components do not start with a slash. -/
theorem Plain.head?_parts (h : p.Plain n) (ne : p.parts ≠ []) :
    ∃ c, (['/'].intercalate (p.parts.map String.toList)).head? = some c ∧ c ≠ '/' := by
  obtain ⟨first, rest, parts⟩ := List.exists_cons_of_ne_nil ne
  obtain ⟨named, -, noSlash⟩ := h.parts first (by rw [parts]; exact List.mem_cons_self)
  obtain ⟨c, cs, chars⟩ := List.exists_cons_of_ne_nil (mt String.toList_eq_nil_iff.mp named)
  refine ⟨c, ?_, ?_⟩
  · rw [parts]
    cases rest <;> simp [List.intercalate_cons_cons, chars]
  · rintro rfl
    exact noSlash (by rw [chars]; exact List.mem_cons_self)

theorem Plain.toList_text (h : p.Plain n) (ne : p.parts ≠ []) :
    p.text.toList = List.replicate n '/' ++ ['/'].intercalate (p.parts.map String.toList) := by
  have joined : (p.root ++ "/".intercalate p.parts).toList =
      List.replicate n '/' ++ ['/'].intercalate (p.parts.map String.toList) := by
    rw [String.toList_append, h.slashes, String.toList_intercalate]
    rfl
  have filled : (p.root ++ "/".intercalate p.parts).isEmpty = false := by
    obtain ⟨c, first, -⟩ := h.head?_parts ne
    rw [Bool.eq_false_iff, Ne, String.isEmpty_iff, ← String.toList_eq_nil_iff, joined,
      List.append_eq_nil_iff]
    rintro ⟨-, nil⟩
    rw [nil] at first
    cases first
  rw [← joined, text]
  simp only [filled, Bool.false_eq_true, ↓reduceIte]

theorem Plain.slashParts_text_of_ne_nil (h : p.Plain n) (ne : p.parts ≠ []) :
    slashParts p.text = List.replicate n "" ++ p.parts := by
  rw [slashParts, h.toList_text ne, Text.splitAt_replicate_append, Text.splitAt_eq,
    List.splitOn_intercalate]
  · simp [Function.comp_def]
  · simpa using fun c hc => (h.parts c hc).2.2
  · simpa using ne

/-- Between the slashes of its text are the components of a path, and before them
what means nothing. -/
theorem Plain.slashParts_text (h : p.Plain n) :
    ∃ before, slashParts p.text = before ++ p.parts ∧ ∀ c ∈ before, c = "" ∨ c = "." := by
  by_cases nil : p.parts = []
  · refine ⟨slashParts p.text, by rw [nil, List.append_nil], ?_⟩
    rcases h.eq_of_nil nil with rfl | rfl | rfl <;> decide
  · exact ⟨_, h.slashParts_text_of_ne_nil nil, fun c hc => .inl (List.eq_of_mem_replicate hc)⟩

theorem Plain.rootOf_text (h : p.Plain n) (ne : p.parts ≠ []) : rootOf p.text = p.root := by
  have count : (p.text.toList.takeWhile (· == '/')).length = n := by
    obtain ⟨c, first, notSlash⟩ := h.head?_parts ne
    rw [h.toList_text ne, List.takeWhile_append_of_pos (by simp)]
    obtain ⟨cs, chars⟩ := List.head?_eq_some_iff.mp first
    simp [chars, notSlash]
  rw [← String.toList_inj, h.slashes, rootOf, count]
  rcases h.atMost with rfl | rfl | rfl <;> rfl

/-- A path is read back from its text. -/
theorem Plain.ofString_text (h : p.Plain n) : ofString p.text = p := by
  by_cases nil : p.parts = []
  · rcases h.eq_of_nil nil with rfl | rfl | rfl <;> decide
  · have parts : ((slashParts p.text).filter fun c => c ≠ "" && c ≠ ".") = p.parts := by
      rw [h.slashParts_text_of_ne_nil nil, List.filter_append, List.filter_replicate,
        if_neg (by decide), List.nil_append, List.filter_eq_self]
      intro c hc
      simp [(h.parts c hc).1, (h.parts c hc).2.1]
    rw [ofString, h.rootOf_text nil, parts]

/-- A path that was read off a text is written with no more characters, unless it
is written as a dot. -/
theorem text_ofString_sublist (s : String) :
    (ofString s).text = "." ∨ ((ofString s).text.toList).Sublist s.toList := by
  obtain ⟨n, plain, slashes⟩ := plain_ofString s
  have whole := List.takeWhile_append_dropWhile (p := (· == '/')) (l := s.toList)
  have front : s.toList.takeWhile (· == '/') =
      List.replicate (s.toList.takeWhile (· == '/')).length '/' :=
    List.eq_replicate_iff.mpr
      ⟨rfl, fun c hc => by simpa using List.all_eq_true.mp List.all_takeWhile c hc⟩
  generalize s.toList.takeWhile (· == '/') = before at whole front slashes
  generalize s.toList.dropWhile (· == '/') = rest at whole
  have root : (List.replicate n '/').Sublist before := by
    rw [front]
    exact (List.replicate_sublist_replicate _).mpr slashes
  by_cases nil : (ofString s).parts = []
  · have same : (ofString s).text = "." ∨ (ofString s).text = (ofString s).root := by
      rcases plain.eq_of_nil nil with h | h | h <;> rw [h] <;> decide
    refine same.imp_right fun same => ?_
    rw [same, plain.slashes, ← whole]
    exact root.trans (List.sublist_append_left ..)
  · have parts : (ofString s).parts.map String.toList =
        (Text.splitAt '/' rest).filter
          ((fun c => c ≠ "" && c ≠ ".") ∘ String.ofList) := by
      rw [ofString, slashParts, ← whole, front, Text.splitAt_replicate_append, List.filter_map,
        List.map_map, List.filter_append, List.filter_replicate, if_neg (by decide)]
      simp [Function.comp_def]
    refine .inr ?_
    rw [plain.toList_text nil, parts, ← whole]
    refine root.append ?_
    have kept := Text.intercalate_filter_sublist '/'
      ((fun c => c ≠ "" && c ≠ ".") ∘ String.ofList) (Text.splitAt '/' rest)
    have joined : ['/'].intercalate (Text.splitAt '/' rest) = rest := by
      rw [Text.splitAt_eq, List.intercalate_splitOn]
    rwa [joined] at kept

theorem utf8ByteSize_text_le {s : String} (named : s ≠ "") :
    (ofString s).text.utf8ByteSize ≤ s.utf8ByteSize := by
  rcases text_ofString_sublist s with dot | fewer
  · have some : s.utf8ByteSize ≠ 0 := mt String.utf8ByteSize_eq_zero_iff.mp named
    have one : ".".utf8ByteSize = 1 := by decide
    rw [dot, one]
    exact Nat.pos_of_ne_zero some
  · have size := Text.utf8ByteSize_le_of_sublist fewer
    rwa [String.ofList_toList, String.ofList_toList] at size

end Path

/-! ### Where path texts lead -/

namespace Disk

variable {d : Disk} {t u : Trail} {cs : List String}

/-- Components are looked up in a directory that can be searched. -/
theorem searchable_of_descend (ne : cs ≠ []) (h : d.descend t cs = .ok u) :
    d.entryAt? t = some .directory ∧ d.fault? t .search = none := by
  obtain ⟨c, cs, rfl⟩ := List.exists_cons_of_ne_nil ne
  exact (descend_cons_eq_ok.mp h).1

/-- Components that mean nothing lead nowhere else. -/
theorem descend_append_of_stay {before : List String} (stay : ∀ c ∈ before, c = "" ∨ c = ".")
    (searchable : d.entryAt? t = some .directory ∧ d.fault? t .search = none) :
    d.descend t (before ++ cs) = d.descend t cs := by
  induction before with
  | nil => rfl
  | cons c before ih =>
    obtain ⟨here, rest⟩ := List.forall_mem_cons.mp stay
    have short : ¬nameLimit < c.utf8ByteSize := by
      rcases here with rfl | rfl <;> decide
    have same : Trail.step t c = t := by
      rcases here with rfl | rfl <;> rfl
    rw [List.cons_append, descend, searchable.1, searchable.2]
    simp only [short, ↓reduceIte, same]
    exact ih rest

/-- A descent can do without the components that mean nothing. -/
theorem descend_filter (h : d.descend t cs = .ok u) :
    d.descend t (cs.filter fun p => p ≠ "" && p ≠ ".") = .ok u := by
  induction cs generalizing t with
  | nil => exact h
  | cons c cs ih =>
    by_cases stay : c = "" ∨ c = "."
    · have none : ¬(c ≠ "" && c ≠ ".") = true := by
        rcases stay with rfl | rfl <;> decide
      have shorter : d.descend t ([c] ++ cs) = d.descend t cs :=
        descend_append_of_stay (List.forall_mem_singleton.mpr stay)
          (searchable_of_descend (List.cons_ne_nil c cs) h)
      rw [List.filter_cons_of_neg (by exact none)]
      exact ih (shorter.symm.trans h)
    · rw [not_or] at stay
      rw [List.filter_cons_of_pos (by simpa using stay)]
      obtain ⟨searchable, short, rest⟩ := descend_cons_eq_ok.mp h
      exact descend_cons_eq_ok.mpr ⟨searchable, short, ih rest⟩

theorem trailOf_eq_ok {name : String} : d.trailOf name = .ok t ↔
    name ≠ "" ∧ name.utf8ByteSize ≤ pathLimit ∧
      d.descend (if Path.rootOf name = "" then d.workDir else []) (slashParts name) = .ok t := by
  unfold trailOf
  by_cases named : name = ""
  · simp [named]
  · by_cases short : pathLimit < name.utf8ByteSize
    · simp only [String.isEmpty_iff, named, short, ↓reduceIte, reduceCtorEq, Nat.not_le.mpr short,
        false_and, and_false]
    · simp only [String.isEmpty_iff, named, short, ↓reduceIte, ne_eq, not_false_eq_true, true_and,
        Nat.not_lt.mp short, Path.rootOf_eq_empty_iff, ite_not]

/-- Where a path text leads, there the path that it writes leads. -/
theorem trailOf_text {name : String} (h : d.trailOf name = .ok t) :
    d.trailOf (Path.ofString name).text = .ok t := by
  obtain ⟨named, short, leads⟩ := trailOf_eq_ok.mp h
  obtain ⟨n, plain, -⟩ := Path.plain_ofString name
  have root : Path.rootOf (Path.ofString name).text = Path.rootOf name := by
    rw [← Path.ofString_root, plain.ofString_text, Path.ofString_root]
  obtain ⟨before, components, stay⟩ := plain.slashParts_text
  refine trailOf_eq_ok.mpr
    ⟨Path.text_ne_empty _, (Path.utf8ByteSize_text_le named).trans short, ?_⟩
  rw [root, components, descend_append_of_stay stay (searchable_of_descend (slashParts_ne_nil _) leads)]
  exact descend_filter leads

/-- The trail of a path can be read off the path. -/
theorem absolute_of_trailOf_text {p : Path} {n : Nat} (plain : p.Plain n)
    (h : d.trailOf p.text = .ok t) : d.absolute p = t := by
  rw [← absolute_of_trailOf h, plain.ofString_text]

/-- The path of a file has components. -/
theorem parts_ne_nil_of_find {p : Path} {n : Nat} {bytes : List UInt8} (plain : p.Plain n)
    (h : d.find p.text = .ok (.file bytes)) : p.parts ≠ [] := by
  intro nil
  obtain ⟨t, leads, file⟩ := find_eq_ok.mp h
  obtain ⟨-, -, leads⟩ := trailOf_eq_ok.mp leads
  obtain ⟨before, components, stay⟩ := plain.slashParts_text
  have searchable := searchable_of_descend (slashParts_ne_nil _) leads
  rw [components, nil, descend_append_of_stay stay searchable, descend] at leads
  rw [← Except.ok.inj leads, searchable.1] at file
  cases file

end Disk
end Micro51
