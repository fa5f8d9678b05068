/- # Writing a file changes one entry

A trail can only be written to if its directories are there already. So a
write makes no directory: what it changes is the entry at its own trail, and
every path that led somewhere before leads there still.

Key definitions: `Disk.There`, `Disk.Rooted`.
Key theorems: `Disk.entryAt?_put`, `Disk.rooted_of_trailOf`,
`Disk.write_eq_ok`, `Disk.entryAt?_write_of_ne`, `Disk.trailOf_write`,
`Disk.find_write`.
-/
import Micro51.Disk
import Micro51.Proofs.Outcome

namespace Micro51
namespace Disk

open Outcome

variable {d d' : Disk} {t u : Trail} {e : Entry}

/-! ### What is there -/

/-- The trails that entries stand under. -/
def trails (d : Disk) : List Trail := d.entries.map (·.1)

/-- Something stands at the trail, if only a directory that another trail goes
through. -/
def There (d : Disk) (t : Trail) : Prop := t <+: d.workDir ∨ ∃ v ∈ d.trails, t <+: v

theorem There.of_prefix (h : d.There u) (way : t <+: u) : d.There t := by
  rcases h with h | ⟨v, hv, h⟩
  · exact .inl (way.trans h)
  · exact .inr ⟨v, hv, way.trans h⟩

theorem mem_trails_of_lookup (h : d.entries.lookup t = some e) : t ∈ d.trails := by
  obtain ⟨before, behind, entries, -⟩ := List.lookup_eq_some_iff.mp h
  rw [trails, entries, List.map_append]
  exact List.mem_append_right _ List.mem_cons_self

/-- Where no entry stands there can only be a directory. -/
theorem entryAt?_of_lookup_eq_none (h : d.entries.lookup t = none) :
    (d.There t → d.entryAt? t = some .directory) ∧ (¬d.There t → d.entryAt? t = none) := by
  have test : (t.isPrefixOf d.workDir || d.entries.any fun e => t.isPrefixOf e.1) = true ↔
      d.There t := by
    simp [There, trails]
  unfold entryAt?
  rw [h]
  exact ⟨fun there => if_pos (test.mpr there), fun not => if_neg fun there => not (test.mp there)⟩

theorem entryAt?_of_lookup (h : d.entries.lookup t = some e) : d.entryAt? t = some e := by
  unfold entryAt?
  rw [h]

theorem there_of_entryAt? (h : d.entryAt? t = some e) : d.There t := by
  cases found : d.entries.lookup t with
  | some e' => exact .inr ⟨t, mem_trails_of_lookup found, List.prefix_rfl⟩
  | none =>
    refine Classical.byContradiction fun not => ?_
    rw [(entryAt?_of_lookup_eq_none found).2 not] at h
    cases h

/-- What stands at a trail hangs on its entry and on whether it is there. -/
theorem entryAt?_congr (entry : d'.entries.lookup t = d.entries.lookup t)
    (there : d'.There t ↔ d.There t) : d'.entryAt? t = d.entryAt? t := by
  cases found : d.entries.lookup t with
  | some e => rw [entryAt?_of_lookup found, entryAt?_of_lookup (entry.trans found)]
  | none =>
    have before := entryAt?_of_lookup_eq_none found
    have after := entryAt?_of_lookup_eq_none (entry.trans found)
    by_cases h : d.There t
    · rw [before.1 h, after.1 (there.mpr h)]
    · rw [before.2 h, after.2 (mt there.mp h)]

/-! ### An entry put on the disk -/

@[simp] theorem workDir_put (d : Disk) (t : Trail) (e : Entry) : (d.put t e).workDir = d.workDir := by
  unfold put
  split <;> rfl

@[simp] theorem fault?_put (d : Disk) (t : Trail) (e : Entry) (use : Use) :
    (d.put t e).fault? u use = d.fault? u use := by
  unfold put
  split <;> rfl

theorem lookup_map_replace {entries : List (Trail × Entry)} (ne : u ≠ t) :
    (entries.map fun old => if old.1 == t then (t, e) else old).lookup u = entries.lookup u := by
  induction entries with
  | nil => rfl
  | cons old entries ih =>
    rw [List.map_cons]
    split
    · next same =>
      rw [List.lookup_cons, List.lookup_cons, ih, eq_of_beq same, beq_eq_false_iff_ne.mpr ne]
    · rw [List.lookup_cons, List.lookup_cons, ih]

theorem lookup_map_replace_self {entries : List (Trail × Entry)}
    (h : t ∈ entries.map (·.1)) :
    (entries.map fun old => if old.1 == t then (t, e) else old).lookup t = some e := by
  induction entries with
  | nil => cases h
  | cons old entries ih =>
    rw [List.map_cons]
    split
    · rw [List.lookup_cons, beq_self_eq_true]
    · next other =>
      have other : t ≠ old.1 := fun e => other (by simp [e])
      rw [List.lookup_cons, beq_eq_false_iff_ne.mpr other]
      exact ih ((List.mem_cons.mp h).resolve_left other)

theorem put_of_mem (h : t ∈ d.trails) : d.put t e =
    { d with entries := d.entries.map fun old => if old.1 == t then (t, e) else old } := by
  unfold put
  rw [if_pos]
  simpa [trails] using h

theorem put_of_notMem (h : t ∉ d.trails) :
    d.put t e = { d with entries := d.entries ++ [(t, e)] } := by
  unfold put
  rw [if_neg]
  simpa [trails] using h

theorem mem_trails_put {v : Trail} : v ∈ (d.put t e).trails ↔ v ∈ d.trails ∨ v = t := by
  by_cases h : t ∈ d.trails
  · have same : (d.put t e).trails = d.trails := by
      rw [put_of_mem h, trails, trails, List.map_map]
      refine List.map_congr_left fun old _ => ?_
      by_cases old' : old.1 = t <;> simp [old']
    rw [same, or_iff_left_of_imp]
    rintro rfl
    exact h
  · rw [put_of_notMem h, trails, trails, List.map_append]
    simp

theorem there_put : (d.put t e).There u ↔ d.There u ∨ u <+: t := by
  simp only [There, workDir_put, mem_trails_put, or_assoc]
  refine or_congr_right ⟨?_, ?_⟩
  · rintro ⟨v, hv | rfl, way⟩
    · exact .inl ⟨v, hv, way⟩
    · exact .inr way
  · rintro (⟨v, hv, way⟩ | way)
    · exact ⟨v, .inl hv, way⟩
    · exact ⟨t, .inr rfl, way⟩

theorem lookup_put (d : Disk) (t u : Trail) (e : Entry) :
    (d.put t e).entries.lookup u = if u = t then some e else d.entries.lookup u := by
  by_cases h : t ∈ d.trails
  · rw [put_of_mem h]
    split
    · next same =>
      rw [same]
      exact lookup_map_replace_self h
    · next ne => exact lookup_map_replace ne
  · have absent : d.entries.lookup t = none := by
      cases found : d.entries.lookup t with
      | none => rfl
      | some e' => exact absurd (mem_trails_of_lookup found) h
    rw [put_of_notMem h, List.lookup_append, List.lookup_cons, List.lookup_nil]
    by_cases same : u = t
    · rw [if_pos same, same, absent, beq_self_eq_true, Option.none_or]
    · rw [if_neg same, beq_eq_false_iff_ne.mpr same, Option.or_none]

/-- Every directory on the way to the trail is there. -/
def Rooted (d : Disk) (t : Trail) : Prop := ∀ u, u <+: t → u ≠ t → d.There u

/-- An entry put at a trail is all that changes, if the directories are there. -/
theorem entryAt?_put (way : d.Rooted t) (u : Trail) (e : Entry) :
    (d.put t e).entryAt? u = if u = t then some e else d.entryAt? u := by
  have entry := lookup_put d t u e
  split
  · next same =>
    rw [if_pos same] at entry
    exact entryAt?_of_lookup entry
  · next ne =>
    rw [if_neg ne] at entry
    refine entryAt?_congr entry ?_
    rw [there_put, or_iff_left_of_imp]
    exact fun before => way u before ne

/-! ### The way to a trail -/

/-- From a place that is there one component leads to a place whose directories
are there. -/
theorem There.rooted_step (h : d.There t) (c : String) : d.Rooted (Trail.step t c) := by
  unfold Trail.step
  split
  · exact fun u way _ => h.of_prefix way
  · split
    · exact fun u way _ => h.of_prefix (way.trans (List.dropLast_prefix t))
    · intro u way ne
      exact h.of_prefix ((List.prefix_concat_iff.mp way).resolve_left ne)

/-- A component is followed in a directory that can be searched. -/
theorem descend_cons_eq_ok {c : String} {cs : List String} :
    d.descend t (c :: cs) = .ok u ↔ (d.entryAt? t = some .directory ∧ d.fault? t .search = none) ∧
      c.utf8ByteSize ≤ nameLimit ∧ d.descend (Trail.step t c) cs = .ok u := by
  rw [descend]
  cases d.entryAt? t with
  | none => simp
  | some e =>
    cases e with
    | file bytes => simp
    | directory =>
      cases d.fault? t .search with
      | some fault => simp
      | none =>
        by_cases long : nameLimit < c.utf8ByteSize
        · simp [long, Nat.not_le.mpr long]
        · simp [long, Nat.not_lt.mp long]

theorem rooted_of_descend {cs : List String} (way : d.Rooted t) (h : d.descend t cs = .ok u) :
    d.Rooted u := by
  induction cs generalizing t with
  | nil =>
    cases h
    exact way
  | cons c cs ih =>
    obtain ⟨⟨directory, -⟩, -, rest⟩ := descend_cons_eq_ok.mp h
    exact ih ((there_of_entryAt? directory).rooted_step c) rest

/-- The directories on the way of a path that leads to a trail are there. -/
theorem rooted_of_trailOf {name : String} (h : d.trailOf name = .ok t) : d.Rooted t := by
  unfold trailOf at h
  split at h
  · cases h
  · split at h
    · cases h
    · refine rooted_of_descend (fun u way _ => .inl ?_) h
      split at way
      · rw [List.prefix_nil.mp way]
        exact List.nil_prefix
      · exact way

/-- A disk with the same directories, or more, is descended in the same way. -/
theorem descend_mono (kept : ∀ v, d.entryAt? v = some .directory → d'.entryAt? v = some .directory)
    (faults : ∀ v, d'.fault? v .search = d.fault? v .search)
    {cs : List String} (h : d.descend t cs = .ok u) : d'.descend t cs = .ok u := by
  induction cs generalizing t with
  | nil => exact h
  | cons c cs ih =>
    obtain ⟨⟨directory, free⟩, short, rest⟩ := descend_cons_eq_ok.mp h
    exact descend_cons_eq_ok.mpr ⟨⟨kept t directory, (faults t).trans free⟩, short, ih rest⟩

theorem find_eq_ok {name : String} :
    d.find name = .ok e ↔ ∃ t, d.trailOf name = .ok t ∧ d.entryAt? t = some e := by
  unfold find
  rw [except_bind_eq_ok]
  refine exists_congr fun t => and_congr_right fun _ => ?_
  cases d.entryAt? t <;> simp

/-! ### Reading -/

theorem read_eq_ok {p : Path} {bytes : List UInt8} : d.read p = .ok bytes ↔
    ∃ t, d.trailOf p.text = .ok t ∧ d.entryAt? t = some (.file bytes) ∧ d.fault? t .read = none := by
  unfold read
  rw [except_bind_eq_ok]
  refine exists_congr fun t => and_congr_right fun _ => ?_
  cases d.entryAt? t with
  | none => simp
  | some e =>
    cases e with
    | directory => simp
    | file bytes' => cases d.fault? t .read <;> simp

theorem find_of_read {p : Path} {bytes : List UInt8} (h : d.read p = .ok bytes) :
    d.find p.text = .ok (.file bytes) := by
  obtain ⟨t, trail, entry, -⟩ := read_eq_ok.mp h
  exact find_eq_ok.mpr ⟨t, trail, entry⟩

/-- Where the search says that there is a file, there is one. -/
theorem exists_of_isFile {p : Path} (h : d.isFile p = .ok true) :
    ∃ bytes, d.find p.text = .ok (.file bytes) := by
  unfold isFile at h
  split at h
  · cases h
  · split at h
    · next bytes found => exact ⟨bytes, found⟩
    · cases h
    · split at h <;> cases h

/-! ### Writing -/

variable {p : Path} {bytes : List UInt8}

/-- A file can be written under a path whose directories are there, if the path is no
directory itself and the system does not refuse it. -/
theorem write_eq_ok : d.write p bytes = .ok d' ↔
    ∃ t, d.trailOf p.text = .ok t ∧ (d.entryAt? t ≠ some .directory ∧ d.fault? t .write = none) ∧
      d.put t (.file bytes) = d' := by
  unfold write
  rw [except_bind_eq_ok]
  refine exists_congr fun t => and_congr_right fun _ => ?_
  cases d.fault? t .write with
  | none =>
    cases d.entryAt? t with
    | none => simp
    | some e => cases e <;> simp
  | some fault =>
    cases d.entryAt? t with
    | none => simp
    | some e => cases e <;> simp

section Written

variable (h : d.write p bytes = .ok d')

include h

theorem workDir_write : d'.workDir = d.workDir := by
  obtain ⟨t, -, -, rfl⟩ := write_eq_ok.mp h
  exact workDir_put ..

/-- A write leaves alone what stands elsewhere. -/
theorem entryAt?_write_of_ne (ne : d.trailOf p.text ≠ .ok u) : d'.entryAt? u = d.entryAt? u := by
  obtain ⟨t, ht, -, rfl⟩ := write_eq_ok.mp h
  rw [entryAt?_put (rooted_of_trailOf ht), if_neg]
  rintro rfl
  exact ne ht

/-- A path that led somewhere before a write leads there still. -/
theorem trailOf_write {name : String} (before : d.trailOf name = .ok u) :
    d'.trailOf name = .ok u := by
  obtain ⟨t, ht, ⟨file, -⟩, put⟩ := write_eq_ok.mp h
  have kept (v : Trail) (directory : d.entryAt? v = some .directory) :
      d'.entryAt? v = some .directory := by
    rw [entryAt?_write_of_ne h, directory]
    intro same
    rw [ht] at same
    cases same
    exact file directory
  unfold trailOf at before ⊢
  rw [workDir_write h]
  split at before
  · cases before
  · next named =>
    split at before
    · cases before
    · next short =>
      rw [if_neg named, if_neg short]
      refine descend_mono kept (fun v => ?_) before
      rw [← put, fault?_put]

/-- Behind a write every path that leads to its trail finds the bytes. -/
theorem find_write {name : String} (same : d.trailOf name = d.trailOf p.text) :
    d'.find name = .ok (.file bytes) := by
  obtain ⟨t, ht, -, rfl⟩ := write_eq_ok.mp h
  refine find_eq_ok.mpr ⟨t, trailOf_write h (same.trans ht), ?_⟩
  rw [entryAt?_put (rooted_of_trailOf ht), if_pos rfl]

/-- A path to another trail finds what it found before. -/
theorem find_write_of_ne {name : String} (found : d.find name = .ok e)
    (ne : d.trailOf name ≠ d.trailOf p.text) : d'.find name = .ok e := by
  obtain ⟨u, hu, entry⟩ := find_eq_ok.mp found
  refine find_eq_ok.mpr ⟨u, trailOf_write h hu, ?_⟩
  rw [entryAt?_write_of_ne h fun same => ne (hu.trans same.symm), entry]

end Written

end Disk
end Micro51
