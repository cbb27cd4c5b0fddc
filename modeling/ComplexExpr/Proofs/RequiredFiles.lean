import ComplexExpr.RequiredFiles
import Mathlib.Data.List.Basic

/-!
# Which files are reported missing

A required file is missing iff no file that is present has its path or lies below it
(`mem_missing_iff`), and the more files are present, the fewer are missing
(`missing_sublist`). Main statement:

* `lines_spec`: nothing is said iff no file is missing, and otherwise each missing
  file is named once, in the order of `all`.
-/

namespace ComplexExpr.RequiredFiles

variable {present present' : List String} {path name : String}

theorem isPresent_iff : isPresent present path ↔ ∃ p ∈ present, steps path <+: steps p := by
  simp only [isPresent, List.any_eq_true, List.isPrefixOf_iff_prefix]

theorem isPresent_mono (h : present ⊆ present') (hp : isPresent present path) :
    isPresent present' path := by
  obtain ⟨p, hmem, hsteps⟩ := isPresent_iff.1 hp
  exact isPresent_iff.2 ⟨p, h hmem, hsteps⟩

theorem mem_missing_iff : name ∈ missing present ↔ ∃ directory, (directory, name) ∈ all ∧
    ∀ p ∈ present, ¬steps (directory ++ name) <+: steps p := by
  have habsent (path : String) :
      (!isPresent present path) = true ↔ ∀ p ∈ present, ¬steps path <+: steps p := by
    rw [Bool.not_eq_true', ← Bool.not_eq_true, isPresent_iff]
    exact ⟨fun h p hp hsteps => h ⟨p, hp, hsteps⟩, fun h ⟨p, hp, hsteps⟩ => h p hp hsteps⟩
  rw [missing, List.mem_map]
  constructor
  · rintro ⟨⟨directory, name⟩, hmem, rfl⟩
    obtain ⟨hall, hmissing⟩ := List.mem_filter.1 hmem
    exact ⟨directory, hall, (habsent _).1 hmissing⟩
  · rintro ⟨directory, hall, hmissing⟩
    exact ⟨(directory, name), List.mem_filter.2 ⟨hall, (habsent _).2 hmissing⟩, rfl⟩

/-- Where more files are present no other files are missing. -/
theorem missing_sublist (h : present ⊆ present') : (missing present').Sublist (missing present) := by
  refine (List.monotone_filter_right all fun f hf => ?_).map Prod.snd
  rw [Bool.not_eq_true'] at hf ⊢
  rw [← Bool.not_eq_true] at hf ⊢
  exact mt (isPresent_mono h) hf

theorem missing_eq_nil_iff :
    missing present = [] ↔ ∀ f ∈ all, ∃ p ∈ present, steps (f.1 ++ f.2) <+: steps p := by
  unfold missing
  rw [List.map_eq_nil_iff, List.filter_eq_nil_iff]
  refine forall₂_congr fun f _ => ?_
  rw [← isPresent_iff, Bool.not_eq_true', Bool.not_eq_false]

theorem lines_of_ne (h : missing present ≠ []) :
    lines present = "Error: The following files are missing or in the wrong location:" ::
      (missing present).map ("- " ++ ·) := by
  unfold lines
  split
  next hnil => exact absurd hnil h
  next => rfl

/-- Nothing is said iff each required file, or something below it, is present. Otherwise the missing
files are named, one in each line after the first, in the order in which all are listed. -/
theorem lines_spec (present : List String) :
    (lines present = [] ↔ ∀ f ∈ all, ∃ p ∈ present, steps (f.1 ++ f.2) <+: steps p) ∧
    (lines present ≠ [] → lines present =
      "Error: The following files are missing or in the wrong location:" ::
        (missing present).map ("- " ++ ·)) ∧
    (missing present).Sublist (all.map Prod.snd) ∧ (missing present).Nodup := by
  have hsublist : (missing present).Sublist (all.map Prod.snd) := List.filter_sublist.map Prod.snd
  refine ⟨?_, fun h => lines_of_ne fun hnil => h (by rw [lines, hnil]), hsublist,
    hsublist.nodup (by decide)⟩
  rw [← missing_eq_nil_iff]
  refine ⟨fun h => ?_, fun h => by rw [lines, h]⟩
  by_contra hmissing
  rw [lines_of_ne hmissing] at h
  cases h

end ComplexExpr.RequiredFiles
