/-!
# Sets of names

A finite set of names is its strictly increasing list, by code point, so two
sets with the same members are equal (`NameSet.ext`) however they were put
together. `mem_insert`, `mem_union` and `mem_ofList` describe the operations.
-/

namespace ComplexExpr

/-- A finite set of names in increasing order. -/
structure NameSet where
  names : List String
  increasing : names.Pairwise (· < ·)

namespace NameSet

instance : Membership String NameSet := ⟨fun s x => x ∈ s.names⟩

theorem mem_def {x : String} {s : NameSet} : x ∈ s ↔ x ∈ s.names := .rfl

def empty : NameSet := ⟨[], .nil⟩

/-- A name put in its place in an increasing list. -/
def insertName (x : String) : List String → List String
  | [] => [x]
  | y :: ys => if x < y then x :: y :: ys else if x = y then y :: ys else y :: insertName x ys

theorem mem_insertName {x z : String} {ys : List String} :
    z ∈ insertName x ys ↔ z = x ∨ z ∈ ys := by
  induction ys with
  | nil => simp [insertName]
  | cons y ys ih =>
    unfold insertName
    split
    · simp
    · split
      next h => subst h; simp
      next => simp only [List.mem_cons, ih]; grind

theorem lt_of_not_lt_of_ne {x y : String} (h : ¬x < y) (hne : x ≠ y) : y < x := by
  rcases Decidable.em (y < x) with hlt | hlt
  · exact hlt
  · exact absurd (String.le_antisymm (String.not_lt.1 hlt) (String.not_lt.1 h)) hne

theorem pairwise_insertName (x : String) {ys : List String} (h : ys.Pairwise (· < ·)) :
    (insertName x ys).Pairwise (· < ·) := by
  induction ys with
  | nil => simp [insertName]
  | cons y ys ih =>
    unfold insertName
    rw [List.pairwise_cons] at h
    split
    next hxy =>
      refine List.pairwise_cons.2 ⟨fun z hz => ?_, List.pairwise_cons.2 h⟩
      rcases List.mem_cons.1 hz with rfl | hz
      · exact hxy
      · exact String.lt_trans hxy (h.1 z hz)
    next hxy =>
      split
      · exact List.pairwise_cons.2 h
      next hne =>
        refine List.pairwise_cons.2 ⟨fun z hz => ?_, ih h.2⟩
        rcases mem_insertName.1 hz with rfl | hz
        · exact lt_of_not_lt_of_ne hxy hne
        · exact h.1 z hz

/-- A set with one name more. -/
def insert (s : NameSet) (x : String) : NameSet :=
  ⟨insertName x s.names, pairwise_insertName x s.increasing⟩

@[simp] theorem mem_insert {s : NameSet} {x z : String} : z ∈ s.insert x ↔ z = x ∨ z ∈ s :=
  mem_insertName

@[simp] theorem not_mem_empty {x : String} : x ∉ empty := List.not_mem_nil

def singleton (x : String) : NameSet := empty.insert x

@[simp] theorem mem_singleton {x z : String} : z ∈ singleton x ↔ z = x := by simp [singleton]

/-- The names of both sets. -/
def union (s t : NameSet) : NameSet := t.names.foldl insert s

instance : Union NameSet := ⟨union⟩

theorem mem_foldl_insert {xs : List String} {s : NameSet} {z : String} :
    z ∈ xs.foldl insert s ↔ z ∈ s ∨ z ∈ xs := by
  induction xs generalizing s with
  | nil => simp
  | cons x xs ih => simp only [List.foldl_cons, ih, mem_insert, List.mem_cons]; grind

@[simp] theorem mem_union {s t : NameSet} {z : String} : z ∈ s ∪ t ↔ z ∈ s ∨ z ∈ t :=
  mem_foldl_insert

/-- The set of the names in a list, in any order and with any repetitions. -/
def ofList (xs : List String) : NameSet := xs.foldl insert empty

@[simp] theorem mem_ofList {xs : List String} {z : String} : z ∈ ofList xs ↔ z ∈ xs := by
  simp [ofList, mem_foldl_insert]

/-- Increasing lists with the same members are equal. -/
theorem eq_of_pairwise_lt {xs ys : List String} (hx : xs.Pairwise (· < ·))
    (hy : ys.Pairwise (· < ·)) (h : ∀ z, z ∈ xs ↔ z ∈ ys) : xs = ys := by
  induction xs generalizing ys with
  | nil =>
    cases ys with
    | nil => rfl
    | cons y ys => exact absurd ((h y).2 List.mem_cons_self) List.not_mem_nil
  | cons x xs ih =>
    cases ys with
    | nil => exact absurd ((h x).1 List.mem_cons_self) List.not_mem_nil
    | cons y ys =>
      rw [List.pairwise_cons] at hx hy
      have hxy : x = y := by
        rcases List.mem_cons.1 ((h x).1 List.mem_cons_self) with e | hxm
        · exact e
        · rcases List.mem_cons.1 ((h y).2 List.mem_cons_self) with e | hym
          · exact e.symm
          · exact absurd (String.lt_trans (hx.1 y hym) (hy.1 x hxm)) (String.lt_irrefl x)
      subst hxy
      refine congrArg _ (ih hx.2 hy.2 fun z => ⟨fun hz => ?_, fun hz => ?_⟩)
      · rcases List.mem_cons.1 ((h z).1 (List.mem_cons_of_mem _ hz)) with rfl | hz'
        · exact absurd (hx.1 z hz) (String.lt_irrefl z)
        · exact hz'
      · rcases List.mem_cons.1 ((h z).2 (List.mem_cons_of_mem _ hz)) with rfl | hz'
        · exact absurd (hy.1 z hz) (String.lt_irrefl z)
        · exact hz'

theorem nodup (s : NameSet) : s.names.Nodup :=
  s.increasing.imp fun {a b} (h : a < b) => show a ≠ b from fun e => String.lt_irrefl b (e ▸ h)

theorem ext {s t : NameSet} (h : ∀ z, z ∈ s ↔ z ∈ t) : s = t := by
  cases s; cases t
  congr
  exact eq_of_pairwise_lt ‹_› ‹_› h

end NameSet

end ComplexExpr
