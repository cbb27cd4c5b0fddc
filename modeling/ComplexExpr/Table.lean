/-!
# Tables

A table gives each of its keys one value and keeps its keys in the order in
which they first came (`Table`). Keys are compared by `==`. Setting a key again
changes its value and leaves the key as it was first written, in its place
(`keys_set`); `get?_set` says what is found afterwards.
-/

namespace ComplexExpr

/-- Keys with a value each, in the order of their first appearance. -/
structure Table (κ α : Type) [BEq κ] where
  entries : List (κ × α)
  distinct : (entries.map Prod.fst).Pairwise fun j k => (j == k) = false

namespace Table

variable {κ α : Type} [BEq κ]

def empty : Table κ α := ⟨[], .nil⟩

instance : Inhabited (Table κ α) := ⟨empty⟩

def keys (t : Table κ α) : List κ := t.entries.map Prod.fst

/-- The value of a key. -/
def get? (t : Table κ α) (k : κ) : Option α := t.entries.lookup k

def contains (t : Table κ α) (k : κ) : Bool := (t.get? k).isSome

/-- A key's value replaced where the key stands, or put at the end. -/
def assign (k : κ) (v : α) : List (κ × α) → List (κ × α)
  | [] => [(k, v)]
  | (k', v') :: rest => if k' == k then (k', v) :: rest else (k', v') :: assign k v rest

theorem map_fst_assign (k : κ) (v : α) (es : List (κ × α)) :
    (assign k v es).map Prod.fst =
      if (es.map Prod.fst).any (· == k) then es.map Prod.fst else es.map Prod.fst ++ [k] := by
  induction es with
  | nil => rfl
  | cons e es ih =>
    obtain ⟨k', v'⟩ := e
    unfold assign
    split
    next h => simp [h]
    next h =>
      rw [Bool.not_eq_true] at h
      simp only [List.map_cons, ih, List.any_cons, h, Bool.false_or]
      split <;> simp

theorem distinct_assign (k : κ) (v : α) {es : List (κ × α)}
    (h : (es.map Prod.fst).Pairwise fun j k => (j == k) = false) :
    ((assign k v es).map Prod.fst).Pairwise fun j k => (j == k) = false := by
  rw [map_fst_assign]
  split
  · exact h
  next hk =>
    rw [List.pairwise_append]
    refine ⟨h, List.pairwise_singleton .., fun j hj l hl => ?_⟩
    rw [List.mem_singleton.1 hl]
    exact Bool.eq_false_iff.2 fun he => hk (List.any_eq_true.2 ⟨j, hj, he⟩)

def set (t : Table κ α) (k : κ) (v : α) : Table κ α :=
  ⟨assign k v t.entries, distinct_assign k v t.distinct⟩

/-- All entries of a list set one after the other. -/
def update (t : Table κ α) (es : List (κ × α)) : Table κ α :=
  es.foldl (fun t e => t.set e.1 e.2) t

/-- The table of a list of entries: a key that comes again keeps its place and takes the new
value. -/
def ofList (es : List (κ × α)) : Table κ α := empty.update es

@[simp] theorem get?_empty (x : κ) : (empty : Table κ α).get? x = none := rfl

theorem keys_set (t : Table κ α) (k : κ) (v : α) :
    (t.set k v).keys = if t.keys.any (· == k) then t.keys else t.keys ++ [k] :=
  map_fst_assign k v t.entries

variable [EquivBEq κ]

theorem lookup_assign (k : κ) (v : α) (es : List (κ × α)) (x : κ) :
    (assign k v es).lookup x = if x == k then some v else es.lookup x := by
  induction es with
  | nil => simp only [assign, List.lookup_cons, List.lookup_nil]; split <;> simp_all
  | cons e es ih =>
    obtain ⟨k', v'⟩ := e
    unfold assign
    split
    next h =>
      have hk : (x == k') = (x == k) := BEq.congr_right h
      simp only [List.lookup_cons, hk]
      split <;> simp_all
    next h =>
      have hne (hx : x == k) : (x == k') = false :=
        Bool.eq_false_iff.2 fun hx' => h (BEq.trans (BEq.symm hx') hx)
      simp only [List.lookup_cons, ih]
      split <;> simp_all

@[simp] theorem get?_set (t : Table κ α) (k : κ) (v : α) (x : κ) :
    (t.set k v).get? x = if x == k then some v else t.get? x := lookup_assign k v t.entries x

end Table

end ComplexExpr
