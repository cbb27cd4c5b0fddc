import ComplexExpr.Table

/-!
# Tables made of lists

What a list of entries makes of a table. The keys of the table stay in front
(`keys_prefix_update`). If the keys of the list are distinct, it is known what
is found there (`get?_update`), and in which order (`entries_update_eq`). Of the
empty table such a list makes its own entries (`entries_ofList`).
-/

namespace ComplexExpr.Table

variable {κ α : Type} [BEq κ] {t : Table κ α} {es : List (κ × α)} {k : κ} {v : α}

/-- No key of the entries equals a later one. -/
def Distinct (es : List (κ × α)) : Prop :=
  (es.map Prod.fst).Pairwise fun j k => (j == k) = false

theorem assign_of_new (h : ∀ e ∈ es, (e.1 == k) = false) : assign k v es = es ++ [(k, v)] := by
  induction es with
  | nil => rfl
  | cons e es ih =>
    obtain ⟨he, hes⟩ := List.forall_mem_cons.1 h
    rw [assign, he, ih hes]
    rfl

/-- Entries with new keys come after those of the table. -/
theorem entries_update (h : Distinct (t.entries ++ es)) :
    (t.update es).entries = t.entries ++ es := by
  induction es generalizing t with
  | nil => rw [List.append_nil]; rfl
  | cons e es ih =>
    have hnew : ∀ e' ∈ t.entries, (e'.1 == e.1) = false := by
      intro e' he'
      rw [Distinct, List.map_append, List.pairwise_append] at h
      exact h.2.2 e'.1 (List.mem_map_of_mem he') e.1 List.mem_cons_self
    have hset : (t.set e.1 e.2).entries = t.entries ++ [e] := assign_of_new hnew
    have hnext := ih (t := t.set e.1 e.2) (by rw [hset, List.append_assoc]; exact h)
    rw [hset, List.append_assoc] at hnext
    exact hnext

theorem update_nil (t : Table κ α) : t.update [] = t := rfl

theorem entries_ofList (h : Distinct es) : (ofList es).entries = es := entries_update h

/-- The keys of a table keep their places, and new keys come after them. -/
theorem keys_prefix_update (t : Table κ α) (es : List (κ × α)) : t.keys <+: (t.update es).keys := by
  induction es generalizing t with
  | nil => exact List.prefix_rfl
  | cons e es ih =>
    refine List.IsPrefix.trans ?_ (ih (t.set e.1 e.2))
    rw [keys_set]
    split
    · exact List.prefix_rfl
    · exact List.prefix_append t.keys [e.1]

section

variable {P : κ → Prop} {Q : α → Prop}

/-- What holds of all keys and of all values of a table holds of them after one is set. -/
theorem forall_mem_set (ht : ∀ e ∈ t.entries, P e.1 ∧ Q e.2) (hk : P k) (hv : Q v) :
    ∀ e ∈ (t.set k v).entries, P e.1 ∧ Q e.2 := by
  show ∀ e ∈ assign k v t.entries, _
  generalize t.entries = es at ht
  induction es with
  | nil => exact List.forall_mem_singleton.2 ⟨hk, hv⟩
  | cons e es ih =>
    obtain ⟨he, hes⟩ := List.forall_mem_cons.1 ht
    unfold assign
    split
    · exact List.forall_mem_cons.2 ⟨⟨he.1, hv⟩, hes⟩
    · exact List.forall_mem_cons.2 ⟨he, ih hes⟩

theorem forall_mem_update (ht : ∀ e ∈ t.entries, P e.1 ∧ Q e.2) (hes : ∀ e ∈ es, P e.1 ∧ Q e.2) :
    ∀ e ∈ (t.update es).entries, P e.1 ∧ Q e.2 := by
  induction es generalizing t with
  | nil => exact ht
  | cons e es ih =>
    obtain ⟨he, hes⟩ := List.forall_mem_cons.1 hes
    exact ih (forall_mem_set ht he.1 he.2) hes

end

theorem mem_of_lookup [LawfulBEq κ] (h : es.lookup k = some v) : (k, v) ∈ es := by
  obtain ⟨before, after, hes, -⟩ := List.lookup_eq_some_iff.1 h
  rw [hes]
  exact List.mem_append_right before List.mem_cons_self

variable [EquivBEq κ]

theorem lookup_eq_none (h : ∀ e ∈ es, (e.1 == k) = false) : es.lookup k = none := by
  rw [List.lookup_eq_none_iff]
  intro e he
  rw [bne, Bool.not_eq_true', ← h e he]
  exact BEq.comm

theorem lookup_of_mem (h : Distinct es) (hmem : (k, v) ∈ es) : es.lookup k = some v := by
  induction es with
  | nil => cases hmem
  | cons e es ih =>
    obtain ⟨j, w⟩ := e
    obtain ⟨hj, hes⟩ := List.pairwise_cons.1 h
    rw [List.lookup_cons]
    rcases List.mem_cons.1 hmem with he | hmem
    · cases he
      rw [BEq.rfl]
    · rw [BEq.comm, hj k (List.mem_map_of_mem hmem), ih hes hmem]

/-- Every entry is found by its key. -/
theorem get?_of_mem (h : (k, v) ∈ t.entries) : t.get? k = some v := lookup_of_mem t.distinct h

/-- The entries of a list are found first, and then those of the table. -/
theorem get?_update (h : Distinct es) (k : κ) :
    (t.update es).get? k = (es.lookup k).or (t.get? k) := by
  induction es generalizing t with
  | nil => rfl
  | cons e es ih =>
    obtain ⟨j, v⟩ := e
    obtain ⟨hj, hes⟩ := List.pairwise_cons.1 h
    have hset : (t.update ((j, v) :: es)).get? k = ((t.set j v).update es).get? k := rfl
    rw [hset, ih hes, get?_set, List.lookup_cons]
    by_cases hk : (k == j) = true
    · have hnone : es.lookup k = none := lookup_eq_none fun e he => by
        rw [← hj e.1 (List.mem_map_of_mem he), BEq.comm (a := e.1)]
        exact BEq.congr_left hk
      rw [hnone, hk]
      rfl
    · rw [Bool.not_eq_true] at hk
      rw [hk]
      rfl

/-! ## The order of the entries -/

theorem contains_set (t : Table κ α) (k : κ) (v : α) (x : κ) :
    (t.set k v).contains x = (x == k || t.contains x) := by
  unfold contains
  rw [get?_set]
  cases x == k <;> rfl

/-- A value is put where its key stands, and at the end if the key is new. -/
theorem entries_set (t : Table κ α) (k : κ) (v : α) :
    (t.set k v).entries = t.entries.map (fun e => (e.1, if e.1 == k then v else e.2)) ++
      if t.contains k then [] else [(k, v)] := by
  show assign k v t.entries = _ ++ if (t.entries.lookup k).isSome then _ else _
  have hd : Distinct t.entries := t.distinct
  generalize t.entries = es at hd
  induction es with
  | nil => rfl
  | cons e es ih =>
    obtain ⟨j, w⟩ := e
    obtain ⟨hj, hes⟩ := List.pairwise_cons.1 hd
    rw [assign, List.lookup_cons, List.map_cons, BEq.comm (a := k)]
    cases hjk : j == k with
    | true =>
      have hkeep : es.map (fun e => (e.1, if e.1 == k then v else e.2)) = es := by
        refine (List.map_congr_left fun e he => ?_).trans (List.map_id es)
        have hne : (e.1 == k) = false := by
          rw [← hj e.1 (List.mem_map_of_mem he), BEq.comm (a := j)]
          exact (BEq.congr_right hjk).symm
        rw [hne]
        rfl
      rw [hkeep]
      exact (List.append_nil _).symm
    | false => exact congrArg (List.cons (j, w)) (ih hes)

section

variable (hnew : ∀ e ∈ es, (e.1 == k) = false)
include hnew

/-- Whether an entry is put first makes no difference to whether later ones with other keys are new. -/
theorem filter_contains_set (t : Table κ α) (v : α) :
    es.filter (fun e => !(t.set k v).contains e.1) = es.filter fun e => !t.contains e.1 := by
  refine List.filter_congr fun e he => ?_
  rw [contains_set, hnew e he]
  rfl

/-- A value is the one that a key is set to at last. -/
theorem getD_lookup_cons (j : κ) (v w : α) :
    (es.lookup j).getD (if j == k then v else w) = (((k, v) :: es).lookup j).getD w := by
  rw [List.lookup_cons]
  cases hj : j == k with
  | true =>
    have hnone : es.lookup j = none := lookup_eq_none fun e he => by
      rw [← hnew e he]
      exact BEq.congr_right hj
    rw [hnone]
    rfl
  | false => rfl

end

/-- The entries of a table keep their places and take the values that a list has for them; then
come the entries of the list that are new. -/
theorem entries_update_eq (h : Distinct es) :
    (t.update es).entries = t.entries.map (fun e => (e.1, (es.lookup e.1).getD e.2)) ++
      es.filter fun e => !t.contains e.1 := by
  induction es generalizing t with
  | nil =>
    have hkeep : t.entries.map (fun e => (e.1, (List.lookup e.1 []).getD e.2)) = t.entries :=
      List.map_id t.entries
    rw [hkeep, update_nil]
    exact (List.append_nil _).symm
  | cons e es ih =>
    obtain ⟨k, v⟩ := e
    obtain ⟨hk, hes⟩ := List.pairwise_cons.1 h
    have hnew : ∀ e ∈ es, (e.1 == k) = false := fun e he => by
      rw [← hk e.1 (List.mem_map_of_mem he)]
      exact BEq.comm
    have hset : (t.update ((k, v) :: es)).entries = ((t.set k v).update es).entries := rfl
    rw [hset, ih hes, entries_set, filter_contains_set hnew, List.map_append, List.map_map,
      List.append_assoc, List.filter_cons]
    congr 1
    · exact List.map_congr_left fun e _ => congrArg _ (getD_lookup_cons hnew e.1 v e.2)
    · cases t.contains k with
      | true => rfl
      | false =>
        show [(k, (es.lookup k).getD v)] ++ _ = _
        rw [lookup_eq_none hnew]
        rfl

end ComplexExpr.Table
