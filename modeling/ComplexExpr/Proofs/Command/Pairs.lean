import ComplexExpr.Command.Variables
import ComplexExpr.Proofs.Results
import ComplexExpr.Proofs.Table
import ComplexExpr.Proofs.Text.Run
import Mathlib.Data.List.Induction
import Mathlib.Tactic.Push

/-!
# Pairs of a name and a value

A pair gives a value to a name (`Bindings.Gives`) unless it is malformed
(`Bindings.Malformed`). Of a list of pairs the first malformed one decides
(`ofPairs_malformed`); if there is none, each name that occurs is bound to the
value that the last pair gives it (`exists_ofPairs`).
-/

namespace ComplexExpr.Bindings

/-- The pair gives a value to a name. The first equals sign divides the two, and blanks around them
do not count. -/
def Gives (pair name value : String) : Prop :=
  ∃ before after, pair.toList = before ++ '=' :: after ∧ '=' ∉ before ∧
    (∃ c ∈ before, Text.isBlank c = false) ∧ name = String.ofList (Text.trim before) ∧
    value = String.ofList (Text.trim after)

/-- There is no equals sign, or nothing but blanks before the first one. -/
def Malformed (pair : String) : Prop :=
  '=' ∉ pair.toList ∨ ∃ before after, pair.toList = before ++ '=' :: after ∧ '=' ∉ before ∧
    ∀ c ∈ before, Text.isBlank c

/-- The last of the pairs that give a value to a name gives it this one. -/
def LastGives (pairs : List String) (name value : String) : Prop :=
  ∃ before pair after, pairs = before ++ pair :: after ∧ Gives pair name value ∧
    ∀ p ∈ after, ∀ v, ¬Gives p name v

variable {pair name value : String} {pairs : List String} {before after : List Char}

/-! ## One pair -/

/-- The first equals sign divides a pair. -/
theorem divide_pair (hpair : pair.toList = before ++ '=' :: after) (hbefore : '=' ∉ before) :
    pair.toList.takeWhile (· != '=') = before ∧ pair.toList.dropWhile (· != '=') = '=' :: after := by
  have hrun : ∀ c ∈ before, (c != '=') = true := fun c hc =>
    bne_iff_ne.2 fun heq => hbefore (heq ▸ hc)
  have hstops : Text.Stops (· != '=') ('=' :: after) := Text.stops_cons.2 rfl
  rw [hpair]
  exact ⟨Text.takeWhile_run hrun hstops, Text.dropWhile_run hrun hstops⟩

theorem splitPair_of_gives (h : Gives pair name value) : splitPair pair = .ok (name, value) := by
  obtain ⟨before, after, hpair, hbefore, ⟨c, hc, hblank⟩, rfl, rfl⟩ := h
  obtain ⟨htake, hdrop⟩ := divide_pair hpair hbefore
  have hname : Text.trim before ≠ [] := fun hnil => by
    rw [Text.trimWhile_eq_nil_iff.1 hnil c hc] at hblank
    cases hblank
  unfold splitPair
  dsimp only
  rw [htake, hdrop]
  exact if_neg hname

theorem splitPair_of_malformed (h : Malformed pair) :
    splitPair pair = .error (.malformedBinding pair) := by
  obtain hnone | ⟨before, after, hpair, hbefore, hblank⟩ := h
  · have hdrop : pair.toList.dropWhile (· != '=') = [] :=
      List.dropWhile_eq_nil_iff.2 fun c hc => bne_iff_ne.2 fun heq => hnone (heq ▸ hc)
    unfold splitPair
    dsimp only
    rw [hdrop]
  · obtain ⟨htake, hdrop⟩ := divide_pair hpair hbefore
    unfold splitPair
    dsimp only
    rw [htake, hdrop]
    exact if_pos (Text.trimWhile_eq_nil_iff.2 hblank)

/-- A pair that is not malformed gives a value to a name. -/
theorem exists_gives (h : ¬Malformed pair) : ∃ name value, Gives pair name value := by
  unfold Malformed at h
  push Not at h
  obtain ⟨hmem, hname⟩ := h
  obtain ⟨before, after, hpair, hbefore⟩ := List.eq_append_cons_of_mem hmem
  obtain ⟨c, hc, hblank⟩ := hname before after hpair hbefore
  exact ⟨_, _, before, after, hpair, hbefore, ⟨c, hc, Bool.eq_false_iff.2 hblank⟩, rfl, rfl⟩

theorem Gives.not_malformed (h : Gives pair name value) : ¬Malformed pair := fun hm => by
  have heq := (splitPair_of_gives h).symm.trans (splitPair_of_malformed hm)
  cases heq

/-- A pair gives at most one value, and to one name. -/
theorem Gives.unique {name' value' : String} (h : Gives pair name value)
    (h' : Gives pair name' value') : name = name' ∧ value = value' := by
  have heq := (splitPair_of_gives h).symm.trans (splitPair_of_gives h')
  cases heq
  exact ⟨rfl, rfl⟩

/-! ## Lists of pairs -/

theorem lastGives_concat :
    LastGives (pairs ++ [pair]) name value ↔
      Gives pair name value ∨ (∀ v, ¬Gives pair name v) ∧ LastGives pairs name value := by
  constructor
  · rintro ⟨before, p, after, heq, hgives, hlast⟩
    obtain rfl | ⟨after', q, rfl⟩ := List.eq_nil_or_concat after
    · obtain ⟨-, hp⟩ := List.append_inj' heq rfl
      cases hp
      exact .inl hgives
    · rw [List.concat_eq_append] at heq hlast
      rw [← List.cons_append, ← List.append_assoc] at heq
      obtain ⟨rfl, hq⟩ := List.append_inj' heq rfl
      cases hq
      refine .inr ⟨hlast pair List.mem_concat_self, before, p, after', rfl, hgives, ?_⟩
      exact fun p hp => hlast p (List.mem_append_left _ hp)
  · rintro (hgives | ⟨hnone, before, p, after, rfl, hgives, hlast⟩)
    · exact ⟨pairs, pair, [], rfl, hgives, List.forall_mem_nil _⟩
    · refine ⟨before, p, after ++ [pair], by rw [List.append_assoc, List.cons_append], hgives, ?_⟩
      exact List.forall_mem_append.2 ⟨hlast, List.forall_mem_singleton.2 hnone⟩

/-- Of the pairs that give a value to a name one is the last. -/
theorem not_lastGives_iff :
    (∀ v, ¬LastGives pairs name v) ↔ ∀ p ∈ pairs, ∀ v, ¬Gives p name v := by
  refine ⟨fun h => ?_, fun h v ⟨before, p, after, heq, hgives, _⟩ => ?_⟩
  · induction pairs using List.reverseRecOn with
    | nil => exact List.forall_mem_nil _
    | append_singleton pairs pair ih =>
      simp only [lastGives_concat, not_or, not_and] at h
      have hpair (v : String) : ¬Gives pair name v := (h v).1
      have hpairs := ih fun v => (h v).2 hpair
      exact List.forall_mem_append.2 ⟨hpairs, List.forall_mem_singleton.2 hpair⟩
  · exact h p (heq ▸ List.mem_append_right before List.mem_cons_self) v hgives

/-- One more pair is set in the table of those before it. -/
theorem ofPairs_concat (pairs : List String) (pair : String) :
    ofPairs (pairs ++ [pair]) = (do
      let b ← ofPairs pairs
      let entry ← splitPair pair
      return b.set entry.1 entry.2) := by
  unfold ofPairs
  rw [List.mapM_append, List.mapM_cons, List.mapM_nil]
  cases pairs.mapM splitPair with
  | error c => rfl
  | ok es =>
    cases splitPair pair with
    | error c => rfl
    | ok entry => exact congrArg Except.ok (List.foldl_append ..)

/-- If no pair is malformed, a name is bound to the value that the last pair gives it, or not at
all. -/
theorem exists_ofPairs (h : ∀ pair ∈ pairs, ¬Malformed pair) :
    ∃ b, ofPairs pairs = .ok b ∧
      ∀ name value, b.get? name = some value ↔ LastGives pairs name value := by
  induction pairs using List.reverseRecOn with
  | nil =>
    refine ⟨.empty, rfl, fun name value => iff_of_false nofun ?_⟩
    rintro ⟨before, pair, after, heq, -⟩
    exact List.append_ne_nil_of_right_ne_nil before (List.cons_ne_nil pair after) heq.symm
  | append_singleton pairs pair ih =>
    obtain ⟨b, hb, hget⟩ := ih fun p hp => h p (List.mem_append_left _ hp)
    obtain ⟨x, v, hgives⟩ := exists_gives (h pair List.mem_concat_self)
    refine ⟨b.set x v, ?_, fun name value => ?_⟩
    · rw [ofPairs_concat, hb, splitPair_of_gives hgives]
      rfl
    · rw [lastGives_concat, ← hget, Table.get?_set]
      by_cases hx : name = x
      · subst hx
        rw [if_pos (BEq.refl name), Option.some_inj]
        refine ⟨fun hv => .inl (hv ▸ hgives), ?_⟩
        rintro (hgives' | ⟨hnone, -⟩)
        · exact (hgives.unique hgives').2
        · exact absurd hgives (hnone v)
      · rw [if_neg (mt eq_of_beq hx)]
        have hnone (w : String) : ¬Gives pair name w := fun hw => hx (hw.unique hgives).1
        refine ⟨fun hv => .inr ⟨hnone, hv⟩, ?_⟩
        rintro (hgives' | ⟨-, hv⟩)
        · exact absurd hgives' (hnone value)
        · exact hv

/-- The first malformed pair is the failure. -/
theorem ofPairs_malformed {before after : List String} (hbefore : ∀ p ∈ before, ¬Malformed p)
    (h : Malformed pair) : ofPairs (before ++ pair :: after) = .error (.malformedBinding pair) := by
  obtain ⟨b, hb, -⟩ := exists_ofPairs hbefore
  obtain ⟨es, hes, -⟩ := ok_of_bind hb
  unfold ofPairs
  rw [List.mapM_append, List.mapM_cons, hes, splitPair_of_malformed h]
  rfl

theorem exists_ofPairs_iff :
    (∃ b, ofPairs pairs = .ok b) ↔ ∀ pair ∈ pairs, ¬Malformed pair := by
  refine ⟨fun ⟨b, hb⟩ pair hpair hm => ?_, fun h => ?_⟩
  · obtain ⟨es, hes, -⟩ := ok_of_bind hb
    obtain ⟨entry, hentry⟩ := exists_mapM_iff.1 ⟨es, hes⟩ pair hpair
    rw [splitPair_of_malformed hm] at hentry
    cases hentry
  · obtain ⟨b, hb, -⟩ := exists_ofPairs h
    exact ⟨b, hb⟩

end ComplexExpr.Bindings
