import ComplexExpr.Proofs.Json.Number
import ComplexExpr.Proofs.Table

/-!
# Settings files are read back

An object without containers in it is read back as it was written
(`read_write`): every key and value, in order, and each value as what it was. A
value is among those that can be read back (`Storable`) unless it is a whole
number with too many digits, or a text with a pair of surrogates written as
two.
-/

namespace ComplexExpr.Json

open PowerOfTen (Stopped)
open Text (stops_cons dropWhile_run)

/-- A value, no container, that is read back once it is written. -/
inductive Storable : Json → Prop
  | null : Storable .null
  | bool (b : Bool) : Storable (.bool b)
  | int {n : ℤ} (h : n.natAbs < 10 ^ digitLimit) : Storable (.int n)
  | real (x : Float) : Storable (.real x)
  | text {s : WideText} (h : s.Separate) : Storable (.text s)

variable {α : Type} {inner : Option (Reader Json)} {value : Reader Json} {item : Reader α}
  {close c : Char} {cs mid rest : List Char} {a : α} {as : List α} {v : Json} {k : WideText}
  {ms : List (WideText × Json)}

/-! ## Values without parts -/

/-- What is taken as a word or a number is taken as a value, and no gap precedes it. -/
theorem Takes.valueWith (h : Takes (scalar cs) v rest) (inner : Option (Reader Json)) :
    Takes (Json.valueWith inner cs) v rest ∧ skip cs = cs := by
  cases cs with
  | nil =>
    obtain ⟨hlt, -⟩ := h
    exact absurd hlt (Nat.not_lt_zero _)
  | cons c cs =>
    have hne (d : Char) (hd : scalar (d :: cs) = .error .malformed) : c ≠ d := by
      rintro rfl
      obtain ⟨hlt, h⟩ := h
      rw [hd] at h
      cases h
    have hgap : isGap c = false := by
      simp [isGap, hne ' ' rfl, hne '\t' rfl, hne '\n' rfl, hne '\r' rfl]
    refine ⟨?_, ?_⟩
    · unfold Json.valueWith
      dsimp only
      rw [if_neg (hne '"' rfl), if_neg (hne '[' rfl), if_neg (hne '{' rfl)]
      exact h
    · exact Text.dropWhile_of_stops (stops_cons.2 hgap)

/-- A value without parts is read back. -/
theorem takes_storable (h : Storable v) (depth : ℕ) (inner : Option (Reader Json))
    (hrest : Stopped rest) :
    Takes (Json.valueWith inner (toChars depth v ++ rest)) v rest ∧
      skip (toChars depth v ++ rest) = toChars depth v ++ rest := by
  cases h with
  | null => exact (takes_word (w := "null".toList) (by decide) rfl).valueWith inner
  | bool b =>
    cases b with
    | true => exact (takes_word (w := "true".toList) (by decide) rfl).valueWith inner
    | false => exact (takes_word (w := "false".toList) (by decide) rfl).valueWith inner
  | int h => exact (takes_int h hrest).valueWith inner
  | real x => exact (takes_real x hrest).valueWith inner
  | @text s h =>
    have htext : toChars depth (.text s) ++ rest = '"' :: (s.flatMap pointText ++ '"' :: rest) := by
      simp [toChars, quoted]
    rw [htext]
    exact ⟨(takes_stringRest h).map Json.text _, rfl⟩

/-! ## Members -/

theorem takes_member (hk : k.Separate) (hv : Takes (value cs) v rest) (hskip : skip cs = cs) :
    Takes (member value (quoted k ++ ':' :: ' ' :: cs)) (k, v) rest := by
  have htext : quoted k ++ ':' :: ' ' :: cs =
      '"' :: (k.flatMap pointText ++ '"' :: ':' :: ' ' :: cs) := by
    simp [quoted]
  have hkey : Takes (stringRest (k.flatMap pointText ++ '"' :: ':' :: ' ' :: cs)) k
      (':' :: ' ' :: cs) := takes_stringRest hk
  obtain ⟨hlt, hkey⟩ := hkey
  have hrest : Takes (value (skip (' ' :: cs))) v rest := by
    show Takes (value (skip cs)) v rest
    rwa [hskip]
  obtain ⟨hlt', hv⟩ := hrest
  rw [htext, member, if_pos rfl, hkey]
  show Takes (value (skip (' ' :: cs)) >>= _) _ _
  rw [hv]
  exact ⟨_, rfl⟩

/-! ## Items between brackets -/

theorem takes_last (h : Takes (item cs) a mid) (hmid : skip mid = close :: rest) :
    Takes (separated close item cs) [a] rest := by
  obtain ⟨hlt, h⟩ := h
  rw [separated, h]
  dsimp only [bind, Except.bind]
  split
  next hr => rw [hmid] at hr; cases hr
  next c rest' hr =>
    rw [hmid] at hr
    cases hr
    rw [if_pos rfl]
    exact ⟨_, rfl⟩

theorem takes_cons (hclose : close ≠ ',') (h : Takes (item cs) a mid) {next : List Char}
    (hmid : skip mid = ',' :: next) (has : Takes (separated close item (skip next)) as rest) :
    Takes (separated close item cs) (a :: as) rest := by
  obtain ⟨hlt, h⟩ := h
  obtain ⟨hlt', has⟩ := has
  rw [separated, h]
  dsimp only [bind, Except.bind]
  split
  next hr => rw [hmid] at hr; cases hr
  next c rest' hr =>
    rw [hmid] at hr
    cases hr
    rw [if_neg hclose.symm, if_pos rfl, has]
    exact ⟨_, rfl⟩

theorem skip_newLine (depth : ℕ) (hc : isGap c = false) :
    skip (newLine depth ++ c :: cs) = c :: cs := by
  refine dropWhile_run (fun d hd => ?_) (stops_cons.2 hc)
  rcases List.mem_cons.1 hd with rfl | hd
  · rfl
  · rw [List.eq_of_mem_replicate hd]
    rfl

/-- Members, each after a comma on its own line, are read back one after the other. -/
theorem takes_members (inner : Option (Reader Json)) (depth outer : ℕ) (k : WideText) (v : Json)
    (ms : List (WideText × Json)) (h : ∀ m ∈ (k, v) :: ms, m.1.Separate ∧ Storable m.2) :
    Takes (separated '}' (member (Json.valueWith inner)) (quoted k ++ ':' :: ' ' ::
      (toChars depth v ++ (moreMembers depth ms ++ (newLine outer ++ '}' :: rest)))))
      ((k, v) :: ms) rest := by
  induction ms generalizing k v with
  | nil =>
    obtain ⟨hk, hv⟩ := h (k, v) List.mem_cons_self
    have hstop : Stopped (newLine outer ++ '}' :: rest) := stops_cons.2 (by decide)
    obtain ⟨hvalue, hskip⟩ := takes_storable hv depth inner hstop
    exact takes_last (takes_member hk hvalue hskip) (skip_newLine outer rfl)
  | cons m ms ih =>
    obtain ⟨k', v'⟩ := m
    obtain ⟨hk, hv⟩ := h (k, v) List.mem_cons_self
    have hmore : moreMembers depth ((k', v') :: ms) ++ (newLine outer ++ '}' :: rest) =
        ',' :: (newLine depth ++ (quoted k' ++ ':' :: ' ' ::
          (toChars depth v' ++ (moreMembers depth ms ++ (newLine outer ++ '}' :: rest))))) := by
      simp [moreMembers]
    rw [hmore]
    have hstop : ∀ cs, Stopped (',' :: cs) := fun cs => stops_cons.2 (by decide)
    obtain ⟨hvalue, hskip⟩ := takes_storable hv depth inner (hstop _)
    refine takes_cons (by decide) (takes_member hk hvalue hskip) rfl ?_
    have hnext := ih k' v' fun m hm => h m (List.mem_cons_of_mem _ hm)
    have hquote (tail : List Char) :
        skip (newLine depth ++ (quoted k' ++ tail)) = quoted k' ++ tail := skip_newLine depth rfl
    rw [hquote]
    exact hnext

/-! ## Objects -/

theorem takes_items (hc : c ≠ close) (hcs : skip cs = c :: mid)
    (h : Takes (separated close item (c :: mid)) as rest) :
    Takes (container close item cs) as rest := by
  obtain ⟨hlt, h⟩ := h
  unfold container
  split
  next hr => rw [hcs] at hr; cases hr
  next c' mid' hr =>
    rw [hcs] at hr
    cases hr
    rw [if_neg hc, h]
    exact ⟨_, rfl⟩

/-- The members of an object are read back up to its closing bracket. -/
theorem takes_object (inner : Option (Reader Json)) (h : ∀ m ∈ ms, m.1.Separate ∧ Storable m.2) :
    ∃ cs, toChars 0 (.object ms) = '{' :: cs ∧
      Takes (container '}' (member (Json.valueWith inner)) cs) ms [] := by
  cases ms with
  | nil => exact ⟨['}'], by simp [toChars], _, rfl⟩
  | cons m ms =>
    obtain ⟨k, v⟩ := m
    have htext : toChars 0 (.object ((k, v) :: ms)) =
        '{' :: (newLine 1 ++ (quoted k ++ ':' :: ' ' ::
          (toChars 1 v ++ (moreMembers 1 ms ++ (newLine 0 ++ ['}']))))) := by
      simp [toChars]
    refine ⟨_, htext, takes_items (by decide) (skip_newLine 1 rfl) ?_⟩
    exact takes_members inner 1 0 k v ms h

theorem read_of_takes {text : String} (h : Takes (Json.value depthLimit (skip text.toList)) v []) :
    read text = .ok v := by
  obtain ⟨hlt, h⟩ := h
  rw [read, h]
  rfl

/-- An object without containers in it is read back as it was written. -/
theorem read_write (h : ∀ m ∈ ms, m.1.Separate ∧ Storable m.2) (hd : Table.Distinct ms) :
    read (write (.object ms)) = .ok (.object ms) := by
  obtain ⟨cs, htext, hcs⟩ := takes_object (some (Json.value 983)) h
  have hobject := hcs.map (fun ms => Json.object (Table.ofList ms).entries)
    (show cs.length ≤ ('{' :: cs).length by simp)
  rw [Table.entries_ofList hd] at hobject
  refine read_of_takes ?_
  rw [write, String.toList_ofList, htext]
  exact hobject

end ComplexExpr.Json
