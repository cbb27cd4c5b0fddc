import ComplexExpr.Proofs.Results
import ComplexExpr.Proofs.Settings.Saved

/-!
# Loading a settings file

A settings file that is missing or malformed says nothing, and one that holds
an object says its members (`Says`). Main statements:

* `load_settings`: a file that says something is loaded as the defaults in
  their order, each with the value that the file gives it, and then what else
  the file holds. Of the other files just those are loaded that hold a list of
  pairs or the empty text; the defaults come first of what is loaded from them
  too.
* `load_without_object`: a file that holds the word `null` is not loaded, a list
  of pairs counts as an object, and whatever opens more lists within each other
  than may be nested is not loaded, even if they are never closed.
-/

namespace ComplexExpr

namespace Json

variable {α : Type} {close c : Char} {item : Reader α} {cs cs' : List Char} {f : Fault}
  {text : String} {v : Json}

/-- What a text denotes is the value at its front. -/
theorem exists_value_of_read (htext : text.toList = cs) (h : read text = .ok v) :
    ∃ p, value depthLimit (skip cs) = .ok p ∧ p.result = v := by
  subst htext
  obtain ⟨p, hp, h⟩ := ok_of_bind h
  split at h
  next =>
    cases h
    exact ⟨p, hp, rfl⟩
  next => cases h

/-- A text that begins with a square bracket denotes nothing but a list. -/
theorem list_of_read (htext : text.toList = '[' :: cs) (h : read text = .ok v) :
    ∃ items, v = .list items := by
  obtain ⟨p, hp, rfl⟩ := exists_value_of_read htext h
  obtain ⟨q, -, rfl⟩ := ok_of_map (x := container ']' (value 984) cs) hp
  exact ⟨q.result, rfl⟩

/-- A text that begins with a curly bracket denotes nothing but an object. -/
theorem object_of_read (htext : text.toList = '\x7b' :: cs) (h : read text = .ok v) :
    ∃ ms, v = .object ms := by
  obtain ⟨p, hp, rfl⟩ := exists_value_of_read htext h
  obtain ⟨q, -, rfl⟩ := ok_of_map (x := container '\x7d' (member (value 984)) cs) hp
  exact ⟨_, rfl⟩

theorem container_of_item_error (hskip : skip cs = c :: cs') (hc : c ≠ close)
    (h : item (c :: cs') = .error f) : container close item cs = .error f := by
  unfold container
  split
  next hr => rw [hskip] at hr; cases hr
  next hr =>
    rw [hskip] at hr
    cases hr
    rw [if_neg hc, separated, h]
    rfl

/-- Lists that open within each other, more than there is room for, are too deep, whatever comes
after that. -/
theorem value_nested {room n : ℕ} (h : room < n) (cs : List Char) :
    value room (List.replicate n '[' ++ cs) = .error .tooDeep := by
  induction room generalizing n with
  | zero =>
    obtain ⟨n, rfl⟩ := Nat.exists_eq_succ_of_ne_zero h.ne'
    rfl
  | succ room ih =>
    obtain ⟨n, rfl⟩ := Nat.exists_eq_succ_of_ne_zero (Nat.ne_zero_of_lt h)
    obtain ⟨m, rfl⟩ := Nat.exists_eq_succ_of_ne_zero (Nat.ne_zero_of_lt (Nat.lt_of_succ_lt_succ h))
    have hitem : container ']' (value room) (List.replicate (m + 1) '[' ++ cs) = .error .tooDeep :=
      container_of_item_error rfl (by decide) (ih (Nat.lt_of_succ_lt_succ h))
    show (container ']' (value room) (List.replicate (m + 1) '[' ++ cs)).map _ = _
    rw [hitem]
    rfl

/-- Lists that open within each other and are never closed are malformed, if there is room for
them. -/
theorem value_unclosed {room n : ℕ} (h : n ≤ room) :
    value room (List.replicate n '[') = .error .malformed := by
  induction n generalizing room with
  | zero => cases room <;> rfl
  | succ n ih =>
    obtain ⟨room, rfl⟩ := Nat.exists_eq_succ_of_ne_zero (Nat.ne_zero_of_lt h)
    have hcontainer : container ']' (value room) (List.replicate n '[') = .error .malformed := by
      cases n with
      | zero => rfl
      | succ n => exact container_of_item_error rfl (by decide) (ih (Nat.le_of_succ_le_succ h))
    show (container ']' (value room) (List.replicate n '[')).map _ = _
    rw [hcontainer]
    rfl

theorem read_nested {n : ℕ} (h : depthLimit < n) (cs : List Char) :
    read (String.ofList (List.replicate n '[' ++ cs)) = .error .tooDeep := by
  have hskip : skip (List.replicate n '[' ++ cs) = List.replicate n '[' ++ cs := by
    obtain ⟨n, rfl⟩ := Nat.exists_eq_succ_of_ne_zero (Nat.ne_zero_of_lt h)
    rfl
  rw [read, String.toList_ofList, hskip, value_nested h]
  rfl

end Json

namespace Settings

/-- What a settings file says: the members of the object in it, or nothing if it is missing or
malformed. -/
inductive Says : Option String → List (WideText × Json) → Prop
  | missing : Says none []
  | malformed {text : String} (h : Json.read text = .error .malformed) : Says (some text) []
  | object {text : String} {ms : List (WideText × Json)} (h : Json.read text = .ok (.object ms)) :
    Says (some text) ms

/-- An item of a list that stands for an entry: two values of which the first is no container, two
code points, or two members. -/
inductive IsPair : Json → Prop
  | list (k v : Json) (hk : k.IsScalar) : IsPair (.list [k, v])
  | text (k v : CodePoint) : IsPair (.text [k, v])
  | object (k v : WideText × Json) : IsPair (.object [k, v])

variable {text : Option String} {ms : List (WideText × Json)} {s : Settings}

/-! ## What a file says -/

theorem Says.distinct (h : Says text ms) : Table.Distinct ms := by
  cases h with
  | missing => exact .nil
  | malformed => exact .nil
  | object h => exact (Json.storable_of_read h).1

/-- What a file says is put over the defaults. -/
theorem Says.ofFile (h : Says text ms) :
    Settings.ofFile text = .ok (defaults.update (entriesOfMembers ms)) := by
  have hnothing : defaults.update (entriesOfMembers []) = defaults := Table.update_nil defaults
  cases h with
  | missing => rw [hnothing, Settings.ofFile]
  | malformed h => rw [hnothing, ofFile_malformed h]
  | object h => exact ofFile_object h

theorem lookup_entriesOfMembers (ms : List (WideText × Json)) (w : WideText) :
    (entriesOfMembers ms).lookup (.text w) = ms.lookup w := by
  induction ms with
  | nil => rfl
  | cons m ms ih =>
    show List.lookup _ ((Key.text m.1, m.2) :: entriesOfMembers ms) = _
    rw [List.lookup_cons, List.lookup_cons, beq_text, ih]

theorem entries_defaults : defaults.entries = standard.map fun e => (.ofString e.1, e.2) := by
  refine Table.entries_ofList ?_
  unfold Table.Distinct
  decide +kernel

/-- The entries of settings with members put over the defaults. -/
theorem entries_update_defaults (h : Table.Distinct ms) :
    (defaults.update (entriesOfMembers ms)).entries =
      standard.map (fun e => (.ofString e.1, (ms.lookup (.ofString e.1)).getD e.2)) ++
        entriesOfMembers (ms.filter fun m => !defaults.contains (.text m.1)) := by
  have hknown (e : String × Json) :
      (entriesOfMembers ms).lookup (.ofString e.1) = ms.lookup (.ofString e.1) :=
    lookup_entriesOfMembers ms (.ofString e.1)
  rw [Table.entries_update_eq (distinct_entriesOfMembers.2 h), entries_defaults, List.map_map]
  congr 1
  · exact List.map_congr_left fun e _ => by rw [Function.comp_apply, hknown]
  · rw [entriesOfMembers, entriesOfMembers, List.filter_map]
    rfl

/-- The value of a setting: what the members have for it, or else its default. -/
theorem value_update_defaults (h : Table.Distinct ms) (key : String) :
    value (defaults.update (entriesOfMembers ms)) key =
      ((ms.lookup (.ofString key)).or (defaults.get? (.ofString key))).getD .null := by
  rw [value, Table.get?_update (distinct_entriesOfMembers.2 h), Key.ofString,
    lookup_entriesOfMembers]

/-! ## Values of the right types -/

/-- Two values of one of the types that defaults have. -/
inductive SameType : Json → Json → Prop
  | bool (a b : Bool) : SameType (.bool a) (.bool b)
  | int (m n : Int) : SameType (.int m) (.int n)
  | real (x y : Float) : SameType (.real x) (.real y)

/-- Each setting with a default has a value of the default's type. -/
def HasTypes (s : Settings) : Prop := ∀ e ∈ standard, SameType e.2 (s.value e.1)

/-- A file that gives no setting a value of another type than its default has. -/
def WellTyped (text : Option String) : Prop :=
  ∃ ms, Says text ms ∧ ∀ e ∈ standard, ∀ v, ms.lookup (.ofString e.1) = some v → SameType e.2 v

theorem wellTyped_of_nothing (h : Says text []) : WellTyped text := ⟨[], h, fun _ _ _ => nofun⟩

theorem sameType_standard : ∀ e ∈ standard, SameType e.2 e.2 := by
  simp only [standard, List.forall_mem_cons]
  exact ⟨.int _ _, .real _ _, .real _ _, .real _ _, .bool _ _, List.forall_mem_nil _⟩

/-- The settings of a comparison, by their types. -/
theorem HasTypes.values (h : HasTypes s) :
    (∃ n, s.value "equivalence_trials" = .int n) ∧
      (∃ x, s.value "equivalence_epsilon" = .real x) ∧ ∃ x, s.value "sample_range" = .real x := by
  simp only [HasTypes, standard, List.forall_mem_cons] at h
  obtain ⟨htrials, hepsilon, hrange, -⟩ := h
  have hint {m : Int} {v : Json} (h : SameType (.int m) v) : ∃ n, v = .int n := by
    cases h
    exact ⟨_, rfl⟩
  have hreal {y : Float} {v : Json} (h : SameType (.real y) v) : ∃ x, v = .real x := by
    cases h
    exact ⟨_, rfl⟩
  exact ⟨hint htrials, hreal hepsilon, hreal hrange⟩

theorem WellTyped.load (h : WellTyped text) :
    ∃ s, (Place.file text).load = .ok s ∧ HasTypes s := by
  obtain ⟨ms, htext, htypes⟩ := h
  refine ⟨_, htext.ofFile, fun e he => ?_⟩
  have hdefault : defaults.get? (.ofString e.1) = some e.2 := Table.get?_of_mem (by
    rw [entries_defaults]
    exact List.mem_map_of_mem he)
  rw [value_update_defaults htext.distinct, hdefault]
  cases hlookup : ms.lookup (.ofString e.1) with
  | none => exact sameType_standard e he
  | some v => exact htypes e he v hlookup

/-! ## Files that are loaded -/

theorem exists_entryOf_iff {item : Json} : (∃ e, entryOf item = .ok e) ↔ IsPair item := by
  constructor
  · rintro ⟨e, he⟩
    unfold entryOf at he
    split at he
    next k v =>
      refine .list k v ?_
      cases k with
      | list | object => cases he
      | _ => rfl
    next => cases he
    next k v => exact .text k v
    next => cases he
    next k₁ v₁ k₂ v₂ => exact .object (k₁, v₁) (k₂, v₂)
    all_goals cases he
  · rintro (⟨k, v, hk⟩ | ⟨k, v⟩ | ⟨k, v⟩)
    · cases k with
      | list | object => cases hk
      | _ => exact ⟨_, rfl⟩
    · exact ⟨_, rfl⟩
    · exact ⟨_, rfl⟩

theorem exists_entriesOf_iff {v : Json} :
    (∃ es, entriesOf v = .ok es) ↔
      (∃ ms, v = .object ms) ∨ v = .text [] ∨ ∃ items, v = .list items ∧
        ∀ item ∈ items, IsPair item := by
  cases v with
  | object ms => exact ⟨fun _ => .inl ⟨ms, rfl⟩, fun _ => ⟨entriesOfMembers ms, rfl⟩⟩
  | list items =>
    simp only [entriesOf, exists_mapM_iff, exists_entryOf_iff]
    constructor
    · exact fun h => .inr (.inr ⟨items, rfl, h⟩)
    · rintro (⟨ms, h⟩ | h | ⟨_, h, hitems⟩) <;> cases h
      exact hitems
  | text s =>
    cases s with
    | nil => exact ⟨fun _ => .inr (.inl rfl), fun _ => ⟨[], rfl⟩⟩
    | cons c s =>
      refine ⟨nofun, ?_⟩
      rintro (⟨ms, h⟩ | h | ⟨items, h, -⟩) <;> cases h
  | null | bool b | int n | real x =>
    refine ⟨nofun, ?_⟩
    rintro (⟨ms, h⟩ | h | ⟨items, h, -⟩) <;> cases h

/-- A file is loaded if it says something, and otherwise if it holds the empty text or a list of
pairs. -/
theorem exists_ofFile_iff : (∃ s, ofFile text = .ok s) ↔ (∃ ms, Says text ms) ∨
    ∃ t, text = some t ∧ (Json.read t = .ok (.text []) ∨
      ∃ items, Json.read t = .ok (.list items) ∧ ∀ item ∈ items, IsPair item) := by
  constructor
  · rintro ⟨s, h⟩
    cases text with
    | none => exact .inl ⟨[], .missing⟩
    | some t =>
      obtain ⟨es, hes, -⟩ := ok_of_map (x := readEntries t) h
      unfold readEntries at hes
      split at hes
      next v hv =>
        obtain ⟨ms, rfl⟩ | rfl | ⟨items, rfl, hitems⟩ := exists_entriesOf_iff.1 ⟨es, hes⟩
        · exact .inl ⟨ms, .object hv⟩
        · exact .inr ⟨t, rfl, .inl hv⟩
        · exact .inr ⟨t, rfl, .inr ⟨items, hv, hitems⟩⟩
      next hv => exact .inl ⟨[], .malformed hv⟩
      all_goals cases hes
  · rintro (⟨ms, h⟩ | ⟨t, rfl, h⟩)
    · exact ⟨_, h.ofFile⟩
    · have hv : ∃ v, Json.read t = .ok v ∧ ∃ es, entriesOf v = .ok es := by
        obtain h | ⟨items, h, hitems⟩ := h
        · exact ⟨_, h, exists_entriesOf_iff.2 (.inr (.inl rfl))⟩
        · exact ⟨_, h, exists_entriesOf_iff.2 (.inr (.inr ⟨items, rfl, hitems⟩))⟩
      obtain ⟨v, hv, es, hes⟩ := hv
      have hentries : readEntries t = .ok es := by rw [readEntries, hv]; exact hes
      rw [ofFile, hentries]
      exact ⟨defaults.update es, rfl⟩

/-- Whatever a file holds, what is loaded from it begins with the settings that have a default. -/
theorem keys_prefix_of_ofFile (h : ofFile text = .ok s) : defaults.keys <+: s.keys := by
  cases text with
  | none =>
    obtain rfl : defaults = s := Except.ok.inj h
    exact List.prefix_rfl
  | some t =>
    obtain ⟨es, -, rfl⟩ := ok_of_map (x := readEntries t) h
    exact Table.keys_prefix_update defaults es

/-- A file that says something is loaded: first come the settings that have a default, each with
its value in the file if it has one there and with its default otherwise, and then what else the
file says; the value of a single setting is found in the same way. From whatever file settings are
loaded, those with a default come first. Besides the files that say something just those are loaded
that hold the empty text or a list of pairs. -/
theorem load_settings (text : Option String) :
    (∀ ms, Says text ms → ∃ s, (Place.file text).load = .ok s ∧
      s.entries = standard.map (fun e => (.ofString e.1, (ms.lookup (.ofString e.1)).getD e.2)) ++
        entriesOfMembers (ms.filter fun m => !defaults.contains (.text m.1)) ∧
      ∀ key, s.value key =
        ((ms.lookup (.ofString key)).or (defaults.get? (.ofString key))).getD .null) ∧
    (∀ s, (Place.file text).load = .ok s → defaults.keys <+: s.keys) ∧
    ((∃ s, (Place.file text).load = .ok s) ↔ (∃ ms, Says text ms) ∨
      ∃ t, text = some t ∧ (Json.read t = .ok (.text []) ∨
        ∃ items, Json.read t = .ok (.list items) ∧ ∀ item ∈ items, IsPair item)) :=
  ⟨fun _ h => ⟨_, h.ofFile, entries_update_defaults h.distinct, value_update_defaults h.distinct⟩,
    fun _ => keys_prefix_of_ofFile, exists_ofFile_iff⟩

/-- An object in which one key comes twice. -/
def twiceSet : String := "\x7b\"debug\": false, \"x\": 1, \"debug\": true\x7d"

/-- Of a key that comes twice the last value counts. -/
theorem load_settings_repeated_key :
    ∃ ms s, Says (some twiceSet) ms ∧ (Place.file (some twiceSet)).load = .ok s ∧
      s.value "debug" = ((ms.lookup (.ofString "debug")).or (some (.bool false))).getD .null ∧
      isTrue (s.value "debug") = true ∧ defaults.keys <+: s.keys := by
  obtain ⟨v, hv⟩ : ∃ v, Json.read twiceSet = .ok v := exists_ok_of_isSome (by decide +kernel)
  obtain ⟨ms, rfl⟩ := Json.object_of_read rfl hv
  obtain ⟨htext, hprefix, -⟩ := load_settings (some twiceSet)
  obtain ⟨s, hload, -, hvalue⟩ := htext ms (.object hv)
  refine ⟨ms, s, .object hv, hload, hvalue "debug", ?_, hprefix s hload⟩
  have htrue : ((Place.file (some twiceSet)).load.toOption.map fun s => isTrue (s.value "debug")) =
      some true := by
    decide +kernel
  rw [hload] at htrue
  exact Option.some.inj htrue

/-! ## Files without an object -/

theorem load_nested {n : ℕ} (h : Json.depthLimit < n) (cs : List Char) :
    (Place.file (some (String.ofList (List.replicate n '[' ++ cs)))).load = .error .tooDeep := by
  have hentries : readEntries (String.ofList (List.replicate n '[' ++ cs)) = .error .tooDeep := by
    rw [readEntries, Json.read_nested h]
  rw [Place.load, Place.text?, ofFile, hentries]
  rfl

/-- A list with one pair in it. -/
def paired : String := "[[\"debug\", true]]"

theorem not_says_paired (ms : List (WideText × Json)) : ¬Says (some paired) ms := by
  obtain ⟨v, hv⟩ : ∃ v, Json.read paired = .ok v := exists_ok_of_isSome (by decide +kernel)
  obtain ⟨items, rfl⟩ := Json.list_of_read rfl hv
  intro h
  cases h with
  | malformed h => cases hv.symm.trans h
  | object h => cases hv.symm.trans h

/-- From a file that holds the word `null`, which is no object, nothing is loaded. A list of pairs
is no object either, and it counts: commands are traced that are not by default. Nothing is loaded
where a thousand lists are opened and not closed. -/
theorem load_without_object :
    (Place.file (some "null")).load = .error .wrongType ∧
    ((∀ ms, ¬Says (some paired) ms) ∧ ∃ s, (Place.file (some paired)).load = .ok s ∧
      isTrue (s.value "debug") = true ∧ isTrue (defaults.value "debug") = false) ∧
    (Place.file (some (String.ofList (List.replicate 1000 '[')))).load = .error .tooDeep := by
  refine ⟨rfl, ⟨not_says_paired, ?_⟩, ?_⟩
  · have htrue : ((Place.file (some paired)).load.toOption.map fun s =>
        isTrue (s.value "debug")) = some true := by
      decide +kernel
    cases hload : (Place.file (some paired)).load with
    | error d => rw [hload] at htrue; cases htrue
    | ok s =>
      rw [hload] at htrue
      exact ⟨s, rfl, Option.some.inj htrue, rfl⟩
  · have hdeep := load_nested (n := 1000) (by decide) []
    rwa [List.append_nil] at hdeep

end Settings

end ComplexExpr
