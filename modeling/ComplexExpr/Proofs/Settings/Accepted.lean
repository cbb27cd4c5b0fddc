import ComplexExpr.Proofs.Binary.Parts
import ComplexExpr.Proofs.Settings.Update
import ComplexExpr.Proofs.Text.Run

/-!
# Values that a setting accepts

A text is accepted for a setting if it is a value of the type of the setting's default
and in its range: a whole number that is one or more, a double that is positive or no
number (`checked_eq_ok_iff`), or a truth value, spelled in capitals or small letters and
with blanks around it (`readBool?_eq_some_iff`). Main statement:

* `validate_accepts`: which values the texts are accepted as for each key, and that
  whatever is refused is a matter of the configuration.
-/

namespace ComplexExpr.Settings

variable {key raw : String} {v : Json}

/-! ## Truth values -/

/-- The word for a truth value. -/
def truthWord (b : Bool) : List Char := (if b then "true" else "false").toList

/-- The text is the word for a truth value, in capitals or small letters, between blanks. -/
def Spells (raw : String) (b : Bool) : Prop :=
  ∃ before word after, raw.toList = before ++ word ++ after ∧
    (∀ c ∈ before, Text.isBlank c) ∧ (∀ c ∈ after, Text.isBlank c) ∧
    word.map Char.toLower = truthWord b

theorem not_isBlank_of_mem_word {b : Bool} {word : List Char}
    (h : word.map Char.toLower = truthWord b) : ∀ c ∈ word, Text.isBlank c = false := by
  have hletters : ∀ b, (truthWord b).all fun c => !Text.isBlank c := by decide
  intro c hc
  by_contra hblank
  rw [Bool.not_eq_false] at hblank
  have hlower : c.toLower ∈ truthWord b := h ▸ List.mem_map_of_mem hc
  rw [Text.toLower_of_isBlank hblank] at hlower
  have hletter := List.all_eq_true.1 (hletters b) c hlower
  rw [hblank] at hletter
  cases hletter

theorem readBool?_eq_some_iff {b : Bool} : readBool? raw = some b ↔ Spells raw b := by
  have hword : readBool? raw = some b ↔
      (Text.trim raw.toList).map Char.toLower = truthWord b := by
    unfold readBool?
    split
    next h => rw [h]; cases b <;> decide
    next h => rw [h]; cases b <;> decide
    next htrue hfalse =>
      refine iff_of_false nofun fun h => ?_
      cases b with
      | true => exact htrue h
      | false => exact hfalse h
  rw [hword]
  constructor
  · intro h
    obtain ⟨before, after, hraw, hbefore, hafter⟩ :=
      Text.exists_trimWhile Text.isBlank raw.toList
    exact ⟨before, _, after, hraw, hbefore, hafter, h⟩
  · rintro ⟨before, word, after, hraw, hbefore, hafter, hword⟩
    rw [hraw, Text.trim, Text.trimWhile_run hbefore hafter (not_isBlank_of_mem_word hword)]
    exact hword

/-! ## Ranges -/

/-- The value is in the range of its type. -/
def InRange : Json → Prop
  | .int n => 1 ≤ n
  | .real x => 0.0 < x ∨ x.isNaN
  | _ => True

theorem checked_eq_ok_iff : checked key v = .ok v ↔ InRange v := by
  cases v with
  | int n =>
    rw [checked, InRange, ← Int.not_lt]
    exact Ne.ite_eq_right_iff fun h => by cases h
  | real x =>
    rw [checked, InRange, ← Binary.not_le_zero_iff]
    exact Ne.ite_eq_right_iff fun h => by cases h
  | null | bool b | text s | list items | object members => exact iff_of_true rfl trivial

/-! ## Keys -/

theorem validate_eq_ok_iff : validate key raw = .ok v ↔
    ∃ default, standard.lookup key = some default ∧ readLike default raw = some v ∧ InRange v := by
  unfold validate
  cases standard.lookup key with
  | none => exact ⟨nofun, nofun⟩
  | some default =>
    dsimp only
    cases hread : readLike default raw with
    | none =>
      refine ⟨nofun, fun ⟨_, hdefault, hv, _⟩ => ?_⟩
      cases hdefault
      rw [hread] at hv
      cases hv
    | some w =>
      constructor
      · intro h
        obtain rfl := eq_of_checked h
        exact ⟨default, rfl, hread, checked_eq_ok_iff.1 h⟩
      · rintro ⟨_, hdefault, hv, hrange⟩
        cases hdefault
        obtain rfl := Option.some.inj (hread.symm.trans hv)
        exact checked_eq_ok_iff.2 hrange

/-! ## Types -/

theorem ofString_beq (a b : String) : (Key.ofString a == Key.ofString b) = decide (a = b) := by
  rw [Key.ofString, Key.ofString, beq_text, WideText.ofString, WideText.ofString, beq_eq_decide,
    decide_eq_decide, List.map_inj_right fun _ _ => CodePoint.char.inj, String.toList_inj]

theorem lookup_standard_of_mem : ∀ e ∈ standard, standard.lookup e.1 = some e.2 := by
  simp only [standard, List.forall_mem_cons]
  exact ⟨rfl, rfl, rfl, rfl, rfl, List.forall_mem_nil _⟩

/-- A value is read as one of the default's type. -/
theorem sameType_of_readLike {default : Json} (h : SameType default default)
    (hv : readLike default raw = some v) : SameType default v := by
  cases h with
  | bool a =>
    obtain ⟨b, -, rfl⟩ := Option.map_eq_some_iff.1 hv
    exact .bool a b
  | int m =>
    obtain ⟨n, -, rfl⟩ := Option.map_eq_some_iff.1 hv
    exact .int m n
  | real x =>
    obtain ⟨y, -, rfl⟩ := Option.map_eq_some_iff.1 hv
    exact .real x y

/-- An accepted value is of the right type. -/
theorem HasTypes.set {s : Settings} (h : HasTypes s) (hv : validate key raw = .ok v) :
    HasTypes (s.set (.ofString key) v) := by
  intro e he
  rw [value, Table.get?_set, ofString_beq]
  by_cases hkey : e.1 = key
  · obtain ⟨default, hdefault, hread, -⟩ := validate_eq_ok_iff.1 hv
    have hlookup := lookup_standard_of_mem e he
    rw [hkey, hdefault] at hlookup
    obtain rfl := Option.some.inj hlookup
    rw [if_pos (decide_eq_true hkey)]
    exact sameType_of_readLike (sameType_standard e he) hread
  · rw [if_neg (mt of_decide_eq_true hkey)]
    exact h e he

/-- Values of the right types are saved as such. -/
theorem Sound.wellTyped_toFile {s : Settings} (hs : Sound s) (h : HasTypes s) :
    WellTyped (some s.toFile) := by
  refine ⟨membersOf s.entries, .object (read_toFile hs.entries), fun e he v hv => ?_⟩
  rw [← lookup_entriesOfMembers, entriesOfMembers_membersOf hs.entries] at hv
  have hvalue : s.value e.1 = v := congrArg (Option.getD · Json.null) hv
  rw [← hvalue]
  exact h e he

/-! ## Texts -/

/-- The keys whose values are doubles. -/
def realKeys : List String := ["equivalence_epsilon", "sample_range", "approx_epsilon"]

/-- What a text is accepted as for a key. -/
inductive Accepts (raw : String) : String → Json → Prop
  | trials {n : ℤ} (h : Typed.readInt? raw = some n) (hn : 1 ≤ n) :
    Accepts raw "equivalence_trials" (.int n)
  | real {key : String} {x : Float} (hkey : key ∈ realKeys) (h : Typed.readFloat? raw = some x)
    (hx : 0.0 < x ∨ x.isNaN) : Accepts raw key (.real x)
  | debug {b : Bool} (h : Spells raw b) : Accepts raw "debug" (.bool b)

theorem lookup_standard {default : Json} (h : standard.lookup key = some default) :
    (key, default) = ("equivalence_trials", .int 12) ∨
      (key ∈ realKeys ∧ ∃ x, default = .real x) ∨ (key, default) = ("debug", .bool false) := by
  have hmem := Table.mem_of_lookup h
  simp only [standard, List.mem_cons, List.not_mem_nil, or_false, Prod.mk.injEq] at hmem
  obtain ⟨rfl, rfl⟩ | ⟨rfl, rfl⟩ | ⟨rfl, rfl⟩ | ⟨rfl, rfl⟩ | ⟨rfl, rfl⟩ := hmem
  · exact .inl rfl
  · exact .inr (.inl ⟨by decide, _, rfl⟩)
  · exact .inr (.inl ⟨by decide, _, rfl⟩)
  · exact .inr (.inl ⟨by decide, _, rfl⟩)
  · exact .inr (.inr rfl)

theorem lookup_realKeys : ∀ key ∈ realKeys, ∃ x, standard.lookup key = some (.real x) := by
  rw [realKeys, List.forall_mem_cons, List.forall_mem_cons, List.forall_mem_singleton]
  exact ⟨⟨_, rfl⟩, ⟨_, rfl⟩, _, rfl⟩

theorem validate_eq_ok_iff_accepts : validate key raw = .ok v ↔ Accepts raw key v := by
  rw [validate_eq_ok_iff]
  constructor
  · rintro ⟨default, hdefault, hread, hrange⟩
    obtain h | ⟨hkey, x, rfl⟩ | h := lookup_standard hdefault
    · cases h
      obtain ⟨n, hn, rfl⟩ := Option.map_eq_some_iff.1 hread
      exact .trials hn hrange
    · obtain ⟨y, hy, rfl⟩ := Option.map_eq_some_iff.1 hread
      exact .real hkey hy hrange
    · cases h
      obtain ⟨b, hb, rfl⟩ := Option.map_eq_some_iff.1 hread
      exact .debug (readBool?_eq_some_iff.1 hb)
  · intro h
    cases h with
    | trials h hn => exact ⟨_, rfl, Option.map_eq_some_iff.2 ⟨_, h, rfl⟩, hn⟩
    | real hkey h hx =>
      obtain ⟨y, hy⟩ := lookup_realKeys _ hkey
      exact ⟨_, hy, Option.map_eq_some_iff.2 ⟨_, h, rfl⟩, hx⟩
    | debug h =>
      exact ⟨_, rfl, Option.map_eq_some_iff.2 ⟨_, readBool?_eq_some_iff.2 h, rfl⟩, trivial⟩

/-- A text is accepted for the number of trials as the whole number that it is, if that is one or
more; for a bound or a range as the double that it is, if that is positive or no number; for the
debugging mode as the truth value that it spells; and for no other key. Whatever is refused is a
matter of the configuration. -/
theorem validate_accepts (key raw : String) :
    (∀ v, validate key raw = .ok v ↔ Accepts raw key v) ∧
      ∀ c, validate key raw = .error c → c.kind = .configuration :=
  ⟨fun _ => validate_eq_ok_iff_accepts, fun _ => kind_of_validate⟩

/-- The debugging mode is read from a word with a capital and blanks, and there is no dark mode. -/
theorem validate_accepts_debug :
    validate "debug" " True\n" = .ok (.bool true) ∧
      ∃ c, validate "darkmode" "true" = .error c ∧ c.kind = .configuration := by
  have hspells : Spells " True\n" true :=
    ⟨[' '], ['T', 'r', 'u', 'e'], ['\n'], rfl, List.forall_mem_singleton.2 rfl,
      List.forall_mem_singleton.2 rfl, rfl⟩
  have herror : validate "darkmode" "true" = .error (.unknownSetting "darkmode") := rfl
  exact ⟨((validate_accepts "debug" " True\n").1 _).2 (.debug hspells), _, herror,
    (validate_accepts "darkmode" "true").2 _ herror⟩

/-- What is no number is accepted as a range, though it is not positive. -/
theorem validate_range_not_positive :
    ∃ x, validate "sample_range" "nan" = .ok (.real x) ∧ ¬0.0 < x :=
  ⟨Decimal.nan, rfl, by decide +kernel⟩

end ComplexExpr.Settings
