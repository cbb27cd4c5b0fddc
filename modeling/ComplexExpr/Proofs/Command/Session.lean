import ComplexExpr.Proofs.Command.Endings
import ComplexExpr.Proofs.Settings.Accepted

/-!
# Sessions

Commands that are carried out one after the other find the settings where the
command before has left them (`placeAfter`). Of all commands only those make a
difference that set a value which is accepted (`Turn.change?`): one such command
saves the settings with that entry set (`Turn.place_of_change`), and any other
leaves the file as it is (`Turn.place_of_none`). So a file without containers
stays one (`Turn.step`), and one that gives no setting a value of a wrong type
stays that too (`Turn.wellTyped_step`). Main statements, both by induction on
the session:

* `load_placeAfter`: after a session each setting has the value that was last
  accepted for it, and the one from before the session if none was;
* `defect_after_iff`: in a session a command ends in a defect iff it misses a
  value that it comes to need, whatever was done before it.
-/

namespace ComplexExpr

open Settings (Place Key Flat WellTyped validate)
open Command (Lacking executeSettings)

/-- A command that is carried out, with what it draws from and the answers to what it asks. -/
structure Turn where
  invocation : Invocation
  source : Twister
  answers : List String

namespace Turn

/-- What is seen of the command. -/
def outcome (t : Turn) (place : Place) : Outcome :=
  ((t.invocation.execute place t.source).answer t.answers).1

/-- The entry that the command sets, if it sets one and the value is accepted. -/
def change? (t : Turn) : Option (Key × Json) :=
  match t.invocation.command with
  | .settings (some key) (some raw) => (validate key raw).toOption.map fun v => (.ofString key, v)
  | _ => none

end Turn

/-- The place of the settings after a session. -/
def placeAfter (session : List Turn) (place : Place) : Place :=
  session.foldl (fun place t => (t.outcome place).place) place

variable {t : Turn} {text : Option String} {s : Settings} {k : Key} {v : Json}

/-! ## One command -/

namespace Turn

theorem change?_eq_some_iff : t.change? = some (k, v) ↔ ∃ key raw,
    t.invocation.command = .settings (some key) (some raw) ∧ validate key raw = .ok v ∧
      k = .ofString key := by
  unfold change?
  split
  next key raw hc =>
    constructor
    · intro h
      obtain ⟨w, hw, he⟩ := Option.map_eq_some_iff.1 h
      cases he
      exact ⟨key, raw, hc, toOption_eq_some_iff.1 hw, rfl⟩
    · rintro ⟨key', raw', hc', hv, rfl⟩
      cases hc.symm.trans hc'
      exact Option.map_eq_some_iff.2 ⟨v, toOption_eq_some_iff.2 hv, rfl⟩
  next hc => exact iff_of_false nofun fun ⟨key, raw, h, _⟩ => hc key raw h

/-- The place after a command that finds the settings, by the effect of the command. -/
theorem exists_place_outcome (h : (Place.file text).load = .ok s) (t : Turn) : ∃ traced,
    (t.outcome (.file text)).place =
      ((t.invocation.command.execute traced (.file text) t.source).answer t.answers).1.place := by
  obtain ⟨traced, htraced⟩ := Invocation.exists_isTraced h t.invocation
  refine ⟨traced, ?_⟩
  rw [outcome, Invocation.answer_execute htraced, Effect.place_outcome]

/-- The settings are saved with the entry that is set. -/
theorem place_of_change (hload : (Place.file text).load = .ok s) (h : t.change? = some (k, v)) :
    (t.outcome (.file text)).place = .file (some (Settings.toFile (s.set k v))) := by
  obtain ⟨key, raw, hc, hv, rfl⟩ := change?_eq_some_iff.1 h
  obtain ⟨traced, hplace⟩ := exists_place_outcome hload t
  rw [hplace, hc]
  exact congrArg Effect.place (Settings.executeSettings_saved hload hv)

/-- Unless an entry is set, the file stays as it is. -/
theorem place_of_none (hload : (Place.file text).load = .ok s) (h : t.change? = none) :
    (t.outcome (.file text)).place = .file text := by
  obtain ⟨traced, hplace⟩ := exists_place_outcome hload t
  rw [hplace]
  obtain hsame | ⟨key, raw, hc, hok⟩ :=
    Command.place_execute traced t.source t.invocation.command t.answers
  · exact hsame
  · -- a value that is refused is a failure, and one that is accepted is an entry
    cases hv : validate key raw with
    | error c =>
      rw [hc] at hok
      replace hok : (executeSettings (.file text) (some key) (some raw)).result = .ok () := hok
      rw [Settings.executeSettings_refused hload hv] at hok
      cases hok
    | ok v =>
      rw [change?_eq_some_iff.2 ⟨key, raw, hc, hv, rfl⟩] at h
      cases h

/-- A command keeps a file without containers, and each key has the value that the command sets for
it, or else the value that it had. -/
theorem step (h : Flat text) (t : Turn) : ∃ s text' s', (Place.file text).load = .ok s ∧
    (t.outcome (.file text)).place = .file text' ∧ Flat text' ∧ (Place.file text').load = .ok s' ∧
    ∀ k, s'.get? k = (t.change?.toList.lookup k).or (s.get? k) := by
  obtain ⟨s, hload, hsound⟩ := Settings.sound_of_flat h
  cases he : t.change? with
  | none => exact ⟨s, text, s, hload, place_of_none hload he, h, hload, fun k => rfl⟩
  | some e =>
    obtain ⟨k, v⟩ := e
    obtain ⟨key, raw, -, hv, rfl⟩ := change?_eq_some_iff.1 he
    have hset := hsound.set key (Settings.of_validate hv).2.1
    obtain ⟨s', hload', hsame⟩ := hset.load_save
    refine ⟨s, _, s', hload, place_of_change hload he, hset.flat_toFile, hload', fun k => ?_⟩
    rw [hsame, Table.get?_set, Option.toList_some, List.lookup_cons]
    cases k == .ofString key <;> rfl

/-- A command keeps a file that gives no setting a value of a wrong type. -/
theorem wellTyped_step (h : Flat text) (htypes : WellTyped text) (t : Turn) : ∃ text',
    (t.outcome (.file text)).place = .file text' ∧ Flat text' ∧ WellTyped text' := by
  obtain ⟨s, hload, hsound⟩ := Settings.sound_of_flat h
  cases he : t.change? with
  | none => exact ⟨text, place_of_none hload he, h, htypes⟩
  | some e =>
    obtain ⟨k, v⟩ := e
    obtain ⟨key, raw, -, hv, rfl⟩ := change?_eq_some_iff.1 he
    obtain ⟨s₁, hload₁, htyped⟩ := htypes.load
    obtain rfl : s = s₁ := Except.ok.inj (hload.symm.trans hload₁)
    have hset := hsound.set key (Settings.of_validate hv).2.1
    exact ⟨_, place_of_change hload he, hset.flat_toFile, hset.wellTyped_toFile (htyped.set hv)⟩

end Turn

/-! ## Sessions -/

/-- After a session each key has the value that was last accepted for it, and if none was, the value
that it had before. The file is one without containers again. -/
theorem load_placeAfter (h : Flat text) (session : List Turn) : ∃ s text' s',
    (Place.file text).load = .ok s ∧ placeAfter session (.file text) = .file text' ∧ Flat text' ∧
    (Place.file text').load = .ok s' ∧
    ∀ k, s'.get? k = ((session.filterMap Turn.change?).reverse.lookup k).or (s.get? k) := by
  induction session generalizing text with
  | nil =>
    obtain ⟨s, hload, -⟩ := Settings.sound_of_flat h
    exact ⟨s, text, s, hload, rfl, h, hload, fun k => rfl⟩
  | cons t session ih =>
    obtain ⟨s, text₁, s₁, hload, hplace, hflat, hload₁, hstep⟩ := t.step h
    obtain ⟨_, text', s', hload₁', hplace', hflat', hload', hrun⟩ := ih hflat
    obtain rfl := Except.ok.inj (hload₁.symm.trans hload₁')
    refine ⟨s, text', s', hload, ?_, hflat', hload', fun k => ?_⟩
    · rw [placeAfter, List.foldl_cons, hplace]
      exact hplace'
    · rw [hrun, hstep, ← Option.or_assoc, ← List.lookup_append]
      congr 2
      cases he : t.change? with
      | none => rw [List.filterMap_cons_none he, Option.toList_none, List.append_nil]
      | some e => rw [List.filterMap_cons_some he, List.reverse_cons, Option.toList_some]

theorem wellTyped_placeAfter (h : Flat text) (htypes : WellTyped text) (session : List Turn) :
    ∃ text', placeAfter session (.file text) = .file text' ∧ Flat text' ∧ WellTyped text' := by
  induction session generalizing text with
  | nil => exact ⟨text, rfl, h, htypes⟩
  | cons t session ih =>
    obtain ⟨text₁, hplace, hflat, htypes₁⟩ := t.wellTyped_step h htypes
    rw [placeAfter, List.foldl_cons, hplace]
    exact ih hflat htypes₁

/-- After a session that began with such a file, whose values have the types of the defaults, a
command ends in a defect iff it misses a value that it comes to need. -/
theorem defect_after_iff (h : Flat text) (htypes : WellTyped text) (session : List Turn) (t : Turn) :
    (∃ d, (t.outcome (placeAfter session (.file text))).ending = .defect d) ↔
      Lacking t.invocation.command := by
  obtain ⟨text', hplace, -, htypes'⟩ := wellTyped_placeAfter h htypes session
  rw [hplace]
  exact Invocation.defect_execute_iff htypes' t.source t.answers

end ComplexExpr
