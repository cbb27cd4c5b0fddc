import ComplexExpr.Command.Execute
import ComplexExpr.Proofs.Settings.Loading

/-!
# One setting changed

A new value for a setting is read from text and checked (`validate`); then all
settings are saved and can be loaded again. Main statement:

* `executeSettings_update`: the command that changes a setting changes the
  value of that one key and of no other, whatever else the file holds; and if
  the value is refused, the file stays as it is.
* `executeSettings_update_nested`: of a malformed file this is not true if more
  lists open in it within each other than may be nested.
-/

namespace ComplexExpr.Settings

open Json (Storable)

variable {key raw : String} {v : Json} {c : Cause}

/-! ## Checked values -/

theorem natAbs_of_readInt? {n : ℤ} (h : Typed.readInt? raw = some n) :
    n.natAbs < 10 ^ Json.digitLimit := by
  unfold Typed.readInt? at h
  obtain ⟨cs, -, h⟩ := Option.bind_eq_some_iff.1 h
  dsimp only at h
  split at h
  next hdigits =>
    cases h
    exact Json.natAbs_lt_of_digits (List.all_eq_true.1 hdigits.2.1) hdigits.2.2 _
  next => cases h

/-- A value that is read for a setting can be written, and is not nothing. -/
theorem storable_of_readLike {default : Json} (h : readLike default raw = some v) :
    Storable v ∧ v ≠ .null := by
  unfold readLike at h
  split at h
  · obtain ⟨b, -, rfl⟩ := Option.map_eq_some_iff.1 h
    exact ⟨.bool b, nofun⟩
  · obtain ⟨n, hn, rfl⟩ := Option.map_eq_some_iff.1 h
    exact ⟨.int (natAbs_of_readInt? hn), nofun⟩
  · obtain ⟨x, -, rfl⟩ := Option.map_eq_some_iff.1 h
    exact ⟨.real x, nofun⟩

theorem eq_of_checked {w : Json} (h : checked key v = .ok w) : w = v := by
  unfold checked at h
  split at h
  · split at h <;> cases h
    rfl
  · split at h <;> cases h
    rfl
  · cases h
    rfl

/-- A value is accepted only for a setting with a default, and it can be written. -/
theorem of_validate (h : validate key raw = .ok v) :
    standard.lookup key ≠ none ∧ Storable v ∧ v ≠ .null := by
  unfold validate at h
  split at h
  next => cases h
  next default hdefault =>
    split at h
    next => cases h
    next w hw =>
      obtain rfl := eq_of_checked h
      refine ⟨?_, storable_of_readLike hw⟩
      rw [hdefault]
      exact Option.some_ne_none default

/-- Whatever is wrong with a value is a matter of the configuration. -/
theorem kind_of_validate (h : validate key raw = .error c) : c.kind = .configuration := by
  unfold validate at h
  split at h
  next => cases h; rfl
  next =>
    split at h
    next => cases h; rfl
    next =>
      unfold checked at h
      split at h
      · split at h <;> cases h
        rfl
      · split at h <;> cases h
        rfl
      · cases h

/-! ## The command -/

open Command (executeSettings)

theorem executeSettings_shown {place : Place} {s : Settings} (h : place.load = .ok s)
    (hkey : key ≠ "all") (hv : s.value key = v) (hnull : v ≠ .null) :
    executeSettings place (some key) none = ⟨[settingLine key v.display], .ok (), place⟩ := by
  have hshown : Command.shownSetting s key = some v.display := by
    unfold Command.shownSetting
    rw [if_neg hkey, hv]
    cases v with
    | null => exact absurd rfl hnull
    | _ => rfl
  unfold executeSettings
  rw [h]
  dsimp only
  rw [hshown]
  rfl

theorem executeSettings_unloaded {place : Place} {d : Defect} (h : place.load = .error d)
    (key value : Option String) :
    executeSettings place key value = ⟨[], .error (.defect d), place⟩ := by
  unfold executeSettings
  rw [h]
  rfl

theorem executeSettings_refused {place : Place} {s : Settings} (h : place.load = .ok s)
    (hc : validate key raw = .error c) :
    executeSettings place (some key) (some raw) = ⟨[], .error (.failure ⟨c, none⟩), place⟩ := by
  unfold executeSettings
  rw [h]
  dsimp only
  rw [Place.change, hc]
  rfl

theorem value_set (s : Settings) (key : String) (v : Json) :
    value (s.set (.ofString key) v) key = v := by
  rw [value, Table.get?_set, if_pos (BEq.refl _)]
  rfl

theorem executeSettings_saved {text : Option String} {s : Settings} (h : ofFile text = .ok s)
    (hv : validate key raw = .ok v) :
    executeSettings (.file text) (some key) (some raw) =
      ⟨[settingLine key v.display], .ok (), .file (some (toFile (s.set (.ofString key) v)))⟩ := by
  unfold executeSettings
  rw [show (Place.file text).load = .ok s from h]
  dsimp only
  rw [Place.change, hv]
  show Effect.printed _ (.ok [settingLine key (value (s.set (.ofString key) v) key).display]) = _
  rw [value_set]
  rfl

/-- Of a file that is missing, malformed, or an object without containers in it, all settings are
loaded. If a value is accepted, the command prints it and saves it: then the key has that value and
is shown with it in the same line, and every other key has the value that it had before. If the
value is refused, that is a matter of the configuration, and the file is what it was. -/
theorem executeSettings_update {text : Option String} (h : Flat text) (key raw : String) :
    ∃ s, (Place.file text).load = .ok s ∧
      (∀ v, validate key raw = .ok v → ∃ text' s',
        executeSettings (.file text) (some key) (some raw) =
          ⟨[settingLine key v.display], .ok (), .file (some text')⟩ ∧
        (Place.file (some text')).load = .ok s' ∧ s'.value key = v ∧
        (∀ k : Key, (k == .ofString key) = false → s'.get? k = s.get? k) ∧
        executeSettings (.file (some text')) (some key) none =
          ⟨[settingLine key v.display], .ok (), .file (some text')⟩) ∧
      (∀ c, validate key raw = .error c → c.kind = .configuration ∧
        executeSettings (.file text) (some key) (some raw) =
          ⟨[], .error (.failure ⟨c, none⟩), .file text⟩) := by
  obtain ⟨s, hload, hsound⟩ := sound_of_flat h
  refine ⟨s, hload, fun v hv => ?_, fun c hc => ⟨kind_of_validate hc, ?_⟩⟩
  · obtain ⟨hknown, hstorable, hnull⟩ := of_validate hv
    obtain ⟨s', hload', hsame⟩ := (hsound.set key hstorable).load_save
    have hall : key ≠ "all" := by
      rintro rfl
      exact hknown rfl
    have hvalue : s'.value key = v := by
      rw [value, hsame]
      exact value_set s key v
    refine ⟨_, s', executeSettings_saved hload hv, hload', hvalue, fun k hk => ?_, ?_⟩
    · rw [hsame, Table.get?_set, hk]
      rfl
    · exact executeSettings_shown hload' hall hvalue hnull
  · exact executeSettings_refused hload hc

/-- A number of trials is saved in a file that holds the default settings and a note besides. -/
theorem executeSettings_update_trials :
    ∃ text text' s s', (Place.file (some text)).load = .ok s ∧
      s.value "note" = .text (.ofString "café") ∧
      executeSettings (.file (some text)) (some "equivalence_trials") (some "4") =
        ⟨["equivalence_trials = 4"], .ok (), .file (some text')⟩ ∧
      (Place.file (some text')).load = .ok s' ∧ s'.value "equivalence_trials" = .int 4 ∧
      s'.value "note" = .text (.ofString "café") := by
  have hsound := sound_defaults.set "note" (.text (WideText.separate_ofString "café"))
  obtain ⟨s, hload, haccepted, -⟩ :=
    executeSettings_update hsound.flat_toFile "equivalence_trials" "4"
  obtain ⟨text', s', hrun, hload', hvalue, hsame, -⟩ := haccepted (.int 4) rfl
  obtain ⟨s₀, hload₀, hsame₀⟩ := hsound.load_save
  obtain rfl : s = s₀ := Except.ok.inj (hload.symm.trans hload₀)
  have hnote : s.value "note" = .text (.ofString "café") := by
    rw [value, hsame₀]
    exact value_set defaults "note" _
  refine ⟨_, text', s, s', hload, hnote, hrun, hload', hvalue, ?_⟩
  rw [value, hsame (.ofString "note") rfl]
  exact hnote

/-- A value is accepted and not saved, since the settings cannot be loaded: in a malformed file a
thousand lists are opened, and none is closed. -/
theorem executeSettings_update_nested :
    let file := Place.file (some (String.ofList (List.replicate 1000 '[')))
    Json.value 1000 (List.replicate 1000 '[') = .error .malformed ∧
      validate "debug" "true" = .ok (.bool true) ∧
      executeSettings file (some "debug") (some "true") = ⟨[], .error (.defect .tooDeep), file⟩ ∧
      file.load = .error .tooDeep := by
  intro file
  have hload : file.load = .error .tooDeep := by
    have hdeep := load_nested (n := 1000) (by decide) []
    rwa [List.append_nil] at hdeep
  exact ⟨Json.value_unclosed (Nat.le_refl 1000), rfl, executeSettings_unloaded hload _ _, hload⟩

end ComplexExpr.Settings
