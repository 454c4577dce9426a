import Mathlib.Data.List.Basic
import Mathlib.Data.List.Nodup
import SnippetAudit.Config.Reading
import SnippetAudit.Proofs.Text.Trim

/-!
# The entries of a configuration

Entries are read one by one, and reading ends at the first that names no setting, or one that has
been named. Only if there is none, each setting is the text of its entry, or what it is by
default, and only then is a blank setting looked for, in the order of the settings.

So of two faults in different places the one that is met while reading wins, whatever the values
are, and which entry of a proper configuration comes first makes no difference.

Specification: `AreProper`, `Settles`, `Entry.Breaks` and `IsFirstBlank`.

Results:
* `HasRead.snoc`, `exists_hasRead`: what one entry adds, and what entries have left behind.
* `areProper_or_exists_breaks`: entries are proper, or one of them is the first that breaks.
* `ofEntries_eq_ok_iff`, `ofEntries_eq_error_iff`: which configuration entries stand for, and which
  fault they have.
* `AreProper.of_perm`, `Settles.of_perm`: the order of the entries does not matter.
* `Entry.Breaks.message_eq`: the message about an entry names it.
-/

namespace SnippetAudit.Config

open Text

/-! ## Specification -/

/-- The entry is for a setting. -/
def Entry.Names (e : Entry) (field : Field) : Prop := e.key = field.name

/-- What an entry says, wherever it stands. -/
def Entry.setting (e : Entry) : String × Option String := (e.key, e.value)

/-- The values of all entries are scalars. -/
def HaveTexts (es : List Entry) : Prop := ∀ e ∈ es, ∃ text, e.value = some text

/-- Every entry is for a setting, and no two for the same. -/
structure AreProper (es : List Entry) : Prop where
  known : ∀ e ∈ es, ∃ field, e.Names field
  distinct : (es.map Entry.key).Nodup

/-- Each setting is the text of its entry; one without an entry is what it is by default. -/
structure Settles (es : List Entry) (c : Config) : Prop where
  given : ∀ e ∈ es, ∀ field, e.Names field → e.value = some (c.get field)
  absent : ∀ field, (∀ e ∈ es, ¬ e.Names field) → c.get field = default.get field

/-- An entry that may not stand behind others, and the fault that it is: its key names no setting, or
    has been there before. The second fault is found in the mapping, which starts at `start`. -/
inductive Entry.Breaks (start : Yaml.Mark) (before : List Entry) (e : Entry) : Fault → Prop
  | unknown : (∀ field, ¬ e.Names field) → e.Breaks start before (.unknownField e.key e.mark)
  | repeated {field : Field} : e.Names field → e.key ∈ before.map Entry.key →
      e.Breaks start before (.repeatedField field start)

/-- A setting of which trimming leaves nothing. -/
def BlankAt (c : Config) (field : Field) : Prop := trim (c.get field).toList = []

/-- The first blank setting: comment sign, marker, suffix. -/
structure IsFirstBlank (c : Config) (field : Field) : Prop where
  blank : c.BlankAt field
  earlier : ∃ before after, Field.all = before ++ field :: after ∧ ∀ f ∈ before, ¬ c.BlankAt f

variable {file : List Char} {start : Yaml.Mark} {c c' : Config} {e : Entry}
  {es es' before after rest : List Entry} {seen : List Field} {field : Field} {fault : Fault}
  {text : String}

/-! ## Deciding -/

theorem Field.mem_all (field : Field) : field ∈ all := by cases field <;> decide

instance (p : Field → Prop) [DecidablePred p] : Decidable (∀ field, p field) :=
  decidable_of_iff (∀ field ∈ Field.all, p field)
    ⟨fun h field => h field field.mem_all, fun h field _ => h field⟩

instance (p : Field → Prop) [DecidablePred p] : Decidable (∃ field, p field) :=
  decidable_of_iff (∃ field ∈ Field.all, p field)
    ⟨fun ⟨field, _, h⟩ => ⟨field, h⟩, fun ⟨field, h⟩ => ⟨field, field.mem_all, h⟩⟩

instance (e : Entry) (field : Field) : Decidable (e.Names field) :=
  inferInstanceAs (Decidable (e.key = field.name))

instance (es : List Entry) : Decidable (AreProper es) :=
  decidable_of_iff ((∀ e ∈ es, ∃ field, e.Names field) ∧ (es.map Entry.key).Nodup)
    ⟨fun ⟨hKnown, hDistinct⟩ => ⟨hKnown, hDistinct⟩, fun h => ⟨h.known, h.distinct⟩⟩

instance (es : List Entry) (c : Config) : Decidable (Settles es c) :=
  decidable_of_iff
    ((∀ e ∈ es, ∀ field, e.Names field → e.value = some (c.get field)) ∧
      ∀ field, (∀ e ∈ es, ¬ e.Names field) → c.get field = default.get field)
    ⟨fun ⟨hGiven, hAbsent⟩ => ⟨hGiven, hAbsent⟩, fun h => ⟨h.given, h.absent⟩⟩

instance (c : Config) (field : Field) : Decidable (c.BlankAt field) :=
  inferInstanceAs (Decidable (trim (c.get field).toList = []))

/-! ## Settings -/

theorem Field.ofName?_eq_some_iff {name : String} : ofName? name = some field ↔ name = field.name := by
  constructor
  · intro h
    exact (eq_of_beq (List.find?_some (p := fun f : Field => f.name == name) h)).symm
  · rintro rfl
    cases field <;> rfl

theorem Entry.Names.unique {f g : Field} (hf : e.Names f) (hg : e.Names g) : f = g :=
  Option.some.inj ((Field.ofName?_eq_some_iff.mpr hf).symm.trans (Field.ofName?_eq_some_iff.mpr hg))

theorem Field.ofName?_eq_none_iff : ofName? e.key = none ↔ ∀ field, ¬ e.Names field := by
  rw [Option.eq_none_iff_forall_ne_some]
  exact forall_congr' fun field => not_congr ofName?_eq_some_iff

theorem get_set_self (c : Config) (field : Field) (text : String) :
    (c.set field text).get field = text := by
  cases field <;> rfl

theorem get_set_of_ne {f : Field} (h : f ≠ field) : (c.set field text).get f = c.get f := by
  cases f <;> cases field <;> first | rfl | exact absurd rfl h

theorem ext_get (h : ∀ field, c.get field = c'.get field) : c = c' := by
  cases c
  cases c'
  rw [Config.mk.injEq]
  exact ⟨h .commentPrefix, h .marker, h .sourceSuffix⟩

theorem blankAt_iff : c.BlankAt field ↔ c.isBlankAt field = true := trim_eq_nil_iff

theorem validate_eq_error_iff : c.validate = .error field ↔ c.IsFirstBlank field := by
  have hFind : c.validate = .error field ↔ Field.all.find? c.isBlankAt = some field := by
    rw [validate, blankField?]
    cases Field.all.find? c.isBlankAt <;> simp
  rw [hFind, List.find?_eq_some_iff_append]
  constructor
  · rintro ⟨hBlank, before, after, hAll, hBefore⟩
    refine ⟨blankAt_iff.mpr hBlank, before, after, hAll, fun f hf => ?_⟩
    rw [blankAt_iff]
    simpa using hBefore f hf
  · rintro ⟨hBlank, before, after, hAll, hBefore⟩
    refine ⟨blankAt_iff.mp hBlank, before, after, hAll, fun f hf => ?_⟩
    simpa [blankAt_iff] using hBefore f hf

/-! ## Proper entries -/

theorem areProper_concat_iff :
    AreProper (before ++ [e]) ↔
      AreProper before ∧ (∃ field, e.Names field) ∧ e.key ∉ before.map Entry.key := by
  constructor
  · rintro ⟨hKnown, hDistinct⟩
    rw [List.map_append, List.map_singleton, List.nodup_append'] at hDistinct
    obtain ⟨hBefore, _, hApart⟩ := hDistinct
    refine ⟨⟨fun x hx => hKnown x (List.mem_append_left _ hx), hBefore⟩,
      hKnown e List.mem_concat_self, fun h => hApart h (List.mem_singleton_self _)⟩
  · rintro ⟨⟨hKnown, hDistinct⟩, hNames, hNew⟩
    refine ⟨?_, ?_⟩
    · intro x hx
      rcases List.mem_append.mp hx with hx | hx
      · exact hKnown x hx
      · rw [List.mem_singleton.mp hx]
        exact hNames
    · rw [List.map_append, List.map_singleton]
      exact hDistinct.append (List.nodup_singleton _) (List.disjoint_singleton.mpr hNew)

/-- Entries are proper, or one of them is the first that breaks. -/
theorem areProper_or_exists_breaks (start : Yaml.Mark) (es : List Entry) :
    AreProper es ∨ ∃ before e after fault, es = before ++ e :: after ∧ AreProper before ∧
      e.Breaks start before fault := by
  induction es using List.reverseRecOn with
  | nil => exact .inl ⟨by simp, List.nodup_nil⟩
  | append_singleton front x ih =>
    rcases ih with hFront | ⟨before, e, after, fault, rfl, hBefore, hBreaks⟩
    · by_cases hKnown : ∃ field, x.Names field
      · by_cases hNew : x.key ∈ front.map Entry.key
        · obtain ⟨field, hField⟩ := hKnown
          exact .inr ⟨front, x, [], _, rfl, hFront, .repeated hField hNew⟩
        · exact .inl (areProper_concat_iff.mpr ⟨hFront, hKnown, hNew⟩)
      · exact .inr ⟨front, x, [], _, rfl, hFront, .unknown (not_exists.mp hKnown)⟩
    · exact .inr ⟨before, e, after ++ [x], fault, by simp, hBefore, hBreaks⟩

/-- Only one configuration is settled by entries. -/
theorem Settles.unique (h : Settles es c) (h' : Settles es c') : c = c' := by
  apply ext_get
  intro field
  by_cases hGiven : ∃ e ∈ es, e.Names field
  · obtain ⟨e, he, hNames⟩ := hGiven
    exact Option.some.inj ((h.given e he field hNames).symm.trans (h'.given e he field hNames))
  · have hAbsent : ∀ e ∈ es, ¬ e.Names field := fun e he hNames => hGiven ⟨e, he, hNames⟩
    rw [h.absent field hAbsent, h'.absent field hAbsent]

/-! ## The order of entries -/

theorem exists_mem_of_perm (h : (es.map Entry.setting).Perm (es'.map Entry.setting)) (he : e ∈ es') :
    ∃ e' ∈ es, e'.key = e.key ∧ e'.value = e.value := by
  have hMem : e.setting ∈ es.map Entry.setting := h.mem_iff.mpr (List.mem_map_of_mem he)
  obtain ⟨e', he', hSame⟩ := List.mem_map.mp hMem
  exact ⟨e', he', congrArg Prod.fst hSame, congrArg Prod.snd hSame⟩

theorem AreProper.of_perm (h : AreProper es)
    (hPerm : (es.map Entry.setting).Perm (es'.map Entry.setting)) : AreProper es' where
  known := by
    intro e he
    obtain ⟨e', he', hKey, _⟩ := exists_mem_of_perm hPerm he
    obtain ⟨field, hNames⟩ := h.known e' he'
    exact ⟨field, hKey.symm.trans hNames⟩
  distinct := by
    have hKeys := hPerm.map Prod.fst
    rw [List.map_map, List.map_map] at hKeys
    exact hKeys.nodup h.distinct

theorem Settles.of_perm (h : Settles es c)
    (hPerm : (es.map Entry.setting).Perm (es'.map Entry.setting)) : Settles es' c where
  given := by
    intro e he field hNames
    obtain ⟨e', he', hKey, hValue⟩ := exists_mem_of_perm hPerm he
    rw [← hValue]
    exact h.given e' he' field (hKey.trans hNames)
  absent := by
    intro field hAbsent
    apply h.absent field
    intro e he hNames
    obtain ⟨e', he', hKey, _⟩ := exists_mem_of_perm hPerm.symm he
    exact hAbsent e' he' (hKey.trans hNames)

/-! ## Reading entries -/

theorem assign_repeated (hNames : e.Names field) (hSeen : field ∈ seen) :
    assign file start c seen (e :: rest) = .error (.repeatedField field start) := by
  rw [assign, Field.ofName?_eq_some_iff.mpr hNames]
  simp only
  rw [if_pos (List.contains_iff_mem.mpr hSeen)]

theorem assign_cons (hNames : e.Names field) (hNew : field ∉ seen) (hText : e.value = some text) :
    assign file start c seen (e :: rest) =
      assign file start (c.set field text) (field :: seen) rest := by
  rw [assign, Field.ofName?_eq_some_iff.mpr hNames]
  simp only
  rw [if_neg (mt List.contains_iff_mem.mp hNew), hText]

/-- What entries have left behind: the configuration so far, and the settings that are given. -/
structure HasRead (before : List Entry) (c : Config) (seen : List Field) : Prop where
  settles : Settles before c
  mem_seen_iff : ∀ field, field ∈ seen ↔ ∃ e ∈ before, e.Names field

theorem hasRead_nil : HasRead [] default [] where
  settles := ⟨by simp, fun _ _ => rfl⟩
  mem_seen_iff := by simp

/-- What one more entry adds. -/
theorem HasRead.snoc (h : HasRead before c seen) (hNames : e.Names field) (hNew : field ∉ seen)
    (hText : e.value = some text) : HasRead (before ++ [e]) (c.set field text) (field :: seen) where
  settles := by
    have hNot : ∀ x ∈ before, ¬ x.Names field := fun x hx hName =>
      hNew ((h.mem_seen_iff field).mpr ⟨x, hx, hName⟩)
    refine ⟨?_, ?_⟩
    · intro x hx f hName
      rcases List.mem_append.mp hx with hx | hx
      · have hNe : f ≠ field := by
          rintro rfl
          exact hNot x hx hName
        rw [get_set_of_ne hNe]
        exact h.settles.given x hx f hName
      · rw [List.mem_singleton.mp hx] at hName ⊢
        rw [hName.unique hNames, get_set_self, hText]
    · intro f hAbsent
      have hNe : f ≠ field := by
        rintro rfl
        exact hAbsent e List.mem_concat_self hNames
      rw [get_set_of_ne hNe]
      exact h.settles.absent f fun x hx => hAbsent x (List.mem_append_left _ hx)
  mem_seen_iff := by
    intro f
    rw [List.mem_cons, h.mem_seen_iff f]
    constructor
    · rintro (rfl | ⟨x, hx, hName⟩)
      · exact ⟨e, List.mem_concat_self, hNames⟩
      · exact ⟨x, List.mem_append_left _ hx, hName⟩
    · rintro ⟨x, hx, hName⟩
      rcases List.mem_append.mp hx with hx | hx
      · exact .inr ⟨x, hx, hName⟩
      · rw [List.mem_singleton.mp hx] at hName
        exact .inl (hName.unique hNames)

theorem HasRead.key_mem_iff (h : HasRead before c seen) (hNames : e.Names field) :
    field ∈ seen ↔ e.key ∈ before.map Entry.key := by
  rw [h.mem_seen_iff, List.mem_map]
  refine exists_congr fun x => and_congr_right fun _ => ?_
  rw [Entry.Names, ← show e.key = field.name from hNames]

/-- Behind proper entries reading goes on with what they have left behind. -/
theorem exists_hasRead (file : List Char) (start : Yaml.Mark) (hTexts : HaveTexts before)
    (h : AreProper before) :
    ∃ c seen, HasRead before c seen ∧
      ∀ rest, assign file start default [] (before ++ rest) = assign file start c seen rest := by
  induction before using List.reverseRecOn with
  | nil => exact ⟨default, [], hasRead_nil, fun _ => rfl⟩
  | append_singleton before e ih =>
    obtain ⟨hBefore, ⟨field, hNames⟩, hKey⟩ := areProper_concat_iff.mp h
    obtain ⟨c, seen, hRead, hAssign⟩ := ih (fun x hx => hTexts x (List.mem_append_left _ hx)) hBefore
    obtain ⟨text, hText⟩ := hTexts e List.mem_concat_self
    have hNew : field ∉ seen := mt (hRead.key_mem_iff hNames).mp hKey
    refine ⟨c.set field text, field :: seen, hRead.snoc hNames hNew hText, fun rest => ?_⟩
    rw [List.append_assoc, List.singleton_append, hAssign, assign_cons hNames hNew hText]

theorem exists_assign_of_areProper (file : List Char) (start : Yaml.Mark) (hTexts : HaveTexts es)
    (h : AreProper es) :
    ∃ c, assign file start default [] es = .ok c ∧ Settles es c := by
  obtain ⟨c, seen, hRead, hAssign⟩ := exists_hasRead file start hTexts h
  refine ⟨c, ?_, hRead.settles⟩
  rw [← List.append_nil es, hAssign, assign_nil]

/-- Reading ends at the first entry that breaks, whatever follows. -/
theorem assign_of_breaks (hTexts : HaveTexts before) (hBefore : AreProper before)
    (h : e.Breaks start before fault) :
    assign file start default [] (before ++ e :: after) = .error fault := by
  obtain ⟨c, seen, hRead, hAssign⟩ := exists_hasRead file start hTexts hBefore
  rw [hAssign]
  cases h with
  | unknown hUnknown => exact assign_unknown (Field.ofName?_eq_none_iff.mpr hUnknown)
  | repeated hNames hKey => exact assign_repeated hNames ((hRead.key_mem_iff hNames).mpr hKey)

/-! ## The configuration -/

theorem ofEntries_of_breaks (hTexts : HaveTexts es) (hEq : es = before ++ e :: after)
    (hBefore : AreProper before) (h : e.Breaks start before fault) :
    ofEntries file start es none = .error fault := by
  subst hEq
  rw [ofEntries, assign_of_breaks (fun x hx => hTexts x (List.mem_append_left _ hx)) hBefore h]
  rfl

theorem ofEntries_of_areProper (file : List Char) (start : Yaml.Mark) (hTexts : HaveTexts es)
    (h : AreProper es) :
    ∃ c, Settles es c ∧ ofEntries file start es none = c.validate.mapError .blank := by
  obtain ⟨c, hAssign, hSettles⟩ := exists_assign_of_areProper file start hTexts h
  refine ⟨c, hSettles, ?_⟩
  rw [ofEntries, hAssign]
  rfl

/-- Entries stand for a configuration iff they are proper and leave no setting blank. -/
theorem ofEntries_eq_ok_iff (hTexts : HaveTexts es) :
    ofEntries file start es none = .ok c ↔
      AreProper es ∧ Settles es c ∧ ∀ field, ¬ c.BlankAt field := by
  have hValid {c' : Config} : c'.validate.mapError Fault.blank = .ok c ↔
      c = c' ∧ ∀ field, ¬ c'.BlankAt field := by
    have hBlanks : (∀ field, ¬ c'.BlankAt field) ↔ ∀ field, c'.isBlankAt field = false := by
      simp only [blankAt_iff, Bool.not_eq_true]
    rw [hBlanks, ← validate_eq_ok_iff]
    cases c'.validate <;> simp [Except.mapError]
  constructor
  · intro hOk
    rcases areProper_or_exists_breaks start es with hProper | ⟨_, _, _, _, hEq, hBefore, hBreaks⟩
    · obtain ⟨c', hSettles, hEq⟩ := ofEntries_of_areProper file start hTexts hProper
      obtain ⟨rfl, hBlanks⟩ := hValid.mp (hEq.symm.trans hOk)
      exact ⟨hProper, hSettles, hBlanks⟩
    · rw [ofEntries_of_breaks hTexts hEq hBefore hBreaks] at hOk
      cases hOk
  · rintro ⟨hProper, hSettles, hBlanks⟩
    obtain ⟨c', hSettles', hEq⟩ := ofEntries_of_areProper file start hTexts hProper
    obtain rfl := hSettles.unique hSettles'
    rw [hEq]
    exact hValid.mpr ⟨rfl, hBlanks⟩

/-- Entries are at fault iff one of them is the first that breaks, or they are proper and leave a
    setting blank. -/
theorem ofEntries_eq_error_iff (hTexts : HaveTexts es) :
    ofEntries file start es none = .error fault ↔
      (∃ before e after, es = before ++ e :: after ∧ AreProper before ∧
        e.Breaks start before fault) ∨
      ∃ c field, AreProper es ∧ Settles es c ∧ c.IsFirstBlank field ∧ fault = .blank field := by
  have hInvalid {c : Config} : c.validate.mapError Fault.blank = .error fault ↔
      ∃ field, c.IsFirstBlank field ∧ fault = .blank field := by
    simp only [← validate_eq_error_iff]
    cases c.validate <;> simp [Except.mapError, eq_comm]
  constructor
  · intro hError
    rcases areProper_or_exists_breaks start es with
      hProper | ⟨before, e, after, fault', hEq, hBefore, hBreaks⟩
    · obtain ⟨c, hSettles, hEq⟩ := ofEntries_of_areProper file start hTexts hProper
      obtain ⟨field, hBlank⟩ := hInvalid.mp (hEq.symm.trans hError)
      exact .inr ⟨c, field, hProper, hSettles, hBlank⟩
    · rw [ofEntries_of_breaks hTexts hEq hBefore hBreaks] at hError
      exact .inl ⟨before, e, after, hEq, hBefore, Except.error.inj hError ▸ hBreaks⟩
  · rintro (⟨before, e, after, hEq, hBefore, hBreaks⟩ | ⟨c, field, hProper, hSettles, hBlank⟩)
    · exact ofEntries_of_breaks hTexts hEq hBefore hBreaks
    · obtain ⟨c', hSettles', hEq⟩ := ofEntries_of_areProper file start hTexts hProper
      obtain rfl := hSettles.unique hSettles'
      rw [hEq]
      exact hInvalid.mpr ⟨field, hBlank⟩

/-! ## Messages -/

theorem message_unknownField [Yaml.Wording] (name : String) (mark : Yaml.Mark) (origin : String) :
    (Fault.unknownField name mark).message origin = "invalid config file '" ++ origin ++ "': " ++
      ("unknown field " ++ quoted name ++ ", expected one of " ++ fieldList ++ placeText mark) := rfl

theorem message_repeatedField [Yaml.Wording] (field : Field) (mark : Yaml.Mark) (origin : String) :
    (Fault.repeatedField field mark).message origin = "invalid config file '" ++ origin ++ "': " ++
      ("duplicate field " ++ quoted field.name ++ placeText mark) := rfl

/-- The message about an entry that breaks is about the text of the file, and it names the key. -/
theorem Entry.Breaks.message_eq [Yaml.Wording] (h : e.Breaks start before fault) (origin : String) :
    ∃ words place, (words = "unknown field " ∨ words = "duplicate field ") ∧
      fault.message origin =
        "invalid config file '" ++ origin ++ "': " ++ (words ++ quoted e.key ++ place) := by
  cases h with
  | unknown _ =>
    refine ⟨_, ", expected one of " ++ fieldList ++ placeText e.mark, .inl rfl, ?_⟩
    rw [message_unknownField]
    simp only [String.append_assoc]
  | @repeated field hNames _ =>
    refine ⟨_, placeText start, .inr rfl, ?_⟩
    rw [message_repeatedField, show e.key = field.name from hNames]

end SnippetAudit.Config
