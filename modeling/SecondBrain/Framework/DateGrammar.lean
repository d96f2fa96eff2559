import SecondBrain.Framework.Dates

set_option autoImplicit false

/-! The grammar of ISO dates, and what its groups stand for. -/

namespace SecondBrain

namespace Dates

/-- `[0-9]{n}`. -/
def Digits (n : Nat) (text : Text) : Prop := text.length = n ∧ text.all Char.isDigit = true

/-- `[0-9]{4}|[+-][0-9]{6}`. -/
def IsYear (year : Text) : Prop :=
  Digits 4 year ∨ ∃ sign digits, year = sign :: digits ∧ isSign sign = true ∧ Digits 6 digits

/-- An optional group, after its mark. -/
def group (mark : Char) : Option Text → Text
  | none => []
  | some text => mark :: text

def IsoTime.text (time : IsoTime) : Text :=
  time.hour ++ ':' :: (time.minute ++ (group ':' time.second ++ (group '.' time.fraction ++ time.offset.getD [])))

structure IsoTime.Matches (time : IsoTime) : Prop where
  hour : Digits 2 time.hour
  minute : Digits 2 time.minute
  second : ∀ second ∈ time.second, Digits 2 second
  fraction : ∀ fraction ∈ time.fraction,
    time.second.isSome = true ∧ fraction ≠ [] ∧ fraction.all Char.isDigit = true
  offset : ∀ offset ∈ time.offset, isOffset offset = true

/-- `ISO_DATE` matches a text with the groups. -/
structure IsoDate.Matches (fields : IsoDate) (raw : Text) : Prop where
  year : IsYear fields.year
  month : ∀ month ∈ fields.month, Digits 2 month
  day : ∀ day ∈ fields.day, fields.month.isSome = true ∧ Digits 2 day
  time : ∀ time ∈ fields.time, time.Matches
  text : ∃ letter, (letter = 'T' ∨ letter = 't') ∧
    raw = fields.year ++ (group '-' fields.month ++ (group '-' fields.day ++ group letter (fields.time.map IsoTime.text)))

theorem takeDigits_append {n : Nat} {taken : Text} (digits : Digits n taken) (rest : Text) :
    takeDigits n (taken ++ rest) = some (taken, rest) := by
  obtain ⟨rfl, all⟩ := digits
  rw [takeDigits, List.take_left, List.drop_left, if_pos ⟨rfl, all⟩]

theorem takeDigits_sound {n : Nat} {text taken rest : Text} (took : takeDigits n text = some (taken, rest)) :
    text = taken ++ rest ∧ Digits n taken := by
  rw [takeDigits] at took
  split at took
  · next digits =>
    cases took
    exact ⟨(List.take_append_drop n text).symm, digits⟩
  · cases took

theorem isDigit_not_sign {c : Char} (digit : c.isDigit = true) : isSign c = false := by
  rw [isSign, Bool.or_eq_false_iff, decide_eq_false_iff_not, decide_eq_false_iff_not]
  constructor
  · rintro rfl
    exact absurd digit (by decide)
  · rintro rfl
    exact absurd digit (by decide)

theorem takeYear_append {year : Text} (shape : IsYear year) (rest : Text) :
    takeYear (year ++ rest) = some (year, rest) := by
  rcases shape with plain | ⟨sign, digits, rfl, signed, six⟩
  · cases year with
    | nil => exact absurd plain.1 (by decide)
    | cons c year =>
      have digit : c.isDigit = true := (List.all_cons ▸ plain.2 : (c.isDigit && _) = true) |> Bool.and_elim_left
      rw [List.cons_append, takeYear, isDigit_not_sign digit]
      exact takeDigits_append plain rest
  · rw [List.cons_append, takeYear, if_pos signed, takeDigits_append six, Option.map_some]

theorem takeYear_sound {text year rest : Text} (took : takeYear text = some (year, rest)) :
    text = year ++ rest ∧ IsYear year := by
  cases text with
  | nil => cases took
  | cons c text =>
    rw [takeYear] at took
    split at took
    · next signed =>
      obtain ⟨⟨digits, rest⟩, six, same⟩ := Option.map_eq_some_iff.mp took
      cases same
      obtain ⟨rfl, digits⟩ := takeDigits_sound six
      exact ⟨rfl, .inr ⟨c, _, rfl, signed, digits⟩⟩
    · obtain ⟨same, digits⟩ := takeDigits_sound took
      exact ⟨same, .inl digits⟩

/-- What follows a group does not go on with it. -/
def Ends (accepts : Char → Bool) (text : Text) : Prop := ∀ c ∈ text.head?, accepts c = false

theorem takeFraction_append {taken rest : Text} (some' : taken ≠ []) (digits : taken.all Char.isDigit = true)
    (ends : Ends Char.isDigit rest) : takeFraction (taken ++ rest) = some (taken, rest) := by
  have stop : rest.takeWhile Char.isDigit = [] ∧ rest.dropWhile Char.isDigit = rest := by
    cases rest with
    | nil => exact ⟨rfl, rfl⟩
    | cons c rest =>
      have other := ends c rfl
      rw [List.takeWhile_cons, List.dropWhile_cons, other]
      exact ⟨rfl, rfl⟩
  have all := List.all_eq_true.mp digits
  rw [takeFraction, List.takeWhile_append_of_pos all, List.dropWhile_append_of_pos all, stop.1, stop.2,
    List.append_nil, if_neg some']

theorem takeFraction_sound {text taken rest : Text} (took : takeFraction text = some (taken, rest)) :
    text = taken ++ rest ∧ taken ≠ [] ∧ taken.all Char.isDigit = true := by
  rw [takeFraction] at took
  split at took
  · cases took
  · next some' =>
    cases took
    exact ⟨List.takeWhile_append_dropWhile.symm, some', List.all_takeWhile⟩

section TakeGroup

variable {mark : Char} {take : Text → Option (Text × Text)}

theorem takeGroup_some {text taken rest : Text} (took : take text = some (taken, rest)) :
    takeGroup mark take (mark :: text) = (some taken, rest) := by
  rw [takeGroup, if_pos rfl, took]

theorem takeGroup_none {text : Text} (ends : Ends (· = mark) text) : takeGroup mark take text = (none, text) := by
  cases text with
  | nil => rfl
  | cons c text =>
    have other : c ≠ mark := of_decide_eq_false (ends c rfl)
    rw [takeGroup, if_neg other]

/-- A group that is there is taken, and one that is not is passed over. -/
theorem takeGroup_append {found : Option Text} {rest : Text}
    (took : ∀ taken ∈ found, take (taken ++ rest) = some (taken, rest)) (ends : Ends (· = mark) rest) :
    takeGroup mark take (group mark found ++ rest) = (found, rest) := by
  cases found with
  | none => exact takeGroup_none ends
  | some taken => exact takeGroup_some (took taken rfl)

theorem takeGroup_sound {accepts : Text → Prop}
    (sound : ∀ {text taken rest}, take text = some (taken, rest) → text = taken ++ rest ∧ accepts taken)
    {text rest : Text} {found : Option Text} (took : takeGroup mark take text = (found, rest)) :
    text = group mark found ++ rest ∧ ∀ taken ∈ found, accepts taken := by
  cases text with
  | nil =>
    cases took
    exact ⟨rfl, nofun⟩
  | cons c text =>
    rw [takeGroup] at took
    split at took
    · next same =>
      subst same
      split at took
      · next taken after here =>
        cases took
        obtain ⟨rfl, accepted⟩ := sound here
        exact ⟨rfl, fun _ inside => by cases inside; exact accepted⟩
      · cases took
        exact ⟨rfl, nofun⟩
    · cases took
      exact ⟨rfl, nofun⟩

end TakeGroup

theorem isSign_iff (c : Char) : isSign c = true ↔ c = '+' ∨ c = '-' := by
  rw [isSign, Bool.or_eq_true, decide_eq_true_iff, decide_eq_true_iff]

/-- An offset begins with a letter or a sign. -/
theorem isOffset_head {offset : Text} (shape : isOffset offset = true) :
    ∃ c rest, offset = c :: rest ∧ (c = 'Z' ∨ c = 'z' ∨ c = '+' ∨ c = '-') := by
  cases offset with
  | nil => cases shape
  | cons c rest =>
    refine ⟨c, rest, rfl, ?_⟩
    unfold isOffset at shape
    split at shape
    · next same =>
      cases same
      rw [Bool.or_eq_true, decide_eq_true_iff, decide_eq_true_iff] at shape
      exact shape.imp_right .inl
    · next same =>
      cases same
      exact .inr (.inr ((isSign_iff _).mp (Bool.and_elim_left shape)))
    · next same =>
      cases same
      exact .inr (.inr ((isSign_iff _).mp (Bool.and_elim_left (Bool.and_elim_left shape))))
    · cases shape

/-- A time ends with its offset, which no group before it can begin with. -/
theorem IsoTime.Matches.ends {time : IsoTime} (shape : time.Matches) {accepts : Char → Bool}
    (refuses : ∀ c, c = 'Z' ∨ c = 'z' ∨ c = '+' ∨ c = '-' → accepts c = false) : Ends accepts (time.offset.getD []) := by
  cases stated : time.offset with
  | none => exact nofun
  | some offset =>
    obtain ⟨c, rest, rfl, first⟩ := isOffset_head (shape.offset offset stated)
    intro d here
    cases here
    exact refuses c first

theorem Ends.group {accepts : Char → Bool} {mark : Char} (refused : accepts mark = false) (found : Option Text)
    {rest : Text} (ends : Ends accepts rest) : Ends accepts (Dates.group mark found ++ rest) := by
  cases found with
  | none => exact ends
  | some taken =>
    intro c here
    cases here
    exact refused

theorem takeTime_text {time : IsoTime} (shape : time.Matches) : takeTime time.text = some time := by
  obtain ⟨hour, minute, second, fraction, offset⟩ := time
  have plain {accepts : Char → Bool} (refuses : ['Z', 'z', '+', '-'].all (fun c => !accepts c) = true) :
      Ends accepts (offset.getD []) := by
    refine shape.ends fun c first => ?_
    have refused := List.all_eq_true.mp refuses c (by simpa using first)
    simpa using refused
  have fractionTaken : takeGroup '.' takeFraction (group '.' fraction ++ offset.getD []) = (fraction, offset.getD []) :=
    takeGroup_append (fun taken here => takeFraction_append (shape.fraction taken here).2.1
      (shape.fraction taken here).2.2 (plain (by decide))) (plain (by decide))
  have secondTaken : takeGroup ':' (takeDigits 2) (group ':' second ++ (group '.' fraction ++ offset.getD [])) =
      (second, group '.' fraction ++ offset.getD []) :=
    takeGroup_append (fun taken here => takeDigits_append (shape.second taken here) _)
      (Ends.group rfl fraction (plain (by decide)))
  simp only [takeTime, IsoTime.text, takeDigits_append shape.hour,
    takeGroup_some (takeDigits_append shape.minute _), secondTaken, Option.bind_eq_bind, Option.bind_some]
  have skipped : (if second.isSome = true then takeGroup '.' takeFraction (group '.' fraction ++ offset.getD [])
      else (none, group '.' fraction ++ offset.getD [])) = (fraction, offset.getD []) := by
    split
    · exact fractionTaken
    · next missing =>
      cases fraction with
      | none => rfl
      | some taken => exact absurd (shape.fraction taken rfl).1 missing
  rw [skipped]
  cases offset with
  | none => rfl
  | some offset =>
    have known := shape.offset offset rfl
    obtain ⟨c, rest, rfl, -⟩ := isOffset_head known
    simp only [Option.getD_some, if_neg (List.cons_ne_nil c rest), if_pos known]

theorem takeTime_sound {raw : Text} {time : IsoTime} (took : takeTime raw = some time) :
    raw = time.text ∧ time.Matches := by
  simp only [takeTime, Option.bind_eq_bind] at took
  obtain ⟨⟨hour, rest⟩, hourTaken, timed⟩ := Option.bind_eq_some_iff.mp took
  obtain ⟨rfl, hourDigits⟩ := takeDigits_sound hourTaken
  clear took
  dsimp only at timed
  split at timed
  · next minute after minuteTaken =>
    obtain ⟨rfl, minuteDigits⟩ := takeGroup_sound takeDigits_sound minuteTaken
    generalize secondTaken : takeGroup ':' (takeDigits 2) after = taken at timed
    obtain ⟨second, later⟩ := taken
    obtain ⟨rfl, secondDigits⟩ := takeGroup_sound takeDigits_sound secondTaken
    dsimp only at timed
    generalize fractionTaken : (if second.isSome = true then takeGroup '.' takeFraction later else (none, later)) =
      taken at timed
    obtain ⟨fraction, last⟩ := taken
    have fractions : later = group '.' fraction ++ last ∧ ∀ taken ∈ fraction,
        second.isSome = true ∧ taken ≠ [] ∧ taken.all Char.isDigit = true := by
      split at fractionTaken
      · next given =>
        obtain ⟨same, digits⟩ := takeGroup_sound takeFraction_sound fractionTaken
        exact ⟨same, fun taken inside => ⟨given, digits taken inside⟩⟩
      · cases fractionTaken
        exact ⟨rfl, nofun⟩
    obtain ⟨rfl, fractions⟩ := fractions
    dsimp only at timed
    split at timed
    · next finished =>
      cases timed
      rw [finished]
      exact ⟨rfl, hourDigits, minuteDigits minute rfl, secondDigits, fractions, nofun⟩
    · split at timed
      · next known =>
        cases timed
        exact ⟨rfl, hourDigits, minuteDigits minute rfl, secondDigits, fractions,
          fun offset here => by cases here; exact known⟩
      · cases timed
  · cases timed

theorem captures_text {fields : IsoDate} {raw : Text} (shape : fields.Matches raw) : captures raw = some fields := by
  obtain ⟨year, month, day, time⟩ := fields
  obtain ⟨yearShape, monthShape, dayShape, timeShape, letter, known, rfl⟩ := shape
  have ends : Ends (· = '-') (group letter (time.map IsoTime.text)) := by
    cases time with
    | none => exact nofun
    | some time =>
      intro c here
      cases here
      rcases known with rfl | rfl <;> rfl
  have dayTaken : takeGroup '-' (takeDigits 2) (group '-' day ++ group letter (time.map IsoTime.text)) =
      (day, group letter (time.map IsoTime.text)) :=
    takeGroup_append (fun taken here => takeDigits_append (dayShape taken here).2 _) ends
  have monthTaken : takeGroup '-' (takeDigits 2) (group '-' month ++ (group '-' day ++
      group letter (time.map IsoTime.text))) = (month, group '-' day ++ group letter (time.map IsoTime.text)) := by
    cases month with
    | some month => exact takeGroup_some (takeDigits_append (monthShape month rfl) _)
    | none =>
      cases day with
      | some day => exact absurd (dayShape day rfl).1 Bool.false_ne_true
      | none => exact takeGroup_none ends
  have skipped : (if month.isSome = true then takeGroup '-' (takeDigits 2) (group '-' day ++
        group letter (time.map IsoTime.text)) else (none, group '-' day ++ group letter (time.map IsoTime.text))) =
      (day, group letter (time.map IsoTime.text)) := by
    split
    · exact dayTaken
    · next missing =>
      cases day with
      | none => rfl
      | some day => exact absurd (dayShape day rfl).1 missing
  simp only [captures, takeYear_append yearShape, Option.bind_eq_bind, Option.bind_some, monthTaken, skipped]
  cases time with
  | none => rfl
  | some time =>
    simp only [Option.map_some, group, if_pos known, takeTime_text (timeShape time rfl)]

theorem captures_sound {fields : IsoDate} {raw : Text} (captured : captures raw = some fields) : fields.Matches raw := by
  simp only [captures, Option.bind_eq_bind] at captured
  obtain ⟨⟨year, rest⟩, yearTaken, dated⟩ := Option.bind_eq_some_iff.mp captured
  obtain ⟨rfl, yearShape⟩ := takeYear_sound yearTaken
  clear captured
  dsimp only at dated
  generalize monthTaken : takeGroup '-' (takeDigits 2) rest = taken at dated
  obtain ⟨month, after⟩ := taken
  obtain ⟨rfl, monthShape⟩ := takeGroup_sound takeDigits_sound monthTaken
  dsimp only at dated
  generalize dayTaken : (if month.isSome = true then takeGroup '-' (takeDigits 2) after else (none, after)) = taken
    at dated
  obtain ⟨day, later⟩ := taken
  have days : after = group '-' day ++ later ∧ ∀ taken ∈ day, month.isSome = true ∧ Digits 2 taken := by
    split at dayTaken
    · next given =>
      obtain ⟨same, digits⟩ := takeGroup_sound takeDigits_sound dayTaken
      exact ⟨same, fun taken inside => ⟨given, digits taken inside⟩⟩
    · cases dayTaken
      exact ⟨rfl, fun taken never => by cases never⟩
  obtain ⟨rfl, dayShape⟩ := days
  dsimp only at dated
  cases later with
  | nil =>
    cases dated
    exact ⟨yearShape, monthShape, dayShape, fun _ never => (by cases never), 'T', .inl rfl, rfl⟩
  | cons letter later =>
    dsimp only at dated
    split at dated
    · next known =>
      obtain ⟨time, timeTaken, rfl⟩ := Option.map_eq_some_iff.mp dated
      obtain ⟨rfl, timeShape⟩ := takeTime_sound timeTaken
      exact ⟨yearShape, monthShape, dayShape, fun _ here => by cases here; exact timeShape, letter, known, rfl⟩
    · cases dated

/-- The groups taken from the left are those of the only match. -/
theorem captures_iff {fields : IsoDate} {raw : Text} : captures raw = some fields ↔ fields.Matches raw :=
  ⟨captures_sound, captures_text⟩

end Dates

end SecondBrain
