import SecondBrain.Vault.Path

set_option autoImplicit false

namespace SecondBrain

open FileSystem (Name special)

theorem splitOn_pieces (separator : Char) (text : Text) :
    ∀ piece ∈ text.splitOn separator, separator ∉ piece ∧ ∀ c ∈ piece, c ∈ text := by
  induction text with
  | nil => simp
  | cons c text ih =>
    rw [List.splitOn_cons_eq_if_modifyHead]
    intro piece member
    split at member
    · rcases List.mem_cons.mp member with rfl | later
      · simp
      · obtain ⟨clean, inside⟩ := ih piece later
        exact ⟨clean, fun d found => List.mem_cons_of_mem _ (inside d found)⟩
    · rename_i other
      cases pieces : text.splitOn separator with
      | nil => exact absurd pieces (List.splitOn_ne_nil _ _)
      | cons first rest =>
        rw [pieces] at ih member
        rcases List.mem_cons.mp member with rfl | later
        · obtain ⟨clean, inside⟩ := ih first List.mem_cons_self
          refine ⟨?_, fun d found => ?_⟩
          · rw [List.mem_cons, not_or]
            exact ⟨fun same => other (beq_iff_eq.mpr same.symm), clean⟩
          · rcases List.mem_cons.mp found with rfl | deeper
            · exact List.mem_cons_self
            · exact List.mem_cons_of_mem _ (inside d deeper)
        · obtain ⟨clean, inside⟩ := ih piece (List.mem_cons_of_mem _ later)
          exact ⟨clean, fun d found => List.mem_cons_of_mem _ (inside d found)⟩

/-- A segment that normalization keeps. -/
def Significant (segment : Text) : Prop := segment ≠ [] ∧ special segment = false

theorem collectSegments_ok {segments kept : List Text} (ran : collectSegments segments = .ok kept) :
    kept.Sublist segments ∧ ∀ segment ∈ kept, Significant segment := by
  induction segments generalizing kept with
  | nil => cases ran; exact ⟨.refl _, by simp⟩
  | cons segment rest ih =>
    rw [collectSegments] at ran
    split at ran
    · obtain ⟨sublist, significant⟩ := ih ran
      exact ⟨sublist.cons _, significant⟩
    · rename_i visible
      split at ran
      · cases ran
      · rename_i down
        cases tail : collectSegments rest with
        | error error => simp [tail, Except.map] at ran
        | ok after =>
          rw [tail, Except.map] at ran
          cases ran
          obtain ⟨sublist, significant⟩ := ih tail
          refine ⟨sublist.cons_cons _, fun other member => ?_⟩
          rcases List.mem_cons.mp member with rfl | later
          · rw [not_or] at visible
            exact ⟨visible.1, by simp [special, visible.2, down]⟩
          · exact significant other later

theorem collectSegments_significant {segments : List Text}
    (significant : ∀ segment ∈ segments, Significant segment) :
    collectSegments segments = .ok segments := by
  induction segments with
  | nil => rfl
  | cons segment rest ih =>
    obtain ⟨nonempty, plain⟩ := significant segment List.mem_cons_self
    simp only [special, Bool.or_eq_false_iff, decide_eq_false_iff_not] at plain
    rw [collectSegments, if_neg (by simp [nonempty, plain.1]), if_neg plain.2,
      ih fun other member => significant other (List.mem_cons_of_mem _ member)]
    rfl

/-- The bytes of the segments, each with one separator. -/
def segmentBytes (segments : List Text) : Nat := (segments.map fun segment => Text.byteLength segment + 1).sum

theorem byteLength_append (left right : Text) :
    Text.byteLength (left ++ right) = Text.byteLength left + Text.byteLength right := by
  simp [Text.byteLength]

theorem byteLength_intercalate {segments : List Text} (nonempty : segments ≠ []) :
    Text.byteLength (['/'].intercalate segments) + 1 = segmentBytes segments := by
  induction segments with
  | nil => exact absurd rfl nonempty
  | cons segment rest ih =>
    cases rest with
    | nil => simp [segmentBytes]
    | cons next rest =>
      have tail := ih (by simp)
      rw [List.intercalate_cons_cons, byteLength_append, byteLength_append]
      have one : Text.byteLength ['/'] = 1 := by decide
      simp only [segmentBytes, List.map_cons, List.sum_cons] at tail ⊢
      omega

theorem segmentBytes_sublist {few many : List Text} (sublist : few.Sublist many) :
    segmentBytes few ≤ segmentBytes many := by
  induction sublist with
  | slnil => exact Nat.le_refl _
  | cons segment _ ih =>
    simp only [segmentBytes, List.map_cons, List.sum_cons] at ih ⊢
    omega
  | cons_cons segment _ ih =>
    simp only [segmentBytes, List.map_cons, List.sum_cons] at ih ⊢
    omega

theorem byteLength_replaceChar (text : Text) :
    Text.byteLength (Text.replaceChar '\\' '/' text) = Text.byteLength text := by
  induction text with
  | nil => rfl
  | cons c text ih =>
    have width : ('/' : Char).utf8Size = ('\\' : Char).utf8Size := by decide
    simp only [Text.byteLength, Text.replaceChar, List.map_cons, List.sum_cons] at ih ⊢
    rw [ih]
    split
    · rename_i backslash
      rw [backslash, width]
    · rfl

/-- A path as `normalize_vault_path` returns it. -/
structure Normalized (path : Text) : Prop where
  short : Text.byteLength path ≤ maxVaultPathLen
  unified : '\\' ∉ path
  joined : path = ['/'].intercalate (components path)
  significant : ∀ segment ∈ components path, Significant segment
  clean : ∀ segment ∈ components path, '/' ∉ segment
  noDrive : (components path).head?.any isDrive = false

theorem components_intercalate {segments : List Text} (clean : ∀ segment ∈ segments, '/' ∉ segment)
    (significant : ∀ segment ∈ segments, Significant segment) :
    components (['/'].intercalate segments) = segments := by
  cases segments with
  | nil => rfl
  | cons segment rest =>
    have nonempty : ['/'].intercalate (segment :: rest) ≠ [] := by
      have first := (significant segment List.mem_cons_self).1
      cases rest with
      | nil => simpa using first
      | cons next rest => rw [List.intercalate_cons_cons]; simp [first]
    rw [components, if_neg nonempty, List.splitOn_intercalate _ clean (by simp)]

theorem mem_intercalate_chars {segments : List Text} {c : Char}
    (member : c ∈ ['/'].intercalate segments) : c = '/' ∨ ∃ segment ∈ segments, c ∈ segment := by
  induction segments with
  | nil => simp at member
  | cons segment rest ih =>
    cases rest with
    | nil => exact .inr ⟨segment, List.mem_cons_self, by simpa using member⟩
    | cons next rest =>
      rw [List.intercalate_cons_cons, List.mem_append, List.mem_append] at member
      rcases member with (inside | slash) | later
      · exact .inr ⟨segment, List.mem_cons_self, inside⟩
      · exact .inl (List.mem_singleton.mp slash)
      · rcases ih later with same | ⟨other, inside, found⟩
        · exact .inl same
        · exact .inr ⟨other, List.mem_cons_of_mem _ inside, found⟩

theorem normalizeVaultPath_ok {input path : Text} (ran : normalizeVaultPath input = .ok path) :
    Normalized path := by
  unfold normalizeVaultPath at ran
  split at ran
  · cases ran
  rename_i short
  dsimp only at ran
  split at ran
  · cases ran
  cases collected : collectSegments ((Text.replaceChar '\\' '/' input).splitOn '/') with
  | error error => simp [collected, bind, Except.bind] at ran
  | ok kept =>
    simp only [collected, bind, Except.bind] at ran
    split at ran
    · cases ran
    rename_i driveless
    cases ran
    obtain ⟨sublist, significant⟩ := collectSegments_ok collected
    have pieces := splitOn_pieces '/' (Text.replaceChar '\\' '/' input)
    have clean : ∀ segment ∈ kept, '/' ∉ segment :=
      fun segment member => (pieces segment (sublist.subset member)).1
    have same := components_intercalate clean significant
    refine ⟨?_, ?_, by rw [same], by rwa [same], by rwa [same], by rw [same]; simpa using driveless⟩
    · cases kept with
      | nil => decide
      | cons first rest =>
        have whole := segmentBytes_sublist sublist
        have inner : Text.byteLength (['/'].intercalate (first :: rest)) + 1 = segmentBytes (first :: rest) :=
          byteLength_intercalate (by simp)
        have outer := byteLength_intercalate (List.splitOn_ne_nil '/' (Text.replaceChar '\\' '/' input))
        rw [List.intercalate_splitOn, byteLength_replaceChar] at outer
        omega
    · intro inside
      rcases mem_intercalate_chars inside with slash | ⟨segment, member, inside⟩
      · cases slash
      · have source := (pieces segment (sublist.subset member)).2 _ inside
        rw [Text.replaceChar, List.mem_map] at source
        obtain ⟨c, -, replaced⟩ := source
        split at replaced
        · cases replaced
        · rename_i other
          exact other replaced

theorem replaceChar_of_not_mem {text : Text} (absent : '\\' ∉ text) :
    Text.replaceChar '\\' '/' text = text := by
  rw [Text.replaceChar]
  refine (List.map_congr_left fun c inside => ?_).trans (List.map_id _)
  rw [if_neg]
  · rfl
  · rintro rfl
    exact absent inside

/-- Normalizing again changes nothing. -/
theorem Normalized.again {path : Text} (normal : Normalized path) : normalizeVaultPath path = .ok path := by
  have unified : Text.replaceChar '\\' '/' path = path := replaceChar_of_not_mem normal.unified
  unfold normalizeVaultPath
  rw [if_neg (Nat.not_lt.mpr normal.short), unified]
  by_cases empty : path = []
  · subst empty
    rfl
  · have split : path.splitOn '/' = components path := by rw [components, if_neg empty]
    have relative : path.head? ≠ some '/' := by
      intro slash
      have first := normal.significant
      have clean := normal.clean
      have joined := normal.joined
      cases parts : components path with
      | nil => rw [parts] at joined; exact empty (by simpa using joined)
      | cons segment rest =>
        rw [parts] at first clean joined
        obtain ⟨nonempty, _⟩ := first segment List.mem_cons_self
        obtain ⟨c, tail, rfl⟩ := List.exists_cons_of_ne_nil nonempty
        have leading : path.head? = some c := by
          rw [joined]
          cases rest with
          | nil => simp
          | cons next rest => rw [List.intercalate_cons_cons]; simp
        rw [leading, Option.some.injEq] at slash
        exact clean _ List.mem_cons_self (by rw [slash]; exact List.mem_cons_self)
    dsimp only
    rw [if_neg relative, split, collectSegments_significant normal.significant]
    simp only [bind, Except.bind, normal.noDrive, Bool.false_eq_true, if_false, Except.ok.injEq]
    exact normal.joined.symm

theorem Normalized.resolve {path : Text} (normal : Normalized path) (vaultRoot : FileSystem.FsPath) :
    resolveVaultPath vaultRoot path = .ok (vaultRoot ++ components path) := by
  rw [resolveVaultPath, normal.again]
  rfl

/-- Normalization leaves a text of components as it is, if it takes it at all. -/
theorem normalize_relativeText {names : List Name} {path : Text}
    (significant : ∀ name ∈ names, Significant name) (clean : ∀ name ∈ names, '/' ∉ name ∧ '\\' ∉ name)
    (ran : normalizeVaultPath (relativeText names) = .ok path) : path = relativeText names := by
  have slashed : '\\' ∉ ['/'].intercalate names := by
    intro inside
    rcases mem_intercalate_chars inside with same | ⟨name, member, inside⟩
    · cases same
    · exact (clean name member).2 inside
  have joined : relativeText names = ['/'].intercalate names := replaceChar_of_not_mem slashed
  unfold normalizeVaultPath at ran
  rw [joined, replaceChar_of_not_mem slashed] at ran
  rw [joined]
  split at ran
  · cases ran
  dsimp only at ran
  split at ran
  · cases ran
  have collected : collectSegments ((['/'].intercalate names).splitOn '/') = .ok names := by
    cases names with
    | nil => rfl
    | cons name rest =>
      rw [List.splitOn_intercalate _ (fun name inside => (clean name inside).1) (by simp)]
      exact collectSegments_significant significant
  rw [collected] at ran
  simp only [bind, Except.bind] at ran
  split at ran
  · cases ran
  · exact (Except.ok.inj ran).symm

theorem Normalized.unslashed {path : Text} (normal : Normalized path) :
    ∀ segment ∈ components path, '\\' ∉ segment := by
  intro segment member inside
  unfold components at member
  split at member
  · cases member
  · exact normal.unified ((splitOn_pieces '/' path segment member).2 _ inside)

theorem Normalized.components_ne_nil {path : Text} (normal : Normalized path) (nonempty : path ≠ []) :
    components path ≠ [] := by
  intro none'
  apply nonempty
  rw [normal.joined, none']
  rfl

end SecondBrain
