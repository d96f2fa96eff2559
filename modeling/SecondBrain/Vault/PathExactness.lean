import SecondBrain.Vault.PathLaws

set_option autoImplicit false

/-! Which paths normalization takes, and what it makes of them. -/

namespace SecondBrain

open FileSystem (FsPath Name special)

/-- A slash or a backslash. -/
def isSeparator (c : Char) : Bool := c = '/' || c = '\\'

/-- The pieces between slashes and backslashes. The empty path has none. -/
def segments (path : Text) : List Text := if path = [] then [] else path.splitOnP isSeparator

/-- The segments that are neither empty nor `.`. -/
def significantSegments (path : Text) : List Text :=
  (segments path).filter fun segment => segment ≠ [] && segment ≠ ['.']

/-- A relative path that does not climb and that names no drive. -/
structure Acceptable (path : Text) : Prop where
  short : Text.byteLength path ≤ 1024
  relative : ∀ c, path.head? = some c → isSeparator c = false
  descends : ['.', '.'] ∉ segments path
  driveless : ∀ first, (significantSegments path).head? = some first →
    ¬ ∃ letter rest, first = letter :: ':' :: rest ∧ Text.isAsciiAlphabetic letter = true

/-- Where a path leads that is resolved component by component. -/
def climb (start : FsPath) (names : List Name) : FsPath :=
  names.foldl (fun place name => if name = [] ∨ name = ['.'] then place
    else if name = ['.', '.'] then place.dropLast else place ++ [name]) start

theorem splitOnP_isSeparator (path : Text) :
    path.splitOnP isSeparator = (Text.replaceChar '\\' '/' path).splitOn '/' := by
  induction path with
  | nil => rfl
  | cons c path ih =>
    have unified : Text.replaceChar '\\' '/' (c :: path) =
        (if c = '\\' then '/' else c) :: Text.replaceChar '\\' '/' path := rfl
    rw [unified, List.splitOn_cons_eq_if_modifyHead, List.splitOnP_cons_eq_if_modifyHead, ih, isSeparator]
    by_cases back : c = '\\'
    · simp [back]
    · by_cases slash : c = '/'
      · simp [slash]
      · simp [back, slash]

theorem collectSegments_eq (pieces : List Text) : collectSegments pieces =
    if ['.', '.'] ∈ pieces then .error .traversal
    else .ok (pieces.filter fun segment => segment ≠ [] && segment ≠ ['.']) := by
  induction pieces with
  | nil => rfl
  | cons segment rest ih =>
    rw [collectSegments, ih]
    by_cases skipped : segment = [] ∨ segment = ['.']
    · have other : segment ≠ ['.', '.'] := by rcases skipped with rfl | rfl <;> decide
      have dropped : (segment ≠ [] && segment ≠ ['.']) = false := by
        rcases skipped with rfl | rfl <;> decide
      rw [if_pos skipped, List.filter_cons_of_neg (by rw [dropped]; exact Bool.false_ne_true)]
      simp only [List.mem_cons, other.symm, false_or]
    · rw [if_neg skipped]
      rw [not_or] at skipped
      by_cases up : segment = ['.', '.']
      · rw [if_pos up, if_pos (by simp [up])]
      · rw [if_neg up, List.filter_cons_of_pos (by simp [skipped])]
        by_cases later : ['.', '.'] ∈ rest
        · rw [if_pos later, if_pos (List.mem_cons_of_mem _ later)]
          rfl
        · rw [if_neg later, if_neg (by simp [later, Ne.symm up])]
          rfl

/-- The loop goes over the segments. -/
theorem collectSegments_unified (path : Text) :
    collectSegments ((Text.replaceChar '\\' '/' path).splitOn '/') =
      if ['.', '.'] ∈ segments path then .error .traversal else .ok (significantSegments path) := by
  rw [collectSegments_eq, ← splitOnP_isSeparator, significantSegments, segments]
  by_cases empty : path = []
  · subst empty
    rfl
  · rw [if_neg empty]

theorem head_unified (path : Text) : (Text.replaceChar '\\' '/' path).head? = some '/' ↔
    ∃ c, path.head? = some c ∧ isSeparator c = true := by
  cases path with
  | nil => simp [Text.replaceChar]
  | cons c path =>
    have leading : (Text.replaceChar '\\' '/' (c :: path)).head? = some (if c = '\\' then '/' else c) := rfl
    rw [leading, Option.some.injEq, List.head?_cons]
    by_cases back : c = '\\'
    · simp [back, isSeparator]
    · simp [back, isSeparator]

theorem isDrive_iff {segment : Text} : isDrive segment = true ↔
    ∃ letter rest, segment = letter :: ':' :: rest ∧ Text.isAsciiAlphabetic letter = true := by
  constructor
  · intro drive
    unfold isDrive at drive
    split at drive
    · rename_i letter rest
      exact ⟨letter, rest, rfl, drive⟩
    · cases drive
  · rintro ⟨letter, rest, rfl, letters⟩
    exact letters

theorem normalizeVaultPath_eq_ok {path output : Text} : normalizeVaultPath path = .ok output ↔
    Acceptable path ∧ output = ['/'].intercalate (significantSegments path) := by
  have drives : (significantSegments path).head?.any isDrive = true ↔ ∃ first,
      (significantSegments path).head? = some first ∧
        ∃ letter rest, first = letter :: ':' :: rest ∧ Text.isAsciiAlphabetic letter = true := by
    cases (significantSegments path).head? with
    | none => simp
    | some first => simp [isDrive_iff]
  unfold normalizeVaultPath
  dsimp only
  rw [collectSegments_unified]
  constructor
  · intro ran
    split at ran
    · cases ran
    rename_i short
    split at ran
    · cases ran
    rename_i relative
    rw [head_unified] at relative
    split at ran
    · cases ran
    rename_i descends
    simp only [bind, Except.bind] at ran
    split at ran
    · cases ran
    rename_i driveless
    rw [drives] at driveless
    refine ⟨⟨Nat.not_lt.mp short, fun c leading => ?_, descends, fun first leading drive => ?_⟩,
      (Except.ok.inj ran).symm⟩
    · rw [← Bool.not_eq_true]
      exact fun separates => relative ⟨c, leading, separates⟩
    · exact driveless ⟨first, leading, drive⟩
  · rintro ⟨acceptable, rfl⟩
    have relative : ¬ (Text.replaceChar '\\' '/' path).head? = some '/' := by
      rw [head_unified]
      rintro ⟨c, leading, separates⟩
      rw [acceptable.relative c leading] at separates
      cases separates
    have driveless : ¬ (significantSegments path).head?.any isDrive = true := by
      rw [drives]
      rintro ⟨first, leading, drive⟩
      exact acceptable.driveless first leading drive
    have short : ¬ Text.byteLength path > maxVaultPathLen := Nat.not_lt.mpr acceptable.short
    rw [if_neg short, if_neg relative, if_neg acceptable.descends]
    simp only [bind, Except.bind, if_neg driveless]

theorem Normalized.segments {path : Text} (normal : Normalized path) : segments path = components path := by
  rw [SecondBrain.segments, components, splitOnP_isSeparator, replaceChar_of_not_mem normal.unified]

/-- Segments that normalization keeps are appended one by one. -/
theorem climb_significant (start : FsPath) {names : List Name} (plain : ∀ name ∈ names, Significant name) :
    climb start names = start ++ names := by
  induction names generalizing start with
  | nil => exact (List.append_nil start).symm
  | cons name names ih =>
    obtain ⟨nonempty, proper⟩ := plain name List.mem_cons_self
    simp only [special, Bool.or_eq_false_iff, decide_eq_false_iff_not] at proper
    have one : climb start (name :: names) = climb (start ++ [name]) names := by
      simp only [climb, List.foldl_cons, nonempty, proper.1, proper.2, or_self, if_false]
    rw [one, ih _ fun other inside => plain other (List.mem_cons_of_mem _ inside), List.append_assoc,
      List.singleton_append]

/-- What normalization gives: the significant segments, in a path that is its own normal form and
that stays below any root. -/
structure NormalForm (path output : Text) : Prop where
  joined : output = ['/'].intercalate (significantSegments path)
  unified : '\\' ∉ output
  plain : ∀ segment ∈ segments output, segment ≠ [] ∧ segment ≠ ['.'] ∧ segment ≠ ['.', '.']
  again : normalizeVaultPath output = .ok output
  canonical : ∀ other normal, normalizeVaultPath other = .ok normal →
    (output = normal ↔ significantSegments path = significantSegments other)
  resolves : ∀ root, resolveVaultPath root path = .ok (climb root (segments output))
  confined : ∀ root count, root <+: climb root ((segments output).take count)

/-- Normalization takes just the relative paths that do not climb, and the result is exact. -/
theorem normalization_exact (path : Text) : ((∃ output, normalizeVaultPath path = .ok output) ↔ Acceptable path) ∧
    ∀ output, normalizeVaultPath path = .ok output → NormalForm path output := by
  refine ⟨⟨fun ⟨output, ran⟩ => (normalizeVaultPath_eq_ok.mp ran).1,
    fun acceptable => ⟨_, normalizeVaultPath_eq_ok.mpr ⟨acceptable, rfl⟩⟩⟩, fun output ran => ?_⟩
  have normal := normalizeVaultPath_ok ran
  have significant := normal.significant
  rw [← normal.segments] at significant
  -- the segments of the output are the significant ones of the input
  have kept {path output : Text} (ran : normalizeVaultPath path = .ok output) :
      components output = significantSegments path := by
    have joined := (normalizeVaultPath_eq_ok.mp ran).2
    have pieces := splitOn_pieces '/' (Text.replaceChar '\\' '/' path)
    have collected := collectSegments_unified path
    rw [if_neg (normalizeVaultPath_eq_ok.mp ran).1.descends] at collected
    obtain ⟨sublist, significant⟩ := collectSegments_ok collected
    rw [joined]
    exact components_intercalate (fun segment inside => (pieces segment (sublist.subset inside)).1) significant
  refine ⟨(normalizeVaultPath_eq_ok.mp ran).2, normal.unified, fun segment inside => ?_, normal.again, ?_, ?_, ?_⟩
  · obtain ⟨nonempty, proper⟩ := significant segment inside
    simp only [special, Bool.or_eq_false_iff, decide_eq_false_iff_not] at proper
    exact ⟨nonempty, proper.1, proper.2⟩
  · intro other normal' ran'
    rw [← kept ran, ← kept ran']
    refine ⟨fun same => by rw [same], fun same => ?_⟩
    rw [normal.joined, (normalizeVaultPath_ok ran').joined, same]
  · intro root
    rw [climb_significant root significant, normal.segments, resolveVaultPath, ran]
    rfl
  · intro root count
    rw [climb_significant root fun segment inside => significant segment (List.take_subset count _ inside)]
    exact List.prefix_append _ _

end SecondBrain
