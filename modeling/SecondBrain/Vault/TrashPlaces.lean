import SecondBrain.Vault.PathExactness
import SecondBrain.Vault.Writer

set_option autoImplicit false

/-! The places in the trash that a note is moved to, and when their paths are too long. -/

namespace SecondBrain

open FileSystem (Name special)

/-- The configured trash path, or what is wrong about it. -/
def RawDeletes.validate (trashPath : Option Text) : Except Text Text :=
  let path := trashPath.getD ".trash/mcp".toList
  if path = [] then .error "deletes.trash_path must be a non-empty string".toList
  else
    match normalizeVaultPath path with
    | .error error => .error error.message
    | .ok trashPath =>
      if trashPath = [] then .error "deletes.trash_path must not resolve to the vault root".toList
      else .ok trashPath

theorem RawDeletes.validate_ok {raw : Option Text} {path : Text} (ran : RawDeletes.validate raw = .ok path) :
    Normalized path ∧ path ≠ [] := by
  unfold RawDeletes.validate at ran
  dsimp only at ran
  split at ran
  · cases ran
  · split at ran
    · cases ran
    · rename_i normalized
      split at ran
      · cases ran
      · rename_i named
        cases ran
        exact ⟨normalizeVaultPath_ok normalized, named⟩

/-- An id in the form of a UUID. -/
structure IsUniqueId (id : Text) : Prop where
  length : id.length = 36
  letters : ∀ c ∈ id, c = '-' ∨ Text.isAsciiAlphanumeric c = true

theorem IsUniqueId.ascii {id : Text} (unique : IsUniqueId id) {c : Char} (inside : c ∈ id) :
    c.utf8Size = 1 ∧ c ≠ '/' ∧ c ≠ '\\' := by
  have small : c.toNat < 128 ∧ c ≠ '/' ∧ c ≠ '\\' := by
    rcases unique.letters c inside with rfl | letter
    · decide
    · refine ⟨?_, ?_, ?_⟩
      · simp only [Text.isAsciiAlphanumeric, Text.isAsciiAlphabetic, Bool.or_eq_true, Bool.and_eq_true,
          decide_eq_true_eq, Char.le_def, UInt32.le_iff_toNat_le] at letter
        have bounds : 'z'.val.toNat = 122 ∧ 'Z'.val.toNat = 90 ∧ '9'.val.toNat = 57 := by decide
        have same : c.toNat = c.val.toNat := rfl
        omega
      · rintro rfl
        exact absurd letter (by decide)
      · rintro rfl
        exact absurd letter (by decide)
  refine ⟨?_, small.2⟩
  rw [Char.utf8Size_eq_one_iff]
  rw [UInt32.le_iff_toNat_le]
  have same : c.toNat = c.val.toNat := rfl
  have bound : (127 : UInt32).toNat = 127 := by decide
  omega

theorem IsUniqueId.byteLength {id : Text} (unique : IsUniqueId id) : Text.byteLength id = 36 := by
  rw [Text.byteLength, List.map_congr_left (g := fun _ => 1) fun c inside => (unique.ascii inside).1, ← unique.length]
  simp

/-- The name of a note with an id put between its stem and its extension. -/
def stampedName (name : Name) (id : Text) : Name :=
  (stemAndExtension name).1 ++ ['.'] ++ id ++ (stemAndExtension name).2.elim [] (['.'] ++ ·)

theorem rfind_dot {name : Text} {index : Nat} (found : Text.rfind ['.'] name = some index) :
    name = name.take index ++ ['.'] ++ name.drop (index + 1) := by
  induction name generalizing index with
  | nil => cases found
  | cons c rest ih =>
    rw [Text.rfind] at found
    cases later : Text.rfind ['.'] rest with
    | some at' =>
      rw [later] at found
      cases found
      simpa using ih later
    | none =>
      rw [later] at found
      dsimp only at found
      split at found
      · rename_i leads
        cases found
        obtain rfl : '.' = c := by simpa using leads
        rfl
      · cases found

/-- The stem and the extension make the name. -/
theorem stemAndExtension_joined (name : Name) :
    name = (stemAndExtension name).1 ++ (stemAndExtension name).2.elim [] (['.'] ++ ·) := by
  unfold stemAndExtension
  cases found : Text.rfind ['.'] name with
  | none => exact (List.append_nil name).symm
  | some index =>
    dsimp only
    split
    · exact (List.append_nil name).symm
    · rw [Option.elim_some, ← List.append_assoc]
      exact rfind_dot found

theorem byteLength_stampedName (name : Name) {id : Text} (unique : IsUniqueId id) :
    Text.byteLength (stampedName name id) = Text.byteLength name + 37 := by
  have whole := congrArg Text.byteLength (stemAndExtension_joined name)
  have dot : Text.byteLength ['.'] = 1 := by decide
  rw [byteLength_append] at whole
  rw [stampedName, byteLength_append, byteLength_append, byteLength_append, unique.byteLength, dot]
  omega

theorem mem_stampedName {name : Name} {id : Text} {c : Char} (inside : c ∈ stampedName name id) :
    c ∈ name ∨ c = '.' ∨ c ∈ id := by
  rw [stampedName, List.mem_append, List.mem_append, List.mem_append, List.mem_singleton] at inside
  have whole := stemAndExtension_joined name
  rcases inside with ((stem | dot) | unique) | extension
  · exact .inl (by rw [whole]; exact List.mem_append_left _ stem)
  · exact .inr (.inl dot)
  · exact .inr (.inr unique)
  · exact .inl (by rw [whole]; exact List.mem_append_right _ extension)

theorem significant_stampedName (name : Name) {id : Text} (unique : IsUniqueId id) :
    Significant (stampedName name id) := by
  have long : 36 < (stampedName name id).length := by
    have length := unique.length
    simp only [stampedName, List.length_append, List.length_singleton]
    omega
  constructor
  · intro empty
    rw [empty] at long
    simp at long
  · rw [special, Bool.or_eq_false_iff, decide_eq_false_iff_not, decide_eq_false_iff_not]
    constructor <;> intro same <;> rw [same] at long <;> simp at long

theorem intercalate_append {front back : List Text} (some' : front ≠ []) (more : back ≠ []) :
    ['/'].intercalate (front ++ back) = ['/'].intercalate front ++ ['/'] ++ ['/'].intercalate back := by
  induction front with
  | nil => exact absurd rfl some'
  | cons first rest ih =>
    cases rest with
    | nil => rw [List.singleton_append, List.intercalate_cons_of_ne_nil more, List.intercalate_singleton]
    | cons next rest =>
      rw [List.cons_append, List.intercalate_cons_of_ne_nil (by simp), ih (by simp),
        List.intercalate_cons_cons]
      simp only [List.append_assoc]

theorem collectSegments_filter {pieces : List Text} (plain : ∀ piece ∈ pieces, piece = [] ∨ Significant piece) :
    collectSegments pieces = .ok (pieces.filter (· ≠ [])) := by
  induction pieces with
  | nil => rfl
  | cons piece rest ih =>
    have further := ih fun other inside => plain other (List.mem_cons_of_mem _ inside)
    rw [collectSegments, further]
    rcases plain piece List.mem_cons_self with rfl | ⟨nonempty, proper⟩
    · simp
    · simp only [special, Bool.or_eq_false_iff, decide_eq_false_iff_not] at proper
      rw [if_neg (by simp [nonempty, proper.1]), if_neg proper.2, List.filter_cons_of_pos (by simpa using nonempty)]
      rfl

/-- Joined segments are taken as they are, without those that are empty, if they are not too long. -/
theorem normalizeVaultPath_pieces {first : Text} {pieces : List Text}
    (clean : ∀ piece ∈ first :: pieces, '/' ∉ piece ∧ '\\' ∉ piece) (leads : first ≠ [])
    (driveless : isDrive first = false) (plain : ∀ piece ∈ first :: pieces, piece = [] ∨ Significant piece) :
    normalizeVaultPath (['/'].intercalate (first :: pieces)) =
      if Text.byteLength (['/'].intercalate (first :: pieces)) > maxVaultPathLen then .error .tooLong
      else .ok (['/'].intercalate ((first :: pieces).filter (· ≠ []))) := by
  have unified : Text.replaceChar '\\' '/' (['/'].intercalate (first :: pieces)) =
      ['/'].intercalate (first :: pieces) := by
    refine replaceChar_of_not_mem fun inside => ?_
    rcases mem_intercalate_chars inside with same | ⟨piece, member, inside⟩
    · cases same
    · exact (clean piece member).2 inside
  have relative : (['/'].intercalate (first :: pieces)).head? ≠ some '/' := by
    obtain ⟨c, tail, rfl⟩ := List.exists_cons_of_ne_nil leads
    have apart : c ≠ '/' := by
      rintro rfl
      exact (clean _ List.mem_cons_self).1 List.mem_cons_self
    cases pieces with
    | nil => simpa using apart
    | cons next rest => simpa [List.intercalate_cons_cons] using apart
  have collected := collectSegments_filter plain
  unfold normalizeVaultPath
  split
  · rfl
  · dsimp only
    rw [unified, if_neg relative, List.splitOn_intercalate _ (fun piece inside => (clean piece inside).1) (by simp),
      collected]
    have head : ((first :: pieces).filter (· ≠ [])).head? = some first := by
      rw [List.filter_cons_of_pos (by simpa using leads)]
      rfl
    simp only [bind, Except.bind, head, Option.any_some, driveless, Bool.false_eq_true, if_false]

/-- The segments of a parent in a path that is put together. Without a parent one is empty. -/
def parentPieces (above : List Name) : List Text := if above = [] then [[]] else above

theorem parentPieces_ne_nil (above : List Name) : parentPieces above ≠ [] := by
  unfold parentPieces
  split
  · simp
  · assumption

theorem intercalate_parentPieces (above : List Name) :
    ['/'].intercalate (parentPieces above) = ['/'].intercalate above := by
  unfold parentPieces
  split
  · rename_i alone
    rw [alone]
    rfl
  · rfl

theorem mem_parentPieces {above : List Name} {piece : Text} (inside : piece ∈ parentPieces above) :
    piece = [] ∨ piece ∈ above := by
  unfold parentPieces at inside
  split at inside
  · exact .inl (List.mem_singleton.mp inside)
  · exact .inr inside

theorem filter_parentPieces {above : List Name} (nonempty : ∀ piece ∈ above, piece ≠ []) :
    (parentPieces above).filter (· ≠ []) = above := by
  unfold parentPieces
  split
  · rename_i alone
    rw [alone]
    rfl
  · exact List.filter_eq_self.mpr fun piece inside => by simpa using nonempty piece inside

namespace VaultWriter

variable (writer : VaultWriter) (path : Text)

/-- The components of the first place to try, and of the place under an id. -/
def firstPlace : List Name := components writer.options.trashPath ++ components path

def stampedPlace (id : Text) : List Name :=
  components writer.options.trashPath ++ ((components path).dropLast ++
    [stampedName ((components path).getLast?.getD "note".toList) id])

variable {writer path}
  (trash : Normalized writer.options.trashPath) (trashNamed : writer.options.trashPath ≠ [])
  (normal : Normalized path) (named : path ≠ [])
include trash trashNamed normal named

theorem trashTarget_eq : writer.trashTarget path =
    if Text.byteLength writer.options.trashPath + 1 + Text.byteLength path > maxVaultPathLen then .error .tooLong
    else .ok (['/'].intercalate (writer.firstPlace path)) := by
  obtain ⟨first, rest, split⟩ := List.exists_cons_of_ne_nil (trash.components_ne_nil trashNamed)
  have pieces : writer.firstPlace path = first :: (rest ++ components path) := by rw [firstPlace, split]; rfl
  have joined : writer.options.trashPath ++ ['/'] ++ path = ['/'].intercalate (first :: (rest ++ components path)) := by
    rw [← List.cons_append, ← split, intercalate_append (by simp [split]) (normal.components_ne_nil named),
      ← trash.joined, ← normal.joined]
  have member {piece : Name} (inside : piece ∈ first :: (rest ++ components path)) :
      piece ∈ components writer.options.trashPath ∨ piece ∈ components path := by
    rwa [← List.cons_append, ← split, List.mem_append] at inside
  have significant : ∀ piece ∈ first :: (rest ++ components path), Significant piece := fun piece inside =>
    (member inside).elim (trash.significant piece) (normal.significant piece)
  have kept : (first :: (rest ++ components path)).filter (· ≠ []) = first :: (rest ++ components path) :=
    List.filter_eq_self.mpr fun piece inside => by simpa using (significant piece inside).1
  have length : Text.byteLength (['/'].intercalate (first :: (rest ++ components path))) =
      Text.byteLength writer.options.trashPath + 1 + Text.byteLength path := by
    rw [← joined, byteLength_append, byteLength_append]
    rfl
  have drive := trash.noDrive
  rw [split] at drive
  rw [trashTarget, joined, normalizeVaultPath_pieces, kept, length, pieces]
  · intro piece inside
    exact (member inside).elim (fun inside => ⟨trash.clean piece inside, trash.unslashed piece inside⟩)
      fun inside => ⟨normal.clean piece inside, normal.unslashed piece inside⟩
  · exact (significant first List.mem_cons_self).1
  · simpa using drive
  · exact fun piece inside => .inr (significant piece inside)

/-- How long a path under an id is: a note without a parent costs a second slash. -/
def stampedLength (writer : VaultWriter) (path : Text) : Nat :=
  Text.byteLength writer.options.trashPath + Text.byteLength path + if (components path).dropLast = [] then 39 else 38

theorem trashFallback_eq {id : Text} (unique : IsUniqueId id) : writer.trashFallback path id =
    if writer.stampedLength path > maxVaultPathLen then .error .tooLong
    else .ok (['/'].intercalate (writer.stampedPlace path id)) := by
  obtain ⟨first, rest, split⟩ := List.exists_cons_of_ne_nil (trash.components_ne_nil trashNamed)
  obtain ⟨above, last, whole⟩ : ∃ above last, components path = above ++ [last] := by
    rcases List.eq_nil_or_concat (components path) with empty | ⟨above, last, whole⟩
    · exact absurd empty (normal.components_ne_nil named)
    · exact ⟨above, last, by rw [whole, List.concat_eq_append]⟩
  have joined : writer.options.trashPath ++ ['/'] ++ ['/'].intercalate above ++ ['/'] ++ stampedName last id =
      ['/'].intercalate (first :: (rest ++ (parentPieces above ++ [stampedName last id]))) := by
    rw [← List.cons_append, ← split, intercalate_append (by simp [split]) (by simp), ← trash.joined,
      intercalate_append (parentPieces_ne_nil above) (by simp), intercalate_parentPieces,
      List.intercalate_singleton]
    simp only [List.append_assoc]
  have member {piece : Text} (inside : piece ∈ first :: (rest ++ (parentPieces above ++ [stampedName last id]))) :
      piece ∈ components writer.options.trashPath ∨ (piece = [] ∨ piece ∈ components path) ∨
        piece = stampedName last id := by
    rw [← List.cons_append, ← split, List.mem_append, List.mem_append, List.mem_singleton] at inside
    refine inside.imp_right (Or.imp_left fun inside => (mem_parentPieces inside).imp_right fun inside => ?_)
    rw [whole]
    exact List.mem_append_left _ inside
  have kept : (first :: (rest ++ (parentPieces above ++ [stampedName last id]))).filter (· ≠ []) = writer.stampedPlace path id := by
    have trashKept : (components writer.options.trashPath).filter (· ≠ []) = components writer.options.trashPath :=
      List.filter_eq_self.mpr fun piece inside => by simpa using (trash.significant piece inside).1
    have parentKept := filter_parentPieces fun piece inside =>
      (normal.significant piece (by rw [whole]; exact List.mem_append_left _ inside)).1
    have lastKept : [stampedName last id].filter (· ≠ []) = [stampedName last id] :=
      List.filter_eq_self.mpr fun piece inside => by
        rw [List.mem_singleton.mp inside]
        simpa using (significant_stampedName last unique).1
    rw [← List.cons_append, ← split, List.filter_append, List.filter_append, trashKept, parentKept, lastKept,
      stampedPlace, whole, List.dropLast_concat, List.getLast?_concat, Option.getD_some]
  have length : Text.byteLength (['/'].intercalate (first :: (rest ++ (parentPieces above ++ [stampedName last id])))) =
      writer.stampedLength path := by
    have slash : Text.byteLength ['/'] = 1 := by decide
    have parts := congrArg Text.byteLength normal.joined
    rw [whole] at parts
    rw [← joined, byteLength_append, byteLength_append, byteLength_append, byteLength_append, slash,
      byteLength_stampedName last unique, stampedLength, whole, List.dropLast_concat]
    by_cases alone : above = []
    · subst alone
      rw [List.nil_append, List.intercalate_singleton] at parts
      rw [if_pos rfl, parts]
      have none' : Text.byteLength (['/'].intercalate ([] : List Text)) = 0 := rfl
      omega
    · rw [intercalate_append alone (by simp), byteLength_append, byteLength_append, slash,
        List.intercalate_singleton] at parts
      rw [if_neg alone, parts]
      omega
  have drive := trash.noDrive
  rw [split] at drive
  have same : writer.trashFallback path id =
      normalizeVaultPath (['/'].intercalate (first :: (rest ++ (parentPieces above ++ [stampedName last id])))) := by
    rw [← joined, trashFallback, whole, List.dropLast_concat, List.getLast?_concat, Option.getD_some, stampedName]
    obtain ⟨stem, extension⟩ := stemAndExtension last
    cases extension with
    | none => simp only [Option.elim_none, List.append_assoc]
    | some extension => simp only [Option.elim_some, List.append_assoc]
  rw [same, normalizeVaultPath_pieces, kept, length]
  · intro piece inside
    rcases member inside with inside | (rfl | inside) | rfl
    · exact ⟨trash.clean piece inside, trash.unslashed piece inside⟩
    · simp
    · exact ⟨normal.clean piece inside, normal.unslashed piece inside⟩
    · have inLast : last ∈ components path := by rw [whole]; simp
      refine ⟨fun inside => ?_, fun inside => ?_⟩
      · rcases mem_stampedName inside with old | dot | new
        · exact normal.clean last inLast old
        · cases dot
        · exact (unique.ascii new).2.1 rfl
      · rcases mem_stampedName inside with old | dot | new
        · exact normal.unslashed last inLast old
        · cases dot
        · exact (unique.ascii new).2.2 rfl
  · exact (trash.significant first (by rw [split]; exact List.mem_cons_self)).1
  · simpa using drive
  · intro piece inside
    rcases member inside with inside | (rfl | inside) | rfl
    · exact .inr (trash.significant piece inside)
    · exact .inl rfl
    · exact .inr (normal.significant piece inside)
    · exact .inr (significant_stampedName last unique)

omit trashNamed named in
theorem components_firstPlace :
    components (['/'].intercalate (writer.firstPlace path)) = writer.firstPlace path := by
  refine components_intercalate (fun piece inside => ?_) fun piece inside => ?_
  · exact (List.mem_append.mp inside).elim (trash.clean piece) (normal.clean piece)
  · exact (List.mem_append.mp inside).elim (trash.significant piece) (normal.significant piece)

omit trashNamed in
theorem components_stampedPlace {id : Text} (unique : IsUniqueId id) :
    components (['/'].intercalate (writer.stampedPlace path id)) = writer.stampedPlace path id := by
  obtain ⟨above, last, whole⟩ : ∃ above last, components path = above ++ [last] := by
    rcases List.eq_nil_or_concat (components path) with empty | ⟨above, last, whole⟩
    · exact absurd empty (normal.components_ne_nil named)
    · exact ⟨above, last, by rw [whole, List.concat_eq_append]⟩
  have member {piece : Name} (inside : piece ∈ writer.stampedPlace path id) :
      piece ∈ components writer.options.trashPath ∨ piece ∈ components path ∨ piece = stampedName last id := by
    rw [stampedPlace, whole, List.dropLast_concat, List.getLast?_concat, List.mem_append, List.mem_append,
      List.mem_singleton] at inside
    exact inside.imp_right (Or.imp_left fun inside => by rw [whole]; exact List.mem_append_left _ inside)
  refine components_intercalate (fun piece inside slash => ?_) fun piece inside => ?_
  · rcases member inside with inside | inside | rfl
    · exact trash.clean piece inside slash
    · exact normal.clean piece inside slash
    · rcases mem_stampedName slash with old | dot | new
      · exact normal.clean last (by rw [whole]; simp) old
      · cases dot
      · exact (unique.ascii new).2.1 rfl
  · rcases member inside with inside | inside | rfl
    · exact trash.significant piece inside
    · exact normal.significant piece inside
    · exact significant_stampedName last unique

end VaultWriter

end SecondBrain
