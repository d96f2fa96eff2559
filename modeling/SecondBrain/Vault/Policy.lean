import SecondBrain.Text
import SecondBrain.Library.Regex

set_option autoImplicit false

/-! The deny patterns, compiled to regular expressions, and the ignore patterns, matched by a
scan. Both read the same small language of globs. -/

namespace SecondBrain

/-- What the policy takes from elsewhere: Unicode NFC, the simple case folding that the regex
engine compares by, and its limit on the size of an expression. -/
structure PathEngine where
  nfc : Text → Text
  fold : Char → Char
  fits : Regex Char → Bool

/-- No character outside ASCII is folded into ASCII. -/
def PathEngine.Plain (engine : PathEngine) (text : Text) : Prop :=
  ∀ c ∈ text, 128 ≤ c.toNat → 128 ≤ (engine.fold c).toNat

/-- What Unicode says of the two maps: the marks of patterns are folded to themselves and by
nothing else, ASCII is folded to lower case, and NFC makes no character that is folded into
ASCII. -/
structure PathEngine.Lawful (engine : PathEngine) : Prop where
  marks : ∀ mark ∈ "*/.-".toList, ∀ c, engine.fold c = mark ↔ c = mark
  ascii : ∀ c : Char, c.toNat < 128 → engine.fold c = c.toLower
  plain : ∀ text, engine.Plain text → engine.Plain (engine.nfc text)

/-- `str::eq_ignore_ascii_case`. -/
def Text.eqIgnoreAsciiCase (s t : Text) : Bool := s.map Char.toLower = t.map Char.toLower

def conflictPattern : Text := "**/*.sync-conflict-*".toList

def conflictMark : Text := ".sync-conflict-".toList

section Deny

variable (engine : PathEngine)

/-- Preserve the glob subset; only the comparison of characters folds the case. -/
def denyPatternSource (pattern : Text) : Regex Char :=
  let escape := Regex.literal engine.fold
  match Text.stripSuffix "/**".toList pattern with
  | some folder => (escape folder).seq ((escape ['/']).seq .anything).opt
  | none =>
    if Text.eqIgnoreAsciiCase pattern conflictPattern then
      let noSlash := Regex.star (.one fun c => engine.fold c ≠ engine.fold '/')
      (Regex.anything.seq (escape ['/'])).opt.seq
        (noSlash.seq ((escape conflictMark).seq noSlash))
    else
      match Text.stripPrefix "**/*".toList pattern with
      | some suffix => Regex.anything.seq (escape suffix)
      | none => .joinAnything ((pattern.splitOn '*').map escape)

/-- The expression is matched against whole paths, between `\A` and `\z`. -/
def compileDenyPattern (pattern : Text) : Option (Regex Char) :=
  let source := denyPatternSource engine (engine.nfc pattern)
  if engine.fits source then some source else none

/-- Shared hard denylist. A pattern that does not compile denies all paths. -/
structure PathPolicy where
  patterns : List Text
  matchers : List (Option (Regex Char))

namespace PathPolicy

def new (patterns : List Text) : PathPolicy := ⟨patterns, patterns.map (compileDenyPattern engine)⟩

def isBlocked (policy : PathPolicy) (path : Text) : Bool :=
  let path := engine.nfc path
  policy.matchers.any fun matcher => matcher.all fun matcher => matcher.isMatch path

/-- Original pattern spelling for diagnostics and policy composition. -/
def snapshot (policy : PathPolicy) : List Text := policy.patterns

end PathPolicy

end Deny

/-- Go past the leftmost occurrence of each of `middles`. -/
def skipMiddles : (middles : List Text) → (remaining : Text) → Option Text
  | [], remaining => some remaining
  | middle :: middles, remaining =>
    match Text.find middle remaining with
    | some at' => skipMiddles middles (remaining.drop (at' + middle.length))
    | none => none

/-- Match a pattern of literals between stars, anchored on both ends. -/
def matchesWildcard (pattern text : Text) : Bool :=
  match pattern.splitOn '*' with
  | [] => false
  | first :: tail =>
    match Text.stripPrefix first text with
    | none => false
    | some remaining =>
      match tail.getLast? with
      | none => remaining.isEmpty
      | some last =>
        match skipMiddles tail.dropLast remaining with
        | none => false
        | some remaining => last.isSuffixOf remaining

/-- The part of a path after its last slash. -/
def basename (path : Text) : Text := ((path.splitOn '/').getLast?).getD path

/-- Whether `path` matches a single pattern from the supported subset. -/
def matchesVaultPathPattern (pattern path : Text) : Bool :=
  match Text.stripSuffix "/**".toList pattern with
  | some folder => path = folder || (folder ++ ['/']).isPrefixOf path
  | none =>
    if pattern = conflictPattern then Text.contains conflictMark (basename path)
    else
      match Text.stripPrefix "**/*".toList pattern with
      | some suffix => suffix.isSuffixOf path
      | none => if '*' ∈ pattern then matchesWildcard pattern path else pattern = path

/-- Whether `path` matches any of `patterns`. -/
def pathMatchesAnyPattern (patterns : List Text) (path : Text) : Bool :=
  patterns.any fun pattern => matchesVaultPathPattern pattern path

/-- The literals with a run of characters before each of them. -/
def Spread (segments : List Text) (text : Text) : Prop :=
  ∃ gaps : List Text, gaps.length = segments.length ∧
    text = (List.zipWith (· ++ ·) gaps segments).flatten

/-- What the documentation says that a pattern matches, by its five rules in their order. -/
def PatternMeans (pattern path : Text) : Prop :=
  if "/**".toList <:+ pattern then
    -- the folder itself or anything beneath it
    ∃ folder, pattern = folder ++ "/**".toList ∧ (path = folder ∨ ∃ rest, path = folder ++ '/' :: rest)
  else if pattern = conflictPattern then
    ∃ dir name, path = dir ++ name ∧ (dir = [] ∨ ∃ parent, dir = parent ++ ['/']) ∧ '/' ∉ name ∧
      conflictMark <:+: name
  else if "**/*".toList <+: pattern then
    ∃ suffix front, pattern = "**/*".toList ++ suffix ∧ path = front ++ suffix
  else if '*' ∈ pattern then
    ∃ first segments text, (∀ segment ∈ first :: segments, '*' ∉ segment) ∧
      pattern = ['*'].intercalate (first :: segments) ∧ path = first ++ text ∧ Spread segments text
  else path = pattern

end SecondBrain
