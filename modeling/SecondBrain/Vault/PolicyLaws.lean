import Mathlib.Data.Bool.AllAny
import SecondBrain.Library.Lists
import SecondBrain.Library.Search
import SecondBrain.Vault.PathLaws
import SecondBrain.Vault.Policy

set_option autoImplicit false

/-! Both matchers against the documented meaning of a pattern. -/

namespace SecondBrain

section Wildcards

theorem spread_nil {text : Text} : Spread [] text ↔ text = [] := by
  constructor
  · rintro ⟨gaps, length, rfl⟩
    simp
  · rintro rfl
    exact ⟨[], rfl, rfl⟩

theorem spread_cons {segment : Text} {segments : List Text} {text : Text} :
    Spread (segment :: segments) text ↔
      ∃ gap rest, text = gap ++ (segment ++ rest) ∧ Spread segments rest := by
  constructor
  · rintro ⟨gaps, length, rfl⟩
    cases gaps with
    | nil => cases length
    | cons gap gaps =>
      refine ⟨gap, _, ?_, gaps, by simpa using length, rfl⟩
      simp
  · rintro ⟨gap, rest, rfl, gaps, length, rfl⟩
    exact ⟨gap :: gaps, by simpa using length, by simp⟩

/-- The first gap can take more. -/
theorem Spread.grow {segment : Text} {segments : List Text} {text : Text}
    (spread : Spread (segment :: segments) text) (more : Text) :
    Spread (segment :: segments) (more ++ text) := by
  obtain ⟨gap, rest, rfl, further⟩ := spread_cons.mp spread
  exact spread_cons.mpr ⟨more ++ gap, rest, by simp, further⟩

theorem intercalate_spread (separator first : Text) (segments : List Text) :
    ∃ text, separator.intercalate (first :: segments) = first ++ text ∧ Spread segments text := by
  induction segments generalizing first with
  | nil => exact ⟨[], by simp, spread_nil.mpr rfl⟩
  | cons second segments ih =>
    obtain ⟨text, same, spread⟩ := ih second
    refine ⟨separator ++ (second ++ text), ?_, spread_cons.mpr ⟨separator, text, rfl, spread⟩⟩
    rw [List.intercalate_cons_cons, same, List.append_assoc]

/-- The greedy scan misses no match and invents none: if the literals can be placed at all,
they can be placed with the first one leftmost, since its gap can be given to the next. -/
theorem skipMiddles_spread (middles : List Text) (last remaining : Text) :
    (∃ rest, skipMiddles middles remaining = some rest ∧ last <:+ rest) ↔
      Spread (middles ++ [last]) remaining := by
  induction middles generalizing remaining with
  | nil =>
    rw [List.nil_append, spread_cons]
    constructor
    · rintro ⟨_, ⟨⟩, gap, rfl⟩
      exact ⟨gap, [], by simp, spread_nil.mpr rfl⟩
    · rintro ⟨gap, rest, rfl, none'⟩
      obtain rfl := spread_nil.mp none'
      exact ⟨_, rfl, gap, by simp⟩
  | cons middle middles ih =>
    rw [List.cons_append, spread_cons]
    constructor
    · rintro ⟨rest, ran, ends⟩
      cases found : Text.find middle remaining with
      | none =>
        rw [skipMiddles, found] at ran
        cases ran
      | some at' =>
        rw [skipMiddles, found] at ran
        obtain ⟨before, after, rfl, length⟩ := Text.find_split found
        have past : (before ++ (middle ++ after)).drop (at' + middle.length) = after := by
          rw [← length, ← List.length_append, ← List.append_assoc, List.drop_left]
        dsimp only at ran
        rw [past] at ran
        exact ⟨before, after, rfl, (ih after).mp ⟨rest, ran, ends⟩⟩
    · rintro ⟨gap, rest, rfl, spread⟩
      obtain ⟨at', found, bound⟩ := Text.find_le middle gap rest
      have late : at' + middle.length ≤ (gap ++ middle).length := by
        rw [List.length_append]
        omega
      have past : (gap ++ (middle ++ rest)).drop (at' + middle.length) =
          (gap ++ middle).drop (at' + middle.length) ++ rest := by
        rw [← List.append_assoc, List.drop_append_of_le_length late]
      obtain ⟨next, tail, split⟩ : ∃ next tail, middles ++ [last] = next :: tail :=
        List.exists_cons_of_ne_nil (by simp)
      rw [skipMiddles, found]
      dsimp only
      refine (ih _).mpr ?_
      rw [past, split]
      exact Spread.grow (split ▸ spread) _

end Wildcards

/-- A pattern is its literals with stars between them. -/
theorem splitOn_star (pattern : Text) : ∃ first segments, pattern.splitOn '*' = first :: segments ∧
    (∀ segment ∈ first :: segments, '*' ∉ segment) ∧
    pattern = ['*'].intercalate (first :: segments) := by
  obtain ⟨first, segments, split⟩ := List.exists_cons_of_ne_nil (List.splitOn_ne_nil '*' pattern)
  refine ⟨first, segments, split, ?_, ?_⟩
  · rw [← split]
    exact fun segment inside => (splitOn_pieces '*' pattern segment inside).1
  · rw [← split, List.intercalate_splitOn]

theorem splitOn_intercalate_star {first : Text} {segments : List Text}
    (clean : ∀ segment ∈ first :: segments, '*' ∉ segment) :
    (['*'].intercalate (first :: segments)).splitOn '*' = first :: segments :=
  List.splitOn_intercalate '*' clean (List.cons_ne_nil _ _)

theorem matchesWildcard_iff {first : Text} {segments : List Text} {path : Text}
    (clean : ∀ segment ∈ first :: segments, '*' ∉ segment) :
    matchesWildcard (['*'].intercalate (first :: segments)) path = true ↔
      ∃ text, path = first ++ text ∧ Spread segments text := by
  unfold matchesWildcard
  rw [splitOn_intercalate_star clean]
  dsimp only
  cases leads : Text.stripPrefix first path with
  | none =>
    refine iff_of_false Bool.false_ne_true ?_
    rintro ⟨text, rfl, -⟩
    rw [Text.stripPrefix_append] at leads
    cases leads
  | some remaining =>
    obtain rfl := Text.stripPrefix_eq_some.mp leads
    have only {P : Text → Prop} : (∃ text, first ++ remaining = first ++ text ∧ P text) ↔ P remaining := by
      simp
    rw [only]
    rcases List.eq_nil_or_concat segments with rfl | ⟨middles, last, rfl⟩
    · exact List.isEmpty_iff.trans spread_nil.symm
    · rw [List.concat_eq_append, ← skipMiddles_spread]
      simp only [List.getLast?_append, List.getLast?_singleton, Option.some_or, List.dropLast_concat]
      cases skipMiddles middles remaining with
      | none => simp
      | some rest => simp

/-- What the last two rules say of a pattern that is given by its literals. -/
theorem literals_mean {first : Text} {segments : List Text} {path : Text}
    (clean : ∀ segment ∈ first :: segments, '*' ∉ segment) :
    (if '*' ∈ ['*'].intercalate (first :: segments) then
        ∃ other others text, (∀ segment ∈ other :: others, '*' ∉ segment) ∧
          ['*'].intercalate (first :: segments) = ['*'].intercalate (other :: others) ∧
          path = other ++ text ∧ Spread others text
      else path = ['*'].intercalate (first :: segments)) ↔
      ∃ text, path = first ++ text ∧ Spread segments text := by
  split
  · constructor
    · rintro ⟨other, others, text, clean', same, rfl, spread⟩
      have split := congrArg (List.splitOn '*') same
      rw [splitOn_intercalate_star clean, splitOn_intercalate_star clean'] at split
      injection split with head tail
      subst head tail
      exact ⟨text, rfl, spread⟩
    · rintro ⟨text, rfl, spread⟩
      exact ⟨first, segments, text, clean, rfl, rfl, spread⟩
  · rename_i none'
    have split := List.splitOn_eq_singleton none'
    rw [splitOn_intercalate_star clean] at split
    injection split with head tail
    subst tail
    rw [← head]
    simp [spread_nil]

/-- The basename is what follows the last slash. -/
theorem basename_iff {path name : Text} : (∃ dir, path = dir ++ name ∧
    (dir = [] ∨ ∃ parent, dir = parent ++ ['/']) ∧ '/' ∉ name) ↔ name = basename path := by
  have last {name : Text} (single : '/' ∉ name) (parent : Text) :
      basename (parent ++ '/' :: name) = name ∧ basename name = name := by
    unfold basename
    rw [List.splitOn_append_cons_self, List.splitOn_eq_singleton single]
    simp
  constructor
  · rintro ⟨_, rfl, rfl | ⟨parent, rfl⟩, single⟩
    · exact (last single []).2.symm
    · rw [List.append_assoc]
      exact (last single parent).1.symm
  · rintro rfl
    by_cases single : '/' ∈ path
    · obtain ⟨name, parent, split, clean⟩ : ∃ name parent, path = parent ++ '/' :: name ∧ '/' ∉ name := by
        obtain ⟨back, front, split, clean⟩ := List.eq_append_cons_of_mem (List.mem_reverse.mpr single)
        exact ⟨back.reverse, front.reverse, by rw [← List.reverse_reverse path, split]; simp,
          by rwa [List.mem_reverse]⟩
      rw [split, (last clean parent).1]
      exact ⟨parent ++ ['/'], by simp, .inr ⟨parent, rfl⟩, clean⟩
    · exact ⟨[], by rw [(last single []).2]; rfl, .inl rfl, by rw [(last single []).2]; exact single⟩

theorem matchesVaultPathPattern_iff (pattern path : Text) :
    matchesVaultPathPattern pattern path = true ↔ PatternMeans pattern path := by
  unfold matchesVaultPathPattern PatternMeans
  cases ends : Text.stripSuffix "/**".toList pattern with
  | some folder =>
    obtain rfl := Text.stripSuffix_eq_some.mp ends
    rw [if_pos (List.suffix_append _ _), Bool.or_eq_true, decide_eq_true_iff, List.isPrefixOf_iff_prefix]
    constructor
    · rintro (rfl | ⟨rest, rfl⟩)
      · exact ⟨path, rfl, .inl rfl⟩
      · exact ⟨folder, rfl, .inr ⟨rest, List.append_assoc _ _ _⟩⟩
    · rintro ⟨other, same, found⟩
      obtain rfl := List.append_cancel_right same
      rcases found with rfl | ⟨rest, rfl⟩
      · exact .inl rfl
      · exact .inr ⟨rest, List.append_assoc _ _ _⟩
  | none =>
    rw [if_neg (Text.stripSuffix_eq_none.mp ends)]
    dsimp only
    split
    · rw [Text.contains_iff]
      constructor
      · intro marked
        obtain ⟨dir, split, at', single⟩ := basename_iff.mpr (Eq.refl (basename path))
        exact ⟨dir, basename path, split, at', single, marked⟩
      · rintro ⟨dir, name, split, at', single, marked⟩
        rwa [← basename_iff.mp ⟨dir, split, at', single⟩]
    · cases leads : Text.stripPrefix "**/*".toList pattern with
      | some suffix =>
        obtain rfl := Text.stripPrefix_eq_some.mp leads
        rw [if_pos (List.prefix_append _ _), List.isSuffixOf_iff_suffix]
        constructor
        · rintro ⟨front, rfl⟩
          exact ⟨suffix, front, rfl, rfl⟩
        · rintro ⟨other, front, same, rfl⟩
          obtain rfl := List.append_cancel_left same
          exact List.suffix_append _ _
      | none =>
        rw [if_neg (Text.stripPrefix_eq_none.mp leads)]
        dsimp only
        obtain ⟨first, segments, -, clean, whole⟩ := splitOn_star pattern
        rw [whole, literals_mean clean, ← matchesWildcard_iff clean, ← whole]
        split
        · rfl
        · rename_i none'
          rw [decide_eq_true_iff, whole, matchesWildcard_iff clean, ← literals_mean clean, ← whole,
            if_neg none', eq_comm]

section Folding

variable {engine : PathEngine} {marks word : Text}

theorem PathEngine.Lawful.map_marks (lawful : engine.Lawful) (among : marks.all "*/.-".toList.contains) :
    word.map engine.fold = marks ↔ word = marks := by
  induction word generalizing marks with
  | nil => simp [eq_comm]
  | cons c word ih =>
    cases marks with
    | nil => simp
    | cons mark marks =>
      obtain ⟨head, tail⟩ := (Bool.and_eq_true _ _).mp among
      rw [List.map_cons, List.cons.injEq, List.cons.injEq,
        lawful.marks mark (List.contains_iff_mem.mp head), ih tail]

theorem PathEngine.Lawful.suffix_map (lawful : engine.Lawful) (among : marks.all "*/.-".toList.contains) :
    marks <:+ word.map engine.fold ↔ marks <:+ word := by
  constructor
  · rintro ⟨front, same⟩
    obtain ⟨first, last, rfl, -, folded⟩ := List.append_eq_map_iff.mp same
    rw [(lawful.map_marks among).mp folded]
    exact List.suffix_append _ _
  · rintro ⟨front, rfl⟩
    rw [List.map_append, (lawful.map_marks among).mpr rfl]
    exact List.suffix_append _ _

theorem PathEngine.Lawful.prefix_map (lawful : engine.Lawful) (among : marks.all "*/.-".toList.contains) :
    marks <+: word.map engine.fold ↔ marks <+: word := by
  constructor
  · rintro ⟨back, same⟩
    obtain ⟨first, last, rfl, folded, -⟩ := List.append_eq_map_iff.mp same
    rw [(lawful.map_marks among).mp folded]
    exact List.prefix_append _ _
  · rintro ⟨back, rfl⟩
    rw [List.map_append, (lawful.map_marks among).mpr rfl]
    exact List.prefix_append _ _

theorem star_mem_map (lawful : engine.Lawful) (text : Text) : '*' ∈ text.map engine.fold ↔ '*' ∈ text := by
  rw [List.mem_map]
  constructor
  · rintro ⟨c, inside, same⟩
    rwa [← (lawful.marks '*' (by decide) c).mp same]
  · exact fun inside => ⟨'*', inside, (lawful.marks '*' (by decide) '*').mpr rfl⟩

theorem toLower_of_foreign {c : Char} (foreign : 128 ≤ c.toNat) : c.toLower = c := by
  unfold Char.toLower
  rw [dif_neg]
  rintro ⟨-, upper⟩
  have small : c.toNat ≤ 90 := upper
  omega

theorem toLower_eq_iff {c mark : Char} (low : mark.toNat < 65) : c.toLower = mark ↔ c = mark := by
  unfold Char.toLower
  split
  · rename_i upper
    have first : 65 ≤ c.toNat := upper.1
    have last : c.toNat ≤ 90 := upper.2
    refine iff_of_false ?_ (by rintro rfl; omega)
    rintro rfl
    have raised : (c.val + 32).toNat = c.toNat + 32 := by
      rw [UInt32.toNat_add]
      exact Nat.mod_eq_of_lt (by simp; omega)
    have bound : (c.val + 32).toNat < 65 := low
    omega
  · rfl

/-- Lower case and fold agree on what is ASCII. -/
theorem map_toLower_iff (lawful : engine.Lawful) {word target : Text} (plain : engine.Plain word)
    (inner : ∀ c ∈ target, c.toNat < 128) :
    word.map Char.toLower = target ↔ word.map engine.fold = target := by
  induction word generalizing target with
  | nil => simp
  | cons c word ih =>
    cases target with
    | nil => simp
    | cons d target =>
      have small := inner d List.mem_cons_self
      have same : c.toLower = d ↔ engine.fold c = d := by
        by_cases foreign : 128 ≤ c.toNat
        · have out := plain c List.mem_cons_self foreign
          rw [toLower_of_foreign foreign]
          exact iff_of_false (by rintro rfl; omega) (by rintro rfl; omega)
        · rw [lawful.ascii c (by omega)]
      rw [List.map_cons, List.map_cons, List.cons.injEq, List.cons.injEq, same,
        ih (fun e inside => plain e (List.mem_cons_of_mem _ inside))
          fun e inside => inner e (List.mem_cons_of_mem _ inside)]

/-- The comparison of the deny list finds the special pattern just where the fold does. -/
theorem conflictPattern_folds (lawful : engine.Lawful) {pattern : Text} (plain : engine.Plain pattern) :
    Text.eqIgnoreAsciiCase pattern conflictPattern = true ↔ pattern.map engine.fold = conflictPattern := by
  rw [Text.eqIgnoreAsciiCase, decide_eq_true_iff,
    show conflictPattern.map Char.toLower = conflictPattern by decide]
  exact map_toLower_iff lawful plain (List.all_iff_forall_prop.mp (by decide))

/-- What lower case makes ASCII was ASCII, where the fold is lower case. -/
theorem folds_of_lowers (lawful : engine.Lawful) {word target : Text}
    (inner : ∀ c ∈ target, c.toNat < 128) (lowers : word.map Char.toLower = target) :
    word.map engine.fold = target := by
  subst lowers
  refine List.map_congr_left fun c inside => lawful.ascii c ?_
  by_contra foreign
  have small := inner c.toLower (List.mem_map_of_mem inside)
  rw [toLower_of_foreign (by omega)] at small
  exact foreign small

/-- The expression of literals with `.*` between them. -/
theorem mem_joinAnything {first : Text} {segments : List Text} {word : Text} :
    word ∈ (Regex.joinAnything ((first :: segments).map (Regex.literal engine.fold))).language ↔
      ∃ text, word.map engine.fold = first.map engine.fold ++ text ∧
        Spread (segments.map (List.map engine.fold)) text := by
  induction segments generalizing first word with
  | nil =>
    rw [List.map_singleton, Regex.joinAnything, Regex.mem_literal]
    simp [spread_nil]
  | cons second segments ih =>
    rw [List.map_cons, List.map_cons, Regex.joinAnything, ← List.map_cons, Regex.mem_seq]
    · constructor
      · rintro ⟨front, leads, _, ⟨gap, -, tail, later, rfl⟩, rfl⟩
        obtain ⟨text, same, spread⟩ := ih.mp later
        refine ⟨gap.map engine.fold ++ tail.map engine.fold, ?_, ?_⟩
        · rw [List.map_append, List.map_append, Regex.mem_literal.mp leads]
        · exact spread_cons.mpr ⟨_, text, by rw [same], spread⟩
      · rintro ⟨_, same, spread⟩
        obtain ⟨gap, rest, rfl, further⟩ := spread_cons.mp spread
        obtain ⟨front, _, rfl, leads, back⟩ := List.map_eq_append_iff.mp same
        obtain ⟨skipped, tail, rfl, rfl, ends⟩ := List.map_eq_append_iff.mp back
        exact ⟨front, Regex.mem_literal.mpr leads, _,
          ⟨skipped, Regex.mem_anything _, tail, ih.mpr ⟨rest, ends, further⟩, rfl⟩, rfl⟩
    · simp

theorem PathEngine.Lawful.map_slash (lawful : engine.Lawful) : ['/'].map engine.fold = ['/'] :=
  (lawful.map_marks (by decide)).mpr rfl

theorem mem_slash (lawful : engine.Lawful) {word : Text} :
    word ∈ (Regex.literal engine.fold ['/']).language ↔ word = ['/'] := by
  rw [Regex.mem_literal, lawful.map_slash]
  exact lawful.map_marks (by decide)

theorem mem_noSlash (lawful : engine.Lawful) {word : Text} :
    word ∈ (Regex.star (.one fun c => engine.fold c ≠ engine.fold '/')).language ↔
      '/' ∉ word.map engine.fold := by
  rw [Regex.mem_star_one, List.mem_map]
  have slash : engine.fold '/' = '/' := (lawful.marks '/' (by decide) '/').mpr rfl
  rw [slash]
  constructor
  · rintro clean ⟨c, inside, same⟩
    exact absurd same (of_decide_eq_true (clean c inside))
  · exact fun clean c inside => decide_eq_true fun same => clean ⟨c, inside, same⟩

theorem mem_anything_slash (lawful : engine.Lawful) {word : Text} :
    word ∈ (Regex.anything.seq (Regex.literal engine.fold ['/'])).language ↔
      ∃ parent, word.map engine.fold = parent ++ ['/'] := by
  rw [Regex.mem_seq]
  constructor
  · rintro ⟨front, -, _, slash, rfl⟩
    obtain rfl := (mem_slash lawful).mp slash
    exact ⟨front.map engine.fold, by rw [List.map_append, lawful.map_slash]⟩
  · rintro ⟨parent, same⟩
    obtain ⟨front, back, rfl, -, slash⟩ := List.map_eq_append_iff.mp same
    obtain rfl := (lawful.map_marks (by decide)).mp slash
    exact ⟨front, Regex.mem_anything _, ['/'], (mem_slash lawful).mpr rfl, rfl⟩

theorem conflictMark_folds (lawful : engine.Lawful) : conflictMark.map engine.fold = conflictMark := by
  have small : ∀ c ∈ conflictMark, c.toNat < 128 := List.all_iff_forall_prop.mp (by decide)
  refine (map_toLower_iff lawful (fun c inside foreign => ?_) small).mp (by decide)
  exact absurd (small c inside) (by omega)

/-- The expression of the special pattern looks at the basename. -/
theorem mem_conflict (lawful : engine.Lawful) {path : Text} :
    path ∈ ((Regex.anything.seq (Regex.literal engine.fold ['/'])).opt.seq
      ((Regex.star (.one fun c => engine.fold c ≠ engine.fold '/')).seq
        ((Regex.literal engine.fold conflictMark).seq
          (Regex.star (.one fun c => engine.fold c ≠ engine.fold '/'))))).language ↔
      ∃ dir name, path.map engine.fold = dir ++ name ∧ (dir = [] ∨ ∃ parent, dir = parent ++ ['/']) ∧
        '/' ∉ name ∧ conflictMark <:+: name := by
  have parts {word : Text} : (word.map engine.fold = [] ∨
      ∃ parent, word.map engine.fold = parent ++ ['/']) ↔ word ∈
      (Regex.anything.seq (Regex.literal engine.fold ['/'])).opt.language := by
    rw [Regex.mem_opt, mem_anything_slash lawful, List.map_eq_nil_iff, or_comm]
  rw [Regex.mem_seq]
  simp only [Regex.mem_seq, mem_noSlash lawful, Regex.mem_literal, conflictMark_folds lawful]
  constructor
  · rintro ⟨dir, atDir, _, ⟨before, clean, _, ⟨mark, marked, after, clean', rfl⟩, rfl⟩, rfl⟩
    refine ⟨dir.map engine.fold, _, by rw [List.map_append], parts.mpr atDir, ?_, ?_⟩
    · rw [List.map_append, List.map_append, marked, List.mem_append, List.mem_append]
      rintro (here | here | here)
      · exact clean here
      · exact absurd here (by decide)
      · exact clean' here
    · rw [List.map_append, List.map_append, marked]
      exact ⟨_, _, List.append_assoc _ _ _⟩
  · rintro ⟨_, _, same, atDir, single, before, after, rfl⟩
    obtain ⟨dir, _, rfl, rfl, rest⟩ := List.map_eq_append_iff.mp same
    obtain ⟨_, last, rfl, front, rfl⟩ := List.map_eq_append_iff.mp rest
    obtain ⟨first, mark, rfl, rfl, marked⟩ := List.map_eq_append_iff.mp front
    simp only [List.mem_append, not_or] at single
    exact ⟨dir, parts.mp atDir, _, ⟨first, single.1.1, _, ⟨mark, marked, last, single.2, rfl⟩, rfl⟩,
      by simp⟩

/-- The compiled pattern means what the documentation says, up to the fold. -/
theorem mem_denyPatternSource (lawful : engine.Lawful) {pattern path : Text} (plain : engine.Plain pattern) :
    path ∈ (denyPatternSource engine pattern).language ↔
      PatternMeans (pattern.map engine.fold) (path.map engine.fold) := by
  unfold denyPatternSource PatternMeans
  have ending : "/**".toList.map engine.fold = "/**".toList := (lawful.map_marks (by decide)).mpr rfl
  have leading : "**/*".toList.map engine.fold = "**/*".toList := (lawful.map_marks (by decide)).mpr rfl
  cases ends : Text.stripSuffix "/**".toList pattern with
  | some folder =>
    obtain rfl := Text.stripSuffix_eq_some.mp ends
    rw [List.map_append, ending, if_pos (List.suffix_append _ _)]
    dsimp only
    rw [Regex.mem_seq]
    constructor
    · rintro ⟨front, leads, back, rest, rfl⟩
      refine ⟨_, rfl, ?_⟩
      rw [List.map_append, Regex.mem_literal.mp leads]
      rcases rest with ⟨slash, atSlash, rest, -, rfl⟩ | rfl
      · obtain rfl := (mem_slash lawful).mp atSlash
        rw [List.map_append, lawful.map_slash]
        exact .inr ⟨rest.map engine.fold, rfl⟩
      · exact .inl (List.append_nil _)
    · rintro ⟨_, same, found⟩
      obtain rfl := List.append_cancel_right same
      rcases found with here | ⟨rest, beneath⟩
      · exact ⟨path, Regex.mem_literal.mpr here, [], .inr rfl, List.append_nil _⟩
      · obtain ⟨front, _, rfl, leads, below⟩ := List.map_eq_append_iff.mp beneath
        obtain ⟨slash, last, rfl, atSlash, -⟩ := List.map_eq_append_iff.mp
          (show _ = ['/'] ++ rest from below)
        exact ⟨front, Regex.mem_literal.mpr leads, _, .inl ⟨slash,
          (mem_slash lawful).mpr ((lawful.map_marks (by decide)).mp atSlash), last,
          Regex.mem_anything _, rfl⟩, rfl⟩
  | none =>
    rw [if_neg fun other => Text.stripSuffix_eq_none.mp ends ((lawful.suffix_map (by decide)).mp other)]
    dsimp only
    by_cases special : pattern.map engine.fold = conflictPattern
    · rw [if_pos ((conflictPattern_folds lawful plain).mpr special), if_pos special]
      exact mem_conflict lawful
    · rw [if_neg fun same => special ((conflictPattern_folds lawful plain).mp same), if_neg special]
      cases leads : Text.stripPrefix "**/*".toList pattern with
      | some suffix =>
        obtain rfl := Text.stripPrefix_eq_some.mp leads
        rw [List.map_append, leading, if_pos (List.prefix_append _ _)]
        dsimp only
        rw [Regex.mem_seq]
        constructor
        · rintro ⟨front, -, back, ends, rfl⟩
          exact ⟨_, front.map engine.fold, rfl, by rw [List.map_append, Regex.mem_literal.mp ends]⟩
        · rintro ⟨_, front, same, found⟩
          obtain rfl := List.append_cancel_left same
          obtain ⟨first, last, rfl, -, folded⟩ := List.map_eq_append_iff.mp found
          exact ⟨first, Regex.mem_anything _, last, Regex.mem_literal.mpr folded, rfl⟩
      | none =>
        rw [if_neg fun other => Text.stripPrefix_eq_none.mp leads ((lawful.prefix_map (by decide)).mp other)]
        dsimp only
        obtain ⟨first, segments, split, clean, whole⟩ := splitOn_star pattern
        have mapped : pattern.map engine.fold = ['*'].intercalate
            (first.map engine.fold :: segments.map (List.map engine.fold)) := by
          rw [whole, map_intercalate, (lawful.map_marks (by decide)).mpr rfl]
          rfl
        have clean' : ∀ segment ∈ first.map engine.fold :: segments.map (List.map engine.fold),
            '*' ∉ segment := by
          rw [← List.map_cons]
          rintro _ inside
          obtain ⟨segment, member, rfl⟩ := List.mem_map.mp inside
          exact fun star => clean segment member ((star_mem_map lawful segment).mp star)
        rw [split, mem_joinAnything, mapped, literals_mean clean']

/-- Whatever a path contains, the pattern of the same text matches it. -/
theorem mem_denyPatternSource_self (lawful : engine.Lawful) (path : Text) :
    path ∈ (denyPatternSource engine path).language := by
  unfold denyPatternSource
  cases ends : Text.stripSuffix "/**".toList path with
  | some folder =>
    obtain rfl := Text.stripSuffix_eq_some.mp ends
    exact Regex.mem_seq.mpr ⟨folder, Regex.mem_literal.mpr rfl, "/**".toList,
      .inl ⟨['/'], Regex.mem_literal.mpr rfl, _, Regex.mem_anything _, rfl⟩, rfl⟩
  | none =>
    dsimp only
    split
    · rename_i special
      rw [Text.eqIgnoreAsciiCase, decide_eq_true_iff,
        show conflictPattern.map Char.toLower = conflictPattern by decide] at special
      have folded := folds_of_lowers lawful (List.all_iff_forall_prop.mp (by decide)) special
      refine (mem_conflict lawful).mpr ⟨"**/".toList, "*.sync-conflict-*".toList, folded,
        .inr ⟨['*', '*'], rfl⟩, by decide, ['*'], ['*'], rfl⟩
    · cases leads : Text.stripPrefix "**/*".toList path with
      | some suffix =>
        obtain rfl := Text.stripPrefix_eq_some.mp leads
        exact Regex.mem_seq.mpr ⟨_, Regex.mem_anything _, suffix, Regex.mem_literal.mpr rfl, rfl⟩
      | none =>
        obtain ⟨first, segments, split, -, whole⟩ := splitOn_star path
        dsimp only
        rw [split, mem_joinAnything]
        rw [whole, map_intercalate, List.map_cons]
        exact intercalate_spread _ _ _

/-- A path without stars, as a pattern, matches what folds to the same. -/
theorem mem_denyPatternSource_plain {pattern path : Text} (plain : '*' ∉ pattern) :
    path ∈ (denyPatternSource engine pattern).language ↔ path.map engine.fold = pattern.map engine.fold := by
  unfold denyPatternSource
  cases ends : Text.stripSuffix "/**".toList pattern with
  | some folder =>
    obtain rfl := Text.stripSuffix_eq_some.mp ends
    exact absurd (List.mem_append_right _ (by decide)) plain
  | none =>
    have other : ¬ Text.eqIgnoreAsciiCase pattern conflictPattern = true := by
      rw [Text.eqIgnoreAsciiCase, decide_eq_true_iff]
      intro same
      have star : '*' ∈ pattern.map Char.toLower := by
        rw [same]
        decide
      obtain ⟨c, inside, lowers⟩ := List.mem_map.mp star
      rw [toLower_eq_iff (by decide)] at lowers
      exact plain (lowers ▸ inside)
    dsimp only
    rw [if_neg other]
    cases leads : Text.stripPrefix "**/*".toList pattern with
    | some suffix =>
      obtain rfl := Text.stripPrefix_eq_some.mp leads
      exact absurd (List.mem_append_left _ (by decide)) plain
    | none =>
      dsimp only
      rw [List.splitOn_eq_singleton plain, List.map_singleton, Regex.joinAnything, Regex.mem_literal]

end Folding

/-- The hard deny list and the soft ignore list read a pattern alike, up to NFC and the fold,
and both as the documentation says. -/
theorem matchers_agree {engine : PathEngine} (lawful : engine.Lawful) :
    (∀ pattern, (compileDenyPattern engine pattern).isSome → engine.Plain pattern → ∀ path,
      ((PathPolicy.new engine [pattern]).isBlocked engine path = true ↔
        matchesVaultPathPattern ((engine.nfc pattern).map engine.fold) ((engine.nfc path).map engine.fold) =
          true)) ∧
      ∀ pattern path, matchesVaultPathPattern pattern path = true ↔ PatternMeans pattern path := by
  refine ⟨fun pattern compiles plain path => ?_, matchesVaultPathPattern_iff⟩
  obtain ⟨matcher, compiled⟩ := Option.isSome_iff_exists.mp compiles
  have source : matcher = denyPatternSource engine (engine.nfc pattern) := by
    simp only [compileDenyPattern, Option.ite_none_right_eq_some] at compiled
    exact (Option.some.inj compiled.2).symm
  rw [matchesVaultPathPattern_iff, ← mem_denyPatternSource lawful (lawful.plain pattern plain),
    ← Regex.isMatch_iff, ← source]
  simp [PathPolicy.isBlocked, PathPolicy.new, compiled]

/-- An engine without Unicode tables. -/
def asciiEngine : PathEngine := ⟨id, Char.toLower, fun _ => true⟩

theorem asciiEngine_lawful : asciiEngine.Lawful where
  marks := by
    intro mark inside c
    have low : ∀ mark ∈ "*/.-".toList, mark.toNat < 65 := List.all_iff_forall_prop.mp (by decide)
    exact toLower_eq_iff (low mark inside)
  ascii _ _ := rfl
  plain _ := id

theorem matchers_agree_private :
    (PathPolicy.new asciiEngine ["Private/**".toList]).isBlocked asciiEngine "PRIVATE/a.md".toList = true ↔
      matchesVaultPathPattern "private/**".toList "private/a.md".toList = true :=
  (matchers_agree asciiEngine_lawful).1 "Private/**".toList rfl
    (fun _ inside foreign => absurd foreign (Nat.not_le.mpr
      ((List.all_iff_forall_prop (p := fun c : Char => c.toNat < 128)).mp (by decide) _ inside)))
    "PRIVATE/a.md".toList

end SecondBrain
