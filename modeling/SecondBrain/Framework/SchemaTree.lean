import SecondBrain.Framework.Schema

set_option autoImplicit false

/-! The mappings that the lines of a schema make by their indentation. -/

namespace SecondBrain

open SecondBrain.Json (Value)

namespace Schema

variable (codecs : Codecs)

/-- The line at `j` opens a mapping that has the line at `i` in it or deeper: every line from there
down to `i` is indented further. -/
def Encloses (lines : List Line) (j i : Nat) : Prop :=
  j < i ∧ ∃ header, lines[j]? = some header ∧ header.raw = [] ∧
    ∀ k line, j < k → k ≤ i → lines[k]? = some line → header.indent < line.indent

/-- What opens the mapping that the line at `i` is an entry of: the latest line that encloses it, or
nothing for the root mapping. -/
def Opener (lines : List Line) (i : Nat) : Option Nat → Prop
  | some j => Encloses lines j i ∧ ∀ k, Encloses lines k i → k ≤ j
  | none => ∀ k, ¬ Encloses lines k i

/-- The value that a line gives its key. -/
def lineValue (nested : Nat → Object) (i : Nat) (line : Line) : Value :=
  if line.raw.isEmpty then .object (nested i) else parseValue codecs line.raw

/-- The line at `i` is the last one to give the key a value in a mapping. -/
structure LastEntry (lines : List Line) (opener : Option Nat) (key : Text) (i : Nat) (line : Line) : Prop where
  here : lines[i]? = some line
  named : line.key = key
  inside : Opener lines i opener
  last : ∀ k later, i < k → lines[k]? = some later → later.key = key → ¬ Opener lines k opener

/-- The mappings of all the lines that open one: each has the last entries of its own lines. -/
structure IndentTree (lines : List Line) (tree : Option Nat → Object) : Prop where
  sorted : ∀ opener, SortedMap.Sorted (tree opener)
  lookup : ∀ opener key value, (tree opener).lookup key = some value ↔
    ∃ i line, LastEntry lines opener key i line ∧ value = lineValue codecs (fun j => tree (some j)) i line

/-- The parser stops before a line that is indented no further than the header of its mapping. -/
def closes (parent : Option Nat) (line : Line) : Bool := parent.any (line.indent ≤ ·)

/-- The runs of the parser. -/
inductive Parses : (parent : Option Nat) → List Line → Object → Object → List Line → Prop where
  | ended (parent : Option Nat) (result : Object) : Parses parent [] result result []
  | closed {parent : Option Nat} {line : Line} (rest : List Line) (result : Object)
      (shallow : closes parent line = true) : Parses parent (line :: rest) result result (line :: rest)
  | header {parent : Option Nat} {line : Line} {rest between left : List Line} {result inner out : Object}
      (deeper : closes parent line = false) (bare : line.raw = [])
      (nested : Parses (some line.indent) rest [] inner between)
      (further : Parses parent between (SortedMap.insert line.key (.object inner) result) out left) :
      Parses parent (line :: rest) result out left
  | plain {parent : Option Nat} {line : Line} {rest left : List Line} {result out : Object}
      (deeper : closes parent line = false) (valued : line.raw ≠ [])
      (further : Parses parent rest (SortedMap.insert line.key (parseValue codecs line.raw) result) out left) :
      Parses parent (line :: rest) result out left

section Runs

variable {codecs} {parent : Option Nat} {lines left left' : List Line} {result out out' : Object}

/-- With a step for every line the parser runs to its end. -/
theorem parses_within {steps : Nat} (enough : lines.length ≤ steps) (parent : Option Nat) (result : Object) :
    Parses codecs parent lines result (parseMappingWithin codecs steps lines parent result).1
      (parseMappingWithin codecs steps lines parent result).2 ∧
    (parseMappingWithin codecs steps lines parent result).2.length ≤ lines.length := by
  induction steps generalizing lines parent result with
  | zero =>
    obtain rfl := List.length_eq_zero_iff.mp (Nat.le_zero.mp enough)
    exact ⟨.ended parent result, Nat.le_refl _⟩
  | succ steps ih =>
    cases lines with
    | nil => exact ⟨.ended parent result, Nat.le_refl _⟩
    | cons line rest =>
      rw [List.length_cons] at enough
      have short : rest.length ≤ steps := by omega
      unfold parseMappingWithin
      cases shallow : closes parent line with
      | true =>
        rw [closes] at shallow
        rw [if_pos shallow]
        exact ⟨.closed rest result shallow, Nat.le_refl _⟩
      | false =>
        have deeper := shallow
        rw [closes] at deeper
        rw [if_neg (by rw [deeper]; exact Bool.false_ne_true)]
        cases bare : line.raw.isEmpty with
        | true =>
          rw [if_pos rfl]
          obtain ⟨nested, fewer⟩ := ih short (some line.indent) []
          obtain ⟨further, fewer'⟩ := ih (Nat.le_trans fewer short) parent
            (SortedMap.insert line.key (.object (parseMappingWithin codecs steps rest (some line.indent) []).1) result)
          refine ⟨.header shallow (List.isEmpty_iff.mp bare) nested further, ?_⟩
          rw [List.length_cons]
          exact Nat.le_succ_of_le (Nat.le_trans fewer' fewer)
        | false =>
          rw [if_neg Bool.false_ne_true]
          obtain ⟨further, fewer⟩ := ih short parent
            (SortedMap.insert line.key (parseValue codecs line.raw) result)
          refine ⟨.plain shallow (fun empty => by rw [empty] at bare; cases bare) further, ?_⟩
          rw [List.length_cons]
          exact Nat.le_succ_of_le fewer

/-- The lines decide the run. -/
theorem Parses.unique (parses : Parses codecs parent lines result out left)
    (other : Parses codecs parent lines result out' left') : out = out' ∧ left = left' := by
  induction parses generalizing out' left' with
  | ended => cases other; exact ⟨rfl, rfl⟩
  | closed rest result shallow =>
    cases other with
    | closed => exact ⟨rfl, rfl⟩
    | header deeper => rw [shallow] at deeper; cases deeper
    | plain deeper => rw [shallow] at deeper; cases deeper
  | header deeper bare _ _ nestedIh furtherIh =>
    cases other with
    | closed _ _ shallow => rw [shallow] at deeper; cases deeper
    | header _ _ nested further =>
      obtain ⟨rfl, rfl⟩ := nestedIh nested
      exact furtherIh further
    | plain _ valued => exact absurd bare valued
  | plain deeper valued _ ih =>
    cases other with
    | closed _ _ shallow => rw [shallow] at deeper; cases deeper
    | header _ bare => exact absurd bare valued
    | plain _ _ further => exact ih further

end Runs

/-- The parser is in a mapping before the line at `start`: the header is open, and no line below it
encloses anything that is still to come. -/
structure Inside (all : List Line) (opener parent : Option Nat) (start : Nat) : Prop where
  opened : (opener = none ∧ parent = none) ∨ ∃ j header, opener = some j ∧ parent = some header.indent ∧
    j < start ∧ all[j]? = some header ∧ header.raw = [] ∧
      ∀ k line, j < k → k < start → all[k]? = some line → header.indent < line.indent
  latest : ∀ k i, k < start → start ≤ i → i < all.length → Encloses all k i → ∃ j, opener = some j ∧ k ≤ j

section Inside

variable {all : List Line} {opener parent : Option Nat} {start : Nat} {line : Line}

theorem closes_eq_false (indent : Nat) : closes (some indent) line = false ↔ indent < line.indent := by
  simp [closes]

/-- A line that does not close the mapping is in it. -/
theorem Inside.encloses {j i : Nat} {header : Line} (found : all[j]? = some header) (bare : header.raw = [])
    (below : j < i) (deeper : ∀ k line, j < k → k < i → all[k]? = some line → header.indent < line.indent)
    (here : all[i]? = some line) (last : header.indent < line.indent) : Encloses all j i := by
  refine ⟨below, header, found, bare, fun k other after upTo there => ?_⟩
  rcases Nat.lt_or_eq_of_le upTo with earlier | rfl
  · exact deeper k other after earlier there
  · rw [here, Option.some.injEq] at there
    exact there ▸ last

theorem Inside.owns (inside : Inside all opener parent start) (here : all[start]? = some line)
    (deeper : closes parent line = false) : Opener all start opener := by
  have bound : start < all.length := (List.getElem?_eq_some_iff.mp here).1
  have latest {k : Nat} (encloses : Encloses all k start) :=
    inside.latest k start encloses.1 (Nat.le_refl _) bound encloses
  rcases inside.opened with ⟨rfl, -⟩ | ⟨j, header, rfl, rfl, below, found, bare, between⟩
  · intro k encloses
    obtain ⟨j, never, -⟩ := latest encloses
    cases never
  · refine ⟨Inside.encloses found bare below between here ((closes_eq_false _).mp deeper), fun k encloses => ?_⟩
    obtain ⟨j', same, upTo⟩ := latest encloses
    exact Option.some.inj same ▸ upTo

/-- The mapping after an entry of its own, with what is nested in it. -/
theorem Inside.after {stop : Nat} (inside : Inside all opener parent start) (here : all[start]? = some line)
    (deeper : closes parent line = false) (past : start < stop)
    (nested : ∀ k other, start < k → k < stop → all[k]? = some other → line.indent < other.indent)
    (ends : ∀ other, all[stop]? = some other → line.raw = [] → other.indent ≤ line.indent)
    (single : line.raw ≠ [] → stop = start + 1) : Inside all opener parent stop := by
  refine ⟨?_, fun k i before upTo bound encloses => ?_⟩
  · rcases inside.opened with root | ⟨j, header, same, above, below, found, bare, between⟩
    · exact .inl root
    · refine .inr ⟨j, header, same, above, by omega, found, bare, fun k other after earlier there => ?_⟩
      rw [above, closes_eq_false] at deeper
      rcases Nat.lt_trichotomy k start with lower | rfl | higher
      · exact between k other after lower there
      · rw [here, Option.some.injEq] at there
        exact there ▸ deeper
      · exact Nat.lt_trans deeper (nested k other higher earlier there)
  · rcases Nat.lt_or_ge k start with lower | higher
    · exact inside.latest k i lower (by omega) bound encloses
    -- a line from the entry on is closed by the line at `stop`
    exfalso
    obtain ⟨-, header, found, bare, deep⟩ := encloses
    obtain ⟨last, there⟩ : ∃ last, all[stop]? = some last :=
      ⟨_, List.getElem?_eq_getElem (Nat.lt_of_le_of_lt upTo bound)⟩
    have further := deep stop last before upTo there
    rcases Nat.lt_or_eq_of_le higher with inner | rfl
    · have few := nested k header inner before found
      by_cases empty : line.raw = []
      · have := ends last there empty
        omega
      · have := single empty
        omega
    · rw [here, Option.some.injEq] at found
      subst found
      have := ends last there bare
      omega

/-- The mapping that a header opens. -/
theorem Inside.nested (here : all[start]? = some line) (bare : line.raw = []) :
    Inside all (some start) (some line.indent) (start + 1) where
  opened := .inr ⟨start, line, rfl, rfl, Nat.lt_succ_self _, here, bare, fun k other after before => by omega⟩
  latest k i before _ _ _ := ⟨start, rfl, Nat.le_of_lt_succ before⟩

theorem Inside.root (all : List Line) : Inside all none none 0 :=
  ⟨.inl ⟨rfl, rfl⟩, fun _ _ before => absurd before (Nat.not_lt_zero _)⟩

end Inside

section Entries

variable (all : List Line) (tree : Option Nat → Object) (opener : Option Nat)

open scoped Classical in
/-- What the line at `i` puts into a mapping. -/
noncomputable def entryAt (i : Nat) : Option (Text × Value) :=
  if Opener all i opener then
    all[i]?.map fun line => (line.key, lineValue codecs (fun j => tree (some j)) i line)
  else none

/-- What the lines of a range put into a mapping. -/
noncomputable def entries (start count : Nat) : Object :=
  (List.range' start count).filterMap (entryAt codecs all tree opener)

variable {codecs all tree opener}

theorem entryAt_eq_some {i : Nat} {key : Text} {value : Value} :
    entryAt codecs all tree opener i = some (key, value) ↔ ∃ line, all[i]? = some line ∧ Opener all i opener ∧
      line.key = key ∧ value = lineValue codecs (fun j => tree (some j)) i line := by
  unfold entryAt
  split
  · rename_i inside
    rw [Option.map_eq_some_iff]
    constructor
    · rintro ⟨line, here, same⟩
      cases same
      exact ⟨line, here, inside, rfl, rfl⟩
    · rintro ⟨line, here, -, rfl, rfl⟩
      exact ⟨line, here, rfl⟩
  · rename_i outside
    exact ⟨nofun, fun ⟨_, _, inside, _⟩ => absurd inside outside⟩

theorem entries_append (start count more : Nat) : entries codecs all tree opener start (count + more) =
    entries codecs all tree opener start count ++ entries codecs all tree opener (start + count) more := by
  rw [entries, entries, entries, ← List.filterMap_append]
  congr 1
  rw [List.range'_append_1]

theorem entries_single (start : Nat) :
    entries codecs all tree opener start 1 = (entryAt codecs all tree opener start).toList := by
  rw [entries, List.range'_one]
  cases told : entryAt codecs all tree opener start with
  | none => exact List.filterMap_cons_none told
  | some entry => exact List.filterMap_cons_some told

theorem entries_one {start : Nat} {line : Line} (here : all[start]? = some line) (inside : Opener all start opener) :
    entries codecs all tree opener start 1 =
      [(line.key, lineValue codecs (fun j => tree (some j)) start line)] := by
  have one : entryAt codecs all tree opener start =
      some (line.key, lineValue codecs (fun j => tree (some j)) start line) :=
    entryAt_eq_some.mpr ⟨line, here, inside, rfl, rfl⟩
  rw [entries_single, one, Option.toList_some]

theorem entries_none {start count : Nat}
    (outside : ∀ i line, start ≤ i → i < start + count → all[i]? = some line → ¬ Opener all i opener) :
    entries codecs all tree opener start count = [] := by
  rw [entries, List.filterMap_eq_nil_iff]
  intro i inside
  rw [List.mem_range'_1] at inside
  cases told : entryAt codecs all tree opener i with
  | none => rfl
  | some entry =>
    obtain ⟨line, here, owned, -⟩ := entryAt_eq_some.mp (show _ = some (entry.1, entry.2) from told)
    exact absurd owned (outside i line inside.1 inside.2 here)

theorem insertAll_append (map front back : Object) :
    SortedMap.insertAll map (front ++ back) = SortedMap.insertAll (SortedMap.insertAll map front) back :=
  List.foldl_append

/-- The last line of the range that gives a key a value decides the lookup. -/
theorem lookup_entries (start count : Nat) (key : Text) (value : Value) :
    (SortedMap.insertAll [] (entries codecs all tree opener start count)).lookup key = some value ↔
      ∃ i line, start ≤ i ∧ i < start + count ∧ all[i]? = some line ∧ line.key = key ∧ Opener all i opener ∧
        (∀ k later, i < k → k < start + count → all[k]? = some later → later.key = key → ¬ Opener all k opener) ∧
        value = lineValue codecs (fun j => tree (some j)) i line := by
  induction count with
  | zero =>
    refine ⟨nofun, ?_⟩
    rintro ⟨i, line, above, below, -⟩
    omega
  | succ count ih =>
    rw [entries_append, insertAll_append]
    -- whether the last line of the range has an entry under the key
    by_cases last : ∃ line, all[start + count]? = some line ∧ line.key = key ∧ Opener all (start + count) opener
    · obtain ⟨line, here, rfl, owned⟩ := last
      rw [entries_one here owned, SortedMap.insertAll, List.foldl_cons, List.foldl_nil,
        SortedMap.lookup_insert_self, Option.some.injEq]
      constructor
      · rintro rfl
        exact ⟨start + count, line, by omega, by omega, here, rfl, owned, fun k later after before => by omega, rfl⟩
      · rintro ⟨i, other, above, below, there, named, owned', further, rfl⟩
        obtain rfl : i = start + count := by
          by_contra earlier
          exact further (start + count) line (by omega) (by omega) here rfl owned
        rw [here, Option.some.injEq] at there
        rw [there]
    · have same : (SortedMap.insertAll (SortedMap.insertAll [] (entries codecs all tree opener start count))
          (entries codecs all tree opener (start + count) 1)).lookup key =
          (SortedMap.insertAll [] (entries codecs all tree opener start count)).lookup key := by
        cases told : entryAt codecs all tree opener (start + count) with
        | none => rw [entries_single, told]; rfl
        | some entry =>
          obtain ⟨line, here, owned, named, -⟩ :=
            entryAt_eq_some.mp (show _ = some (entry.1, entry.2) from told)
          rw [entries_single, told]
          refine SortedMap.lookup_insert_ne _ (fun same => last ⟨line, here, ?_, owned⟩) _
          rw [named, same]
      rw [same, ih]
      constructor
      · rintro ⟨i, line, above, below, here, named, owned, further, told⟩
        refine ⟨i, line, above, by omega, here, named, owned, fun k later after before there same => ?_, told⟩
        rcases Nat.lt_or_ge k (start + count) with inner | outer
        · exact further k later after inner there same
        · obtain rfl : k = start + count := by omega
          exact fun owned' => last ⟨later, there, same, owned'⟩
      · rintro ⟨i, line, above, below, here, named, owned, further, told⟩
        have inner : i < start + count := by
          by_contra outer
          obtain rfl : i = start + count := by omega
          exact last ⟨line, here, named, owned⟩
        exact ⟨i, line, above, inner, here, named, owned,
          fun k later after before => further k later after (by omega), told⟩

end Entries

section Tree

variable {codecs} {all : List Line}

/-- What the parser reads of each mapping, when it is started behind the header. -/
def readTree (codecs : Codecs) (all : List Line) : Option Nat → Object
  | none => (parseMappingWithin codecs all.length all none []).1
  | some j =>
    match all.drop j with
    | header :: rest =>
      if header.raw.isEmpty then (parseMappingWithin codecs rest.length rest (some header.indent) []).1 else []
    | [] => []

theorem drop_cons {start : Nat} {line : Line} {rest : List Line} (split : all.drop start = line :: rest) :
    all[start]? = some line ∧ all.drop (start + 1) = rest := by
  constructor
  · rw [← List.head?_drop, split, List.head?_cons]
  · rw [← List.drop_drop, split, List.drop_one, List.tail_cons]

theorem readTree_header {j : Nat} {header : Line} {rest left : List Line} {result : Object}
    (split : all.drop j = header :: rest) (bare : header.raw = [])
    (parses : Parses codecs (some header.indent) rest [] result left) : readTree codecs all (some j) = result := by
  rw [readTree, split]
  dsimp only
  rw [if_pos (List.isEmpty_iff.mpr bare)]
  exact ((parses_within (Nat.le_refl _) _ _).1.unique parses).1

/-- A run of the parser inside a mapping takes the lines down to the one that closes it, and puts in
the entries of the lines that are its own. -/
theorem Parses.reads {opener parent : Option Nat} {start : Nat} {lines left : List Line} {result out : Object}
    (parses : Parses codecs parent lines result out left) (inside : Inside all opener parent start)
    (here : all.drop start = lines) : ∃ count, all.drop (start + count) = left ∧
      (∀ k line, start ≤ k → k < start + count → all[k]? = some line → closes parent line = false) ∧
      (∀ line, all[start + count]? = some line → closes parent line = true) ∧
      out = SortedMap.insertAll result (entries codecs all (readTree codecs all) opener start count) := by
  induction parses generalizing opener start with
  | ended parent result =>
    refine ⟨0, here, fun k line above below => by omega, fun line there => ?_, rfl⟩
    rw [Nat.add_zero, ← List.head?_drop, here] at there
    cases there
  | closed rest result shallow =>
    refine ⟨0, here, fun k line above below => by omega, fun line there => ?_, rfl⟩
    rw [Nat.add_zero, (drop_cons here).1, Option.some.injEq] at there
    exact there ▸ shallow
  | @header parent line rest between left result inner out deeper bare nested further nestedIh furtherIh =>
    obtain ⟨atStart, after⟩ := drop_cons here
    obtain ⟨count, ended, deep, closed, rfl⟩ := nestedIh (Inside.nested atStart bare) after
    have nestedDeeper : ∀ k other, start < k → k < start + 1 + count → all[k]? = some other →
        line.indent < other.indent :=
      fun k other above below there => (closes_eq_false _).mp (deep k other above below there)
    have later : Inside all opener parent (start + 1 + count) := by
      refine inside.after atStart deeper (by omega) nestedDeeper (fun other there _ => ?_) (absurd bare)
      simpa [closes] using closed other there
    obtain ⟨more, ended', deep', closed', rfl⟩ := furtherIh later ended
    have whole : start + 1 + count + more = start + (1 + count + more) := by omega
    refine ⟨1 + count + more, by rw [← whole]; exact ended', fun k other above below there => ?_,
      fun other there => closed' other (by rw [whole]; exact there), ?_⟩
    · rcases Nat.lt_or_ge k (start + 1 + count) with inner | outer
      · rcases Nat.lt_or_eq_of_le above with lower | rfl
        · have steep := nestedDeeper k other lower inner there
          cases parent with
          | none => rfl
          | some indent =>
            rw [closes_eq_false] at deeper ⊢
            exact Nat.lt_trans deeper steep
        · rw [atStart, Option.some.injEq] at there
          exact there ▸ deeper
      · exact deep' k other outer (by omega) there
    · have owned := inside.owns atStart deeper
      have none' : entries codecs all (readTree codecs all) opener (start + 1) count = [] := by
        refine entries_none fun i other above below there owned' => ?_
        have encloses : Encloses all start i :=
          Inside.encloses atStart bare above (fun k other after before => nestedDeeper k other after (by omega)) there
            (nestedDeeper i other above below there)
        -- the header encloses its nested lines, and is later than the opener of the mapping
        rcases inside.opened with ⟨rfl, -⟩ | ⟨j, _, rfl, -, earlier, -⟩
        · exact owned' start encloses
        · have := owned'.2 start encloses
          omega
      have value : lineValue codecs (fun j => readTree codecs all (some j)) start line =
          .object (SortedMap.insertAll [] (entries codecs all (readTree codecs all) (some start) (start + 1) count)) := by
        rw [lineValue, if_pos (List.isEmpty_iff.mpr bare), readTree_header here bare nested]
      rw [entries_append, entries_append, none', List.append_nil, entries_one atStart owned, value,
        insertAll_append, Nat.add_assoc]
      rfl
  | @plain parent line rest left result out deeper valued further ih =>
    obtain ⟨atStart, after⟩ := drop_cons here
    have later : Inside all opener parent (start + 1) :=
      inside.after atStart deeper (Nat.lt_succ_self _) (fun k other above below => by omega)
        (fun _ _ empty => absurd empty valued) fun _ => rfl
    obtain ⟨count, ended, deep, closed, rfl⟩ := ih later after
    have whole : start + 1 + count = start + (1 + count) := by omega
    refine ⟨1 + count, by rw [← whole]; exact ended, fun k other above below there => ?_,
      fun other there => closed other (by rw [whole]; exact there), ?_⟩
    · rcases Nat.lt_or_eq_of_le above with lower | rfl
      · exact deep k other lower (by omega) there
      · rw [atStart, Option.some.injEq] at there
        exact there ▸ deeper
    · have value : lineValue codecs (fun j => readTree codecs all (some j)) start line = parseValue codecs line.raw := by
        rw [lineValue, if_neg (by rwa [List.isEmpty_iff])]
      rw [entries_append, entries_one atStart (inside.owns atStart deeper), value, insertAll_append]
      rfl

/-- The range of lines that the entries of a mapping come from. -/
theorem readTree_range (codecs : Codecs) (all : List Line) (opener : Option Nat) : ∃ start count,
    readTree codecs all opener =
        SortedMap.insertAll [] (entries codecs all (readTree codecs all) opener start count) ∧
      ∀ i line, all[i]? = some line → Opener all i opener → start ≤ i ∧ i < start + count := by
  have nowhere (same : readTree codecs all opener = []) (outside : ∀ i, ¬ Opener all i opener) :
      ∃ start count, readTree codecs all opener =
          SortedMap.insertAll [] (entries codecs all (readTree codecs all) opener start count) ∧
        ∀ i line, all[i]? = some line → Opener all i opener → start ≤ i ∧ i < start + count :=
    ⟨0, 0, same, fun i _ _ owned => absurd owned (outside i)⟩
  cases opener with
  | none =>
    have parses : Parses codecs none all [] (readTree codecs all none) _ := (parses_within (Nat.le_refl _) none []).1
    obtain ⟨count, -, -, closed, same⟩ := parses.reads (Inside.root all) rfl
    refine ⟨0, count, same, fun i line here _ => ⟨Nat.zero_le i, ?_⟩⟩
    by_contra outside
    have bound := (List.getElem?_eq_some_iff.mp here).1
    cases closed _ (List.getElem?_eq_getElem (show 0 + count < all.length by omega))
  | some j =>
    have headed {i : Nat} (owned : Opener all i (some j)) : ∃ header, all[j]? = some header ∧ header.raw = [] := by
      obtain ⟨⟨-, header, found, bare, -⟩, -⟩ := owned
      exact ⟨header, found, bare⟩
    cases split : all.drop j with
    | nil =>
      refine nowhere (by rw [readTree, split]) fun i owned => ?_
      obtain ⟨header, found, -⟩ := headed owned
      rw [← List.head?_drop, split] at found
      cases found
    | cons header rest =>
      obtain ⟨found, after⟩ := drop_cons split
      by_cases bare : header.raw = []
      · have parses : Parses codecs (some header.indent) rest [] _ _ :=
          (parses_within (Nat.le_refl _) (some header.indent) []).1
        obtain ⟨count, -, -, closed, same⟩ := parses.reads (Inside.nested found bare) after
        refine ⟨j + 1, count, (readTree_header split bare parses).trans same, fun i line here owned => ?_⟩
        obtain ⟨⟨below, header', found', -, deep⟩, -⟩ := owned
        rw [found, Option.some.injEq] at found'
        subst found'
        refine ⟨below, ?_⟩
        by_contra outside
        have bound := (List.getElem?_eq_some_iff.mp here).1
        have there := List.getElem?_eq_getElem (show j + 1 + count < all.length by omega)
        have shallow := closed _ there
        rw [(closes_eq_false _).mpr (deep (j + 1 + count) _ (by omega) (by omega) there)] at shallow
        cases shallow
      · refine nowhere ?_ fun i owned => ?_
        · rw [readTree, split]
          dsimp only
          rw [if_neg (by rwa [List.isEmpty_iff])]
        · obtain ⟨header', found', bare'⟩ := headed owned
          rw [found, Option.some.injEq] at found'
          exact bare (found' ▸ bare')

theorem readTree_indentTree (codecs : Codecs) (all : List Line) : IndentTree codecs all (readTree codecs all) where
  sorted opener := by
    obtain ⟨start, count, same, -⟩ := readTree_range codecs all opener
    rw [same]
    exact SortedMap.Sorted.insertAll List.Pairwise.nil _
  lookup opener key value := by
    obtain ⟨start, count, same, covers⟩ := readTree_range codecs all opener
    rw [same, lookup_entries]
    constructor
    · rintro ⟨i, line, -, -, here, named, owned, further, told⟩
      exact ⟨i, line, ⟨here, named, owned, fun k later after there same owned' =>
        further k later after (covers k later there owned').2 there same owned'⟩, told⟩
    · rintro ⟨i, line, ⟨here, named, owned, further⟩, told⟩
      exact ⟨i, line, (covers i line here owned).1, (covers i line here owned).2, here, named, owned,
        fun k later after _ => further k later after, told⟩

/-- The first line that a mapping can have an entry of. -/
def firstLine : Option Nat → Nat
  | none => 0
  | some j => j + 1

theorem Opener.first {i : Nat} {opener : Option Nat} (owned : Opener all i opener) : firstLine opener ≤ i := by
  cases opener with
  | none => exact Nat.zero_le i
  | some j => exact owned.1.1

/-- There is one such tree only. -/
theorem IndentTree.unique {tree other : Option Nat → Object} (left : IndentTree codecs all tree)
    (right : IndentTree codecs all other) : tree = other := by
  suffices deep : ∀ n opener, all.length ≤ n + firstLine opener → tree opener = other opener from
    funext fun opener => deep all.length opener (Nat.le_add_right _ _)
  intro n
  induction n with
  | zero =>
    intro opener far
    refine (left.sorted opener).ext (right.sorted opener) fun key => Option.ext fun value => ?_
    rw [left.lookup, right.lookup]
    have outside : ∀ i line, ¬ LastEntry all opener key i line := by
      intro i line entry
      have := entry.inside.first
      have := (List.getElem?_eq_some_iff.mp entry.here).1
      omega
    exact ⟨fun ⟨i, line, entry, _⟩ => absurd entry (outside i line), fun ⟨i, line, entry, _⟩ => absurd entry (outside i line)⟩
  | succ n ih =>
    intro opener far
    refine (left.sorted opener).ext (right.sorted opener) fun key => Option.ext fun value => ?_
    rw [left.lookup, right.lookup]
    refine exists_congr fun i => exists_congr fun line => and_congr_right fun entry => ?_
    have nested : tree (some i) = other (some i) := by
      refine ih (some i) ?_
      have := entry.inside.first
      rw [firstLine]
      omega
    rw [lineValue, lineValue, nested]

/-- Every line is an entry of one mapping. -/
theorem opener_unique (all : List Line) (i : Nat) : ∃! opener, Opener all i opener := by
  classical
  by_cases enclosed : ∃ k, Encloses all k i
  · obtain ⟨k, encloses⟩ := enclosed
    have above := Nat.le_of_lt encloses.1
    have greatest : Opener all i (some (Nat.findGreatest (Encloses all · i) i)) :=
      ⟨Nat.findGreatest_spec (P := (Encloses all · i)) above encloses,
        fun k encloses => Nat.le_findGreatest (Nat.le_of_lt encloses.1) encloses⟩
    refine ⟨_, greatest, fun opener owned => ?_⟩
    cases opener with
    | none => exact absurd encloses (owned k)
    | some j => rw [Nat.le_antisymm (greatest.2 j owned.1) (owned.2 _ greatest.1)]
  · have root : Opener all i none := fun k encloses => enclosed ⟨k, encloses⟩
    refine ⟨none, root, fun opener owned => ?_⟩
    cases opener with
    | none => rfl
    | some j => exact absurd owned.1 (root j)

end Tree

/-- The parser ends behind the last line, with the tree of the indentation: every line is an entry of
one mapping, that of the latest line that encloses it, and in a mapping the last line with a key
decides its value as a whole. -/
theorem indentation_tree (lines : List Line) : ∃ tree, IndentTree codecs lines tree ∧
    (∀ other, IndentTree codecs lines other → other = tree) ∧
    (∀ steps, lines.length ≤ steps → parseMappingWithin codecs steps lines none [] = (tree none, [])) ∧
    ∀ i, i < lines.length → ∃! opener, Opener lines i opener := by
  refine ⟨readTree codecs lines, readTree_indentTree codecs lines,
    fun other tree => tree.unique (readTree_indentTree codecs lines), fun steps enough => ?_,
    fun i _ => opener_unique lines i⟩
  have parses {n : Nat} (enough : lines.length ≤ n) : Parses codecs none lines []
      (parseMappingWithin codecs n lines none []).1 (parseMappingWithin codecs n lines none []).2 :=
    (parses_within enough none []).1
  obtain ⟨count, ended, -, closed, -⟩ := (parses enough).reads (Inside.root lines) rfl
  have first := (parses (Nat.le_refl lines.length)).unique (parses enough)
  have past : lines.length ≤ 0 + count := by
    by_contra before
    cases closed _ (List.getElem?_eq_getElem (Nat.lt_of_not_le before))
  rw [List.drop_eq_nil_of_le past] at ended
  exact Prod.ext first.1.symm ended.symm

end Schema

end SecondBrain
