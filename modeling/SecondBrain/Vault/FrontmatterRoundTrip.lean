import SecondBrain.Vault.FrontmatterEncoding
import SecondBrain.Library.Lists

set_option autoImplicit false

namespace SecondBrain

section Delimiter

/-- The delimiter search looks at one line after the other. -/
theorem find_delimiter_line {line tail : Text} (clean : '\n' ∉ line) :
    Text.find "\n---".toList (line ++ '\n' :: tail) =
      if "---".toList <+: tail then some line.length
      else (Text.find "\n---".toList tail).map (· + (line.length + 1)) := by
  have skip : Text.find ('\n' :: "---".toList) (line ++ '\n' :: tail) =
      (Text.find ('\n' :: "---".toList) ('\n' :: tail)).map (· + line.length) :=
    Text.find_append_of_forall_ne fun c member same => clean (same ▸ member)
  rw [show "\n---".toList = '\n' :: "---".toList from rfl, skip]
  split
  · rename_i leads
    rw [Text.find_of_leads (List.cons_prefix_cons.mpr ⟨rfl, leads⟩)]
    simp
  · rename_i differs
    rw [Text.find_cons_of_differs fun leads => differs (List.cons_prefix_cons.mp leads).2,
      Option.map_map]
    congr 1
    funext i
    simp only [Function.comp_apply]
    omega

/-- Lines of which only the first may start like a delimiter, followed by a line that does:
the search stops at that line. -/
theorem find_delimiter_close {first : Text} {inner : List Text} {close : Text}
    (cleanFirst : '\n' ∉ first) (clean : ∀ line ∈ inner, '\n' ∉ line)
    (ordinary : ∀ line ∈ inner, ¬ "---".toList <+: line) (closes : "---".toList <+: close) :
    Text.find "\n---".toList (['\n'].intercalate (first :: inner) ++ '\n' :: close) =
      some (['\n'].intercalate (first :: inner)).length := by
  induction inner generalizing first with
  | nil =>
    rw [List.intercalate_singleton, find_delimiter_line cleanFirst, if_pos closes]
  | cons line inner ih =>
    have differs : ¬ "---".toList <+: ['\n'].intercalate (line :: inner) ++ '\n' :: close := by
      have lineDiffers := ordinary line List.mem_cons_self
      cases inner with
      | nil => rwa [List.intercalate_singleton, Text.prefix_line_iff (by decide)]
      | cons next inner =>
        rw [List.intercalate_cons_cons, List.append_assoc, List.append_assoc]
        exact fun leads => lineDiffers ((Text.prefix_line_iff (by decide)).mp leads)
    have rest := ih (clean line List.mem_cons_self)
      (fun l member => clean l (List.mem_cons_of_mem line member))
      (fun l member => ordinary l (List.mem_cons_of_mem line member))
    rw [List.intercalate_cons_cons, List.append_assoc, List.append_assoc, List.singleton_append,
      find_delimiter_line cleanFirst, if_neg differs, rest, Option.map_some]
    simp only [List.length_append, List.length_cons, List.length_nil]
    congr 1
    omega

theorem splitFrontmatter_close {first : Text} {inner : List Text} (after : Text)
    (cleanFirst : '\n' ∉ first) (clean : ∀ line ∈ inner, '\n' ∉ line)
    (ordinary : ∀ line ∈ inner, ¬ "---".toList <+: line) :
    splitFrontmatter ("---\n".toList ++
        (['\n'].intercalate (first :: inner) ++ '\n' :: ("---".toList ++ after))) =
      (some (['\n'].intercalate (first :: inner)), (Text.stripPrefix ['\n'] after).getD after) := by
  have found := find_delimiter_close cleanFirst clean ordinary (List.prefix_append "---".toList after)
  simp only [splitFrontmatter, Text.stripPrefix_append, found]
  rw [List.take_left]
  have drop : (['\n'].intercalate (first :: inner) ++ '\n' :: ("---".toList ++ after)).drop
      ((['\n'].intercalate (first :: inner)).length + 4) = after := by
    rw [List.drop_append]
    simp
  rw [drop]

end Delimiter

theorem flatMap_lines (line : Text) (lines : List Text) (close : Text) :
    (line :: lines).flatMap (· ++ ['\n']) ++ close =
      ['\n'].intercalate (line :: lines) ++ '\n' :: close := by
  induction lines generalizing line with
  | nil => simp
  | cons next lines ih =>
    rw [List.flatMap_cons, List.append_assoc, ih, List.intercalate_cons_cons]
    simp

section Encoding

variable {codecs : Codecs} (lawful : codecs.Lawful)

theorem parseLines_encoded {entries : List (Text × FrontmatterValue)} {lines : List Text}
    (encoded : List.Forall₂ (EncodedLine codecs) entries lines) (map : Frontmatter) :
    parseLines codecs map lines =
      map.insertMany (entries.map fun entry => (entry.1, entry.2.dropZeroSign)) := by
  induction encoded generalizing map with
  | nil => rw [parseLines, List.map_nil, Std.ExtTreeMap.insertMany_nil]
  | @cons entry line entries lines first rest ih =>
    obtain ⟨raw, captured, nonempty, value⟩ := first.captures
    rw [parseLines, captured]
    simp only [List.isEmpty_iff, nonempty, if_false]
    rw [value, ih, List.map_cons, Std.ExtTreeMap.insertMany_cons]

/-- Encoded lines of which only the first may start like a delimiter, closed by a line that
does: the decoder reads exactly these lines and leaves the rest to the body. -/
theorem parseMarkdown_close {first : Text × FrontmatterValue} {line : Text}
    {entries : List (Text × FrontmatterValue)} {lines : List Text} {after source : Text}
    (head : EncodedLine codecs first line)
    (encoded : List.Forall₂ (EncodedLine codecs) entries lines)
    (ordinary : ∀ entry ∈ entries, ¬ "---".toList <+: entry.1)
    (shape : Text.normalizeNewlines source = "---\n".toList ++
      ((line :: lines).flatMap (· ++ ['\n']) ++ ("---".toList ++ after))) :
    (parseMarkdown codecs source).frontmatter =
        (∅ : Frontmatter).insertMany
          ((first :: entries).map fun entry => (entry.1, entry.2.dropZeroSign)) ∧
      (parseMarkdown codecs source).body = (Text.stripPrefix ['\n'] after).getD after := by
  have oneLine {entry : Text × FrontmatterValue} {l : Text} (spec : EncodedLine codecs entry l) :
      '\n' ∉ l := fun member => absurd (spec.printable _ member) (by decide)
  have clean : ∀ l ∈ lines, '\n' ∉ l := by
    intro l member
    obtain ⟨_, _, spec⟩ := forall₂_mem_right encoded member
    exact oneLine spec
  have plain : ∀ l ∈ lines, ¬ "---".toList <+: l := by
    intro l member leads
    obtain ⟨entry, inside, spec⟩ := forall₂_mem_right encoded member
    exact ordinary entry inside (spec.dashes.mp leads)
  have split := splitFrontmatter_close after (oneLine head) clean plain
  have block : parseFrontmatter codecs (['\n'].intercalate (line :: lines)) =
      (∅ : Frontmatter).insertMany
        ((first :: entries).map fun entry => (entry.1, entry.2.dropZeroSign)) := by
    rw [parseFrontmatter, List.splitOn_intercalate '\n' (by simpa using ⟨oneLine head, clean⟩) (by simp)]
    exact parseLines_encoded (.cons head encoded) ∅
  rw [flatMap_lines] at shape
  simp only [parseMarkdown, shape, split]
  exact ⟨block, trivial⟩

end Encoding

/-- No key but the least of the map starts like a delimiter line. -/
def Frontmatter.OnlyLeastDashes (map : Frontmatter) : Prop :=
  ∀ key ∈ map, "---".toList <+: key → map.minKey? = some key

theorem Frontmatter.getElem?_extend (map updates : Frontmatter) (key : Text) :
    (map.extend updates)[key]? = updates[key]?.or map[key]? := by
  unfold Frontmatter.extend
  cases at' : updates[key]? with
  | none =>
    rw [Option.none_or]
    refine Std.ExtTreeMap.getElem?_insertMany_list_of_contains_eq_false ?_
    rw [Std.ExtTreeMap.map_fst_toList_eq_keys, List.contains_eq_mem, decide_eq_false_iff_not,
      Std.ExtTreeMap.mem_keys, Std.ExtTreeMap.mem_iff_isSome_getElem?, at']
    simp
  | some value =>
    rw [Option.some_or]
    exact Std.ExtTreeMap.getElem?_insertMany_list_of_mem (by simp)
      Std.ExtTreeMap.distinct_keys_toList
      (Std.ExtTreeMap.mem_toList_iff_getElem?_eq_some.mpr at')

/-- The entries after the least one start like a delimiter nowhere. -/
theorem Frontmatter.onlyLeastDashes_iff {map : Frontmatter} {first : Text × FrontmatterValue}
    {entries : List (Text × FrontmatterValue)} (order : map.toList = first :: entries) :
    map.OnlyLeastDashes ↔ ∀ entry ∈ entries, ¬ "---".toList <+: entry.1 := by
  have least : map.minKey? = some first.1 := by
    rw [Std.ExtTreeMap.minKey?_eq_head?_keys, ← Std.ExtTreeMap.map_fst_toList_eq_keys, order]
    rfl
  have ordered := Std.ExtTreeMap.ordered_keys_toList (t := map)
  rw [order, List.pairwise_cons] at ordered
  have inMap (entry : Text × FrontmatterValue) (member : entry ∈ map.toList) : entry.1 ∈ map := by
    rw [Std.ExtTreeMap.mem_iff_isSome_getElem?,
      Std.ExtTreeMap.mem_toList_iff_getElem?_eq_some.mp member]
    rfl
  constructor
  · intro only entry member leads
    have same := only entry.1 (inMap entry (by rw [order]; exact List.mem_cons_of_mem first member)) leads
    rw [least] at same
    have before := ordered.1 entry member
    rw [Option.some.inj same] at before
    simp at before
  · intro plain key member leads
    obtain ⟨value, at'⟩ := Option.isSome_iff_exists.mp
      (Std.ExtTreeMap.mem_iff_isSome_getElem?.mp member)
    have listed := Std.ExtTreeMap.mem_toList_iff_getElem?_eq_some.mpr at'
    rw [order] at listed
    rcases List.mem_cons.mp listed with rfl | later
    · exact least
    · exact absurd leads (plain (key, value) later)

section RoundTrip

variable {codecs : Codecs} (lawful : codecs.Lawful)

/-- What `with_frontmatter` writes for a map that is not empty. -/
theorem withFrontmatter_shape {content text : Text} {map : Frontmatter} (nonempty : map ≠ ∅)
    (accepted : withFrontmatter codecs content (some map) = .ok text) :
    ∃ lines, List.Forall₂ (fun entry line => encodeLine codecs entry = .ok line) map.toList lines ∧
      text = "---\n".toList ++ lines.flatMap (· ++ ['\n']) ++ "---\n".toList ++ content := by
  have kept : (some map).filter (!·.isEmpty) = some map := by
    rw [Option.filter_some, if_pos]
    simpa [Std.ExtTreeMap.isEmpty_iff] using nonempty
  rw [withFrontmatter, kept] at accepted
  cases run : map.toList.mapM (encodeLine codecs) with
  | error e => simp [run, bind, Except.bind] at accepted
  | ok lines =>
    simp only [run, bind, Except.bind, Except.ok.injEq] at accepted
    exact ⟨lines, mapM_eq_ok.mp run, accepted.symm⟩

include lawful in
/-- The codec reads back what it wrote exactly if no key but the least starts like a
delimiter line. A later such key closes the block early and is lost with all after it. -/
theorem parseMarkdown_withFrontmatter {content text : Text} {map : Frontmatter}
    (nonempty : map ≠ ∅) (accepted : withFrontmatter codecs content (some map) = .ok text) :
    (map.OnlyLeastDashes →
      (parseMarkdown codecs text).frontmatter = map.map (fun _ value => value.dropZeroSign) ∧
        (parseMarkdown codecs text).body = Text.normalizeNewlines content) ∧
    (¬ map.OnlyLeastDashes → ∃ key ∈ map, key ∉ (parseMarkdown codecs text).frontmatter) := by
  obtain ⟨lines, run, rfl⟩ := withFrontmatter_shape nonempty accepted
  have encoded := run.imp fun entry line ok => encodeLine_spec lawful ok
  obtain ⟨first, entries, order⟩ := List.exists_cons_of_ne_nil
    (Std.ExtTreeMap.toList_eq_nil_iff.not.mpr nonempty)
  rw [Frontmatter.onlyLeastDashes_iff order]
  rw [order] at encoded
  obtain ⟨line, lines, head, tail, rfl⟩ : ∃ l ls, EncodedLine codecs first l ∧
      List.Forall₂ (EncodedLine codecs) entries ls ∧ lines = l :: ls := by
    cases encoded with
    | cons head tail => exact ⟨_, _, head, tail, rfl⟩
  have newlines : Text.normalizeNewlines ("---\n".toList ++ (line :: lines).flatMap (· ++ ['\n']) ++
      "---\n".toList ++ content) = "---\n".toList ++ ((line :: lines).flatMap (· ++ ['\n']) ++
        ("---".toList ++ '\n' :: Text.normalizeNewlines content)) := by
    rw [Text.normalizeNewlines_append]
    · rw [List.append_assoc, List.append_assoc]
      rfl
    · have clean : ∀ l ∈ line :: lines, '\r' ∉ l := by
        intro l member inside
        obtain ⟨_, _, spec⟩ := forall₂_mem_right (.cons head tail) member
        exact absurd (spec.printable _ inside) (by decide)
      simp only [List.mem_append, List.mem_flatMap, List.mem_singleton]
      rintro ((opening | ⟨l, member, inside | other⟩) | closing)
      · exact absurd opening (by decide)
      · exact clean l member inside
      · exact absurd other (by decide)
      · exact absurd closing (by decide)
  constructor
  · intro ordinary
    have read := parseMarkdown_close head tail ordinary newlines
    refine ⟨?_, by rw [read.2]; rfl⟩
    rw [read.1, ← order]
    have listed := Std.ExtTreeMap.toList_map (t := map) (f := fun _ value => value.dropZeroSign)
    refine Std.ExtTreeMap.ext_getElem? fun key => ?_
    rw [← listed, ← Frontmatter.extend, Frontmatter.getElem?_extend]
    simp
  · intro some'
    push Not at some'
    obtain ⟨before, bad, after, rfl, dashes, ordinary⟩ := exists_first_split some'
    obtain ⟨linesBefore, rest, rfl, earlier, later⟩ := forall₂_append_left tail
    obtain ⟨badLine, linesAfter, badSpec, _, rfl⟩ := List.forall₂_cons_left_iff.mp later
    obtain ⟨cut, same⟩ := badSpec.dashes.mpr dashes
    have read := parseMarkdown_close head earlier ordinary (newlines.trans (by
      rw [← List.cons_append, List.flatMap_append, List.flatMap_cons, ← same]
      simp only [List.append_assoc]
      rfl))
    have listed : bad ∈ map.toList := by rw [order]; simp
    have distinct := Std.ExtTreeMap.distinct_keys_toList (t := map)
    rw [order, ← List.cons_append, List.pairwise_append] at distinct
    refine ⟨bad.1, ?_, ?_⟩
    · rw [Std.ExtTreeMap.mem_iff_isSome_getElem?,
        Std.ExtTreeMap.mem_toList_iff_getElem?_eq_some.mp listed]
      rfl
    · rw [read.1, Std.ExtTreeMap.mem_insertMany_list]
      rintro (empty | among)
      · simp at empty
      · simp only [List.map_map, List.contains_eq_mem, decide_eq_true_eq, List.mem_map] at among
        obtain ⟨entry, inside, key⟩ := among
        refine distinct.2.2 entry inside bad List.mem_cons_self ?_
        rw [← key]
        simp

include lawful in
/-- The round trip of the codec, with its exact condition. -/
theorem withFrontmatter_roundTrip_iff {content text : Text} {map : Frontmatter}
    (nonempty : map ≠ ∅) (accepted : withFrontmatter codecs content (some map) = .ok text) :
    ((parseMarkdown codecs text).frontmatter = map.map (fun _ value => value.dropZeroSign) ∧
      (parseMarkdown codecs text).body = Text.normalizeNewlines content) ↔
      map.OnlyLeastDashes := by
  obtain ⟨positive, negative⟩ := parseMarkdown_withFrontmatter lawful nonempty accepted
  refine ⟨fun read => ?_, positive⟩
  by_contra dashes
  obtain ⟨key, member, lost⟩ := negative dashes
  rw [read.1] at lost
  exact lost (Std.ExtTreeMap.mem_map.mpr member)

/-- Frontmatter of the usual kind: the number three and a string. -/
def plainFrontmatter : Frontmatter :=
  .ofList [("count".toList, FrontmatterValue.number 0x4008000000000000#64),
    ("title".toList, FrontmatterValue.string "Hello".toList)]

theorem plainFrontmatter_ne_empty : plainFrontmatter ≠ ∅ :=
  fun empty => absurd (congrArg (·.size) empty) (by decide)

theorem withFrontmatter_roundTrip_plain :
    (parseMarkdown plainCodecs "---\ncount: 3\ntitle: \"Hello\"\n---\nbody".toList).frontmatter =
        plainFrontmatter.map (fun _ value => value.dropZeroSign) ∧
      (parseMarkdown plainCodecs "---\ncount: 3\ntitle: \"Hello\"\n---\nbody".toList).body =
        Text.normalizeNewlines "body".toList :=
  (withFrontmatter_roundTrip_iff plainCodecs_lawful plainFrontmatter_ne_empty rfl).mpr
    ((Frontmatter.onlyLeastDashes_iff rfl).mpr (by decide))

/-- The accepted keys `-` and `---`. -/
def dashedFrontmatter : Frontmatter :=
  .ofList [("-".toList, FrontmatterValue.bool true), ("---".toList, FrontmatterValue.bool true)]

/-- The line of the second key closes the block: the key is lost, and its value and the
true delimiter end up in the body. -/
theorem withFrontmatter_dashes_lost :
    plainCodecs.Lawful ∧ withFrontmatter plainCodecs "body".toList (some dashedFrontmatter) =
        .ok "---\n-: true\n---: true\n---\nbody".toList ∧
      (parseMarkdown plainCodecs "---\n-: true\n---: true\n---\nbody".toList).body =
        ": true\n---\nbody".toList ∧
      dashedFrontmatter["---".toList]? = some (.bool true) ∧
      (parseMarkdown plainCodecs
        "---\n-: true\n---: true\n---\nbody".toList).frontmatter["---".toList]? = none := by
  refine ⟨plainCodecs_lawful, rfl, ?_, rfl, ?_⟩
  · decide +kernel
  · decide +kernel

/-- The body is what is left of the text, and less than all of it behind a block. -/
theorem splitFrontmatter_length (source : Text) :
    (splitFrontmatter source).2.length ≤ source.length ∧
      ((splitFrontmatter source).1 ≠ none → (splitFrontmatter source).2.length < source.length) := by
  unfold splitFrontmatter
  split
  · simp
  · rename_i rest opened
    have opening := congrArg List.length (Text.stripPrefix_eq_some.mp opened)
    have dashes : "---\n".toList.length = 4 := rfl
    simp only [List.length_append] at opening
    split
    · simp
    · rename_i stop closed
      have dropped : ((Text.stripPrefix ['\n'] (rest.drop (stop + 4))).getD
          (rest.drop (stop + 4))).length ≤ rest.length := by
        cases strip : Text.stripPrefix ['\n'] (rest.drop (stop + 4)) with
        | none => simp
        | some after =>
          have kept := congrArg List.length (Text.stripPrefix_eq_some.mp strip)
          simp only [List.length_drop, List.length_append, List.length_singleton] at kept
          simp only [Option.getD_some]
          omega
      dsimp only
      exact ⟨by omega, fun _ => by omega⟩

/-- The condition under which an update survives a second parse: no line end is left to
replace in the body, no key but the least starts like a delimiter line, and where no
frontmatter is left the body does not open a block of its own. -/
structure UpdateStable (codecs : Codecs) (current : Text) (updates : Frontmatter) : Prop where
  newlines : ¬ "\r\n".toList <:+: (parseMarkdown codecs current).body
  dashes : ((parseMarkdown codecs current).frontmatter.extend updates).OnlyLeastDashes
  unopened : (parseMarkdown codecs current).frontmatter.extend updates = ∅ →
    (splitFrontmatter (parseMarkdown codecs current).body).1 = none

include lawful in
/-- What `update_frontmatter` writes reads back as the merged frontmatter and the same body
exactly under `UpdateStable`. -/
theorem updateFrontmatter_merges_iff {current text : Text} {updates : Frontmatter}
    (accepted : updateFrontmatter codecs current updates = .ok text) :
    ((∀ key : Text, (parseMarkdown codecs text).frontmatter[key]? =
        (updates[key]?.or (parseMarkdown codecs current).frontmatter[key]?).map
          FrontmatterValue.dropZeroSign) ∧
      (parseMarkdown codecs text).body = (parseMarkdown codecs current).body) ↔
      UpdateStable codecs current updates := by
  simp only [← Frontmatter.getElem?_extend]
  rw [updateFrontmatter] at accepted
  generalize merge : (parseMarkdown codecs current).frontmatter.extend updates = merged
    at accepted ⊢
  by_cases empty : merged = ∅
  · have same : text = (parseMarkdown codecs current).body := by
      subst empty
      rw [withFrontmatter, Option.filter_some, if_neg (by simp)] at accepted
      exact (Except.ok.inj accepted).symm
    have shorter := splitFrontmatter_length (Text.normalizeNewlines text)
    have replaced := Text.normalizeNewlines_length text
    constructor
    · rintro ⟨_, body⟩
      have kept : (splitFrontmatter (Text.normalizeNewlines text)).2.length = text.length :=
        congrArg List.length (body.trans same.symm)
      have newlines : ¬ "\r\n".toList <:+: text := fun inside => by
        have := replaced.2 inside
        omega
      rw [Text.normalizeNewlines_eq_self_iff.mpr newlines] at shorter kept
      refine ⟨same ▸ newlines, ?_, fun _ => ?_⟩
      · rw [merge, empty]
        intro key member
        simp at member
      · rw [← same]
        by_contra opened
        have := shorter.2 opened
        omega
    · rintro ⟨newlines, _, unopened⟩
      rw [← same] at newlines unopened
      have whole : splitFrontmatter text = (none, text) := by
        have closed := unopened (merge.trans empty)
        unfold splitFrontmatter at closed ⊢
        split
        · rfl
        · split
          · rfl
          · simp_all
      rw [empty, parseMarkdown, Text.normalizeNewlines_eq_self_iff.mpr newlines, whole]
      exact ⟨fun key => by simp, same⟩
  · obtain ⟨positive, negative⟩ := parseMarkdown_withFrontmatter lawful empty accepted
    constructor
    · rintro ⟨read, body⟩
      have dashes : merged.OnlyLeastDashes := by
        by_contra dashes
        obtain ⟨key, member, lost⟩ := negative dashes
        obtain ⟨value, at'⟩ := Option.isSome_iff_exists.mp
          (Std.ExtTreeMap.mem_iff_isSome_getElem?.mp member)
        have found := read key
        rw [at', Option.map_some] at found
        exact lost (Std.ExtTreeMap.mem_iff_isSome_getElem?.mpr (by rw [found]; rfl))
      refine ⟨?_, merge ▸ dashes, fun none => absurd (merge.symm.trans none) empty⟩
      exact Text.normalizeNewlines_eq_self_iff.mp ((positive dashes).2.symm.trans body)
    · rintro ⟨newlines, dashes, _⟩
      obtain ⟨frontmatter, body⟩ := positive (merge ▸ dashes)
      rw [frontmatter, body]
      exact ⟨fun key => Std.ExtTreeMap.getElem?_map, Text.normalizeNewlines_eq_self_iff.mpr newlines⟩

end RoundTrip

theorem updateFrontmatter_merges_plain :
    (∀ key : Text, (parseMarkdown plainCodecs
        "---\ncount: 3\ntitle: \"Hello\"\n---\nbody".toList).frontmatter[key]? =
      ((Std.ExtTreeMap.ofList [("title".toList, FrontmatterValue.string "Hello".toList)] :
          Frontmatter)[key]?.or
        (parseMarkdown plainCodecs "---\ncount: 3\n---\nbody".toList).frontmatter[key]?).map
          FrontmatterValue.dropZeroSign) ∧
      (parseMarkdown plainCodecs "---\ncount: 3\ntitle: \"Hello\"\n---\nbody".toList).body =
        (parseMarkdown plainCodecs "---\ncount: 3\n---\nbody".toList).body := by
  have merged : (Frontmatter.extend (parseMarkdown plainCodecs
      "---\ncount: 3\n---\nbody".toList).frontmatter (Std.ExtTreeMap.ofList
        [("title".toList, FrontmatterValue.string "Hello".toList)])).toList =
      [("count".toList, FrontmatterValue.number 0x4008000000000000#64),
        ("title".toList, FrontmatterValue.string "Hello".toList)] := by
    decide +kernel
  refine (updateFrontmatter_merges_iff plainCodecs_lawful ?_).mpr ⟨?_, ?_, ?_⟩
  · decide +kernel
  · decide +kernel
  · exact (Frontmatter.onlyLeastDashes_iff merged).mpr (by decide)
  · intro empty
    rw [empty] at merged
    exact absurd merged (by decide)

/-- An empty block hides a body that opens a block of its own. The empty patch writes that
body alone, and its block is now read as frontmatter. -/
theorem updateFrontmatter_unhides_block :
    plainCodecs.Lawful ∧
      updateFrontmatter plainCodecs "---\n\n---\n---\nx: true\n---\nb".toList ∅ =
        .ok "---\nx: true\n---\nb".toList ∧
      (parseMarkdown plainCodecs
        "---\n\n---\n---\nx: true\n---\nb".toList).frontmatter["x".toList]? = none ∧
      (parseMarkdown plainCodecs "---\nx: true\n---\nb".toList).frontmatter["x".toList]? =
        some (.bool true) ∧
      (parseMarkdown plainCodecs "---\n\n---\n---\nx: true\n---\nb".toList).body =
        "---\nx: true\n---\nb".toList ∧
      (parseMarkdown plainCodecs "---\nx: true\n---\nb".toList).body = "b".toList := by
  refine ⟨plainCodecs_lawful, ?_, ?_, ?_, ?_, ?_⟩ <;> decide +kernel

end SecondBrain
