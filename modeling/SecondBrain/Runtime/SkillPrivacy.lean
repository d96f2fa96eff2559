import SecondBrain.Library.Schedules
import SecondBrain.Runtime.SkillReload
import SecondBrain.Vault.FrontmatterEncoding
import SecondBrain.Vault.PolicyLaws

set_option autoImplicit false

/-! What a load of the skills leaves in the deny list, over every run of reloads and readers. -/

namespace SecondBrain

open SkillProg (call)
open Recording (follow recording_schedule recording_pool)

theorem mem_sortedPaths {paths : List Text} {path : Text} : path ∈ sortedPaths paths ↔ path ∈ paths := by
  rw [sortedPaths, List.mem_dedup, List.mem_insertionSort]

/-- The links in the content that a map was read with. -/
def linksOf : Text × Option Text → List (Except Text Text)
  | (map, some content) => extractCandidates content map
  | (_, none) => []

/-- The canonical vault paths that were seen. -/
def Sighting.Target (seen : Sighting) (path : Text) : Prop := ∃ alias', (alias', some path) ∈ seen.targets

/-- What the maps were seen to link to, as vault paths or not. -/
def Sighting.Linked (seen : Sighting) (config : PrivacyConfig) (path : Text) : Prop :=
  ∃ note ∈ seen.notes, note.1 ∈ config.mapPaths ∧ (.ok path ∈ linksOf note ∨ .error path ∈ linksOf note)

def SkillLoad.paths (load : SkillLoad) : List Text := load.statuses.map (·.path)

/-- How a load and its patterns come from what was seen. -/
structure Loaded (config : PrivacyConfig) (seen : Sighting) (load : SkillLoad) (patterns : List Text) :
    Prop where
  linked : ∀ path, path ∈ config.mapPaths ∨ path ∈ load.paths ↔
    path ∈ config.mapPaths ∨ seen.Linked config path
  listed : ∀ skill ∈ load.skills, skill.path ∈ load.paths
  asked : seen.targets.map Prod.fst =
    if seen.root then config.blockedPaths ++ config.mapPaths ++ load.paths else []
  patterns : ∀ path, path ∈ patterns ↔ path ∈ config.blockedPaths ∨ path ∈ config.mapPaths ∨
    path ∈ load.paths ∨ seen.Target path

/-- The policy belongs to the published snapshot. -/
def Current (engine : PathEngine) (config : PrivacyConfig) (w : SkillWorld) : Prop :=
  ∃ patterns, w.policy = .new engine patterns ∧ Loaded config w.published w.skills patterns

def Settled (engine : PathEngine) (config : PrivacyConfig) (w : SkillWorld) : Prop :=
  w.writing = none → Current engine config w

section Loading

variable (engine : PathEngine) (config : PrivacyConfig)

/-- What a task may count on: its own sight, whether it holds the write lock, and while it does,
all that is published. -/
def OthersKeep (task : Nat) (s t : SkillWorld) : Prop :=
  t.seen task = s.seen task ∧ (t.writing = some task ↔ s.writing = some task) ∧
    (s.writing = some task → t.policy = s.policy ∧ t.skills = s.skills ∧ t.published = s.published)

def skillProtocol (task : Nat) : Protocol SkillOp SkillOp.Resp SkillWorld SkillWorld where
  handler := SkillEffect engine task
  view := id
  rely := OthersKeep task
  guar s t := (∀ other, other ≠ task → OthersKeep other s t) ∧
    (Settled engine config s → Settled engine config t)
  rely_refl _ := ⟨rfl, .rfl, fun _ => ⟨rfl, rfl, rfl⟩⟩
  rely_trans := by
    rintro s t u ⟨seen, lock, same⟩ ⟨seen', lock', same'⟩
    refine ⟨seen'.trans seen, lock'.trans lock, fun holds => ?_⟩
    obtain ⟨policy, skills, published⟩ := same holds
    obtain ⟨policy', skills', published'⟩ := same' (lock.mpr holds)
    exact ⟨policy'.trans policy, skills'.trans skills, published'.trans published⟩

/-- A call that leaves the lock and all that is published alone. -/
structure Unmoved (task : Nat) (s t : SkillWorld) : Prop where
  seen : ∀ other, other ≠ task → t.seen other = s.seen other
  lock : t.writing = s.writing
  policy : t.policy = s.policy
  skills : t.skills = s.skills
  published : t.published = s.published

variable {engine config} {task : Nat} {s t : SkillWorld}

theorem Unmoved.refl : Unmoved task s s := ⟨fun _ _ => rfl, rfl, rfl, rfl, rfl⟩

theorem Unmoved.see {sighting : Sighting} : Unmoved task s (s.see task sighting) :=
  ⟨fun _ other => Function.update_of_ne other _ _, rfl, rfl, rfl, rfl⟩

theorem Unmoved.guar (quiet : Unmoved task s t) : (skillProtocol engine config task).guar s t := by
  obtain ⟨seen, lock, policy, skills, published⟩ := quiet
  refine ⟨fun other different => ⟨seen other different, by rw [lock], fun _ => ⟨policy, skills, published⟩⟩,
    fun settled unlocked => ?_⟩
  obtain ⟨patterns, same, loaded⟩ := settled (lock ▸ unlocked)
  exact ⟨patterns, policy.trans same, by rwa [published, skills]⟩

theorem Unmoved.pays {holds : SkillWorld → Prop} (quiet : Unmoved task s t) (here : holds t) :
    (skillProtocol engine config task).Pays s t holds := ⟨t, rfl, quiet.guar, here⟩

/-- The state of a task that has seen `seen` and does not write. -/
def Sees (task : Nat) (seen : Sighting) (w : SkillWorld) : Prop :=
  w.seen task = seen ∧ w.writing ≠ some task

theorem Sees.stable {seen : Sighting} (sees : Sees task seen s) (others : OthersKeep task s t) :
    Sees task seen t := ⟨others.1.trans sees.1, fun holds => sees.2 (others.2.1.mp holds)⟩

theorem Sees.see {seen next : Sighting} (sees : Sees task seen s) : Sees task next (s.see task next) :=
  ⟨Function.update_self _ _ _, sees.2⟩

/-- The account of a program that answers `value` and has seen more. -/
def Tells {α : Type} (task : Nat) (told : α → Sighting → Prop) (result : Except ReadError α)
    (w : SkillWorld) : Prop :=
  ∃ value seen, result = .ok value ∧ Sees task seen w ∧ told value seen

theorem Tells.done {α : Type} {told : α → Sighting → Prop} {value : α} {seen : Sighting}
    (sees : Sees task seen s) (here : told value seen) :
    (skillProtocol engine config task).Safe (Tells task told) (.done value) s :=
  fun _ others => ⟨value, seen, rfl, sees.stable others, here⟩

/-- The rule of sequencing for such programs. -/
theorem Tells.bind {α β : Type} {told : α → Sighting → Prop} {post : Except ReadError β → SkillWorld → Prop}
    {p : SkillProg α} {f : α → SkillProg β}
    (first : (skillProtocol engine config task).Safe (Tells task told) p s)
    (rest : ∀ value seen t, Sees task seen t → told value seen →
      (skillProtocol engine config task).Safe post (f value) t) :
    (skillProtocol engine config task).Safe post (p.bind f) s := by
  refine first.bind ?_ ?_
  · rintro value t ⟨_, seen, ⟨⟩, sees, here⟩
    exact rest value seen t sees here
  · rintro error t ⟨value, seen, impossible, -⟩
    cases impossible

/-- The rule of a call that only looks. -/
theorem look_safe {β : Type} {op : SkillOp} {post : Except ReadError β → SkillWorld → Prop}
    {f : op.Resp → SkillProg β} {seen : Sighting} (next : Sighting → op.Resp → Sighting)
    (looks : ∀ t answer w, SkillEffect engine task op t answer w →
      w = t.see task (next (t.seen task) answer))
    (sees : Sees task seen s)
    (rest : ∀ answer t, Sees task (next seen answer) t →
      (skillProtocol engine config task).Safe post (f answer) t) :
    (skillProtocol engine config task).Safe post ((call op).bind f) s := by
  intro t others answer w effect
  obtain rfl := looks t answer w effect
  obtain ⟨rfl, unlocked⟩ := sees.stable others
  exact Unmoved.see.pays (rest answer _ (Sees.see ⟨rfl, unlocked⟩))

theorem mem_okLinks {links : List (Except Text Text)} {path : Text} :
    path ∈ links.filterMap Except.toOption ↔ .ok path ∈ links := by
  rw [List.mem_filterMap]
  constructor
  · rintro ⟨link, inside, found⟩
    cases link with
    | ok other => exact Option.some.inj found ▸ inside
    | error other => cases found
  · exact fun inside => ⟨_, inside, rfl⟩

theorem mem_errorLinks {links : List (Except Text Text)} {path : Text} :
    path ∈ (links.filterMap invalidStatus).map (·.path) ↔ .error path ∈ links := by
  rw [List.mem_map]
  constructor
  · rintro ⟨status, member, rfl⟩
    obtain ⟨link, inside, found⟩ := List.mem_filterMap.mp member
    cases link with
    | ok other => cases found
    | error other => exact Option.some.inj found ▸ inside
  · exact fun inside => ⟨_, List.mem_filterMap.mpr ⟨_, inside, rfl⟩, rfl⟩

section Load

variable {seen : Sighting}

theorem readMaps_safe {maps : List Text} (sees : Sees task seen s) :
    (skillProtocol engine config task).Safe (Tells task fun read now => ∃ asked,
        asked.map Prod.fst = maps ∧ now = { seen with notes := seen.notes ++ asked } ∧
        (∀ path, path ∈ read.1 ↔ .ok path ∈ asked.flatMap linksOf) ∧
        ∀ path, path ∈ read.2.map (·.path) ↔ (path, none) ∈ asked ∨ .error path ∈ asked.flatMap linksOf)
      (readMaps maps) s := by
  induction maps generalizing seen s with
  | nil => exact Tells.done sees ⟨[], rfl, by simp, by simp, by simp⟩
  | cons map maps ih =>
    rw [readMaps]
    refine look_safe (fun seen answer => { seen with notes := seen.notes ++ [(map, answer)] })
      (by rintro _ _ _ ⟨⟩; rfl) sees fun answer t sees => ?_
    refine Tells.bind (ih sees) fun read now t sees told => ?_
    obtain ⟨asked, maps, rfl, found, reported⟩ := told
    have links : (answer.map fun content => extractCandidates content map).getD [] =
        linksOf (map, answer) := by
      cases answer <;> rfl
    refine Tells.done sees ⟨(map, answer) :: asked, by rw [List.map_cons, maps], by simp, ?_, ?_⟩
    · intro path
      rw [List.mem_append, found, List.flatMap_cons, List.mem_append, links, mem_okLinks]
    · intro path
      rw [List.map_append, List.map_append, List.mem_append, List.mem_append, reported,
        List.flatMap_cons, List.mem_append, List.mem_cons, links, mem_errorLinks]
      have unread : path ∈ (if answer.isNone then
          [errorStatus map "Vault path could not be read".toList] else []).map (·.path) ↔
          (path, none) = (map, answer) := by
        cases answer <;> simp [errorStatus]
      rw [unread, or_assoc, or_assoc, or_left_comm (a := Except.error path ∈ linksOf (map, answer))]

theorem parseSkill_path {codecs : Codecs} {path source : Text} {skill : LoadedSkill}
    (parsed : parseSkill codecs path source = .ok skill) : skill.path = path := by
  unfold parseSkill at parsed
  simp only [bind, Except.bind] at parsed
  split at parsed
  · cases parsed
  · split at parsed
    · cases parsed
    · split at parsed
      · cases parsed
      · split at parsed
        · cases parsed
        · cases parsed
          rfl

theorem mem_insertSkill {skill other : LoadedSkill} {skills : List LoadedSkill}
    (inside : other ∈ insertSkill skill skills) : other = skill ∨ other ∈ skills := by
  induction skills with
  | nil => exact .inl (List.mem_singleton.mp inside)
  | cons first rest ih =>
    rw [insertSkill] at inside
    split at inside
    · rcases List.mem_cons.mp inside with here | later
      · exact .inl here
      · exact .inr (List.mem_cons_of_mem _ later)
    · split at inside
      · exact List.mem_cons.mp inside
      · rcases List.mem_cons.mp inside with here | later
        · exact .inr (here ▸ List.mem_cons_self)
        · exact (ih later).imp_right (List.mem_cons_of_mem _)

theorem readCandidates_safe {codecs : Codecs} {load : SkillLoad} {paths : List Text}
    (sees : Sees task seen s) (listed : ∀ skill ∈ load.skills, skill.path ∈ load.paths) :
    (skillProtocol engine config task).Safe (Tells task fun read now => ∃ asked : List (Text × Option Text),
        (∀ note ∈ asked, note.1 ∉ config.mapPaths) ∧
        now = { seen with notes := seen.notes ++ asked } ∧
        (∀ path, path ∈ read.paths ↔ path ∈ load.paths ∨ path ∈ paths ∧ path ∉ config.mapPaths) ∧
        ∀ skill ∈ read.skills, skill.path ∈ read.paths)
      (readCandidates codecs config load paths) s := by
  induction paths generalizing load seen s with
  | nil => exact Tells.done sees ⟨[], by simp, by simp, by simp, listed⟩
  | cons path paths ih =>
    rw [readCandidates]
    split
    · rename_i isMap
      refine (ih sees listed).weaken fun result t => ?_
      rintro ⟨read, now, rfl, sees, asked, fresh, rfl, paths, listed⟩
      refine ⟨read, _, rfl, sees, asked, fresh, rfl, fun other => ?_, listed⟩
      rw [paths, List.mem_cons, or_and_right,
        show (other = path ∧ other ∉ config.mapPaths) ↔ False by grind, false_or]
    · rename_i notMap
      refine look_safe (fun seen answer => { seen with notes := seen.notes ++ [(path, answer)] })
        (by rintro _ _ _ ⟨⟩; rfl) sees fun answer t sees => ?_
      have step {next : SkillLoad} (here : ∀ other, other ∈ next.paths ↔ other ∈ load.paths ∨ other = path)
          (listed : ∀ skill ∈ next.skills, skill.path ∈ next.paths) :
          (skillProtocol engine config task).Safe (Tells task fun read now => ∃ asked : List (Text × Option Text),
            (∀ note ∈ asked, note.1 ∉ config.mapPaths) ∧
            now = { seen with notes := seen.notes ++ asked } ∧
            (∀ other, other ∈ read.paths ↔
              other ∈ load.paths ∨ other ∈ path :: paths ∧ other ∉ config.mapPaths) ∧
            ∀ skill ∈ read.skills, skill.path ∈ read.paths)
          (readCandidates codecs config next paths) t := by
        refine (ih sees listed).weaken fun result t => ?_
        rintro ⟨read, now, rfl, sees, asked, fresh, rfl, paths, listed⟩
        refine ⟨read, _, rfl, sees, (path, answer) :: asked, ?_, by simp, fun other => ?_, listed⟩
        · exact List.forall_mem_cons.mpr ⟨notMap, fresh⟩
        · rw [paths, here, List.mem_cons]
          grind
      split
      · rename_i skill parsed
        have atPath : skill.path = path := by
          cases answer with
          | none => cases parsed
          | some content => exact parseSkill_path parsed
        refine step (fun other => by simp [SkillLoad.paths, loadedStatus, atPath]) fun other inside => ?_
        rcases mem_insertSkill inside with rfl | old
        · simp [SkillLoad.paths, loadedStatus]
        · have kept := listed other old
          simp only [SkillLoad.paths, List.map_append, List.mem_append] at kept ⊢
          exact .inl kept
      · refine step (fun other => by simp [SkillLoad.paths, errorStatus]) fun other inside => ?_
        have kept := listed other inside
        simp only [SkillLoad.paths, List.map_append, List.mem_append] at kept ⊢
        exact .inl kept

theorem resolveTargets_safe {paths : List Text} (sees : Sees task seen s) :
    (skillProtocol engine config task).Safe (Tells task fun targets now => ∃ asked,
        asked.map Prod.fst = paths ∧ now = { seen with targets := seen.targets ++ asked } ∧
        ∀ target, target ∈ targets ↔ ∃ path, (path, some target) ∈ asked)
      (resolveTargets paths) s := by
  induction paths generalizing seen s with
  | nil => exact Tells.done sees ⟨[], rfl, by simp, by simp⟩
  | cons path paths ih =>
    rw [resolveTargets]
    refine look_safe (fun seen answer => { seen with targets := seen.targets ++ [(path, answer)] })
      (by rintro _ _ _ ⟨⟩; rfl) sees fun answer t sees => ?_
    refine Tells.bind (ih sees) fun targets now t sees told => ?_
    obtain ⟨asked, paths, rfl, resolved⟩ := told
    refine Tells.done sees ⟨(path, answer) :: asked, by rw [List.map_cons, paths], by simp, fun target => ?_⟩
    rw [List.mem_append, resolved]
    simp only [Option.mem_toList, List.mem_cons, Prod.mk.injEq]
    constructor
    · rintro (here | ⟨other, later⟩)
      · exact ⟨path, .inl ⟨rfl, Eq.symm here⟩⟩
      · exact ⟨other, .inr later⟩
    · rintro ⟨other, ⟨-, here⟩ | later⟩
      · exact .inl here.symm
      · exact .inr ⟨other, later⟩

theorem loadSkills_safe {codecs : Codecs} (sees : Sees task .blank s) :
    (skillProtocol engine config task).Safe (Tells task fun load now => ∃ notes,
        now = { Sighting.blank with notes } ∧
        (∀ path, path ∈ config.mapPaths ∨ path ∈ load.paths ↔
          path ∈ config.mapPaths ∨ now.Linked config path) ∧
        ∀ skill ∈ load.skills, skill.path ∈ load.paths)
      (loadSkills codecs config) s := by
  refine Tells.bind (readMaps_safe sees) fun read now t sees told => ?_
  obtain ⟨asked, maps, rfl, found, reported⟩ := told
  refine (readCandidates_safe sees (by simp)).weaken fun result u => ?_
  rintro ⟨load, now, rfl, sees, more, fresh, rfl, paths, listed⟩
  refine ⟨load, _, rfl, sees, _, rfl, fun path => or_congr_right' fun notMap => ?_, listed⟩
  have known {note : Text × Option Text} (inside : note ∈ asked) : note.1 ∈ config.mapPaths :=
    maps ▸ List.mem_map_of_mem inside
  have links : Sighting.Linked { Sighting.blank with notes := asked ++ more } config path ↔
      .ok path ∈ asked.flatMap linksOf ∨ .error path ∈ asked.flatMap linksOf := by
    rw [List.mem_flatMap, List.mem_flatMap]
    constructor
    · rintro ⟨note, inside, isMap, linked⟩
      rcases List.mem_append.mp inside with here | later
      · exact linked.imp (fun here' => ⟨note, here, here'⟩) fun here' => ⟨note, here, here'⟩
      · exact absurd isMap (fresh note later)
    · rintro (⟨note, here, linked⟩ | ⟨note, here, linked⟩)
      · exact ⟨note, List.mem_append_left _ here, known here, .inl linked⟩
      · exact ⟨note, List.mem_append_left _ here, known here, .inr linked⟩
  have unread : (path, none) ∉ asked := fun inside => notMap (known inside)
  have start : path ∈ (SkillLoad.mk [] read.2).paths ↔ .error path ∈ asked.flatMap linksOf :=
    (reported path).trans (or_iff_right unread)
  refine Iff.trans ?_ links.symm
  rw [paths, start, mem_sortedPaths, found, and_iff_left notMap, or_comm]

theorem gather_safe {codecs : Codecs} (sees : Sees task .blank s) :
    (skillProtocol engine config task).Safe (Tells task fun gathered now =>
      Loaded config now gathered.1 gathered.2) (gather codecs config) s := by
  refine Tells.bind (loadSkills_safe sees) fun load now t sees told => ?_
  obtain ⟨notes, rfl, linked, listed⟩ := told
  have patterns {root : Bool} {targets : List (Text × Option Text)} {more : List Text}
      (asked : targets.map Prod.fst = if root then config.blockedPaths ++ config.mapPaths ++ load.paths else [])
      (found : ∀ target, target ∈ more ↔ ∃ path, (path, some target) ∈ targets) :
      Loaded config ⟨root, notes, targets⟩ load
        (sortedPaths (config.blockedPaths ++ config.mapPaths ++ load.paths ++ more)) := by
    refine ⟨linked, listed, asked, fun path => ?_⟩
    rw [mem_sortedPaths, List.mem_append, found, List.mem_append, List.mem_append, or_assoc, or_assoc]
    rfl
  have effective : (skillProtocol engine config task).Safe
      (Tells task fun paths now => Loaded config now load paths) (effectivePaths config load) t := by
    refine look_safe (fun seen answer => { seen with root := answer }) (by rintro _ _ _ ⟨⟩; rfl) sees
      fun answer t sees => ?_
    cases answer with
    | false =>
      have loaded : Loaded config ⟨false, notes, []⟩ load
        (sortedPaths (config.blockedPaths ++ config.mapPaths ++ load.paths ++ [])) := patterns rfl (by simp)
      rw [List.append_nil] at loaded
      exact Tells.done sees loaded
    | true =>
      refine Tells.bind (resolveTargets_safe sees) fun targets now t sees told => ?_
      obtain ⟨asked, paths, rfl, found⟩ := told
      exact Tells.done sees (patterns paths found)
  exact Tells.bind effective fun paths now t sees loaded => Tells.done sees loaded

theorem created_current {codecs : Codecs} {w : SkillWorld} (created : Created engine codecs config w) :
    Current engine config w ∧ w.writing = none := by
  obtain ⟨load, paths, loaded, reach, rfl⟩ := created
  have safe : (skillProtocol engine config 0).Safe (Tells 0 fun gathered now =>
      Loaded config now gathered.1 gathered.2) (gather codecs config) .blank :=
    gather_safe ⟨rfl, by simp [SkillWorld.blank]⟩
  obtain ⟨t, rfl, told⟩ := safe.alone reach
  obtain ⟨value, seen, ⟨⟩, ⟨rfl, -⟩, here⟩ := told t ⟨rfl, .rfl, fun _ => ⟨rfl, rfl, rfl⟩⟩
  exact ⟨⟨_, rfl, here⟩, rfl⟩

end Load

end Loading

section Tasks

variable {engine : PathEngine} {codecs : Codecs} {config : PrivacyConfig} {task : Nat} {s : SkillWorld}

/-- While a task holds the write lock nobody sees the snapshot, whatever it writes. -/
theorem writing_guar {t : SkillWorld} (seen : t.seen = s.seen) (before : s.writing = some task)
    (after : t.writing = some task) : (skillProtocol engine config task).guar s t := by
  refine ⟨fun other different => ⟨by rw [seen], by rw [before, after], fun holds => ?_⟩, fun _ unlocked => ?_⟩
  · exact absurd (Option.some.inj (before.symm.trans holds)).symm different
  · rw [after] at unlocked
    cases unlocked

theorem publishSkills_safe {load : SkillLoad} {paths : List Text} {now : Sighting}
    (sees : Sees task now s) (loaded : Loaded config now load paths) :
    (skillProtocol engine config task).Safe (fun _ _ => True) (publishSkills load paths) s := by
  intro t others answer w effect
  obtain ⟨seen, unlocked⟩ := sees.stable others
  cases effect with
  | writeSkills alone unread =>
    refine ⟨_, rfl, ⟨fun other different => ⟨rfl, ?_, fun holds => ?_⟩, fun _ => nofun⟩, ?_⟩
    · refine iff_of_false (fun holds => different (Option.some.inj holds).symm) fun holds => ?_
      exact nomatch alone.symm.trans holds
    · exact nomatch alone.symm.trans holds
    intro t others answer w effect
    obtain ⟨seen', lock, -⟩ := others
    replace lock := lock.mpr rfl
    cases effect
    refine ⟨_, rfl, writing_guar rfl lock lock, ?_⟩
    intro u others answer w effect
    obtain ⟨seen'', lock', same⟩ := others
    replace lock' := lock'.mpr lock
    obtain ⟨policy, -, -⟩ := same lock
    cases effect
    refine ⟨_, rfl, writing_guar rfl lock' lock', ?_⟩
    intro v others answer w effect
    obtain ⟨-, lock'', same⟩ := others
    replace lock'' := lock''.mpr lock'
    obtain ⟨policy', skills, published⟩ := same lock'
    cases effect
    refine ⟨_, rfl, ⟨fun other different => ⟨rfl, ?_, fun _ => ⟨rfl, rfl, rfl⟩⟩, fun _ _ => ?_⟩,
      fun _ _ => trivial⟩
    · have dropped : (if v.writing = some task then none else v.writing) = none := if_pos lock''
      refine iff_of_false (fun holds => ?_) fun holds => ?_
      · exact nomatch dropped.symm.trans holds
      · exact different (Option.some.inj (holds.symm.trans lock''))
    · refine ⟨paths, policy'.trans policy, ?_⟩
      have same : v.published = now := published.trans (seen''.trans (seen'.trans seen))
      change Loaded config v.published v.skills paths
      rwa [same, skills]

theorem reloadSkills_safe (unlocked : s.writing ≠ some task) :
    (skillProtocol engine config task).Safe (fun _ _ => True) (reloadSkills codecs config) s := by
  intro t others answer w effect
  cases effect
  have sees : Sees task .blank { t.see task .blank with reloading := some task } :=
    ⟨Function.update_self _ _ _, fun holds => unlocked (others.2.1.mp holds)⟩
  refine Unmoved.pays ⟨fun _ other => Function.update_of_ne other _ _, rfl, rfl, rfl, rfl⟩ ?_
  change (skillProtocol engine config task).Safe _ ((gather codecs config).bind _) _
  refine Tells.bind (gather_safe sees) fun gathered now t sees loaded => ?_
  refine (publishSkills_safe sees loaded).bind (fun _ u _ => ?_) fun _ _ _ => trivial
  intro v others answer w effect
  cases effect
  exact Unmoved.pays ⟨fun _ _ => rfl, rfl, rfl, rfl, rfl⟩ fun _ _ => trivial

theorem snapshot_safe {reply : SkillLoad → SkillReply} (unlocked : s.writing ≠ some task) :
    (skillProtocol engine config task).Safe (fun _ _ => True)
      (do
        call .readSkills
        let load ← call .snapshot
        call .dropSkills
        return reply load) s := by
  intro t others answer w effect
  replace unlocked : t.writing ≠ some task := fun holds => unlocked (others.2.1.mp holds)
  cases effect
  refine Unmoved.pays ⟨fun _ _ => rfl, rfl, rfl, rfl, rfl⟩ ?_
  intro u others answer w effect
  replace unlocked : u.writing ≠ some task := fun holds => unlocked (others.2.1.mp holds)
  cases effect
  refine Unmoved.refl.pays ?_
  intro v others answer w effect
  replace unlocked : v.writing ≠ some task := fun holds => unlocked (others.2.1.mp holds)
  cases effect
  exact Unmoved.pays ⟨fun _ _ => rfl, if_neg unlocked, rfl, rfl, rfl⟩ fun _ _ => trivial

/-- A program that only reads notes, and ends when the policy denies a path. -/
def Reader {α : Type} : SkillProg α → Prop
  | .done _ | .fail _ => True
  | Prog.call (.isBlocked _) next => next true = .fail .blocked ∧ Reader (next false)
  | Prog.call (.resolveNote _) next | Prog.call (.readFile _) next => ∀ answer, Reader (next answer)
  | Prog.call _ _ => False

theorem Reader.bind {α β : Type} {p : SkillProg α} {f : α → SkillProg β} (first : Reader p)
    (rest : ∀ value, Reader (f value)) : Reader (p.bind f) := by
  induction p with
  | done value => exact rest value
  | fail error => trivial
  | call op next ih =>
    cases op with
    | isBlocked path =>
      refine ⟨?_, ih false first.2⟩
      change (next true).bind f = _
      rw [first.1]
      rfl
    | resolveNote path => exact fun answer => ih answer (first answer)
    | readFile path => exact fun answer => ih answer (first answer)
    | _ => exact first.elim

theorem Reader.next {α : Type} {op : SkillOp} {next : op.Resp → SkillProg α} (reader : Reader (Prog.call op next))
    (answer : op.Resp) : Reader (next answer) := by
  cases op with
  | isBlocked path =>
    cases answer with
    | false => exact reader.2
    | true => exact reader.1 ▸ trivial
  | resolveNote path => exact reader answer
  | readFile path => exact reader answer
  | _ => exact reader.elim

theorem refuseBlocked_reader (path : Text) : Reader (refuseBlocked path) := ⟨rfl, trivial⟩

theorem readNote_reader (isIgnored : Text → Bool) (input : Text) : Reader (readNote isIgnored input) := by
  unfold readNote
  cases normalizeVaultPath input with
  | error error => trivial
  | ok normalized =>
    refine (refuseBlocked_reader normalized).bind fun _ => ?_
    split
    · trivial
    split
    · trivial
    intro answer
    rcases answer with _ | (_ | relative)
    · trivial
    · rintro (_ | content)
      · trivial
      · exact (refuseBlocked_reader normalized).bind fun _ => trivial
    · refine (refuseBlocked_reader relative).bind fun _ => ?_
      split
      · trivial
      rintro (_ | content)
      · trivial
      · exact (refuseBlocked_reader normalized).bind fun _ =>
          (refuseBlocked_reader relative).bind fun _ => trivial

theorem Reader.safe {α : Type} {p : SkillProg α} (reader : Reader p) :
    (skillProtocol engine config task).Safe (fun _ _ => True) p s := by
  induction p generalizing s with
  | done value => exact fun _ _ => trivial
  | fail error => exact fun _ _ => trivial
  | call op next ih =>
    intro t others answer w effect
    have same : w = t := by
      cases op with
      | isBlocked path => cases effect; rfl
      | resolveNote path => cases effect; rfl
      | readFile path => cases effect; rfl
      | _ => exact reader.elim
    subst same
    exact Unmoved.refl.pays (ih answer (reader.next answer))

theorem task_safe (threads : SkillTask) (unlocked : s.writing ≠ some task) :
    (skillProtocol engine config task).Safe (fun _ _ => True) (threads.program codecs config) s := by
  cases threads with
  | reload => exact reloadSkills_safe unlocked
  | prompts => exact snapshot_safe unlocked
  | status => exact snapshot_safe unlocked
  | read isIgnored input => exact (readNote_reader isIgnored input).safe

end Tasks

section Runs

variable {engine : PathEngine} {codecs : Codecs} {config : PrivacyConfig} {threads : Nat → SkillTask}
  {current : Nat → SkillProg SkillReply} {start w : SkillWorld}

/-- While no reload swaps, the policy in force is the one that was built for the published
snapshot. -/
theorem pool_current (created : Created engine codecs config start)
    (pool : Pool (SkillEffect engine) (fun i => (threads i).program codecs config) start current w)
    (settled : w.writing = none) : Current engine config w := by
  obtain ⟨fresh, unlocked⟩ := created_current created
  obtain ⟨t, rfl, steps, -⟩ := Protocol.Pool.safe
    (fun i => (rfl : (skillProtocol engine config i).view = id))
    (fun different guar => guar.1 _ different.symm)
    (fun i => task_safe (threads i) (by rw [unlocked]; nofun)) pool
  have held : Settled engine config t := by
    clear pool settled
    induction steps with
    | refl => exact fun _ => fresh
    | tail _ step ih =>
      obtain ⟨i, guar⟩ := step
      exact guar.2 ih
  exact held settled

/-- What is private once the snapshot is published: the skills, the maps, every candidate that
was reported and the canonical targets that existed. -/
def SkillWorld.Private (w : SkillWorld) (config : PrivacyConfig) (path : Text) : Prop :=
  (∃ skill ∈ w.skills.skills, skill.path = path) ∨ path ∈ config.mapPaths ∨ path ∈ w.skills.paths ∨
    w.published.Target path

theorem isBlocked_new {patterns : List Text} {path : Text} :
    (PathPolicy.new engine patterns).isBlocked engine path = true ↔
      ∃ pattern ∈ patterns, (PathPolicy.new engine [pattern]).isBlocked engine path = true := by
  simp [PathPolicy.isBlocked, PathPolicy.new, List.any_map, List.any_eq_true]

theorem isBlocked_single {pattern path : Text} :
    (PathPolicy.new engine [pattern]).isBlocked engine path = true ↔
      (compileDenyPattern engine pattern).isSome →
        engine.nfc path ∈ (denyPatternSource engine (engine.nfc pattern)).language := by
  rw [← Regex.isMatch_iff]
  unfold PathPolicy.isBlocked PathPolicy.new compileDenyPattern
  cases fits : engine.fits (denyPatternSource engine (engine.nfc pattern)) <;> simp [fits]

theorem isBlocked_self (lawful : engine.Lawful) (path : Text) :
    (PathPolicy.new engine [path]).isBlocked engine path = true :=
  isBlocked_single.mpr fun _ => mem_denyPatternSource_self lawful _

/-- What is private is denied while no reload swaps, after whatever reloads and reads, and so a
read that checks such a path then is refused. -/
theorem skills_private (lawful : engine.Lawful) (created : Created engine codecs config start)
    (pool : Pool (SkillEffect engine) (fun i => (threads i).program codecs config) start current w)
    (settled : w.writing = none) :
    (∀ path, w.Private config path → w.policy.isBlocked engine path = true) ∧
      (w.published.root = true → ∀ path ∈ config.blockedPaths ++ config.mapPaths ++ w.skills.paths,
        ∃ answer, (path, answer) ∈ w.published.targets) ∧
      ∀ i isIgnored input, threads i = .read isIgnored input → ∀ path next,
        current i = Prog.call (.isBlocked path) next → w.Private config path → ∀ answer after,
          SkillEffect engine i (.isBlocked path) w answer after → next answer = .fail .blocked := by
  obtain ⟨patterns, policy, loaded⟩ := pool_current created pool settled
  have denied {path : Text} (isPrivate : w.Private config path) : w.policy.isBlocked engine path = true := by
    rw [policy, isBlocked_new]
    refine ⟨path, (loaded.patterns path).mpr (.inr ?_), isBlocked_self lawful path⟩
    rcases isPrivate with ⟨skill, member, rfl⟩ | other
    · exact .inr (.inl (loaded.listed skill member))
    · exact other
  refine ⟨fun path => denied, fun root path inside => ?_, ?_⟩
  · have asked := loaded.asked
    rw [if_pos root] at asked
    rw [← asked] at inside
    obtain ⟨⟨_, answer⟩, member, rfl⟩ := List.mem_map.mp inside
    exact ⟨answer, member⟩
  · intro i isIgnored input isRead path next calls isPrivate answer after effect
    have reader : (∃ isIgnored input, threads i = .read isIgnored input) → Reader (current i) :=
      pool.forall_current
        (fun i p => (∃ isIgnored input, threads i = .read isIgnored input) → Reader p)
        (by rintro i ⟨isIgnored, input, isRead⟩; rw [isRead]; exact readNote_reader isIgnored input)
        (fun answer reader isRead => (reader isRead).next answer) i
    have checks := reader ⟨isIgnored, input, isRead⟩
    rw [calls] at checks
    cases effect
    rw [denied isPrivate]
    exact checks.1

/-- Equal up to NFC and case. -/
def PathEngine.Same (engine : PathEngine) (path other : Text) : Prop :=
  (engine.nfc path).map engine.fold = (engine.nfc other).map engine.fold

instance (engine : PathEngine) (path other : Text) : Decidable (engine.Same path other) :=
  inferInstanceAs (Decidable (_ = _))

/-- What a policy is to deny besides the configured patterns: the maps, the reported candidates
and the canonical targets. -/
def SkillWorld.Named (w : SkillWorld) (engine : PathEngine) (config : PrivacyConfig) (path : Text) : Prop :=
  (PathPolicy.new engine config.blockedPaths).isBlocked engine path = true ∨
    ∃ other, (other ∈ config.mapPaths ∨ other ∈ w.skills.paths ∨ w.published.Target other) ∧
      engine.Same path other

/-- What was seen adds a path to the deny list. -/
def Sighting.Adds (seen : Sighting) (config : PrivacyConfig) (path : Text) : Prop :=
  path ∈ config.mapPaths ∨ seen.Linked config path ∨ seen.Target path

/-- A path that is no literal as a pattern. -/
def PathEngine.Globs (engine : PathEngine) (path : Text) : Prop :=
  '*' ∈ engine.nfc path ∨ (compileDenyPattern engine path).isNone

/-- The paths that globs among the added paths deny are denied or added anyway. -/
def Sighting.Harmless (seen : Sighting) (engine : PathEngine) (config : PrivacyConfig) : Prop :=
  ∀ path, seen.Adds config path → engine.Globs path → ∀ denied,
    (PathPolicy.new engine [path]).isBlocked engine denied = true →
      (PathPolicy.new engine config.blockedPaths).isBlocked engine denied = true ∨
        ∃ other, seen.Adds config other ∧ engine.Same denied other

theorem isBlocked_literal {pattern path : Text} (literal : ¬ engine.Globs pattern) :
    (PathPolicy.new engine [pattern]).isBlocked engine path = true ↔ engine.Same path pattern := by
  obtain ⟨noStar, compiles⟩ := not_or.mp literal
  rw [Option.isNone_iff_eq_none, ← ne_eq, ← Option.isSome_iff_ne_none] at compiles
  rw [isBlocked_single, forall_prop_of_true compiles, mem_denyPatternSource_plain noStar]
  rfl

theorem Loaded.adds {seen : Sighting} {load : SkillLoad} {patterns : List Text} {path : Text}
    (loaded : Loaded config seen load patterns) :
    (path ∈ config.mapPaths ∨ path ∈ load.paths ∨ seen.Target path) ↔ seen.Adds config path := by
  rw [← or_assoc, loaded.linked, or_assoc]
  rfl

/-- The policy denies nothing but what it is to deny just if the globs among the paths that the
maps add are harmless. -/
theorem skills_deny_only_iff (created : Created engine codecs config start)
    (pool : Pool (SkillEffect engine) (fun i => (threads i).program codecs config) start current w)
    (settled : w.writing = none) :
    (∀ path, w.policy.isBlocked engine path = true → w.Named engine config path) ↔
      w.published.Harmless engine config := by
  obtain ⟨patterns, policy, loaded⟩ := pool_current created pool settled
  have named {path : Text} : w.Named engine config path ↔
      (PathPolicy.new engine config.blockedPaths).isBlocked engine path = true ∨
        ∃ other, w.published.Adds config other ∧ engine.Same path other :=
    or_congr_right (exists_congr fun other => and_congr_left' loaded.adds)
  have inForce {path : Text} : w.policy.isBlocked engine path = true ↔ ∃ pattern,
      (pattern ∈ config.blockedPaths ∨ w.published.Adds config pattern) ∧
        (PathPolicy.new engine [pattern]).isBlocked engine path = true := by
    rw [policy, isBlocked_new]
    exact exists_congr fun pattern => and_congr_left' ((loaded.patterns pattern).trans
      (or_congr_right loaded.adds))
  constructor
  · intro only pattern adds _ denied blocked
    exact named.mp (only denied (inForce.mpr ⟨pattern, .inr adds, blocked⟩))
  · intro harmless path blocked
    obtain ⟨pattern, configured | adds, blocked⟩ := inForce.mp blocked
    · exact .inl (isBlocked_new.mpr ⟨pattern, configured, blocked⟩)
    · rw [named]
      by_cases globs : engine.Globs pattern
      · exact harmless pattern adds globs path blocked
      · exact .inr ⟨pattern, adds, (isBlocked_literal globs).mp blocked⟩

end Runs

section Examples

/-- A vault that stays as it is. -/
structure StillVault where
  note : Text → Option Text
  root : Bool
  target : Text → Option Text

/-- The calls on such a vault, those for a lock as long as it is free. -/
def StillVault.run (vault : StillVault) (engine : PathEngine) (task : Nat) :
    (op : SkillOp) → SkillWorld → Option (op.Resp × SkillWorld)
  | .readNote path, w => some (vault.note path, w.see task { w.seen task with
      notes := (w.seen task).notes ++ [(path, vault.note path)] })
  | .canonicalRoot, w => some (vault.root, w.see task { w.seen task with root := vault.root })
  | .resolveTarget path, w => some (vault.target path, w.see task { w.seen task with
      targets := (w.seen task).targets ++ [(path, vault.target path)] })
  | .lockReload, w =>
    if w.reloading = none then some ((), { w.see task .blank with reloading := some task }) else none
  | .unlockReload, w => some ((), { w with reloading := none })
  | .writeSkills, w =>
    if w.writing = none ∧ w.reading = [] then some ((), { w with writing := some task }) else none
  | .readSkills, w => if w.writing = none then some ((), { w with reading := task :: w.reading }) else none
  | .dropSkills, w => some ((), { w with
      writing := if w.writing = some task then none else w.writing
      reading := w.reading.erase task })
  | .replacePolicy patterns, w => some ((), { w with policy := .new engine patterns })
  | .publish load, w => some ((), { w with
      skills := load
      published := w.seen task })
  | .snapshot, w => some (w.skills, w)
  | .isBlocked path, w => some (w.policy.isBlocked engine path, w)
  | .resolveNote path, w => some ((vault.note path).map fun _ => vault.target path, w)
  | .readFile path, w => some (vault.note path, w)

theorem StillVault.run_sound {vault : StillVault} {engine : PathEngine} {task : Nat} (op : SkillOp)
    (w : SkillWorld) (answer : op.Resp) (after : SkillWorld)
    (ran : vault.run engine task op w = some (answer, after)) : SkillEffect engine task op w answer after := by
  cases op with
  | readNote path => cases ran; exact .readNote w path _
  | canonicalRoot => cases ran; exact .canonicalRoot w _
  | resolveTarget path => cases ran; exact .resolveTarget w path _
  | lockReload =>
    obtain ⟨free, same⟩ := Option.ite_none_right_eq_some.mp ran
    cases same
    exact .lockReload free
  | unlockReload => cases ran; exact .unlockReload w
  | writeSkills =>
    obtain ⟨⟨alone, unread⟩, same⟩ := Option.ite_none_right_eq_some.mp ran
    cases same
    exact .writeSkills alone unread
  | readSkills =>
    obtain ⟨settled, same⟩ := Option.ite_none_right_eq_some.mp ran
    cases same
    exact .readSkills settled
  | dropSkills => cases ran; exact .dropSkills w
  | replacePolicy patterns => cases ran; exact .replacePolicy w patterns
  | publish load => cases ran; exact .publish w load
  | snapshot => cases ran; exact .snapshot w
  | isBlocked path => cases ran; exact .isBlocked w path
  | resolveNote path => cases ran; exact .resolveNote w path _
  | readFile path => cases ran; exact .readFile w path _

/-- What the runtime starts with on such a vault. -/
def StillVault.create (vault : StillVault) (engine : PathEngine) (codecs : Codecs) (config : PrivacyConfig) :
    Option SkillWorld :=
  match (gather codecs config).exec (vault.run engine 0) .blank with
  | some (.ok (load, paths), loaded) => some { SkillWorld.blank with
      policy := .new engine paths
      skills := load
      seen := loaded.seen
      published := loaded.seen 0 }
  | _ => none

theorem StillVault.create_created {vault : StillVault} {engine : PathEngine} {codecs : Codecs}
    {config : PrivacyConfig} {w : SkillWorld} (created : vault.create engine codecs config = some w) :
    Created engine codecs config w := by
  unfold create at created
  split at created
  · rename_i load paths loaded ran
    cases created
    exact ⟨load, paths, loaded, Prog.exec_reach run_sound ran, rfl⟩
  · cases created

/-- A map that links to a folder of notes by a star. -/
def starVault : StillVault :=
  ⟨fun path => if path = "Skills.md".toList then some "[[Notes/*]]".toList else none, true, fun _ => none⟩

def starConfig : PrivacyConfig := ⟨[], ["Skills.md".toList]⟩

/-- What the star denies but nothing names. -/
theorem star_unnamed {w : SkillWorld} (reported : ∀ path ∈ w.skills.paths, path = "Notes/*.md".toList ∨
      path = "Walk.md".toList)
    (targets : ∀ path, w.published.Target path → path = "Walk.md".toList) :
    ¬ w.Named asciiEngine starConfig "Notes/a.md".toList := by
  rintro (configured | ⟨other, isMap | isReported | isTarget, same⟩)
  · exact absurd configured (by decide)
  · obtain rfl := List.mem_singleton.mp isMap
    exact absurd same (by decide)
  · rcases reported other isReported with rfl | rfl <;> exact absurd same (by decide)
  · obtain rfl := targets other isTarget
    exact absurd same (by decide)

theorem starVault_created : ∃ w, starVault.create asciiEngine plainCodecs starConfig = some w ∧
    w.policy.isBlocked asciiEngine "Notes/a.md".toList = true ∧ w.skills.paths = ["Notes/*.md".toList] ∧
    w.published.targets = [("Skills.md".toList, none), ("Notes/*.md".toList, none)] :=
  option_any_decide.mp (by decide +kernel)

/-- The star of the link denies a note that nothing names. -/
theorem star_link_denies : ¬ ∀ engine : PathEngine, engine.Lawful →
    ∀ codecs config (threads : Nat → SkillTask) start current w, Created engine codecs config start →
      Pool (SkillEffect engine) (fun i => (threads i).program codecs config) start current w →
        w.writing = none → ∀ path, w.policy.isBlocked engine path = true → w.Named engine config path := by
  intro only
  obtain ⟨w, created, blocked, reported, targets⟩ := starVault_created
  have created := StillVault.create_created created
  refine star_unnamed (fun path inside => ?_) (fun path => ?_) (only asciiEngine asciiEngine_lawful plainCodecs
    starConfig (fun _ => .prompts) w _ w created .start (created_current created).2 "Notes/a.md".toList blocked)
  · rw [reported] at inside
    exact .inl (List.mem_singleton.mp inside)
  · rintro ⟨alias', target⟩
    rw [targets] at target
    simp at target

/-- The vault once the map names a skill as well. -/
def walkVault : StillVault where
  note path :=
    if path = "Skills.md".toList then some "[[Notes/*]] [[Walk]]".toList
    else if path = "Walk.md".toList then some "---\nname: walk\ndescription: Out\n---\nGo.".toList
    else none
  root := true
  target path := if path = "Walk.md".toList then some path else none

/-- A reload, a reader of the new skill, and others who ask for the prompts. -/
def walkTasks : Nat → SkillTask
  | 0 => .reload
  | 1 => .read (fun _ => false) "Walk.md".toList
  | _ => .prompts

/-- The reader has passed the checks before the reload, and comes to those after it. -/
def walkTurns : List (Nat × Nat) := [(1, 3), (0, 8), (2, 3), (0, 5), (1, 1)]

/-- The path that a program is about to check. -/
def checkedPath {α : Type} : SkillProg α → Option Text
  | Prog.call (.isBlocked path) _ => some path
  | _ => none

theorem checkedPath_eq_some {α : Type} {p : SkillProg α} {path : Text} (checked : checkedPath p = some path) :
    ∃ next, p = Prog.call (.isBlocked path) next := by
  unfold checkedPath at checked
  split at checked
  · cases checked
    exact ⟨_, rfl⟩
  · cases checked

/-- The tasks beside each other, in turns. -/
theorem walkTasks_run : ∃ start current w, Created asciiEngine plainCodecs starConfig start ∧
    Pool (SkillEffect asciiEngine) (fun i => (walkTasks i).program plainCodecs starConfig) start current w ∧
    w.writing = none ∧ (∃ reply, current 0 = .done reply) ∧
    (∃ next, current 1 = Prog.call (.isBlocked "Walk.md".toList) next) ∧
    w.policy.isBlocked asciiEngine "Notes/a.md".toList = true ∧
    w.skills.skills = [⟨"walk".toList, "Out".toList, "Walk.md".toList, "Go.".toList⟩] ∧
    w.skills.paths = ["Notes/*.md".toList, "Walk.md".toList] ∧
    w.published.targets = [("Skills.md".toList, none), ("Notes/*.md".toList, none),
      ("Walk.md".toList, some "Walk.md".toList)] := by
  have ends : ((starVault.create asciiEngine plainCodecs starConfig).any fun start =>
      (follow (walkVault.run asciiEngine) walkTurns (fun i => (walkTasks i).program plainCodecs starConfig)
        start).any fun reached => decide (reached.2.writing = none ∧ (reached.1 0).returned.isSome ∧
          checkedPath (reached.1 1) = some "Walk.md".toList ∧
          reached.2.policy.isBlocked asciiEngine "Notes/a.md".toList = true ∧
          reached.2.skills.skills = [⟨"walk".toList, "Out".toList, "Walk.md".toList, "Go.".toList⟩] ∧
          reached.2.skills.paths = ["Notes/*.md".toList, "Walk.md".toList] ∧
          reached.2.published.targets = [("Skills.md".toList, none), ("Notes/*.md".toList, none),
            ("Walk.md".toList, some "Walk.md".toList)])) = true := by
    decide +kernel
  obtain ⟨start, created, ends⟩ := (Option.any_eq_true ..).mp ends
  obtain ⟨⟨current, w⟩, ran, settled, returned, checked, told⟩ := option_any_decide.mp ends
  obtain ⟨reply, returned⟩ := Option.isSome_iff_exists.mp returned
  have sound (i : Nat) (op : SkillOp) (w : SkillWorld) (answer : op.Resp) (t : SkillWorld) (_ : True)
      (ran : walkVault.run asciiEngine i op w = some (answer, t)) : SkillEffect asciiEngine i op w answer t ∧ True :=
    ⟨StillVault.run_sound op w answer t ran, trivial⟩
  obtain ⟨past, -, pool⟩ := recording_schedule sound trivial ran
  exact ⟨start, current, w, StillVault.create_created created, recording_pool pool, settled,
    ⟨reply, Prog.returned_eq_some.mp returned⟩, checkedPath_eq_some checked, told⟩

theorem skills_private_star : ∃ start current w, Created asciiEngine plainCodecs starConfig start ∧
    Pool (SkillEffect asciiEngine) (fun i => (walkTasks i).program plainCodecs starConfig) start current w ∧
    (∃ reply, current 0 = .done reply) ∧ (∃ skill ∈ w.skills.skills, skill.path = "Walk.md".toList) ∧
    w.policy.isBlocked asciiEngine "Walk.md".toList = true ∧
    ∃ next, current 1 = Prog.call (.isBlocked "Walk.md".toList) next ∧ ∀ answer after,
      SkillEffect asciiEngine 1 (.isBlocked "Walk.md".toList) w answer after → next answer = .fail .blocked := by
  obtain ⟨start, current, w, created, pool, settled, reloaded, ⟨next, checks⟩, -, skills, -⟩ := walkTasks_run
  have loaded : ∃ skill ∈ w.skills.skills, skill.path = "Walk.md".toList := by
    rw [skills]
    exact ⟨_, List.mem_singleton_self _, rfl⟩
  obtain ⟨denied, -, refused⟩ := skills_private asciiEngine_lawful created pool settled
  exact ⟨start, current, w, created, pool, reloaded, loaded, denied _ (.inl loaded), next, checks,
    refused 1 _ _ rfl _ next checks (.inl loaded)⟩

/-- The reload has left the star in force, which is not harmless. -/
theorem skills_deny_only_star : ∃ start current w, Created asciiEngine plainCodecs starConfig start ∧
    Pool (SkillEffect asciiEngine) (fun i => (walkTasks i).program plainCodecs starConfig) start current w ∧
    (∃ reply, current 0 = .done reply) ∧ w.skills.skills ≠ [] ∧ ¬ w.published.Harmless asciiEngine starConfig := by
  obtain ⟨start, current, w, created, pool, settled, reloaded, -, blocked, skills, reported, targets⟩ := walkTasks_run
  refine ⟨start, current, w, created, pool, reloaded, by rw [skills]; exact List.cons_ne_nil _ _, fun harmless => ?_⟩
  have named := (skills_deny_only_iff created pool settled).mpr harmless _ blocked
  refine star_unnamed (fun path inside => ?_) (fun path => ?_) named
  · rw [reported] at inside
    simpa using inside
  · rintro ⟨alias', target⟩
    rw [targets] at target
    have here : alias' = "Walk.md".toList ∧ path = "Walk.md".toList := by simpa using target
    exact here.2

end Examples
end SecondBrain
