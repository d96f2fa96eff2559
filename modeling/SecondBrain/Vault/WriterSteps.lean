import SecondBrain.Library.FileSystemSteps
import SecondBrain.Vault.WriterOutline

set_option autoImplicit false

/-! One mutation on its own, whatever fails: what the files hold in each of its phases. -/

namespace SecondBrain

open FileSystem (IoError FsPath FsOp Tree Name Content special)
open FileSystem.Tree (Touches Plain keyOf)
open Protocol

variable {fold : Name → Name}

/-- The key of a vault path, below the key of the vault root. -/
def keyBelow (fold : Name → Name) (home : List Name) (path : Text) : List Name :=
  home ++ (components path).map fold

/-- What the files hold in a phase, but for temporary files. -/
def Phase.notes (fold : Name → Name) (home : List Name) (path : Text)
    (before : List Name → Option Content) : Phase → List Name → Option Content
  | .looking .. | .drafting .. => before
  | .published _ _ _ text | .wrote _ text =>
    Function.update before (keyBelow fold home path) (some (.utf8 text))
  | .linked current target | .stranded current target =>
    Function.update before (keyBelow fold home target) (some (.utf8 current))
  | .trashed current target =>
    Function.update (Function.update before (keyBelow fold home target) (some (.utf8 current)))
      (keyBelow fold home path) none
  | .removed _ => Function.update before (keyBelow fold home path) none

/-- The places of the temporary files. -/
def Draft (w : World fold) (key : List Name) : Prop :=
  ∃ dir name id, id ∈ w.drawn ∧ key = dir ++ [fold (tempName name id)]

def lastVerdict (checks : Checks) (path : Text) : Option Bool :=
  (checks.find? fun check => check.1 = path).map Prod.snd

/-- What is among the last answers, none of which blocks, was last allowed. -/
theorem lastVerdict_of_recent {recent more : Checks} (clear : ∀ check ∈ recent, check.2 = false)
    {path : Text} (asked : (path, false) ∈ recent) : lastVerdict (recent ++ more) path = some false := by
  induction recent with
  | nil => cases asked
  | cons check recent ih =>
    unfold lastVerdict
    rw [List.cons_append, List.find?_cons]
    by_cases same : check.1 = path
    · simp [same, clear check List.mem_cons_self]
    · simp only [same, decide_false]
      refine ih (fun other inside => clear other (List.mem_cons_of_mem _ inside)) ?_
      refine (List.mem_cons.mp asked).resolve_left fun here => same ?_
      rw [← here]

/-- The policy allowed the vault path `aim` and its canonical path, which lead to `key`, when
it was last asked. -/
def Cleared (vaultRoot : FsPath) (aim : Text) (key : List Name) (w : World fold) : Prop :=
  ∃ identity resolved, Tree.canonicalVaultPath w.tree vaultRoot aim = .ok (identity, resolved) ∧
    resolved.map fold = key ∧ lastVerdict w.checks aim = some false ∧
    lastVerdict w.checks identity = some false

/-- A place that a mutation may touch: below the canonical root, without links on its path, and
either one of its temporary files or a target that is cleared. -/
def Confined (vaultRoot : FsPath) (aims : Text → Prop) (hidden : List Name → Prop) (w : World fold)
    (key : List Name) : Prop :=
  ∃ real rest, w.tree.canonicalize vaultRoot = .ok real ∧ rest ≠ [] ∧ key = real.map fold ++ rest ∧
    w.tree.Plain key ∧
    (hidden key ∨ ∃ aim, aims aim ∧ rest = (components aim).map fold ∧ Cleared vaultRoot aim key w)

/-- One mutation, from the world it starts in, with the calls that `handler` allows. The ids
that are drawn for it are fresh: no temporary file made with one is named like a component of
its path. -/
structure Attempt (fold : Name → Name) where
  setting : Setting fold
  task : Nat
  handler : Handler VaultOp VaultOp.Resp (World fold)
  sound : ∀ {op w answer after}, handler op w answer after → VaultEffect setting task op w answer after
  writer : VaultWriter
  path : Text
  base : Option Text
  mutation : Mutation
  start : World fold
  real : FsPath
  normal : Normalized path
  named : path ≠ []
  rooted : start.tree.canonicalize writer.options.vaultRoot = .ok real
  undrawn : start.drawn = []
  fresh : ∀ w id, setting.fresh w id → ∀ name, ∀ other ∈ components path,
    fold (tempName name id) ≠ fold other

namespace Attempt

variable (a : Attempt fold)

def home : List Name := a.real.map fold

def key : List Name := keyBelow fold a.home a.path

def before : List Name → Option Content := a.start.tree.content

/-- The text that was read is the old content. -/
def Known (known : Option Text) : Prop :=
  ∀ current, known = some current → a.before a.key = some (.utf8 current)

/-- The vault paths that the mutation may publish at. -/
def Aims (aim : Text) : Prop := aim = a.path ∨ ∃ id, a.writer.Destined a.path id aim

/-- Where the temporary file of the mutation lies. -/
def Drafted (w : World fold) (id : Option Text) (temp : FsPath) : Prop :=
  ∃ absolute drawn, id = some drawn ∧ drawn ∈ w.drawn ∧ temp = draftPath absolute drawn ∧
    Target a.writer.options.vaultRoot a.path absolute w.tree ∧ w.tree.Plain (temp.map fold) ∧
    a.before (temp.map fold) = none

/-- A place in the trash that the mutation may choose, and that was free. -/
def Chosen (target : Text) : Prop :=
  (∃ id, a.writer.Destined a.path id target) ∧ a.before (keyBelow fold a.home target) = none

/-- What is known in a phase besides the files. -/
def Facts (w : World fold) : Phase → Prop
  | .looking known id => a.Known known ∧ ∀ drawn, id = some drawn → drawn ∈ w.drawn
  | .drafting known id temp file text => a.Known known ∧ a.Drafted w id temp ∧
      file.map fold = temp.map fold ∧ ∃ held, w.tree.content (temp.map fold) = some held ∧
        ∀ written, text = some written →
          Intended a.writer a.base a.mutation known written ∧ held = .utf8 written
  | .published known id temp text => a.Known known ∧ a.Drafted w id temp ∧
      Intended a.writer a.base a.mutation known text ∧ (known = none → a.before a.key = none)
  | .wrote known text => a.Known known ∧ Intended a.writer a.base a.mutation known text ∧
      (known = none → a.before a.key = none)
  | .linked current target => a.Known (some current) ∧ a.mutation = .delete ∧
      a.Chosen target ∧ Cleared a.writer.options.vaultRoot a.path a.key w
  | .trashed current target => a.Known (some current) ∧ a.mutation = .delete ∧ a.Chosen target
  | .stranded current target => a.Known (some current) ∧ a.mutation = .delete ∧ a.Chosen target ∧
      ∃ file w error after, a.handler (.fs (.removeFile file)) w (.error error) after
  | .removed current => a.Known (some current) ∧ a.mutation = .hardDelete

structure At (phase : Phase) (checks : Checks) (w : World fold) : Prop where
  after : Tree.After a.writer.options.vaultRoot a.start.tree w.tree
  audit : w.audit = a.start.audit
  checks : w.checks = checks
  fresh : ∀ id ∈ w.drawn, ∀ name, ∀ other ∈ components a.path, fold (tempName name id) ≠ fold other
  files : ∀ key, w.tree.content key = phase.notes fold a.home a.path a.before key ∨
    phase.notes fold a.home a.path a.before key = none ∧ Draft w key
  facts : a.Facts w phase

/-- What every call of the mutation owes. -/
structure Owes (w after : World fold) : Prop where
  grows : Tree.After a.writer.options.vaultRoot w.tree after.tree
  confined : ∀ key, after.tree.file key ≠ w.tree.file key →
    Confined a.writer.options.vaultRoot a.Aims (Draft after) w key
  phase : ∃ phase checks, a.At phase checks after

abbrev protocol : Protocol VaultOp VaultOp.Resp (World fold) (World fold) :=
  sequential a.handler a.Owes

variable {a} {phase : Phase} {checks : Checks} {w : World fold}

theorem At.rooted (at' : a.At phase checks w) :
    w.tree.canonicalize a.writer.options.vaultRoot = .ok a.real := at'.after.root a.rooted

theorem At.target_key (at' : a.At phase checks w) {aim : Text} {absolute : FsPath}
    (target : Target a.writer.options.vaultRoot aim absolute w.tree) :
    absolute.map fold = keyBelow fold a.home aim := by
  obtain ⟨real, below, rooted, rfl, same⟩ := target.below
  obtain rfl : a.real = real := Except.ok.inj (at'.rooted.symm.trans rooted)
  simp [keyBelow, home, same]

theorem At.key_apart (at' : a.At phase checks w) : ¬ Draft w a.key := by
  rintro ⟨dir, name, id, drawn, same⟩
  have nonempty := a.normal.components_ne_nil a.named
  obtain ⟨front, last, split⟩ := List.eq_nil_or_concat (components a.path) |>.resolve_left nonempty
  rw [List.concat_eq_append] at split
  rw [key, keyBelow, split, List.map_append, ← List.append_assoc] at same
  have ends := (List.cons.inj (List.append_inj' same rfl).2).1
  exact at'.fresh id drawn name last (by simp [split]) ends.symm

/-- What the file at the target holds in a phase. -/
theorem At.at_key (at' : a.At phase checks w) :
    w.tree.content a.key = phase.notes fold a.home a.path a.before a.key :=
  (at'.files a.key).resolve_right fun draft => at'.key_apart draft.2

/-- Where there is nothing now, there was nothing before. -/
theorem At.before_none {key : List Name} (at' : a.At phase checks w)
    (missing : w.tree.content key = none) : phase.notes fold a.home a.path a.before key = none := by
  rcases at'.files key with same | absent
  · rw [← same, missing]
  · exact absent.1

theorem At.below_root {rest : List Name} (nonempty : rest ≠ []) : a.home ++ rest ≠ a.home := by
  simpa using nonempty

/-- A call that leaves the world as it was. -/
theorem At.pays_same {next : Phase} {later : Checks} (at' : a.At next later w) :
    a.protocol.Pays w w (a.At next later) :=
  ⟨w, rfl, ⟨.refl _ _, fun _ differs => absurd rfl differs, next, later, at'⟩, at'⟩

/-- The rule of a call that changes the files at the keys in `touched`. -/
theorem At.pays {u : Tree fold} {touched : List Name → Prop} {next : Phase} (at' : a.At phase checks w)
    (touches : Touches w.tree touched u) (apart : ¬ touched a.home)
    (confined : ∀ key, touched key → u.file key ≠ w.tree.file key →
      Confined a.writer.options.vaultRoot a.Aims (Draft w) w key)
    (others : ∀ key, ¬ touched key → next.notes fold a.home a.path a.before key =
      phase.notes fold a.home a.path a.before key)
    (files : ∀ key, touched key → u.content key = next.notes fold a.home a.path a.before key ∨
      next.notes fold a.home a.path a.before key = none ∧ Draft w key)
    (facts : Tree.After a.writer.options.vaultRoot w.tree u → a.Facts { w with tree := u } next) :
    a.protocol.Pays w { w with tree := u } (a.At next checks) := by
  have later : Tree.After a.writer.options.vaultRoot w.tree u := by
    refine ⟨touches.grows, fun {real} rooted => ?_⟩
    obtain rfl : a.real = real := Except.ok.inj (at'.rooted.symm.trans rooted)
    exact touches.canonicalize rooted apart
  have here : a.At next checks { w with tree := u } := by
    refine ⟨at'.after.trans later, at'.audit, at'.checks, at'.fresh, fun key => ?_, facts later⟩
    by_cases hit : touched key
    · exact files key hit
    · rw [others key hit]
      have same : u.content key = w.tree.content key := FileSystem.Tree.content_congr (touches.others key hit)
      rw [same]
      exact at'.files key
  refine ⟨_, rfl, ⟨later, fun key differs => ?_, next, checks, here⟩, here⟩
  by_cases hit : touched key
  · exact confined key hit differs
  · exact absurd (FileSystem.Tree.file_congr (touches.others key hit)) differs

theorem steady (a : Attempt fold) (phase : Phase) :
    Steady a.protocol a.setting a.task a.writer.options.vaultRoot Eq (a.At phase) where
  refl _ := rfl
  trans := Eq.trans
  after := by
    rintro t _ rfl
    exact .refl _ _
  handler := a.sound
  rely := by
    rintro checks w _ rfl at'
    exact ⟨at', rfl⟩
  stay at' := ⟨.refl _ _, fun _ differs => absurd rfl differs, _, _, at'⟩

section Rules

variable {known id : Option Text} {absolute temp file : FsPath} {text : Text}
  {text' : Option Text}

theorem makeDir {dir : FsPath} {answer : Except IoError Unit} {after : World fold}
    (at' : a.At (.looking known id) checks w)
    (effect : VaultEffect a.setting a.task (.fs (.createDir dir)) w answer after) :
    a.protocol.Pays w after (a.At (.looking known id) checks) := by
  obtain ⟨now, u, rfl, fails⟩ := effect.faulty
  rcases fails.createDir with rfl | ⟨key, entry, missing, entries, node⟩
  · exact at'.pays_same
  · have touches : Touches w.tree (· = key) u := .of_update entries (by simp [missing]) (by
      rintro _ ⟨⟩
      simp [node, FileSystem.Node.isSymlink])
    have unmade : u.file key = w.tree.file key := by
      simp [FileSystem.Tree.file, missing, entries, node, FileSystem.Node.isDir]
    have same := FileSystem.Tree.content_of_same_file unmade
    refine at'.pays touches ?_ ?_ (fun _ _ => rfl) ?_ fun _ => at'.facts
    · rintro rfl
      have real := FileSystem.Tree.walk_real FileSystem.Tree.real_root at'.rooted
      have present := real.present
      rw [show a.real.map fold = a.home from rfl, missing] at present
      cases present
    · rintro _ rfl differs
      exact absurd unmade differs
    · rintro _ rfl
      rw [same]
      exact at'.files _

theorem read {after : World fold} (at' : a.At (.looking none id) checks w)
    (target : Target a.writer.options.vaultRoot a.path absolute w.tree)
    (effect : VaultEffect a.setting a.task (.fs (.readToString absolute)) w (.ok text) after) :
    a.At (.looking (some text) id) checks w := by
  have ran : w.tree.readToString absolute = .ok text := by
    rcases (effect.reads rfl).2 with told | told
    · exact told.symm
    · cases told
  have holds := FileSystem.Tree.readToString_plain target.proper target.plain ran
  have old : a.before a.key = some (.utf8 text) := by
    rw [at'.target_key target] at holds
    exact at'.at_key.symm.trans holds
  refine ⟨at'.after, at'.audit, at'.checks, at'.fresh, at'.files, ?_, at'.facts.2⟩
  rintro _ ⟨⟩
  exact old

theorem draw {drawn : Text} {after : World fold} (at' : a.At (.looking known id) checks w)
    (effect : VaultEffect a.setting a.task .uniqueId w drawn after) :
    a.protocol.Pays w after (a.At (.looking known (some drawn)) checks) := by
  cases effect with
  | uniqueId fresh =>
    have here : a.At (.looking known (some drawn)) checks { w with drawn := drawn :: w.drawn } := by
      refine ⟨at'.after, at'.audit, at'.checks, ?_, fun key => ?_, at'.facts.1, ?_⟩
      · intro id inside
        rcases List.mem_cons.mp inside with rfl | old
        · exact a.fresh w _ fresh
        · exact at'.fresh id old
      · refine (at'.files key).imp_right fun ⟨missing, dir, name, id, old, same⟩ => ?_
        exact ⟨missing, dir, name, id, List.mem_cons_of_mem _ old, same⟩
      · rintro _ ⟨⟩
        exact List.mem_cons_self
    exact ⟨_, rfl, ⟨.refl _ _, fun _ differs => absurd rfl differs, _, _, here⟩, here⟩

theorem At.draft_key (at' : a.At phase checks w)
    (target : Target a.writer.options.vaultRoot a.path absolute w.tree) (drawn : Text) :
    ∃ name, (draftPath absolute drawn).map fold =
      a.home ++ ((components a.path).dropLast.map fold ++ [fold (tempName name drawn)]) := by
  exact ⟨absolute.getLast?.getD "note".toList,
    target.sibling_key at'.rooted (a.normal.components_ne_nil a.named) _⟩

theorem At.draft {drawn : Text} (at' : a.At phase checks w)
    (target : Target a.writer.options.vaultRoot a.path absolute w.tree) (inside : drawn ∈ w.drawn) :
    Draft w ((draftPath absolute drawn).map fold) := by
  obtain ⟨name, split⟩ := at'.draft_key target drawn
  exact ⟨a.home ++ (components a.path).dropLast.map fold, name, drawn, inside, by
    rw [split, List.append_assoc]⟩

/-- A temporary file lies next to the target. -/
theorem At.draft_confined {drawn : Text} (at' : a.At phase checks w)
    (target : Target a.writer.options.vaultRoot a.path absolute w.tree) (inside : drawn ∈ w.drawn)
    (plain : w.tree.Plain ((draftPath absolute drawn).map fold)) :
    Confined a.writer.options.vaultRoot a.Aims (Draft w) w ((draftPath absolute drawn).map fold) := by
  obtain ⟨name, split⟩ := at'.draft_key target drawn
  exact ⟨a.real, _, at'.rooted, by simp, split, plain, .inl (at'.draft target inside)⟩

theorem At.draft_below {drawn : Text} (at' : a.At phase checks w)
    (target : Target a.writer.options.vaultRoot a.path absolute w.tree) :
    (draftPath absolute drawn).map fold ≠ a.home := by
  obtain ⟨name, split⟩ := at'.draft_key target drawn
  rw [split]
  exact At.below_root (by simp)

/-- A temporary file is looked up at its own key. -/
theorem draft_located {drawn : Text} (target : Target a.writer.options.vaultRoot a.path absolute w.tree)
    {place : FsPath × Name} (found : w.tree.locate (draftPath absolute drawn) = .ok place) :
    keyOf fold place = (draftPath absolute drawn).map fold := target.sibling_located found

theorem make {drawn : Text} {mode : Nat} {answer : Except IoError FsPath} {after : World fold}
    (at' : a.At (.looking known (some drawn)) checks w)
    (target : Target a.writer.options.vaultRoot a.path absolute w.tree)
    (effect : VaultEffect a.setting a.task (.fs (.openNew (draftPath absolute drawn) mode)) w answer after) :
    a.protocol.Pays w after
      (a.At (Phase.made known (some drawn) (draftPath absolute drawn) answer) checks) := by
  obtain ⟨now, u, rfl, fails⟩ := effect.faulty
  rcases fails.openNew with ⟨error, rfl, rfl⟩ | ⟨place, rfl, located, missing, entries⟩
  · exact at'.pays_same
  have same := draft_located target located
  rw [same] at missing entries
  have inside := at'.facts.2 drawn rfl
  have touches : Touches w.tree (· = (draftPath absolute drawn).map fold) u :=
    .of_update entries (by simp [missing]) (by rintro _ ⟨⟩; rfl)
  have none' := at'.before_none (FileSystem.Tree.content_of_none missing)
  have plain : w.tree.Plain ((draftPath absolute drawn).map fold) := target.sibling_plain missing
  refine at'.pays touches (at'.draft_below target).symm ?_ (fun _ _ => rfl) ?_ ?_
  · rintro _ rfl _
    exact at'.draft_confined target inside plain
  · rintro _ rfl
    exact .inr ⟨none', at'.draft target inside⟩
  · intro later
    refine ⟨at'.facts.1, ⟨absolute, drawn, rfl, inside, rfl, target.after later,
      later.grows.plain.mp plain, none'⟩, ?_, .utf8 [], ?_, nofun⟩
    · rw [← same]
      simp [keyOf]
    · exact FileSystem.Tree.content_of_file (by rw [entries, Function.update_self]) rfl

/-- A change of the temporary file's content or mode. -/
theorem At.pays_draft {u : Tree fold} {left : Content} {written : Option Text}
    (at' : a.At (.drafting known id temp file text') checks w)
    (touches : Touches w.tree (· = file.map fold) u) (now' : u.content (file.map fold) = some left)
    (holds : ∀ text, written = some text → Intended a.writer a.base a.mutation known text ∧
      left = .utf8 text) :
    a.protocol.Pays w { w with tree := u } (a.At (.drafting known id temp file written) checks) := by
  obtain ⟨read, ⟨absolute, drawn, rfl, inside, rfl, target, plain, missing⟩, same, _⟩ := at'.facts
  rw [same] at touches now'
  refine at'.pays touches (at'.draft_below target).symm ?_ (fun _ _ => rfl) ?_ ?_
  · rintro _ rfl _
    exact at'.draft_confined target inside plain
  · rintro _ rfl
    exact .inr ⟨missing, at'.draft target inside⟩
  · intro later
    exact ⟨read, ⟨absolute, drawn, rfl, inside, rfl, target.after later, later.grows.plain.mp plain,
      missing⟩, same, left, now', holds⟩

theorem fill {answer : Except IoError Unit} {after : World fold}
    (at' : a.At (.drafting known id temp file none) checks w)
    (intended : Intended a.writer a.base a.mutation known text)
    (effect : VaultEffect a.setting a.task (.fs (.writeAll file text)) w answer after) :
    a.protocol.Pays w after (a.At (Phase.next (.drafting known id temp file (some text))
      (.drafting known id temp file none) answer) checks) := by
  obtain ⟨now, u, rfl, fails⟩ := effect.faulty
  obtain ⟨_, _, same, held, holds, _⟩ := at'.facts
  rw [← same] at holds
  rcases fails.writeAll with ⟨rfl, rfl⟩ | ⟨⟨error, rfl⟩, rfl | ⟨left, rfl⟩⟩
  · obtain ⟨touches, written⟩ := FileSystem.Tree.writeAll_content (.utf8 text) now holds
    exact at'.pays_draft touches written (by rintro _ ⟨⟩; exact ⟨intended, rfl⟩)
  · exact at'.pays_same
  · obtain ⟨touches, written⟩ := FileSystem.Tree.writeAll_content left now holds
    exact at'.pays_draft touches written nofun

theorem settle {op : FsOp} {answer : Except IoError op.Result} {after : World fold}
    (at' : a.At (.drafting known id temp file (some text)) checks w)
    (kind : op = .syncAll file ∨ ∃ mode, op = .setPermissions file mode)
    (effect : VaultEffect a.setting a.task (.fs op) w answer after) :
    a.protocol.Pays w after (a.At (.drafting known id temp file (some text)) checks) := by
  obtain ⟨now, u, rfl, fails⟩ := effect.faulty
  rcases kind with rfl | ⟨mode, rfl⟩
  · obtain rfl := fails.syncAll
    exact at'.pays_same
  · rcases fails.setPermissions with rfl | rfl
    · exact at'.pays_same
    · obtain ⟨_, _, same, held, holds, full⟩ := at'.facts
      rw [← same] at holds
      obtain ⟨touches, written⟩ := FileSystem.Tree.setPermissions_content mode holds
      exact at'.pays_draft touches written full

/-- The guard clears its target. -/
theorem At.cleared {aim : Text} {recent : Checks} (at' : a.At phase checks w) (front : Checks)
    (normal : Normalized aim)
    (target : Target a.writer.options.vaultRoot aim absolute w.tree)
    (allowed : Allowed Eq a.writer.options.vaultRoot aim recent w.tree) (split : checks = front ++ recent)
    (clear : ∀ check ∈ front, check.2 = false) :
    Cleared a.writer.options.vaultRoot aim (keyBelow fold a.home aim) w := by
  obtain ⟨identity, resolved, more, rfl, found⟩ := allowed
  have whole : w.checks = (front ++ [(identity, false), (aim, false)]) ++ more := by
    rw [at'.checks, split]
    simp
  have clear' : ∀ check ∈ front ++ [(identity, false), (aim, false)], check.2 = false := by
    intro check inside
    rcases List.mem_append.mp inside with inside | inside
    · exact clear check inside
    · rcases List.mem_pair.mp inside with rfl | rfl <;> rfl
  have plain := target.plain
  rw [at'.target_key target] at plain
  have here := found.target (a.steady phase) normal at'.rooted (by simpa [keyBelow, home] using plain)
  refine ⟨identity, resolved, found.canonicalVaultPath normal, at'.target_key here, ?_, ?_⟩
  · rw [whole]
    exact lastVerdict_of_recent clear' (by simp)
  · rw [whole]
    exact lastVerdict_of_recent clear' (by simp)

theorem At.present (at' : a.At phase checks w) : (w.tree.entries a.home).isSome :=
  (FileSystem.Tree.walk_real FileSystem.Tree.real_root at'.rooted).present

theorem key_below (a : Attempt fold) : (components a.path).map fold ≠ [] := by
  simpa using a.normal.components_ne_nil a.named

/-- A cleared target without links on its path may be touched. -/
theorem At.target_confined {aim : Text} (at' : a.At phase checks w)
    (target : Target a.writer.options.vaultRoot aim absolute w.tree) (aims : a.Aims aim)
    (below : (components aim).map fold ≠ [])
    (cleared : Cleared a.writer.options.vaultRoot aim (keyBelow fold a.home aim) w) :
    Confined a.writer.options.vaultRoot a.Aims (Draft w) w (keyBelow fold a.home aim) := by
  refine ⟨a.real, _, at'.rooted, below, rfl, ?_, .inr ⟨aim, aims, rfl, cleared⟩⟩
  rw [← at'.target_key target]
  exact target.plain

theorem link {drawn : Text} {answer : Except IoError Unit} {after : World fold}
    (at' : a.At (.drafting none (some drawn) (draftPath absolute drawn) file (some text)) checks w)
    (target : Target a.writer.options.vaultRoot a.path absolute w.tree)
    (allowed : Allowed Eq a.writer.options.vaultRoot a.path checks w.tree)
    (effect : VaultEffect a.setting a.task (.fs (.hardLink (draftPath absolute drawn) absolute)) w answer after) :
    a.protocol.Pays w after (a.At (Phase.next (.published none (some drawn) (draftPath absolute drawn) text)
      (.drafting none (some drawn) (draftPath absolute drawn) file (some text)) answer) checks) := by
  obtain ⟨now, u, rfl, fails⟩ := effect.faulty
  rcases fails.hardLink with ⟨error, rfl, rfl⟩ | ⟨rfl, linked⟩
  · exact at'.pays_same
  obtain ⟨place, goal, atPlace, atGoal, missing, copies⟩ := FileSystem.Tree.hardLink_content linked
  have atKey : keyOf fold goal = a.key := (target.located atGoal).trans (at'.target_key target)
  rw [draft_located target atPlace, atKey] at copies
  rw [atKey] at missing
  obtain ⟨read, ⟨absolute', drawn', same, inside, split, target', plain', fresh⟩, _, held, holds, full⟩ :=
    at'.facts
  obtain ⟨intended, rfl⟩ := full text rfl
  obtain ⟨touches, published⟩ := copies _ holds
  have absent : a.before a.key = none := at'.before_none (FileSystem.Tree.content_of_none missing)
  refine at'.pays touches ?_ ?_ ?_ ?_ ?_
  · exact (At.below_root a.key_below).symm
  · rintro _ rfl _
    exact at'.target_confined target (.inl rfl) a.key_below
      (at'.cleared [] a.normal target allowed rfl (by simp))
  · intro key apart
    exact Function.update_of_ne apart _ _
  · rintro _ rfl
    exact .inl (published.trans (Function.update_self a.key (some (Content.utf8 text)) a.before).symm)
  · intro later
    exact ⟨read, ⟨absolute', drawn', same, inside, split, target'.after later, later.grows.plain.mp plain',
      fresh⟩, intended, fun _ => absent⟩

theorem rename {current drawn : Text} {answer : Except IoError Unit} {after : World fold}
    (at' : a.At (.drafting (some current) (some drawn) (draftPath absolute drawn) file (some text)) checks w)
    (target : Target a.writer.options.vaultRoot a.path absolute w.tree)
    (allowed : Allowed Eq a.writer.options.vaultRoot a.path checks w.tree)
    (effect : VaultEffect a.setting a.task (.fs (.rename (draftPath absolute drawn) absolute)) w answer after) :
    a.protocol.Pays w after (a.At
      (Phase.next (.published (some current) (some drawn) (draftPath absolute drawn) text)
        (.drafting (some current) (some drawn) (draftPath absolute drawn) file (some text)) answer) checks) := by
  obtain ⟨now, u, rfl, fails⟩ := effect.faulty
  rcases fails.rename with ⟨error, rfl, rfl⟩ | ⟨rfl, renamed⟩
  · exact at'.pays_same
  obtain ⟨place, goal, atPlace, atGoal, moves⟩ := FileSystem.Tree.rename_content renamed
  have atKey : keyOf fold goal = a.key := (target.located atGoal).trans (at'.target_key target)
  rw [draft_located target atPlace, atKey] at moves
  obtain ⟨read, ⟨absolute', drawn', same, inside, split, target', plain', fresh⟩, _, held, holds, full⟩ :=
    at'.facts
  obtain ⟨intended, rfl⟩ := full text rfl
  cases same
  have plain := target.plain
  rw [at'.target_key target] at plain
  obtain ⟨touches, published, gone⟩ := moves _ holds plain
  have apart : (draftPath absolute drawn).map fold ≠ a.key := by
    intro same
    exact at'.key_apart (same ▸ at'.draft target inside)
  have gone := gone apart
  refine at'.pays touches ?_ ?_ ?_ ?_ ?_
  · rintro (here | here)
    · exact at'.draft_below target here.symm
    · exact (At.below_root a.key_below).symm here
  · rintro _ (rfl | rfl) _
    · exact at'.draft_confined target inside plain'
    · exact at'.target_confined target (.inl rfl) a.key_below
        (at'.cleared [] a.normal target allowed rfl (by simp))
  · intro key apart
    exact Function.update_of_ne (fun here => apart (.inr here)) _ _
  · rintro _ (rfl | rfl)
    · left
      rw [gone]
      exact (fresh.symm.trans (Function.update_of_ne apart _ _).symm)
    · exact .inl (published.trans (Function.update_self a.key (some (Content.utf8 text)) a.before).symm)
  · intro later
    exact ⟨read, ⟨absolute', drawn, rfl, inside, split, target'.after later, later.grows.plain.mp plain',
      fresh⟩, intended, nofun⟩

/-- The removal of the temporary file, from a phase that knows where it is. -/
theorem At.pays_cleanup {next : Phase} {answer : Except IoError Unit} {after : World fold}
    (at' : a.At phase checks w) (drafted : a.Drafted w id temp)
    (same : next.notes fold a.home a.path a.before = phase.notes fold a.home a.path a.before)
    (old : phase.notes fold a.home a.path a.before (temp.map fold) = none) (facts : ∀ u : Tree fold,
      Tree.After a.writer.options.vaultRoot w.tree u → a.Facts { w with tree := u } next)
    (effect : VaultEffect a.setting a.task (.fs (.removeFile temp)) w answer after) :
    a.protocol.Pays w after (a.At next checks) := by
  obtain ⟨absolute, drawn, rfl, inside, rfl, target, plain, -⟩ := drafted
  obtain ⟨now, u, rfl, fails⟩ := effect.faulty
  rcases fails.removeFile with ⟨error, rfl, rfl⟩ | ⟨rfl, removed⟩
  · have here : a.At next checks w :=
      ⟨at'.after, at'.audit, at'.checks, at'.fresh, by rw [same]; exact at'.files, facts _ (.refl _ _)⟩
    exact here.pays_same
  obtain ⟨place, atPlace, drops, gone⟩ := FileSystem.Tree.removeFile_content removed
  rw [draft_located target atPlace] at drops gone
  refine at'.pays (drops plain) (at'.draft_below target).symm ?_ (fun _ _ => by rw [same]) ?_ (facts u)
  · rintro _ rfl _
    exact at'.draft_confined target inside plain
  · rintro _ rfl
    left
    rw [gone, same, old]

theorem discard {answer : Except IoError Unit} {after : World fold}
    (at' : a.At (.drafting known id temp file text') checks w)
    (effect : VaultEffect a.setting a.task (.fs (.removeFile temp)) w answer after) :
    a.protocol.Pays w after (a.At (.looking known id) checks) := by
  obtain ⟨read, drafted, -⟩ := at'.facts
  have drafted' := drafted
  obtain ⟨absolute, drawn, rfl, inside, -, -, -, missing⟩ := drafted
  refine at'.pays_cleanup drafted' rfl missing (fun u _ => ⟨read, ?_⟩) effect
  rintro _ ⟨⟩
  exact inside

theorem clear {answer : Except IoError Unit} {after : World fold}
    (at' : a.At (.published known id temp text) checks w)
    (effect : VaultEffect a.setting a.task (.fs (.removeFile temp)) w answer after) :
    a.protocol.Pays w after (a.At (.wrote known text) checks) := by
  obtain ⟨read, drafted, intended, absent⟩ := at'.facts
  have drafted' := drafted
  obtain ⟨absolute, drawn, rfl, inside, rfl, target, -, missing⟩ := drafted
  refine at'.pays_cleanup drafted' rfl ?_ (fun u _ => ⟨read, intended, absent⟩) effect
  refine (Function.update_of_ne (fun same => at'.key_apart ?_) _ _).trans missing
  rw [key, ← same]
  exact at'.draft target inside

theorem trash {current target : Text} {destination : FsPath} {answer : Except IoError Unit}
    {after : World fold} (at' : a.At (.looking (some current) id) checks w) (kind : a.mutation = .delete)
    (destined : a.writer.Destined a.path id target)
    (atTarget : Target a.writer.options.vaultRoot a.path absolute w.tree)
    (atDestination : Target a.writer.options.vaultRoot target destination w.tree)
    (allowed : Allowed Eq a.writer.options.vaultRoot a.path checks w.tree)
    (earlier : Allowed Eq a.writer.options.vaultRoot target (checks.drop 2) w.tree)
    (effect : VaultEffect a.setting a.task (.fs (.hardLink absolute destination)) w answer after) :
    a.protocol.Pays w after
      (a.At (Phase.next (.linked current target) (.looking (some current) id) answer) checks) := by
  obtain ⟨now, u, rfl, fails⟩ := effect.faulty
  rcases fails.hardLink with ⟨error, rfl, rfl⟩ | ⟨rfl, linked⟩
  · exact at'.pays_same
  obtain ⟨place, goal, atPlace, atGoal, missing, copies⟩ := FileSystem.Tree.hardLink_content linked
  have atKey : keyOf fold place = a.key := (atTarget.located atPlace).trans (at'.target_key atTarget)
  have atTrash : keyOf fold goal = keyBelow fold a.home target :=
    (atDestination.located atGoal).trans (at'.target_key atDestination)
  rw [atKey, atTrash] at copies
  rw [atTrash] at missing
  have read := at'.facts.1
  have holds : w.tree.content a.key = some (.utf8 current) := at'.at_key.trans (read current rfl)
  obtain ⟨touches, published⟩ := copies _ holds
  have absent : a.before (keyBelow fold a.home target) = none :=
    at'.before_none (FileSystem.Tree.content_of_none missing)
  have apart : keyBelow fold a.home target ≠ a.home := by
    intro same
    have present := at'.present
    rw [← same, missing] at present
    cases present
  have cleared := at'.cleared [] a.normal atTarget allowed rfl (by simp)
  refine at'.pays touches apart.symm ?_ ?_ ?_ ?_
  · rintro _ rfl _
    refine at'.target_confined atDestination (.inr ⟨_, destined⟩) (fun empty => apart ?_) ?_
    · rw [keyBelow, empty, List.append_nil]
    · obtain ⟨identity, _, more, split, _⟩ := allowed
      refine at'.cleared (checks.take 2) destined.normal atDestination earlier
        (List.take_append_drop 2 checks).symm ?_
      simp [split]
  · intro key apart
    exact Function.update_of_ne apart _ _
  · rintro _ rfl
    exact .inl (published.trans (Function.update_self (keyBelow fold a.home target)
      (some (Content.utf8 current)) a.before).symm)
  · intro later
    refine ⟨read, kind, ⟨⟨_, destined⟩, absent⟩, ?_⟩
    -- the note is where it was, so its canonical path is the same
    obtain ⟨identity, resolved, found, toKey, verdicts⟩ := cleared
    obtain ⟨identity', resolved', _, _, seen⟩ := allowed
    rw [seen.canonicalVaultPath a.normal] at found
    cases found
    have plain := atTarget.plain
    rw [at'.target_key atTarget] at plain
    have split : (a.real ++ components a.path).map fold = a.key := List.map_append
    obtain ⟨there, inside, rfl⟩ := seen.present a.normal at'.rooted (by rwa [split]) (by
      rw [split]
      intro gone
      rw [FileSystem.Tree.content_of_none gone] at holds
      cases holds)
    refine ⟨_, resolved, Tree.canonicalVaultPath_found _ a.normal (later.root at'.rooted) inside
      (touches.canonicalize there fun same => ?_), toKey, verdicts⟩
    rw [show resolved.map fold = a.key from toKey] at same
    rw [same, FileSystem.Tree.content_of_none missing] at holds
    cases holds

theorem unlink {current target : Text} {answer : Except IoError Unit} {after : World fold}
    (at' : a.At (.linked current target) checks w)
    (atTarget : Target a.writer.options.vaultRoot a.path absolute w.tree)
    (effect : a.handler (.fs (.removeFile absolute)) w answer after) :
    a.protocol.Pays w after
      (a.At (Phase.next (.trashed current target) (.stranded current target) answer) checks) := by
  obtain ⟨read, kind, chosen, cleared⟩ := at'.facts
  obtain ⟨now, u, rfl, fails⟩ := (a.sound effect).faulty
  rcases fails.removeFile with ⟨error, rfl, rfl⟩ | ⟨rfl, removed⟩
  · have here : a.At (.stranded current target) checks w :=
      ⟨at'.after, at'.audit, at'.checks, at'.fresh, at'.files, read, kind, chosen, _, _, _, _, effect⟩
    exact here.pays_same
  obtain ⟨place, atPlace, drops, gone⟩ := FileSystem.Tree.removeFile_content removed
  have atKey : keyOf fold place = a.key := (atTarget.located atPlace).trans (at'.target_key atTarget)
  rw [atKey] at drops gone
  have plain := atTarget.plain
  rw [at'.target_key atTarget] at plain
  refine at'.pays (drops plain) (At.below_root a.key_below).symm ?_ ?_ ?_ fun _ => ⟨read, kind, chosen⟩
  · rintro _ rfl _
    exact at'.target_confined atTarget (.inl rfl) a.key_below cleared
  · intro key apart
    exact Function.update_of_ne apart _ _
  · rintro _ rfl
    left
    rw [gone]
    exact (Function.update_self (β := fun _ => Option Content) a.key none _).symm

theorem remove {current : Text} {answer : Except IoError Unit} {after : World fold}
    (at' : a.At (.looking (some current) id) checks w) (kind : a.mutation = .hardDelete)
    (atTarget : Target a.writer.options.vaultRoot a.path absolute w.tree)
    (allowed : Allowed Eq a.writer.options.vaultRoot a.path checks w.tree)
    (effect : VaultEffect a.setting a.task (.fs (.removeFile absolute)) w answer after) :
    a.protocol.Pays w after (a.At (Phase.next (.removed current) (.looking (some current) id) answer) checks) := by
  obtain ⟨now, u, rfl, fails⟩ := effect.faulty
  rcases fails.removeFile with ⟨error, rfl, rfl⟩ | ⟨rfl, removed⟩
  · exact at'.pays_same
  obtain ⟨place, atPlace, drops, gone⟩ := FileSystem.Tree.removeFile_content removed
  have atKey : keyOf fold place = a.key := (atTarget.located atPlace).trans (at'.target_key atTarget)
  rw [atKey] at drops gone
  have plain := atTarget.plain
  rw [at'.target_key atTarget] at plain
  refine at'.pays (drops plain) (At.below_root a.key_below).symm ?_ ?_ ?_ fun _ => ⟨at'.facts.1, kind⟩
  · rintro _ rfl _
    exact at'.target_confined atTarget (.inl rfl) a.key_below
      (at'.cleared [] a.normal atTarget allowed rfl (by simp))
  · intro key apart
    exact Function.update_of_ne apart _ _
  · rintro _ rfl
    left
    rw [gone]
    exact (Function.update_self (β := fun _ => Option Content) a.key none _).symm

theorem checked {aim : Text} {verdict : Bool} (asks : phase.asks) (at' : a.At phase checks w) :
    a.protocol.Pays w { w with checks := (aim, verdict) :: w.checks }
      (a.At phase ((aim, verdict) :: checks)) := by
  have here : a.At phase ((aim, verdict) :: checks) { w with checks := (aim, verdict) :: w.checks } := by
    refine ⟨at'.after, at'.audit, by rw [← at'.checks], at'.fresh, at'.files, ?_⟩
    have facts := at'.facts
    cases phase <;> first | exact facts | cases asks
  exact ⟨_, rfl, ⟨.refl _ _, fun _ differs => absurd rfl differs, _, _, here⟩, here⟩

end Rules

/-- The phases describe a mutation that runs on its own. -/
theorem outline (a : Attempt fold) :
    Outline a.protocol a.setting a.task a.writer a.path a.base a.mutation Eq a.At where
  steady := a.steady
  checked asks at' _ _ := checked asks at'
  moves owes := owes.grows
  makeDir at' effect := makeDir at' (a.sound effect)
  read at' target effect := read at' target (a.sound effect)
  draw at' effect := draw at' (a.sound effect)
  make at' target effect := make at' target (a.sound effect)
  fill at' intended effect := fill at' intended (a.sound effect)
  settle at' kind effect := settle at' kind (a.sound effect)
  link at' target allowed effect := link at' target allowed (a.sound effect)
  rename at' target allowed effect := rename at' target allowed (a.sound effect)
  discard at' effect := discard at' (a.sound effect)
  clear at' effect := clear at' (a.sound effect)
  trash at' kind _ destined atTarget atDestination allowed earlier effect :=
    trash at' kind destined atTarget atDestination allowed earlier (a.sound effect)
  unlink at' atTarget effect := unlink at' atTarget effect
  remove at' kind _ atTarget allowed effect := remove at' kind atTarget allowed (a.sound effect)

end Attempt

end SecondBrain
