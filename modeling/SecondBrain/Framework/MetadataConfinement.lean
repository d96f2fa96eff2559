import SecondBrain.Framework.Metadata
import SecondBrain.Vault.Calls
import SecondBrain.Vault.WriterRuns

set_option autoImplicit false

/-! Where writes may touch the vault, through the writer and as metadata. -/

namespace SecondBrain

open FileSystem (IoError FsPath FsOp Tree Name special)
open FileSystem.Tree (Touches)
open Prog (Within)
open Protocol

variable {fold : Name → Name}

/-- The places of the files that metadata is prepared in. -/
def Temporary (w : World fold) (key : List Name) : Prop :=
  ∃ dir id, id ∈ w.drawn ∧ key = dir ++ [fold (temporaryName id)]

theorem Confined.mono {vaultRoot : FsPath} {aims more : Text → Prop} {hidden other : List Name → Prop}
    {w : World fold} {key : List Name} (confined : Confined vaultRoot aims hidden w key)
    (wider : ∀ aim, aims aim → more aim) (covers : hidden key → other key) :
    Confined vaultRoot more other w key := by
  obtain ⟨real, rest, rooted, below, split, plain, place⟩ := confined
  refine ⟨real, rest, rooted, below, split, plain, place.imp covers ?_⟩
  rintro ⟨aim, inside, same, cleared⟩
  exact ⟨aim, wider aim inside, same, cleared⟩

/-- A change of files away from the vault root leaves it where it is. -/
theorem Tree.After.of_touches {vaultRoot real : FsPath} {t u : Tree fold} {touched : List Name → Prop}
    (touches : Touches t touched u) (rooted : t.canonicalize vaultRoot = .ok real)
    (apart : ¬ touched (real.map fold)) : Tree.After vaultRoot t u := by
  refine ⟨touches.grows, fun {other} found => ?_⟩
  obtain rfl : real = other := Except.ok.inj (rooted.symm.trans found)
  exact touches.canonicalize rooted apart

/-- A new directory changes no file. -/
theorem createDir_after {vaultRoot real dir : FsPath} {t u : Tree fold} {now : Nat}
    {answer : Except IoError Unit} (rooted : t.canonicalize vaultRoot = .ok real)
    (effect : FsOp.Faulty t now (.createDir dir) answer u) :
    Tree.After vaultRoot t u ∧ ∀ key, u.file key = t.file key := by
  rcases effect.createDir with rfl | ⟨key, entry, missing, entries, node⟩
  · exact ⟨.refl _ _, fun _ => rfl⟩
  have touches : Touches t (· = key) u := .of_update entries (by simp [missing]) (by
    rintro _ ⟨⟩
    simp [node, FileSystem.Node.isSymlink])
  refine ⟨.of_touches touches rooted ?_, fun other => ?_⟩
  · rintro rfl
    have real := FileSystem.Tree.walk_real FileSystem.Tree.real_root rooted
    have present := real.present
    rw [missing] at present
    cases present
  · by_cases same : other = key
    · subst same
      simp [FileSystem.Tree.file, missing, entries, node, FileSystem.Node.isDir]
    · exact FileSystem.Tree.file_congr (touches.others other same)

/-- The calls that look around or read content. -/
def Reads (op : VaultOp) : Prop := Looks op ∨ ∃ path, op = .fs (.readToString path)

/-- Reading changes no file and draws no id. -/
theorem Reads.still {setting : Setting fold} {task : Nat} {op : VaultOp} {w after : World fold}
    {answer : op.Resp} (reads : Reads op) (effect : VaultEffect setting task op w answer after) :
    after.tree = w.tree ∧ after.drawn = w.drawn := by
  have looked {op : FsOp} {answer : Except IoError op.Result} (reads : op.reads = true)
      (effect : VaultEffect setting task (.fs op) w answer after) :
      after.tree = w.tree ∧ after.drawn = w.drawn := by
    rw [(effect.reads reads).1]
    exact ⟨rfl, rfl⟩
  rcases reads with looks | ⟨path, rfl⟩
  · cases looks with
    | isBlocked path => cases effect; exact ⟨rfl, rfl⟩
    | now => cases effect; exact ⟨rfl, rfl⟩
    | canonicalize path => exact looked rfl effect
    | tryExists path => exact looked rfl effect
    | symlinkMetadata path => exact looked rfl effect
    | metadata path => exact looked rfl effect
  · exact looked rfl effect

namespace Framework

variable (framework : Framework)

theorem checkPath_looks (path : Text) : (framework.checkPath path).Within Looks := by
  unfold checkPath
  simp only [Prog.bind_eq]
  refine (Within.ofExcept ..).bind fun normalized => ⟨.isBlocked normalized, fun answer => ?_⟩
  cases answer with
  | true => exact True.intro
  | false =>
    simp only [Prog.done_bind, Bool.false_eq_true, if_false]
    split <;> exact True.intro

theorem readOptionalText_reads (path : Text) : (framework.readOptionalText path).Within Reads := by
  have looks {α : Type} {p : ToolProg α} (within : p.Within Looks) : p.Within Reads := within.mono fun _ => .inl
  have checks (path : Text) : (framework.checkPath path).Within Reads := looks (framework.checkPath_looks path)
  unfold readOptionalText
  simp only [Prog.bind_eq]
  refine (checks path).bind fun normalized => ?_
  refine (looks (resolveExistingVaultPath_looks _ normalized).attempt).bind fun resolved => ?_
  split
  · exact True.intro
  · exact True.intro
  · rename_i resolved
    refine (looks (io_looks (by constructor))).bind fun realRoot => ?_
    split
    · exact True.intro
    · rename_i relative _
      refine (checks relative).bind fun _ => ?_
      refine Within.bind ?_ fun content => (checks normalized).bind fun _ => (checks relative).bind fun _ => True.intro
      exact Within.bind ⟨.inr ⟨resolved, rfl⟩, fun _ => True.intro⟩ fun answer => Within.ofExcept ..

section Looking

variable {S : Type} {P : Protocol VaultOp VaultOp.Resp (World fold) S} {setting : Setting fold}
  {task : Nat} {vaultRoot : FsPath} {R : Tree fold → Tree fold → Prop} {F : Checks → S → Prop}
  {checks : Checks} {s : S}

/-- A path that passes is allowed by the policy in force. -/
theorem checkPath_safe (quiet : Quiet P setting task vaultRoot R F) (path : Text) (holds : F checks s) :
    P.Safe (fun result t => R (P.view s).tree (P.view t).tree ∧ ∃ recent, F (recent ++ checks) t ∧
        ∀ normalized, result = .ok normalized →
          normalizeVaultPath path = .ok normalized ∧ recent = [(normalized, false)])
      (framework.checkPath path) s := by
  unfold checkPath
  simp only [Prog.bind_eq]
  cases normal : normalizeVaultPath path with
  | error error => exact quiet.fail holds fun t here moved => ⟨moved, [], here, nofun⟩
  | ok normalized =>
    intro t others answer w effect
    obtain ⟨here, moved⟩ := quiet.rely others holds
    cases quiet.handler effect with
    | isBlocked path inForce =>
      rename_i policy
      obtain ⟨u, seen, allowed, next⟩ := quiet.checked here normalized (policy normalized)
      have same : R (P.view s).tree (P.view u).tree := by
        rw [seen]
        exact moved
      refine ⟨u, seen, allowed, ?_⟩
      cases verdict : policy normalized with
      | true =>
        rw [verdict] at next
        exact quiet.fail next fun v here later => ⟨quiet.trans same later, [_], here, nofun⟩
      | false =>
        rw [verdict] at next
        simp only [Prog.done_bind, Bool.false_eq_true, if_false]
        split
        · exact quiet.fail next fun v here later => ⟨quiet.trans same later, [_], here, nofun⟩
        · refine quiet.done next fun v here later => ⟨quiet.trans same later, [_], here, ?_⟩
          rintro _ ⟨⟩
          exact ⟨rfl, rfl⟩

/-- The walk over the components finds no link, up to the last. -/
theorem refuseLinks_safe (steady : Steady P setting task vaultRoot R F) (walked rest : List Name)
    (proper : ∀ name ∈ walked ++ rest, special name = false) (holds : F checks s) {real : FsPath}
    (rooted : (P.view s).tree.canonicalize vaultRoot = .ok real)
    (plain : (P.view s).tree.Plain ((real ++ walked).map fold)) :
    P.Safe (Looked P R F checks s fun _ t => (P.view t).tree.Plain ((real ++ (walked ++ rest)).map fold))
      (refuseLinks (vaultRoot ++ walked) rest) s := by
  induction rest generalizing walked s with
  | nil =>
    refine steady.done holds fun t here moved => ⟨here, moved, fun _ _ => ?_⟩
    rw [List.append_nil]
    exact (steady.after moved).grows.plain.mp plain
  | cons segment rest ih =>
    unfold refuseLinks
    rw [List.append_assoc]
    refine steady.read holds rfl fun t here moved answer told => ?_
    have rooted := (steady.after moved).root rooted
    have plain := (steady.after moved).grows.plain.mp plain
    have tells := FileSystem.Tree.symlinkMetadata_below rooted
      (fun name inside => proper name (by simp [inside])) plain segment
    have fails (error : DispatchError) : P.Safe (Looked P R F checks s fun _ t =>
        (P.view t).tree.Plain ((real ++ (walked ++ segment :: rest)).map fold))
          (.fail error : ToolProg Unit) t :=
      steady.fail here fun u here later => ⟨here, steady.trans moved later, nofun⟩
    have goesOn (last : ∀ entry, (P.view t).tree.entries ((real ++ (walked ++ [segment])).map fold) =
        some entry → entry.node.isSymlink = false) : P.Safe (Looked P R F checks s fun _ t =>
        (P.view t).tree.Plain ((real ++ (walked ++ segment :: rest)).map fold))
          (refuseLinks (vaultRoot ++ (walked ++ [segment])) rest) t := by
      have clean : (P.view t).tree.Plain ((real ++ (walked ++ [segment])).map fold) := by
        rw [← List.append_assoc, List.map_append, List.map_singleton] at last ⊢
        exact plain.concat last
      refine (ih (walked ++ [segment]) (by simpa using proper) here rooted clean).weaken ?_
      rintro result u ⟨here, later, found⟩
      exact ⟨here, steady.trans moved later, by simpa using found⟩
    match answer, told with
    | .ok metadata, told =>
      have found : (P.view t).tree.symlinkMetadata (vaultRoot ++ (walked ++ [segment])) = .ok metadata := by
        rcases told with told | told
        · exact told.symm
        · cases told
      obtain ⟨entry, bound, rfl⟩ := tells.1 metadata found
      dsimp only
      split
      · exact fails _
      · rename_i file
        refine goesOn fun other same => ?_
        rw [bound] at same
        cases same
        exact Bool.eq_false_iff.mpr file
    | .error .notFound, told =>
      have absent := tells.2 (by
        rcases told with told | told
        · exact told.symm
        · cases told)
      refine goesOn fun other same => ?_
      rw [absent] at same
      cases same
    | .error .alreadyExists, _ => exact fails _
    | .error .other, _ => exact fails _

end Looking

end Framework

/-- A write into the vault, through the writer or as metadata. -/
inductive VaultWrite where
  | mutation (call : VaultWriter.WriteCall)
  | metadata (path source : Text) (overwrite : Bool)

namespace VaultWrite

def path : VaultWrite → Text
  | mutation call => call.path
  | metadata path _ _ => path

def program (framework : Framework) (fuel : Nat) : VaultWrite → ToolProg Unit
  | mutation call => do
    let _ ← (framework.writer.run call fuel).mapError DispatchError.write
    return ()
  | metadata path source overwrite => do
    let _ ← framework.writeMetadata path source overwrite fuel
    return ()

end VaultWrite

/-- One write on its own, from the world it starts in, with the calls that `handler` allows. An
id that is drawn is fresh: no component of the path and no file has a name made with it. Names
that directories take for the same agree on the separators in them. -/
structure SoloWrite (fold : Name → Name) where
  setting : Setting fold
  task : Nat
  handler : Handler VaultOp VaultOp.Resp (World fold)
  sound : ∀ {op w answer after}, handler op w answer after → VaultEffect setting task op w answer after
  framework : Framework
  write : VaultWrite
  start : World fold
  undrawn : start.drawn = []
  fresh : ∀ path, normalizeVaultPath write.path = .ok path → ∀ w id, setting.fresh w id →
    ∀ name, ∀ other ∈ components path, fold (tempName name id) ≠ fold other
  unused : ∀ w id, setting.fresh w id → ∀ dir, w.tree.entries (dir ++ [fold (temporaryName id)]) = none
  separators : ∀ {name other}, fold name = fold other → (other = [] → name = []) ∧
    ('/' ∈ name → '/' ∈ other) ∧ ('\\' ∈ name → '\\' ∈ other)

namespace SoloWrite

variable (c : SoloWrite fold)

/-- The vault paths that the write may publish at. -/
def Aims (target : Text) : Prop :=
  ∃ path, normalizeVaultPath c.write.path = .ok path ∧
    (target = path ∨ ∃ id, c.framework.writer.Destined path id target)

/-- The places of the temporary files. -/
def Hidden (_ : SoloWrite fold) (w : World fold) (key : List Name) : Prop := Draft w key ∨ Temporary w key

/-- What every step of the write owes. -/
structure Owes (w after : World fold) : Prop where
  grows : Tree.After c.framework.root w.tree after.tree
  confined : ∀ key, after.tree.file key ≠ w.tree.file key →
    Confined c.framework.root c.Aims (c.Hidden after) w key

abbrev protocol : Protocol VaultOp VaultOp.Resp (World fold) (World fold) := sequential c.handler c.Owes

/-- The result does not matter. -/
abbrev Fine (_ : SoloWrite fold) {ε α : Type} (_ : Except ε α) (_ : World fold) : Prop := True

variable {c} {w : World fold}

/-- A step that leaves the files alone. -/
theorem owes_still {after : World fold} (tree : after.tree = w.tree) : c.Owes w after := by
  refine ⟨?_, fun key differs => absurd (by rw [tree]) differs⟩
  rw [tree]
  exact .refl _ _

theorem fails {α : Type} (error : DispatchError) : c.protocol.Safe c.Fine (.fail error : ToolProg α) w :=
  sequential_fail.mpr trivial

/-- A call of the writer about the path of the write. -/
def solo (c : SoloWrite fold) (request : VaultWriter.WriteCall) (start : World fold) (undrawn : start.drawn = [])
    (same : ∀ path, normalizeVaultPath request.path = .ok path → normalizeVaultPath c.write.path = .ok path) :
    Solo fold where
  setting := c.setting
  task := c.task
  handler := c.handler
  sound := c.sound
  writer := c.framework.writer
  request := request
  start := start
  undrawn := undrawn
  fresh path normalized := c.fresh path (same path normalized)

theorem call_safe (request : VaultWriter.WriteCall) (undrawn : w.drawn = []) (fuel : Nat)
    (same : ∀ path, normalizeVaultPath request.path = .ok path → normalizeVaultPath c.write.path = .ok path) :
    c.protocol.Safe c.Fine ((c.framework.writer.run request fuel).mapError DispatchError.write) w := by
  have ran := (c.solo request w undrawn same).run_safe fuel
  have root : (c.solo request w undrawn same).writer.options.vaultRoot = c.framework.root := c.framework.writerRoot
  refine Safe.mapError ((ran.sequential_mono fun owes => ?_).weaken fun _ _ _ => trivial)
  obtain ⟨grows, confined, -⟩ := owes
  rw [root] at grows confined
  refine ⟨grows, fun key differs => (confined key differs).mono ?_ .inl⟩
  rintro aim ⟨path, normalized, leads⟩
  exact ⟨path, same path normalized, leads⟩

/-- Nothing was written yet, and the policy has given the answers in `checks`. -/
def Held (t : Tree fold) (drawn : List Text) (checks : Checks) (w : World fold) : Prop :=
  w.tree = t ∧ w.drawn = drawn ∧ w.checks = checks

theorem quiet (c : SoloWrite fold) (t : Tree fold) (drawn : List Text) :
    Quiet c.protocol c.setting c.task c.framework.root Eq (Held t drawn) where
  refl _ := rfl
  trans := Eq.trans
  after := by
    rintro t _ rfl
    exact .refl _ _
  handler := c.sound
  rely := by
    rintro checks w _ rfl held
    exact ⟨held, rfl⟩
  stay _ := owes_still rfl
  checked held path verdict := ⟨_, rfl, owes_still rfl, held.1, held.2.1, congrArg (_ :: ·) held.2.2⟩

/-- A part of the write that only reads. -/
theorem reads_safe {ε α : Type} {p : VaultProg ε α} (reads : p.Within Reads) (t : Tree fold) (drawn : List Text)
    (held : w.tree = t ∧ w.drawn = drawn) :
    c.protocol.Safe (fun _ after => after.tree = t ∧ after.drawn = drawn) p w := by
  refine Safe.within reads (fun op reads s answer after held effect => ?_) held
  obtain ⟨tree, same⟩ := reads.still (c.sound effect)
  exact ⟨owes_still tree, tree.trans held.1, same.trans held.2⟩

/-- Directories may be made at any time. -/
theorem createDirAll_safe {real : FsPath} (rooted : w.tree.canonicalize c.framework.root = .ok real)
    (reversed : FsPath) : c.protocol.Safe (fun _ after => Tree.After c.framework.root w.tree after.tree ∧
      after.drawn = w.drawn) (createDirAll reversed) w := by
  refine Safe.within (createDirAll_makes reversed) (fun op makes s answer after held effect => ?_)
    ⟨.refl _ _, rfl⟩
  rcases makes with looks | ⟨path, rfl⟩
  · obtain ⟨tree, drawn⟩ := Reads.still (.inl looks) (c.sound effect)
    exact ⟨owes_still tree, by rw [tree]; exact held.1, drawn.trans held.2⟩
  · obtain ⟨now, u, rfl, made⟩ := (c.sound effect).faulty
    obtain ⟨later, same⟩ := createDir_after (held.1.root rooted) made
    exact ⟨⟨later, fun key differs => absurd (same key) differs⟩, held.1.trans later, held.2⟩

/-- The temporary file may be made, filled and published at `target`. -/
structure Ready (c : SoloWrite fold) (path : Text) (target : FsPath) (id : Text) (w : World fold) : Prop where
  rooted : ∃ real, w.tree.canonicalize c.framework.root = .ok real
  drawn : id ∈ w.drawn
  there : Target c.framework.root path target w.tree
  plain : w.tree.Plain ((target.dropLast ++ [temporaryName id]).map fold)

section Publication

variable {path id : Text} {target : FsPath}

theorem Ready.hidden (ready : c.Ready path target id w) (named : components path ≠ []) :
    Confined c.framework.root c.Aims (c.Hidden w) w ((target.dropLast ++ [temporaryName id]).map fold) := by
  obtain ⟨real, rooted⟩ := ready.rooted
  have split := ready.there.sibling_key rooted named (temporaryName id)
  refine ⟨real, _, rooted, by simp, split, ready.plain, .inl (.inr ?_)⟩
  exact ⟨real.map fold ++ (components path).dropLast.map fold, id, ready.drawn, by rw [split, List.append_assoc]⟩

theorem Ready.cleared (ready : c.Ready path target id w) (named : components path ≠ []) (aims : c.Aims path)
    (cleared : Cleared c.framework.root path (target.map fold) w) :
    Confined c.framework.root c.Aims (c.Hidden w) w (target.map fold) := by
  obtain ⟨real, below, rooted, split, same⟩ := ready.there.below
  refine ⟨real, (components path).map fold, rooted, by simpa using named, ?_, ready.there.plain,
    .inr ⟨path, aims, rfl, cleared⟩⟩
  rw [split, List.map_append, same]

/-- The rule of a call that changes the temporary file, or also the cleared target. -/
theorem Ready.pays (ready : c.Ready path target id w)
    {touched : List Name → Prop} {u : Tree fold} (touches : Touches w.tree touched u)
    (places : ∀ key, touched key → Confined c.framework.root c.Aims (c.Hidden w) w key) :
    c.Owes w { w with tree := u } ∧ c.Ready path target id { w with tree := u } := by
  obtain ⟨real, rooted⟩ := ready.rooted
  have later : Tree.After c.framework.root w.tree u := by
    refine .of_touches touches rooted fun hit => ?_
    obtain ⟨real', rest, rooted', below, split, -⟩ := places _ hit
    obtain rfl : real = real' := Except.ok.inj (rooted.symm.trans rooted')
    exact below (List.self_eq_append_right.mp split)
  refine ⟨⟨later, fun key differs => ?_⟩, ⟨real, later.root rooted⟩, ready.drawn, ready.there.after later,
    later.grows.plain.mp ready.plain⟩
  by_cases hit : touched key
  · exact places key hit
  · exact absurd (FileSystem.Tree.file_congr (touches.others key hit)) differs

/-- The canonical path of a target without links is what the policy is asked about. -/
theorem identity_asked (normal : Normalized path) {identity asked : Text} {t : Tree fold}
    (found : Resolved Eq c.framework.root path identity target t) (there : Target c.framework.root path target t)
    (normalized : normalizeVaultPath identity = .ok asked) : asked = identity := by
  obtain ⟨real, _, _, rooted, _, _, _, rfl⟩ := found
  obtain ⟨real', below, rooted', split, same⟩ := there.below
  obtain rfl : real = real' := Except.ok.inj (rooted.symm.trans rooted')
  have dropped : target.drop real.length = below := by rw [split, List.drop_left]
  rw [dropped] at normalized ⊢
  -- every name below the root folds to a component of the path
  have like : ∀ name ∈ below, ∃ other ∈ components path, fold name = fold other := by
    intro name inside
    have folded : fold name ∈ (components path).map fold := by
      rw [← same]
      exact List.mem_map_of_mem inside
    obtain ⟨other, member, same⟩ := List.mem_map.mp folded
    exact ⟨other, member, same.symm⟩
  refine normalize_relativeText (fun name inside => ?_) (fun name inside => ?_) normalized
  · obtain ⟨other, member, same⟩ := like name inside
    refine ⟨fun empty => (normal.significant other member).1 ((c.separators same.symm).1 empty), ?_⟩
    exact there.proper name (by rw [split]; exact List.mem_append_right _ inside)
  · obtain ⟨other, member, same⟩ := like name inside
    obtain ⟨-, slash, backslash⟩ := c.separators same
    exact ⟨fun found => normal.clean other member (slash found),
      fun found => normal.unslashed other member (backslash found)⟩

/-- The temporary file is there, with the handle `file`. -/
def Drafting (c : SoloWrite fold) (path : Text) (target : FsPath) (id : Text) (file : FsPath) (w : World fold) :
    Prop :=
  c.Ready path target id w ∧ file.map fold = (target.dropLast ++ [temporaryName id]).map fold ∧
    ∃ held, w.tree.content (file.map fold) = some held

theorem Ready.create (ready : c.Ready path target id w) (named : components path ≠ []) {mode : Nat}
    {answer : Except IoError FsPath} {after : World fold}
    (effect : c.handler (.fs (.openNew (target.dropLast ++ [temporaryName id]) mode)) w answer after) :
    c.Owes w after ∧ c.Ready path target id after ∧
      ∀ file, answer = .ok file → c.Drafting path target id file after := by
  obtain ⟨now, u, rfl, made⟩ := (c.sound effect).faulty
  rcases made.openNew with ⟨error, rfl, rfl⟩ | ⟨place, rfl, located, missing, entries⟩
  · exact ⟨owes_still rfl, ready, nofun⟩
  have same := ready.there.sibling_located located
  rw [same] at missing entries
  have touches : Touches w.tree (· = (target.dropLast ++ [temporaryName id]).map fold) u :=
    .of_update entries (fun entry bound => by rw [missing] at bound; cases bound) (by rintro _ ⟨⟩; rfl)
  obtain ⟨owes, ready⟩ := ready.pays touches fun key hit => hit ▸ ready.hidden named
  refine ⟨owes, ready, ?_⟩
  rintro _ ⟨⟩
  have atKey : (place.1 ++ [place.2]).map fold = (target.dropLast ++ [temporaryName id]).map fold := by
    rw [← same]
    simp [FileSystem.Tree.keyOf]
  refine ⟨ready, atKey, .utf8 [], ?_⟩
  exact FileSystem.Tree.content_of_file (by rw [atKey, entries, Function.update_self]) rfl

theorem Drafting.fill {file : FsPath} (drafting : c.Drafting path target id file w)
    (named : components path ≠ []) {source : Text} {answer : Except IoError Unit} {after : World fold}
    (effect : c.handler (.fs (.writeAll file source)) w answer after) :
    c.Owes w after ∧ c.Drafting path target id file after := by
  obtain ⟨now, u, rfl, filled⟩ := (c.sound effect).faulty
  have drafting' := drafting
  obtain ⟨ready, same, held, holds⟩ := drafting
  have changes (left : FileSystem.Content) : c.Owes w { w with tree := w.tree.writeAll file left now } ∧
      c.Drafting path target id file { w with tree := w.tree.writeAll file left now } := by
    obtain ⟨touches, written⟩ := FileSystem.Tree.writeAll_content left now holds
    obtain ⟨owes, ready⟩ := ready.pays touches fun key hit => by
      rw [hit, same]
      exact ready.hidden named
    exact ⟨owes, ready, same, left, written⟩
  rcases filled.writeAll with ⟨rfl, rfl⟩ | ⟨-, rfl | ⟨left, rfl⟩⟩
  · exact changes (.utf8 source)
  · exact ⟨owes_still rfl, drafting'⟩
  · exact changes left

theorem Drafting.link {file : FsPath} (drafting : c.Drafting path target id file w)
    (named : components path ≠ []) (aims : c.Aims path)
    (cleared : Cleared c.framework.root path (target.map fold) w) {answer : Except IoError Unit} {after : World fold}
    (effect : c.handler (.fs (.hardLink (target.dropLast ++ [temporaryName id]) target)) w answer after) :
    c.Owes w after ∧ c.Ready path target id after := by
  obtain ⟨now, u, rfl, fails⟩ := (c.sound effect).faulty
  obtain ⟨ready, same, held, holds⟩ := drafting
  rcases fails.hardLink with ⟨error, rfl, rfl⟩ | ⟨rfl, linked⟩
  · exact ⟨owes_still rfl, ready⟩
  obtain ⟨place, goal, atPlace, atGoal, -, copies⟩ := FileSystem.Tree.hardLink_content linked
  rw [ready.there.sibling_located atPlace, ready.there.located atGoal, ← same] at copies
  obtain ⟨touches, -⟩ := copies held holds
  exact ready.pays touches fun key hit => hit ▸ ready.cleared named aims cleared

theorem Drafting.rename {file : FsPath} (drafting : c.Drafting path target id file w)
    (named : components path ≠ []) (aims : c.Aims path)
    (cleared : Cleared c.framework.root path (target.map fold) w) {answer : Except IoError Unit} {after : World fold}
    (effect : c.handler (.fs (.rename (target.dropLast ++ [temporaryName id]) target)) w answer after) :
    c.Owes w after ∧ c.Ready path target id after := by
  obtain ⟨now, u, rfl, fails⟩ := (c.sound effect).faulty
  obtain ⟨ready, same, held, holds⟩ := drafting
  rcases fails.rename with ⟨error, rfl, rfl⟩ | ⟨rfl, renamed⟩
  · exact ⟨owes_still rfl, ready⟩
  obtain ⟨place, goal, atPlace, atGoal, moves⟩ := FileSystem.Tree.rename_content renamed
  rw [ready.there.sibling_located atPlace, ready.there.located atGoal, ← same] at moves
  obtain ⟨touches, -⟩ := moves held holds ready.there.plain
  refine ready.pays touches fun key hit => ?_
  rcases hit with rfl | rfl
  · rw [same]
    exact ready.hidden named
  · exact ready.cleared named aims cleared

theorem Ready.remove (ready : c.Ready path target id w) (named : components path ≠ [])
    {answer : Except IoError Unit} {after : World fold}
    (effect : c.handler (.fs (.removeFile (target.dropLast ++ [temporaryName id]))) w answer after) :
    c.Owes w after := by
  obtain ⟨now, u, rfl, fails⟩ := (c.sound effect).faulty
  rcases fails.removeFile with ⟨error, rfl, rfl⟩ | ⟨rfl, removed⟩
  · exact owes_still rfl
  obtain ⟨place, atPlace, drops, -⟩ := FileSystem.Tree.removeFile_content removed
  rw [ready.there.sibling_located atPlace] at drops
  exact (ready.pays (drops ready.plain) fun key hit => hit ▸ ready.hidden named).1

/-- Until the temporary file is there nothing but it may change, and the target after that only
when it is cleared. -/
theorem publish_safe (normal : Normalized path) (named : path ≠ []) (aims : c.Aims path)
    {typed source canonical : Text} {existed overwrite : Bool} (ready : c.Ready path target id w) :
    c.protocol.Safe (fun _ after => c.Ready path target id after)
      (c.framework.publishMetadata typed path source canonical target (target.dropLast ++ [temporaryName id])
        existed overwrite) w := by
  have below := normal.components_ne_nil named
  have fail {w : World fold} (ready : c.Ready path target id w) (error : DispatchError) :
      c.protocol.Safe (fun _ after => c.Ready path target id after) (.fail error : ToolProg Bool) w :=
    sequential_fail.mpr ready
  unfold Framework.publishMetadata
  simp only [Prog.bind_eq]
  refine sequential_call.mpr fun answer w effect => ?_
  obtain ⟨owes, ready, made⟩ := ready.create below effect
  refine ⟨owes, ?_⟩
  cases answer with
  | error error => exact fail ready _
  | ok file =>
  refine sequential_call.mpr fun answer w effect => ?_
  obtain ⟨owes, drafting⟩ := (made file rfl).fill below effect
  refine ⟨owes, ?_⟩
  cases answer with
  | error error => exact fail drafting.1 _
  | ok value =>
  refine sequential_call.mpr fun answer after effect => ?_
  obtain ⟨now, u, rfl, synced⟩ := (c.sound effect).faulty
  obtain rfl := synced.syncAll
  refine ⟨owes_still rfl, ?_⟩
  cases answer with
  | error error => exact fail drafting.1 _
  | ok value =>
  -- from here to the publication the tree stands still
  have quiet := c.quiet w.tree w.drawn
  have moved {checks : Checks} {v : World fold} (held : Held w.tree w.drawn checks v) :
      c.Drafting path target id file v := by
    obtain ⟨⟨rooted, drawn, there, plain⟩, same, holds⟩ := drafting
    obtain ⟨tree, draws, -⟩ := held
    rw [← tree] at rooted there plain holds
    rw [← draws] at drawn
    exact ⟨⟨rooted, drawn, there, plain⟩, same, holds⟩
  have held : Held w.tree w.drawn w.checks w := ⟨rfl, rfl, rfl⟩
  have pathAgain {asked : Text} (told : normalizeVaultPath path = .ok asked) : asked = path :=
    Except.ok.inj (told.symm.trans normal.again)
  refine (c.framework.checkPath_safe quiet path held).bind ?_ fun error v checked => ?_
  rotate_left
  · obtain ⟨-, _, held, -⟩ := checked
    exact (moved held).1
  rintro _ v ⟨-, _, held, -⟩
  have resolves : c.protocol.Safe _ ((canonicalVaultPathForWrite c.framework.root path).mapError
      Framework.pathError) v := Looked.mapError (canonicalVaultPathForWrite_safe quiet.toSteady normal held)
  refine resolves.bind ?_ fun error v looked => (moved looked.1).1
  rintro ⟨currentCanonical, currentTarget⟩ v ⟨held, -, found⟩
  have found : Resolved Eq c.framework.root path currentCanonical currentTarget v.tree := found _ rfl
  dsimp only
  refine (c.framework.checkPath_safe quiet path held).bind ?_ fun error v checked => ?_
  rotate_left
  · obtain ⟨-, _, held, -⟩ := checked
    exact (moved held).1
  rintro asked x ⟨same, recent, held, told⟩
  obtain ⟨normalized, rfl⟩ := told _ rfl
  obtain rfl := pathAgain normalized
  rw [show v.tree = x.tree from same] at found
  refine (c.framework.checkPath_safe quiet currentCanonical held).bind ?_ fun error v checked => ?_
  rotate_left
  · obtain ⟨-, _, held, -⟩ := checked
    exact (moved held).1
  rintro identity y ⟨same, recent, held, told⟩
  obtain ⟨normalized, rfl⟩ := told _ rfl
  rw [show x.tree = y.tree from same] at found
  split
  · exact fail (moved held).1 _
  rename_i unchanged
  obtain ⟨-, rfl⟩ : canonical = currentCanonical ∧ target = currentTarget := by simpa [not_or] using unchanged
  have drafting := moved held
  obtain rfl := identity_asked normal found drafting.1.there normalized
  have recent {path : Text} (inside : (path, false) ∈ [(identity, false), (asked, false)]) :
      lastVerdict y.checks path = some false := by
    have clear : ∀ check ∈ [(identity, false), (asked, false)], check.2 = false := by simp
    rw [held.2.2]
    exact lastVerdict_of_recent clear inside
  have cleared : Cleared c.framework.root asked (target.map fold) y :=
    ⟨identity, target, found.canonicalVaultPath normal, rfl, recent (by simp), recent (by simp)⟩
  split
  · refine sequential_call.mpr fun answer after effect => ?_
    obtain ⟨owes, ready⟩ := drafting.rename below aims cleared effect
    refine ⟨owes, ?_⟩
    cases answer with
    | error error => exact fail ready _
    | ok value => exact sequential_done.mpr ready
  · refine sequential_call.mpr fun answer after effect => ?_
    obtain ⟨owes, ready⟩ := drafting.link below aims cleared effect
    refine ⟨owes, ?_⟩
    match answer with
    | .ok () => exact sequential_done.mpr ready
    | .error .alreadyExists => exact fail ready _
    | .error .notFound => exact fail ready _
    | .error .other => exact fail ready _

theorem removeTemporary_safe (normal : Normalized path) (named : path ≠ []) (ready : c.Ready path target id w)
    (result : Except DispatchError Bool) : c.protocol.Safe c.Fine
      (Framework.removeTemporary (target.dropLast ++ [temporaryName id]) result) w := by
  refine sequential_call.mpr fun answer after effect =>
    ⟨ready.remove (normal.components_ne_nil named) effect, ?_⟩
  have returns {convert : DispatchError → DispatchError} :
      c.protocol.Safe c.Fine (Prog.ofExcept convert result : ToolProg Bool) after :=
    Safe.ofExcept fun _ _ => trivial
  match answer with
  | .ok () => exact returns
  | .error .notFound => exact returns
  | .error .alreadyExists => cases result <;> exact fails _
  | .error .other => cases result <;> exact fails _

end Publication

theorem writeMarkdownSchema_safe {path : Text} (normalized : normalizeVaultPath c.write.path = .ok path)
    (source : Text) (overwrite : Bool) (fuel : Nat) (undrawn : w.drawn = []) :
    c.protocol.Safe c.Fine (c.framework.writeMarkdownSchema path source overwrite fuel) w := by
  have same (other : Text) (again : normalizeVaultPath path = .ok other) :
      normalizeVaultPath c.write.path = .ok other := by
    rw [(normalizeVaultPath_ok normalized).again] at again
    rw [normalized, again]
  have creates {v : World fold} (undrawn : v.drawn = []) :
      c.protocol.Safe c.Fine (((c.framework.writer.createNote path source none fuel).mapError
        DispatchError.write).bind fun _ => .done false) v := by
    have called : c.protocol.Safe c.Fine _ v :=
      call_safe ⟨path, none, .create source none, by simp⟩ undrawn fuel same
    exact called.bind (fun _ _ _ => sequential_done.mpr trivial) fun _ _ _ => trivial
  unfold Framework.writeMarkdownSchema
  simp only [Prog.bind_eq]
  split
  · refine (reads_safe (c.framework.readOptionalText_reads path) w.tree w.drawn ⟨rfl, rfl⟩).bind ?_
      fun _ _ _ => trivial
    rintro current v ⟨-, drawn⟩
    have undrawn : v.drawn = [] := drawn.trans undrawn
    cases current with
    | some content =>
      have called : c.protocol.Safe c.Fine _ v := call_safe
        ⟨path, some (c.framework.writer.sha256 content), .replace source none, by simp⟩ undrawn fuel same
      exact called.bind (fun _ _ _ => sequential_done.mpr trivial) fun _ _ _ => trivial
    | none => exact creates undrawn
  · exact creates undrawn

theorem writeMetadata_safe (source : Text) (overwrite : Bool) (fuel : Nat) :
    c.protocol.Safe c.Fine (c.framework.writeMetadata c.write.path source overwrite fuel) c.start := by
  have quiet := c.quiet c.start.tree []
  have held : Held c.start.tree [] c.start.checks c.start := ⟨rfl, c.undrawn, rfl⟩
  unfold Framework.writeMetadata
  simp only [Prog.bind_eq]
  refine (c.framework.checkPath_safe quiet c.write.path held).bind ?_ fun _ _ _ => trivial
  rintro path v ⟨-, recent, held, told⟩
  obtain ⟨normalized, -⟩ := told _ rfl
  have normal := normalizeVaultPath_ok normalized
  split
  · exact writeMarkdownSchema_safe normalized source overwrite fuel held.2.1
  split
  · exact fails _
  rename_i named
  have resolves : c.protocol.Safe _ ((canonicalVaultPathForWrite c.framework.root path).mapError
      Framework.pathError) v := Looked.mapError (canonicalVaultPathForWrite_safe quiet.toSteady normal held)
  refine resolves.bind ?_ fun _ _ _ => trivial
  rintro ⟨canonical, target⟩ v ⟨held, -, found⟩
  have found : Resolved Eq c.framework.root path canonical target v.tree := found _ rfl
  dsimp only
  refine (c.framework.checkPath_safe quiet canonical held).bind ?_ fun _ _ _ => trivial
  rintro _ x ⟨same, recent, held, -⟩
  rw [show v.tree = x.tree from same] at found
  obtain ⟨real, rooted⟩ : ∃ real, x.tree.canonicalize c.framework.root = .ok real := ⟨_, found.choose_spec.choose_spec.choose_spec.1⟩
  have isReal := FileSystem.Tree.walk_real FileSystem.Tree.real_root rooted
  have refuses := Framework.refuseLinks_safe quiet.toSteady [] (components path) normal.proper held rooted
    (by rw [List.append_nil]; exact isReal.plain)
  rw [List.append_nil] at refuses
  refine refuses.bind ?_ fun _ _ _ => trivial
  rintro _ y ⟨held, same, plain⟩
  have plain : y.tree.Plain ((real ++ components path).map fold) := plain _ rfl
  rw [show x.tree = y.tree from same] at found rooted
  refine quiet.io held rfl (fun _ _ _ _ => trivial) fun z held same existed _ => ?_
  rw [show y.tree = z.tree from same] at found rooted plain
  have there := found.target quiet.toSteady normal rooted plain
  split
  · exact fails _
  split
  · exact fails _
  have makes : c.protocol.Safe (fun _ after => Tree.After c.framework.root z.tree after.tree ∧
      after.drawn = z.drawn) ((createDirAll target.dropLast.reverse).mapError fun _ =>
      invalid "Metadata directory creation failed".toList) z :=
    Safe.mapError (createDirAll_safe rooted target.dropLast.reverse)
  refine makes.bind ?_ fun _ _ _ => trivial
  rintro _ u ⟨later, drawn⟩
  refine sequential_call.mpr fun id after effect => ?_
  cases c.sound effect with
  | uniqueId fresh =>
  refine ⟨owes_still rfl, ?_⟩
  have there := there.after later
  have ready : c.Ready path target id { u with drawn := id :: u.drawn } := by
    refine ⟨⟨real, later.root rooted⟩, List.mem_cons_self, there, there.sibling_plain ?_⟩
    rw [List.map_append]
    exact c.unused u id fresh _
  refine (publish_safe normal named ⟨path, normalized, .inl rfl⟩ ready).attempt_bind ?_
  intro result after ready
  exact removeTemporary_safe normal named ready result

theorem program_safe (c : SoloWrite fold) (fuel : Nat) :
    c.protocol.Safe c.Fine (c.write.program c.framework fuel) c.start := by
  have drops {α : Type} {p : ToolProg α} (safe : c.protocol.Safe c.Fine p c.start) :
      c.protocol.Safe c.Fine (p.bind fun _ => .done ()) c.start :=
    safe.bind (fun _ _ _ => sequential_done.mpr trivial) fun _ _ _ => trivial
  cases kind : c.write with
  | mutation call =>
    refine drops (call_safe call c.undrawn fuel fun path normalized => ?_)
    rwa [kind]
  | metadata path source overwrite =>
    have safe := writeMetadata_safe (c := c) source overwrite fuel
    rw [kind] at safe
    exact drops safe

/-- Whatever file a write creates, replaces, links or removes lies below the canonical root, with
no link on its path; and it is a temporary file of the write, or the policy, when it was last asked,
allowed the path of the note or of its place in the trash and the canonical path of that. -/
theorem confined (c : SoloWrite fold) {fuel : Nat} {op : VaultOp} {next : op.Resp → ToolProg Unit}
    {w after : World fold} {answer : op.Resp} {key : List Name}
    (reach : Prog.Reach c.handler (c.write.program c.framework fuel) c.start (.call op next) w)
    (effect : c.handler op w answer after) (changed : after.tree.file key ≠ w.tree.file key) :
    Confined c.framework.root c.Aims (c.Hidden after) w key :=
  (sequential_call.mp ((c.program_safe fuel).run reach) answer after effect).1.confined key changed

end SoloWrite

/-- Whatever may fail, with a policy that blocks nothing, and ids that no file is named with. -/
def freshSetting : Setting id :=
  ⟨True, fun policy => policy = fun _ => false, fun w id => ∀ dir, w.tree.entries (dir ++ [temporaryName id]) = none⟩

def plainFramework : Framework := ⟨["v".toList], ⟨["v".toList], [], plainCodecs, id⟩, plainWriter, rfl, rfl⟩

/-- The removal of the one note of a vault for good. -/
def plainRemoval : SoloWrite id where
  setting := freshSetting
  task := 0
  handler := VaultEffect freshSetting 0
  sound := id
  framework := plainFramework
  write := .mutation ⟨"a.md".toList, some "hello".toList, .hardDelete, by simp⟩
  start := plainVault "a.md".toList "hello".toList
  undrawn := plainVault_undrawn
  fresh path normalized _ drawn _ name other inside same := by
    refine plainDeletion_named path normalized other inside ?_
    rw [show other = tempName name drawn from same.symm]
    exact tempName_getLast name drawn
  unused _ _ fresh := fresh
  separators same := by
    cases same
    exact ⟨id, id, id⟩

/-- The calls of a script, but for ids. -/
def plainCalls (op : VaultOp) (w : World id) : Option (op.Resp × World id) :=
  match op with
  | .uniqueId => none
  | op => (plainScript fun _ => false).run 0 op w

theorem plainCalls_sound (op : VaultOp) (w : World id) (answer : op.Resp) (after : World id)
    (ran : plainCalls op w = some (answer, after)) : VaultEffect freshSetting 0 op w answer after := by
  cases op with
  | uniqueId => cases ran
  | _ => exact (plainScript fun _ => false).run_sound rfl (fun _ _ _ => True.intro) nofun ran

/-- The note is removed, in a step that is confined. -/
theorem SoloWrite.confined_removal : ∃ op next w answer after, plainRemoval.handler op w answer after ∧
    Prog.Reach plainRemoval.handler (plainRemoval.write.program plainFramework 2) plainRemoval.start
      (.call op next) w ∧ Confined ["v".toList] plainRemoval.Aims (plainRemoval.Hidden after) w
        ["v".toList, "a.md".toList] := by
  have ran : ((plainRemoval.write.program plainFramework 2).exec plainCalls plainRemoval.start).map
      (fun ran => ran.2.tree.file ["v".toList, "a.md".toList]) = some none := by decide +kernel
  obtain ⟨⟨result, final⟩, computed, gone⟩ := Option.map_eq_some_iff.mp ran
  have reach := Prog.exec_reach plainCalls_sound computed
  have there : plainRemoval.start.tree.file ["v".toList, "a.md".toList] ≠ none := by decide +kernel
  obtain ⟨op, next, w, answer, after, reach, effect, -, changed⟩ :=
    reach.crossing (fun w => w.tree.file ["v".toList, "a.md".toList]) (by rw [gone]; exact there.symm)
  exact ⟨op, next, w, answer, after, effect, reach, plainRemoval.confined reach effect changed⟩

end SecondBrain
