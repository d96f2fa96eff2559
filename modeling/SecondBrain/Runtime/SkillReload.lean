import SecondBrain.Runtime.Skills
import Mathlib.Data.List.Sort

set_option autoImplicit false

/-! The runtime state that skills are published in, and the programs that read and reload it. -/

namespace SecondBrain

/-- The calls of the tasks that deal with skills. `readNote` goes through the reader of the
loader, which blocks nothing, and `resolveTarget` tells the canonical vault path of a path. -/
inductive SkillOp where
  | readNote (path : Text)
  | canonicalRoot
  | resolveTarget (path : Text)
  | lockReload
  | unlockReload
  | writeSkills
  | readSkills
  | dropSkills
  | replacePolicy (patterns : List Text)
  | publish (load : SkillLoad)
  | snapshot
  | isBlocked (path : Text)
  | resolveNote (path : Text)
  | readFile (path : Text)

/-- What a call answers: the content of a note, if it could be read, the canonical vault path, if
there is one, and so on. -/
abbrev SkillOp.Resp : SkillOp → Type
  | readNote _ | resolveTarget _ | readFile _ => Option Text
  | canonicalRoot | isBlocked _ => Bool
  | lockReload | unlockReload | writeSkills | readSkills | dropSkills => Unit
  | replacePolicy _ | publish _ => Unit
  | snapshot => SkillLoad
  | resolveNote _ => Option (Option Text)

/-- What a load saw of the vault: whether its root has a canonical path, and each answer to a
call. -/
structure Sighting where
  root : Bool
  notes : List (Text × Option Text)
  targets : List (Text × Option Text)

def Sighting.blank : Sighting := ⟨false, [], []⟩

/-- The shared state of the runtime. The two last fields only record: what each task saw since it
took the reload lock, and what had been seen for the published snapshot. -/
structure SkillWorld where
  policy : PathPolicy
  skills : SkillLoad
  reloading : Option Nat
  writing : Option Nat
  reading : List Nat
  seen : Nat → Sighting
  published : Sighting

def SkillWorld.see (w : SkillWorld) (task : Nat) (sighting : Sighting) : SkillWorld :=
  { w with seen := Function.update w.seen task sighting }

/-- What a call of a task may do. The vault may answer anything. -/
inductive SkillEffect (engine : PathEngine) (task : Nat) :
    (op : SkillOp) → SkillWorld → op.Resp → SkillWorld → Prop where
  | readNote (w : SkillWorld) (path : Text) (answer : Option Text) :
      SkillEffect engine task (.readNote path) w answer (w.see task { w.seen task with
        notes := (w.seen task).notes ++ [(path, answer)] })
  | canonicalRoot (w : SkillWorld) (answer : Bool) :
      SkillEffect engine task .canonicalRoot w answer (w.see task { w.seen task with root := answer })
  | resolveTarget (w : SkillWorld) (path : Text) (answer : Option Text) :
      SkillEffect engine task (.resolveTarget path) w answer (w.see task { w.seen task with
        targets := (w.seen task).targets ++ [(path, answer)] })
  | lockReload {w : SkillWorld} (free : w.reloading = none) :
      SkillEffect engine task .lockReload w () { w.see task .blank with reloading := some task }
  | unlockReload (w : SkillWorld) : SkillEffect engine task .unlockReload w () { w with reloading := none }
  | writeSkills {w : SkillWorld} (alone : w.writing = none) (unread : w.reading = []) :
      SkillEffect engine task .writeSkills w () { w with writing := some task }
  | readSkills {w : SkillWorld} (settled : w.writing = none) :
      SkillEffect engine task .readSkills w () { w with reading := task :: w.reading }
  | dropSkills (w : SkillWorld) :
      SkillEffect engine task .dropSkills w () { w with
        writing := if w.writing = some task then none else w.writing
        reading := w.reading.erase task }
  | replacePolicy (w : SkillWorld) (patterns : List Text) :
      SkillEffect engine task (.replacePolicy patterns) w () { w with policy := .new engine patterns }
  | publish (w : SkillWorld) (load : SkillLoad) :
      SkillEffect engine task (.publish load) w () { w with
        skills := load
        published := w.seen task }
  | snapshot (w : SkillWorld) : SkillEffect engine task .snapshot w w.skills w
  | isBlocked (w : SkillWorld) (path : Text) :
      SkillEffect engine task (.isBlocked path) w (w.policy.isBlocked engine path) w
  | resolveNote (w : SkillWorld) (path : Text) (answer : Option (Option Text)) :
      SkillEffect engine task (.resolveNote path) w answer w
  | readFile (w : SkillWorld) (path : Text) (answer : Option Text) :
      SkillEffect engine task (.readFile path) w answer w

inductive ReadError where
  | path (error : VaultPathError)
  | blocked
  | ignored (path : Text)
  | notMarkdown (path : Text)
  | io
deriving DecidableEq

abbrev SkillProg (α : Type) : Type := Prog SkillOp SkillOp.Resp ReadError α

namespace SkillProg

def call (op : SkillOp) : SkillProg op.Resp := .perform op

end SkillProg

open SkillProg (call)

section Loading

variable (codecs : Codecs) (config : PrivacyConfig)

/-- The status of a link that is no vault path. -/
def invalidStatus : Except Text Text → Option SkillStatus
  | .ok _ => none
  | .error path => some (errorStatus path "Vault path is invalid".toList)

/-- What the maps link to, and a status for each link that is no vault path and for each map
that could not be read. -/
def readMaps : List Text → SkillProg (List Text × List SkillStatus)
  | [] => return ([], [])
  | map :: maps => do
    let answer ← call (.readNote map)
    let links := (answer.map fun content => extractCandidates content map).getD []
    let unread := if answer.isNone then [errorStatus map "Vault path could not be read".toList] else []
    let (paths, statuses) ← readMaps maps
    return (links.filterMap Except.toOption ++ paths, unread ++ links.filterMap invalidStatus ++ statuses)

/-- The second loop of `load_skills`, over the sorted candidates. -/
def readCandidates (load : SkillLoad) : List Text → SkillProg SkillLoad
  | [] => return load
  | path :: paths => do
    if path ∈ config.mapPaths then readCandidates load paths
    else
      let answer ← call (.readNote path)
      match answer.elim (.error "Vault path could not be read".toList) (parseSkill codecs path) with
      | .ok skill =>
        readCandidates ⟨insertSkill skill load.skills, load.statuses ++ [loadedStatus skill]⟩ paths
      | .error message =>
        readCandidates { load with statuses := load.statuses ++ [errorStatus path message] } paths

/-- A `BTreeSet` of paths in its order. -/
def sortedPaths (paths : List Text) : List Text := (paths.insertionSort (· ≤ ·)).dedup

/-- Load configured maps, then their directly linked skill notes. -/
def loadSkills : SkillProg SkillLoad := do
  let (paths, statuses) ← readMaps config.mapPaths
  readCandidates codecs config ⟨[], statuses⟩ (sortedPaths paths)

/-- The canonical targets of those paths that have one. -/
def resolveTargets : List Text → SkillProg (List Text)
  | [] => return []
  | path :: paths => do
    let target ← call (.resolveTarget path)
    let targets ← resolveTargets paths
    return target.toList ++ targets

/-- Every pattern that the policy is to deny: the configured ones, the maps, what they link to
and the canonical targets of all these. -/
def effectivePaths (load : SkillLoad) : SkillProg (List Text) := do
  let paths := config.blockedPaths ++ config.mapPaths ++ load.statuses.map (·.path)
  if ← call .canonicalRoot then
    let targets ← resolveTargets paths
    return sortedPaths (paths ++ targets)
  else return sortedPaths paths

def gather : SkillProg (SkillLoad × List Text) := do
  let load ← loadSkills codecs config
  let paths ← effectivePaths config load
  return (load, paths)

end Loading

inductive SkillReply where
  | reloaded (statuses : List SkillStatus)
  | skills (skills : List LoadedSkill)
  | note (path content : Text)

/-- The swap: the policy first, then the snapshot, under the write lock. -/
def publishSkills (load : SkillLoad) (paths : List Text) : SkillProg Unit := do
  call .writeSkills
  call (.replacePolicy paths)
  call (.publish load)
  call .dropSkills

def reloadSkills (codecs : Codecs) (config : PrivacyConfig) : SkillProg SkillReply := do
  call .lockReload
  let (load, paths) ← gather codecs config
  publishSkills load paths
  call .unlockReload
  return .reloaded load.statuses

/-- Valid loaded skills. -/
def loadedSkills : SkillProg SkillReply := do
  call .readSkills
  let load ← call .snapshot
  call .dropSkills
  return .skills load.skills

def skillsStatus : SkillProg SkillReply := do
  call .readSkills
  let load ← call .snapshot
  call .dropSkills
  return .reloaded load.statuses

/-- The check of one path against the policy in force. -/
def refuseBlocked (path : Text) : SkillProg Unit := do
  if ← call (.isBlocked path) then .fail .blocked else return ()

/-- Read a note through the shared policy. -/
def readNote (isIgnored : Text → Bool) (input : Text) : SkillProg SkillReply := do
  let normalized ← .ofExcept .path (normalizeVaultPath input)
  refuseBlocked normalized
  if isIgnored normalized then .fail (.ignored normalized)
  else if !isMarkdownPath normalized then .fail (.notMarkdown normalized)
  else
    match ← call (.resolveNote normalized) with
    | none => .fail .io
    | some relative =>
      match relative with
      | some relative =>
        refuseBlocked relative
        if isIgnored relative then .fail (.ignored relative)
        else
          match ← call (.readFile normalized) with
          | none => .fail .io
          | some content =>
            -- reload may have changed the policy while the file system read awaited
            refuseBlocked normalized
            refuseBlocked relative
            return .note normalized content
      | none =>
        match ← call (.readFile normalized) with
        | none => .fail .io
        | some content =>
          refuseBlocked normalized
          return .note normalized content

inductive SkillTask where
  | reload
  | prompts
  | status
  | read (isIgnored : Text → Bool) (input : Text)

def SkillTask.program (codecs : Codecs) (config : PrivacyConfig) : SkillTask → SkillProg SkillReply
  | reload => reloadSkills codecs config
  | prompts => loadedSkills
  | status => skillsStatus
  | read isIgnored input => readNote isIgnored input

/-- Before anything is loaded. -/
def SkillWorld.blank : SkillWorld :=
  ⟨⟨[], []⟩, ⟨[], []⟩, none, none, [], fun _ => .blank, .blank⟩

/-- The state that `Runtime::create` leaves, after a first load without a policy. -/
def Created (engine : PathEngine) (codecs : Codecs) (config : PrivacyConfig) (w : SkillWorld) : Prop :=
  ∃ load paths loaded, Prog.Reach (SkillEffect engine 0) (gather codecs config) .blank
      (.done (load, paths)) loaded ∧
    w = { SkillWorld.blank with
      policy := .new engine paths
      skills := load
      seen := loaded.seen
      published := loaded.seen 0 }

end SecondBrain
