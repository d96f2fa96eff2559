import SecondBrain.Library.Passages
import SecondBrain.Vault.WriterSecrecy

set_option autoImplicit false

/-! What passes the guard of the writer while nothing fails. -/

namespace SecondBrain

open FileSystem (IoError FsPath FsOp Tree Name special)

variable {fold : Name → Name} {t : Tree fold} {vaultRoot real : FsPath}

section Standing

theorem Tree.nearest_way (rooted : t.canonicalize vaultRoot = .ok real) (names suffix : List Name)
    (proper : ∀ name ∈ names ++ suffix, special name = false) (way : t.Way ((real ++ names).map fold)) :
    ∃ spelled rest, Tree.nearest t (vaultRoot ++ names).reverse suffix = .ok (real ++ spelled, rest) ∧
      (spelled ++ rest).map fold = (names ++ suffix).map fold ∧
      ∀ name ∈ real ++ (spelled ++ rest), special name = false := by
  have found {names suffix spelled : List Name} (proper : ∀ name ∈ names ++ suffix, special name = false)
      (ran : t.canonicalize (vaultRoot ++ names) = .ok (real ++ spelled))
      (folded : spelled.map fold = names.map fold) :
      ∃ spelled rest, Tree.nearest t (vaultRoot ++ names).reverse suffix = .ok (real ++ spelled, rest) ∧
        (spelled ++ rest).map fold = (names ++ suffix).map fold ∧
        ∀ name ∈ real ++ (spelled ++ rest), special name = false := by
    have exact := FileSystem.Tree.walk_real FileSystem.Tree.real_root ran
    refine ⟨spelled, suffix, Tree.nearest_found ran suffix, by simp [folded], fun name inside => ?_⟩
    rw [← List.append_assoc] at inside
    rcases List.mem_append.mp inside with inside | inside
    · exact exact.proper name inside
    · exact proper name (List.mem_append_right _ inside)
  induction names using List.reverseRecOn generalizing suffix with
  | nil =>
    have atRoot : t.canonicalize (vaultRoot ++ []) = .ok (real ++ []) := by simpa using rooted
    exact found proper atRoot rfl
  | append_singleton names name ih =>
    have split : (vaultRoot ++ (names ++ [name])).reverse = name :: (vaultRoot ++ names).reverse := by simp
    have properNames : ∀ other ∈ names ++ [name], special other = false := fun other inside =>
      proper other (List.mem_append_left _ inside)
    rcases FileSystem.Tree.canonicalize_way rooted properNames way with ⟨spelled, ran, folded, -⟩ | ⟨missing, -⟩
    · exact found proper ran folded
    · have dots : name ≠ ['.', '.'] := by
        rintro rfl
        exact absurd (properNames ['.', '.'] (by simp)) (by decide)
      have above : t.Way ((real ++ names).map fold) := by
        have clear := way.clear
        rw [← List.append_assoc, List.map_append, List.map_singleton, List.dropLast_concat] at clear
        exact clear.way
      obtain ⟨spelled, rest, near, folded, all⟩ := ih (name :: suffix) (by simpa using proper) above
      refine ⟨spelled, rest, ?_, by simpa using folded, all⟩
      rw [split, Tree.nearest, ← split, List.reverse_reverse, missing]
      simpa only [dots, if_false] using near

/-- An absolute path that the components of a vault path lead to, in whatever spelling. -/
structure Leads (fold : Name → Name) (real : FsPath) (path : Text) (absolute : FsPath) : Prop where
  below : ∃ names, absolute = real ++ names ∧ names.map fold = (components path).map fold
  proper : ∀ name ∈ absolute, special name = false

theorem Leads.key {path : Text} {absolute : FsPath} (leads : Leads fold real path absolute) :
    absolute.map fold = (real ++ components path).map fold := by
  obtain ⟨names, rfl, folded⟩ := leads.below
  rw [List.map_append, folded, List.map_append]

/-- A path of directories is resolved, to a spelling of its own. -/
theorem Tree.canonicalVaultPath_way (rooted : t.canonicalize vaultRoot = .ok real) {path : Text}
    (normal : Normalized path) (way : t.Way ((real ++ components path).map fold)) :
    ∃ names, Tree.canonicalVaultPath t vaultRoot path = .ok (relativeText names, real ++ names) ∧
      names.map fold = (components path).map fold ∧ Leads fold real path (real ++ names) := by
  obtain ⟨spelled, rest, near, folded, proper⟩ := Tree.nearest_way rooted (components path) []
    (by simpa using normal.proper) way
  rw [List.append_nil] at folded
  have told := Tree.canonicalVaultPath_eq vaultRoot normal rooted (List.prefix_append real spelled) near
  rw [List.append_assoc, List.drop_left] at told
  exact ⟨spelled ++ rest, told, folded, ⟨_, rfl, folded⟩, proper⟩

end Standing

variable {setting : Setting fold} {task : Nat} {w : World fold} {writer : VaultWriter} {path : Text}

/-- The policy and the quarantine leave the path alone, whenever they are asked. -/
structure VaultWriter.Opens (writer : VaultWriter) (setting : Setting fold) (path : Text) : Prop where
  allowed : ∀ policy, setting.policy policy → policy path = false
  shown : path ∉ writer.options.quarantinedPaths
  plain : canonicalConflictPath path = none

/-- Nothing keeps the guard from letting a path pass: the way to it is clear, and both the path
and its canonical spelling are open. -/
structure VaultWriter.Admits (writer : VaultWriter) (setting : Setting fold) (t : Tree fold) (real : FsPath)
    (path : Text) : Prop where
  way : t.Way ((real ++ components path).map fold)
  opens : writer.Opens setting path
  identity : ∀ identity absolute,
    Tree.canonicalVaultPath t writer.options.vaultRoot path = .ok (identity, absolute) → writer.Opens setting identity

/-- The program looked only, and came to a value. -/
def Gives {ε α : Type} (t : Tree fold) (expected : α → Prop) (result : Except ε α) (after : World fold) : Prop :=
  after.tree = t ∧ ∃ value, result = .ok value ∧ expected value

theorem Gives.bind {ε α β : Type} {expected : α → Prop} {p : VaultProg ε α} {next : α → VaultProg ε β}
    {post : Except ε β → World fold → Prop} (total : p.Total (VaultEffect setting task) (Gives t expected) w)
    (rest : ∀ value (after : World fold), after.tree = t → expected value →
      (next value).Total (VaultEffect setting task) post after) :
    (p.bind next).Total (VaultEffect setting task) post w := by
  refine total.bind ?_ ?_
  · rintro value after ⟨still, _, same, here⟩
    cases same
    exact rest value after still here
  · rintro error after ⟨-, _, never, -⟩
    cases never

theorem Gives.mapError {ε δ α : Type} {expected : α → Prop} {p : VaultProg ε α} {convert : ε → δ}
    (total : p.Total (VaultEffect setting task) (Gives t expected) w) :
    (p.mapError convert).Total (VaultEffect setting task) (Gives t expected) w := by
  refine Prog.Total.mapError (total.weaken ?_)
  rintro _ after ⟨still, value, rfl, here⟩
  exact ⟨still, value, rfl, here⟩

/-- After a part that gives a value, what is known of the whole is known of the rest. -/
theorem Gives.passed {ε α β : Type} {expected : α → Prop} {p : VaultProg ε α} {next : α → VaultProg ε β}
    {post : Except ε β → World fold → Prop} (gives : p.Total (VaultEffect setting task) (Gives t expected) w)
    (total : (p.bind next).Total (VaultEffect setting task) post w) :
    ∃ value after, after.tree = t ∧ expected value ∧ (next value).Total (VaultEffect setting task) post after := by
  obtain ⟨_, after, ⟨still, value, rfl, here⟩, rest⟩ := gives.meet total.of_bind
  exact ⟨value, after, still, here, rest⟩

section Guard

theorem checkPolicy_passes (asked : ∃ policy, setting.policy policy) (opens : writer.Opens setting path) :
    (writer.checkPolicy path).Total (VaultEffect setting task) (Gives w.tree fun _ => True) w := by
  obtain ⟨policy, inForce⟩ := asked
  refine ⟨⟨_, _, .isBlocked path inForce⟩, fun answer after effect => ?_⟩
  cases effect with
  | isBlocked _ inForce =>
    rw [opens.allowed _ inForce]
    have clean : (path ∈ writer.options.quarantinedPaths || (canonicalConflictPath path).isSome) = false := by
      simp [opens.shown, opens.plain]
    simp only [Prog.done_bind, Bool.false_eq_true, if_false, clean]
    exact ⟨rfl, (), rfl, trivial⟩

variable (exact : ¬ setting.faults) (rooted : w.tree.canonicalize vaultRoot = .ok real)
include exact rooted

theorem existingAncestor_passes (names : List Name) (proper : ∀ name ∈ names, special name = false)
    (clear : w.tree.Clear ((real ++ names).map fold)) :
    (existingAncestor real (vaultRoot ++ names).reverse).Total (VaultEffect setting task)
      (Gives w.tree (real <+: ·)) w := by
  have finds {path found : FsPath} (told : w.tree.canonicalize path = .ok found) (inside : real <+: found) :
      (VaultProg.io (.canonicalize path)).Total (VaultEffect setting task) (Gives w.tree (real <+: ·)) w := by
    refine reads_total exact rfl ?_
    rw [show FsOp.ask w.tree (.canonicalize path) = w.tree.canonicalize path from rfl, told]
    exact ⟨rfl, found, rfl, inside⟩
  have present {path found : FsPath} (told : w.tree.canonicalize path = .ok found) :
      w.tree.tryExists path = .ok true := by
    obtain ⟨entry, bound⟩ := Option.isSome_iff_exists.mp
      (FileSystem.Tree.walk_real FileSystem.Tree.real_root told).present
    unfold FileSystem.Tree.tryExists FileSystem.Tree.resolve
    simp only [told, bound, bind, Except.bind]
  induction names using List.reverseRecOn with
  | nil =>
    rw [List.append_nil]
    have there := present rooted
    cases split : vaultRoot.reverse with
    | nil =>
      obtain rfl := List.reverse_eq_nil_iff.mp split
      unfold existingAncestor
      refine reads_total exact rfl ?_
      rw [show FsOp.ask w.tree (.tryExists []) = w.tree.tryExists [] from rfl, there]
      exact finds rooted List.prefix_rfl
    | cons name parent =>
      unfold existingAncestor
      rw [← split, List.reverse_reverse]
      refine reads_total exact rfl ?_
      rw [show FsOp.ask w.tree (.tryExists vaultRoot) = w.tree.tryExists vaultRoot from rfl, there]
      exact finds rooted List.prefix_rfl
  | append_singleton names name ih =>
    have split : (vaultRoot ++ (names ++ [name])).reverse = name :: (vaultRoot ++ names).reverse := by simp
    rw [split]
    unfold existingAncestor
    rw [← split, List.reverse_reverse]
    refine reads_total exact rfl ?_
    rw [show FsOp.ask w.tree (.tryExists (vaultRoot ++ (names ++ [name]))) =
      w.tree.tryExists (vaultRoot ++ (names ++ [name])) from rfl,
      FileSystem.Tree.tryExists_way rooted proper clear.way]
    rcases FileSystem.Tree.canonicalize_way rooted proper clear.way with ⟨spelled, ran, -, there⟩ | ⟨-, absent⟩
    · rw [there]
      exact finds ran (List.prefix_append _ _)
    · rw [absent]
      refine ih (fun other inside => proper other (List.mem_append_left _ inside)) (clear.mono ?_)
      rw [← List.append_assoc, @List.map_append _ _ fold (real ++ names)]
      exact List.prefix_append _ _

theorem resolveVaultPathForWrite_passes (normal : Normalized path) (named : path ≠ [])
    (way : w.tree.Way ((real ++ components path).map fold)) :
    (resolveVaultPathForWrite vaultRoot path).Total (VaultEffect setting task) (Gives w.tree fun _ => True) w := by
  obtain ⟨front, last, split⟩ : ∃ front last, components path = front ++ [last] := by
    rcases List.eq_nil_or_concat (components path) with empty | ⟨front, last, split⟩
    · exact absurd empty (normal.components_ne_nil named)
    · exact ⟨front, last, by rw [split, List.concat_eq_append]⟩
  have proper := normal.proper
  rw [split] at proper way
  have clear := way.clear
  rw [← List.append_assoc, List.map_append, List.map_singleton, List.dropLast_concat] at clear
  have reversed : (vaultRoot ++ (front ++ [last])).reverse = last :: (vaultRoot ++ front).reverse := by simp
  unfold resolveVaultPathForWrite
  simp only [normal.resolve, Prog.ofExcept_ok, Prog.done_bind, Prog.bind_eq]
  refine reads_total exact rfl ?_
  rw [show FsOp.ask w.tree (.canonicalize vaultRoot) = w.tree.canonicalize vaultRoot from rfl, rooted]
  simp only [split, reversed, Prog.attempt, Prog.ofExcept_ok, Prog.done_bind]
  have above : ((existingAncestor real (vaultRoot ++ front).reverse).mapError VaultPathError.io).Total
      (VaultEffect setting task) (Gives w.tree (real <+: ·)) w :=
    Gives.mapError (existingAncestor_passes exact rooted front
      (fun name inside => proper name (List.mem_append_left _ inside)) clear)
  refine Gives.bind above fun existing after still inside => ?_
  rw [if_pos (List.isPrefixOf_iff_prefix.mpr inside)]
  exact ⟨still, _, rfl, trivial⟩

theorem refuseSymlinks_passes (walked rest : List Name) (proper : ∀ name ∈ walked ++ rest, special name = false)
    (way : w.tree.Way ((real ++ (walked ++ rest)).map fold)) :
    (VaultWriter.refuseSymlinks (vaultRoot ++ walked) rest).Total (VaultEffect setting task)
      (Gives w.tree fun _ => True) w := by
  induction rest generalizing walked with
  | nil => exact ⟨rfl, (), rfl, trivial⟩
  | cons component rest ih =>
    have clear : w.tree.Clear ((real ++ walked).map fold) := by
      refine way.clear.mono ?_
      rw [← List.append_assoc, @List.map_append _ _ fold (real ++ walked),
        List.dropLast_append_of_ne_nil (by simp)]
      exact List.prefix_append _ _
    unfold VaultWriter.refuseSymlinks
    refine reads_total exact rfl ?_
    rw [List.append_assoc, show FsOp.ask w.tree (.symlinkMetadata (vaultRoot ++ (walked ++ [component]))) =
      w.tree.symlinkMetadata (vaultRoot ++ (walked ++ [component])) from rfl]
    rcases FileSystem.Tree.symlinkMetadata_way rooted
      (fun name inside => proper name (List.mem_append_left _ inside))
      (proper component (by simp)) clear with ⟨entry, bound, told⟩ | ⟨-, told⟩
    · have part : (real ++ (walked ++ [component])).map fold <+: (real ++ (walked ++ component :: rest)).map fold := by
        simp
      have file := way.plain _ part entry bound
      rw [told]
      simp only [Prog.done_bind, FileSystem.Entry.metadata, file, Bool.false_eq_true, if_false]
      exact ih (walked ++ [component]) (by simpa using proper) (by simpa using way)
    · rw [told]
      exact ⟨rfl, (), rfl, trivial⟩

end Guard

/-- What is admitted passes the guard. -/
theorem guard_passes (exact : ¬ setting.faults) (asked : ∃ policy, setting.policy policy)
    (rooted : w.tree.canonicalize writer.options.vaultRoot = .ok real) (normal : Normalized path)
    (named : path ≠ []) (admits : writer.Admits setting w.tree real path) :
    (writer.guard path).Total (VaultEffect setting task) (Gives w.tree (Leads fold real path)) w := by
  obtain ⟨names, told, -, leads⟩ := Tree.canonicalVaultPath_way rooted normal admits.way
  have opens := admits.identity _ _ told
  have way := admits.way
  unfold VaultWriter.guard
  simp only [Prog.bind_eq]
  refine Gives.bind (checkPolicy_passes asked admits.opens) fun _ u still _ => ?_
  rw [← still] at rooted way told ⊢
  refine Gives.bind (Gives.mapError (resolveVaultPathForWrite_passes exact rooted normal named way))
    fun _ v still _ => ?_
  rw [← still] at rooted way told ⊢
  have links : (VaultWriter.refuseSymlinks (writer.options.vaultRoot ++ []) (components path)).Total
      (VaultEffect setting task) (Gives v.tree fun _ => True) v :=
    refuseSymlinks_passes exact rooted [] (components path) normal.proper way
  rw [List.append_nil] at links
  refine Gives.bind links fun _ x still _ => ?_
  rw [← still] at told ⊢
  have canonical : (canonicalVaultPathForWrite writer.options.vaultRoot path).Total (VaultEffect setting task)
      (Gives x.tree (· = (relativeText names, real ++ names))) x := by
    refine (canonicalVaultPathForWrite_total exact _ _).weaken ?_
    rintro _ _ ⟨rfl, rfl⟩
    exact ⟨rfl, _, told, rfl⟩
  refine Gives.bind (Gives.mapError canonical) fun found y still same => ?_
  subst same
  rw [← still]
  refine Gives.bind (checkPolicy_passes asked opens) fun _ z still _ => ?_
  exact ⟨still, _, rfl, leads⟩

/-- A path that was let pass is open. -/
theorem checkPolicy_opens {α : Type} {next : Unit → WriterProg α} {post : Except VaultWriteError α → World fold → Prop}
    (asked : ∃ policy, setting.policy policy) (refuses : ∀ error after, ¬ post (.error error) after)
    (total : ((writer.checkPolicy path).bind next).Total (VaultEffect setting task) post w) :
    writer.Opens setting path ∧ ∃ after : World fold, after.tree = w.tree ∧
      (next ()).Total (VaultEffect setting task) post after := by
  have passes (policy : Text → Bool) (inForce : setting.policy policy) : policy path = false ∧
      (path ∈ writer.options.quarantinedPaths || (canonicalConflictPath path).isSome) = false ∧
      (next ()).Total (VaultEffect setting task) post
        { w with checks := (path, policy path) :: w.checks } := by
    have goesOn := total.2 _ _ (.isBlocked path inForce)
    cases verdict : policy path with
    | true =>
      rw [verdict] at goesOn
      exact absurd goesOn (refuses _ _)
    | false =>
      rw [verdict] at goesOn
      cases hidden : path ∈ writer.options.quarantinedPaths || (canonicalConflictPath path).isSome with
      | true =>
        simp only [Prog.done_bind, Bool.false_eq_true, if_false, hidden, if_true] at goesOn
        exact absurd goesOn (refuses _ _)
      | false =>
        simp only [Prog.done_bind, Bool.false_eq_true, if_false, hidden] at goesOn
        exact ⟨rfl, rfl, goesOn⟩
  obtain ⟨policy, inForce⟩ := asked
  obtain ⟨-, clean, goesOn⟩ := passes policy inForce
  rw [Bool.or_eq_false_iff, decide_eq_false_iff_not, Option.isSome_eq_false_iff, Option.isNone_iff_eq_none] at clean
  exact ⟨⟨fun policy inForce => (passes policy inForce).1, clean.1, clean.2⟩,
    { w with checks := (path, policy path) :: w.checks }, rfl, goesOn⟩

/-- What lets a note pass admits it. -/
theorem guard_admits (exact : ¬ setting.faults) (asked : ∃ policy, setting.policy policy)
    (rooted : w.tree.canonicalize writer.options.vaultRoot = .ok real) (normal : Normalized path)
    (named : path ≠ []) {text : Text}
    (readable : w.tree.readToString (writer.options.vaultRoot ++ components path) = .ok text)
    (accepts : (writer.guard path).Total (VaultEffect setting task)
      (fun result _ => ∃ absolute, result = .ok absolute) w) : writer.Admits setting w.tree real path := by
  have plain : w.tree.Plain ((real ++ components path).map fold) := by
    have quiet : Quiet (Protocol.sequential (VaultEffect setting task) fun _ _ => True) setting task
        writer.options.vaultRoot Eq (fun _ v => v.tree = w.tree) :=
      { refl := fun _ => rfl
        trans := Eq.trans
        after := by
          rintro t _ rfl
          exact .refl _ t
        handler := id
        rely := by
          rintro checks s _ rfl here
          exact ⟨here, rfl⟩
        stay := fun _ => trivial
        checked := fun here path verdict => ⟨_, rfl, trivial, here⟩ }
    have safe : (Protocol.sequential (VaultEffect setting task) fun _ _ => True).Safe
        (Guarded _ Eq (fun _ v => v.tree = w.tree) writer.options.vaultRoot path [] w) (writer.guard path) w :=
      guard_safe writer quiet normal rfl
    obtain ⟨_, after, ⟨⟨absolute, rfl⟩, reach⟩, -⟩ := accepts.reached.meet accepts
    obtain ⟨same, identity, -, target, -⟩ := Protocol.sequential_done.mp (safe.run reach)
    change w.tree = after.tree at same
    change Target writer.options.vaultRoot path absolute after.tree at target
    rw [← same] at target
    obtain ⟨real', below, rooted', rfl, folded⟩ := target.below
    obtain rfl : real = real' := Except.ok.inj (rooted.symm.trans rooted')
    have clean := target.plain
    rwa [List.map_append, folded, ← List.map_append] at clean
  have way : w.tree.Way ((real ++ components path).map fold) := by
    cases found : w.tree.canonicalize (writer.options.vaultRoot ++ components path) with
    | error error => simp [FileSystem.Tree.readToString, FileSystem.Tree.resolve, found, bind, Except.bind] at readable
    | ok place =>
      obtain ⟨spelled, rfl, folded⟩ := FileSystem.Tree.canonicalize_below rooted normal.proper plain found
      have clear := (FileSystem.Tree.canonicalize_spelled found).clear
      rw [List.map_append, folded, ← List.map_append] at clear
      exact ⟨clear, plain _ List.prefix_rfl⟩
  obtain ⟨names, told, -, leads⟩ := Tree.canonicalVaultPath_way rooted normal way
  unfold VaultWriter.guard at accepts
  simp only [Prog.bind_eq] at accepts
  obtain ⟨opens, u, still, total⟩ := checkPolicy_opens asked (fun _ _ ⟨_, never⟩ => by cases never) accepts
  refine ⟨way, opens, fun identity absolute same => ?_⟩
  rw [told] at same
  cases same
  rw [← still] at rooted way told
  obtain ⟨_, v, still, -, total⟩ := Gives.passed (Gives.mapError
    (resolveVaultPathForWrite_passes exact rooted normal named way)) total
  rw [← still] at rooted way told
  have links : (VaultWriter.refuseSymlinks (writer.options.vaultRoot ++ []) (components path)).Total
      (VaultEffect setting task) (Gives v.tree fun _ => True) v :=
    refuseSymlinks_passes exact rooted [] (components path) normal.proper way
  rw [List.append_nil] at links
  obtain ⟨_, x, still, -, total⟩ := Gives.passed links total
  rw [← still] at told
  have canonical : (canonicalVaultPathForWrite writer.options.vaultRoot path).Total (VaultEffect setting task)
      (Gives x.tree (· = (relativeText names, real ++ names))) x := by
    refine (canonicalVaultPathForWrite_total exact _ _).weaken ?_
    rintro _ _ ⟨rfl, rfl⟩
    exact ⟨rfl, _, told, rfl⟩
  obtain ⟨_, y, -, rfl, total⟩ := Gives.passed (Gives.mapError canonical) total
  exact (checkPolicy_opens asked (fun _ _ ⟨_, never⟩ => by cases never) total).1

end SecondBrain
