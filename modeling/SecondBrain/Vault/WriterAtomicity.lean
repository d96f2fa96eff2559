import SecondBrain.Vault.FrontmatterEncoding
import SecondBrain.Vault.WriterRuns

set_option autoImplicit false

/-! Every call is all or nothing, wherever it fails or stops. -/

namespace SecondBrain

open FileSystem (Tree Name Content FsPath FsOp)

variable {fold : Name → Name}

namespace Attempt

/-- The complete new content of the target: the text made of the old one, or nothing. -/
def New (a : Attempt fold) (content : Option Content) : Prop :=
  (∃ known text, Intended a.writer a.base a.mutation known text ∧
      a.before a.key = known.map .utf8 ∧ content = some (.utf8 text)) ∨
    (a.mutation = .delete ∨ a.mutation = .hardDelete) ∧ content = none

/-- A note that is being moved to the trash is complete in one of the two places, and was
linked where nothing was. -/
def Rescued (a : Attempt fold) (w : World fold) : Prop :=
  ∀ held, a.before a.key = some held → w.tree.content a.key = some held ∨
    ∃ target, a.Chosen target ∧ w.tree.content (keyBelow fold a.home target) = some held

variable {a : Attempt fold} {phase : Phase} {checks : Checks} {w : World fold}

/-- The trash is not where the note is. -/
theorem Chosen.apart {target current : Text} (chosen : a.Chosen target) (read : a.Known (some current)) :
    keyBelow fold a.home target ≠ a.key := by
  intro same
  have missing := chosen.2
  rw [same, read current rfl] at missing
  cases missing

theorem Known.held {known : Option Text} (read : a.Known known) (absent : known = none → a.before a.key = none) :
    a.before a.key = known.map .utf8 := by
  cases known with
  | none => exact absent rfl
  | some current => exact read current rfl

/-- The target is complete, old or new. -/
theorem At.target_whole (at' : a.At phase checks w) :
    w.tree.content a.key = a.before a.key ∨ a.New (w.tree.content a.key) := by
  rw [at'.at_key]
  have facts := at'.facts
  cases phase with
  | looking known id => exact .inl rfl
  | drafting known id temp file text => exact .inl rfl
  | published known id temp text =>
    obtain ⟨read, -, intended, absent⟩ := facts
    exact .inr (.inl ⟨known, text, intended, Known.held read absent, Function.update_self _ _ _⟩)
  | wrote known text =>
    obtain ⟨read, intended, absent⟩ := facts
    exact .inr (.inl ⟨known, text, intended, Known.held read absent, Function.update_self _ _ _⟩)
  | linked current target =>
    obtain ⟨read, -, chosen, -⟩ := facts
    exact .inl (Function.update_of_ne (chosen.apart read).symm _ _)
  | trashed current target =>
    exact .inr (.inr ⟨.inl facts.2.1, Function.update_self _ _ _⟩)
  | stranded current target =>
    obtain ⟨read, -, chosen, -⟩ := facts
    exact .inl (Function.update_of_ne (chosen.apart read).symm _ _)
  | removed current => exact .inr (.inr ⟨.inr facts.2, Function.update_self _ _ _⟩)

/-- No phase gives up a file other than the target. -/
theorem At.keeps_notes (at' : a.At phase checks w) {key : List Name} (apart : key ≠ a.key)
    {held : Content} (old : a.before key = some held) :
    phase.notes fold a.home a.path a.before key = some held := by
  have elsewhere {target : Text} (chosen : a.Chosen target) : key ≠ keyBelow fold a.home target := by
    rintro rfl
    have missing := chosen.2
    rw [old] at missing
    cases missing
  have facts := at'.facts
  cases phase with
  | looking known id => exact old
  | drafting known id temp file text => exact old
  | published known id temp text => exact (Function.update_of_ne apart _ _).trans old
  | wrote known text => exact (Function.update_of_ne apart _ _).trans old
  | linked current target => exact (Function.update_of_ne (elsewhere facts.2.2.1) _ _).trans old
  | trashed current target =>
    exact (Function.update_of_ne apart _ _).trans
      ((Function.update_of_ne (elsewhere facts.2.2) _ _).trans old)
  | stranded current target => exact (Function.update_of_ne (elsewhere facts.2.2.1) _ _).trans old
  | removed current => exact (Function.update_of_ne apart _ _).trans old

theorem At.others_whole (at' : a.At phase checks w) {key : List Name} (apart : key ≠ a.key)
    {held : Content} (old : a.before key = some held) : w.tree.content key = some held := by
  have kept := at'.keeps_notes apart old
  rcases at'.files key with same | ⟨missing, -⟩
  · exact same.trans kept
  · rw [kept] at missing
    cases missing

theorem At.rescued (at' : a.At phase checks w) (kind : a.mutation = .delete) : a.Rescued w := by
  intro held old
  have unintended {known : Option Text} {text : Text} : ¬ Intended a.writer a.base a.mutation known text := by
    rw [kind]
    rintro (_ | ⟨_, made⟩)
    cases made
  rw [at'.at_key]
  have facts := at'.facts
  cases phase with
  | looking known id => exact .inl old
  | drafting known id temp file text => exact .inl old
  | published known id temp text => exact absurd facts.2.2.1 unintended
  | wrote known text => exact absurd facts.2.1 unintended
  | linked current target =>
    exact .inl ((Function.update_of_ne (facts.2.2.1.apart facts.1).symm _ _).trans old)
  | trashed current target =>
    obtain ⟨read, -, chosen⟩ := facts
    refine .inr ⟨target, chosen, ?_⟩
    have there : (Phase.trashed current target).notes fold a.home a.path a.before
        (keyBelow fold a.home target) = some (.utf8 current) :=
      (Function.update_of_ne (chosen.apart read) _ _).trans (Function.update_self _ _ _)
    have same : held = .utf8 current := Option.some.inj (old.symm.trans (read current rfl))
    rcases at'.files (keyBelow fold a.home target) with here | ⟨missing, -⟩
    · rw [here, there, same]
    · rw [there] at missing
      cases missing
  | stranded current target =>
    exact .inl ((Function.update_of_ne (facts.2.2.1.apart facts.1).symm _ _).trans old)
  | removed current =>
    obtain ⟨-, other⟩ := facts
    rw [kind] at other
    cases other

end Attempt

namespace Solo

variable {c : Solo fold} {w : World fold}

/-- All or nothing: at the target the complete old or the complete new content, every other
file as it was, and a note that is moved to the trash complete in one of the two places. -/
structure Whole (c : Solo fold) (aim : c.Aim) (w : World fold) : Prop where
  target : w.tree.content (c.attempt aim c.start.audit).key = c.start.tree.content (c.attempt aim c.start.audit).key ∨
    (c.attempt aim c.start.audit).New (w.tree.content (c.attempt aim c.start.audit).key)
  others : ∀ key, key ≠ (c.attempt aim c.start.audit).key → ∀ held, c.start.tree.content key = some held →
    w.tree.content key = some held
  rescued : c.request.mutation = .delete → (c.attempt aim c.start.audit).Rescued w

theorem whole_of_at {aim : c.Aim} {audit : AuditStore} {phase : Phase} {checks : Checks}
    (at' : (c.attempt aim audit).At phase checks w) : c.Whole aim w where
  target := at'.target_whole
  others _ apart _ old := at'.others_whole apart old
  rescued kind := at'.rescued kind

theorem Stage.whole (stage : c.Stage w) :
    Tree.After c.writer.options.vaultRoot c.start.tree w.tree ∧
      (w.tree = c.start.tree ∨ ∃ aim, c.Whole aim w) := by
  cases stage with
  | locking tree =>
    rw [tree]
    exact ⟨.refl _ _, .inl rfl⟩
  | applying aim started at' => exact ⟨at'.after, .inr ⟨aim, whole_of_at at'⟩⟩
  | ended aim started at' outcome closed =>
    have whole := whole_of_at at'
    exact ⟨at'.after, .inr ⟨aim, whole.target, whole.others, whole.rescued⟩⟩

/-- Wherever a call stops or fails, it has changed nothing or left its note whole. -/
theorem all_or_nothing (c : Solo fold) (fuel : Nat) {q : WriterProg WriteResult} {w : World fold}
    (reach : Prog.Reach c.handler (c.writer.run c.request fuel) c.start q w) :
    Tree.After c.writer.options.vaultRoot c.start.tree w.tree ∧
      (w.tree = c.start.tree ∨ ∃ aim, c.Whole aim w) := by
  have started : c.Stage c.start := .locking rfl rfl c.undrawn
  exact Stage.whole ((run_safe c fuel).reach started (fun owes => owes.stage) reach)

end Solo

/-- A deletion whose link into the trash succeeds and whose removal of the note fails. -/
theorem all_or_nothing_stranded :
    ∃ result w, (plainWriter.run plainDeletion 1).exec ((plainScript failsUnlink).run 0)
        plainDelete.start = some (result, w) ∧
      Tree.After plainWriter.options.vaultRoot plainDelete.start.tree w.tree ∧
        (w.tree = plainDelete.start.tree ∨ ∃ aim, plainDelete.Whole aim w) := by
  have ends : ((plainWriter.run plainDeletion 1).exec ((plainScript failsUnlink).run 0)
      plainDelete.start).isSome := by decide +kernel
  obtain ⟨⟨result, w⟩, ran⟩ := Option.isSome_iff_exists.mp ends
  exact ⟨result, w, ran, plainDelete.all_or_nothing 1 (plainSolo_reach ran)⟩

end SecondBrain
