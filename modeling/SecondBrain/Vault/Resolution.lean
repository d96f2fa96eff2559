import SecondBrain.Library.FileSystemLaws
import SecondBrain.Vault.PathLaws
import SecondBrain.Vault.Writer

set_option autoImplicit false

/-! What the guard of the writer establishes, beside others that may add directories and
files but neither move the vault root nor touch a symbolic link. -/

namespace SecondBrain

open FileSystem (IoError FsPath FsOp Tree Name special)
open FileSystem.Tree (Plain Grows)
open Protocol

variable {fold : Name → Name}

/-- What may happen to the tree while a path is being resolved: it grows, and the vault root
stays where it is. -/
structure Tree.After (vaultRoot : FsPath) (t u : Tree fold) : Prop where
  grows : Grows t u
  root : ∀ {real}, t.canonicalize vaultRoot = .ok real → u.canonicalize vaultRoot = .ok real

theorem Tree.After.refl (vaultRoot : FsPath) (t : Tree fold) : Tree.After vaultRoot t t :=
  ⟨.refl t, id⟩

theorem Tree.After.trans {vaultRoot : FsPath} {t u v : Tree fold} (first : Tree.After vaultRoot t u)
    (second : Tree.After vaultRoot u v) : Tree.After vaultRoot t v :=
  ⟨first.grows.trans second.grows, fun rooted => second.root (first.root rooted)⟩

/-- The answers of the policy, newest first. -/
abbrev Checks := List (Text × Bool)

/-- The program may look around in the states of `F`. `R` is what the others may do to the
tree meanwhile. -/
structure Steady {S : Type} (P : Protocol VaultOp VaultOp.Resp (World fold) S)
    (setting : Setting fold) (task : Nat) (vaultRoot : FsPath) (R : Tree fold → Tree fold → Prop)
    (F : Checks → S → Prop) : Prop where
  refl : ∀ t, R t t
  trans : ∀ {t u v}, R t u → R u v → R t v
  after : ∀ {t u}, R t u → Tree.After vaultRoot t u
  handler : ∀ {op s answer w}, P.handler op (P.view s) answer w →
    VaultEffect setting task op (P.view s) answer w
  rely : ∀ {checks s t}, P.rely s t → F checks s → F checks t ∧ R (P.view s).tree (P.view t).tree
  stay : ∀ {checks s}, F checks s → P.guar s s

/-- The program may also ask the policy, whose answers are added to `F`. -/
structure Quiet {S : Type} (P : Protocol VaultOp VaultOp.Resp (World fold) S)
    (setting : Setting fold) (task : Nat) (vaultRoot : FsPath) (R : Tree fold → Tree fold → Prop)
    (F : Checks → S → Prop) : Prop extends Steady P setting task vaultRoot R F where
  checked : ∀ {checks s}, F checks s → ∀ path verdict,
    P.Pays s { P.view s with checks := (path, verdict) :: (P.view s).checks } (F ((path, verdict) :: checks))

/-- A file system call changes the tree only. -/
theorem VaultEffect.faulty {setting : Setting fold} {task : Nat} {op : FsOp} {w after : World fold}
    {answer : Except IoError op.Result} (effect : VaultEffect setting task (.fs op) w answer after) :
    ∃ now u, after = { w with tree := u } ∧ FsOp.Faulty w.tree now op answer u := by
  cases effect with
  | fs _ _ now => exact ⟨now, _, rfl, .exact op⟩
  | fault allowed fails => exact ⟨_, _, rfl, fails⟩

/-- A reading call meets a fault or answers what the tree says, and changes nothing. -/
theorem VaultEffect.reads {setting : Setting fold} {task : Nat} {op : FsOp} {w after : World fold}
    {answer : Except IoError op.Result} (effect : VaultEffect setting task (.fs op) w answer after)
    (reads : op.reads = true) : after = w ∧ (answer = FsOp.ask w.tree op ∨ answer = .error .other) := by
  cases effect with
  | fs _ _ now =>
    have exact : FsOp.Faulty w.tree now op (FsOp.perform w.tree now op).1 (FsOp.perform w.tree now op).2 := .exact op
    obtain ⟨same, told⟩ := exact.reads reads
    exact ⟨by rw [same], told⟩
  | fault allowed fails =>
    obtain ⟨rfl, told⟩ := fails.reads reads
    exact ⟨rfl, told⟩

section Standing

variable (t : Tree fold) (vaultRoot : FsPath)

/-- What `existingPrefix` finds in a tree that stands still. -/
def Tree.nearest : (reversed suffix : List Name) → Except VaultPathError (FsPath × List Name)
  | [], suffix =>
    match t.canonicalize [] with
    | .ok existing => .ok (existing, suffix)
    | .error error => .error (.io error)
  | name :: parent, suffix =>
    match t.canonicalize (name :: parent).reverse with
    | .ok existing => .ok (existing, suffix)
    | .error .notFound =>
      if name = ['.', '.'] then .error (.io .notFound) else Tree.nearest parent (name :: suffix)
    | .error error => .error (.io error)

/-- What `canonicalVaultPathForWrite` answers in a tree that stands still: the canonical vault
path and the absolute one. -/
def Tree.canonicalVaultPath (input : Text) : Except VaultPathError (Text × FsPath) := do
  let real ← (t.canonicalize vaultRoot).mapError .io
  let candidate ← resolveVaultPath vaultRoot input
  let (existing, suffix) ← Tree.nearest t candidate.reverse []
  if real.isPrefixOf existing then
    let resolved := existing ++ suffix
    .ok (relativeText (resolved.drop real.length), resolved)
  else .error .outsideRoot

variable {t}

theorem Tree.nearest_found {path existing : FsPath} (found : t.canonicalize path = .ok existing)
    (suffix : List Name) : Tree.nearest t path.reverse suffix = .ok (existing, suffix) := by
  cases split : path.reverse with
  | nil =>
    obtain rfl := List.reverse_eq_nil_iff.mp split
    rw [Tree.nearest, found]
  | cons name parent =>
    rw [Tree.nearest, ← split, List.reverse_reverse, found]

/-- Below a missing component everything is missing. -/
theorem Tree.nearest_missing {dir : FsPath} {next : Name}
    (absent : t.canonicalize (dir ++ [next]) = .error .notFound) (more suffix : List Name)
    (proper : ∀ name ∈ next :: more, special name = false) :
    Tree.nearest t (dir ++ next :: more).reverse suffix =
      Tree.nearest t dir.reverse (next :: more ++ suffix) := by
  have dots {name : Name} (inside : name ∈ next :: more) : name ≠ ['.', '.'] := by
    rintro rfl
    exact absurd (proper _ inside) (by decide)
  induction more using List.reverseRecOn generalizing suffix with
  | nil =>
    rw [List.reverse_append, List.reverse_singleton, List.singleton_append, Tree.nearest]
    rw [List.reverse_cons, List.reverse_reverse, absent]
    simp [dots List.mem_cons_self]
  | append_singleton more name ih =>
    have gone : t.canonicalize (dir ++ next :: (more ++ [name])) = .error .notFound := by
      have goes := (FileSystem.Tree.walk_append (more ++ [name])).2 absent
      rw [List.append_assoc] at goes
      exact goes
    have split : (dir ++ next :: (more ++ [name])).reverse = name :: (dir ++ next :: more).reverse := by
      simp
    rw [split, Tree.nearest, ← split, List.reverse_reverse, gone]
    have other : name ≠ ['.', '.'] := dots (by simp)
    simp only [other, if_false]
    rw [ih (name :: suffix) (fun other inside => proper other (by simp at inside ⊢; tauto))
      fun inside => dots (by simp at inside ⊢; tauto)]
    simp

theorem Tree.canonicalVaultPath_eq {path : Text} (normal : Normalized path) {real existing : FsPath}
    {rest : List Name} (rooted : t.canonicalize vaultRoot = .ok real) (inside : real <+: existing)
    (found : Tree.nearest t (vaultRoot ++ components path).reverse [] = .ok (existing, rest)) :
    Tree.canonicalVaultPath t vaultRoot path =
      .ok (relativeText ((existing ++ rest).drop real.length), existing ++ rest) := by
  unfold Tree.canonicalVaultPath
  rw [rooted, normal.resolve]
  simp only [Except.mapError, bind, Except.bind, found, List.isPrefixOf_iff_prefix, inside, if_true]

/-- A target that exists is resolved to its canonical path. -/
theorem Tree.canonicalVaultPath_found {path : Text} (normal : Normalized path) {real found : FsPath}
    (rooted : t.canonicalize vaultRoot = .ok real) (inside : real <+: found)
    (exists' : t.canonicalize (vaultRoot ++ components path) = .ok found) :
    Tree.canonicalVaultPath t vaultRoot path = .ok (relativeText (found.drop real.length), found) := by
  have same := Tree.canonicalVaultPath_eq vaultRoot normal rooted inside (Tree.nearest_found exists' [])
  simpa using same

end Standing

section Looking

variable {S : Type} {P : Protocol VaultOp VaultOp.Resp (World fold) S} {setting : Setting fold}
  {task : Nat} {vaultRoot : FsPath} {R : Tree fold → Tree fold → Prop} {F : Checks → S → Prop}
  {ε δ α : Type} {checks : Checks} {s : S}

/-- The rule of a reading call. -/
theorem Steady.read {op : FsOp} {rest : Except IoError op.Result → VaultProg ε α}
    {post : Except ε α → S → Prop} (steady : Steady P setting task vaultRoot R F) (holds : F checks s)
    (reads : op.reads = true)
    (continues : ∀ t, F checks t → R (P.view s).tree (P.view t).tree → ∀ answer,
      answer = FsOp.ask (P.view t).tree op ∨ answer = .error .other → P.Safe post (rest answer) t) :
    P.Safe post ((VaultProg.fs op).bind rest) s := by
  intro t others answer w effect
  obtain ⟨rfl, told⟩ := (steady.handler effect).reads reads
  obtain ⟨holds, after⟩ := steady.rely others holds
  exact ⟨t, rfl, steady.stay holds, continues t holds after answer told⟩

theorem Steady.done {value : α} {post : Except ε α → S → Prop}
    (steady : Steady P setting task vaultRoot R F) (holds : F checks s)
    (ends : ∀ t, F checks t → R (P.view s).tree (P.view t).tree → post (.ok value) t) :
    P.Safe post (.done value) s := by
  intro t others
  obtain ⟨holds, after⟩ := steady.rely others holds
  exact ends t holds after

theorem Steady.fail {error : ε} {post : Except ε α → S → Prop}
    (steady : Steady P setting task vaultRoot R F) (holds : F checks s)
    (ends : ∀ t, F checks t → R (P.view s).tree (P.view t).tree → post (.error error) t) :
    P.Safe post (.fail error) s := by
  intro t others
  obtain ⟨holds, after⟩ := steady.rely others holds
  exact ends t holds after

/-- A reading call followed by `?`. -/
theorem Steady.io {op : FsOp} {convert : IoError → ε} {rest : op.Result → VaultProg ε α}
    {post : Except ε α → S → Prop} (steady : Steady P setting task vaultRoot R F) (holds : F checks s)
    (reads : op.reads = true)
    (failed : ∀ error t, F checks t → R (P.view s).tree (P.view t).tree → post (.error error) t)
    (continues : ∀ t, F checks t → R (P.view s).tree (P.view t).tree → ∀ value,
      FsOp.ask (P.view t).tree op = .ok value → P.Safe post (rest value) t) :
    P.Safe post (((VaultProg.fs op).bind (.ofExcept convert)).bind rest) s := by
  intro t others answer w effect
  obtain ⟨rfl, told⟩ := (steady.handler effect).reads reads
  obtain ⟨holds, after⟩ := steady.rely others holds
  refine ⟨t, rfl, steady.stay holds, ?_⟩
  cases answer with
  | ok value =>
    refine continues t holds after value ?_
    rcases told with told | told
    · exact told.symm
    · cases told
  | error error => exact steady.fail holds fun u later moved => failed _ u later (steady.trans after moved)

theorem VaultProg.io_mapError (op : FsOp) (convert : IoError → ε) :
    ((VaultProg.io op).mapError convert : VaultProg ε op.Result) =
      (VaultProg.fs op).bind (.ofExcept convert) := by
  refine congrArg (Prog.call (VaultOp.fs op)) (funext fun answer => ?_)
  cases answer <;> rfl

theorem Steady.ask {op : FsOp} {convert : IoError → ε} {rest : op.Result → VaultProg ε α}
    {post : Except ε α → S → Prop} (steady : Steady P setting task vaultRoot R F) (holds : F checks s)
    (reads : op.reads = true)
    (failed : ∀ error t, F checks t → R (P.view s).tree (P.view t).tree → post (.error error) t)
    (continues : ∀ t, F checks t → R (P.view s).tree (P.view t).tree → ∀ value,
      FsOp.ask (P.view t).tree op = .ok value → P.Safe post (rest value) t) :
    P.Safe post (((VaultProg.io op).mapError convert).bind rest) s := by
  rw [VaultProg.io_mapError]
  exact steady.io holds reads failed continues

/-- What a program leaves that looks only: the state stays within `F`. -/
def Looked (P : Protocol VaultOp VaultOp.Resp (World fold) S) (R : Tree fold → Tree fold → Prop)
    (F : Checks → S → Prop) (checks : Checks) (s : S) (found : α → S → Prop) (result : Except ε α)
    (t : S) : Prop :=
  F checks t ∧ R (P.view s).tree (P.view t).tree ∧ ∀ value, result = .ok value → found value t

theorem Looked.mapError {convert : ε → δ} {p : VaultProg ε α} {found : α → S → Prop}
    (safe : P.Safe (Looked P R F checks s found) p s) :
    P.Safe (Looked P R F checks s found) (p.mapError convert) s := by
  refine Safe.mapError (safe.weaken ?_)
  rintro (error | value) t ⟨here, moved, holds⟩
  · exact ⟨here, moved, nofun⟩
  · exact ⟨here, moved, fun _ same => by cases same; exact holds _ rfl⟩

theorem existingAncestor_safe (steady : Steady P setting task vaultRoot R F) (realRoot : FsPath)
    (reversed : FsPath) (holds : F checks s) :
    P.Safe (Looked P R F checks s fun _ _ => True) (existingAncestor realRoot reversed) s := by
  have ends {result : Except IoError FsPath} {t u : S} (moved : R (P.view s).tree (P.view t).tree)
      (here : F checks u) (more : R (P.view t).tree (P.view u).tree) :
      Looked P R F checks s (fun _ _ => True) result u :=
    ⟨here, steady.trans moved more, fun _ _ => trivial⟩
  have last {path : FsPath} {t : S} (here : F checks t) (moved : R (P.view s).tree (P.view t).tree) :
      P.Safe (Looked P R F checks s fun _ _ => True) (VaultProg.io (.canonicalize path)) t := by
    refine steady.read here rfl fun u here later answer _ => ?_
    cases answer with
    | ok value => exact steady.done here fun v here more => ends (steady.trans moved later) here more
    | error error => exact steady.fail here fun v here more => ends (steady.trans moved later) here more
  have all (reversed : FsPath) : ∀ t, F checks t → R (P.view s).tree (P.view t).tree →
      P.Safe (Looked P R F checks s fun _ _ => True) (existingAncestor realRoot reversed) t := by
    induction reversed with
    | nil =>
      intro t here moved
      refine steady.read here rfl fun u here later answer _ => ?_
      have moved := steady.trans moved later
      cases answer with
      | error error => exact steady.fail here fun v here more => ends moved here more
      | ok found =>
        cases found with
        | true => exact last here moved
        | false => exact steady.done here fun v here more => ends moved here more
    | cons name parent ih =>
      intro t here moved
      refine steady.read here rfl fun u here later answer _ => ?_
      have moved := steady.trans moved later
      cases answer with
      | error error => exact steady.fail here fun v here more => ends moved here more
      | ok found =>
        cases found with
        | true => exact last here moved
        | false => exact ih u here moved
  exact all reversed s holds (steady.refl _)

theorem resolveVaultPathForWrite_safe (steady : Steady P setting task vaultRoot R F) {path : Text}
    (normal : Normalized path) (holds : F checks s) :
    P.Safe (Looked P R F checks s fun _ t => ∃ real, (P.view t).tree.canonicalize vaultRoot = .ok real)
      (resolveVaultPathForWrite vaultRoot path) s := by
  unfold resolveVaultPathForWrite
  simp only [normal.resolve, Prog.ofExcept_ok, Prog.done_bind, Prog.bind_eq]
  refine steady.ask holds rfl (fun error t here moved => ⟨here, moved, nofun⟩)
    fun t here moved real rooted => ?_
  have decided {existing : FsPath} {u : S} (here : F checks u)
      (later : R (P.view t).tree (P.view u).tree) :
      P.Safe (Looked P R F checks s fun _ t => ∃ real, (P.view t).tree.canonicalize vaultRoot = .ok real)
        (if List.isPrefixOf real existing then pure (vaultRoot ++ components path)
          else .fail .outsideRoot : VaultProg VaultPathError FsPath) u := by
    split
    · exact steady.done here fun v here more => ⟨here, steady.trans moved (steady.trans later more),
        fun _ _ => ⟨real, (steady.after (steady.trans later more)).root rooted⟩⟩
    · exact steady.fail here fun v here more =>
        ⟨here, steady.trans moved (steady.trans later more), nofun⟩
  cases (vaultRoot ++ components path).reverse with
  | nil => exact decided here (steady.refl _)
  | cons name parent =>
    have ancestor : P.Safe (Looked P R F checks t fun _ _ => True)
        ((existingAncestor real parent).mapError VaultPathError.io) t :=
      Looked.mapError (existingAncestor_safe steady real parent here)
    refine ancestor.bind (fun existing u looked => decided looked.1 looked.2.1) fun error u looked => ?_
    exact ⟨looked.1, steady.trans moved looked.2.1, nofun⟩

/-- `p` held of the tree at some time since which only `R` happened. -/
def Seen (R : Tree fold → Tree fold → Prop) (t : Tree fold) (p : Tree fold → Prop) : Prop :=
  ∃ earlier, R earlier t ∧ p earlier

theorem Seen.later (steady : Steady P setting task vaultRoot R F) {t u : Tree fold}
    {p : Tree fold → Prop} (seen : Seen R t p) (moved : R t u) : Seen R u p := by
  obtain ⟨earlier, before, holds⟩ := seen
  exact ⟨earlier, steady.trans before moved, holds⟩

/-- What `existing_prefix` and its caller found out about the target `names` below the root:
`existing` is the canonical path of its first components, and the component after them was
missing. -/
structure Nearest (R : Tree fold → Tree fold → Prop) (vaultRoot : FsPath) (names : List Name)
    (existing : FsPath) (rest : List Name) (t : Tree fold) : Prop where
  found : ∃ kept, names = kept ++ rest ∧
    (Seen R t fun earlier => (∃ real, earlier.canonicalize vaultRoot = .ok real) ∧
      earlier.canonicalize (vaultRoot ++ kept) = .ok existing) ∧
    ∀ next more, rest = next :: more → Seen R t fun earlier =>
      earlier.canonicalize (vaultRoot ++ kept ++ [next]) = .error .notFound

theorem existingPrefix_safe (steady : Steady P setting task vaultRoot R F) {names : List Name}
    (proper : ∀ name ∈ names, special name = false) (reversed rest : List Name)
    (whole : names = reversed.reverse ++ rest) (holds : F checks s) {real : FsPath}
    (rooted : (P.view s).tree.canonicalize vaultRoot = .ok real)
    (missing : ∀ next more, rest = next :: more → Seen R (P.view s).tree fun earlier =>
      earlier.canonicalize (vaultRoot ++ reversed.reverse ++ [next]) = .error .notFound) :
    P.Safe (Looked P R F checks s fun place t =>
        Nearest R vaultRoot names place.1 place.2 (P.view t).tree)
      (existingPrefix (reversed ++ vaultRoot.reverse) rest) s := by
  induction reversed generalizing rest s with
  | nil =>
    -- the root is still there, so the loop never leaves it
    have settle {next : Except IoError FsPath → VaultProg VaultPathError (FsPath × List Name)}
        (found : ∀ existing, next (.ok existing) = .done (existing, rest))
        (fault : next (.error .other) = .fail (.io .other)) :
        P.Safe (Looked P R F checks s fun place t =>
            Nearest R vaultRoot names place.1 place.2 (P.view t).tree)
          ((VaultProg.fs (.canonicalize vaultRoot)).bind next) s := by
      refine steady.read holds rfl fun t here moved answer told => ?_
      have rooted := (steady.after moved).root rooted
      rcases told with rfl | rfl
      · simp only [FsOp.ask, FsOp.perform, rooted, found]
        refine steady.done here fun u here later => ⟨here, steady.trans moved later, ?_⟩
        rintro _ ⟨⟩
        refine ⟨[], whole, ⟨_, later, ⟨real, rooted⟩, by simpa using rooted⟩, fun next more same => ?_⟩
        simpa using (missing next more same).later steady (steady.trans moved later)
      · rw [fault]
        exact steady.fail here fun u here later => ⟨here, steady.trans moved later, nofun⟩
    rw [List.nil_append]
    cases split : vaultRoot.reverse with
    | nil =>
      obtain rfl := List.reverse_eq_nil_iff.mp split
      exact settle (fun _ => rfl) rfl
    | cons name parent =>
      unfold existingPrefix
      rw [← split, List.reverse_reverse]
      exact settle (fun _ => rfl) rfl
  | cons name parent ih =>
    have inside : name ∈ names := by simp [whole]
    have reversed : (name :: (parent ++ vaultRoot.reverse)).reverse =
        vaultRoot ++ (parent.reverse ++ [name]) := by simp
    rw [List.cons_append]
    unfold existingPrefix
    rw [reversed]
    refine steady.read holds rfl fun t here moved answer told => ?_
    have rooted := (steady.after moved).root rooted
    have fails (error : IoError) : P.Safe (Looked P R F checks s fun place t =>
        Nearest R vaultRoot names place.1 place.2 (P.view t).tree)
          (.fail (VaultPathError.io error) : VaultProg VaultPathError (FsPath × List Name)) t :=
      steady.fail here fun u here later => ⟨here, steady.trans moved later, nofun⟩
    match answer, told with
    | .ok existing, told =>
      refine steady.done here fun u here later => ⟨here, steady.trans moved later, ?_⟩
      rintro _ ⟨⟩
      refine ⟨parent.reverse ++ [name], by simpa using whole, ⟨_, later, ⟨real, rooted⟩, ?_⟩,
        fun next more same => ?_⟩
      · rcases told with told | told
        · exact told.symm
        · cases told
      · simpa using (missing next more same).later steady (steady.trans moved later)
    | .error .notFound, told =>
      have absent : (P.view t).tree.canonicalize (vaultRoot ++ (parent.reverse ++ [name])) =
          .error .notFound := by
        rcases told with told | told
        · exact told.symm
        · cases told
      have dots : name ≠ ['.', '.'] := by
        rintro rfl
        exact absurd (proper _ inside) (by decide)
      simp only [dots, if_false]
      refine (ih (name :: rest) (by simpa using whole) here rooted ?_).weaken ?_
      · rintro _ _ ⟨⟩
        exact ⟨_, steady.refl _, by simpa using absent⟩
      · rintro result u ⟨here, later, found⟩
        exact ⟨here, steady.trans moved later, found⟩
    | .error .alreadyExists, _ => exact fails .alreadyExists
    | .error .other, _ => exact fails .other

theorem Normalized.proper {path : Text} (normal : Normalized path) :
    ∀ name ∈ components path, special name = false :=
  fun name inside => (normal.significant name inside).2

/-- What `canonical_vault_path_for_write` found out. -/
def Resolved (R : Tree fold → Tree fold → Prop) (vaultRoot : FsPath) (path identity : Text)
    (resolved : FsPath) (t : Tree fold) : Prop :=
  ∃ real existing rest, t.canonicalize vaultRoot = .ok real ∧
    Nearest R vaultRoot (components path) existing rest t ∧ real <+: existing ∧
    resolved = existing ++ rest ∧ identity = relativeText (resolved.drop real.length)

theorem canonicalVaultPathForWrite_safe (steady : Steady P setting task vaultRoot R F) {path : Text}
    (normal : Normalized path) (holds : F checks s) :
    P.Safe (Looked P R F checks s fun found t =>
        Resolved R vaultRoot path found.1 found.2 (P.view t).tree)
      (canonicalVaultPathForWrite vaultRoot path) s := by
  unfold canonicalVaultPathForWrite
  simp only [normal.resolve, Prog.ofExcept_ok, Prog.done_bind, Prog.bind_eq]
  refine steady.ask holds rfl (fun error t here moved => ⟨here, moved, nofun⟩)
    fun t here moved real rooted => ?_
  have nearest := existingPrefix_safe steady normal.proper (components path).reverse [] (by simp) here
    rooted (by simp)
  rw [List.reverse_append]
  refine nearest.bind ?_ ?_
  · rintro ⟨existing, rest⟩ u ⟨here, later, found⟩
    dsimp only
    split
    · rename_i inside
      refine steady.done here fun v here last =>
        ⟨here, steady.trans moved (steady.trans later last), ?_⟩
      rintro _ ⟨⟩
      obtain ⟨kept, whole, seen, missing⟩ := (found _ rfl).found
      exact ⟨real, existing, rest, (steady.after (steady.trans later last)).root rooted,
        ⟨kept, whole, seen.later steady last, fun next more same => (missing next more same).later steady last⟩,
        List.isPrefixOf_iff_prefix.mp inside, rfl, rfl⟩
    · exact steady.fail here fun v here last =>
        ⟨here, steady.trans moved (steady.trans later last), nofun⟩
  · exact fun error u looked => ⟨looked.1, steady.trans moved looked.2.1, nofun⟩

/-- The walk that refuses symbolic links: none is on the path from the root down. -/
theorem refuseSymlinks_safe (steady : Steady P setting task vaultRoot R F) (walked rest : List Name)
    (proper : ∀ name ∈ walked ++ rest, special name = false) (holds : F checks s) {real : FsPath}
    (rooted : (P.view s).tree.canonicalize vaultRoot = .ok real)
    (plain : (P.view s).tree.Plain ((real ++ walked).map fold)) :
    P.Safe (Looked P R F checks s fun _ t => (P.view t).tree.Plain ((real ++ (walked ++ rest)).map fold))
      (VaultWriter.refuseSymlinks (vaultRoot ++ walked) rest) s := by
  induction rest generalizing walked s with
  | nil =>
    refine steady.done holds fun t here moved => ⟨here, moved, fun _ _ => ?_⟩
    rw [List.append_nil]
    exact (steady.after moved).grows.plain.mp plain
  | cons component rest ih =>
    unfold VaultWriter.refuseSymlinks
    rw [List.append_assoc]
    refine steady.read holds rfl fun t here moved answer told => ?_
    have rooted := (steady.after moved).root rooted
    have plain := (steady.after moved).grows.plain.mp plain
    have tells := FileSystem.Tree.symlinkMetadata_below rooted
      (fun name inside => proper name (by simp [inside])) plain component
    have fails (error : VaultWriteError) : P.Safe (Looked P R F checks s fun _ t =>
        (P.view t).tree.Plain ((real ++ (walked ++ component :: rest)).map fold))
          (.fail error : VaultProg VaultWriteError Unit) t :=
      steady.fail here fun u here later => ⟨here, steady.trans moved later, nofun⟩
    have further (last : ∀ entry, (P.view t).tree.entries ((real ++ (walked ++ [component])).map fold) =
        some entry → entry.node.isSymlink = false) :
        (P.view t).tree.Plain ((real ++ (walked ++ [component])).map fold) := by
      rw [← List.append_assoc, List.map_append, List.map_singleton] at last ⊢
      exact plain.concat last
    match answer, told with
    | .ok metadata, told =>
      have found : (P.view t).tree.symlinkMetadata (vaultRoot ++ (walked ++ [component])) = .ok metadata := by
        rcases told with told | told
        · exact told.symm
        · cases told
      obtain ⟨entry, bound, rfl⟩ := tells.1 metadata found
      dsimp only
      split
      · exact fails _
      · rename_i file
        have clean := further fun other same => by
          rw [bound] at same
          cases same
          exact Bool.eq_false_iff.mpr file
        refine (ih (walked ++ [component]) (by simpa using proper) here rooted clean).weaken ?_
        rintro result u ⟨here, later, found⟩
        exact ⟨here, steady.trans moved later, by simpa using found⟩
    | .error .notFound, told =>
      have absent := tells.2 (by
        rcases told with told | told
        · exact told.symm
        · cases told)
      have clean := further fun other same => by
        rw [absent] at same
        cases same
      refine steady.done here fun u here later => ⟨here, steady.trans moved later, fun _ _ => ?_⟩
      have rest := clean.below absent (rest.map fold)
      simpa using (steady.after later).grows.plain.mp rest
    | .error .alreadyExists, _ => exact fails _
    | .error .other, _ => exact fails _

/-- What the guard vouches for: the target lies under the canonical root, and no component of
its path below the root is a symbolic link. -/
structure Target (vaultRoot : FsPath) (path : Text) (absolute : FsPath) (t : Tree fold) : Prop where
  below : ∃ real below, t.canonicalize vaultRoot = .ok real ∧ absolute = real ++ below ∧
    below.map fold = (components path).map fold
  plain : t.Plain (absolute.map fold)
  proper : ∀ name ∈ absolute, special name = false

theorem Target.after {path : Text} {absolute : FsPath} {t u : Tree fold}
    (target : Target vaultRoot path absolute t) (later : Tree.After vaultRoot t u) :
    Target vaultRoot path absolute u := by
  obtain ⟨⟨real, below, rooted, split, same⟩, plain, proper⟩ := target
  exact ⟨⟨real, below, later.root rooted, split, same⟩, later.grows.plain.mp plain, proper⟩

/-- A target is looked up at its own key. -/
theorem Target.located {path : Text} {absolute : FsPath} {t : Tree fold}
    (target : Target vaultRoot path absolute t) {place : FsPath × Name}
    (found : t.locate absolute = .ok place) : FileSystem.Tree.keyOf fold place = absolute.map fold := by
  refine FileSystem.Tree.locate_plain (fun name inside => ?_) ?_ found
  · exact target.proper name (List.mem_of_mem_dropLast inside)
  · exact target.plain.mono (by rw [List.map_dropLast]; exact List.dropLast_prefix _)

/-- The key of a name next to a target. -/
theorem Target.sibling_key {path : Text} {absolute real : FsPath} {t : Tree fold}
    (target : Target vaultRoot path absolute t) (rooted : t.canonicalize vaultRoot = .ok real)
    (named : components path ≠ []) (name : Name) : (absolute.dropLast ++ [name]).map fold =
      real.map fold ++ ((components path).dropLast.map fold ++ [fold name]) := by
  obtain ⟨real', below, rooted', rfl, same⟩ := target.below
  obtain rfl : real = real' := Except.ok.inj (rooted.symm.trans rooted')
  have nonempty : below ≠ [] := by
    rintro rfl
    exact named (List.map_eq_nil_iff.mp same.symm)
  rw [List.dropLast_append_of_ne_nil nonempty, List.append_assoc, List.map_append, List.map_append,
    List.map_dropLast, same, List.map_dropLast]
  rfl

theorem Target.parent_plain {path : Text} {absolute : FsPath} {t : Tree fold}
    (target : Target vaultRoot path absolute t) : t.Plain (absolute.dropLast.map fold) :=
  target.plain.mono (by rw [List.map_dropLast]; exact List.dropLast_prefix _)

/-- A name next to a target is looked up at its own key. -/
theorem Target.sibling_located {path : Text} {absolute : FsPath} {t : Tree fold} {name : Name}
    (target : Target vaultRoot path absolute t) {place : FsPath × Name}
    (found : t.locate (absolute.dropLast ++ [name]) = .ok place) :
    FileSystem.Tree.keyOf fold place = (absolute.dropLast ++ [name]).map fold := by
  refine FileSystem.Tree.locate_plain ?_ ?_ found
  · rw [List.dropLast_concat]
    exact fun name inside => target.proper name (List.mem_of_mem_dropLast inside)
  · rw [List.dropLast_concat]
    exact target.parent_plain

/-- There is no link on the way to a missing name next to a target. -/
theorem Target.sibling_plain {path : Text} {absolute : FsPath} {t : Tree fold} {name : Name}
    (target : Target vaultRoot path absolute t)
    (missing : t.entries ((absolute.dropLast ++ [name]).map fold) = none) :
    t.Plain ((absolute.dropLast ++ [name]).map fold) := by
  rw [List.map_append, List.map_singleton] at missing ⊢
  exact target.parent_plain.concat fun entry bound => by rw [missing] at bound; cases bound

theorem Resolved.later (steady : Steady P setting task vaultRoot R F) {path identity : Text}
    {resolved : FsPath} {t u : Tree fold} (found : Resolved R vaultRoot path identity resolved t)
    (moved : R t u) : Resolved R vaultRoot path identity resolved u := by
  obtain ⟨real, existing, rest, rooted, ⟨kept, whole, seen, missing⟩, inside, split, named⟩ := found
  exact ⟨real, existing, rest, (steady.after moved).root rooted,
    ⟨kept, whole, seen.later steady moved, fun next more same => (missing next more same).later steady moved⟩,
    inside, split, named⟩

/-- Where the tree stood still, what was found out is what the tree says. -/
theorem Resolved.canonicalVaultPath {path identity : Text} (normal : Normalized path) {resolved : FsPath}
    {t : Tree fold} (found : Resolved Eq vaultRoot path identity resolved t) :
    Tree.canonicalVaultPath t vaultRoot path = .ok (identity, resolved) := by
  obtain ⟨real, existing, rest, rooted, ⟨kept, whole, ⟨_, rfl, _, there⟩, missing⟩, inside, rfl, rfl⟩ := found
  refine Tree.canonicalVaultPath_eq vaultRoot normal rooted inside ?_
  rw [whole]
  cases rest with
  | nil =>
    rw [List.append_nil]
    exact Tree.nearest_found there []
  | cons next more =>
    obtain ⟨_, rfl, absent⟩ := missing next more rfl
    have proper : ∀ name ∈ next :: more, special name = false :=
      fun name inside => normal.proper name (by rw [whole]; exact List.mem_append_right _ inside)
    rw [← List.append_assoc, Tree.nearest_missing absent more [] proper, List.append_nil]
    exact Tree.nearest_found there _

/-- A target that is there was found as a whole. -/
theorem Resolved.present {path identity : Text} (normal : Normalized path) {resolved real : FsPath}
    {t : Tree fold} (found : Resolved Eq vaultRoot path identity resolved t)
    (rooted : t.canonicalize vaultRoot = .ok real) (plain : t.Plain ((real ++ components path).map fold))
    (there : t.entries ((real ++ components path).map fold) ≠ none) :
    t.canonicalize (vaultRoot ++ components path) = .ok resolved ∧ real <+: resolved ∧
      identity = relativeText (resolved.drop real.length) := by
  obtain ⟨real', existing, rest, rooted', ⟨kept, whole, ⟨_, rfl, _, seen⟩, missing⟩, inside, rfl, rfl⟩ := found
  obtain rfl : real = real' := Except.ok.inj (rooted.symm.trans rooted')
  cases rest with
  | nil =>
    rw [List.append_nil] at whole ⊢
    exact ⟨by rw [whole]; exact seen, inside, rfl⟩
  | cons next more =>
    obtain ⟨_, rfl, absent⟩ := missing next more rfl
    have split : real ++ components path = (real ++ (kept ++ [next])) ++ more := by simp [whole]
    rw [split, @List.map_append _ _ fold (real ++ (kept ++ [next])) _] at plain there
    rw [List.append_assoc] at absent
    have gone := FileSystem.Tree.canonicalize_missing rooted
      (fun name inside => normal.proper name (by
        rw [whole]
        simp at inside ⊢
        tauto)) (plain.mono (List.prefix_append _ _)) absent
    exact absurd (FileSystem.Tree.none_below gone _) there

/-- A path without links resolves to a target. -/
theorem Resolved.target (steady : Steady P setting task vaultRoot R F) {path identity : Text}
    (normal : Normalized path) {resolved real : FsPath} {t : Tree fold}
    (found : Resolved R vaultRoot path identity resolved t) (rooted : t.canonicalize vaultRoot = .ok real)
    (plain : t.Plain ((real ++ components path).map fold)) : Target vaultRoot path resolved t := by
  obtain ⟨_, existing, rest, rooted', ⟨kept, whole, ⟨earlier, before, ⟨real', atRoot⟩, seen⟩, _⟩, _,
    rfl, _⟩ := found
  obtain rfl : real = real' := Except.ok.inj (rooted.symm.trans ((steady.after before).root atRoot))
  have properKept : ∀ name ∈ kept, special name = false :=
    fun name inside => normal.proper name (by simp [whole, inside])
  have plainKept : earlier.Plain ((real ++ kept).map fold) := by
    refine ((steady.after before).grows.plain.mpr plain).mono ?_
    rw [whole, ← List.append_assoc, @List.map_append _ _ fold (real ++ kept) _]
    exact List.prefix_append _ _
  obtain ⟨spelled, rfl, folded⟩ := FileSystem.Tree.canonicalize_below atRoot properKept plainKept seen
  have folds : ((real ++ spelled) ++ rest).map fold = (real ++ components path).map fold := by
    simp [whole, folded]
  refine ⟨⟨real, spelled ++ rest, rooted, by simp, by simp [whole, folded]⟩, by rwa [folds], ?_⟩
  have exact := FileSystem.Tree.walk_real FileSystem.Tree.real_root seen
  intro name inside
  rcases List.mem_append.mp inside with inside | inside
  · exact exact.proper name inside
  · exact normal.proper name (by simp [whole, inside])

/-- What a policy check leaves: it passes only when the policy in force allows the path. -/
def Checked (P : Protocol VaultOp VaultOp.Resp (World fold) S) (R : Tree fold → Tree fold → Prop)
    (F : Checks → S → Prop) (path : Text) (checks : Checks) (s : S) (result : Except ε Unit) (t : S) :
    Prop :=
  R (P.view s).tree (P.view t).tree ∧ ∃ verdict, F ((path, verdict) :: checks) t ∧
    (result = .ok () → verdict = false)

theorem checkPolicy_safe (writer : VaultWriter) (quiet : Quiet P setting task vaultRoot R F) (path : Text)
    (holds : F checks s) : P.Safe (Checked P R F path checks s) (writer.checkPolicy path) s := by
  intro t others answer w effect
  obtain ⟨here, moved⟩ := quiet.rely others holds
  cases quiet.handler effect with
  | isBlocked path inForce =>
    rename_i policy
    obtain ⟨u, seen, allowed, next⟩ := quiet.checked here path (policy path)
    have same : R (P.view s).tree (P.view u).tree := by
      rw [seen]
      exact moved
    refine ⟨u, seen, allowed, ?_⟩
    cases verdict : policy path with
    | true =>
      rw [verdict] at next
      exact quiet.fail next fun v here later => ⟨quiet.trans same later, true, here, nofun⟩
    | false =>
      rw [verdict] at next
      split
      · exact quiet.fail next fun v here later => ⟨quiet.trans same later, false, here, fun _ => rfl⟩
      · exact quiet.done next fun v here later => ⟨quiet.trans same later, false, here, fun _ => rfl⟩

/-- What the guard leaves: when it passes, the last two answers of the policy allow the path
and its canonical identity. -/
def Guarded (P : Protocol VaultOp VaultOp.Resp (World fold) S) (R : Tree fold → Tree fold → Prop)
    (F : Checks → S → Prop) (vaultRoot : FsPath) (path : Text) (checks : Checks) (s : S)
    (result : Except ε FsPath) (t : S) : Prop :=
  R (P.view s).tree (P.view t).tree ∧
    match result with
    | .ok absolute => ∃ identity, F ((identity, false) :: (path, false) :: checks) t ∧
        Target vaultRoot path absolute (P.view t).tree ∧
        Resolved R vaultRoot path identity absolute (P.view t).tree
    | .error _ => ∃ more, F (more ++ checks) t

theorem guard_safe (writer : VaultWriter) (quiet : Quiet P setting task writer.options.vaultRoot R F)
    {path : Text} (normal : Normalized path) (holds : F checks s) :
    P.Safe (Guarded P R F writer.options.vaultRoot path checks s) (writer.guard path) s := by
  unfold VaultWriter.guard
  simp only [Prog.bind_eq]
  refine (checkPolicy_safe writer quiet path holds).bind ?_ ?_
  · rintro ⟨⟩ t ⟨moved, verdict, here, passes⟩
    obtain rfl := passes rfl
    have resolves : P.Safe _ ((resolveVaultPathForWrite writer.options.vaultRoot path).mapError
        VaultWriteError.ofPath) t := Looked.mapError (resolveVaultPathForWrite_safe quiet.toSteady normal here)
    refine resolves.bind ?_ ?_
    · rintro absolute u ⟨here, later, rooted⟩
      have moved := quiet.trans moved later
      obtain ⟨real, rooted⟩ := rooted absolute rfl
      have isReal := FileSystem.Tree.walk_real FileSystem.Tree.real_root rooted
      have refuses := refuseSymlinks_safe quiet.toSteady [] (components path) normal.proper here rooted
        (by simpa using isReal.plain)
      rw [List.append_nil] at refuses
      refine refuses.bind ?_ ?_
      · rintro ⟨⟩ v ⟨here, later, plain⟩
        have moved := quiet.trans moved later
        have rooted := (quiet.after later).root rooted
        have plain := plain () rfl
        have canonical : P.Safe _ ((canonicalVaultPathForWrite writer.options.vaultRoot path).mapError
            VaultWriteError.ofPath) v := Looked.mapError (canonicalVaultPathForWrite_safe quiet.toSteady normal here)
        refine canonical.bind ?_ ?_
        · rintro ⟨identity, resolved⟩ x ⟨here, later, found⟩
          have moved := quiet.trans moved later
          have found := found _ rfl
          have target := found.target quiet.toSteady normal ((quiet.after later).root rooted)
            ((quiet.after later).grows.plain.mp plain)
          refine (checkPolicy_safe writer quiet identity here).bind ?_ ?_
          · rintro ⟨⟩ y ⟨later, verdict, here, passes⟩
            obtain rfl := passes rfl
            refine quiet.done here fun z here last => ?_
            have later := quiet.trans later last
            exact ⟨quiet.trans moved later, identity, here, target.after (quiet.after later),
              found.later quiet.toSteady later⟩
          · rintro error y ⟨later, verdict, here, _⟩
            exact ⟨quiet.trans moved later, [(identity, verdict), (path, false)], here⟩
        · rintro error x ⟨here, later, _⟩
          exact ⟨quiet.trans moved later, [(path, false)], here⟩
      · rintro error v ⟨here, later, _⟩
        exact ⟨quiet.trans moved later, [(path, false)], here⟩
    · rintro error u ⟨here, later, _⟩
      exact ⟨quiet.trans moved later, [(path, false)], here⟩
  · rintro error t ⟨moved, verdict, here, _⟩
    exact ⟨moved, [(path, verdict)], here⟩

end Looking

end SecondBrain
