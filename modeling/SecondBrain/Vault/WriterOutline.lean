import SecondBrain.Vault.Resolution

set_option autoImplicit false

/-! The course of one mutation: the phases it goes through, what each step owes and the
outcomes it can have. Any assertion about the phases that pays for the steps holds along
every run of the mutation. -/

namespace SecondBrain

open FileSystem (IoError FsPath FsOp Tree Name special)
open Protocol

variable {fold : Name → Name}

/-- How far a mutation has come. -/
inductive Phase where
  /-- Nothing is published. `known` is the text read, `id` the last id drawn. -/
  | looking (known id : Option Text)
  /-- The temporary file is there; `text` is what it holds, once it is written. -/
  | drafting (known id : Option Text) (temp file : FsPath) (text : Option Text)
  /-- The text is published, the temporary file not yet removed. -/
  | published (known id : Option Text) (temp : FsPath) (text : Text)
  | wrote (known : Option Text) (text : Text)
  /-- The note is linked into the trash at `target` and not yet removed. -/
  | linked (current target : Text)
  | trashed (current target : Text)
  /-- The note could not be removed after it was linked. -/
  | stranded (current target : Text)
  | removed (current : Text)

/-- The phases in which the policy is asked. -/
def Phase.asks : Phase → Prop
  | looking .. | drafting .. => True
  | published .. | wrote .. | linked .. | trashed .. | stranded .. | removed _ => False

/-- The phase that the answer of a call leads to. -/
def Phase.next {ε α : Type} (good bad : Phase) : Except ε α → Phase
  | .ok _ => good
  | .error _ => bad

/-- The phase that the making of the temporary file leads to. -/
def Phase.made (known id : Option Text) (temp : FsPath) : Except IoError FsPath → Phase
  | .ok file => .drafting known id temp file none
  | .error _ => .looking known id

/-- The hidden file next to the target that a write is prepared in. -/
def draftPath (absolute : FsPath) (id : Text) : FsPath :=
  absolute.dropLast ++ [tempName (absolute.getLast?.getD "note".toList) id]

/-- The places in the trash that a mutation with the id `id` may choose. -/
def VaultWriter.Destined (writer : VaultWriter) (path : Text) (id : Option Text) (target : Text) : Prop :=
  writer.trashTarget path = .ok target ∨
    ∃ drawn, id = some drawn ∧ writer.trashFallback path drawn = .ok target

/-- The text that a mutation is to publish, having read `known`. -/
inductive Intended (writer : VaultWriter) (base : Option Text) :
    Mutation → (known : Option Text) → Text → Prop where
  | created {content text : Text} {frontmatter : Option Frontmatter}
      (made : withFrontmatter writer.codecs content frontmatter = .ok text) :
      Intended writer base (.create content frontmatter) none text
  | replaced {mutation : Mutation} {current text : Text} (named : some (writer.sha256 current) = base)
      (made : writer.nextText mutation current = .ok text) :
      Intended writer base mutation (some current) text

/-- How a mutation ends, and in which phase. -/
inductive Outcome (writer : VaultWriter) (path : Text) (base : Option Text) :
    Mutation → Except VaultWriteError WriteResult → Phase → Prop where
  | wrote {mutation : Mutation} {known : Option Text} {text : Text}
      (intended : Intended writer base mutation known text) :
      Outcome writer path base mutation (.ok ⟨path, none, base, writer.sha256 text⟩) (.wrote known text)
  | deleted {current target : Text} (named : some (writer.sha256 current) = base) :
      Outcome writer path base .delete (.ok ⟨path, some target, base, writer.sha256 current⟩)
        (.trashed current target)
  | hardDeleted {current : Text} (named : some (writer.sha256 current) = base) :
      Outcome writer path base .hardDelete (.ok ⟨path, none, base, writer.sha256 current⟩)
        (.removed current)
  | failed {mutation : Mutation} (error : VaultWriteError) (known id : Option Text) :
      Outcome writer path base mutation (.error error) (.looking known id)
  | stranded (error : VaultWriteError) (current target : Text) :
      Outcome writer path base .delete (.error error) (.stranded current target)

theorem Outcome.error_phase {writer : VaultWriter} {path : Text} {base : Option Text} {mutation : Mutation}
    {error : VaultWriteError} {phase : Phase}
    (outcome : Outcome writer path base mutation (.error error) phase) :
    (∃ known id, phase = .looking known id) ∨ ∃ current target, phase = .stranded current target := by
  cases outcome with
  | failed _ known id => exact .inl ⟨known, id, rfl⟩
  | stranded _ current target => exact .inr ⟨current, target, rfl⟩

/-- The two last answers of the policy, about `path` and its canonical identity, allow it. -/
def Allowed (R : Tree fold → Tree fold → Prop) (vaultRoot : FsPath) (path : Text) (checks : Checks)
    (t : Tree fold) : Prop :=
  ∃ identity absolute more, checks = (identity, false) :: (path, false) :: more ∧
    Resolved R vaultRoot path identity absolute t

section Outline

variable {S : Type}

/-- An assertion `At` about the phases of a mutation, and what each step owes it. -/
structure Outline (P : Protocol VaultOp VaultOp.Resp (World fold) S) (setting : Setting fold)
    (task : Nat) (writer : VaultWriter) (path : Text) (base : Option Text) (mutation : Mutation) (R : Tree fold → Tree fold → Prop)
    (At : Phase → Checks → S → Prop) : Prop where
  steady : ∀ phase, Steady P setting task writer.options.vaultRoot R (At phase)
  checked : ∀ {phase checks s}, phase.asks → At phase checks s → ∀ aim verdict,
    P.Pays s { P.view s with checks := (aim, verdict) :: (P.view s).checks }
      (At phase ((aim, verdict) :: checks))
  moves : ∀ {s t}, P.guar s t → Tree.After writer.options.vaultRoot (P.view s).tree (P.view t).tree
  makeDir : ∀ {known id checks s dir answer w}, At (.looking known id) checks s →
    P.handler (.fs (.createDir dir)) (P.view s) answer w →
      P.Pays s w (At (.looking known id) checks)
  read : ∀ {id checks s absolute text w}, At (.looking none id) checks s →
    Target writer.options.vaultRoot path absolute (P.view s).tree →
      P.handler (.fs (.readToString absolute)) (P.view s) (.ok text) w → At (.looking (some text) id) checks s
  draw : ∀ {known id drawn checks s w}, At (.looking known id) checks s →
    P.handler .uniqueId (P.view s) drawn w →
      P.Pays s w (At (.looking known (some drawn)) checks)
  make : ∀ {known id checks s absolute mode answer w}, At (.looking known (some id)) checks s →
    Target writer.options.vaultRoot path absolute (P.view s).tree →
      P.handler (.fs (.openNew (draftPath absolute id) mode)) (P.view s) answer w →
        P.Pays s w (At (Phase.made known (some id) (draftPath absolute id) answer) checks)
  fill : ∀ {known id temp file text checks s answer w}, At (.drafting known id temp file none) checks s →
    Intended writer base mutation known text → P.handler (.fs (.writeAll file text)) (P.view s) answer w →
      P.Pays s w (At (Phase.next (.drafting known id temp file (some text))
        (.drafting known id temp file none) answer) checks)
  settle : ∀ {known id temp file text checks s op answer w},
    At (.drafting known id temp file (some text)) checks s →
      (op = .syncAll file ∨ ∃ mode, op = .setPermissions file mode) → P.handler (.fs op) (P.view s) answer w →
        P.Pays s w (At (.drafting known id temp file (some text)) checks)
  link : ∀ {id file text checks s absolute answer w},
    At (.drafting none (some id) (draftPath absolute id) file (some text)) checks s →
      Target writer.options.vaultRoot path absolute (P.view s).tree →
      Allowed R writer.options.vaultRoot path checks (P.view s).tree →
      P.handler (.fs (.hardLink (draftPath absolute id) absolute)) (P.view s) answer w →
        P.Pays s w (At (Phase.next (.published none (some id) (draftPath absolute id) text)
          (.drafting none (some id) (draftPath absolute id) file (some text)) answer) checks)
  rename : ∀ {current id file text checks s absolute answer w},
    At (.drafting (some current) (some id) (draftPath absolute id) file (some text)) checks s →
      Target writer.options.vaultRoot path absolute (P.view s).tree →
      Allowed R writer.options.vaultRoot path checks (P.view s).tree →
      P.handler (.fs (.rename (draftPath absolute id) absolute)) (P.view s) answer w →
        P.Pays s w (At (Phase.next (.published (some current) (some id) (draftPath absolute id) text)
          (.drafting (some current) (some id) (draftPath absolute id) file (some text)) answer) checks)
  discard : ∀ {known id temp file text checks s answer w}, At (.drafting known id temp file text) checks s →
    P.handler (.fs (.removeFile temp)) (P.view s) answer w →
      P.Pays s w (At (.looking known id) checks)
  clear : ∀ {known id temp text checks s answer w}, At (.published known id temp text) checks s →
    P.handler (.fs (.removeFile temp)) (P.view s) answer w →
      P.Pays s w (At (.wrote known text) checks)
  trash : ∀ {current id target checks s absolute destination answer w},
    At (.looking (some current) id) checks s → mutation = .delete →
      some (writer.sha256 current) = base → writer.Destined path id target →
      Target writer.options.vaultRoot path absolute (P.view s).tree →
      Target writer.options.vaultRoot target destination (P.view s).tree →
      Allowed R writer.options.vaultRoot path checks (P.view s).tree →
      Allowed R writer.options.vaultRoot target (checks.drop 2) (P.view s).tree →
      P.handler (.fs (.hardLink absolute destination)) (P.view s) answer w →
        P.Pays s w (At (Phase.next (.linked current target) (.looking (some current) id) answer) checks)
  unlink : ∀ {current target checks s absolute answer w}, At (.linked current target) checks s →
    Target writer.options.vaultRoot path absolute (P.view s).tree →
      P.handler (.fs (.removeFile absolute)) (P.view s) answer w →
        P.Pays s w (At (Phase.next (.trashed current target) (.stranded current target) answer) checks)
  remove : ∀ {current id checks s absolute answer w}, At (.looking (some current) id) checks s →
    mutation = .hardDelete → some (writer.sha256 current) = base →
    Target writer.options.vaultRoot path absolute (P.view s).tree →
      Allowed R writer.options.vaultRoot path checks (P.view s).tree →
      P.handler (.fs (.removeFile absolute)) (P.view s) answer w →
        P.Pays s w (At (Phase.next (.removed current) (.looking (some current) id) answer) checks)

variable {P : Protocol VaultOp VaultOp.Resp (World fold) S} {setting : Setting fold} {task : Nat}
  {writer : VaultWriter} {path : Text} {base : Option Text} {mutation : Mutation}
  {R : Tree fold → Tree fold → Prop} {At : Phase → Checks → S → Prop}
  {phase : Phase} {checks : Checks} {s : S} {ε α : Type}

/-- Between the states `s` and `t` the tree has only grown. -/
def Grown (P : Protocol VaultOp VaultOp.Resp (World fold) S) (vaultRoot : FsPath) (s t : S) : Prop :=
  Tree.After vaultRoot (P.view s).tree (P.view t).tree

theorem Outline.grown (outline : Outline P setting task writer path base mutation R At) {s t : S}
    (moved : R (P.view s).tree (P.view t).tree) : Grown P writer.options.vaultRoot s t :=
  (outline.steady (.looking none none)).after moved

theorem Outline.handler (outline : Outline P setting task writer path base mutation R At) {op : VaultOp} {s : S}
    {answer : op.Resp} {w : World fold} (effect : P.handler op (P.view s) answer w) :
    VaultEffect setting task op (P.view s) answer w :=
  (outline.steady (.looking none none)).handler effect

/-- The rule of one call of a mutation. -/
theorem Outline.step (outline : Outline P setting task writer path base mutation R At) (here : At phase checks s)
    {op : VaultOp} {rest : op.Resp → VaultProg ε α} {post : Except ε α → S → Prop}
    (pays : ∀ t, At phase checks t → R (P.view s).tree (P.view t).tree → ∀ answer w,
      P.handler op (P.view t) answer w → P.Pays t w fun u =>
        Grown P writer.options.vaultRoot s u → P.Safe post (rest answer) u) :
    P.Safe post ((Prog.perform op).bind rest) s := by
  intro t others answer w effect
  obtain ⟨here, moved⟩ := (outline.steady phase).rely others here
  have grown := outline.grown moved
  exact (pays t here moved answer w effect).mono fun u allowed safe =>
    safe (grown.trans (outline.moves allowed))

theorem Outline.done (outline : Outline P setting task writer path base mutation R At) (here : At phase checks s)
    {value : α} {post : Except ε α → S → Prop}
    (ends : ∀ t, At phase checks t → Grown P writer.options.vaultRoot s t → post (.ok value) t) :
    P.Safe post (.done value) s :=
  (outline.steady phase).done here fun t here moved => ends t here (outline.grown moved)

theorem Outline.fail (outline : Outline P setting task writer path base mutation R At) (here : At phase checks s)
    {error : ε} {post : Except ε α → S → Prop}
    (ends : ∀ t, At phase checks t → Grown P writer.options.vaultRoot s t → post (.error error) t) :
    P.Safe post (.fail error) s :=
  (outline.steady phase).fail here fun t here moved => ends t here (outline.grown moved)

theorem Grown.refl (vaultRoot : FsPath) (s : S) : Grown P vaultRoot s s := Tree.After.refl _ _

theorem Grown.trans {vaultRoot : FsPath} {s t u : S} (first : Grown P vaultRoot s t)
    (second : Grown P vaultRoot t u) : Grown P vaultRoot s u := Tree.After.trans first second

section Directories

variable {known id : Option Text}

/-- Any result of a part of the mutation that only looks and makes directories. -/
def Still (P : Protocol VaultOp VaultOp.Resp (World fold) S) (At : Phase → Checks → S → Prop)
    (vaultRoot : FsPath) (phase : Phase) (checks : Checks) (s : S) (_ : Except ε α) (t : S) : Prop :=
  At phase checks t ∧ Grown P vaultRoot s t

theorem isDirectory_safe (outline : Outline P setting task writer path base mutation R At) (dir : FsPath)
    (here : At phase checks s) :
    P.Safe (Still P At writer.options.vaultRoot phase checks s) (isDirectory dir : VaultProg ε Bool) s := by
  refine (outline.steady phase).read here rfl fun t here moved answer _ => ?_
  have grown := outline.grown moved
  cases answer with
  | ok metadata => exact outline.done here fun u here later => ⟨here, grown.trans later⟩
  | error error => exact outline.done here fun u here later => ⟨here, grown.trans later⟩

theorem settleDir_safe (outline : Outline P setting task writer path base mutation R At) (dir : FsPath) (error : IoError)
    (here : At phase checks s) :
    P.Safe (Still P At writer.options.vaultRoot phase checks s) (settleDir dir error) s := by
  refine (isDirectory_safe outline dir here).bind ?_ fun error t still => still
  rintro isDir t ⟨here, grown⟩
  cases isDir with
  | true => exact outline.done here fun u here later => ⟨here, grown.trans later⟩
  | false => exact outline.fail here fun u here later => ⟨here, grown.trans later⟩

theorem createDirAll_safe (outline : Outline P setting task writer path base mutation R At) (reversed : FsPath)
    (here : At (.looking known id) checks s) :
    P.Safe (Still P At writer.options.vaultRoot (.looking known id) checks s) (createDirAll reversed) s := by
  have fails {dir : FsPath} {error : IoError} {t : S} (grown : Grown P writer.options.vaultRoot s t)
      (here : At (.looking known id) checks t) :
      P.Safe (Still P At writer.options.vaultRoot (.looking known id) checks s) (settleDir dir error) t :=
    (settleDir_safe outline dir error here).weaken fun _ _ still => ⟨still.1, grown.trans still.2⟩
  have ends {t : S} (grown : Grown P writer.options.vaultRoot s t) (here : At (.looking known id) checks t) :
      P.Safe (Still P At writer.options.vaultRoot (.looking known id) checks s)
        (.done () : VaultProg IoError Unit) t :=
    outline.done here fun u here later => ⟨here, grown.trans later⟩
  have again {dir : FsPath} {t : S} (grown : Grown P writer.options.vaultRoot s t)
      (here : At (.looking known id) checks t)
      {rest : Except IoError Unit → VaultProg IoError Unit}
      (next : ∀ answer u, Grown P writer.options.vaultRoot s u → At (.looking known id) checks u →
        P.Safe (Still P At writer.options.vaultRoot (.looking known id) checks s) (rest answer) u) :
      P.Safe (Still P At writer.options.vaultRoot (.looking known id) checks s)
        ((VaultProg.fs (.createDir dir)).bind rest) t := by
    refine outline.step here fun u here later answer w effect => ?_
    exact (outline.makeDir here effect).mono fun v _ here last => next answer v (grown.trans last) here
  have all : ∀ t, Grown P writer.options.vaultRoot s t → At (.looking known id) checks t →
      P.Safe (Still P At writer.options.vaultRoot (.looking known id) checks s) (createDirAll reversed) t := by
    induction reversed with
    | nil =>
      refine fun t grown here => again grown here fun answer u grown here => ?_
      cases answer with
      | ok value => exact ends grown here
      | error error => exact fails grown here
    | cons name parent ih =>
      refine fun t grown here => again grown here fun answer u grown here => ?_
      match answer with
      | .ok value => exact ends grown here
      | .error .notFound =>
        refine (ih u grown here).bind (fun _ v still => ?_) fun error v still => still
        refine again still.2 still.1 fun answer x grown here => ?_
        cases answer with
        | ok value => exact ends grown here
        | error error => exact fails grown here
      | .error .alreadyExists => exact fails grown here
      | .error .other => exact fails grown here
  exact all s (.refl _ _) here

theorem makeParent_safe (outline : Outline P setting task writer path base mutation R At) (absolute : FsPath)
    (here : At (.looking known id) checks s) :
    P.Safe (Still P At writer.options.vaultRoot (.looking known id) checks s)
      (VaultWriter.makeParent absolute) s :=
  Safe.mapError ((createDirAll_safe outline _ here).weaken fun _ _ still => still)

end Directories

/-- A guard that passes names the target of `aim` and puts its verdicts on top of the old
ones. -/
def Passed (P : Protocol VaultOp VaultOp.Resp (World fold) S) (At : Phase → Checks → S → Prop)
    (R : Tree fold → Tree fold → Prop) (vaultRoot : FsPath) (aim : Text) (phase : Phase) (checks : Checks)
    (s : S) (result : Except ε FsPath) (t : S) : Prop :=
  R (P.view s).tree (P.view t).tree ∧ ∃ later, At phase later t ∧ ∀ absolute, result = .ok absolute →
    Target vaultRoot aim absolute (P.view t).tree ∧ Allowed R vaultRoot aim later (P.view t).tree ∧
      later.drop 2 = checks

theorem Outline.guard (outline : Outline P setting task writer path base mutation R At) {aim : Text}
    (normal : Normalized aim) (here : At phase checks s) (asks : phase.asks) :
    P.Safe (Passed P At R writer.options.vaultRoot aim phase checks s) (writer.guard aim) s := by
  have quiet : Quiet P setting task writer.options.vaultRoot R (At phase) :=
    ⟨outline.steady phase, outline.checked asks⟩
  refine (guard_safe writer quiet normal here).weaken ?_
  rintro (error | absolute) t ⟨moved, found⟩
  · obtain ⟨more, here⟩ := found
    exact ⟨moved, _, here, nofun⟩
  · obtain ⟨identity, here, target, resolved⟩ := found
    refine ⟨moved, _, here, ?_⟩
    rintro _ ⟨⟩
    exact ⟨target, ⟨identity, absolute, checks, rfl, resolved⟩, rfl⟩

theorem Outline.allowed (outline : Outline P setting task writer path base mutation R At) {aim : Text} {t u : Tree fold}
    (allowed : Allowed R writer.options.vaultRoot aim checks t) (moved : R t u) :
    Allowed R writer.options.vaultRoot aim checks u := by
  obtain ⟨identity, absolute, more, same, resolved⟩ := allowed
  exact ⟨identity, absolute, more, same, resolved.later (outline.steady (.looking none none)) moved⟩

section Writing

variable {known id : Option Text} {temp file : FsPath} {text : Option Text}

/-- The rule of one call that is followed by `?`. -/
theorem Outline.io (outline : Outline P setting task writer path base mutation R At) (here : At phase checks s)
    {op : FsOp} {convert : IoError → ε} {post : Except ε op.Result → S → Prop} {good bad : Phase}
    (pays : ∀ t, At phase checks t → R (P.view s).tree (P.view t).tree → ∀ answer w,
      P.handler (.fs op) (P.view t) answer w → P.Pays t w (At (Phase.next good bad answer) checks))
    (ended : ∀ value t, At good checks t → Grown P writer.options.vaultRoot s t → post (.ok value) t)
    (failed : ∀ error t, At bad checks t → Grown P writer.options.vaultRoot s t → post (.error error) t) :
    P.Safe post ((VaultProg.fs op).bind (.ofExcept convert)) s := by
  refine outline.step here fun t here moved answer w effect => ?_
  refine (pays t here moved answer w effect).mono fun u _ next grown => ?_
  cases answer with
  | ok value => exact outline.done next fun v here later => ended value v here (grown.trans later)
  | error error => exact outline.fail next fun v here later => failed _ v here (grown.trans later)

theorem prepare_safe (outline : Outline P setting task writer path base mutation R At) (content : Text)
    (permissions : Option Nat) (intended : Intended writer base mutation known content)
    (here : At (.drafting known id temp file none) checks s) :
    P.Safe (fun result t => Grown P writer.options.vaultRoot s t ∧ ∃ text,
        At (.drafting known id temp file text) checks t ∧ (result = .ok () → text = some content))
      (VaultWriter.prepare file content permissions) s := by
  have written : P.Safe (fun result t => Grown P writer.options.vaultRoot s t ∧ ∃ text,
      At (.drafting known id temp file text) checks t ∧ (result = .ok () → text = some content))
        (VaultProg.io (.writeAll file content)) s :=
    outline.io here (fun t here _ answer w effect => outline.fill here intended effect)
      (fun _ t here grown => ⟨grown, _, here, fun _ => rfl⟩) fun _ t here grown => ⟨grown, _, here, nofun⟩
  have settled {op : FsOp} {t : S} (allowed : op = .syncAll file ∨ ∃ mode, op = .setPermissions file mode)
      (here : At (.drafting known id temp file (some content)) checks t)
      (grown : Grown P writer.options.vaultRoot s t) :
      P.Safe (fun _ u => Grown P writer.options.vaultRoot s u ∧
        At (.drafting known id temp file (some content)) checks u) (VaultProg.io op) t := by
    refine outline.io here (fun u here _ answer w effect => ?_) (fun _ u here later => ⟨grown.trans later, here⟩)
      fun _ u here later => ⟨grown.trans later, here⟩
    refine (outline.settle here allowed effect).mono fun v _ next => ?_
    cases answer <;> exact next
  unfold VaultWriter.prepare
  refine written.bind ?_ fun error t left => left
  rintro ⟨⟩ t ⟨grown, text, here, full⟩
  obtain rfl := full rfl
  have synced {u : S} (here : At (.drafting known id temp file (some content)) checks u)
      (grown : Grown P writer.options.vaultRoot s u) :
      P.Safe (fun result t => Grown P writer.options.vaultRoot s t ∧ ∃ text,
        At (.drafting known id temp file text) checks t ∧ (result = .ok () → text = some content))
        (VaultProg.io (.syncAll file)) u :=
    (settled (.inl rfl) here grown).weaken fun _ _ left => ⟨left.1, _, left.2, fun _ => rfl⟩
  cases permissions with
  | none => exact synced here grown
  | some mode =>
    refine (settled (.inr ⟨mode, rfl⟩) here grown).bind (fun _ u left => synced left.2 left.1) ?_
    exact fun error u left => ⟨left.1, _, left.2, nofun⟩

theorem permissionsOf_safe (outline : Outline P setting task writer path base mutation R At) (absolute : FsPath)
    (create : Bool) (here : At phase checks s) :
    P.Safe (Still P At writer.options.vaultRoot phase checks s)
      (VaultWriter.permissionsOf absolute create) s := by
  unfold VaultWriter.permissionsOf
  split
  · exact outline.done here fun t here grown => ⟨here, grown⟩
  · refine (outline.steady phase).io here rfl (fun error t here moved => ?_)
      fun t here moved metadata _ => ?_
    · exact ⟨here, outline.grown moved⟩
    · exact outline.done here fun u here later => ⟨here, (outline.grown moved).trans later⟩

/-- A publication either happened or left the temporary file. -/
def Publishing (P : Protocol VaultOp VaultOp.Resp (World fold) S) (At : Phase → Checks → S → Prop)
    (vaultRoot : FsPath) (known id : Option Text) (temp file : FsPath) (content : Text) (s : S)
    (result : Except ε Unit) (t : S) : Prop :=
  Grown P vaultRoot s t ∧ ∃ checks, match result with
    | .ok _ => At (.published known id temp content) checks t
    | .error _ => ∃ text, At (.drafting known id temp file text) checks t

theorem publish_safe (outline : Outline P setting task writer path base mutation R At) (normal : Normalized path)
    {absolute : FsPath} {id content : Text} {prepared : Except IoError Unit} {create : Bool}
    (kind : create = known.isNone) (full : prepared = .ok () → text = some content)
    (target : Target writer.options.vaultRoot path absolute (P.view s).tree)
    (here : At (.drafting known (some id) (draftPath absolute id) file text) checks s) :
    P.Safe (Publishing P At writer.options.vaultRoot known (some id) (draftPath absolute id) file content s)
      (writer.publish path (draftPath absolute id) absolute create prepared) s := by
  have fails {error : VaultWriteError} {text : Option Text} {checks : Checks} {t : S}
      (grown : Grown P writer.options.vaultRoot s t)
      (here : At (.drafting known (some id) (draftPath absolute id) file text) checks t) :
      P.Safe (Publishing P At writer.options.vaultRoot known (some id) (draftPath absolute id) file content s)
        (.fail error : WriterProg Unit) t :=
    outline.fail here fun u here later => ⟨grown.trans later, checks, text, here⟩
  unfold VaultWriter.publish
  cases prepared with
  | error error => exact fails (.refl _ _) here
  | ok value =>
    obtain rfl := full rfl
    simp only [Prog.ofExcept_ok, Prog.bind_eq, Prog.done_bind]
    refine (outline.guard normal here trivial).bind ?_ fun error t ⟨moved, later, here, _⟩ =>
      ⟨outline.grown moved, later, some content, here⟩
    rintro passed t ⟨moved, later, here, allowed⟩
    obtain ⟨-, allowed, -⟩ := allowed passed rfl
    have grown := outline.grown moved
    have target := target.after grown
    cases create with
    | true =>
      obtain rfl : known = none := by simpa using kind.symm
      refine outline.step here fun u here moved answer w effect => ?_
      refine (outline.link here (target.after (outline.grown moved)) (outline.allowed allowed moved) effect).mono
        fun v _ here last => ?_
      have grown := grown.trans last
      match answer with
      | .ok () => exact outline.done here fun x here more => ⟨grown.trans more, _, here⟩
      | .error .alreadyExists => exact fails grown here
      | .error .notFound => exact fails grown here
      | .error .other => exact fails grown here
    | false =>
      obtain ⟨current, rfl⟩ : ∃ current, known = some current := Option.isSome_iff_exists.mp (by
        simpa using kind.symm)
      refine outline.io here (fun u here moved answer w effect => ?_)
        (fun _ u here more => ⟨grown.trans more, _, here⟩)
        fun _ u here more => ⟨grown.trans more, _, some content, here⟩
      exact outline.rename here (target.after (outline.grown moved))
        (outline.allowed allowed moved) effect

/-- What a whole write leaves. -/
def Writing (At : Phase → Checks → S → Prop) (known : Option Text) (content : Text) (result : Except ε Unit)
    (t : S) : Prop :=
  match result with
  | .ok _ => ∃ checks, At (.wrote known content) checks t
  | .error _ => ∃ checks id, At (.looking known id) checks t

theorem atomicWrite_safe (outline : Outline P setting task writer path base mutation R At) (normal : Normalized path)
    {absolute : FsPath} {content : Text} {create : Bool} (kind : create = known.isNone)
    (intended : Intended writer base mutation known content)
    (target : Target writer.options.vaultRoot path absolute (P.view s).tree)
    (here : At (.looking known id) checks s) :
    P.Safe (Writing At known content) (writer.atomicWrite path absolute content create) s := by
  unfold VaultWriter.atomicWrite
  refine (makeParent_safe outline absolute here).bind ?_ fun error t ⟨here, _⟩ => ⟨_, _, here⟩
  rintro ⟨⟩ t ⟨here, grown⟩
  refine (outline.guard normal here trivial).bind ?_ fun error u ⟨_, _, here, _⟩ => ⟨_, _, here⟩
  rintro _ u ⟨moved, checks, here, -⟩
  have target := (target.after grown).after (outline.grown moved)
  refine outline.step here fun v here moved unique w effect => ?_
  refine (outline.draw here effect).mono fun x _ here grown => ?_
  have target := target.after grown
  refine (permissionsOf_safe outline absolute create here).bind ?_ fun error y ⟨here, _⟩ => ⟨_, _, here⟩
  rintro permissions y ⟨here, grown⟩
  have target := target.after grown
  refine outline.step here fun z here moved answer w effect => ?_
  refine (outline.make here (target.after (outline.grown moved)) effect).mono fun x _ here grown => ?_
  have target := target.after grown
  match answer with
  | .error error => exact outline.fail here fun _ here _ => ⟨_, _, here⟩
  | .ok file =>
    -- from here on the temporary file is removed whatever happens
    refine (prepare_safe outline content permissions intended here).attempt_bind ?_
    rintro prepared t ⟨grown, text, here, full⟩
    refine (publish_safe outline normal kind full (target.after grown) here).attempt_bind ?_
    rintro (error | ⟨⟩) t ⟨-, checks, published⟩
    · obtain ⟨text, here⟩ := published
      refine outline.step here fun u here _ answer w effect => ?_
      refine (outline.discard here effect).mono fun v _ here _ => ?_
      exact outline.fail here fun _ here _ => ⟨_, _, here⟩
    · refine outline.step published fun u here _ answer w effect => ?_
      refine (outline.clear here effect).mono fun v _ here _ => ?_
      exact outline.done here fun _ here _ => ⟨_, here⟩

end Writing

section Deleting

variable {current : Text} {id : Option Text} {absolute : FsPath}

/-- What a move to the trash leaves. -/
def Trashing (At : Phase → Checks → S → Prop) (current : Text) (result : Except ε Text) (t : S) : Prop :=
  match result with
  | .ok target => ∃ checks, At (.trashed current target) checks t
  | .error _ => (∃ checks id, At (.looking (some current) id) checks t) ∨
      ∃ checks target, At (.stranded current target) checks t

theorem VaultWriter.Destined.normal {target : Text} (destined : writer.Destined path id target) :
    Normalized target := by
  rcases destined with made | ⟨drawn, -, made⟩
  · exact normalizeVaultPath_ok made
  · exact normalizeVaultPath_ok made

theorem moveToTrashFrom_safe (outline : Outline P setting task writer path base mutation R At) (normal : Normalized path)
    (fuel : Nat) (kind : mutation = .delete) (named : some (writer.sha256 current) = base) {target : Text}
    (destined : writer.Destined path id target)
    (atTarget : Target writer.options.vaultRoot path absolute (P.view s).tree)
    (here : At (.looking (some current) id) checks s) :
    P.Safe (Trashing At current) (writer.moveToTrashFrom path absolute fuel target) s := by
  induction fuel generalizing target id checks s with
  | zero => exact fun _ _ never => nomatch never
  | succ fuel ih =>
    unfold VaultWriter.moveToTrashFrom
    refine (outline.guard destined.normal here trivial).bind ?_ fun error t ⟨_, _, here, _⟩ => .inl ⟨_, _, here⟩
    rintro destination t ⟨moved, checks, here, found⟩
    obtain ⟨atDestination, -, -⟩ := found destination rfl
    have atTarget := atTarget.after (outline.grown moved)
    refine (makeParent_safe outline destination here).bind ?_ fun error u ⟨here, _⟩ => .inl ⟨_, _, here⟩
    rintro ⟨⟩ u ⟨here, grown⟩
    have atTarget := atTarget.after grown
    have atDestination := atDestination.after grown
    refine (outline.guard destined.normal here trivial).bind ?_ fun error t ⟨_, _, here, _⟩ => .inl ⟨_, _, here⟩
    rintro again v ⟨moved, checks, here, found⟩
    obtain ⟨-, earlier, -⟩ := found again rfl
    have atTarget := atTarget.after (outline.grown moved)
    have atDestination := atDestination.after (outline.grown moved)
    refine (outline.guard normal here trivial).bind ?_ fun error t ⟨_, _, here, _⟩ => .inl ⟨_, _, here⟩
    rintro third x ⟨moved, later, here, found⟩
    obtain ⟨-, allowed, under⟩ := found third rfl
    rw [← under] at earlier
    have atTarget := atTarget.after (outline.grown moved)
    have atDestination := atDestination.after (outline.grown moved)
    have earlier := outline.allowed earlier moved
    refine outline.step here fun y here moved answer w effect => ?_
    have grown := outline.grown moved
    refine (outline.trash here kind named destined (atTarget.after grown) (atDestination.after grown)
      (outline.allowed allowed moved) (outline.allowed earlier moved) effect).mono fun z _ here grown => ?_
    have atTarget := atTarget.after grown
    have fails {error : VaultWriteError} (here : At (.looking (some current) id) later z) :
        P.Safe (Trashing At current) (.fail error : WriterProg Text) z :=
      outline.fail here fun _ here _ => .inl ⟨_, _, here⟩
    match answer with
    | .ok () =>
      refine outline.step here fun x here moved answer w effect => ?_
      refine (outline.unlink here (atTarget.after (outline.grown moved)) effect).mono fun y _ here _ => ?_
      cases answer with
      | ok value => exact outline.done here fun _ here _ => ⟨_, here⟩
      | error error => exact outline.fail here fun _ here _ => .inr ⟨_, _, here⟩
    | .error .alreadyExists =>
      refine outline.step here fun x here moved drawn w effect => ?_
      refine (outline.draw here effect).mono fun y _ here grown => ?_
      have atTarget := atTarget.after grown
      cases made : writer.trashFallback path drawn with
      | error error => exact outline.fail here fun _ here _ => .inl ⟨_, _, here⟩
      | ok target => exact ih (.inr ⟨drawn, rfl, made⟩) atTarget here
    | .error .notFound => exact fails here
    | .error .other => exact fails here

theorem moveToTrash_safe (outline : Outline P setting task writer path base mutation R At) (normal : Normalized path)
    (fuel : Nat) (kind : mutation = .delete) (named : some (writer.sha256 current) = base)
    (atTarget : Target writer.options.vaultRoot path absolute (P.view s).tree)
    (here : At (.looking (some current) id) checks s) :
    P.Safe (Trashing At current) (writer.moveToTrash path absolute fuel) s := by
  unfold VaultWriter.moveToTrash
  cases made : writer.trashTarget path with
  | error error => exact outline.fail here fun _ here _ => .inl ⟨_, _, here⟩
  | ok target => exact moveToTrashFrom_safe outline normal fuel kind named (.inl made) atTarget here

end Deleting

section Reading

variable {id base : Option Text} {absolute : FsPath}

theorem existingMetadata_safe (outline : Outline P setting task writer path base mutation R At) (here : At phase checks s) :
    P.Safe (Still P At writer.options.vaultRoot phase checks s)
      (VaultWriter.existingMetadata path absolute) s := by
  refine (outline.steady phase).read here rfl fun t here moved answer _ => ?_
  have grown := outline.grown moved
  have fails {error : VaultWriteError} : P.Safe (Still P At writer.options.vaultRoot phase checks s)
      (.fail error : WriterProg FileSystem.Metadata) t :=
    outline.fail here fun u here later => ⟨here, grown.trans later⟩
  match answer with
  | .ok metadata => exact outline.done here fun u here later => ⟨here, grown.trans later⟩
  | .error .notFound => exact fails
  | .error .alreadyExists => exact fails
  | .error .other => exact fails

theorem checkCooldown_safe (outline : Outline P setting task writer path base mutation R At)
    (metadata : FileSystem.Metadata) (here : At phase checks s) :
    P.Safe (Still P At writer.options.vaultRoot phase checks s) (writer.checkCooldown metadata) s := by
  unfold VaultWriter.checkCooldown
  split
  · refine outline.step here fun t here moved now w effect => ?_
    obtain rfl : w = P.view t := by
      cases outline.handler effect
      rfl
    refine ⟨t, rfl, (outline.steady phase).stay here, fun grown => ?_⟩
    split
    · exact outline.fail here fun u here later => ⟨here, grown.trans later⟩
    · exact outline.done here fun u here later => ⟨here, grown.trans later⟩
  · exact outline.done here fun t here grown => ⟨here, grown⟩

/-- What reading the base leaves. -/
def Based (P : Protocol VaultOp VaultOp.Resp (World fold) S) (At : Phase → Checks → S → Prop)
    (writer : VaultWriter) (base id : Option Text) (s : S) (result : Except ε Text) (t : S) : Prop :=
  match result with
  | .ok current => some (writer.sha256 current) = base ∧ Grown P writer.options.vaultRoot s t ∧
      ∃ checks, At (.looking (some current) id) checks t
  | .error _ => ∃ checks known, At (.looking known id) checks t

theorem readBase_safe (outline : Outline P setting task writer path base mutation R At)
    (target : Target writer.options.vaultRoot path absolute (P.view s).tree)
    (here : At (.looking none id) checks s) :
    P.Safe (Based P At writer base id s) (writer.readBase path base absolute) s := by
  unfold VaultWriter.readBase
  refine (existingMetadata_safe outline here).bind ?_ fun error t ⟨here, _⟩ => ⟨_, _, here⟩
  rintro metadata t ⟨here, first⟩
  refine (checkCooldown_safe outline metadata here).bind ?_ fun error t ⟨here, _⟩ => ⟨_, _, here⟩
  rintro ⟨⟩ u ⟨here, second⟩
  have grown := first.trans second
  refine outline.step here fun v here moved answer w effect => ?_
  have later := grown.trans (outline.grown moved)
  obtain rfl : w = P.view v := ((outline.handler effect).reads rfl).1
  refine ⟨v, rfl, (outline.steady _).stay here, fun _ => ?_⟩
  cases answer with
  | error error => exact outline.fail here fun _ here _ => ⟨_, _, here⟩
  | ok current =>
    have here := outline.read here (target.after later) effect
    dsimp only [Prog.ofExcept_ok, Prog.done_bind]
    split
    · rename_i named
      exact outline.done here fun _ here last => ⟨named, later.trans last, _, here⟩
    · exact outline.fail here fun _ here _ => ⟨_, _, here⟩

end Reading

section Applying

variable {base : Option Text} {absolute : FsPath}

/-- What a mutation leaves. -/
def Applied (At : Phase → Checks → S → Prop) (writer : VaultWriter) (path : Text) (base : Option Text)
    (mutation : Mutation) (result : Except VaultWriteError WriteResult) (t : S) : Prop :=
  ∃ phase checks, At phase checks t ∧ Outcome writer path base mutation result phase

theorem create_safe {content : Text} {frontmatter : Option Frontmatter}
    (outline : Outline P setting task writer path base (.create content frontmatter) R At)
    (normal : Normalized path)
    (target : Target writer.options.vaultRoot path absolute (P.view s).tree)
    (here : At (.looking none none) checks s) :
    P.Safe (Applied At writer path base (.create content frontmatter))
      ((WriterProg.io (.tryExists absolute)).bind fun found =>
        if found then .fail (VaultWriter.pathExists path)
        else (Prog.ofExcept id (withFrontmatter writer.codecs content frontmatter)).bind fun content =>
          (writer.atomicWrite path absolute content true).bind fun _ =>
            .done ⟨path, none, base, writer.sha256 content⟩) s := by
  refine (outline.steady _).io here rfl (fun error t here _ => ⟨_, _, here, .failed ..⟩)
    fun t here moved found _ => ?_
  cases found with
  | true => exact outline.fail here fun _ here _ => ⟨_, _, here, .failed ..⟩
  | false =>
    cases made : withFrontmatter writer.codecs content frontmatter with
    | error error => exact outline.fail here fun _ here _ => ⟨_, _, here, .failed ..⟩
    | ok text =>
      refine (atomicWrite_safe outline normal rfl (.created made) (target.after (outline.grown moved)) here).bind ?_ ?_
      · rintro ⟨⟩ u ⟨checks, here⟩
        exact outline.done here fun _ here _ => ⟨_, _, here, .wrote (.created made)⟩
      · rintro error u ⟨checks, id, here⟩
        exact ⟨_, _, here, .failed ..⟩

theorem rewrite_safe (outline : Outline P setting task writer path base mutation R At) (normal : Normalized path)
    (target : Target writer.options.vaultRoot path absolute (P.view s).tree)
    (here : At (.looking none none) checks s) :
    P.Safe (Applied At writer path base mutation)
      ((writer.readBase path base absolute).bind fun current =>
        (Prog.ofExcept id (writer.nextText mutation current)).bind fun next =>
          (writer.atomicWrite path absolute next false).bind fun _ =>
            .done ⟨path, none, base, writer.sha256 next⟩) s := by
  refine (readBase_safe outline target here).bind ?_ fun error t ⟨_, _, here⟩ => ⟨_, _, here, .failed ..⟩
  rintro current t ⟨named, grown, checks, here⟩
  cases made : writer.nextText mutation current with
  | error error => exact outline.fail here fun _ here _ => ⟨_, _, here, .failed ..⟩
  | ok text =>
    refine (atomicWrite_safe outline normal rfl (.replaced named made) (target.after grown) here).bind ?_ ?_
    · rintro ⟨⟩ u ⟨checks, here⟩
      exact outline.done here fun _ here _ => ⟨_, _, here, .wrote (.replaced named made)⟩
    · rintro error u ⟨checks, id, here⟩
      exact ⟨_, _, here, .failed ..⟩

theorem delete_safe (outline : Outline P setting task writer path base .delete R At) (normal : Normalized path)
    (fuel : Nat) (target : Target writer.options.vaultRoot path absolute (P.view s).tree)
    (here : At (.looking none none) checks s) :
    P.Safe (Applied At writer path base .delete)
      ((writer.readBase path base absolute).bind fun current =>
        (writer.moveToTrash path absolute fuel).bind fun deleted =>
          .done ⟨path, some deleted, base, writer.sha256 current⟩) s := by
  refine (readBase_safe outline target here).bind ?_ fun error t ⟨_, _, here⟩ => ⟨_, _, here, .failed ..⟩
  rintro current t ⟨named, grown, checks, here⟩
  refine (moveToTrash_safe outline normal fuel rfl named (target.after grown) here).bind ?_ ?_
  · rintro deleted u ⟨checks, here⟩
    exact outline.done here fun _ here _ => ⟨_, _, here, .deleted named⟩
  · rintro error u (⟨checks, id, here⟩ | ⟨checks, target, here⟩)
    · exact ⟨_, _, here, .failed ..⟩
    · exact ⟨_, _, here, .stranded ..⟩

theorem hardDelete_safe (outline : Outline P setting task writer path base .hardDelete R At) (normal : Normalized path)
    (target : Target writer.options.vaultRoot path absolute (P.view s).tree)
    (here : At (.looking none none) checks s) :
    P.Safe (Applied At writer path base .hardDelete)
      ((writer.readBase path base absolute).bind fun current => (writer.guard path).bind fun _ =>
        (WriterProg.io (.removeFile absolute)).bind fun _ =>
          .done ⟨path, none, base, writer.sha256 current⟩) s := by
  refine (readBase_safe outline target here).bind ?_ fun error t ⟨_, _, here⟩ => ⟨_, _, here, .failed ..⟩
  rintro current t ⟨named, grown, checks, here⟩
  refine (outline.guard normal here trivial).bind ?_ fun error u ⟨_, _, here, _⟩ => ⟨_, _, here, .failed ..⟩
  rintro again u ⟨moved, later, here, found⟩
  obtain ⟨-, allowed, -⟩ := found again rfl
  have target := (target.after grown).after (outline.grown moved)
  refine outline.step here fun v here moved answer w effect => ?_
  refine (outline.remove here rfl named (target.after (outline.grown moved)) (outline.allowed allowed moved)
    effect).mono fun x _ here _ => ?_
  cases answer with
  | ok value => exact outline.done here fun _ here _ => ⟨_, _, here, .hardDeleted named⟩
  | error error => exact outline.fail here fun _ here _ => ⟨_, _, here, .failed ..⟩

/-- A mutation that starts with nothing known ends in one of its outcomes. -/
theorem apply_safe (outline : Outline P setting task writer path base mutation R At) (normal : Normalized path)
    (fuel : Nat) (here : At (.looking none none) checks s) :
    P.Safe (Applied At writer path base mutation) (writer.apply path base mutation fuel) s := by
  unfold VaultWriter.apply
  refine (outline.guard normal here trivial).bind ?_ fun error t ⟨_, _, here, _⟩ => ⟨_, _, here, .failed ..⟩
  rintro absolute t ⟨moved, checks, here, found⟩
  obtain ⟨target, -, -⟩ := found absolute rfl
  cases mutation with
  | create content frontmatter => exact create_safe outline normal target here
  | replace content frontmatter => exact rewrite_safe outline normal target here
  | frontmatter updates => exact rewrite_safe outline normal target here
  | marker marker content => exact rewrite_safe outline normal target here
  | delete => exact delete_safe outline normal fuel target here
  | hardDelete => exact hardDelete_safe outline normal target here

end Applying

end Outline

end SecondBrain
