import SecondBrain.Library.Recording
import SecondBrain.Runtime.ToolCalls

set_option autoImplicit false

/-! What the index holds while tools run side by side: always one snapshot, and after a refresh
one that was begun after the mutation. -/

namespace SecondBrain

open FileSystem (Name)
open Recording
open RuntimeProg (call ofVault guarded)

variable {fold : Name → Name} {I : Type}

/-- The record of a run of the tools. -/
abbrev Past (I : Type) (fold : Name → Name) : Type := List (Event I RuntimeOp RuntimeOp.Resp (RuntimeWorld fold))

def Locks (mutex : Mutex) (event : Event I RuntimeOp RuntimeOp.Resp (RuntimeWorld fold)) : Prop :=
  event.op = .lock mutex

def Unlocks (mutex : Mutex) (event : Event I RuntimeOp RuntimeOp.Resp (RuntimeWorld fold)) : Prop :=
  event.op = .unlock mutex

/-- The task holds the mutex, which it took at the position `n`. -/
abbrev Holding (mutex : Mutex) (i : I) (n : Nat) (past : Past I fold) : Prop :=
  InSection (Locks mutex) (Unlocks mutex) i n past

section Record

variable (engine : IndexEngine)

/-- The call made the tables the index. -/
def Publishes (event : Event I RuntimeOp RuntimeOp.Resp (RuntimeWorld fold)) (tables : IndexTables) : Prop :=
  ∃ i w notes conflicts, event = ⟨i, w, .rebuildIndex notes conflicts, .ok ()⟩ ∧
    rebuild engine notes conflicts = .ok tables

/-- The index is what was published last. -/
def Latest (start : IndexTables) (past : Past I fold) (index : IndexTables) : Prop :=
  (∃ m event, past[m]? = some event ∧ Publishes engine event index ∧
    ∀ later ∈ past.drop (m + 1), ∀ tables, ¬ Publishes engine later tables) ∨
  index = start ∧ ∀ event ∈ past, ∀ tables, ¬ Publishes engine event tables

/-- None of the calls of the task published anything. -/
def Silent (i : I) (past : Past I fold) : Prop :=
  ∀ event ∈ past, event.task = i → ∀ tables, ¬ Publishes engine event tables

/-- A refresh of the task `i`: with the mutex taken at `n` it published at `m` what it had read of
the vault in between. -/
structure Publication [DecidableEq I] (reader : VaultReader) (fuel : Nat) (past : Past I fold) (i : I) (n m : Nat)
    (tables : IndexTables) : Prop where
  holding : Holding .indexRefresh i n (past.take m)
  published : ∃ w notes conflicts, past[m]? = some ⟨i, w, .rebuildIndex notes conflicts, .ok ()⟩ ∧
    rebuild engine notes conflicts = .ok tables ∧
      (collect reader fuel).Plays (answersOf i ((past.take m).drop (n + 1))) (.ok (notes, conflicts))

variable {engine} {reader : VaultReader} {fuel : Nat} {past more : Past I fold} {start index tables : IndexTables}
  {event : Event I RuntimeOp RuntimeOp.Resp (RuntimeWorld fold)} {i j : I} {n m k l : Nat}

theorem Publication.append [DecidableEq I] (publication : Publication engine reader fuel past i n m tables)
    (more : Past I fold) : Publication engine reader fuel (past ++ more) i n m tables := by
  obtain ⟨holding, w, notes, conflicts, found, built, played⟩ := publication
  have short : m < past.length := (List.getElem?_eq_some_iff.mp found).1
  have same : (past ++ more).take m = past.take m := List.take_append_of_le_length short.le
  exact ⟨same ▸ holding, w, notes, conflicts, by rw [List.getElem?_append_left short, found], built, same ▸ played⟩

theorem Publication.lt [DecidableEq I] (publication : Publication engine reader fuel past i n m tables) : n < m := by
  have short := publication.holding.lt
  rw [List.length_take] at short
  omega

theorem Latest.snoc (latest : Latest engine start past index) (quiet : ∀ tables, ¬ Publishes engine event tables) :
    Latest engine start (past ++ [event]) index := by
  rcases latest with ⟨m, last, found, publishes, since⟩ | ⟨same, none'⟩
  · have short : m < past.length := (List.getElem?_eq_some_iff.mp found).1
    refine .inl ⟨m, last, by rw [List.getElem?_append_left short, found], publishes, ?_⟩
    rw [List.drop_append_of_le_length short]
    intro later inside
    rcases List.mem_append.mp inside with old | new
    · exact since later old
    · rwa [List.mem_singleton.mp new]
  · refine .inr ⟨same, fun other inside => ?_⟩
    rcases List.mem_append.mp inside with old | new
    · exact none' other old
    · rwa [List.mem_singleton.mp new]

theorem Publishes.latest (publishes : Publishes engine event tables) :
    Latest engine start (past ++ [event]) tables :=
  .inl ⟨past.length, event, by simp, publishes, by simp⟩

theorem Publishes.unique {other : IndexTables} (publishes : Publishes engine event tables)
    (publishes' : Publishes engine event other) : tables = other := by
  obtain ⟨_, _, _, _, rfl, built⟩ := publishes
  obtain ⟨_, _, _, _, same, built'⟩ := publishes'
  cases same
  exact Except.ok.inj (built.symm.trans built')

theorem Silent.append (first : Silent engine i past) (second : Silent engine i more) :
    Silent engine i (past ++ more) := fun event inside =>
  (List.mem_append.mp inside).elim (first event) (second event)

theorem silent_others (others : ∀ event ∈ more, event.task ≠ i) : Silent engine i more :=
  fun event inside own => absurd own (others event inside)

theorem not_publishes {w : RuntimeWorld fold} {op : RuntimeOp} {answer : op.Resp}
    (other : ∀ notes conflicts, op ≠ .rebuildIndex notes conflicts) (tables : IndexTables) :
    ¬ Publishes engine (⟨i, w, op, answer⟩ : Event I RuntimeOp RuntimeOp.Resp (RuntimeWorld fold)) tables := by
  rintro ⟨_, _, notes, conflicts, same, -⟩
  injection same with _ _ same
  exact other notes conflicts same

end Record

/-- The calls that neither take the refresh mutex nor publish. -/
def Ordinary (op : RuntimeOp) : Prop :=
  Works op ∨ op = .lock .frameworkMutation ∨ op = .unlock .frameworkMutation

theorem Ordinary.not_rebuild {op : RuntimeOp} (ordinary : Ordinary op) (notes : List NoteRecord)
    (conflicts : List ConflictPair) : op ≠ .rebuildIndex notes conflicts := by
  rcases ordinary with works | rfl | rfl
  · cases works <;> nofun
  · nofun
  · nofun

theorem Ordinary.outside {op : RuntimeOp} (ordinary : Ordinary op) : op ≠ .lock .indexRefresh ∧
    op ≠ .unlock .indexRefresh := by
  rcases ordinary with works | rfl | rfl
  · cases works <;> exact ⟨nofun, nofun⟩
  · exact ⟨nofun, nofun⟩
  · exact ⟨nofun, nofun⟩

/-- An ordinary call leaves the index and the refresh mutex as they are. -/
theorem Ordinary.effect {op : RuntimeOp} (ordinary : Ordinary op) {engine : IndexEngine} {setting : Setting fold}
    {task : Nat} {w after : RuntimeWorld fold} {answer : op.Resp}
    (effect : RuntimeEffect engine setting task op w answer after) :
    after.index = w.index ∧ after.holder .indexRefresh = w.holder .indexRefresh := by
  have others (mutex : Mutex) (value : Option Nat) (other : mutex ≠ .indexRefresh) :
      Function.update w.holder mutex value .indexRefresh = w.holder .indexRefresh :=
    Function.update_of_ne other.symm ..
  rcases ordinary with works | rfl | rfl
  · cases works
    · cases effect
      exact ⟨rfl, rfl⟩
    · cases effect <;> exact ⟨rfl, rfl⟩
    · cases effect
      exact ⟨rfl, others .registry (some task) (by decide)⟩
    · cases effect
      exact ⟨rfl, others .registry none (by decide)⟩
    · cases effect <;> exact ⟨rfl, rfl⟩
    · cases effect <;> exact ⟨rfl, rfl⟩
  · cases effect
    exact ⟨rfl, others .frameworkMutation (some task) (by decide)⟩
  · cases effect
    exact ⟨rfl, others .frameworkMutation none (by decide)⟩

section Runs

variable [DecidableEq I] (engine : IndexEngine) (setting : Setting fold) (task : I → Nat) (reader : VaultReader)
  (fuel : Nat) (start : IndexTables)

/-- What holds of the world and the record at any time. -/
structure Consistent (s : RuntimeWorld fold × Past I fold) : Prop where
  holder : ∀ i n, Holding .indexRefresh i n s.2 → s.1.holder .indexRefresh = some (task i)
  index : Latest engine start s.2 s.1.index
  published : ∀ m event tables, s.2[m]? = some event → Publishes engine event tables →
    ∃ n, Publication engine reader fuel s.2 event.task n m tables

/-- The terms on which the task `i` runs beside the others. -/
abbrev refreshing (i : I) : Protocol RuntimeOp RuntimeOp.Resp (RuntimeWorld fold × Past I fold)
    {s : RuntimeWorld fold × Past I fold // Consistent engine task reader fuel start s} :=
  recorded (fun i => RuntimeEffect engine setting (task i)) (Locks .indexRefresh) (Unlocks .indexRefresh)
    (Consistent engine task reader fuel start) i

variable {engine setting task reader fuel start} {s t : RuntimeWorld fold × Past I fold} {i : I}
  {event : Event I RuntimeOp RuntimeOp.Resp (RuntimeWorld fold)}

/-- Publications made before stay what they are. -/
theorem Consistent.earlier (consistent : Consistent engine task reader fuel start s) (grown : t.2 = s.2 ++ [event])
    (last : ∀ tables, Publishes engine event tables →
      ∃ n, Publication engine reader fuel t.2 event.task n s.2.length tables) :
    ∀ m event tables, t.2[m]? = some event → Publishes engine event tables →
      ∃ n, Publication engine reader fuel t.2 event.task n m tables := by
  intro m other tables found publishes
  by_cases short : m < s.2.length
  · rw [grown, List.getElem?_append_left short] at found
    obtain ⟨n, publication⟩ := consistent.published m other tables found publishes
    exact ⟨n, grown ▸ publication.append [event]⟩
  · obtain rfl : m = s.2.length := by
      have bound := (List.getElem?_eq_some_iff.mp found).1
      rw [grown, List.length_append, List.length_singleton] at bound
      omega
    rw [grown, List.getElem?_concat_length] at found
    cases found
    exact last tables publishes

/-- A call that neither publishes nor touches the refresh mutex. -/
theorem Consistent.quiet (consistent : Consistent engine task reader fuel start s) (grown : t.2 = s.2 ++ [event])
    (outside : ¬ Locks .indexRefresh event) (silent : ∀ tables, ¬ Publishes engine event tables)
    (same : t.1.index = s.1.index ∧ t.1.holder .indexRefresh = s.1.holder .indexRefresh) :
    Consistent engine task reader fuel start t where
  holder i n holding := by
    rw [grown] at holding
    rw [same.2]
    exact consistent.holder i n (holding.of_snoc outside).2
  index := by
    rw [grown, same.1]
    exact consistent.index.snoc silent
  published := consistent.earlier grown fun tables publishes => absurd publishes (silent tables)

theorem Consistent.ordinary (consistent : Consistent engine task reader fuel start s) {op : RuntimeOp}
    (ordinary : Ordinary op) {answer : op.Resp}
    (step : recording (fun i => RuntimeEffect engine setting (task i)) i op s answer t) :
    Consistent engine task reader fuel start t :=
  consistent.quiet step.2 ordinary.outside.1
    (not_publishes ordinary.not_rebuild) (ordinary.effect step.1)

theorem Consistent.enter (consistent : Consistent engine task reader fuel start s)
    (step : recording (fun i => RuntimeEffect engine setting (task i)) i (.lock .indexRefresh) s () t) :
    (∀ j n, ¬ Holding .indexRefresh j n s.2) ∧ Consistent engine task reader fuel start t ∧
      Holding .indexRefresh i s.2.length t.2 := by
  obtain ⟨w, past⟩ := t
  obtain ⟨effect, grown⟩ := step
  obtain rfl : past = s.2 ++ [⟨i, s.1, .lock .indexRefresh, ()⟩] := grown
  have locks : Locks .indexRefresh (⟨i, s.1, .lock .indexRefresh, ()⟩ :
      Event I RuntimeOp RuntimeOp.Resp (RuntimeWorld fold)) := rfl
  have entered : Holding .indexRefresh i s.2.length (s.2 ++ [⟨i, s.1, .lock .indexRefresh, ()⟩]) :=
    inSection_enter locks
  have silent : ∀ tables, ¬ Publishes engine ⟨i, s.1, .lock .indexRefresh, ()⟩ tables := not_publishes nofun
  cases effect with
  | lock free =>
    refine ⟨fun j n holding => ?_, ⟨fun j n holding => ?_, consistent.index.snoc silent, ?_⟩, entered⟩
    · rw [consistent.holder j n holding] at free
      cases free
    · obtain ⟨rfl, -⟩ := entered.unique holding
      exact Function.update_self Mutex.indexRefresh (some (task i)) s.1.holder
    · exact consistent.earlier rfl fun tables publishes => absurd publishes (silent tables)

theorem Consistent.leave (consistent : Consistent engine task reader fuel start s)
    (step : recording (fun i => RuntimeEffect engine setting (task i)) i (.unlock .indexRefresh) s () t) :
    Consistent engine task reader fuel start t := by
  obtain ⟨w, past⟩ := t
  obtain ⟨effect, grown⟩ := step
  obtain rfl : past = s.2 ++ [⟨i, s.1, .unlock .indexRefresh, ()⟩] := grown
  have silent : ∀ tables, ¬ Publishes engine ⟨i, s.1, .unlock .indexRefresh, ()⟩ tables := not_publishes nofun
  cases effect
  refine ⟨fun j n holding => ?_, consistent.index.snoc silent, ?_⟩
  · exact absurd rfl (holding.of_snoc nofun).1
  · exact consistent.earlier rfl fun tables publishes => absurd publishes (silent tables)

theorem Consistent.publish (consistent : Consistent engine task reader fuel start s) {n : Nat}
    {notes : List NoteRecord} {conflicts : List ConflictPair} (holding : Holding .indexRefresh i n s.2)
    (played : (collect reader fuel).Plays (answersOf i (s.2.drop (n + 1))) (.ok (notes, conflicts)))
    (step : recording (fun i => RuntimeEffect engine setting (task i)) i (.rebuildIndex notes conflicts) s (.ok ()) t) :
    Consistent engine task reader fuel start t ∧
      ∃ tables, Publication engine reader fuel t.2 i n s.2.length tables := by
  obtain ⟨w, past⟩ := t
  obtain ⟨effect, grown⟩ := step
  obtain rfl : past = s.2 ++ [⟨i, s.1, .rebuildIndex notes conflicts, .ok ()⟩] := grown
  have front : List.take s.2.length (s.2 ++ [⟨i, s.1, .rebuildIndex notes conflicts, .ok ()⟩]) = s.2 :=
    List.take_left
  cases effect with
  | @rebuilt _ _ _ tables built =>
    have publication : Publication engine reader fuel (s.2 ++ [⟨i, s.1, .rebuildIndex notes conflicts, .ok ()⟩]) i n
        s.2.length tables :=
      ⟨by rwa [front], s.1, notes, conflicts, List.getElem?_concat_length, built, by rwa [front]⟩
    refine ⟨⟨fun j m held => ?_, ?_, ?_⟩, tables, publication⟩
    · exact consistent.holder j m (held.of_snoc nofun).2
    · exact Publishes.latest ⟨i, s.1, notes, conflicts, rfl, built⟩
    · refine consistent.earlier rfl fun other publishes => ⟨n, ?_⟩
      obtain rfl : tables = other := Publishes.unique ⟨i, s.1, notes, conflicts, rfl, built⟩ publishes
      exact publication

/-- The record has grown by calls of the others and by calls of the task that publish nothing. -/
def Extended (engine : IndexEngine) (i : I) (before after : Past I fold) : Prop :=
  ∃ more, after = before ++ more ∧ Silent engine i more

omit [DecidableEq I] in
theorem Extended.trans {first second third : Past I fold} (before : Extended engine i first second)
    (after : Extended engine i second third) : Extended engine i first third := by
  obtain ⟨more, rfl, silent⟩ := before
  obtain ⟨rest, rfl, silent'⟩ := after
  exact ⟨more ++ rest, List.append_assoc .., silent.append silent'⟩

section Rules

variable {ε α : Type} {s : {s : RuntimeWorld fold × Past I fold // Consistent engine task reader fuel start s}}
  {post : Except ε α → {s : RuntimeWorld fold × Past I fold // Consistent engine task reader fuel start s} → Prop}

/-- One call of the task, after calls of the others. -/
theorem extended_call {t : RuntimeWorld fold × Past I fold} {front : Past I fold} (same : t.2 = s.1.2 ++ front)
    (others : ∀ event ∈ front, event.task ≠ i) {u : Past I fold}
    {event : Event I RuntimeOp RuntimeOp.Resp (RuntimeWorld fold)} (last : u = t.2 ++ [event])
    (silent : ∀ tables, ¬ Publishes engine event tables) : Extended engine i s.1.2 u := by
  refine ⟨front ++ [event], by rw [last, same, List.append_assoc], (silent_others others).append ?_⟩
  intro other inside _
  rwa [List.mem_singleton.mp inside]

theorem lock_call {next : Unit → RuntimeProg ε α}
    (rest : ∀ t : {s : RuntimeWorld fold × Past I fold // Consistent engine task reader fuel start s}, ∀ n,
      Extended engine i s.1.2 t.1.2 → s.1.2.length ≤ n → Holding .indexRefresh i n t.1.2 →
        answersOf i (t.1.2.drop (n + 1)) = [] →
          (refreshing engine setting task reader fuel start i).Safe post (next ()) t) :
    (refreshing engine setting task reader fuel start i).Safe post (Prog.call (.lock .indexRefresh) next) s := by
  rintro t ⟨⟨front, same, others⟩, -⟩ answer w effect
  obtain ⟨free, consistent, holding⟩ := Consistent.enter t.2 effect
  have grown : w.2 = t.1.2 ++ [⟨i, t.1.1, .lock .indexRefresh, answer⟩] := effect.2
  refine ⟨⟨w, consistent⟩, rfl, ⟨⟨_, grown, rfl⟩, fun j _ n held => absurd held (free j n)⟩, ?_⟩
  refine rest _ t.1.2.length (extended_call same others grown (not_publishes nofun)) ?_ holding ?_
  · rw [same, List.length_append]
    omega
  · rw [grown, List.drop_eq_nil_of_le (by simp)]
    rfl

theorem unlock_call {next : Unit → RuntimeProg ε α} {n : Nat} (holding : Holding .indexRefresh i n s.1.2)
    (rest : ∀ t : {s : RuntimeWorld fold × Past I fold // Consistent engine task reader fuel start s},
      Extended engine i s.1.2 t.1.2 → (refreshing engine setting task reader fuel start i).Safe post (next ()) t) :
    (refreshing engine setting task reader fuel start i).Safe post (Prog.call (.unlock .indexRefresh) next) s := by
  rintro t ⟨⟨front, same, others⟩, kept⟩ answer w effect
  have grown : w.2 = t.1.2 ++ [⟨i, t.1.1, .unlock .indexRefresh, answer⟩] := effect.2
  refine ⟨⟨w, Consistent.leave t.2 effect⟩, rfl, ⟨⟨_, grown, rfl⟩, fun j other m held => ?_⟩, ?_⟩
  · exact absurd (held.unique (kept n holding)).1 other
  · exact rest _ (extended_call same others grown (not_publishes nofun))

theorem rebuild_call {next : Except IndexError Unit → RuntimeProg ε α} {n : Nat} {notes : List NoteRecord}
    {conflicts : List ConflictPair} (holding : Holding .indexRefresh i n s.1.2)
    (played : (collect reader fuel).Plays (answersOf i (s.1.2.drop (n + 1))) (.ok (notes, conflicts)))
    (done : ∀ t : {s : RuntimeWorld fold × Past I fold // Consistent engine task reader fuel start s}, ∀ m tables,
      Holding .indexRefresh i n t.1.2 → s.1.2 <+: t.1.2 → Publication engine reader fuel t.1.2 i n m tables →
        (refreshing engine setting task reader fuel start i).Safe post (next (.ok ())) t)
    (failed : ∀ t : {s : RuntimeWorld fold × Past I fold // Consistent engine task reader fuel start s}, ∀ error,
      Holding .indexRefresh i n t.1.2 → Extended engine i s.1.2 t.1.2 →
        (refreshing engine setting task reader fuel start i).Safe post (next (.error error)) t) :
    (refreshing engine setting task reader fuel start i).Safe post
      (Prog.call (.rebuildIndex notes conflicts) next) s := by
  rintro t ⟨⟨front, same, others⟩, kept⟩ answer w effect
  have grown : w.2 = t.1.2 ++ [⟨i, t.1.1, .rebuildIndex notes conflicts, answer⟩] := effect.2
  have stays (j : I) (m : Nat) (held : Holding .indexRefresh j m t.1.2) : Holding .indexRefresh j m w.2 := by
    rw [grown]
    exact held.snoc ⟨nofun, nofun⟩
  have told : answersOf i (t.1.2.drop (n + 1)) = answersOf i (s.1.2.drop (n + 1)) := by
    rw [same, List.drop_append_of_le_length (Nat.succ_le_of_lt holding.lt), answersOf_append,
      answersOf_others others, List.append_nil]
  cases answer with
  | ok value =>
    obtain ⟨consistent, tables, publication⟩ :=
      Consistent.publish t.2 (kept n holding) (told ▸ played) effect
    exact ⟨⟨w, consistent⟩, rfl, ⟨⟨_, grown, rfl⟩, fun j _ m => stays j m⟩,
      done _ _ tables (stays i n (kept n holding)) ⟨_, by rw [grown, same, List.append_assoc]⟩ publication⟩
  | error error =>
    have silent : ∀ tables, ¬ Publishes engine ⟨i, t.1.1, .rebuildIndex notes conflicts, .error error⟩ tables := by
      rintro tables ⟨_, _, _, _, other, -⟩
      injection other with _ _ _ other
      cases other
    have unchanged : w.1.index = t.1.1.index ∧ w.1.holder .indexRefresh = t.1.1.holder .indexRefresh := by
      obtain ⟨w, past⟩ := w
      obtain ⟨effect, -⟩ := effect
      cases effect
      exact ⟨rfl, rfl⟩
    exact ⟨⟨w, t.2.quiet grown nofun silent unchanged⟩, rfl, ⟨⟨_, grown, rfl⟩, fun j _ m => stays j m⟩,
      failed _ error (stays i n (kept n holding)) (extended_call same others grown silent)⟩

end Rules

end Runs

end SecondBrain
