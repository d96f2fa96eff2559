import SecondBrain.Auth.Keys
import SecondBrain.Library.Lists

set_option autoImplicit false

/-! What the cache of an issuer promises, over every sequence of requests. -/

namespace SecondBrain

section Step

variable {parse : Text → Option JwkSet} {ttl : Nat}

/-- The cache is asked to refresh too soon. -/
def Cache.Throttled (cache : Cache) (ttl now : Nat) : Prop :=
  (∃ at', cache.attemptedAt = some at' ∧ now - at' < refreshCooldown) ∧
    (cache.fresh ttl now = true ∨ cache.attemptedAt ≠ cache.fetchedAt)

/-- All that a request can do. -/
theorem Served.cases (request : Served) (parse : Text → Option JwkSet) (ttl : Nat) :
    (∃ set, request.before.fresh ttl request.now = true ∧ request.before.current parse = some set ∧
      (set.any fun key => compatible key request.header) = true ∧
      request.outcome parse ttl = (request.before, false, .keys set)) ∨
    (request.before.Throttled ttl request.now ∧ request.outcome parse ttl = (request.before, false, .invalid)) ∨
    (¬ request.before.Throttled ttl request.now ∧ ∃ raw set, request.fetch.commits parse = some (raw, set) ∧
      request.outcome parse ttl = (⟨some raw, some request.now, some request.now⟩, true, .keys set)) ∨
    (¬ request.before.Throttled ttl request.now ∧ request.fetch.commits parse = none ∧ ∃ answer,
      (∀ set, answer ≠ .keys set) ∧
      request.outcome parse ttl = ({ request.before with attemptedAt := some request.now }, true, answer)) := by
  have throttled : ((request.before.attemptedAt.any fun at' => request.now - at' < refreshCooldown) &&
      (request.before.fresh ttl request.now ||
        decide (request.before.attemptedAt ≠ request.before.fetchedAt))) = true ↔
      request.before.Throttled ttl request.now := by
    rw [Bool.and_eq_true, Bool.or_eq_true, option_any_decide, decide_eq_true_iff]
    rfl
  unfold Served.outcome keys
  dsimp only
  split
  · rename_i cached
    obtain ⟨fresh, known⟩ := (Bool.and_eq_true _ _).mp cached
    obtain ⟨set, current, compatible⟩ := (Option.any_eq_true ..).mp known
    exact .inl ⟨set, fresh, current, compatible, by rw [current]; rfl⟩
  split
  · rename_i guarded
    exact .inr (.inl ⟨throttled.mp guarded, rfl⟩)
  · rename_i free
    have free' := fun held => free (throttled.mpr held)
    split
    · rename_i raw set commits
      exact .inr (.inr (.inl ⟨free', raw, set, commits, rfl⟩))
    · rename_i commits
      refine .inr (.inr (.inr ⟨free', commits, _, fun set => ?_, rfl⟩))
      split <;> nofun

end Step

section Runs

variable {parse : Text → Option JwkSet} {ttl : Nat} {past : List Served} {cache : Cache}

/-- The key set that a request fetched. -/
def Served.fetched (parse : Text → Option JwkSet) (ttl : Nat) (request : Served) : Option (Text × JwkSet) :=
  if request.attempted parse ttl then request.fetch.commits parse else none

/-- The last request that attempted a fetch. -/
def lastAttempt (parse : Text → Option JwkSet) (ttl : Nat) (past : List Served) : Option Served :=
  (past.filter (Served.attempted parse ttl)).getLast?

/-- The last request that fetched a key set. -/
def lastFetch (parse : Text → Option JwkSet) (ttl : Nat) (past : List Served) : Option Served :=
  (past.filter fun request => (request.fetched parse ttl).isSome).getLast?

/-- The cache holds what the last two kinds of requests left, and no more. -/
structure CacheTells (parse : Text → Option JwkSet) (ttl : Nat) (past : List Served) (cache : Cache) :
    Prop where
  attempted : cache.attemptedAt = (lastAttempt parse ttl past).map Served.now
  fetched : cache.fetchedAt = (lastFetch parse ttl past).map Served.now
  keys : cache.keys = (lastFetch parse ttl past).bind fun request =>
    (request.fetched parse ttl).map Prod.fst

theorem Requests.tells (requests : Requests parse ttl past cache) : CacheTells parse ttl past cache := by
  induction requests with
  | start => exact ⟨rfl, rfl, rfl⟩
  | @next past cache earlier request found later ih =>
    obtain rfl := found
    have quiet (still : request.attempted parse ttl = false) (same : request.after parse ttl = request.before) :
        CacheTells parse ttl (past ++ [request]) (request.after parse ttl) := by
      have none' : (request.fetched parse ttl).isSome = false := by
        rw [Served.fetched, still]
        rfl
      have attempt : lastAttempt parse ttl (past ++ [request]) = lastAttempt parse ttl past := by
        simp [lastAttempt, List.filter_append, still]
      have fetch : lastFetch parse ttl (past ++ [request]) = lastFetch parse ttl past := by
        simp [lastFetch, List.filter_append, none']
      exact ⟨by rw [same, attempt]; exact ih.attempted, by rw [same, fetch]; exact ih.fetched,
        by rw [same, fetch]; exact ih.keys⟩
    have active (tried : request.attempted parse ttl = true) :
        lastAttempt parse ttl (past ++ [request]) = some request := by
      simp [lastAttempt, List.filter_append, tried]
    obtain ⟨set, -, -, -, outcome⟩ | ⟨-, outcome⟩ | ⟨-, raw, set, commits, outcome⟩ |
      ⟨-, commits, answer, -, outcome⟩ := request.cases parse ttl
    · exact quiet (congrArg (·.2.1) outcome) (congrArg (·.1) outcome)
    · exact quiet (congrArg (·.2.1) outcome) (congrArg (·.1) outcome)
    · have tried : request.attempted parse ttl = true := congrArg (·.2.1) outcome
      have after : request.after parse ttl = _ := congrArg (·.1) outcome
      have brings : request.fetched parse ttl = some (raw, set) := by rw [Served.fetched, if_pos tried, commits]
      have fetch : lastFetch parse ttl (past ++ [request]) = some request := by
        simp [lastFetch, List.filter_append, brings]
      rw [after]
      exact ⟨by rw [active tried]; rfl, by rw [fetch]; rfl, by rw [fetch, Option.bind_some, brings]; rfl⟩
    · have tried : request.attempted parse ttl = true := congrArg (·.2.1) outcome
      have after : request.after parse ttl = _ := congrArg (·.1) outcome
      have brings : request.fetched parse ttl = none := by rw [Served.fetched, if_pos tried, commits]
      have fetch : lastFetch parse ttl (past ++ [request]) = lastFetch parse ttl past := by
        simp [lastFetch, List.filter_append, brings]
      rw [after]
      exact ⟨by rw [active tried]; rfl, by rw [fetch]; exact ih.fetched, by rw [fetch]; exact ih.keys⟩

/-- A run up to one of its requests. -/
theorem Requests.upTo {events later : List Served} {request : Served}
    (requests : Requests parse ttl events cache) (split : events = past ++ request :: later) :
    Requests parse ttl past request.before ∧ ∀ old ∈ past, old.now < request.now := by
  induction requests generalizing later with
  | start => simp at split
  | @next before cache earlier last found newer ih =>
    rcases List.eq_nil_or_concat later with rfl | ⟨between, final, rfl⟩
    · obtain ⟨rfl, same⟩ := List.append_inj' split rfl
      obtain rfl := List.singleton_inj.mp same
      exact ⟨found ▸ earlier, newer⟩
    · rw [List.concat_eq_append, ← List.cons_append, ← List.append_assoc] at split
      exact ih (List.append_inj' split rfl).1

theorem lastFetch_mem {request : Served} (last : lastFetch parse ttl past = some request) :
    request ∈ past ∧ ∃ raw set, request.fetched parse ttl = some (raw, set) := by
  obtain ⟨member, fetched⟩ := List.mem_filter.mp (List.mem_of_getLast? last)
  obtain ⟨⟨raw, set⟩, brings⟩ := Option.isSome_iff_exists.mp fetched
  exact ⟨member, raw, set, brings⟩

theorem Served.fetched_attempted {request : Served} {brought : Text × JwkSet}
    (fetched : request.fetched parse ttl = some brought) :
    request.attempted parse ttl = true ∧ request.fetch.commits parse = some brought := by
  rw [Served.fetched] at fetched
  split at fetched
  · exact ⟨‹_›, fetched⟩
  · cases fetched

/-- A cached set was fetched by an earlier request. -/
theorem CacheTells.current {set : JwkSet} (tells : CacheTells parse ttl past cache)
    (current : cache.current parse = some set) :
    ∃ old ∈ past, (∃ raw, old.fetched parse ttl = some (raw, set)) ∧ cache.fetchedAt = some old.now := by
  rw [Cache.current, tells.keys] at current
  cases last : lastFetch parse ttl past with
  | none =>
    rw [last] at current
    cases current
  | some old =>
    obtain ⟨member, raw, other, brings⟩ := lastFetch_mem last
    rw [last, Option.bind_some, brings] at current
    have parsed : parse raw = some other := by
      have commits := (Served.fetched_attempted brings).2
      cases fetch : old.fetch with
      | body text =>
        rw [fetch, Fetch.commits] at commits
        split at commits
        · cases commits
        · obtain ⟨result, here, same⟩ := Option.map_eq_some_iff.mp commits
          cases same
          exact here
      | failed => rw [fetch] at commits; cases commits
      | dropped => rw [fetch] at commits; cases commits
    obtain rfl := Option.some.inj (parsed.symm.trans current)
    exact ⟨old, member, ⟨raw, brings⟩, by rw [tells.fetched, last]; rfl⟩

/-- The attempt that the cache remembers is the last one. -/
theorem CacheTells.lastAttempt {first between : List Served} {old : Served}
    (tells : CacheTells parse ttl (first ++ old :: between) cache)
    (tried : old.attempted parse ttl = true)
    (none' : ∀ other ∈ between, other.attempted parse ttl = false) :
    cache.attemptedAt = some old.now := by
  have quiet : between.filter (Served.attempted parse ttl) = [] :=
    List.filter_eq_nil_iff.mpr fun other inside => by rw [none' other inside]; exact Bool.false_ne_true
  rw [tells.attempted, SecondBrain.lastAttempt, List.filter_append, List.filter_cons_of_pos tried, quiet,
    List.getLast?_append, List.getLast?_singleton]
  rfl

theorem Requests.fetched_le (requests : Requests parse ttl past cache) {time : Nat}
    (fetched : cache.fetchedAt = some time) : ∃ tried, cache.attemptedAt = some tried ∧ time ≤ tried := by
  induction requests generalizing time with
  | start => cases fetched
  | @next past cache earlier request found later ih =>
    obtain rfl := found
    obtain ⟨set, -, -, -, outcome⟩ | ⟨-, outcome⟩ | ⟨-, raw, set, -, outcome⟩ |
      ⟨-, -, answer, -, outcome⟩ := request.cases parse ttl
    all_goals rw [Served.after, outcome] at fetched ⊢
    · exact ih fetched
    · exact ih fetched
    · exact ⟨_, rfl, (Option.some.inj fetched).ge⟩
    · refine ⟨_, rfl, ?_⟩
      have last := earlier.tells.fetched
      rw [show request.before.fetchedAt = some time from fetched] at last
      obtain ⟨old, here, rfl⟩ := Option.map_eq_some_iff.mp last.symm
      exact (later old (lastFetch_mem here).1).le

/-- A refresh soon after another one means that the other succeeded and has expired. -/
theorem Requests.soon {first between : List Served} {old request : Served}
    (requests : Requests parse ttl (first ++ old :: between) request.before)
    (tried : old.attempted parse ttl = true)
    (none' : ∀ other ∈ between, other.attempted parse ttl = false)
    (again : request.attempted parse ttl = true) (soon : request.now - old.now < refreshCooldown) :
    (old.fetched parse ttl).isSome ∧ ttl ≤ request.now - old.now := by
  have tells := requests.tells
  have attempt := tells.lastAttempt tried none'
  have free : ¬ request.before.Throttled ttl request.now := by
    obtain ⟨set, -, -, -, outcome⟩ | ⟨-, outcome⟩ | ⟨free, -⟩ | ⟨free, -⟩ :=
      request.cases parse ttl
    · rw [Served.attempted, outcome] at again
      cases again
    · rw [Served.attempted, outcome] at again
      cases again
    · exact free
    · exact free
  obtain ⟨stale, same⟩ := not_or.mp fun reason => free ⟨⟨_, attempt, soon⟩, reason⟩
  have fetchedAt : request.before.fetchedAt = some old.now := by
    rw [← not_not.mp same, attempt]
  have last := tells.fetched
  rw [fetchedAt] at last
  obtain ⟨source, here, sameTime⟩ := Option.map_eq_some_iff.mp last.symm
  obtain ⟨member, raw, set, brings⟩ := lastFetch_mem here
  have isOld : source = old := by
    rcases List.mem_append.mp member with before | after
    · have earlier := (requests.upTo rfl).2 source before
      omega
    · rcases List.mem_cons.mp after with rfl | later
      · rfl
      · have tried' := (Served.fetched_attempted brings).1
        rw [none' source later] at tried'
        cases tried'
  subst isOld
  refine ⟨by rw [brings]; rfl, ?_⟩
  by_contra young
  refine stale (option_any_decide.mpr ⟨_, fetchedAt, by omega⟩)

/-- The cache protocol: what is answered was fetched by the request or less than the time to live
before, a young set with a matching key is answered without a fetch, a refresh comes soon after
another only if that one succeeded and has expired, and no fetch is newer than the last attempt. -/
theorem Requests.protocol {events : List Served} (requests : Requests parse ttl events cache) :
    (∀ past request later, events = past ++ request :: later →
      (∀ set, request.answer parse ttl = .keys set → (∃ raw, request.fetched parse ttl = some (raw, set)) ∨
        ∃ old ∈ past, (∃ raw, old.fetched parse ttl = some (raw, set)) ∧ request.now - old.now < ttl) ∧
      (∀ set, request.before.fresh ttl request.now = true → request.before.current parse = some set →
        (∃ key ∈ set, compatible key request.header = true) →
          request.outcome parse ttl = (request.before, false, .keys set)) ∧
      ∀ first old between, past = first ++ old :: between → old.attempted parse ttl = true →
        (∀ other ∈ between, other.attempted parse ttl = false) → request.attempted parse ttl = true →
          request.now - old.now < refreshCooldown →
            (old.fetched parse ttl).isSome ∧ ttl ≤ request.now - old.now) ∧
      ∀ time, cache.fetchedAt = some time → ∃ tried, cache.attemptedAt = some tried ∧ time ≤ tried := by
  refine ⟨fun past request later split => ?_, fun time => requests.fetched_le⟩
  obtain ⟨earlier, -⟩ := requests.upTo split
  refine ⟨fun set answers => ?_, fun set fresh current known => ?_, ?_⟩
  · obtain ⟨other, fresh, current, -, outcome⟩ | ⟨-, outcome⟩ | ⟨-, raw, other, commits, outcome⟩ |
      ⟨-, -, answer, different, outcome⟩ := request.cases parse ttl
    all_goals rw [Served.answer, outcome] at answers
    · cases answers
      obtain ⟨old, member, brings, fetchedAt⟩ := earlier.tells.current current
      obtain ⟨time, same, young⟩ := option_any_decide.mp fresh
      obtain rfl := Option.some.inj (fetchedAt.symm.trans same)
      exact .inr ⟨old, member, brings, young⟩
    · cases answers
    · cases answers
      have tried : request.attempted parse ttl = true := congrArg (·.2.1) outcome
      exact .inl ⟨raw, by rw [Served.fetched, if_pos tried, commits]⟩
    · exact absurd answers (different set)
  · have cached : (request.before.fresh ttl request.now && (request.before.current parse).any fun set =>
        set.any fun key => compatible key request.header) = true := by
      rw [fresh, current, Bool.true_and, Option.any_some]
      exact List.any_eq_true.mpr known
    unfold Served.outcome keys
    dsimp only
    rw [if_pos cached, current]
    rfl
  · rintro first old between rfl tried none' again soon
    exact earlier.soon tried none' again soon

end Runs

def rsaKey : Jwk := ⟨none, none, none, none, .rsa [] []⟩

def oneKey : Text → Option JwkSet := fun _ => some [rsaKey]

/-- A key set is fetched, and served again while the next refresh would be dropped. -/
def twoRequests : List Served :=
  [⟨.empty, ⟨.rs256, none⟩, 1, .body []⟩, ⟨⟨some [], some 1, some 1⟩, ⟨.rs256, none⟩, 2, .dropped⟩]

theorem twoRequests_run : Requests oneKey 10 twoRequests ⟨some [], some 1, some 1⟩ :=
  .next (.next .start ⟨.empty, ⟨.rs256, none⟩, 1, .body []⟩ rfl (by simp))
    ⟨⟨some [], some 1, some 1⟩, ⟨.rs256, none⟩, 2, .dropped⟩ (by decide) (by simp)

theorem protocol_twoRequests : ∃ old ∈ twoRequests, (∃ raw, old.fetched oneKey 10 = some (raw, [rsaKey])) := by
  obtain ⟨told, -⟩ := twoRequests_run.protocol
  rcases (told [_] _ [] rfl).1 [rsaKey] (by decide) with ⟨raw, fetched⟩ | ⟨old, member, fetched, -⟩
  · exact ⟨_, List.mem_cons_of_mem _ List.mem_cons_self, raw, fetched⟩
  · exact ⟨old, List.mem_cons.mpr (.inl (List.mem_singleton.mp member)), fetched⟩

end SecondBrain
