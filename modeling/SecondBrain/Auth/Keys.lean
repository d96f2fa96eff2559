import SecondBrain.Text

set_option autoImplicit false

/-! The keys of an issuer: which of them may verify a token, and the cache they are kept in. -/

namespace SecondBrain

inductive Algorithm where
  | hs256 | hs384 | hs512 | es256 | es384 | rs256 | rs384 | rs512 | ps256 | ps384 | ps512 | edDsa
deriving DecidableEq

inductive KeyAlgorithm where
  | rs256
  | es256
  | other (name : Text)
deriving DecidableEq

inductive PublicKeyUse where
  | signature
  | other (name : Text)
deriving DecidableEq

inductive KeyOperations where
  | verify
  | other (name : Text)
deriving DecidableEq

inductive EllipticCurve where
  | p256
  | other (name : Text)
deriving DecidableEq

/-- The kind of a key with its material. -/
inductive AlgorithmParameters where
  | rsa (n e : Text)
  | ellipticCurve (curve : EllipticCurve) (x y : Text)
  | octet (material : Text)
deriving DecidableEq

structure Jwk where
  keyId : Option Text
  keyAlgorithm : Option KeyAlgorithm
  publicKeyUse : Option PublicKeyUse
  keyOperations : Option (List KeyOperations)
  algorithm : AlgorithmParameters
deriving DecidableEq

abbrev JwkSet := List Jwk

/-- The part of a token's header that chooses a key. -/
structure Header where
  alg : Algorithm
  kid : Option Text
deriving DecidableEq

def expectedAlgorithm : Algorithm → Option KeyAlgorithm
  | .rs256 => some .rs256
  | .es256 => some .es256
  | _ => none

/-- Whether the metadata of a key allow it to verify a token with this header. -/
def compatible (key : Jwk) (header : Header) : Bool :=
  if header.kid.any fun kid => key.keyId ≠ some kid then false
  else
    match expectedAlgorithm header.alg with
    | none => false
    | some expected =>
      if key.keyAlgorithm.any (· ≠ expected) then false
      else if key.publicKeyUse.any (· ≠ .signature) then false
      else if key.keyOperations.any fun operations => .verify ∉ operations then false
      else
        match key.algorithm, header.alg with
        | .rsa _ _, .rs256 => true
        | .ellipticCurve curve _ _, .es256 => curve = .p256
        | _, _ => false

def maxJwksBytes : Nat := 1024 * 1024

/-- Thirty seconds, in nanoseconds as all times here. -/
def refreshCooldown : Nat := 30 * 10 ^ 9

structure Cache where
  keys : Option Text
  fetchedAt : Option Nat
  attemptedAt : Option Nat
deriving DecidableEq

def Cache.empty : Cache := ⟨none, none, none⟩

/-- How a fetch ends: with the text of a key set, with an error, or dropped with its request. -/
inductive Fetch where
  | body (raw : Text)
  | failed
  | dropped
deriving DecidableEq

/-- What a request for keys gets. -/
inductive KeysAnswer where
  | keys (set : JwkSet)
  | invalid
  | dropped
deriving DecidableEq

section Keys

variable (parse : Text → Option JwkSet) (ttl : Nat)

/-- The key set that a fetch brings, if it is neither too large nor unparsable. -/
def Fetch.commits : Fetch → Option (Text × JwkSet)
  | body raw => if Text.byteLength raw > maxJwksBytes then none else (parse raw).map (raw, ·)
  | failed | dropped => none

/-- The cached set is younger than the time to live. -/
def Cache.fresh (cache : Cache) (now : Nat) : Bool := cache.fetchedAt.any fun at' => now - at' < ttl

def Cache.current (cache : Cache) : Option JwkSet := cache.keys.bind parse

/-- A request for keys at the time `now`, while it holds the lock of the cache: the next cache,
whether it attempted a fetch, and its answer. `fetch` is how a fetch would end. -/
def keys (cache : Cache) (header : Header) (now : Nat) (fetch : Fetch) : Cache × Bool × KeysAnswer :=
  let fresh := cache.fresh ttl now
  let current := cache.current parse
  let known := current.any fun set => set.any fun key => compatible key header
  if fresh && known then (cache, false, current.elim .invalid .keys)
  else
    let guarded := cache.attemptedAt.any fun at' => now - at' < refreshCooldown
    -- a normal expiry can refresh once; failed refreshes are throttled
    let failedAttempt : Bool := cache.attemptedAt ≠ cache.fetchedAt
    if guarded && (fresh || failedAttempt) then (cache, false, .invalid)
    else
      let attempted := { cache with attemptedAt := some now }
      match fetch.commits parse with
      | some (raw, set) => ({ attempted with keys := some raw, fetchedAt := some now }, true, .keys set)
      | none => (attempted, true, if fetch = .dropped then .dropped else .invalid)

/-- One request of a run, with the cache it found. -/
structure Served where
  before : Cache
  header : Header
  now : Nat
  fetch : Fetch

namespace Served

def outcome (request : Served) : Cache × Bool × KeysAnswer :=
  keys parse ttl request.before request.header request.now request.fetch

def after (request : Served) : Cache := (request.outcome parse ttl).1

def attempted (request : Served) : Bool := (request.outcome parse ttl).2.1

def answer (request : Served) : KeysAnswer := (request.outcome parse ttl).2.2

end Served

/-- The requests of one issuer, at strictly increasing times, and the cache they leave. -/
inductive Requests : List Served → Cache → Prop where
  | start : Requests [] .empty
  | next {past : List Served} {cache : Cache} (earlier : Requests past cache) (request : Served)
      (found : request.before = cache) (later : ∀ old ∈ past, old.now < request.now) :
      Requests (past ++ [request]) (request.after parse ttl)

end Keys

end SecondBrain
