import SecondBrain.Auth.Jwt
import SecondBrain.Library.Lists

set_option autoImplicit false

/-! Which tokens are accepted, and through which issuer. -/

namespace SecondBrain

open SecondBrain.Json (Value)

section Checks

/-- A header without critical parameters, or with `b64` alone and set. -/
def CriticalHeader (header : Value) : Prop :=
  header.get "crit".toList = none ∨ ∃ names, header.get "crit".toList = some (.array names) ∧ names ≠ [] ∧
    (∀ name ∈ names, name = .string "b64".toList) ∧ header.get "b64".toList = some (.bool true)

/-- The claims are those of a current token that the issuer named `issuer` made for `audience`. -/
structure ClaimsHold (claims : Value) (issuer audience : Text) (now : BitVec 64) : Prop where
  iss : claims.get "iss".toList = some (.string issuer)
  aud : claims.get "aud".toList = some (.string audience) ∨
    ∃ values, claims.get "aud".toList = some (.array values) ∧ .string audience ∈ values
  exp : ∃ n, claims.get "exp".toList = some (.number n) ∧
    Binary64.order (Binary64.ofNat now.toNat) < Binary64.order n.asF64
  nbf : ∀ value, claims.get "nbf".toList = some value →
    ∃ n, value = .number n ∧ Binary64.order n.asF64 ≤ Binary64.order (Binary64.ofNat now.toNat)
  iat : ∀ value, claims.get "iat".toList = some value → ∃ n, value = .number n

theorem validCriticalHeader_iff {header : Value} :
    validCriticalHeader header = true ↔ CriticalHeader header := by
  unfold validCriticalHeader CriticalHeader
  cases critical : header.get "crit".toList with
  | none => simp
  | some value =>
    cases value with
    | array names =>
      simp only [Bool.and_eq_true, Bool.not_eq_true', List.isEmpty_eq_false_iff, List.all_eq_true,
        decide_eq_true_iff, Value.asStr_eq_some, Option.bind_eq_some_iff, Value.asBool_eq_some]
      simp [and_assoc]
    | _ => simp

theorem audienceMatches_iff {claim : Option Value} {audience : Text} :
    audienceMatches claim audience = true ↔ claim = some (.string audience) ∨
      ∃ values, claim = some (.array values) ∧ .string audience ∈ values := by
  cases claim with
  | none => simp [audienceMatches]
  | some value => cases value <;> simp [audienceMatches, Value.asStr_eq_some]

theorem validClaims_iff {claims : Value} {issuer audience : Text} {now : BitVec 64} :
    validClaims claims issuer audience now = true ↔ ClaimsHold claims issuer audience now := by
  unfold validClaims
  simp only [Bool.and_eq_true, decide_eq_true_iff, Option.any_eq_true, Option.all_eq_true, Option.bind_eq_some_iff,
    Value.asStr_eq_some, Value.isNumber_iff, Value.asF64_eq_some, audienceMatches_iff]
  constructor
  · rintro ⟨⟨⟨⟨⟨_, iss, rfl⟩, aud⟩, ⟨_, ⟨_, exp, n, rfl, rfl⟩, later⟩⟩, nbf⟩, iat⟩
    refine ⟨iss, aud, ⟨n, exp, later⟩, fun value here => ?_, iat⟩
    obtain ⟨_, ⟨m, rfl, rfl⟩, earlier⟩ := nbf value here
    exact ⟨m, rfl, earlier⟩
  · rintro ⟨iss, aud, ⟨n, exp, later⟩, nbf, iat⟩
    refine ⟨⟨⟨⟨⟨_, iss, rfl⟩, aud⟩, ⟨_, ⟨_, exp, n, rfl, rfl⟩, later⟩⟩, fun value here => ?_⟩, iat⟩
    obtain ⟨m, rfl, earlier⟩ := nbf value here
    exact ⟨_, ⟨m, rfl, rfl⟩, earlier⟩

/-- The metadata of the key allow it to verify a token with this header. -/
structure KeyFits (key : Jwk) (header : Header) : Prop where
  kid : ∀ kid, header.kid = some kid → key.keyId = some kid
  use : ∀ use, key.publicKeyUse = some use → use = .signature
  operations : ∀ operations, key.keyOperations = some operations → .verify ∈ operations
  kind : header.alg = .rs256 ∧ (∀ alg, key.keyAlgorithm = some alg → alg = .rs256) ∧
      (∃ n e, key.algorithm = .rsa n e) ∨
    header.alg = .es256 ∧ (∀ alg, key.keyAlgorithm = some alg → alg = .es256) ∧
      ∃ x y, key.algorithm = .ellipticCurve .p256 x y

theorem compatible_iff {key : Jwk} {header : Header} : compatible key header = true ↔ KeyFits key header := by
  have refuses {α : Type} {value : Option α} {p : α → Bool} {rest : Bool} :
      (if value.any p then false else rest) = true ↔ (∀ a, value = some a → p a = false) ∧ rest = true := by
    cases value with
    | none => simp
    | some a => cases holds : p a <;> simp [holds]
  unfold compatible
  simp only [refuses, decide_eq_false_iff_not, not_not]
  constructor
  · rintro ⟨kid, rest⟩
    split at rest
    · cases rest
    rename_i expected wanted
    simp only [refuses, decide_eq_false_iff_not, not_not] at rest
    obtain ⟨alg, use, operations, material⟩ := rest
    refine ⟨kid, use, operations, ?_⟩
    split at material
    · rename_i n e parameters rs256
      obtain rfl : expected = .rs256 := by simpa [rs256, expectedAlgorithm] using wanted.symm
      exact .inl ⟨rs256, alg, n, e, parameters⟩
    · rename_i curve x y parameters es256
      obtain rfl : expected = .es256 := by simpa [es256, expectedAlgorithm] using wanted.symm
      obtain rfl := of_decide_eq_true material
      exact .inr ⟨es256, alg, x, y, parameters⟩
    · cases material
  · rintro ⟨kid, use, operations, ⟨rs256, alg, n, e, parameters⟩ | ⟨es256, alg, x, y, parameters⟩⟩
    · rw [rs256, parameters]
      simpa only [expectedAlgorithm, refuses, decide_eq_false_iff_not, not_not, and_true]
        using ⟨kid, alg, use, operations⟩
    · rw [es256, parameters]
      simpa only [expectedAlgorithm, refuses, decide_eq_false_iff_not, not_not, decide_true, and_true]
        using ⟨kid, alg, use, operations⟩

/-- The key is the only one of the set that fits. -/
def OnlyFits (set : JwkSet) (key : Jwk) (header : Header) : Prop :=
  ∃ front back, set = front ++ key :: back ∧ KeyFits key header ∧ ∀ other ∈ front ++ back, ¬ KeyFits other header

theorem onlyFits_iff {set : JwkSet} {key : Jwk} {header : Header} :
    (set.filter fun key => compatible key header) = [key] ↔ OnlyFits set key header := by
  simp only [List.filter_eq_cons_iff, List.filter_eq_nil_iff, compatible_iff, OnlyFits, List.mem_append]
  constructor
  · rintro ⟨front, back, split, before, fits, after⟩
    exact ⟨front, back, split, fits, fun other inside => inside.elim (before other) (after other)⟩
  · rintro ⟨front, back, split, fits, others⟩
    exact ⟨front, back, split, fun other inside => others other (.inl inside), fits,
      fun other inside => others other (.inr inside)⟩

/-- A whole number below 2^53 is compared with a date as the numbers they are. -/
theorem later_iff {now date : BitVec 64} (small : now.toNat < 2 ^ 53) :
    Binary64.order (Binary64.ofNat now.toNat) < Binary64.order (Json.Number.posInt date).asF64 ↔
      now.toNat < date.toNat :=
  Binary64.order_ofNat_lt small date.isLt

/-- The dates of the claims are whole numbers, `stop` and, if there is a start, `start`. -/
structure Dated (claims : Value) (start : Option (BitVec 64)) (stop : BitVec 64) : Prop where
  exp : claims.get "exp".toList = some (.number (.posInt stop))
  nbf : claims.get "nbf".toList = start.map fun date => .number (.posInt date)

/-- The time lies from the start on and before the stop. -/
def Within (start : Option (BitVec 64)) (stop time : BitVec 64) : Prop :=
  (∀ date ∈ start, date.toNat ≤ time.toNat) ∧ time.toNat < stop.toNat

instance (start : Option (BitVec 64)) (stop time : BitVec 64) : Decidable (Within start stop time) :=
  -- left to search, the instance for all dates is that of all words of 64 bits
  @instDecidableAnd _ _ (Option.decidableForallMem start) inferInstance

variable {claims : Value} {issuer audience : Text} {now time stop : BitVec 64} {start : Option (BitVec 64)}

/-- Claims that hold at one time hold at another just if it lies between their dates. -/
theorem ClaimsHold.within_iff (holds : ClaimsHold claims issuer audience now) (dated : Dated claims start stop)
    (small : time.toNat < 2 ^ 53) : ClaimsHold claims issuer audience time ↔ Within start stop time := by
  constructor
  · intro current
    obtain ⟨n, exp, later⟩ := current.exp
    obtain rfl : n = .posInt stop := by simpa using exp.symm.trans dated.exp
    refine ⟨fun date starts => ?_, (later_iff small).mp later⟩
    obtain ⟨n, same, reached⟩ := current.nbf _ (dated.nbf.trans (congrArg _ starts))
    cases same
    exact not_lt.mp fun early => not_lt.mpr reached ((later_iff small).mpr early)
  · rintro ⟨started, running⟩
    refine ⟨holds.iss, holds.aud, ⟨_, dated.exp, (later_iff small).mpr running⟩, fun value here => ?_, holds.iat⟩
    obtain ⟨date, starts, rfl⟩ := Option.map_eq_some_iff.mp (dated.nbf.symm.trans here)
    exact ⟨_, rfl, not_lt.mp fun early => not_lt.mpr (started date starts) ((later_iff small).mp early)⟩

end Checks

section Acceptance

variable (reader : TokenReader) (auth : JwtAuthenticator) (keysOf : Issuer → Header → Option JwkSet)
  (now : BitVec 64)

/-- The token with its header, as far as they are checked before any key is asked for. -/
structure Presented (authorization : Option Text) (token : Text) (header : Header) : Prop where
  bearer : authorization = some ("Bearer ".toList ++ token)
  nonempty : token ≠ []
  size : Text.byteLength token ≤ maxTokenBytes
  decodes : reader.decodeHeader token = some header
  dotted : '.' ∈ token
  allowed : header.alg ∈ auth.algorithms
  critical : ∃ raw, reader.decodePart (token.takeWhile (· ≠ '.')) = some raw ∧ CriticalHeader raw

/-- The issuer has one compatible key, it verifies the token, and the claims are as the issuer
makes them. -/
def Accepts (token : Text) (header : Header) (issuer : Issuer) : Prop :=
  ∃ set key claims, keysOf issuer header = some set ∧ OnlyFits set key header ∧ reader.verifies token key = true ∧
    reader.claims token = some claims ∧ ClaimsHold claims issuer.name auth.audience now ∧
    ∃ subject, claims.get "sub".toList = some (.string subject) ∧ subject ≠ []

/-- The context that the claims of a token give. -/
def contextOf (claims : Value) (issuer audience subject : Text) : AuthContext where
  issuer
  audience
  tokenId := (claims.get "jti".toList).bind Value.asStr
  subject
  scopes := claimScopes (claims.get "scope".toList)
  clientId := (claims.get "client_id".toList).bind Value.asStr

variable {reader auth keysOf now} {token : Text} {header : Header}

theorem acceptFrom_eq_some {issuer : Issuer} {context : AuthContext} :
    acceptFrom reader auth keysOf now token header issuer = some context ↔
      ∃ set key claims, keysOf issuer header = some set ∧
        (set.filter fun key => compatible key header) = [key] ∧ reader.verifies token key = true ∧
        reader.claims token = some claims ∧ ClaimsHold claims issuer.name auth.audience now ∧
        ∃ subject, claims.get "sub".toList = some (.string subject) ∧ subject ≠ [] ∧
          context = contextOf claims issuer.name auth.audience subject := by
  unfold acceptFrom
  simp only [Option.bind_eq_bind, Option.bind_eq_some_iff]
  constructor
  · rintro ⟨set, known, accepted⟩
    split at accepted
    · rename_i key only
      split at accepted
      · rename_i verified
        obtain ⟨claims, told, accepted⟩ := Option.bind_eq_some_iff.mp accepted
        split at accepted
        · rename_i valid
          obtain ⟨subject, sub, accepted⟩ := Option.bind_eq_some_iff.mp accepted
          obtain ⟨_, sub, text⟩ := Option.bind_eq_some_iff.mp sub
          obtain rfl := Value.asStr_eq_some.mp text
          split at accepted
          · cases accepted
          · rename_i nonempty
            exact ⟨set, key, claims, known, only, verified, told, validClaims_iff.mp valid, subject, sub,
              fun empty => nonempty (List.isEmpty_iff.mpr empty), (Option.some.inj accepted).symm⟩
        · cases accepted
      · cases accepted
    · cases accepted
  · rintro ⟨set, key, claims, known, only, verified, told, holds, subject, sub, nonempty, rfl⟩
    refine ⟨set, known, ?_⟩
    rw [only]
    dsimp only
    rw [if_pos verified, told, Option.bind_some, if_pos (validClaims_iff.mpr holds), sub, Option.bind_some,
      Value.asStr, Option.bind_some, if_neg fun empty => nonempty (List.isEmpty_iff.mp empty)]
    rfl

/-- Whichever issuers accept a token, they are of one name and give one context. -/
theorem acceptFrom_agree (first second : Issuer) (one other : AuthContext)
    (atFirst : acceptFrom reader auth keysOf now token header first = some one)
    (atSecond : acceptFrom reader auth keysOf now token header second = some other) : one = other := by
  obtain ⟨-, -, claims, -, -, -, told, holds, subject, sub, -, rfl⟩ := acceptFrom_eq_some.mp atFirst
  obtain ⟨-, -, claims', -, -, -, told', holds', subject', sub', -, rfl⟩ := acceptFrom_eq_some.mp atSecond
  obtain rfl := Option.some.inj (told.symm.trans told')
  have name := Option.some.inj (holds.iss.symm.trans holds'.iss)
  have same := Option.some.inj (sub.symm.trans sub')
  injection name with name
  injection same with same
  rw [name, same]

theorem verify_eq_ok {authorization : Option Text} {context : AuthContext} :
    verify reader auth keysOf now authorization = .ok context ↔ ∃ token header,
      Presented reader auth authorization token header ∧
        ∃ issuer ∈ auth.issuers, acceptFrom reader auth keysOf now token header issuer = some context := by
  have search (token : Text) (header : Header) :
      auth.issuers.findSome? (acceptFrom reader auth keysOf now token header) = some context ↔
        ∃ issuer ∈ auth.issuers, acceptFrom reader auth keysOf now token header issuer = some context :=
    findSome_eq_some fun a _ b _ => acceptFrom_agree a b
  constructor
  · intro verified
    unfold verify at verified
    split at verified
    · cases verified
    rename_i token bearer
    obtain ⟨value, rfl, front⟩ := Option.bind_eq_some_iff.mp bearer
    obtain rfl := Text.stripPrefix_eq_some.mp front
    split at verified
    · cases verified
    rename_i fits
    obtain ⟨nonempty, size⟩ := not_or.mp fun wrong => fits (Bool.or_eq_true _ _ |>.mpr wrong)
    split at verified
    · cases verified
    rename_i header decodes
    split at verified
    · cases verified
    rename_i dotted
    split at verified
    · cases verified
    rename_i raw decoded
    split at verified
    · cases verified
    rename_i checks
    obtain ⟨allowed, critical⟩ := not_or.mp fun wrong => checks (Bool.or_eq_true _ _ |>.mpr wrong)
    split at verified
    · rename_i other found
      cases verified
      refine ⟨token, header, ⟨rfl, ?_, ?_, decodes, not_not.mp dotted, ?_, raw, decoded, ?_⟩,
        (search token header).mp found⟩
      · exact fun empty => nonempty (List.isEmpty_iff.mpr empty)
      · exact not_lt.mp fun long => size (decide_eq_true long)
      · exact not_not.mp fun other => allowed (decide_eq_true other)
      · exact validCriticalHeader_iff.mp (by simpa using critical)
    · cases verified
  · rintro ⟨token, header, presented, accepted⟩
    obtain ⟨rfl, nonempty, size, decodes, dotted, allowed, raw, decoded, critical⟩ := presented
    unfold verify
    rw [Option.bind_some, Text.stripPrefix_append]
    dsimp only
    rw [if_neg, decodes]
    · dsimp only
      rw [if_neg (not_not.mpr dotted), decoded]
      dsimp only
      rw [if_neg, (search token header).mpr accepted]
      simp [allowed, validCriticalHeader_iff.mpr critical]
    · simpa [nonempty] using size

/-- The error tells no more than whether a token was presented. -/
theorem verify_error {authorization : Option Text} {error : AuthError}
    (failed : verify reader auth keysOf now authorization = .error error) :
    error = if (authorization.bind (Text.stripPrefix "Bearer ".toList)).isNone then .missing else .invalid := by
  unfold verify at failed
  split at failed
  · rename_i none'
    rw [none']
    exact (Except.error.inj failed).symm
  · rename_i token bearer
    rw [bearer]
    have other {result : Except AuthError AuthContext} (same : result = .error error)
        (only : result = .error .invalid ∨ ∃ context, result = .ok context) : error = .invalid := by
      rcases only with rfl | ⟨context, rfl⟩
      · exact (Except.error.inj same).symm
      · cases same
    refine other failed ?_
    repeat' split
    all_goals first | exact .inl rfl | exact .inr ⟨_, rfl⟩

theorem verify_congr {auth' : JwtAuthenticator} {keysOf' : Issuer → Header → Option JwkSet}
    {authorization : Option Text}
    (same : ∀ context, verify reader auth keysOf now authorization = .ok context ↔
      verify reader auth' keysOf' now authorization = .ok context) :
    verify reader auth keysOf now authorization = verify reader auth' keysOf' now authorization := by
  cases one : verify reader auth keysOf now authorization with
  | ok context => exact ((same context).mp one).symm
  | error error =>
    cases other : verify reader auth' keysOf' now authorization with
    | ok context => rw [(same context).mpr other] at one; cases one
    | error error' => rw [verify_error one, verify_error other]

theorem accepts_iff {issuer : Issuer} : Accepts reader auth keysOf now token header issuer ↔
    ∃ context, acceptFrom reader auth keysOf now token header issuer = some context := by
  constructor
  · rintro ⟨set, key, claims, known, only, verified, told, holds, subject, sub, nonempty⟩
    exact ⟨_, acceptFrom_eq_some.mpr
      ⟨set, key, claims, known, onlyFits_iff.mpr only, verified, told, holds, subject, sub, nonempty, rfl⟩⟩
  · rintro ⟨context, accepted⟩
    obtain ⟨set, key, claims, known, only, verified, told, holds, subject, sub, nonempty, -⟩ :=
      acceptFrom_eq_some.mp accepted
    exact ⟨set, key, claims, known, onlyFits_iff.mp only, verified, told, holds, subject, sub, nonempty⟩

theorem acceptFrom_claimed {issuer : Issuer} {context : AuthContext}
    (accepted : acceptFrom reader auth keysOf now token header issuer = some context) :
    context.issuer = issuer.name ∧ ∃ claims, reader.claims token = some claims ∧
      claims.get "iss".toList = some (.string issuer.name) := by
  obtain ⟨-, -, claims, -, -, -, told, holds, subject, -, -, rfl⟩ := acceptFrom_eq_some.mp accepted
  exact ⟨rfl, claims, told, holds.iss⟩

theorem acceptFrom_within {issuer : Issuer} {context : AuthContext} {claims : Value} {time stop : BitVec 64}
    {start : Option (BitVec 64)} (small : time.toNat < 2 ^ 53) (told : reader.claims token = some claims)
    (dated : Dated claims start stop)
    (accepted : acceptFrom reader auth keysOf now token header issuer = some context) :
    acceptFrom reader auth keysOf time token header issuer = some context ↔ Within start stop time := by
  obtain ⟨set, key, claims', known, only, verified, told', holds, subject, sub, nonempty, same⟩ :=
    acceptFrom_eq_some.mp accepted
  obtain rfl := Option.some.inj (told'.symm.trans told)
  rw [acceptFrom_eq_some, ← holds.within_iff dated small]
  constructor
  · rintro ⟨_, _, claims, -, -, -, told, holds, -⟩
    obtain rfl := Option.some.inj (told'.symm.trans told)
    exact holds
  · exact fun holds => ⟨set, key, claims', known, only, verified, told, holds, subject, sub, nonempty, same⟩

end Acceptance

/-- The token claims to be made by the issuer named `name`. -/
def Claimed (reader : TokenReader) (authorization : Option Text) (name : Text) : Prop :=
  ∃ token claims, authorization = some ("Bearer ".toList ++ token) ∧ reader.claims token = some claims ∧
    claims.get "iss".toList = some (.string name)

/-- A token is accepted just if it is presented as it must be and some trusted issuer accepts it.
The context then names that issuer, whose own key verified the token and whose name the token
claims. Neither the order of the issuers nor the key sets of those that the token does not
claim make a difference. -/
theorem jwt_acceptance (reader : TokenReader) (auth : JwtAuthenticator)
    (keysOf : Issuer → Header → Option JwkSet) (now : BitVec 64) (authorization : Option Text) :
    ((∃ context, verify reader auth keysOf now authorization = .ok context) ↔
      ∃ token header, Presented reader auth authorization token header ∧
        ∃ issuer ∈ auth.issuers, Accepts reader auth keysOf now token header issuer) ∧
    (∀ context, verify reader auth keysOf now authorization = .ok context →
      ∃ token header, Presented reader auth authorization token header ∧
        ∃ issuer ∈ auth.issuers, Accepts reader auth keysOf now token header issuer ∧
          context.issuer = issuer.name ∧ Claimed reader authorization context.issuer) ∧
    (∀ issuers, auth.issuers.Perm issuers →
      verify reader { auth with issuers } keysOf now authorization =
        verify reader auth keysOf now authorization) ∧
    ∀ keysOf' : Issuer → Header → Option JwkSet,
      (∀ issuer ∈ auth.issuers, Claimed reader authorization issuer.name → keysOf' issuer = keysOf issuer) →
        verify reader auth keysOf' now authorization = verify reader auth keysOf now authorization := by
  refine ⟨?_, fun context verified => ?_, fun issuers order => verify_congr fun context => ?_,
    fun keysOf' agree => verify_congr fun context => ?_⟩
  · constructor
    · rintro ⟨context, verified⟩
      obtain ⟨token, header, presented, issuer, trusted, accepted⟩ := verify_eq_ok.mp verified
      exact ⟨token, header, presented, issuer, trusted, accepts_iff.mpr ⟨context, accepted⟩⟩
    · rintro ⟨token, header, presented, issuer, trusted, accepts⟩
      obtain ⟨context, accepted⟩ := accepts_iff.mp accepts
      exact ⟨context, verify_eq_ok.mpr ⟨token, header, presented, issuer, trusted, accepted⟩⟩
  · obtain ⟨token, header, presented, issuer, trusted, accepted⟩ := verify_eq_ok.mp verified
    obtain ⟨named, claims, told, iss⟩ := acceptFrom_claimed accepted
    exact ⟨token, header, presented, issuer, trusted, accepts_iff.mpr ⟨context, accepted⟩, named,
      token, claims, presented.bearer, told, named ▸ iss⟩
  · rw [verify_eq_ok, verify_eq_ok]
    constructor
    · rintro ⟨token, header, ⟨bearer, nonempty, size, decodes, dotted, allowed, critical⟩, issuer, trusted,
        accepted⟩
      exact ⟨token, header, ⟨bearer, nonempty, size, decodes, dotted, allowed, critical⟩, issuer,
        order.mem_iff.mpr trusted, accepted⟩
    · rintro ⟨token, header, ⟨bearer, nonempty, size, decodes, dotted, allowed, critical⟩, issuer, trusted,
        accepted⟩
      exact ⟨token, header, ⟨bearer, nonempty, size, decodes, dotted, allowed, critical⟩, issuer,
        order.mem_iff.mp trusted, accepted⟩
  · rw [verify_eq_ok, verify_eq_ok]
    refine exists_congr fun token => exists_congr fun header => and_congr_right fun presented =>
      exists_congr fun issuer => and_congr_right fun trusted => ?_
    by_cases claimed : Claimed reader authorization issuer.name
    · unfold acceptFrom
      rw [agree issuer trusted claimed]
    · have never {keys : Issuer → Header → Option JwkSet} :
          acceptFrom reader auth keys now token header issuer ≠ some context := fun accepted => by
        obtain ⟨-, claims, told, iss⟩ := acceptFrom_claimed accepted
        exact claimed ⟨token, claims, presented.bearer, told, iss⟩
      exact iff_of_false never never

/-- A token with whole dates that is accepted once is accepted, with the same context, at the times
from its start on and before its stop, and is invalid at all others. -/
theorem jwt_window (reader : TokenReader) (auth : JwtAuthenticator) (keysOf : Issuer → Header → Option JwkSet)
    {now time stop : BitVec 64} {start : Option (BitVec 64)} {token : Text} {claims : Value} {context : AuthContext}
    (small : time.toNat < 2 ^ 53) (told : reader.claims token = some claims) (dated : Dated claims start stop)
    (verified : verify reader auth keysOf now (some ("Bearer ".toList ++ token)) = .ok context) :
    verify reader auth keysOf time (some ("Bearer ".toList ++ token)) =
      if Within start stop time then .ok context else .error .invalid := by
  have own {other : Text} (bearer : some ("Bearer ".toList ++ token) = some ("Bearer ".toList ++ other)) :
      other = token :=
    (List.append_cancel_left (Option.some.inj bearer)).symm
  by_cases current : Within start stop time
  · rw [if_pos current]
    obtain ⟨_, header, presented, issuer, trusted, accepted⟩ := verify_eq_ok.mp verified
    obtain rfl := own presented.bearer
    exact verify_eq_ok.mpr ⟨_, header, ⟨presented.bearer, presented.nonempty, presented.size, presented.decodes,
      presented.dotted, presented.allowed, presented.critical⟩, issuer, trusted,
      (acceptFrom_within small told dated accepted).mpr current⟩
  · rw [if_neg current]
    cases result : verify reader auth keysOf time (some ("Bearer ".toList ++ token)) with
    | ok other =>
      obtain ⟨_, header, presented, issuer, trusted, accepted⟩ := verify_eq_ok.mp result
      obtain rfl := own presented.bearer
      exact absurd ((acceptFrom_within small told dated accepted).mp accepted) current
    | error error =>
      rw [verify_error result, Option.bind_some, Text.stripPrefix_append]
      rfl

def shortClaims : Value := .object [("iss".toList, .string "here".toList), ("aud".toList, .string "notes".toList),
  ("sub".toList, .string "me".toList), ("nbf".toList, .number (.posInt 100)), ("exp".toList, .number (.posInt 200))]

/-- A reader of the one token "h.c.s", whose every signature verifies. -/
def shortReader : TokenReader where
  decodeHeader _ := some ⟨.rs256, none⟩
  decodePart _ := some (.object [])
  claims token := if token = "h.c.s".toList then some shortClaims else none
  verifies _ _ := true

def shortAuth : JwtAuthenticator := ⟨"notes".toList, [.rs256], [⟨"here".toList, []⟩]⟩

def shortKeys : Issuer → Header → Option JwkSet := fun _ _ => some [⟨none, none, none, none, .rsa [] []⟩]

theorem jwt_window_short : ∃ context,
    verify shortReader shortAuth shortKeys 199 (some ("Bearer ".toList ++ "h.c.s".toList)) = .ok context ∧
      verify shortReader shortAuth shortKeys 200 (some ("Bearer ".toList ++ "h.c.s".toList)) = .error .invalid := by
  have told : shortReader.claims "h.c.s".toList = some shortClaims := by simp [shortReader]
  have dated : Dated shortClaims (some 100) 200 := ⟨rfl, rfl⟩
  have verified : verify shortReader shortAuth shortKeys 150 (some ("Bearer ".toList ++ "h.c.s".toList)) =
      .ok ⟨"here".toList, "notes".toList, none, "me".toList, ∅, none⟩ := rfl
  exact ⟨_, (jwt_window shortReader shortAuth shortKeys (by decide) told dated verified).trans (if_pos (by decide)),
    (jwt_window shortReader shortAuth shortKeys (by decide) told dated verified).trans (if_neg (by decide))⟩

end SecondBrain
