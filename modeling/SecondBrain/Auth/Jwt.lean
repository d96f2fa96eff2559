import SecondBrain.Auth.Keys
import SecondBrain.Library.Json
import Mathlib.Data.Finset.Basic

set_option autoImplicit false

/-! The verification of bearer tokens against the keys of the trusted issuers. -/

namespace SecondBrain

open SecondBrain.Json (Value)

/-- An OAuth scope governing access to MCP tools. -/
inductive Scope where
  | vaultRead | skillsRead | vaultDelete | vaultDeleteHard | vaultWrite | vaultCapture | dailyAppend | admin
deriving DecidableEq

namespace Scope

/-- The wire string for this scope. -/
def asStr : Scope → Text
  | vaultRead => "vault:read".toList
  | skillsRead => "skills:read".toList
  | vaultDelete => "vault:delete".toList
  | vaultDeleteHard => "vault:delete:hard".toList
  | vaultWrite => "vault:write".toList
  | vaultCapture => "vault:capture".toList
  | dailyAppend => "daily:append".toList
  | admin => "admin".toList

def known : List Scope :=
  [vaultRead, skillsRead, vaultWrite, vaultDelete, vaultDeleteHard, vaultCapture, dailyAppend, admin]

def fromWire (token : Text) : Option Scope := known.find? fun scope => scope.asStr = token

end Scope

/-- The white space of ECMAScript. -/
def isScopeSeparator (c : Char) : Bool :=
  let n := c.toNat
  (0x9 ≤ n && n ≤ 0xd) || n = 0x20 || n = 0xa0 || n = 0x1680 || (0x2000 ≤ n && n ≤ 0x200a) ||
    n = 0x2028 || n = 0x2029 || n = 0x202f || n = 0x205f || n = 0x3000 || n = 0xfeff

/-- Parse a scope claim, dropping unknown tokens. -/
def parseScopes (claim : Text) : Finset Scope :=
  ((claim.splitOnP isScopeSeparator).filterMap Scope.fromWire).toFinset

def claimScopes : Option Value → Finset Scope
  | some (.string claim) => parseScopes claim
  | some (.array values) =>
    if values.all fun value => value.asStr.isSome then
      ((values.filterMap Value.asStr).filterMap Scope.fromWire).toFinset
    else ∅
  | _ => ∅

/-- Authenticated request context. -/
structure AuthContext where
  issuer : Text
  audience : Text
  tokenId : Option Text
  subject : Text
  scopes : Finset Scope
  clientId : Option Text
deriving DecidableEq

inductive AuthErrorCode where
  | missingToken
  | invalidToken
deriving DecidableEq

structure AuthError where
  code : AuthErrorCode
  message : Text
deriving DecidableEq

namespace AuthError

def missing : AuthError := ⟨.missingToken, "Missing bearer token".toList⟩

def invalid : AuthError := ⟨.invalidToken, "Invalid bearer token".toList⟩

end AuthError

/-- What the token library and the codecs tell of a token: its header, the JSON of an encoded
part, its claims, and whether a key verifies its signature. -/
structure TokenReader where
  decodeHeader : Text → Option Header
  decodePart : Text → Option Value
  claims : Text → Option Value
  verifies : Text → Jwk → Bool

structure Issuer where
  name : Text
  endpoint : Text
deriving DecidableEq

structure JwtAuthenticator where
  audience : Text
  algorithms : List Algorithm
  issuers : List Issuer

def maxTokenBytes : Nat := 16 * 1024

/-- The rules for critical parameters, on the raw header. -/
def validCriticalHeader (header : Value) : Bool :=
  match header.get "crit".toList with
  | none => true
  | some (.array names) =>
    !names.isEmpty && names.all (fun name => name.asStr = some "b64".toList) &&
      ((header.get "b64".toList).bind Value.asBool = some true)
  | _ => false

def audienceMatches (claim : Option Value) (audience : Text) : Bool :=
  match claim with
  | some (.string value) => value = audience
  | some (.array values) => values.any fun value => value.asStr = some audience
  | _ => false

/-- The registered claims. Dates compare as binary64 numbers. -/
def validClaims (claims : Value) (issuer audience : Text) (now : BitVec 64) : Bool :=
  let now := Binary64.order (Binary64.ofNat now.toNat)
  (claims.get "iss".toList).bind Value.asStr = some issuer &&
    audienceMatches (claims.get "aud".toList) audience &&
    ((claims.get "exp".toList).bind Value.asF64).any (fun exp => now < Binary64.order exp) &&
    (claims.get "nbf".toList).all (fun nbf => nbf.asF64.any fun nbf => Binary64.order nbf ≤ now) &&
    (claims.get "iat".toList).all Value.isNumber

section Verify

variable (reader : TokenReader) (auth : JwtAuthenticator) (keysOf : Issuer → Header → Option JwkSet)
  (now : BitVec 64)

/-- One turn of the loop over the issuers: the context, or on to the next issuer. -/
def acceptFrom (token : Text) (header : Header) (issuer : Issuer) : Option AuthContext := do
  let keys ← keysOf issuer header
  match keys.filter fun key => compatible key header with
  | [jwk] =>
    if reader.verifies token jwk then
      let claims ← reader.claims token
      if validClaims claims issuer.name auth.audience now then
        let subject ← (claims.get "sub".toList).bind Value.asStr
        if subject.isEmpty then none
        else
          some {
            subject
            issuer := issuer.name
            audience := auth.audience
            scopes := claimScopes (claims.get "scope".toList)
            tokenId := (claims.get "jti".toList).bind Value.asStr
            clientId := (claims.get "client_id".toList).bind Value.asStr }
      else none
    else none
  | _ => none

def verify (authorization : Option Text) : Except AuthError AuthContext :=
  match authorization.bind (Text.stripPrefix "Bearer ".toList) with
  | none => .error .missing
  | some token =>
    if token.isEmpty || Text.byteLength token > maxTokenBytes then .error .invalid
    else
      match reader.decodeHeader token with
      | none => .error .invalid
      | some header =>
        if '.' ∉ token then .error .invalid
        else
          match reader.decodePart (token.takeWhile (· ≠ '.')) with
          | none => .error .invalid
          | some rawHeader =>
            if header.alg ∉ auth.algorithms || !validCriticalHeader rawHeader then .error .invalid
            else
              match auth.issuers.findSome? (acceptFrom reader auth keysOf now token header) with
              | some context => .ok context
              | none => .error .invalid

end Verify

end SecondBrain
