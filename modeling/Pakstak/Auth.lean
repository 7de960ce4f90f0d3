/-
  `auth.rs`: bearer tokens for a registry that answers 401.

  The parser of challenges is the crate `http_auth`, a parameter.
-/
import Pakstak.World

namespace Pakstak

open Posix Text

variable (env : Env)

/-! ## Headers -/

/-- `HeaderMap::get`: the first header of a name. -/
def Response.header (r : Response) (name : String) : Option Bytes :=
  r.headers.lookup (utf8 name)

/-- `HeaderValue::to_str`: visible ASCII, spaces and tabs. -/
def toStr (value : Bytes) : Option Bytes :=
  if value.all fun b => (32 ≤ b && b < 127) || b == 9 then some value else none

/-! ## Challenges and tokens -/

structure AuthChallenge where
  realm : Bytes
  service : Option Bytes
  scopes : List Bytes
  deriving DecidableEq

structure TokenResponse where
  token : Option Bytes
  accessToken : Option Bytes
  deriving DecidableEq

def TokenResponse.deserialize : Json → Option TokenResponse
  | .obj fields => do
    let token ← Json.optField fields "token" Json.string
    let accessToken ← Json.optField fields "access_token" Json.string
    return ⟨token, accessToken⟩
  | .arr [t, a] => do
    let token ← t.opt Json.string
    let accessToken ← a.opt Json.string
    return ⟨token, accessToken⟩
  | _ => none

def eqIgnoreAsciiCase (a b : Bytes) : Bool := a.map asciiLower = b.map asciiLower

/-- The last of the parameters called `name`. -/
def lastParam (params : List (Bytes × Bytes)) (name : String) : Option Bytes :=
  params.reverse.lookup (utf8 name)

def parseBearerChallenge (header : Bytes) : M AuthChallenge := do
  match env.parseChallenges header with
  | none => bail ⟨"failed to parse registry auth challenge `{}`", [header]⟩
  | some challenges =>
    match challenges.find? fun c => eqIgnoreAsciiCase c.scheme (utf8 "Bearer") with
    | none => bail ⟨"unsupported registry auth challenge `{}`", [header]⟩
    | some challenge =>
      match lastParam challenge.params "realm" with
      | none => bail ⟨"registry auth challenge did not include a realm", []⟩
      | some realm =>
        return {
          realm
          service := lastParam challenge.params "service"
          scopes := (challenge.params.filter fun p => p.1 = utf8 "scope").map Prod.snd }

def fetchBearerToken (challenge : AuthChallenge) : M Bytes := do
  let query := [(utf8 "client_id", utf8 "pakstak")] ++
    (challenge.service.map fun s => (utf8 "service", s)).toList ++
    challenge.scopes.map fun s => (utf8 "scope", s)
  eprintln ⟨"requesting registry auth token from {}", [challenge.realm]⟩
  match ← get (.token challenge.realm query) with
  | .error e =>
    .fail (.context ⟨"registry auth token request failed: GET {}", [challenge.realm]⟩ (.http e))
  | .ok response =>
    if response.body.broken then
      .fail (.context ⟨"failed to read registry auth token response", []⟩ (.http .other))
    else
      match (env.fromSlice response.body.data).bind TokenResponse.deserialize with
      | none => .fail (.context ⟨"failed to parse registry auth token response", []⟩ .json)
      | some token =>
        match token.token.or token.accessToken with
        | some t => return t
        | none => bail ⟨"registry auth token response did not include a token", []⟩

def authHeaderFromUnauthorized (response : Response) : M Bytes := do
  match response.header "www-authenticate" with
  | none => bail ⟨"registry returned 401 without a WWW-Authenticate header", []⟩
  | some value =>
    match toStr value with
    | none => bail ⟨"registry returned an invalid WWW-Authenticate header", []⟩
    | some header => return header

def tokenFromUnauthorized (response : Response) : M Bytes := do
  let header ← authHeaderFromUnauthorized response
  let challenge ← parseBearerChallenge env header
  if challenge.realm = [] then
    bail ⟨"registry auth challenge included an empty realm", []⟩
  else fetchBearerToken env challenge

end Pakstak
