/-
  Requests to a registry with a cache of tokens.

  A `Registry` answers by the path and the bearer token of a request alone, and its token
  endpoint by the query. `ureq` makes an error of a status from 400 to 599 unless it is told
  not to.

  Proved:
  * `returns_callGetWithAuthRetry_iff`: when a request succeeds, by the answers to the token in
    the cache, to no token, and to a token that is granted.
  * `returns_anyCache_iff`: when a request that succeeds with an empty cache succeeds with a
    given one.
-/
import Pakstak.Challenges
import Pakstak.Fetch
import Pakstak.Replay

namespace Pakstak

open Posix Text Prog

variable (env : Env)

/-! ## A registry -/

structure Registry where
  /-- The response for a path, under a token or without one. -/
  answer : Bytes → Option Bytes → Response
  /-- The token endpoint: the response for a realm and a query. -/
  token : Bytes → List (Bytes × Bytes) → Response

/-- A response that `ureq` makes no error of. -/
def Response.Good (r : Response) : Prop := ¬ (400 ≤ r.status ∧ r.status ≤ 599)

instance (r : Response) : Decidable r.Good := inferInstanceAs (Decidable (¬ _))

/-- `http_status_as_error(true)`. -/
def statusAsError (r : Response) : Except HttpError Response :=
  if r.Good then .ok r else .error (.statusCode r.status)

namespace Registry

variable (R : Registry)

/-- The token of an `Authorization` header. -/
def bearerToken (authorization : Bytes) : Bytes := authorization.drop (utf8 "Bearer ").length

def reply : Request → Except HttpError Response
  | .registry _ path _ authorization httpStatusAsError =>
    let response := R.answer path (authorization.map bearerToken)
    if httpStatusAsError then statusAsError response else .ok response
  | .token realm query => statusAsError (R.token realm query)

/-- The questions that have one answer. -/
def answers : (o : Op) → Option (Reply o)
  | .get request => some (R.reply request)
  | .eprintln _ _ => some ()
  | _ => none

/-- The machine whose registry is `R`. -/
def machine : Machine Op Reply World :=
  (Pakstak.machine env).only fun o _ r => ∀ r', R.answers o = some r' → r = r'

theorem decides : Decides (R.machine env) R.answers where
  step o w r h := by
    cases o with
    | get request => exact ⟨_, rfl, fun r' h' => Option.some.inj (h.symm.trans h')⟩
    | eprintln m e => exact ⟨_, rfl, fun r' h' => Option.some.inj (h.symm.trans h')⟩
    | _ => cases h
  unique o w r r' w' h hs := hs.2 r h

/-- The token granted for a challenge. -/
def tokenFor (challenge : AuthChallenge) : Option Bytes :=
  match statusAsError (R.token challenge.realm (tokenQuery challenge)) with
  | .error _ => none
  | .ok response =>
    if response.body.broken then none
    else ((env.fromSlice response.body.data).bind TokenResponse.deserialize).bind fun token =>
      token.token.or token.accessToken

/-- The token granted for the first bearer challenge on the first line of a response. -/
def granted (response : Response) : Option Bytes :=
  (firstBearer env response).bind fun b => (b.spelled "realm").getLast?.bind fun realm =>
    if realm = [] then none
    else R.tokenFor env ⟨realm, (b.spelled "service").getLast?, b.spelled "scope"⟩

end Registry

variable {env} {R : Registry}

/-! ## What the client makes of the answers -/

theorem eval_get {α : Type} (request : Request) (k : Except HttpError Response → M α) :
    eval R.answers (get request >>= k) = eval R.answers (k (R.reply request)) := rfl

theorem eval_fetchBearerToken (c : AuthChallenge) :
    ∃ r, eval R.answers (fetchBearerToken env c) = some r ∧
      ∀ t, r = .ok t ↔ R.tokenFor env c = some t := by
  rw [Registry.tokenFor, fetchBearerToken]
  show ∃ r, eval R.answers (match statusAsError (R.token c.realm (tokenQuery c)) with
    | .error _ => _
    | .ok _ => _) = some r ∧ _
  cases statusAsError (R.token c.realm (tokenQuery c)) with
  | error e => exact ⟨_, rfl, by simp⟩
  | ok response =>
    dsimp only
    split
    · exact ⟨_, rfl, by simp⟩
    · cases (env.fromSlice response.body.data).bind TokenResponse.deserialize with
      | none => exact ⟨_, rfl, by simp⟩
      | some token =>
        dsimp only [Option.bind_some]
        cases token.token.or token.accessToken with
        | none => exact ⟨_, rfl, by simp⟩
        | some t => exact ⟨_, rfl, by simp⟩

theorem eval_tokenFromUnauthorized (env : Env) (R : Registry) (r : Response) :
    ∃ res, eval R.answers (tokenFromUnauthorized env r) = some res ∧
      ∀ t, res = .ok t ↔ R.granted env r = some t := by
  by_cases h : ∃ b realm, firstBearer env r = some b ∧
      (b.spelled "realm").getLast? = some realm ∧ realm ≠ []
  · obtain ⟨b, realm, hb, hr, hne⟩ := h
    rw [tokenFromUnauthorized_eq env hb hr hne]
    have hgranted : R.granted env r =
        R.tokenFor env ⟨realm, (b.spelled "service").getLast?, b.spelled "scope"⟩ := by
      rw [Registry.granted, hb, Option.bind_some, hr, Option.bind_some, if_neg hne]
    rw [hgranted]
    exact eval_fetchBearerToken _
  · have hempty : ∀ b, firstBearer env r = some b → ∀ realm,
        (b.spelled "realm").getLast? = some realm → realm = [] := by
      intro b hb realm hr
      by_contra hne
      exact h ⟨b, realm, hb, hr, hne⟩
    obtain ⟨e, he⟩ := tokenFromUnauthorized_fails env hempty
    refine ⟨.error e, by rw [he]; rfl, fun t => ?_⟩
    simp only [reduceCtorEq, false_iff, Registry.granted, Option.bind_eq_some_iff, not_exists]
    rintro b ⟨hb, realm, hr, ht⟩
    rw [if_pos (hempty b hb realm hr)] at ht
    cases ht

/-! ## A request and its retry -/

/-- The answer to a request that the client makes with what its cache holds. -/
theorem reply_requestGet (client : RegistryClient) (registry path accept : Bytes) :
    R.reply (client.requestGet registry path accept) =
      statusAsError (R.answer path (client.tokens.lookup registry)) := by
  have hdrop (token : Bytes) : Registry.bearerToken (utf8 "Bearer " ++ token) = token :=
    List.drop_left
  simp [RegistryClient.requestGet, Registry.reply, Option.map_map, Function.comp_def, hdrop]

theorem statusAsError_of_good {r : Response} (h : r.Good) : statusAsError r = .ok r := if_pos h

theorem statusAsError_of_not_good {r : Response} (h : ¬ r.Good) :
    statusAsError r = .error (.statusCode r.status) := if_neg h

/-- A request succeeds at once, or after a 401 with a token that is granted. -/
def Registry.Serves (R : Registry) (env : Env) (path : Bytes) (cached : Option Bytes) : Prop :=
  (R.answer path cached).Good ∨ (R.answer path cached).status = 401 ∧
    ∃ t, R.granted env (R.answer path none) = some t ∧ (R.answer path (some t)).Good

theorem eval_callGetWithAuthRetry (env : Env) (R : Registry) (client : RegistryClient)
    (registry path accept : Bytes) :
    ∃ res, eval R.answers (client.callGetWithAuthRetry env registry path accept) = some res ∧
      ((∃ a, res = .ok a) ↔ R.Serves env path (client.tokens.lookup registry)) := by
  rw [RegistryClient.callGetWithAuthRetry, eval_get, reply_requestGet, Registry.Serves]
  by_cases hgood : (R.answer path (client.tokens.lookup registry)).Good
  · rw [statusAsError_of_good hgood]
    exact ⟨_, rfl, by simp [hgood]⟩
  · rw [statusAsError_of_not_good hgood]
    split
    · rename_i hok
      cases hok
    · -- a 401: once more for its challenge, then with the token granted
      rename_i h401
      have h401 := HttpError.statusCode.inj (Except.error.inj h401)
      rw [eval_get]
      have hplain : R.reply (.registry registry path accept none false) =
          .ok (R.answer path none) := rfl
      rw [hplain]
      dsimp only
      obtain ⟨res, hres, ht⟩ := eval_tokenFromUnauthorized env R (R.answer path none)
      have hctx := eval_mapError (f := .context
        ⟨"failed to authenticate registry request: GET {}", [path]⟩) hres
      cases res with
      | error e =>
        refine ⟨_, eval_bind_error hctx, ?_⟩
        simp [hgood, h401, ← ht]
      | ok t =>
        have hgranted := (ht t).mp rfl
        have hlookup : List.lookup registry ((registry, t) :: client.tokens) = some t := by simp
        have hserves : ((R.answer path (client.tokens.lookup registry)).Good ∨
            (R.answer path (client.tokens.lookup registry)).status = 401 ∧
              ∃ t, R.granted env (R.answer path none) = some t ∧
                (R.answer path (some t)).Good) ↔ (R.answer path (some t)).Good := by
          simp [hgood, h401, hgranted]
        rw [hserves]
        have hrest {f : Bytes → M (Response × RegistryClient)} :
            eval R.answers (withContext ⟨"failed to authenticate registry request: GET {}", [path]⟩
              (tokenFromUnauthorized env (R.answer path none)) >>= f) = eval R.answers (f t) :=
          eval_bind_ok hctx
        rw [hrest, eval_get, reply_requestGet, hlookup]
        by_cases hagain : (R.answer path (some t)).Good
        · rw [statusAsError_of_good hagain]
          exact ⟨_, rfl, by simp [hagain]⟩
        · rw [statusAsError_of_not_good hagain]
          exact ⟨_, rfl, by simp [hagain]⟩
    · rename_i e hother he
      cases he
      have h401 : (R.answer path (client.tokens.lookup registry)).status ≠ 401 :=
        fun h => hother (by rw [h])
      exact ⟨_, rfl, by simp [hgood, h401]⟩

/-- Every run against `R` ends, with a response. -/
def Registry.Succeeds (R : Registry) (env : Env) (client : RegistryClient)
    (registry path accept : Bytes) (w : World) : Prop :=
  Returns (R.machine env) (client.callGetWithAuthRetry env registry path accept) w

theorem returns_callGetWithAuthRetry_iff (client : RegistryClient)
    (registry path accept : Bytes) (w : World) :
    R.Succeeds env client registry path accept w ↔
      R.Serves env path (client.tokens.lookup registry) := by
  obtain ⟨res, hres, hok⟩ := eval_callGetWithAuthRetry env R client registry path accept
  exact (returns_iff_eval (R.decides env) hres).trans hok

/-! ## Any cache -/

/-- A token in the cache does no harm: the registry takes it, or answers it with a 401 and leads
    on from the answer without a token. -/
def Registry.Harmless (R : Registry) (env : Env) (path : Bytes) (cached : Option Bytes) : Prop :=
  ∀ token, cached = some token →
    (R.answer path (some token)).Good ∨ (R.answer path (some token)).status = 401 ∧
      ((R.answer path none).status = 401 ∨
        ∃ t, R.granted env (R.answer path none) = some t ∧ (R.answer path (some t)).Good)

theorem returns_anyCache_iff {client : RegistryClient} {registry path accept : Bytes} {w : World}
    (h : R.Succeeds env .new registry path accept w) :
    R.Succeeds env client registry path accept w ↔
      R.Harmless env path (client.tokens.lookup registry) := by
  rw [returns_callGetWithAuthRetry_iff] at h ⊢
  have hempty : RegistryClient.new.tokens.lookup registry = none := rfl
  rw [hempty, Registry.Serves] at h
  cases hc : client.tokens.lookup registry with
  | none => exact ⟨fun _ => by rintro token ⟨⟩, fun _ => h⟩
  | some token =>
    constructor
    · rintro (hgood | ⟨h401, hleads⟩) token' ht
      · cases ht
        exact .inl hgood
      · cases ht
        exact .inr ⟨h401, .inr hleads⟩
    · intro hharmless
      rcases hharmless token rfl with hgood | ⟨h401, hplain | hleads⟩
      · exact .inl hgood
      · -- the first request without a token was answered with the same 401
        rcases h with hgood | ⟨-, hleads⟩
        · exact absurd ⟨by omega, by omega⟩ hgood
        · exact .inr ⟨h401, hleads⟩
      · exact .inr ⟨h401, hleads⟩

/-! ## A stale token -/

namespace Stale

/-- A registry of public images, whose plain answer is a 200; it refuses one token. -/
def publicRegistry : Registry where
  answer _ token := ⟨if token = some (utf8 "stale") then 401 else 200, [], ⟨[], false⟩⟩
  token _ _ := ⟨404, [], ⟨[], false⟩⟩

def client (token : String) : RegistryClient := ⟨[(utf8 "registry.test", utf8 token)]⟩

def path : Bytes := utf8 "/v2/a/manifests/latest"

def world : World := ⟨.dir newDir [], [], [], []⟩

theorem succeeds_new :
    publicRegistry.Succeeds (smallEnv []) .new (utf8 "registry.test") path [] world :=
  (returns_callGetWithAuthRetry_iff _ _ _ _ _).mpr (.inl (by decide +kernel))

end Stale

/-- A token that the registry takes. -/
theorem returns_anyCache_iff_fresh :
    Stale.publicRegistry.Succeeds (smallEnv []) (Stale.client "fresh") (utf8 "registry.test")
      Stale.path [] Stale.world :=
  (returns_anyCache_iff Stale.succeeds_new).mpr fun token ht => by
    have hfresh : utf8 "fresh" = token := by
      have : (Stale.client "fresh").tokens.lookup (utf8 "registry.test") = some (utf8 "fresh") := by
        decide +kernel
      exact Option.some.inj (this.symm.trans ht)
    subst hfresh
    exact .inl (by decide +kernel)

/-- What another fetch left in the cache makes a request fail that needs no token. -/
theorem returns_anyCache_stale : ¬ ∀ (R : Registry) (env : Env) (client : RegistryClient)
    (registry path accept : Bytes) (w : World),
    R.Succeeds env .new registry path accept w → R.Succeeds env client registry path accept w := by
  intro h
  have hserves := (returns_callGetWithAuthRetry_iff _ _ _ _ _).mp
    (h _ _ (Stale.client "stale") _ _ _ _ Stale.succeeds_new)
  have hlookup : (Stale.client "stale").tokens.lookup (utf8 "registry.test") =
      some (utf8 "stale") := by decide +kernel
  rw [hlookup] at hserves
  rcases hserves with hgood | ⟨-, t, ht, -⟩
  · exact absurd hgood (by decide +kernel)
  · cases ht

end Pakstak
