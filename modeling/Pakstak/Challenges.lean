/-
  Which challenge of a 401 response the client asks for a token with.

  A response has any number of `WWW-Authenticate` lines, a line any number of challenges, and
  the names of parameters are compared without regard to case (`Challenge.named`). The client
  reads one line, and compares the names as they are spelled (`Challenge.spelled`).

  Proved:
  * `tokenFromUnauthorized_eq`, `tokenFromUnauthorized_fails`: what the client does, by the first
    bearer challenge on the first line.
  * `fetchBearerToken_injective`: the token request shows the challenge it is made for.
  * `negotiates_iff`: when that is the first bearer challenge of the response.
-/
import Pakstak.Auth

namespace Pakstak

open Posix Text

variable (env : Env)

/-! ## Challenges -/

namespace Challenge

def isBearer (c : Challenge) : Bool := eqIgnoreAsciiCase c.scheme (utf8 "Bearer")

/-- The values of the parameters called `name`, in any letter case. -/
def named (c : Challenge) (name : String) : List Bytes :=
  (c.params.filter fun p => eqIgnoreAsciiCase p.1 (utf8 name)).map Prod.snd

/-- The values of the parameters called `name`, spelled that way. -/
def spelled (c : Challenge) (name : String) : List Bytes :=
  (c.params.filter fun p => p.1 = utf8 name).map Prod.snd

/-- The last realm counts, and an empty one is none. -/
def HasRealm (c : Challenge) : Prop := ∃ realm, (c.named "realm").getLast? = some realm ∧ realm ≠ []

/-- No parameter in another letter case changes what is read. -/
structure PlainNames (c : Challenge) : Prop where
  realm : (c.spelled "realm").getLast? = (c.named "realm").getLast?
  service : (c.spelled "service").getLast? = (c.named "service").getLast?
  scopes : c.spelled "scope" = c.named "scope"

end Challenge

/-- The field lines of a header, in the order received. -/
def Response.fieldLines (r : Response) (name : String) : List Bytes :=
  (r.headers.filter fun h => h.1 = utf8 name).map Prod.snd

/-- The challenges of one line; a line that is no list of challenges has none. -/
def challengesIn (value : Bytes) : List Challenge :=
  ((toStr value).bind env.parseChallenges).getD []

def bearers (r : Response) : List Challenge :=
  ((r.fieldLines "www-authenticate").flatMap (challengesIn env)).filter Challenge.isBearer

/-- The first bearer challenge on the first line. -/
def firstBearer (r : Response) : Option Challenge :=
  (r.fieldLines "www-authenticate").head?.bind fun value =>
    (challengesIn env value).find? Challenge.isBearer

theorem lookup_eq_head? (l : List (Bytes × Bytes)) (name : Bytes) :
    l.lookup name = ((l.filter fun p => p.1 = name).map Prod.snd).head? := by
  induction l with
  | nil => rfl
  | cons p l ih =>
    obtain ⟨key, value⟩ := p
    by_cases h : key = name
    · simp [h]
    · have hkey : (name == key) = false := beq_eq_false_iff_ne.mpr (Ne.symm h)
      rw [List.lookup_cons, hkey, List.filter_cons_of_neg (by simpa using h)]
      exact ih

theorem Response.header_eq_head? (r : Response) (name : String) :
    r.header name = (r.fieldLines name).head? :=
  lookup_eq_head? r.headers (utf8 name)

theorem lastParam_eq_getLast? (c : Challenge) (name : String) :
    lastParam c.params name = (c.spelled name).getLast? := by
  rw [lastParam, lookup_eq_head?, Challenge.spelled, List.filter_reverse, List.map_reverse,
    List.head?_reverse]

/-- The first bearer challenge on the first line, if there is one, is the first of all. -/
theorem head?_bearers {r : Response} {b : Challenge} (h : firstBearer env r = some b) :
    (bearers env r).head? = some b := by
  rw [firstBearer, Option.bind_eq_some_iff] at h
  obtain ⟨value, hv, hb⟩ := h
  obtain ⟨rest, hrest⟩ := List.head?_eq_some_iff.mp hv
  rw [bearers, hrest, List.flatMap_cons, List.filter_append, List.head?_append,
    List.head?_filter, hb, Option.some_or]

/-! ## The client's choice -/

/-- Reading the header of a response and looking for a bearer challenge. -/
theorem tokenFromUnauthorized_bind {r : Response} {b : Challenge}
    (hb : firstBearer env r = some b) :
    ∃ header, authHeaderFromUnauthorized r = .ret (.ok header) ∧
      ∃ l, env.parseChallenges header = some l ∧ l.find? Challenge.isBearer = some b := by
  rw [firstBearer, ← r.header_eq_head?, Option.bind_eq_some_iff] at hb
  obtain ⟨value, hv, hb⟩ := hb
  rw [challengesIn] at hb
  cases hs : toStr value with
  | none => simp [hs] at hb
  | some header =>
    cases hl : env.parseChallenges header with
    | none => simp [hs, hl] at hb
    | some l =>
      refine ⟨header, ?_, l, hl, by simpa [hs, hl] using hb⟩
      rw [authHeaderFromUnauthorized, hv]
      simp only [hs]
      rfl

/-- The challenge the client works with, as the first one on the first line is spelled. -/
theorem tokenFromUnauthorized_eq {r : Response} {b : Challenge} {realm : Bytes}
    (hb : firstBearer env r = some b) (hr : (b.spelled "realm").getLast? = some realm)
    (hne : realm ≠ []) :
    tokenFromUnauthorized env r =
      fetchBearerToken env ⟨realm, (b.spelled "service").getLast?, b.spelled "scope"⟩ := by
  obtain ⟨header, hheader, l, hl, hfind⟩ := tokenFromUnauthorized_bind env hb
  have hparse : parseBearerChallenge env header =
      .ret (.ok ⟨realm, (b.spelled "service").getLast?, b.spelled "scope"⟩) := by
    rw [← lastParam_eq_getLast?] at hr ⊢
    rw [parseBearerChallenge, hl]
    simp only [show (fun c : Challenge => eqIgnoreAsciiCase c.scheme (utf8 "Bearer")) =
      Challenge.isBearer from rfl, hfind, hr]
    rfl
  rw [tokenFromUnauthorized, hheader]
  show (parseBearerChallenge env header >>= _) = _
  rw [hparse]
  exact if_neg hne

theorem parseBearerChallenge_fails {header : Bytes}
    (h : ∀ l b, env.parseChallenges header = some l → l.find? Challenge.isBearer = some b →
      (b.spelled "realm").getLast? = none) :
    ∃ e, parseBearerChallenge env header = .fail e := by
  rw [parseBearerChallenge]
  cases hl : env.parseChallenges header with
  | none => exact ⟨_, rfl⟩
  | some l =>
    simp only [show (fun c : Challenge => eqIgnoreAsciiCase c.scheme (utf8 "Bearer")) =
      Challenge.isBearer from rfl]
    cases hb : l.find? Challenge.isBearer with
    | none => exact ⟨_, rfl⟩
    | some b =>
      have hr := h l b hl hb
      rw [← lastParam_eq_getLast?] at hr
      simp only [hr]
      exact ⟨_, rfl⟩

theorem tokenFromUnauthorized_fails {r : Response}
    (h : ∀ b, firstBearer env r = some b → ∀ realm,
      (b.spelled "realm").getLast? = some realm → realm = []) :
    ∃ e, tokenFromUnauthorized env r = .fail e := by
  have hlook : firstBearer env r = (r.header "www-authenticate").bind fun value =>
      (challengesIn env value).find? Challenge.isBearer := by
    rw [r.header_eq_head?]
    rfl
  rw [tokenFromUnauthorized, authHeaderFromUnauthorized]
  cases hv : r.header "www-authenticate" with
  | none => exact ⟨_, rfl⟩
  | some value =>
    cases hs : toStr value with
    | none => exact ⟨_, by simp only [hs]; rfl⟩
    | some header =>
      have hfirst {l : List Challenge} {b : Challenge} (hl : env.parseChallenges header = some l)
          (hb : l.find? Challenge.isBearer = some b) : firstBearer env r = some b := by
        simp [hlook, hv, challengesIn, hs, hl, hb]
      simp only [hs]
      show ∃ e, (parseBearerChallenge env header >>= _) = _
      by_cases hempty : ∃ l b, env.parseChallenges header = some l ∧
          l.find? Challenge.isBearer = some b ∧ (b.spelled "realm").getLast? ≠ none
      · obtain ⟨l, b, hl, hb, hr⟩ := hempty
        obtain ⟨realm, hr⟩ := Option.ne_none_iff_exists'.mp hr
        obtain rfl := h b (hfirst hl hb) realm hr
        rw [← lastParam_eq_getLast?] at hr
        rw [parseBearerChallenge, hl]
        simp only [show (fun c : Challenge => eqIgnoreAsciiCase c.scheme (utf8 "Bearer")) =
          Challenge.isBearer from rfl, hb, hr]
        exact ⟨_, rfl⟩
      · push Not at hempty
        obtain ⟨e, he⟩ := parseBearerChallenge_fails env hempty
        rw [he]
        exact ⟨e, rfl⟩

/-! ## The token request shows the challenge -/

/-- The query of a token request. -/
def tokenQuery (c : AuthChallenge) : List (Bytes × Bytes) :=
  [(utf8 "client_id", utf8 "pakstak")] ++ (c.service.map fun s => (utf8 "service", s)).toList ++
    c.scopes.map fun s => (utf8 "scope", s)

theorem tokenQuery_injective {c c' : AuthChallenge} (h : tokenQuery c = tokenQuery c') :
    c.service = c'.service ∧ c.scopes = c'.scopes := by
  have hne : utf8 "service" ≠ utf8 "scope" := by decide +kernel
  have scopes {l l' : List Bytes}
      (h : l.map (fun s => (utf8 "scope", s)) = l'.map fun s => (utf8 "scope", s)) : l = l' :=
    List.map_injective_iff.mpr (fun a b hab => (Prod.mk.inj hab).2) h
  rw [tokenQuery, tokenQuery, List.append_assoc, List.append_assoc] at h
  replace h := List.append_cancel_left h
  cases hs : c.service with
  | none =>
    cases hs' : c'.service with
    | none => exact ⟨rfl, scopes (by simpa [hs, hs'] using h)⟩
    | some s' =>
      rw [hs, hs'] at h
      cases hc : c.scopes with
      | nil => simp [hc] at h
      | cons a l => simp [hc, hne.symm] at h
  | some s =>
    cases hs' : c'.service with
    | none =>
      rw [hs, hs'] at h
      cases hc : c'.scopes with
      | nil => simp [hc] at h
      | cons a l => simp [hc, hne] at h
    | some s' =>
      simp only [hs, hs', Option.map_some, Option.toList_some, List.cons_append, List.nil_append,
        List.cons.injEq, Prod.mk.injEq, true_and] at h
      exact ⟨congrArg some h.1, scopes h.2⟩

theorem fetchBearerToken_injective {c c' : AuthChallenge}
    (h : fetchBearerToken env c = fetchBearerToken env c') : c = c' := by
  obtain ⟨realm, service, scopes⟩ := c
  obtain ⟨realm', service', scopes'⟩ := c'
  obtain ⟨hline, hrest⟩ := Prog.ask.inj h
  obtain rfl : realm = realm' := by simpa using hline
  obtain ⟨hget, -⟩ := Prog.ask.inj (congrFun (eq_of_heq hrest) ())
  have hquery : tokenQuery ⟨realm, service, scopes⟩ = tokenQuery ⟨realm, service', scopes'⟩ :=
    (Request.token.inj (Op.get.inj hget)).2
  obtain ⟨rfl, rfl⟩ := tokenQuery_injective hquery
  rfl

theorem fetchBearerToken_ne_fail (c : AuthChallenge) (e : Err) :
    fetchBearerToken env c ≠ .fail e := by
  intro h
  cases h

/-! ## The first bearer challenge of the response -/

/-- If there is a bearer challenge with a realm, the client asks for a token with the first one
    of the response, and otherwise it fails. -/
structure Negotiates (r : Response) : Prop where
  works : (∃ b ∈ bearers env r, b.HasRealm) → ∃ b realm, (bearers env r).head? = some b ∧
    (b.named "realm").getLast? = some realm ∧ tokenFromUnauthorized env r =
      fetchBearerToken env ⟨realm, (b.named "service").getLast?, b.named "scope"⟩
  fails : (¬ ∃ b ∈ bearers env r, b.HasRealm) → ∃ e, tokenFromUnauthorized env r = .fail e

/-- The first line has the challenge to work with, and its names are spelled as the client reads
    them; where no challenge has a realm, the first line does not seem to have one. -/
structure OnFirstLine (r : Response) : Prop where
  works : (∃ b ∈ bearers env r, b.HasRealm) →
    ∃ b, firstBearer env r = some b ∧ b.HasRealm ∧ b.PlainNames
  fails : (¬ ∃ b ∈ bearers env r, b.HasRealm) → ∀ b, firstBearer env r = some b →
    ∀ realm, (b.spelled "realm").getLast? = some realm → realm = []

theorem negotiates_iff (r : Response) : Negotiates env r ↔ OnFirstLine env r := by
  -- what the client works with, where it works
  have choice : (∃ c, tokenFromUnauthorized env r = fetchBearerToken env c) →
      ∃ b realm, firstBearer env r = some b ∧ (b.spelled "realm").getLast? = some realm ∧
        realm ≠ [] := by
    rintro ⟨c, hc⟩
    by_contra hnone
    obtain ⟨e, he⟩ := tokenFromUnauthorized_fails env fun b hb realm hr => by
      by_contra hne
      exact hnone ⟨b, realm, hb, hr, hne⟩
    exact fetchBearerToken_ne_fail env c e (hc.symm.trans he)
  constructor
  · intro h
    refine ⟨fun hsome => ?_, fun hnone b hb realm hr => ?_⟩
    · obtain ⟨b, realm, hb, hr, hc⟩ := h.works hsome
      obtain ⟨b', realm', hb', hr', hne⟩ := choice ⟨_, hc⟩
      obtain rfl : b' = b := Option.some.inj ((head?_bearers env hb').symm.trans hb)
      rw [tokenFromUnauthorized_eq env hb' hr' hne] at hc
      obtain ⟨rfl, hservice, hscopes⟩ := AuthChallenge.mk.inj (fetchBearerToken_injective env hc)
      exact ⟨b', hb', ⟨realm', hr, hne⟩, hr'.trans hr.symm, hservice, hscopes⟩
    · by_contra hne
      obtain ⟨e, he⟩ := h.fails hnone
      exact fetchBearerToken_ne_fail env _ e
        ((tokenFromUnauthorized_eq env hb hr hne).symm.trans he)
  · intro h
    refine ⟨fun hsome => ?_, fun hnone => tokenFromUnauthorized_fails env (h.fails hnone)⟩
    obtain ⟨b, hb, ⟨realm, hr, hne⟩, hplain⟩ := h.works hsome
    refine ⟨b, realm, head?_bearers env hb, hr, ?_⟩
    rw [tokenFromUnauthorized_eq env hb (hplain.realm.trans hr) hne, hplain.service,
      hplain.scopes]

/-! ## A realm in capitals -/

namespace Capital

def value : Bytes := utf8 "Bearer Realm=\"https://auth.test\""

def challenge : Challenge := ⟨utf8 "Bearer", [(utf8 "Realm", utf8 "https://auth.test")]⟩

/-- An environment whose parser knows one value. -/
def environment : Env where
  storagePath := ⟨[], true⟩
  target := ⟨[], []⟩
  fuel := 0
  hash _ _ := []
  fromSlice _ := none
  toVecPretty _ := []
  parseChallenges v := if v = value then some [challenge] else none
  unpack _ _ _ := none

def response : Response := ⟨401, [(utf8 "www-authenticate", value)], ⟨[], false⟩⟩

end Capital

/-- The scheme is found in any letter case, and the realm is not. -/
theorem negotiates_fails_capital : ¬ ∀ env r, Negotiates env r := by
  intro h
  have hb : bearers Capital.environment Capital.response = [Capital.challenge] := by
    decide +kernel
  have hrealm : Capital.challenge.HasRealm :=
    ⟨utf8 "https://auth.test", by decide +kernel, by decide +kernel⟩
  have hspelled : Capital.challenge.spelled "realm" = [] := by decide +kernel
  obtain ⟨b, realm, -, -, hworks⟩ := (h Capital.environment Capital.response).works
    ⟨Capital.challenge, by rw [hb]; exact List.mem_singleton_self _, hrealm⟩
  obtain ⟨e, hfails⟩ := tokenFromUnauthorized_fails Capital.environment (r := Capital.response)
    fun b hfirst realm hr => by
      have hhead := head?_bearers _ hfirst
      rw [hb] at hhead
      obtain rfl : Capital.challenge = b := Option.some.inj hhead
      rw [hspelled] at hr
      cases hr
  exact fetchBearerToken_ne_fail _ _ e (hworks.symm.trans hfails)

end Pakstak
