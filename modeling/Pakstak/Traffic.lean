/-
  What goes over the network, over a whole run of a command.

  A token is sent to no registry but the one it was got for, on a challenge of that registry;
  a token endpoint is asked only right after a registry named it, and is sent no token; what an
  install asks of a registry is about the image it was given.

  Proved, for any answers of the environment, at every point of a run: `main_traffic`.
-/
import Pakstak.Challenges
import Pakstak.Offline
import Pakstak.Pinned

namespace Pakstak

open Posix Prog RegistryClient

variable {env : Env} {α β : Type}

/-! ## Traffic -/

abbrev Traffic := List (Request × Except HttpError Response)

/-- The challenge the client makes of a response. -/
def Challenges (env : Env) (response : Response) (challenge : AuthChallenge) : Prop :=
  ∃ header, authHeaderFromUnauthorized response = .ret (.ok header) ∧
    parseBearerChallenge env header = .ret (.ok challenge)

/-- The token in a response of a token endpoint. -/
def GrantsToken (env : Env) (response : Response) (token : Bytes) : Prop :=
  ∃ t, (env.fromSlice response.body.data).bind TokenResponse.deserialize = some t ∧
    t.token.or t.accessToken = some token

/-- The log ends with a challenge of the registry. -/
def ChallengedBy (env : Env) (registry : Bytes) (challenge : AuthChallenge) (l : Traffic) : Prop :=
  ∃ path accept response, [(.registry registry path accept none false, .ok response)] <:+ l ∧
    Challenges env response challenge

/-- The token was got for the registry, on a challenge of it. -/
def Earned (env : Env) (registry token : Bytes) (l : Traffic) : Prop :=
  ∃ challenge response earlier later, ChallengedBy env registry challenge earlier ∧
    GrantsToken env response token ∧ l = earlier ++
      (.token challenge.realm (tokenQuery challenge), .ok response) :: later

/-- What may be asked after the traffic `l`: of the registries, what `A` allows. -/
def Justified (env : Env) (A : Bytes → Bytes → Prop) (l : Traffic) : Request → Prop
  | .registry registry path _ authorization _ => A registry path ∧
    ∀ a, authorization = some a → ∃ token, a = utf8 "Bearer " ++ token ∧ Earned env registry token l
  | .token realm query => ∃ registry challenge, ChallengedBy env registry challenge l ∧
    realm = challenge.realm ∧ query = tokenQuery challenge

/-- Each request follows from those before it. -/
def Proper (env : Env) (A : Bytes → Bytes → Prop) (l : Traffic) : Prop :=
  ∀ earlier e later, l = earlier ++ e :: later → Justified env A earlier e.1

variable {A : Bytes → Bytes → Prop} {registry token : Bytes} {l : Traffic} (st : Storage)

theorem Earned.append (h : Earned env registry token l) (m : Traffic) :
    Earned env registry token (l ++ m) := by
  obtain ⟨challenge, response, earlier, later, hc, hg, rfl⟩ := h
  exact ⟨challenge, response, earlier, later ++ m, hc, hg, by simp⟩

theorem proper_nil : Proper env A [] := by
  intro earlier e later h
  simp at h

theorem Proper.snoc (h : Proper env A l) {request : Request} (hr : Justified env A l request)
    (r : Except HttpError Response) : Proper env A (l ++ [(request, r)]) := by
  intro earlier e later hl
  rcases List.eq_nil_or_concat later with rfl | ⟨later, e', rfl⟩
  · obtain ⟨rfl, he⟩ := List.append_inj' hl rfl
    cases he
    exact hr
  · have hl' : l ++ [(request, r)] = (earlier ++ e :: later) ++ [e'] := by simpa using hl
    exact h earlier e later (List.append_inj' hl' rfl).1

/-! ## The client -/

/-- The tokens of a client are for the registries they stand under. -/
def Owns (env : Env) (client : RegistryClient) (l : Traffic) : Prop :=
  ∀ registry token, client.tokens.lookup registry = some token → Earned env registry token l

theorem owns_new : Owns env .new l := by
  intro registry token h
  cases h

theorem Owns.append {client : RegistryClient} (h : Owns env client l) (m : Traffic) :
    Owns env client (l ++ m) := fun registry token ht => (h registry token ht).append m

theorem Owns.cons {client : RegistryClient} (h : Owns env client l)
    (ht : Earned env registry token l) : Owns env ⟨(registry, token) :: client.tokens⟩ l := by
  intro registry' token' ht'
  rw [List.lookup_cons] at ht'
  split at ht'
  · rename_i he
    cases ht'
    rw [eq_of_beq he]
    exact ht
  · exact h registry' token' ht'

/-- A request with the token of the client, or none. -/
theorem justified_requestGet {client : RegistryClient} {path accept : Bytes}
    (h : Owns env client l) (hA : A registry path) :
    Justified env A l (client.requestGet registry path accept) := by
  refine ⟨hA, ?_⟩
  intro a ha
  obtain ⟨token, ht, rfl⟩ := Option.map_eq_some_iff.mp ha
  exact ⟨token, rfl, h registry token ht⟩

theorem ensures_request {request : Request} {w : World} (h : Proper env A w.net)
    (hr : Justified env A w.net request) :
    Ensures (machine env) (fun w' => Proper env A w'.net)
      (fun r w' => w'.net = w.net ++ [(request, r)]) (get request) w :=
  ensures_get h fun r _ _ hn => ⟨hn ▸ h.snoc hr r, hn⟩

/-- A token is got on the challenge at the end of the log. -/
theorem ensures_token {challenge : AuthChallenge} {w : World} (h : Proper env A w.net)
    (hc : ChallengedBy env registry challenge w.net) :
    Ensures (machine env) (fun w' => Proper env A w'.net)
      (fun token w' => (∃ m, w'.net = w.net ++ m) ∧ Earned env registry token w'.net)
      (fetchBearerToken env challenge) w := by
  refine ensures_bind (ensures_offline (offline_call trivial) h) ?_
  rintro - w₁ h₁ ⟨hn₁, -⟩
  rw [← hn₁] at hc ⊢
  refine ensures_bind (ensures_request h₁ ⟨registry, challenge, hc, rfl, rfl⟩) ?_
  rintro r w₂ h₂ hn₂
  split
  · exact ensures_fail h₂
  rename_i response
  split
  · exact ensures_fail h₂
  split
  · exact ensures_fail h₂
  rename_i t ht
  split
  · rename_i token htoken
    exact ensures_ok h₂ ⟨⟨_, hn₂⟩, challenge, response, w₁.net, [], hc, ⟨t, ht, htoken⟩, hn₂⟩
  · exact ensures_bail h₂

/-- A program given a client keeps the traffic proper and hands a client on. -/
def Discreet (env : Env) (A : Bytes → Bytes → Prop) (client : RegistryClient) (p : M α)
    (g : α → RegistryClient) : Prop :=
  ∀ w : World, Proper env A w.net → Owns env client w.net →
    Ensures (machine env) (fun w' => Proper env A w'.net) (fun a w' => Owns env (g a) w'.net) p w

variable {client : RegistryClient} {g : α → RegistryClient} {g' : β → RegistryClient}

theorem discreet_ret {a : α} (h : g a = client) : Discreet env A client (.ret (.ok a)) g := by
  intro w hw ho
  exact ensures_ok hw (h ▸ ho)

theorem discreet_error {e : Err} : Discreet env A client (.ret (.error e)) g := by
  intro w hw ho
  exact ensures_error hw

theorem discreet_bind {p : M α} {f : α → M β} (h : Discreet env A client p g)
    (hf : ∀ a, Discreet env A (g a) (f a) g') : Discreet env A client (p.bind f) g' := by
  intro w hw ho
  exact ensures_bind (h w hw ho) fun a w' hw' ho' => hf a w' hw' ho'

theorem discreet_offline {p : M α} (h : Offline p) : Discreet env A client p fun _ => client := by
  intro w hw ho
  refine ensures_mono (ensures_offline h hw) (fun _ hI => hI) fun a w' _ ha => ?_
  rw [ha.1]
  exact ho

/-- A step that asks nothing of the network, first. -/
theorem discreet_then {p : M α} {f : α → M β} (h : Offline p)
    (hf : ∀ a, Discreet env A client (f a) g') : Discreet env A client (p.bind f) g' :=
  discreet_bind (discreet_offline h) hf

theorem discreet_withContext {m : Msg} {p : M α} (h : Discreet env A client p g) :
    Discreet env A client (withContext m p) g := by
  intro w hw ho
  exact ensures_withContext.mpr (h w hw ho)

theorem authHeader_ret (response : Response) :
    ∃ r, authHeaderFromUnauthorized response = .ret r := by
  unfold authHeaderFromUnauthorized
  split
  · exact ⟨_, rfl⟩
  · split <;> exact ⟨_, rfl⟩

theorem parseBearerChallenge_ret (env : Env) (header : Bytes) :
    ∃ r, parseBearerChallenge env header = .ret r := by
  unfold parseBearerChallenge
  split
  · exact ⟨_, rfl⟩
  · split
    · exact ⟨_, rfl⟩
    · split <;> exact ⟨_, rfl⟩

/-- The token endpoint asked is the one the registry has just named. -/
theorem ensures_tokenFrom {path accept : Bytes} {response : Response} {w : World}
    (h : Proper env A w.net)
    (hlast : [(.registry registry path accept none false, .ok response)] <:+ w.net) :
    Ensures (machine env) (fun w' => Proper env A w'.net)
      (fun token w' => (∃ m, w'.net = w.net ++ m) ∧ Earned env registry token w'.net)
      (tokenFromUnauthorized env response) w := by
  obtain ⟨r, hr⟩ := authHeader_ret response
  rw [tokenFromUnauthorized, bind_eq, hr]
  cases r with
  | error e => exact ensures_fail h
  | ok header =>
    obtain ⟨c, hc⟩ := parseBearerChallenge_ret env header
    show Ensures _ _ _ ((parseBearerChallenge env header).bind _) w
    rw [hc]
    cases c with
    | error e => exact ensures_fail h
    | ok challenge =>
      show Ensures _ _ _ (if challenge.realm = [] then _ else _) w
      split
      · exact ensures_bail h
      · exact ensures_token h ⟨path, accept, response, hlast, header, hr, hc⟩

theorem discreet_callGetWithAuthRetry {path accept : Bytes} (hA : A registry path) :
    Discreet env A client (client.callGetWithAuthRetry env registry path accept) Prod.snd := by
  intro w hw ho
  refine ensures_bind (ensures_request hw (justified_requestGet ho hA)) ?_
  intro r w₁ h₁ hn₁
  have ho₁ : Owns env client w₁.net := hn₁ ▸ ho.append _
  split
  · exact ensures_ok h₁ ho₁
  · refine ensures_bind (ensures_request h₁ ⟨hA, ?_⟩) ?_
    · intro a ha
      cases ha
    intro r w₂ h₂ hn₂
    have ho₂ : Owns env client w₂.net := hn₂ ▸ ho₁.append _
    split
    · exact ensures_fail h₂
    refine ensures_bind (ensures_withContext.mpr (ensures_tokenFrom h₂ ⟨w₁.net, hn₂.symm⟩)) ?_
    rintro token w₃ h₃ ⟨⟨m, hm⟩, ht⟩
    have ho₃ : Owns env ⟨(registry, token) :: client.tokens⟩ w₃.net :=
      (show Owns env client w₃.net from hm ▸ ho₂.append m).cons ht
    refine ensures_bind (ensures_request h₃ (justified_requestGet ho₃ hA)) ?_
    intro r w₄ h₄ hn₄
    split
    · exact ensures_ok h₄ (hn₄ ▸ ho₃.append _)
    · exact ensures_fail h₄
  · exact ensures_fail h₁

/-! ## Images -/

/-- A request for a manifest or a blob of the repository a reference names. -/
def About (reference : Reference) (registry path : Bytes) : Prop :=
  registry = reference.registry ∧ ∃ x, path = manifestRequestPath reference.repository x ∨
    path = utf8 "/v2/" ++ reference.repository ++ utf8 "/blobs/" ++ x

variable {reference : Reference}

theorem discreet_fetchManifestBytes {types : List Bytes}
    (hA : ∀ registry path, About reference registry path → A registry path) :
    Discreet env A client (client.fetchManifestBytes env reference types) Prod.snd := by
  refine discreet_then (offline_call trivial) fun _ => discreet_bind (discreet_withContext
    (discreet_callGetWithAuthRetry (hA _ _ ⟨rfl, _, .inl rfl⟩))) ?_
  rintro ⟨response, client'⟩
  dsimp only
  split
  · exact discreet_error
  · split
    · exact discreet_error
    · split
      · exact discreet_error
      · refine discreet_then (offline_withContext (offline_lift _)) fun _ => ?_
        split
        · exact discreet_then (offline_withContext (offline_lift _)) fun _ => discreet_ret rfl
        · exact discreet_ret rfl

theorem discreet_handleImageIndex {fetched : ManifestBytes}
    (hA : ∀ registry path, About reference registry path → A registry path) :
    Discreet env A client (client.handleImageIndex env reference fetched) Prod.snd := by
  unfold handleImageIndex
  split
  · exact discreet_error
  · split
    · exact discreet_error
    · rename_i descriptor _
      have selected : Discreet env A client (client.fetchManifestBytes env
          { reference with specifier := .digest descriptor.digest } manifestMediaTypes) Prod.snd :=
        discreet_fetchManifestBytes hA
      refine discreet_bind (discreet_withContext selected) fun r => ?_
      exact discreet_then (offline_withContext (offline_lift _)) fun _ => discreet_ret rfl

theorem discreet_fetchImageManifest
    (hA : ∀ registry path, About reference registry path → A registry path) :
    Discreet env A client (client.fetchImageManifest env reference) Prod.snd := by
  refine discreet_bind (discreet_withContext (discreet_fetchManifestBytes hA)) ?_
  rintro ⟨fetched, client'⟩
  dsimp only
  split
  · exact discreet_withContext (discreet_handleImageIndex hA)
  · exact discreet_then (offline_withContext (offline_lift _)) fun _ => discreet_ret rfl
  · refine discreet_withContext ?_
    split
    · exact discreet_ret rfl
    · exact discreet_handleImageIndex hA

theorem discreet_fetchLayer {layer : Descriptor}
    (hA : ∀ registry path, About reference registry path → A registry path) :
    Discreet env A client (fetchLayer env st reference client layer) id := by
  refine discreet_then (offline_withContext (offline_lift _)) fun format =>
    discreet_then (offline_getLayerPath st _) fun o => ?_
  split
  · exact discreet_then (offline_call trivial) fun _ => discreet_ret rfl
  · refine discreet_bind (g := Prod.snd) (discreet_withContext ?_) fun r => ?_
    · refine discreet_then (offline_call trivial) fun _ => discreet_bind (discreet_withContext
        (discreet_callGetWithAuthRetry (hA _ _ ⟨rfl, _, .inr rfl⟩))) fun r => discreet_ret rfl
    · exact discreet_then (offline_withContext (offline_writeLayer st _ _ _)) fun _ =>
        discreet_then (offline_call trivial) fun _ => discreet_ret rfl

theorem discreet_fold {f : RegistryClient → β → M RegistryClient}
    (h : ∀ client b, Discreet env A client (f client b) id) (l : List β) :
    ∀ client, Discreet env A client (Prog.fold f client l) id := by
  induction l with
  | nil =>
    intro client
    exact discreet_ret rfl
  | cons b l ih =>
    intro client
    exact discreet_bind (h client b) fun client' => ih client'

theorem discreet_fetchImage {repair : Bool}
    (hA : ∀ registry path, About reference registry path → A registry path) :
    Discreet env A client (client.fetchImage env st reference repair) Prod.snd := by
  refine discreet_bind (discreet_withContext (discreet_fetchImageManifest hA)) ?_
  rintro ⟨fetched, client'⟩
  refine discreet_then (offline_withContext (offline_isManifestSaved st _ _)) fun saved => ?_
  split
  · exact discreet_then (offline_call trivial) fun _ => discreet_ret rfl
  · refine discreet_bind (g := id)
      (discreet_withContext (discreet_then (offline_call trivial) fun _ =>
      discreet_fold (fun client layer => discreet_fetchLayer st hA) _ _)) fun client' => ?_
    dsimp only
    split
    · exact discreet_then (offline_writeManifest st _ _) fun _ => discreet_ret rfl
    · exact discreet_ret rfl

/-! ## Commands -/

/-- What a command may ask of the registries. -/
def Allowed : Command → Bytes → Bytes → Prop
  | .install _ image => fun registry path =>
    ∃ reference, Reference.parse image = .ok reference ∧ About reference registry path
  | .update _ | .switch _ _ | .repair => fun registry path =>
    ∃ reference, About reference registry path
  | .uninstall _ | .prune => fun _ _ => False

theorem discreet_tryFold {it : Iter Bytes} (hit : it.Offline) (m : Msg) (client : RegistryClient)
    {body : RegistryClient → Bytes → M RegistryClient}
    (h : ∀ client n, Discreet env A client (body client n) id) :
    Discreet env A client (it.tryFold m client body) id := by
  refine discreet_bind (g := id) (discreet_fold (fun client name => ?_) _ _) fun client' =>
    discreet_then (offline_finish it m) fun _ => discreet_ret rfl
  refine discreet_then (offline_withContext (hit name)) fun o => ?_
  cases o with
  | none => exact discreet_ret rfl
  | some n => exact h client n

theorem discreet_updateContainer {l : List Bytes} (client : RegistryClient) (n : Bytes) :
    Discreet env (Allowed (.update l)) client (updateContainer env st client n) id := by
  refine discreet_then (offline_ensureContainerInstalled st n) fun _ =>
    discreet_then (offline_readContainerReference st n) fun reference => ?_
  refine discreet_bind (discreet_withContext (discreet_fetchImage st fun _ _ h =>
    ⟨reference, h⟩)) ?_
  rintro ⟨fetched, client'⟩
  refine discreet_then (offline_readContainerManifestDigest st n) fun d => ?_
  split
  · exact discreet_then (offline_call trivial) fun _ => discreet_ret rfl
  · exact discreet_then (offline_withContext (offline_writeContainerManifestDigest st _ _)) fun _ =>
      discreet_then (offline_call trivial) fun _ => discreet_ret rfl

theorem discreet_repairContainer (client : RegistryClient) (n : Bytes) :
    Discreet env (Allowed .repair) client (repairContainer env st client n) id := by
  refine discreet_then (offline_withContext (offline_readContainerManifestDigest st n)) fun d =>
    discreet_then (offline_withContext (offline_readContainerReference st n)) fun reference => ?_
  refine discreet_bind (discreet_withContext (discreet_fetchImage st fun _ _ h => ⟨_, h⟩)) ?_
  rintro ⟨fetched, client'⟩
  exact discreet_ret rfl

/-- A program that keeps the traffic proper, whatever client it makes. -/
def Polite (env : Env) (A : Bytes → Bytes → Prop) (p : M α) : Prop :=
  ∀ w : World, Proper env A w.net →
    Ensures (machine env) (fun w' => Proper env A w'.net) (fun _ _ => True) p w

theorem Discreet.polite {p : M α} (h : Discreet env A .new p g) : Polite env A p := by
  intro w hw
  exact ensures_mono (h w hw owns_new) (fun _ hI => hI) fun _ _ _ _ => trivial

theorem polite_offline {p : M α} (h : Offline p) : Polite env A p := (discreet_offline h).polite

theorem polite_bind {p : M α} {f : α → M β} (h : Polite env A p)
    (hf : ∀ a, Polite env A (f a)) : Polite env A (p.bind f) := by
  intro w hw
  exact ensures_bind (h w hw) fun a w' hw' _ => hf a w' hw'

theorem polite_withContext {m : Msg} {p : M α} (h : Polite env A p) :
    Polite env A (withContext m p) := by
  intro w hw
  exact ensures_withContext.mpr (h w hw)

theorem polite_given {P : β → Prop} {p : M β} {f : β → M α} (h : p.AsksOnly Silent P)
    (hf : ∀ b, P b → Polite env A (f b)) : Polite env A (p.bind f) := by
  intro w hw
  exact ensures_bind (ensures_offline h hw) fun b w' hw' hb => hf b hb.2 w' hw'

theorem parsed_reference (m : Msg) (image : Bytes) :
    (withContext m (.lift ((Reference.parse image).mapError .reference)) :
      M Reference).AsksOnly Silent fun reference => Reference.parse image = .ok reference := by
  refine asksOnly_mapError ?_
  cases hp : Reference.parse image with
  | ok reference => rfl
  | error e => trivial

theorem polite_install (n image : Bytes) :
    Polite env (Allowed (.install n image)) (install env st n image) := by
  refine polite_bind (polite_offline (offline_lift _)) fun _ =>
    polite_bind (polite_offline (offline_pathIsDir _)) fun taken => ?_
  split
  · exact polite_offline trivial
  refine polite_given (parsed_reference _ image) fun reference hp => polite_bind
    (discreet_fetchImage st fun _ _ h => ⟨reference, hp, h⟩).polite fun r => polite_offline ?_
  exact offline_bind (offline_withContext (offline_writeContainer st _ _ _)) fun _ =>
    offline_call trivial

theorem polite_update (l : List Bytes) : Polite env (Allowed (.update l)) (update env st l) := by
  have turns (l' : List Bytes) : Polite env (Allowed (.update l)) (do
      let _ ← Prog.fold (updateContainer env st) RegistryClient.new (← hashOrder l')) :=
    polite_bind (polite_offline (offline_call trivial)) fun order => polite_bind
      (discreet_fold (fun client n => discreet_updateContainer st client n) order _).polite
      fun _ => polite_offline trivial
  unfold update
  split
  · have collected (it : Iter Bytes) (hit : it.Offline) (m : Msg) : Offline (it.collect m) := by
      unfold Iter.collect
      exact offline_tryFold hit m [] fun _ _ => trivial
    exact polite_given (offline_readContainers st) fun it hit =>
      polite_bind (polite_offline (collected it hit _)) fun l' => turns l'
  · exact turns l

theorem polite_switch (n d : Bytes) : Polite env (Allowed (.switch n d)) (switch env st n d) := by
  refine polite_bind (polite_offline (offline_ensureContainerInstalled st n)) fun _ =>
    polite_bind (polite_offline (offline_withContext (offline_readContainerReference st n)))
      fun reference => polite_bind (polite_withContext
        (discreet_fetchImage st fun _ _ h => ⟨_, h⟩).polite) fun r => ?_
  exact polite_bind (polite_offline (offline_withContext
    (offline_writeContainerManifestDigest st _ _))) fun _ => polite_offline (offline_call trivial)

theorem polite_repair : Polite env (Allowed .repair) (repair env st) := by
  refine polite_given (offline_readContainers st) fun it hit => polite_bind
    (discreet_tryFold hit _ _ fun client n => discreet_repairContainer st client n).polite fun _ =>
      polite_given (offline_readManifestDigests st) fun ms hms => polite_bind (polite_offline
        (offline_tryFold hms _ _ fun counts d => offline_checkManifest st counts d))
          fun counts => ?_
  split
  · exact polite_offline trivial
  · exact polite_offline (offline_call trivial)

theorem polite_body (c : Command) : Polite env (Allowed c) (c.body env st) := by
  cases c with
  | install n image => exact polite_install st n image
  | uninstall n => exact polite_offline (offline_uninstall st n)
  | update l => exact polite_update st l
  | switch n d => exact polite_switch st n d
  | prune => exact polite_offline (offline_prune st)
  | repair => exact polite_repair st

/-- At every point of a run of a command, what has gone over the network is proper: each request
    follows from those before it, the registries are asked what the command may ask of them, and
    a token goes to no registry but the one it was got for. -/
theorem main_traffic {c : Command} {res : Option (Except Err Unit)} {w w' : World}
    (hw : w.net = []) (hx : Exec (machine env) (main env c) w res w') :
    Proper env (Allowed c) w'.net := by
  have h : Polite env (Allowed c) (main env c) := polite_bind
    (polite_offline (offline_withContext offline_newMutable)) fun st => polite_body st c
  exact (ensures_exec (h w (hw ▸ proper_nil)) hx).1

namespace Private

/-- The answer of the token endpoint. -/
def granted : Document where
  text := utf8 "\x7b\"token\":\"t\"\x7d"
  sha256 := []
  json := some (.obj [(utf8 "token", .str (utf8 "t"))])

def challenge : Challenge := ⟨utf8 "Bearer", [(utf8 "realm", utf8 "https://auth.test")]⟩

def environment : Env :=
  { smallEnv [emptyManifest, granted] with parseChallenges := fun _ => some [challenge] }

instance : StatAnswers environment := ⟨fun _ _ h => h⟩

/-- A registry that wants a token, and its token endpoint. -/
def pages : Request → Except HttpError Response
  | .registry _ _ _ none strict => if strict then .error (.statusCode 401)
    else .ok ⟨401, [(utf8 "www-authenticate", utf8 "Bearer")], ⟨[], false⟩⟩
  | .registry _ _ _ (some _) _ => .ok (okResponse TwoKinds.manifestType
    emptyManifestDigest emptyManifest.text)
  | .token _ _ => .ok ⟨200, [], ⟨granted.text, false⟩⟩

def command : Command := .install (utf8 "web") (utf8 "r.io/a")

def world : World := ⟨.dir newDir [], [], [], []⟩

def installed : Option (Except Err Unit) × World :=
  Script.replay environment ⟨pages, fun _ => false⟩ (main environment command) world

end Private

theorem main_traffic_private :
    Proper Private.environment (Allowed Private.command) Private.installed.2.net ∧
      Private.installed.2.net.length = 4 :=
  ⟨main_traffic rfl (Script.exec_replay _ _ _ _), by decide +kernel⟩

end Pakstak
