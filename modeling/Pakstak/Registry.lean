/-
  What a registry's answers make of a manifest request: `fetchImageManifest` from outside.

  `answers` picks from the log the answers the client works with (a first 401 and the token
  requests are left out). `Fetched` says how the manifest fetched comes from one or two of
  them, and which digests its bytes have passed.

  Proved:
  * `ensures_fetchImageManifest`: what is fetched is `Fetched`, for any registry.
-/
import Pakstak.Calls

namespace Pakstak

open Posix Prog RegistryClient

variable (env : Env)

/-! ## Answers -/

/-- An answer that the client takes for good, with the request it is to. -/
structure Answer where
  registry : Bytes
  path : Bytes
  accept : Bytes
  response : Response
  deriving DecidableEq

def answer : Request × Except HttpError Response → Option Answer
  | (.registry registry path accept _ true, .ok response) =>
    some ⟨registry, path, accept, response⟩
  | _ => none

def answers (net : List (Request × Except HttpError Response)) : List Answer :=
  net.filterMap answer

def acceptAny : Bytes := RegistryClient.acceptHeader (indexMediaTypes ++ manifestMediaTypes)

def acceptManifest : Bytes := RegistryClient.acceptHeader manifestMediaTypes

/-- The digest a response claims for its body. -/
def Response.claimedDigest (r : Response) : Option Bytes :=
  (r.header "docker-content-digest").bind toStr

/-- `r` carries the document `b`, and its bytes pass the check under the digest claimed and
    under the one asked for. -/
structure Carries (r : Response) (specifier : Specifier) (b : ManifestBytes) : Prop where
  bytes : r.body.data = b.bytes
  claimed : r.claimedDigest = some b.digest
  mediaType : b.mediaType = .parseHeaders r
  verified : Verifies env.hash b.bytes b.digest
  pinned : ∀ d, specifier = .digest d → Verifies env.hash b.bytes d

/-- `b` is taken for an image manifest, not for an index. -/
def ManifestBytes.isFinal (b : ManifestBytes) : Bool :=
  match b.mediaType with
  | .index => false
  | .manifest => true
  | .unknown => (b.parse env).isOk

def requestPath (reference : Reference) : Bytes :=
  RegistryClient.manifestRequestPath reference.repository reference.specifier.asTypelessStr

/-- The reference that an index is followed with. -/
def Reference.pin (reference : Reference) (digest : Bytes) : Reference :=
  { reference with specifier := .digest digest }

/-- The manifest `f` fetched for a reference, by the answers `l` of its registry in their order. -/
inductive Fetched (reference : Reference) : List Answer → FetchedManifest → Prop
  | direct {r : Response} {b : ManifestBytes} {f : FetchedManifest}
      (hr : Carries env r reference.specifier b) (hb : b.isFinal env) (hf : b.parse env = .ok f) :
      Fetched reference [⟨reference.registry, requestPath reference, acceptAny, r⟩] f
  | selected {r r' : Response} {b b' : ManifestBytes} {index : ImageIndex} {d : Descriptor}
      {f : FetchedManifest}
      (hr : Carries env r reference.specifier b) (hb : b.isFinal env = false)
      (hi : parseIndex env b.bytes = some index) (hd : selectDescriptor env index = some d)
      (hr' : Carries env r' (.digest d.digest) b') (hf : b'.parse env = .ok f) :
      Fetched reference [⟨reference.registry, requestPath reference, acceptAny, r⟩,
        ⟨reference.registry, requestPath (reference.pin d.digest), acceptManifest, r'⟩] f

/-! ## The answer that names the digest -/

/-- The answer is to a request for a manifest alone, or it is taken for one. -/
def Answer.isFinal (a : Answer) : Bool :=
  a.accept == acceptManifest ||
    (a.accept == acceptAny &&
      (⟨a.response.body.data, [], .parseHeaders a.response⟩ : ManifestBytes).isFinal env)

theorem parse_isOk_iff {b : ManifestBytes} {bytes : Bytes} (h : b.bytes = bytes) :
    (b.parse env).isOk = ((⟨bytes, [], b.mediaType⟩ : ManifestBytes).parse env).isOk := by
  subst h
  rw [ManifestBytes.parse, ManifestBytes.parse]
  cases parseManifest env b.bytes with
  | none => rfl
  | some m =>
    dsimp only
    split <;> rfl

theorem isFinal_of_carries {r : Response} {s : Specifier} {b : ManifestBytes}
    {registry path : Bytes} (h : Carries env r s b) :
    (⟨registry, path, acceptAny, r⟩ : Answer).isFinal env = b.isFinal env := by
  have hne : (acceptAny == acceptManifest) = false := by decide +kernel
  have hp := parse_isOk_iff env (b := b) h.bytes.symm
  rw [h.mediaType] at hp
  simp only [Answer.isFinal, hne, beq_self_eq_true, Bool.false_or, Bool.true_and,
    ManifestBytes.isFinal, h.mediaType]
  cases ManifestMediaType.parseHeaders r with
  | index => rfl
  | manifest => rfl
  | unknown => exact hp.symm

/-- What a fetch is made of: one final answer, and it carries the manifest. -/
theorem Fetched.final {reference : Reference} {l : List Answer} {f : FetchedManifest}
    (h : Fetched env reference l f) : ∃ pre a, l = pre ++ [a] ∧ a.isFinal env = true ∧
      (∀ b ∈ pre, b.isFinal env = false) ∧ a.response.claimedDigest = some f.digest ∧
      a.response.body.data = f.bytes := by
  have parsed {b : ManifestBytes} (hf : b.parse env = .ok f) :
      f.bytes = b.bytes ∧ f.digest = b.digest := by
    rw [ManifestBytes.parse] at hf
    split at hf
    · cases hf
    · split at hf <;> cases hf
      exact ⟨rfl, rfl⟩
  cases h with
  | direct hr hb hf =>
    obtain ⟨hbytes, hdigest⟩ := parsed hf
    refine ⟨[], _, rfl, by rw [isFinal_of_carries env hr, hb], by simp, ?_, ?_⟩
    · rw [hdigest]; exact hr.claimed
    · rw [hbytes]; exact hr.bytes
  | selected hr hb hi hd hr' hf =>
    obtain ⟨hbytes, hdigest⟩ := parsed hf
    refine ⟨[_], _, rfl, by simp [Answer.isFinal], fun b hmem => ?_, ?_, ?_⟩
    · rw [List.mem_singleton.mp hmem, isFinal_of_carries env hr, hb]
    · rw [hdigest]; exact hr'.claimed
    · rw [hbytes]; exact hr'.bytes

/-! ## The client -/

variable {env} {I : World → Prop} {w : World} {client : RegistryClient}

/-- A pure step between two calls, with what it shows. -/
theorem ensures_check {α β : Type} {p : M α} {f : α → M β} {F : α → Prop}
    {P : β → World → Prop} (h : Ensures (machine env) I (fun a w' => w' = w ∧ F a) p w)
    (hf : ∀ a, F a → Ensures (machine env) I P (f a) w) :
    Ensures (machine env) I P (p.bind f) w :=
  ensures_bind h fun a _ _ ⟨hw, ha⟩ => hw ▸ hf a ha

theorem ensures_authHeaderFromUnauthorized {response : Response} (hI : I w) :
    Ensures (machine env) I (fun _ w' => w' = w ∧ True)
      (authHeaderFromUnauthorized response) w := by
  rw [authHeaderFromUnauthorized]
  split
  · exact ensures_bail hI
  · split
    · exact ensures_bail hI
    · exact ensures_ok hI ⟨rfl, trivial⟩

theorem ensures_parseBearerChallenge {header : Bytes} (hI : I w) :
    Ensures (machine env) I (fun _ w' => w' = w ∧ True) (parseBearerChallenge env header) w := by
  rw [parseBearerChallenge]
  split
  · exact ensures_bail hI
  · split
    · exact ensures_bail hI
    · split
      · exact ensures_bail hI
      · exact ensures_ok hI ⟨rfl, trivial⟩

theorem ensures_fetchBearerToken {challenge : AuthChallenge} (hI : ∀ w', Same w w' → I w') :
    Ensures (machine env) I (fun _ w' => Same w w' ∧ answers w'.net = answers w.net)
      (fetchBearerToken env challenge) w := by
  rw [fetchBearerToken]
  refine ensures_bind (P := fun _ w' => Same w w' ∧ w'.net = w.net)
    (ensures_eprintln (hI w (.refl w)) fun w' hs hn => ⟨hI w' hs, hs, hn⟩) ?_
  rintro - w₁ h₁ ⟨hs₁, hn₁⟩
  refine ensures_bind (P := fun _ w' => Same w w' ∧ answers w'.net = answers w.net)
    (ensures_get h₁ fun r w' hs hn => ⟨hI w' (hs₁.trans hs), hs₁.trans hs, ?_⟩) ?_
  · rw [hn, hn₁, answers, answers, List.filterMap_append]
    simp [answer]
  rintro r w₂ h₂ hw₂
  split
  · exact ensures_fail h₂
  · split
    · exact ensures_fail h₂
    · split
      · exact ensures_fail h₂
      · split
        · exact ensures_ok h₂ hw₂
        · exact ensures_bail h₂

theorem ensures_tokenFromUnauthorized {response : Response} (hI : ∀ w', Same w w' → I w') :
    Ensures (machine env) I (fun _ w' => Same w w' ∧ answers w'.net = answers w.net)
      (tokenFromUnauthorized env response) w := by
  have h₀ := hI w (.refl w)
  rw [tokenFromUnauthorized]
  refine ensures_check (ensures_authHeaderFromUnauthorized h₀) fun header _ => ?_
  refine ensures_check (ensures_parseBearerChallenge h₀) fun challenge _ => ?_
  split
  · exact ensures_bail h₀
  · exact ensures_fetchBearerToken hI

/-- A call to a registry ends with one answer more. -/
theorem ensures_callGetWithAuthRetry {registry path accept : Bytes}
    (hI : ∀ w', Same w w' → I w') :
    Ensures (machine env) I
      (fun r w' => Same w w' ∧ answers w'.net = answers w.net ++ [⟨registry, path, accept, r.1⟩])
      (client.callGetWithAuthRetry env registry path accept) w := by
  rw [callGetWithAuthRetry]
  refine ensures_bind
    (P := fun r w' => Same w w' ∧ w'.net = w.net ++ [(client.requestGet registry path accept, r)])
    (ensures_get (hI w (.refl w)) fun r w' hs hn => ⟨hI w' hs, hs, hn⟩) ?_
  rintro r w₁ h₁ ⟨hs₁, hn₁⟩
  split
  · refine ensures_ok h₁ ⟨hs₁, ?_⟩
    rw [hn₁, answers, List.filterMap_append]
    rfl
  · have ha₁ : answers w₁.net = answers w.net := by
      rw [hn₁, answers, List.filterMap_append]
      simp [answer, requestGet, answers]
    refine ensures_bind (P := fun _ w' => Same w w' ∧ answers w'.net = answers w.net)
      (ensures_get h₁ fun r w' hs hn => ⟨hI w' (hs₁.trans hs), hs₁.trans hs, ?_⟩) ?_
    · rw [hn, answers, List.filterMap_append, ← answers, ha₁]
      cases r <;> simp [answer]
    rintro r w₂ h₂ ⟨hs₂, ha₂⟩
    split
    · exact ensures_fail h₂
    refine ensures_bind (ensures_withContext.mpr
      (ensures_tokenFromUnauthorized fun w' hs => hI w' (hs₂.trans hs))) ?_
    rintro token w₃ h₃ ⟨hs₃, ha₃⟩
    refine ensures_bind (P := fun r w' => Same w w' ∧
        w'.net = w₃.net ++ [(requestGet ⟨(registry, token) :: client.tokens⟩
          registry path accept, r)])
      (ensures_get h₃ fun r w' hs hn =>
        ⟨hI w' ((hs₂.trans hs₃).trans hs), (hs₂.trans hs₃).trans hs, hn⟩) ?_
    rintro r w₄ h₄ ⟨hs₄, hn₄⟩
    split
    · refine ensures_ok h₄ ⟨hs₄, ?_⟩
      rw [hn₄, answers, List.filterMap_append, ← answers, ha₃, ha₂]
      rfl
    · exact ensures_fail h₄
  · exact ensures_fail h₁

theorem ensures_fetchManifestBytes {reference : Reference} {types : List Bytes}
    (hI : ∀ w', Same w w' → I w') :
    Ensures (machine env) I
      (fun r w' => Same w w' ∧ ∃ response, Carries env response reference.specifier r.1 ∧
        answers w'.net = answers w.net ++
          [⟨reference.registry, requestPath reference, acceptHeader types, response⟩])
      (client.fetchManifestBytes env reference types) w := by
  rw [fetchManifestBytes]
  refine ensures_bind (P := fun _ w' => Same w w' ∧ w'.net = w.net)
    (ensures_eprintln (hI w (.refl w)) fun w' hs hn => ⟨hI w' hs, hs, hn⟩) ?_
  rintro - w₁ h₁ ⟨hs₁, hn₁⟩
  refine ensures_bind (ensures_withContext.mpr
    (ensures_callGetWithAuthRetry fun w' hs => hI w' (hs₁.trans hs))) ?_
  rintro ⟨response, client'⟩ w₂ h₂ ⟨hs₂, ha₂⟩
  rw [hn₁] at ha₂
  dsimp only
  split
  · exact ensures_bail h₂
  rename_i value hv
  split
  · exact ensures_bail h₂
  rename_i headerDigest hd
  split
  · exact ensures_fail h₂
  refine ensures_check (F := fun _ => Verifies env.hash response.body.data headerDigest)
    (ensures_withContext.mpr (ensures_lift h₂ fun _ ha => ⟨rfl, ok_of_mapError ha⟩))
    fun _ hver => ?_
  have done (hpin : ∀ d, reference.specifier = .digest d → Verifies env.hash response.body.data d) :
      Ensures (machine env) I
        (fun r w' => Same w w' ∧ ∃ response, Carries env response reference.specifier r.1 ∧
          answers w'.net = answers w.net ++
            [⟨reference.registry, requestPath reference, acceptHeader types, response⟩])
        (ret (.ok (⟨response.body.data, headerDigest, .parseHeaders response⟩, client')) : M _)
          w₂ :=
    ensures_ok h₂ ⟨hs₁.trans hs₂, response,
      ⟨rfl, by rw [Response.claimedDigest, hv]; exact hd, rfl, hver, hpin⟩, ha₂⟩
  split
  · rename_i d hspec
    refine ensures_check (F := fun _ => Verifies env.hash response.body.data d)
      (ensures_withContext.mpr (ensures_lift h₂ fun _ ha => ⟨rfl, ok_of_mapError ha⟩))
      fun _ hd => ?_
    exact done fun d' hd' => by cases hspec.symm.trans hd'; exact hd
  · rename_i hspec
    exact done fun d' hd' => by cases hspec.symm.trans hd'

/-- An index is followed to the manifest it names for this platform. -/
theorem ensures_handleImageIndex {reference : Reference} {b : ManifestBytes}
    (hI : ∀ w', Same w w' → I w') :
    Ensures (machine env) I
      (fun r w' => Same w w' ∧ ∃ index d response b', parseIndex env b.bytes = some index ∧
        selectDescriptor env index = some d ∧ Carries env response (.digest d.digest) b' ∧
        b'.parse env = .ok r.1 ∧ answers w'.net = answers w.net ++
          [⟨reference.registry, requestPath (reference.pin d.digest), acceptManifest, response⟩])
      (client.handleImageIndex env reference b) w := by
  have h₀ := hI w (.refl w)
  rw [handleImageIndex]
  split
  · exact ensures_fail h₀
  rename_i index hindex
  split
  · exact ensures_bail h₀
  rename_i d hd
  refine ensures_bind (ensures_withContext.mpr (ensures_fetchManifestBytes hI)) ?_
  rintro ⟨b', client'⟩ w₁ h₁ ⟨hs₁, response, hr, ha⟩
  refine ensures_check (F := fun f => b'.parse env = .ok f)
    (ensures_withContext.mpr (ensures_lift h₁ fun f hf => ⟨rfl, hf⟩)) fun f hf => ?_
  exact ensures_ok h₁ ⟨hs₁, index, d, response, b', hindex, hd, hr, hf, ha⟩

/-- What `fetchImageManifest` returns is `Fetched`, by the answers it got. -/
theorem ensures_fetchImageManifest {reference : Reference} (hI : ∀ w', Same w w' → I w') :
    Ensures (machine env) I
      (fun r w' => Same w w' ∧
        ∃ l, answers w'.net = answers w.net ++ l ∧ Fetched env reference l r.1)
      (client.fetchImageManifest env reference) w := by
  rw [fetchImageManifest]
  refine ensures_bind (ensures_withContext.mpr (ensures_fetchManifestBytes hI)) ?_
  rintro ⟨b, client'⟩ w₁ h₁ ⟨hs₁, response, hr, ha⟩
  dsimp only at hr ⊢
  have index (hb : b.isFinal env = false) : Ensures (machine env) I
      (fun r w' => Same w w' ∧
        ∃ l, answers w'.net = answers w.net ++ l ∧ Fetched env reference l r.1)
      (client'.handleImageIndex env reference b) w₁ := by
    refine ensures_mono (ensures_handleImageIndex fun w' hs => hI w' (hs₁.trans hs))
      (fun _ h => h) ?_
    rintro ⟨f, _⟩ w₂ _ ⟨hs₂, index, d, response', b', hi, hd, hr', hf, ha'⟩
    refine ⟨hs₁.trans hs₂, _, ?_, .selected hr hb hi hd hr' hf⟩
    rw [ha', ha, List.append_assoc]
    rfl
  split
  · rename_i hm
    exact ensures_withContext.mpr (index (by rw [ManifestBytes.isFinal, hm]))
  · rename_i hm
    refine ensures_check (F := fun f => b.parse env = .ok f)
      (ensures_withContext.mpr (ensures_lift h₁ fun f hf => ⟨rfl, hf⟩)) fun f hf => ?_
    exact ensures_ok h₁ ⟨hs₁, _, ha, .direct hr (by rw [ManifestBytes.isFinal, hm]) hf⟩
  · rename_i hm
    refine ensures_withContext.mpr ?_
    split
    · rename_i f hf
      exact ensures_ok h₁ ⟨hs₁, _, ha, .direct hr (by rw [ManifestBytes.isFinal, hm, hf]; rfl) hf⟩
    · rename_i e he
      exact index (by rw [ManifestBytes.isFinal, hm, he]; rfl)

end Pakstak
