/-
  What a client may trust: digests of fetched manifests, and references pinned to one.

  Proved:
  * `fetchImageManifest_verified`: whatever a registry answers, the manifest fetched is the
    parse of bytes that pass the check under the digest claimed for them; from a reference
    pinned to `d` an unbroken chain of checked digests leads to them.
  * `pinned_manifest_unique`: two registries that serve the same documents give the same
    manifest for a pinned reference, whatever types they claim, unless the document reads
    both as a manifest and as an index. For one that does, the type claimed decides
    (`contentType_selects`).
-/
import Pakstak.Registry
import Pakstak.Replay

namespace Pakstak

open Posix Prog RegistryClient

variable {env : Env}

/-! ## The chain of digests -/

theorem parse_eq_ok_iff {b : ManifestBytes} {f : FetchedManifest} :
    b.parse env = .ok f ↔ parseManifest env b.bytes = some f.manifest ∧
      f.manifest.schemaVersion = 2 ∧ f.bytes = b.bytes ∧ f.digest = b.digest := by
  obtain ⟨manifest, bytes, digest⟩ := f
  rw [ManifestBytes.parse]
  cases parseManifest env b.bytes with
  | none => simp
  | some m =>
    by_cases hm : m.schemaVersion = 2
    · simp only [hm, ne_eq, not_true_eq_false, if_false, Except.ok.injEq,
        FetchedManifest.mk.injEq, Option.some.injEq]
      constructor
      · rintro ⟨rfl, rfl, rfl⟩
        exact ⟨rfl, hm, rfl, rfl⟩
      · rintro ⟨rfl, -, rfl, rfl⟩
        exact ⟨rfl, rfl, rfl⟩
    · simp only [hm, ne_eq, not_false_eq_true, if_true, reduceCtorEq, Option.some.injEq, false_iff]
      rintro ⟨rfl, h, -⟩
      exact hm h

theorem mem_of_selectDescriptor {index : ImageIndex} {d : Descriptor}
    (h : selectDescriptor env index = some d) : d ∈ index.manifests := by
  rw [selectDescriptor, Option.or_eq_some_iff] at h
  rcases h with h | ⟨-, h⟩
  · exact List.mem_of_find?_eq_some h
  · exact List.mem_of_head? h

/-- `bytes` pass the check under `d`, or under a digest that an index under `d` lists. -/
def ChainedTo (env : Env) (d bytes : Bytes) : Prop :=
  Verifies env.hash bytes d ∨
    ∃ doc index descriptor, Verifies env.hash doc d ∧ parseIndex env doc = some index ∧
      descriptor ∈ index.manifests ∧ Verifies env.hash bytes descriptor.digest

theorem Fetched.chained {reference : Reference} {l : List Answer} {f : FetchedManifest}
    (h : Fetched env reference l f) {d : Bytes} (hd : reference.specifier = .digest d) :
    ChainedTo env d f.bytes := by
  cases h with
  | direct hr hb hf =>
    obtain ⟨-, -, hbytes, -⟩ := parse_eq_ok_iff.mp hf
    rw [hbytes]
    exact .inl (hr.pinned d hd)
  | selected hr hb hi hs hr' hf =>
    obtain ⟨-, -, hbytes, -⟩ := parse_eq_ok_iff.mp hf
    rw [hbytes]
    exact .inr ⟨_, _, _, hr.pinned d hd, hi, mem_of_selectDescriptor hs, hr'.pinned _ rfl⟩

theorem Fetched.parsed {reference : Reference} {l : List Answer} {f : FetchedManifest}
    (h : Fetched env reference l f) :
    parseManifest env f.bytes = some f.manifest ∧ f.manifest.schemaVersion = 2 ∧
      Verifies env.hash f.bytes f.digest := by
  cases h with
  | direct hr hb hf =>
    obtain ⟨hm, hv, hbytes, hdigest⟩ := parse_eq_ok_iff.mp hf
    rw [hbytes, hdigest]
    exact ⟨hm, hv, hr.verified⟩
  | selected hr hb hi hs hr' hf =>
    obtain ⟨hm, hv, hbytes, hdigest⟩ := parse_eq_ok_iff.mp hf
    rw [hbytes, hdigest]
    exact ⟨hm, hv, hr'.verified⟩

/-- What an execution of `fetchImageManifest` returns is `Fetched`. -/
theorem fetched_of_exec {client client' : RegistryClient} {reference : Reference} {w w' : World}
    {f : FetchedManifest}
    (h : Exec (machine env) (client.fetchImageManifest env reference) w
      (some (.ok (f, client'))) w') :
    ∃ l, answers w'.net = answers w.net ++ l ∧ Fetched env reference l f :=
  ((ensures_exec (ensures_fetchImageManifest (I := fun _ => True) fun _ _ => trivial) h).2 _ rfl).2

/-- No registry can make the client take a manifest that its digests do not vouch for. -/
theorem fetchImageManifest_verified {client client' : RegistryClient} {reference : Reference}
    {w w' : World} {f : FetchedManifest}
    (h : Exec (machine env) (client.fetchImageManifest env reference) w
      (some (.ok (f, client'))) w') :
    parseManifest env f.bytes = some f.manifest ∧ f.manifest.schemaVersion = 2 ∧
      Verifies env.hash f.bytes f.digest ∧
      ∀ d, reference.specifier = .digest d → ChainedTo env d f.bytes := by
  obtain ⟨l, -, hf⟩ := fetched_of_exec h
  obtain ⟨hm, hv, hver⟩ := hf.parsed
  exact ⟨hm, hv, hver, fun d hd => hf.chained hd⟩

/-! ## Two registries -/

/-- Every answer for a digest of the repository carries the document `doc` has for it. -/
def Serves (doc : Bytes → Bytes) (repository : Bytes)
    (net : List (Request × Except HttpError Response)) : Prop :=
  ∀ a ∈ answers net, ∀ d, a.path = manifestRequestPath repository d → a.response.body.data = doc d

theorem serves_iff {doc : Bytes → Bytes} {repository : Bytes}
    {net : List (Request × Except HttpError Response)} :
    Serves doc repository net ↔ ∀ a ∈ answers net, manifestRequestPath repository [] <+: a.path →
      a.response.body.data = doc (a.path.drop (manifestRequestPath repository []).length) := by
  have split (d : Bytes) :
      manifestRequestPath repository d = manifestRequestPath repository [] ++ d := by
    simp [manifestRequestPath]
  constructor
  · rintro h a ha ⟨d, hd⟩
    rw [h a ha d (by rw [split, hd]), ← hd, List.drop_left]
  · intro h a ha d hd
    rw [split] at hd
    rw [h a ha ⟨d, hd.symm⟩, hd, List.drop_left]

instance (doc : Bytes → Bytes) (repository : Bytes)
    (net : List (Request × Except HttpError Response)) :
    Decidable (Serves doc repository net) :=
  decidable_of_iff _ serves_iff.symm

/-- A response without its type. -/
def Response.untyped (r : Response) : Response :=
  { r with headers := r.headers.filter fun h => h.1 ≠ utf8 "content-type" }

/-- A document that reads both as an image manifest and as an index. -/
def Ambiguous (env : Env) (b : Bytes) : Prop :=
  (∃ m, parseManifest env b = some m ∧ m.schemaVersion = 2) ∧
    ∃ index d, parseIndex env b = some index ∧ selectDescriptor env index = some d

theorem Fetched.bytes_eq {doc : Bytes → Bytes} {reference : Reference} {d : Bytes}
    {l : List Answer} {f : FetchedManifest} (h : Fetched env reference l f)
    (hd : reference.specifier = .digest d)
    (hs : ∀ a ∈ l, ∀ d, a.path = manifestRequestPath reference.repository d →
      a.response.body.data = doc d) :
    (f.bytes = doc d ∧ ∃ m, parseManifest env (doc d) = some m ∧ m.schemaVersion = 2) ∨
      ∃ index s, parseIndex env (doc d) = some index ∧ selectDescriptor env index = some s ∧
        f.bytes = doc s.digest := by
  have hpath : requestPath reference = manifestRequestPath reference.repository d := by
    rw [requestPath, hd]
    rfl
  cases h with
  | direct hr hb hf =>
    obtain ⟨hm, hv, hbytes, -⟩ := parse_eq_ok_iff.mp hf
    have hdoc := hr.bytes.symm.trans (hs _ List.mem_cons_self d hpath)
    rw [hdoc] at hm
    exact .inl ⟨hbytes.trans hdoc, _, hm, hv⟩
  | selected hr hb hi hsel hr' hf =>
    obtain ⟨-, -, hbytes, -⟩ := parse_eq_ok_iff.mp hf
    have hdoc := hr.bytes.symm.trans (hs _ List.mem_cons_self d hpath)
    have hdoc' := hr'.bytes.symm.trans (hs _ (List.mem_cons_of_mem _ List.mem_cons_self) _ rfl)
    rw [hdoc] at hi
    exact .inr ⟨_, _, hi, hsel, hbytes.trans hdoc'⟩

/-- A pinned digest determines the manifest, unless its document reads as both kinds. -/
theorem pinned_manifest_unique {doc : Bytes → Bytes} {reference : Reference} {d : Bytes}
    {client₁ client₂ client₁' client₂' : RegistryClient} {w₁ w₂ w₁' w₂' : World}
    {f₁ f₂ : FetchedManifest} (hd : reference.specifier = .digest d)
    (hdoc : ¬ Ambiguous env (doc d))
    (hs₁ : Serves doc reference.repository w₁'.net) (hs₂ : Serves doc reference.repository w₂'.net)
    (h₁ : Exec (machine env) (client₁.fetchImageManifest env reference) w₁
      (some (.ok (f₁, client₁'))) w₁')
    (h₂ : Exec (machine env) (client₂.fetchImageManifest env reference) w₂
      (some (.ok (f₂, client₂'))) w₂') :
    f₁.bytes = f₂.bytes ∧ f₁.manifest.layers = f₂.manifest.layers := by
  obtain ⟨l₁, hl₁, hf₁⟩ := fetched_of_exec h₁
  obtain ⟨l₂, hl₂, hf₂⟩ := fetched_of_exec h₂
  have key₁ := hf₁.bytes_eq hd fun a ha => hs₁ a (by rw [hl₁]; exact List.mem_append_right _ ha)
  have key₂ := hf₂.bytes_eq hd fun a ha => hs₂ a (by rw [hl₂]; exact List.mem_append_right _ ha)
  have hbytes : f₁.bytes = f₂.bytes := by
    rcases key₁ with ⟨hb₁, hm₁⟩ | ⟨i₁, s₁, hi₁, hsel₁, hb₁⟩ <;>
      rcases key₂ with ⟨hb₂, hm₂⟩ | ⟨i₂, s₂, hi₂, hsel₂, hb₂⟩
    · exact hb₁.trans hb₂.symm
    · exact absurd ⟨hm₁, i₂, s₂, hi₂, hsel₂⟩ hdoc
    · exact absurd ⟨hm₂, i₁, s₁, hi₁, hsel₁⟩ hdoc
    · rw [hi₁, Option.some.injEq] at hi₂
      subst hi₂
      rw [hsel₁, Option.some.injEq] at hsel₂
      subst hsel₂
      exact hb₁.trans hb₂.symm
  refine ⟨hbytes, ?_⟩
  have hm₁ := hf₁.parsed.1
  rw [hbytes, hf₂.parsed.1, Option.some.injEq] at hm₁
  rw [hm₁]

/-! ## What a script lets be received -/

namespace Script

variable {script : Script}

theorem net_change (w : World) (o : Op) (a : Except Errno Node) :
    (script.change w o a).2.net = w.net := by
  rw [change]
  split
  · rfl
  · cases a <;> rfl

/-- What holds of all that the registry sends holds of all that is received. -/
theorem answers_reply {P : Response → Prop}
    (hP : ∀ request response, script.registry request = .ok response → P response) (o : Op)
    (w : World) (h : ∀ a ∈ answers w.net, P a.response) :
    ∀ a ∈ answers (script.reply env o w).2.net, P a.response := by
  cases o with
  | get request =>
    intro a ha
    rw [reply, answers, List.filterMap_append, List.mem_append, ← answers] at ha
    refine ha.elim (h a) fun ha => ?_
    obtain ⟨e, he, hanswer⟩ := List.mem_filterMap.mp ha
    obtain rfl := List.mem_singleton.mp he
    unfold answer at hanswer
    split at hanswer
    · rename_i heq
      obtain ⟨-, hr⟩ := Prod.mk.inj heq
      cases hanswer
      exact hP _ _ hr
    · cases hanswer
  | mkdir p => rwa [reply, net_change]
  | write p data => rwa [reply, net_change]
  | rename p q => rwa [reply, net_change]
  | removeFile p => rwa [reply, net_change]
  | removeDirAll p => rwa [reply, net_change]
  | setPermissions p mode => rwa [reply, net_change]
  | openCreate p => rwa [reply, net_change]
  | createNew p => rwa [reply, net_change]
  | setXattr p name value => rwa [reply, net_change]
  | unpack format body p => rwa [reply, net_change]
  | _ => exact h

end Script

/-- What a registry of pages sends is one of them. -/
theorem mem_of_registryOf {pages : List (Bytes × Response)} {request : Request}
    {response : Response} (h : registryOf pages request = .ok response) :
    ∃ path, (path, response) ∈ pages := by
  cases request with
  | token realm query => cases h
  | registry registry path accept authorization strict =>
    rw [registryOf] at h
    cases hp : pages.lookup path with
    | none =>
      rw [hp] at h
      cases h
    | some r =>
      rw [hp] at h
      cases h
      obtain ⟨before, after, hpages, -⟩ := List.lookup_eq_some_iff.mp hp
      exact ⟨path, by simp [hpages]⟩

/-! ## A document of both kinds -/

/-- `{"schemaVersion":2,"layers":[]}`. -/
def emptyManifest : Document where
  text := utf8 "\x7b\"schemaVersion\":2,\"layers\":[]\x7d"
  sha256 := fromHex "6ece6defe7067e1c5455a7720c1189ad30f7f8efe78587bd7c06e64a80fe7770"
  json := some (.obj [(utf8 "schemaVersion", .int 2), (utf8 "layers", .arr [])])

def emptyManifestDigest : Bytes :=
  utf8 "sha256:6ece6defe7067e1c5455a7720c1189ad30f7f8efe78587bd7c06e64a80fe7770"

/-- An empty manifest that also lists `emptyManifest` as the one manifest of an index. -/
def manifestAndIndex : Document where
  text := utf8 "\x7b\"schemaVersion\":2,\"layers\":[],\"manifests\":[\x7b\"mediaType\":\"" ++
    utf8 "application/vnd.oci.image.manifest.v1+json\",\"digest\":\"" ++ emptyManifestDigest ++
    utf8 "\",\"size\":31\x7d]\x7d"
  sha256 := fromHex "f1820501ce22e53992e688d94285428769f1bf1a550e897b3e162ff8bd5a85d5"
  json := some (.obj
    [(utf8 "schemaVersion", .int 2), (utf8 "layers", .arr []),
      (utf8 "manifests", .arr [.obj
        [(utf8 "mediaType", .str (utf8 "application/vnd.oci.image.manifest.v1+json")),
          (utf8 "digest", .str emptyManifestDigest), (utf8 "size", .int 31)]])])

def manifestAndIndexDigest : Bytes :=
  utf8 "sha256:f1820501ce22e53992e688d94285428769f1bf1a550e897b3e162ff8bd5a85d5"

namespace TwoKinds

def twoDocuments : Env := smallEnv [emptyManifest, manifestAndIndex]

instance : StatAnswers twoDocuments := ⟨fun _ _ h => h⟩

/-- `r.io/a` pinned to a digest. -/
def reference (digest : Bytes) : Reference := ⟨utf8 "r.io", utf8 "a", .digest digest⟩

def doc (digest : Bytes) : Bytes :=
  if digest = emptyManifestDigest then emptyManifest.text
  else if digest = manifestAndIndexDigest then manifestAndIndex.text
  else []

/-- The registry that has both documents, and claims one type for all it serves. -/
def registry (mediaType : Bytes) : Request → Except HttpError Response :=
  registryOf ([emptyManifestDigest, manifestAndIndexDigest].map fun digest =>
    (requestPath (reference digest), okResponse mediaType digest (doc digest)))

/-- The run of a client that has no tokens yet. -/
def fetch (digest mediaType : Bytes) :
    Option (Except Err (FetchedManifest × RegistryClient)) × World :=
  Script.replay twoDocuments ⟨registry mediaType, fun _ => false⟩
    (RegistryClient.new.fetchImageManifest twoDocuments (reference digest))
      ⟨.dir newDir [], [], [], []⟩

def manifestType : Bytes := utf8 "application/vnd.oci.image.manifest.v1+json"

def indexType : Bytes := utf8 "application/vnd.oci.image.index.v1+json"

/-- The empty manifest as fetched. -/
def fetchedEmpty : FetchedManifest := ⟨⟨2, []⟩, emptyManifest.text, emptyManifestDigest⟩

theorem exec_fetch (digest mediaType : Bytes) :
    Exec (machine twoDocuments)
      (RegistryClient.new.fetchImageManifest twoDocuments (reference digest))
      ⟨.dir newDir [], [], [], []⟩ (fetch digest mediaType).1 (fetch digest mediaType).2 :=
  Script.exec_replay twoDocuments _ _ _

end TwoKinds

open TwoKinds

theorem fetchImageManifest_verified_empty :
    ChainedTo twoDocuments emptyManifestDigest fetchedEmpty.bytes := by
  have h : (fetch emptyManifestDigest manifestType).1 = some (.ok (fetchedEmpty, .new)) := by
    decide +kernel
  exact (fetchImageManifest_verified (exec_of_fst_eq (exec_fetch _ _) h)).2.2.2 _ rfl

/-- A registry that claims a type and one that claims none give the same manifest. -/
theorem pinned_manifest_unique_empty :
    ∃ f₁ f₂, (fetch emptyManifestDigest manifestType).1 = some (.ok (f₁, .new)) ∧
      (fetch emptyManifestDigest []).1 = some (.ok (f₂, .new)) ∧ f₁.bytes = f₂.bytes := by
  have h₁ : (fetch emptyManifestDigest manifestType).1 = some (.ok (fetchedEmpty, .new)) := by
    decide +kernel
  have h₂ : (fetch emptyManifestDigest []).1 = some (.ok (fetchedEmpty, .new)) := by
    decide +kernel
  have hdoc : ¬ Ambiguous twoDocuments (doc emptyManifestDigest) := by
    rintro ⟨-, index, d, hi, -⟩
    have : parseIndex twoDocuments (doc emptyManifestDigest) = none := rfl
    rw [this] at hi
    cases hi
  have hs₁ : Serves doc (utf8 "a") (fetch emptyManifestDigest manifestType).2.net := by
    decide +kernel
  have hs₂ : Serves doc (utf8 "a") (fetch emptyManifestDigest []).2.net := by decide +kernel
  exact ⟨fetchedEmpty, fetchedEmpty, h₁, h₂, (pinned_manifest_unique rfl hdoc hs₁ hs₂
    (exec_of_fst_eq (exec_fetch _ _) h₁) (exec_of_fst_eq (exec_fetch _ _) h₂)).1⟩

/-- Two registries differ in nothing but the types they claim. -/
def DifferInType (R R' : Request → Except HttpError Response) : Prop :=
  ∀ request, (R request).map Response.untyped = (R' request).map Response.untyped

theorem untyped_okResponse (t t' digest data : Bytes) :
    (okResponse t digest data).untyped = (okResponse t' digest data).untyped := by
  simp [Response.untyped, okResponse, List.filter_cons]

theorem differInType_registry (t t' : Bytes) : DifferInType (registry t) (registry t') := by
  intro request
  cases request with
  | token realm query => rfl
  | registry name path accept authorization asError =>
    simp only [registry, registryOf, List.map_cons, List.map_nil, List.lookup_cons]
    cases path == requestPath (reference emptyManifestDigest) with
    | true => exact congrArg Except.ok (untyped_okResponse _ _ _ _)
    | false =>
      cases path == requestPath (reference manifestAndIndexDigest) with
      | true => exact congrArg Except.ok (untyped_okResponse _ _ _ _)
      | false => rfl

/-- Under one digest the two registries serve one document, and only the type they claim for
    it makes the client return different manifests. -/
theorem contentType_selects :
    DifferInType (registry manifestType) (registry indexType) ∧
      Serves doc (utf8 "a") (fetch manifestAndIndexDigest manifestType).2.net ∧
      Serves doc (utf8 "a") (fetch manifestAndIndexDigest indexType).2.net ∧
      Verifies twoDocuments.hash (doc manifestAndIndexDigest) manifestAndIndexDigest ∧
      ∃ f₁ f₂,
        Exec (machine twoDocuments) (RegistryClient.new.fetchImageManifest twoDocuments
            (reference manifestAndIndexDigest)) ⟨.dir newDir [], [], [], []⟩
          (some (.ok (f₁, .new))) (fetch manifestAndIndexDigest manifestType).2 ∧
        Exec (machine twoDocuments) (RegistryClient.new.fetchImageManifest twoDocuments
            (reference manifestAndIndexDigest)) ⟨.dir newDir [], [], [], []⟩
          (some (.ok (f₂, .new))) (fetch manifestAndIndexDigest indexType).2 ∧
        f₁.bytes ≠ f₂.bytes :=
  ⟨differInType_registry _ _, by decide +kernel, by decide +kernel, by decide +kernel,
    ⟨⟨2, []⟩, manifestAndIndex.text, manifestAndIndexDigest⟩, fetchedEmpty,
    exec_of_fst_eq (exec_fetch _ _) (by decide +kernel),
    exec_of_fst_eq (exec_fetch _ _) (by decide +kernel), by decide +kernel⟩

/-! ## An image of two layers -/

namespace TwoLayers

/-- An archive of no bytes. Unpacking it leaves a tree as it is. -/
def first : Document where
  text := []
  sha256 := fromHex "e3b0c44298fc1c149afbf4c8996fb92427ae41e4649b934ca495991b7852b855"
  json := none

def firstDigest : Bytes :=
  utf8 "sha256:e3b0c44298fc1c149afbf4c8996fb92427ae41e4649b934ca495991b7852b855"

/-- The end of an archive, alone. Unpacking it leaves a tree as it is too. -/
def second : Document where
  text := List.replicate 1024 0
  sha256 := fromHex "5f70bf18a086007016e948b04aed3b82103a36bea41755b6cddfaf10ace3c6ef"
  json := none

def secondDigest : Bytes :=
  utf8 "sha256:5f70bf18a086007016e948b04aed3b82103a36bea41755b6cddfaf10ace3c6ef"

def layerType : Bytes := utf8 "application/vnd.oci.image.layer.v1.tar"

def descriptorText (digest size : Bytes) : Bytes :=
  utf8 "\x7b\"mediaType\":\"" ++ layerType ++ utf8 "\",\"digest\":\"" ++ digest ++
    utf8 "\",\"size\":" ++ size ++ utf8 "\x7d"

def descriptorJson (digest : Bytes) (size : Nat) : Json :=
  .obj [(utf8 "mediaType", .str layerType), (utf8 "digest", .str digest), (utf8 "size", .int size)]

def manifest : Document where
  text := utf8 "\x7b\"schemaVersion\":2,\"layers\":[" ++ descriptorText firstDigest (utf8 "0") ++
    utf8 "," ++ descriptorText secondDigest (utf8 "1024") ++ utf8 "]\x7d"
  sha256 := fromHex "3537d932bd83cacfb82ffebf0abf8b38a8d94423032e394dd8fa0cb64fa477e9"
  json := some (.obj [(utf8 "schemaVersion", .int 2), (utf8 "layers",
    .arr [descriptorJson firstDigest 0, descriptorJson secondDigest 1024])])

def manifestDigest : Bytes :=
  utf8 "sha256:3537d932bd83cacfb82ffebf0abf8b38a8d94423032e394dd8fa0cb64fa477e9"

def imageManifest : ImageManifest :=
  ⟨2, [⟨firstDigest, layerType, 0, none⟩, ⟨secondDigest, layerType, 1024, none⟩]⟩

/-- What the image is installed by. -/
def image : Bytes := utf8 "r.io/a@" ++ manifestDigest

/-- Its reference, as it is stored too. -/
def reference : Reference := TwoKinds.reference manifestDigest

def twoLayers : Env := smallEnv [first, second, manifest, emptyManifest,
  ⟨prettyReference reference.serialize, [], some reference.serialize⟩]

instance : StatAnswers twoLayers := ⟨fun _ _ h => h⟩

def blobPath (digest : Bytes) : Bytes := utf8 "/v2/a/blobs/" ++ digest

/-- A registry that has the image, and delivers `data` for its second layer. -/
def script (data : Bytes) : Script where
  registry := registryOf [(requestPath reference,
      okResponse TwoKinds.manifestType manifestDigest manifest.text),
    (blobPath firstDigest, okResponse layerType firstDigest first.text),
    (blobPath secondDigest, okResponse layerType secondDigest data)]
  fails _ := false

theorem data_of_sent {data : Bytes} {request : Request} {response : Response}
    (h : (script data).registry request = .ok response) :
    response.body.data ∈ [manifest.text, first.text, data] := by
  obtain ⟨path, hmem⟩ := mem_of_registryOf h
  simp only [List.mem_cons, Prod.mk.injEq, List.not_mem_nil, or_false] at hmem
  rcases hmem with ⟨-, rfl⟩ | ⟨-, rfl⟩ | ⟨-, rfl⟩
  · exact List.mem_cons_self
  · exact List.mem_cons_of_mem _ List.mem_cons_self
  · exact List.mem_cons_of_mem _ (List.mem_cons_of_mem _ List.mem_cons_self)

end TwoLayers

end Pakstak
