/-
  `fetch.rs`: fetching a manifest and its layers from a registry.

  A `RegistryClient` keeps the tokens got so far, one a registry; the functions that change
  it return the new one.
-/
import Pakstak.Auth
import Pakstak.StorageMutable

namespace Pakstak

open Posix Text

variable (env : Env)

/-! ## Media types -/

def manifestMediaTypes : List Bytes :=
  [utf8 "application/vnd.oci.image.manifest.v1+json",
   utf8 "application/vnd.docker.distribution.manifest.v2+json"]

def indexMediaTypes : List Bytes :=
  [utf8 "application/vnd.oci.image.index.v1+json",
   utf8 "application/vnd.docker.distribution.manifest.list.v2+json"]

/-- `TryFrom<&str> for LayerFormat`. -/
def LayerFormat.tryFrom (mediaType : Bytes) : Except Err LayerFormat :=
  if mediaType = utf8 "application/vnd.oci.image.layer.v1.tar+zstd" then .ok .zstd
  else if mediaType = utf8 "application/vnd.oci.image.layer.v1.tar+gzip" ∨
      mediaType = utf8 "application/vnd.docker.image.rootfs.diff.tar.gzip" then .ok .gzip
  else if mediaType = utf8 "application/vnd.oci.image.layer.v1.tar" ∨
      mediaType = utf8 "application/vnd.docker.image.rootfs.diff.tar" then .ok .tar
  else .error (.unsupportedLayerMediaType mediaType)

inductive ManifestMediaType where
  | index | manifest | unknown
  deriving DecidableEq

/-- `str::contains`. -/
def contains (s t : Bytes) : Bool := t <:+: s

def ManifestMediaType.parseHeaders (response : Response) : ManifestMediaType :=
  match (response.header "content-type").bind toStr with
  | none => .unknown
  | some mediaType =>
    if indexMediaTypes.any (contains mediaType) then .index
    else if manifestMediaTypes.any (contains mediaType) then .manifest
    else .unknown

structure ManifestBytes where
  bytes : Bytes
  digest : Bytes
  mediaType : ManifestMediaType
  deriving DecidableEq

def ManifestBytes.parse (b : ManifestBytes) : Except Err FetchedManifest :=
  match parseManifest env b.bytes with
  | none => .error (.context ⟨"parsing failed", []⟩ .json)
  | some manifest =>
    if manifest.schemaVersion ≠ 2 then
      .error (.text ⟨"unsupported image manifest schema", []⟩)
    else .ok ⟨manifest, b.bytes, b.digest⟩

/-! ## Requests -/

structure RegistryClient where
  tokens : List (Bytes × Bytes)
  deriving DecidableEq

def RegistryClient.new : RegistryClient := ⟨[]⟩

namespace RegistryClient

variable (client : RegistryClient)

def requestGet (registry path accept : Bytes) : Request :=
  .registry registry path accept
    ((client.tokens.lookup registry).map fun token => utf8 "Bearer " ++ token) true

def callGetWithAuthRetry (registry path accept : Bytes) : M (Response × RegistryClient) := do
  match ← get (client.requestGet registry path accept) with
  | .ok response => return (response, client)
  | .error (.statusCode 401) =>
    match ← get (.registry registry path accept none false) with
    | .error e =>
      .fail (.context ⟨"failed to fetch unauthorized registry response: GET {}", [path]⟩ (.http e))
    | .ok unauthorized =>
      let token ← withContext ⟨"failed to authenticate registry request: GET {}", [path]⟩
        (tokenFromUnauthorized env unauthorized)
      let client : RegistryClient := ⟨(registry, token) :: client.tokens⟩
      match ← get (client.requestGet registry path accept) with
      | .ok response => return (response, client)
      | .error e =>
        .fail (.context ⟨"authenticated registry request failed: GET {}", [path]⟩ (.http e))
  | .error e => .fail (.http e)

/-- The path of a manifest request. -/
def manifestRequestPath (repository specifier : Bytes) : Bytes :=
  utf8 "/v2/" ++ repository ++ utf8 "/manifests/" ++ specifier

/-- `join(", ")`. -/
def acceptHeader (mediaTypes : List Bytes) : Bytes := (utf8 ", ").intercalate mediaTypes

def fetchManifestBytes (reference : Reference) (acceptedMediaTypes : List Bytes) :
    M (ManifestBytes × RegistryClient) := do
  let path := manifestRequestPath reference.repository reference.specifier.asTypelessStr
  eprintln ⟨"requesting manifest {}", [reference.display]⟩
  let (response, client) ← withContext ⟨"registry request failed: GET {}", [path]⟩
    (client.callGetWithAuthRetry env reference.registry path (acceptHeader acceptedMediaTypes))
  match response.header "docker-content-digest" with
  | none => bail ⟨"registry response did not include Docker-Content-Digest header", []⟩
  | some value =>
    match toStr value with
    | none => bail ⟨"registry returned an invalid Docker-Content-Digest header", []⟩
    | some headerDigest =>
      if response.body.broken then
        .fail (.context ⟨"failed to read manifest response body from {}", [path]⟩ (.http .other))
      else
        let bytes := response.body.data
        withContext ⟨"failed to verify manifest digest {}", [headerDigest]⟩
          (.lift ((verifyBytes env.hash bytes headerDigest).mapError .digest))
        match reference.specifier with
        | .digest requestedDigest =>
          withContext ⟨"failed to verify manifest digest {}", [requestedDigest]⟩
            (.lift ((verifyBytes env.hash bytes requestedDigest).mapError .digest))
        | .tag _ => pure ()
        return (⟨bytes, headerDigest, .parseHeaders response⟩, client)

/-! ## Manifests -/

/-- The descriptor an index is read for. -/
def selectDescriptor (index : ImageIndex) : Option Descriptor :=
  (index.manifests.find? (Descriptor.matchesCurrentPlatform env.target)).or
    index.manifests.head?

/-- `serde_json::from_slice::<ImageIndex>`. -/
def parseIndex (bytes : Bytes) : Option ImageIndex :=
  (env.fromSlice bytes).bind ImageIndex.deserialize

def handleImageIndex (reference : Reference) (fetched : ManifestBytes) :
    M (FetchedManifest × RegistryClient) := do
  match parseIndex env fetched.bytes with
  | none => .fail (.context ⟨"failed to parse manifest index", []⟩ .json)
  | some index =>
    match selectDescriptor env index with
    | none => bail ⟨"manifest index does not contain any manifests", []⟩
    | some descriptor =>
      let manifestReference := { reference with specifier := .digest descriptor.digest }
      let (selected, client) ← withContext
        ⟨"failed to fetch selected manifest {}", [descriptor.digest]⟩
        (client.fetchManifestBytes env manifestReference manifestMediaTypes)
      let manifest ← withContext ⟨"failed to parse selected manifest {}", [descriptor.digest]⟩
        (.lift (selected.parse env))
      return (manifest, client)

def fetchImageManifest (reference : Reference) : M (FetchedManifest × RegistryClient) := do
  let (fetched, client) ← withContext ⟨"failed to fetch manifest bytes", []⟩
    (client.fetchManifestBytes env reference (indexMediaTypes ++ manifestMediaTypes))
  match fetched.mediaType with
  | .index =>
    withContext ⟨"failed to handle image index", []⟩ (client.handleImageIndex env reference fetched)
  | .manifest =>
    let manifest ← withContext ⟨"failed to parse manifest", []⟩ (.lift (fetched.parse env))
    return (manifest, client)
  | .unknown =>
    withContext ⟨"failed to parse as manifest and failed to handle as index", []⟩
      (match fetched.parse env with
      | .ok manifest => return (manifest, client)
      | .error _ => client.handleImageIndex env reference fetched)

/-! ## Layers -/

def fetchBlobReader (reference : Reference) (accept : Bytes) (expectedSize : Nat) :
    M (Body × RegistryClient) := do
  let digest := reference.specifier.asTypelessStr
  let path := utf8 "/v2/" ++ reference.repository ++ utf8 "/blobs/" ++ digest
  eprintln ⟨"requesting layer {} ({} bytes) from {}",
    [digest, utf8 (toString expectedSize), reference.registry]⟩
  let (response, client) ← withContext ⟨"registry request failed: GET {}", [path]⟩
    (client.callGetWithAuthRetry env reference.registry path accept)
  return (response.body, client)

variable (st : Storage)

def fetchLayer (reference : Reference) (client : RegistryClient) (layer : Descriptor) :
    M RegistryClient := do
  let layerFormat ← withContext ⟨"for manifest layer {}", [layer.digest]⟩
    (.lift (LayerFormat.tryFrom layer.mediaType))
  if (← st.getLayerPath layer.digest).isSome then
    eprintln ⟨"layer {} already extracted", [layer.digest]⟩
    return client
  else
    let layerReference := { reference with specifier := .digest layer.digest }
    let (reader, client) ← withContext ⟨"failed to fetch layer {}", [layer.digest]⟩
      (client.fetchBlobReader env layerReference layer.mediaType layer.size)
    withContext ⟨"failed to fetch and extract layer {}", [layer.digest]⟩
      (st.writeLayer env layer.digest layerFormat reader)
    eprintln ⟨"extracted {}", [layer.digest]⟩
    return client

def fetchLayers (reference : Reference) (fetched : FetchedManifest) : M RegistryClient := do
  eprintln ⟨"manifest {} has {} layers",
    [fetched.digest, utf8 (toString fetched.manifest.layers.length)]⟩
  Prog.fold (fetchLayer env st reference) client fetched.manifest.layers

def fetchImage (reference : Reference) (repair : Bool) :
    M (FetchedManifest × RegistryClient) := do
  let (fetched, client) ← withContext
    ⟨"failed to fetch manifest for {}", [reference.display]⟩
    (client.fetchImageManifest env reference)
  let isManifestSaved ← withContext ⟨"failed to verify manifest for {}", [fetched.digest]⟩
    (st.isManifestSaved env fetched.digest repair)
  if isManifestSaved ∧ ¬ repair then
    eprintln ⟨"manifest {} is already installed", [fetched.digest]⟩
    return (fetched, client)
  else
    let client ← withContext ⟨"failed to fetch layers for manifest {}", [fetched.digest]⟩
      (client.fetchLayers env st reference fetched)
    if ¬ isManifestSaved then st.writeManifest fetched.digest fetched.bytes
    return (fetched, client)

end RegistryClient

end Pakstak
