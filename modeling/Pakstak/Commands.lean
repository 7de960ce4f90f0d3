/-
  `install.rs`, `uninstall.rs`, `update.rs`, `switch.rs`, `repair.rs`: the commands that
  work on installed containers.
-/
import Pakstak.Fetch

namespace Pakstak

open Posix Text

variable (env : Env) (st : Storage)

/-! ## Install -/

def isAsciiAlphanumeric (b : UInt8) : Bool :=
  (48 ≤ b && b ≤ 57) || (65 ≤ b && b ≤ 90) || (97 ≤ b && b ≤ 122)

def containerNameByte (b : UInt8) : Bool :=
  isAsciiAlphanumeric b || b == 46 || b == 95 || b == 45

def validateContainerName (container : Bytes) : Except Err Unit :=
  if container = [] then .error (.text ⟨"container name cannot be empty", []⟩)
  else if container = dot ∨ container = dotdot then
    .error (.text ⟨"container name `{}` is not allowed", [container]⟩)
  else if ¬ container.all containerNameByte then
    .error (.text ⟨"container name `{}` contains invalid characters; use only ASCII letters, numbers, dots, underscores, and dashes",
      [container]⟩)
  else if ¬ container.head?.any isAsciiAlphanumeric then
    .error (.text ⟨"container name `{}` must start with an ASCII letter or number", [container]⟩)
  else .ok ()

def install (container image : Bytes) : M Unit := do
  .lift (validateContainerName container)
  if ← st.isContainerTaken container then
    bail ⟨"container `{}` already exists", [container]⟩
  else
    let reference ← withContext ⟨"failed to parse image reference `{}`", [image]⟩
      (.lift ((Reference.parse image).mapError .reference))
    let (fetched, _) ← RegistryClient.new.fetchImage env st reference false
    withContext ⟨"failed to publish container `{}`", [container]⟩
      (st.writeContainer env container fetched.digest reference)
    eprintln ⟨"installed {} as {} with manifest {}", [image, container, fetched.digest]⟩

/-! ## Uninstall -/

def uninstall (container : Bytes) : M Unit := do
  withContext ⟨"failed to uninstall container `{}`", [container]⟩
    (st.removeContainer env container)
  eprintln ⟨"uninstalled {}", [container]⟩

/-! ## Update -/

/-- The names of a directory iterator, read to its end. -/
def Iter.collect (it : Iter Bytes) (m : Msg) : M (List Bytes) :=
  it.tryFold m [] fun names name => return names ++ [name]

/-- One turn of the loop. -/
def updateContainer (client : RegistryClient) (container : Bytes) : M RegistryClient := do
  st.ensureContainerInstalled container
  let reference ← st.readContainerReference env container
  let (fetched, client) ← withContext
    ⟨"failed to update container `{}` from {}", [container, reference.display]⟩
    (client.fetchImage env st reference false)
  let currentManifest ← st.readContainerManifestDigest container
  if currentManifest = fetched.digest then
    eprintln ⟨"{} is already up to date at {}", [container, fetched.digest]⟩
    return client
  else
    withContext ⟨"failed to publish updated manifest for container `{}`", [container]⟩
      (st.writeContainerManifestDigest container fetched.digest)
    eprintln ⟨"updated {} from {} to {}", [container, currentManifest, fetched.digest]⟩
    return client

def update (containers : List Bytes) : M Unit := do
  let containers ←
    if containers = [] then
      (← st.readContainers).collect ⟨"failed to read installed container name", []⟩
    else pure containers
  let _ ← Prog.fold (updateContainer env st) RegistryClient.new (← hashOrder containers)

/-! ## Switch -/

def switch (container digest : Bytes) : M Unit := do
  st.ensureContainerInstalled container
  let reference ← withContext ⟨"failed to read reference for container `{}`", [container]⟩
    (st.readContainerReference env container)
  let reference := { reference with specifier := .digest digest }
  let _ ← withContext ⟨"failed to fetch manifest {} for container `{}`", [digest, container]⟩
    (RegistryClient.new.fetchImage env st reference false)
  withContext ⟨"failed to publish switched manifest for container `{}`", [container]⟩
    (st.writeContainerManifestDigest container digest)
  eprintln ⟨"switched {} to {}", [container, digest]⟩

/-! ## Repair -/

/-- One turn of the first loop. -/
def repairContainer (client : RegistryClient) (container : Bytes) : M RegistryClient := do
  let manifestDigest ← withContext
    ⟨"failed to read manifest digest for container `{}`", [container]⟩
    (st.readContainerManifestDigest container)
  let reference ← withContext ⟨"failed to read reference for container `{}`", [container]⟩
    (st.readContainerReference env container)
  let reference := { reference with specifier := .digest manifestDigest }
  let (_, client) ← withContext
    ⟨"failed to repair container `{}` from {}", [container, reference.display]⟩
    (client.fetchImage env st reference true)
  return client

/-- The number of layers in the list that are no directory. -/
def countMissing (manifestDigest : Bytes) (missing : Nat) (layer : Descriptor) : M Nat := do
  if (← st.getLayerPath layer.digest).isSome then return missing
  else
    eprintln ⟨"manifest {} references missing layer {}", [manifestDigest, layer.digest]⟩
    return missing + 1

/-- One turn of the second loop, on the counts of invalid manifests and missing layers. -/
def checkManifest (counts : Nat × Nat) (manifestDigest : Bytes) : M (Nat × Nat) := do
  let bytes ← withContext ⟨"failed to check manifest {}", [manifestDigest]⟩
    (st.readManifestBytes manifestDigest)
  match verifyBytes env.hash bytes manifestDigest with
  | .error error =>
    eprintError ⟨"manifest {} failed verification: {}", [manifestDigest]⟩ (.digest error)
    return (counts.1 + 1, counts.2)
  | .ok () =>
    match parseManifest env bytes with
    | none =>
      eprintError ⟨"manifest {} failed parsing: {}", [manifestDigest]⟩ .json
      return (counts.1 + 1, counts.2)
    | some manifest =>
      let missing ← Prog.fold (countMissing st manifestDigest) counts.2 manifest.layers
      return (counts.1, missing)

def repair : M Unit := do
  let containers ← st.readContainers
  let _ ← containers.tryFold ⟨"failed to read installed container name", []⟩
    RegistryClient.new (repairContainer env st)
  let manifests ← st.readManifestDigests
  let counts ← manifests.tryFold ⟨"failed to read cached manifest digest", []⟩ (0, 0)
    (checkManifest env st)
  if 0 < counts.1 ∨ 0 < counts.2 then
    bail ⟨"repair check found: {} unused invalid manifests, {} unused missing layers; to prune unused manifests and layers use `prune` command",
      [utf8 (toString counts.1), utf8 (toString counts.2)]⟩
  else eprintln ⟨"repair completed", []⟩

end Pakstak
