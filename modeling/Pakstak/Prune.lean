/-
  `prune.rs`: removing manifests and layers that no installed container uses.
-/
import Pakstak.Commands

namespace Pakstak

open Posix Text

variable (env : Env) (st : Storage)

def readUsedManifests : M (List Bytes) := do
  let containers ← st.readContainers
  containers.tryFold ⟨"failed to read installed container name", []⟩ []
    fun used container => do
      let digest ← withContext
        ⟨"failed to read manifest digest for container `{}`", [container]⟩
        (st.readContainerManifestDigest container)
      return used ++ [digest]

def readUsedLayers (usedManifests : List Bytes) : M (List Bytes) := do
  Prog.fold (fun used manifestDigest => do
    let manifest ← withContext ⟨"failed to read used manifest {}", [manifestDigest]⟩
      (st.readManifest env manifestDigest)
    return used ++ manifest.layers.map Descriptor.digest) [] (← hashOrder usedManifests)

def pruneManifests (usedManifests : List Bytes) : M Nat := do
  let manifests ← st.readManifestDigests
  manifests.tryFold ⟨"failed to read cached manifest digest", []⟩ 0
    fun removed manifestDigest => do
      if usedManifests.contains manifestDigest then return removed
      else
        withContext ⟨"failed to prune manifest {}", [manifestDigest]⟩
          (st.removeManifest manifestDigest)
        return removed + 1

/-- One turn of the loop over the layers. -/
def pruneLayer (usedLayers : List Bytes) (removed : Nat) (layerDigest : Bytes) : M Nat := do
  if usedLayers.contains layerDigest then return removed
  else
    match ← st.lockLayerForPrune layerDigest with
    | .acquired lockPath =>
      match ← (do
        withContext ⟨"failed to prune layer {}", [layerDigest]⟩ (st.removeLayer env layerDigest)
        Storage.removeLockFile lockPath).attempt with
      | .error error =>
        eprintError ⟨"failed to prune layer {}: {}", [layerDigest]⟩ error
        return removed
      | .ok () => return removed + 1
    | .failed =>
      eprintln ⟨"failed to prune layer {}: layer is locked", [layerDigest]⟩
      return removed
    | .error error =>
      eprintError ⟨"failed to prune layer {}: {}", [layerDigest]⟩ error
      return removed

def pruneLayers (usedLayers : List Bytes) : M Nat := do
  let layers ← st.readLayerDigests
  layers.tryFold ⟨"failed to read cached layer digest", []⟩ 0 (pruneLayer env st usedLayers)

/-- One turn of the loop over the layer locks. -/
def cleanupLayerLock (layerDigest : Bytes) : M Unit := do
  if (← st.getLayerPath layerDigest).isSome then return
  else
    match ← st.lockLayerForPrune layerDigest with
    | .acquired lockPath =>
      match ← (withContext ⟨"failed to remove stale layer lock {}", [layerDigest]⟩
        (Storage.removeLockFile lockPath)).attempt with
      | .error error =>
        eprintError ⟨"failed to remove stale layer lock {}: {}", [layerDigest]⟩ error
      | .ok () => return
    | .failed => return
    | .error error =>
      eprintError ⟨"failed to remove stale layer lock {}: {}", [layerDigest]⟩ error

def cleanupLayerLocks : M Unit := do
  let locks ← st.readLayerLockDigests
  locks.each ⟨"failed to read layer lock digest", []⟩ (cleanupLayerLock st)

def prune : M Unit := do
  let usedManifests ← readUsedManifests st
  let usedLayers ← readUsedLayers env st usedManifests
  let removedManifests ← pruneManifests st usedManifests
  let removedLayers ← pruneLayers env st usedLayers
  cleanupLayerLocks st
  eprintln ⟨"pruned {} manifests and {} layers",
    [utf8 (toString removedManifests), utf8 (toString removedLayers)]⟩

end Pakstak
