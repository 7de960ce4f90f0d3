/-
  `storage.rs`, third part: everything that changes the store. What is to appear is built
  under `temporary` and renamed into place, what is to go is renamed there and removed.
-/
import Pakstak.Layer

namespace Pakstak

open Posix Text

variable (env : Env)

/-- `StorageMutable::new`. -/
def Storage.newMutable : M Storage := do
  let st ← Storage.newWithLock env .exclusive
  if ← pathExists st.temporaryPath then
    withContext ⟨"failed to remove temporary directory {}", [st.temporaryPath.display]⟩
      (removeDirAllWritable env st.temporaryPath)
  orContext ⟨"failed to create temporary directory {}", [st.temporaryPath.display]⟩
    (← createDirAll st.temporaryPath)
  return st

namespace Storage

variable (st : Storage)

/-! ## Atomic steps -/

def atomicWrite (path : PathBuf) (contents : Bytes) : M Unit := do
  ensureParentDir path
  orContext ⟨"failed to create temporary directory {}", [st.temporaryPath.display]⟩
    (← createDirAll st.temporaryPath)
  let temporaryPath ← st.temporaryPathFor path
  orContext ⟨"failed to write temporary file {}", [temporaryPath.display]⟩
    (← Fs.write temporaryPath contents)
  orContext ⟨"failed to rename temporary file {} to {}", [temporaryPath.display, path.display]⟩
    (← Fs.rename temporaryPath path)

def publishDirectory (temporaryPath outputPath : PathBuf) : M Unit := do
  ensureParentDir outputPath
  orContext ⟨"failed to rename temporary directory {} to {}",
    [temporaryPath.display, outputPath.display]⟩ (← Fs.rename temporaryPath outputPath)

def removeFile (path : PathBuf) (kind : Bytes) : M Unit := do
  let temporaryPath ← st.temporaryPathFor path
  if ← pathExists temporaryPath then
    orContext ⟨"failed to clear temporary {} file {}", [kind, temporaryPath.display]⟩
      (← Fs.removeFile temporaryPath)
  orContext ⟨"failed to move {} file {} to temporary path {}",
    [kind, path.display, temporaryPath.display]⟩ (← Fs.rename path temporaryPath)
  orContext ⟨"failed to remove temporary {} file {}", [kind, temporaryPath.display]⟩
    (← Fs.removeFile temporaryPath)

def removeDirectory (path : PathBuf) (kind : Bytes) : M Unit := do
  let temporaryPath ← st.temporaryPathFor path
  if ← pathExists temporaryPath then
    withContext ⟨"failed to clear temporary {} directory {}", [kind, temporaryPath.display]⟩
      (removeDirAllWritable env temporaryPath)
  orContext ⟨"failed to move {} directory {} to temporary path {}",
    [kind, path.display, temporaryPath.display]⟩ (← Fs.rename path temporaryPath)
  withContext ⟨"failed to remove temporary {} directory {}", [kind, temporaryPath.display]⟩
    (removeDirAllWritable env temporaryPath)

/-! ## Containers, manifests, layers -/

def writeManifest (digest contents : Bytes) : M Unit :=
  withContext ⟨"failed to write manifest to {}", [(st.manifestPath digest).display]⟩
    (st.atomicWrite (st.manifestPath digest) contents)

def writeContainerManifestDigest (container digest : Bytes) : M Unit :=
  let path := (st.containerPath container).join (utf8 "manifest_digest")
  withContext ⟨"failed to write manifest digest to {}", [path.display]⟩
    (st.atomicWrite path digest)

def writeContainer (container manifestDigest : Bytes) (reference : Reference) : M Unit := do
  let containerPath := st.containerPath container
  let temporaryContainerPath ← st.temporaryPathFor containerPath
  orContext ⟨"failed to create temporary container directory {}",
    [temporaryContainerPath.display]⟩ (← createDirAll temporaryContainerPath)
  orContext ⟨"failed to write temporary container manifest digest file in {}",
    [temporaryContainerPath.display]⟩
    (← Fs.write (temporaryContainerPath.join (utf8 "manifest_digest")) manifestDigest)
  orContext ⟨"failed to write temporary container reference file in {}",
    [temporaryContainerPath.display]⟩
    (← Fs.write (temporaryContainerPath.join (utf8 "reference.json"))
      (env.toVecPretty reference.serialize))
  publishDirectory temporaryContainerPath containerPath

def removeContainer (container : Bytes) : M Unit := do
  st.ensureContainerInstalled container
  st.removeDirectory env (st.containerPath container) (utf8 "container")

def removeManifest (digest : Bytes) : M Unit :=
  withContext ⟨"failed to remove manifest {}", [digest]⟩
    (st.removeFile (st.manifestPath digest) (utf8 "manifest"))

def removeLayer (digest : Bytes) : M Unit :=
  withContext ⟨"failed to remove layer {}", [digest]⟩
    (st.removeDirectory env (st.layerPath digest) (utf8 "layer"))

def writeLayer (digest : Bytes) (format : LayerFormat) (reader : Body) : M Unit := do
  let outputPath := st.layerPath digest
  let temporaryOutputPath ← st.temporaryPathFor outputPath
  orContext ⟨"failed to create temporary layer output directory {}",
    [temporaryOutputPath.display]⟩ (← createDirAll temporaryOutputPath)
  match ← (extractLayer env reader digest format temporaryOutputPath).attempt with
  | .error err =>
    let _ ← (removeDirAllWritable env temporaryOutputPath).attempt
    .fail err
  | .ok () =>
    withContext ⟨"failed to publish layer {} to {}", [digest, outputPath.display]⟩
      (publishDirectory temporaryOutputPath outputPath)

/-! ## Layer locks -/

/-- `LayerLockResult`, with the path of the lock acquired. -/
inductive LayerLockResult where
  | acquired (path : PathBuf)
  | failed
  | error (e : Err)

def lockLayerForPrune (digest : Bytes) : M LayerLockResult := do
  let lockPath := st.layerLockPath digest
  match ← (openLockFile lockPath).attempt with
  | .error e => return .error e
  | .ok () =>
    match ← Fs.setlk lockPath with
    | .ok () => return .acquired lockPath
    | .error .again => return .failed
    | .error e =>
      return .error (.context ⟨"failed to acquire layer lock {}", [lockPath.display]⟩ (.io e))

/-- `LayerLock::remove_file`. -/
def removeLockFile (path : PathBuf) : M Unit := do
  orContext ⟨"failed to remove layer lock file {}", [path.display]⟩ (← Fs.removeFile path)

def readLayerLockDigests : M (Iter Bytes) := do
  let listing ← readDirEntries st.layerLocksPath (utf8 "layer locks")
  return {
    path := st.layerLocksPath, kind := utf8 "layer locks", listing
    item := fun name => do
      if ← pathIsFile (entryPath st.layerLocksPath name) then
        return some (← intoString "layer lock name {:?} is not valid UTF-8" name)
      else return none }

end Storage

end Pakstak
