/-
  `storage.rs`, first part: the layout of the store, its lock, and everything that only
  reads it.
-/
import Pakstak.World

namespace Pakstak

open Posix Text

variable (env : Env)

/-! ## Directory iterators -/

/-- The path of a directory entry. -/
def entryPath (p : PathBuf) (name : Bytes) : PathBuf := pathOf (p.comps ++ [name])

def readDirEntries (path : PathBuf) (kind : Bytes) : M Listing := do
  match ← Fs.readDir path with
  | .ok listing => return listing
  | .error .noent => return ⟨[], none⟩
  | .error e => .fail (.context ⟨"failed to read {} directory {}", [kind, path.display]⟩ (.io e))

/-- An iterator over the entries of a directory: `item` is its `filter_map` and `map`. -/
structure Iter (α : Type) where
  path : PathBuf
  kind : Bytes
  listing : Listing
  item : Bytes → M (Option α)

namespace Iter

variable {α β : Type}

/-- The error a listing broke off with, as the last item. -/
def finish (it : Iter α) (m : Msg) : M Unit :=
  match it.listing.broken with
  | none => return
  | some e => .fail (.context m (.context
      ⟨"failed to read {} directory entry under {}", [it.kind, it.path.display]⟩ (.io e)))

/-- `for x in it { let x = x.context(m)?; body }`. -/
def each (it : Iter α) (m : Msg) (body : α → M Unit) : M Unit := do
  Prog.each (fun name => do
    match ← withContext m (it.item name) with
    | none => return
    | some a => body a) it.listing.names
  it.finish m

/-- `it.try_fold(init, |acc, x| { let x = x.context(m)?; body })`. -/
def tryFold (it : Iter α) (m : Msg) (init : β) (body : β → α → M β) : M β := do
  let acc ← Prog.fold (fun acc name => do
    match ← withContext m (it.item name) with
    | none => return acc
    | some a => body acc a) init it.listing.names
  it.finish m
  return acc

end Iter

/-- `into_string` on a file name. -/
def intoString (what : String) (name : Bytes) : M Bytes :=
  if validUtf8 name then return name else bail ⟨what, [name]⟩

/-! ## Locks -/

def ensureParentDir (path : PathBuf) : M Unit := do
  match path.parent with
  | none => return
  | some parent =>
    orContext ⟨"failed to create output directory {}", [parent.display]⟩ (← createDirAll parent)

def openLockFile (path : PathBuf) : M Unit := do
  ensureParentDir path
  orContext ⟨"failed to open lock file {}", [path.display]⟩ (← Fs.openCreate path)

def acquireLock (storagePath : PathBuf) (mode : LockMode) : M Unit := do
  orContext ⟨"failed to create storage directory {}", [storagePath.display]⟩
    (← createDirAll storagePath)
  let lockPath := (storagePath.join (utf8 "locks")).join (utf8 "storage")
  openLockFile lockPath
  orContext ⟨"failed to acquire lock {}", [lockPath.display]⟩ (← Fs.tryLock lockPath mode)

/-! ## The store -/

/-- `serde_json::from_slice::<ImageManifest>`. -/
def parseManifest (bytes : Bytes) : Option ImageManifest :=
  (env.fromSlice bytes).bind ImageManifest.deserialize

structure Storage where
  storagePath : PathBuf
  temporaryPath : PathBuf
  deriving DecidableEq

namespace Storage

/-- The store at a path, without its lock. -/
def ofPath (storagePath : PathBuf) : Storage := ⟨storagePath, storagePath.join (utf8 "temporary")⟩

def newWithLock (mode : LockMode) : M Storage := do
  acquireLock env.storagePath mode
  return .ofPath env.storagePath

def new : M Storage := newWithLock env .shared

variable (st : Storage)

def containersPath : PathBuf := st.storagePath.join (utf8 "containers")

def containerPath (container : Bytes) : PathBuf := st.containersPath.join container

def manifestsPath : PathBuf := st.storagePath.join (utf8 "manifests")

def manifestPath (digest : Bytes) : PathBuf := st.manifestsPath.join (digest ++ utf8 ".json")

def layersPath : PathBuf := st.storagePath.join (utf8 "layers")

def layerPath (digest : Bytes) : PathBuf := st.layersPath.join digest

def locksPath : PathBuf := st.storagePath.join (utf8 "locks")

def layerLocksPath : PathBuf := st.locksPath.join (utf8 "layers")

def layerLockPath (digest : Bytes) : PathBuf := st.layerLocksPath.join digest

def temporaryPathFor (outputPath : PathBuf) : M PathBuf :=
  match outputPath.fileName with
  | some name => return st.temporaryPath.join name
  | none => bail ⟨"output path {} does not have a file name", [outputPath.display]⟩

def readContainerManifestDigest (container : Bytes) : M Bytes := do
  let path := (st.containerPath container).join (utf8 "manifest_digest")
  let text ← orContext ⟨"failed to read container manifest digest {}", [path.display]⟩
    (← Fs.read path)
  if ¬ validUtf8 text then
    .fail (.context ⟨"failed to read container manifest digest {}", [path.display]⟩ .invalidData)
  else if trim text = [] then
    bail ⟨"container manifest digest {} is empty", [path.display]⟩
  else return trim text

def readManifestBytes (digest : Bytes) : M Bytes := do
  orContext ⟨"failed to read manifest {}", [(st.manifestPath digest).display]⟩
    (← Fs.read (st.manifestPath digest))

def readManifest (digest : Bytes) : M ImageManifest := do
  let bytes ← st.readManifestBytes digest
  match parseManifest env bytes with
  | some manifest => return manifest
  | none =>
    .fail (.context ⟨"failed to parse manifest {}", [(st.manifestPath digest).display]⟩ .json)

def readManifestDigests : M (Iter Bytes) := do
  let listing ← readDirEntries st.manifestsPath (utf8 "manifests")
  return {
    path := st.manifestsPath, kind := utf8 "manifests", listing
    item := fun name => do
      if ← pathIsFile (entryPath st.manifestsPath name) then
        let fileName ← intoString "manifest file name {:?} is not valid UTF-8" name
        if utf8 ".json" <:+ fileName then
          return some (fileName.take (fileName.length - (utf8 ".json").length))
        else
          bail ⟨"manifest file {} does not end with .json",
            [(entryPath st.manifestsPath name).display]⟩
      else return none }

def readLayerDigests : M (Iter Bytes) := do
  let listing ← readDirEntries st.layersPath (utf8 "layers")
  return {
    path := st.layersPath, kind := utf8 "layers", listing
    item := fun name => do
      if ← pathIsDir (entryPath st.layersPath name) then
        return some (← intoString "layer name {:?} is not valid UTF-8" name)
      else return none }

def readContainerReference (container : Bytes) : M Reference := do
  let path := (st.containerPath container).join (utf8 "reference.json")
  let bytes ← orContext ⟨"failed to read reference {}", [path.display]⟩ (← Fs.read path)
  match (env.fromSlice bytes).bind Reference.deserialize with
  | some reference => return reference
  | none => .fail (.context ⟨"failed to parse reference {}", [path.display]⟩ .json)

def readContainers : M (Iter Bytes) := do
  let listing ← readDirEntries st.containersPath (utf8 "containers")
  return {
    path := st.containersPath, kind := utf8 "containers", listing
    item := fun name => do
      if ← pathIsDir (entryPath st.containersPath name) then
        return some (← intoString "container name {:?} is not valid UTF-8" name)
      else return none }

def getLayerPath (digest : Bytes) : M (Option PathBuf) := do
  if ← pathIsDir (st.layerPath digest) then return some (st.layerPath digest) else return none

def createLayerLockFile (digest : Bytes) : M PathBuf := do
  openLockFile (st.layerLockPath digest)
  return st.layerLockPath digest

def isContainerTaken (container : Bytes) : M Bool := pathIsDir (st.containerPath container)

def ensureContainerInstalled (container : Bytes) : M Unit := do
  if ← pathIsDir (st.containerPath container) then return
  else bail ⟨"container {} not installed", [container]⟩

def isManifestSaved (digest : Bytes) (verify : Bool) : M Bool := do
  if ¬ (← pathIsFile (st.manifestPath digest)) then return false
  else if ¬ verify then return true
  else
    let bytes ← orContext ⟨"failed to read manifest {}", [(st.manifestPath digest).display]⟩
      (← Fs.read (st.manifestPath digest))
    match verifyBytes env.hash bytes digest with
    | .ok () => return true
    | .error _ =>
      eprintln ⟨"manifest {} failed digest verification", [digest]⟩
      return false

end Storage

end Pakstak
