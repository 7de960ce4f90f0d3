/-
  `storage.rs`, second part: removing trees whatever their modes, and turning a layer's
  byte stream into a directory in overlayfs form.
-/
import Pakstak.Storage

namespace Pakstak

open Posix Text

variable (env : Env)

/-! ## Recursive removal -/

def isSymlink : Inode → Bool
  | .inl (.symlink _) => true
  | _ => false

/-- The permission bits. -/
def modeOf : Inode → Nat
  | .inl (.file m _) => m.mode
  | .inl (.symlink _) => 0o777
  | .inr m => m.mode

def makePathWritable (path : PathBuf) (metadata : Inode) : M Unit := do
  if isSymlink metadata then return
  else
    let mode := modeOf metadata
    let writableMode := if isDir metadata then mode ||| 0o700 else mode ||| 0o600
    if writableMode ≠ mode then
      orContext ⟨"failed to make path writable {}", [path.display]⟩
        (← Fs.setPermissions path writableMode)
    else return

/-- One turn of the loop: `pending` has the next path in front. -/
def makeTreeWritableStep : List PathBuf → M (List PathBuf ⊕ Unit)
  | [] => return .inr ()
  | path :: pending => do
    let metadata ← orContext ⟨"failed to read metadata for {}", [path.display]⟩
      (← Fs.symlinkMetadata path)
    makePathWritable path metadata
    if ¬ isDir metadata then return .inl pending
    else
      let listing ← orContext ⟨"failed to read directory {}", [path.display]⟩ (← Fs.readDir path)
      match listing.broken with
      | some e =>
        .fail (.context ⟨"failed to read directory entry under {}", [path.display]⟩ (.io e))
      | none => return .inl ((listing.names.map (entryPath path)).reverse ++ pending)

def makeTreeWritable (path : PathBuf) : M Unit :=
  Prog.loop makeTreeWritableStep env.fuel [path]

def removeDirAllWritable (path : PathBuf) : M Unit := do
  makeTreeWritable env path
  orContext ⟨"failed to recursively remove directory {}", [path.display]⟩
    (← Fs.removeDirAll path)

/-! ## Whiteouts -/

def opaqueMarker : Bytes := utf8 ".wh..wh..opq"

def whiteoutPrefix : Bytes := utf8 ".wh."

def ociWhiteoutTargetName (fileName : Bytes) : Option Bytes :=
  if whiteoutPrefix <+: fileName then
    (some (fileName.drop whiteoutPrefix.length)).filter (· ≠ [])
  else none

def setOverlayXattr (path : PathBuf) (name : String) (value : Bytes) : M Unit := do
  orContext ⟨"failed to set overlay xattr; filesystem may not support user xattrs", []⟩
    (← Fs.setxattr path (utf8 name) value)

def removeOciWhiteoutMarker (markerPath : PathBuf) : M Unit := do
  let metadata ← orContext
    ⟨"failed to read metadata for OCI whiteout marker {}", [markerPath.display]⟩
    (← Fs.symlinkMetadata markerPath)
  makePathWritable markerPath metadata
  orContext ⟨"failed to remove OCI whiteout marker {}", [markerPath.display]⟩
    (← Fs.removeFile markerPath)

def convertOciWhiteoutMarker (markerPath targetPath : PathBuf) : M Unit := do
  match ← Fs.symlinkMetadata targetPath with
  | .ok metadata =>
    if isDir metadata then setOverlayXattr targetPath "user.overlay.opaque" (utf8 "y")
    else pure ()
  | .error .noent =>
    orContext ⟨"failed to create overlayfs whiteout target {}", [targetPath.display]⟩
      (← Fs.createNew targetPath)
    setOverlayXattr targetPath "user.overlay.whiteout" (utf8 "y")
  | .error e =>
    .fail (.context ⟨"failed to inspect OCI whiteout target {}", [targetPath.display]⟩ (.io e))
  removeOciWhiteoutMarker markerPath

/-- One entry of a directory: the new `pending`. -/
def convertEntry (directory : PathBuf) (isOpaque : Bool) (pending : List PathBuf)
    (fileName : Bytes) : M (List PathBuf) := do
  let path := entryPath directory fileName
  if fileName = opaqueMarker then
    removeOciWhiteoutMarker path
    return pending
  else
    match ociWhiteoutTargetName fileName with
    | some targetName =>
      if isOpaque then removeOciWhiteoutMarker path
      else convertOciWhiteoutMarker path (directory.join targetName)
      return pending
    | none =>
      let metadata ← orContext ⟨"failed to inspect extracted layer path {}", [path.display]⟩
        (← Fs.symlinkMetadata path)
      if isDir metadata then return path :: pending else return pending

/-- One turn of the loop: `pending` has the next directory in front. -/
def convertStep : List PathBuf → M (List PathBuf ⊕ Unit)
  | [] => return .inr ()
  | directory :: pending => do
    let listing ← orContext
      ⟨"failed to read extracted layer directory {}", [directory.display]⟩
      (← Fs.readDir directory)
    match listing.broken with
    | some e =>
      .fail (.context ⟨"failed to read extracted layer entries under {}", [directory.display]⟩
        (.io e))
    | none =>
      let isOpaque := opaqueMarker ∈ listing.names
      if isOpaque then setOverlayXattr directory "user.overlay.opaque" (utf8 "y")
      let pending ← Prog.fold (convertEntry directory isOpaque) pending listing.names
      return .inl pending

def convertOciWhiteoutsToOverlayfs (outputDir : PathBuf) : M Unit :=
  Prog.loop convertStep env.fuel [outputDir]

/-! ## Extraction -/

def LayerFormat.name : LayerFormat → Bytes
  | tar => utf8 "tar"
  | gzip => utf8 "gzip"
  | zstd => utf8 "zstd"

def extractLayer (reader : Body) (expectedDigest : Bytes) (format : LayerFormat)
    (outputDir : PathBuf) : M Unit := do
  let verifier ← withContext
    ⟨"failed to initialize digest verifier for layer {}", [expectedDigest]⟩
    (.lift ((DigestVerifier.new expectedDigest).mapError .digest))
  orContext ⟨"failed to unpack {} layer into {}", [format.name, outputDir.display]⟩
    (← Fs.unpack format reader outputDir)
  withContext ⟨"failed to convert OCI whiteouts in extracted layer {}", [outputDir.display]⟩
    (convertOciWhiteoutsToOverlayfs env outputDir)
  -- draining the reader feeds the rest of its bytes to the verifier
  if reader.broken then
    .fail (.context ⟨"failed to finish reading layer bytes for digest verification", []⟩
      (.io (.other 0)))
  else
    withContext ⟨"failed to verify layer digest {}", [expectedDigest]⟩
      (.lift (((verifier.update reader.data).verify env.hash).mapError .digest))

end Pakstak
