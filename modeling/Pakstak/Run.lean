/-
  `run.rs` up to the `exec` of bwrap, and `main.rs`.
-/
import Pakstak.Prune

namespace Pakstak

open Posix Text

variable (env : Env)

/-! ## Run -/

def layerLocksDir : Bytes := utf8 "/tmp/.layer_locks"

/-- An argument of bwrap: a text, or a path of the host. -/
inductive Arg where
  | text (s : Bytes)
  | path (p : PathBuf)
  deriving DecidableEq

/-- The layers of a manifest that are not yet in the stack, on top of it. -/
def stackLayers (layers new : List Descriptor) : List Descriptor :=
  new.foldl (fun layers layer =>
    if layers.all fun old => layer.digest ≠ old.digest then layers ++ [layer] else layers) layers

def readStackedLayers (st : Storage) (containers : List Bytes) : M (List Descriptor) :=
  Prog.fold (fun layers container => do
    st.ensureContainerInstalled container
    let manifestDigest ← st.readContainerManifestDigest container
    let manifest ← st.readManifest env manifestDigest
    return stackLayers layers manifest.layers) [] containers

def layerPathOrMissing (st : Storage) (layer : Descriptor) : M PathBuf := do
  match ← st.getLayerPath layer.digest with
  | some path => return path
  | none => bail ⟨"layer {} is missing; install the image first", [layer.digest]⟩

/-- The layer lock files, each with its path in the sandbox. -/
def createLayerLockFiles (st : Storage) (layers : List Descriptor) :
    M (List (PathBuf × Bytes)) :=
  Prog.fold (fun paths layer => do
    let lockPath ← st.createLayerLockFile layer.digest
    return paths ++ [(lockPath, layerLocksDir ++ [slashByte] ++ utf8 (toString paths.length))])
    [] layers

def layerArgs (st : Storage) : List Descriptor → M (List Arg)
  | [] => bail ⟨"selected containers have no layers", []⟩
  | [layer] => do
    let path ← layerPathOrMissing st layer
    return [.text (utf8 "--ro-bind"), .path path, .text (utf8 "/")]
  | layers => do
    let args ← Prog.fold (fun args layer => do
      let path ← layerPathOrMissing st layer
      return args ++ [.text (utf8 "--overlay-src"), .path path]) [] layers
    return args ++ [.text (utf8 "--ro-overlay"), .text (utf8 "/")]

/-- The arguments of bwrap. -/
def buildBwrapCommand (st : Storage) (containers command : List Bytes) : M (List Arg) := do
  if containers = [] then bail ⟨"at least one container required", []⟩
  else if command = [] then bail ⟨"command cannot be empty", []⟩
  else
    let layers ← readStackedLayers env st containers
    let layerLockPaths ← createLayerLockFiles st layers
    let layerArgs ← layerArgs st layers
    return [.text (utf8 "--clearenv"), .text (utf8 "--unshare-all")] ++ layerArgs ++
      [.text (utf8 "--proc"), .text (utf8 "/proc"), .text (utf8 "--dev"), .text (utf8 "/dev"),
        .text (utf8 "--tmpfs"), .text (utf8 "/tmp"), .text (utf8 "--dir"), .text layerLocksDir] ++
      layerLockPaths.flatMap (fun paths =>
        [.text (utf8 "--ro-bind"), .path paths.1, .text paths.2, .text (utf8 "--lock-file"),
          .text paths.2]) ++
      command.map .text

/-! ## Main -/

inductive Command where
  | install (container image : Bytes)
  | uninstall (container : Bytes)
  | update (containers : List Bytes)
  | switch (container digest : Bytes)
  | prune
  | repair
  deriving DecidableEq

/-- The body of a command that changes the store. -/
def Command.body (env : Env) (st : Storage) : Command → M Unit
  | install container image => Pakstak.install env st container image
  | uninstall container => Pakstak.uninstall env st container
  | update containers => Pakstak.update env st containers
  | switch container digest => Pakstak.switch env st container digest
  | prune => Pakstak.prune env st
  | repair => Pakstak.repair env st

/-- `main` for every command but `run`. -/
def main (command : Command) : M Unit := do
  let st ← withContext ⟨"failed to initialize mutable storage", []⟩ (Storage.newMutable env)
  command.body env st

/-- `main` for `run`, with the arguments it hands to bwrap. -/
def mainRun (containers command : List Bytes) : M (List Arg) := do
  let st ← withContext ⟨"failed to initialize storage", []⟩ (Storage.new env)
  buildBwrapCommand env st containers command

end Pakstak
