/-
  `manifest.rs`: image manifests and image indexes, and what `derive(Deserialize)` accepts.

  The text parser is the crate `serde_json`; here it is a parameter that gives a `Json`
  value (an object keeps its keys in order, repeated ones too). A struct is read from an
  object (unknown keys are skipped, a known key given twice is an error, a missing
  `Option` field is `None`) or from an array with its fields in order.
-/
import Mathlib.Algebra.Group.Nat.Defs
import Pakstak.Lib.Text

namespace Pakstak

open Posix

/-! ## JSON values and derived deserialization -/

inductive Json where
  | null
  | bool (b : Bool)
  | int (n : Int)
  | float
  | str (s : Bytes)
  | arr (items : List Json)
  | obj (fields : List (Bytes × Json))

namespace Json

/-- A `String`. -/
def string : Json → Option Bytes
  | str s => some s
  | _ => none

/-- An unsigned integer of `bits` bits. -/
def unsigned (bits : Nat) : Json → Option Nat
  | int (.ofNat n) => if n < 2 ^ bits then some n else none
  | _ => none

/-- A `Vec`. -/
def vec {α : Type} (item : Json → Option α) : Json → Option (List α)
  | arr items => items.mapM item
  | _ => none

/-- An `Option`. -/
def opt {α : Type} (value : Json → Option α) : Json → Option (Option α)
  | null => some none
  | j => (value j).map some

/-- A field of a struct read from an object. -/
def field {α : Type} (fields : List (Bytes × Json)) (name : String) (value : Json → Option α) :
    Option α :=
  match fields.filter fun f => f.1 = utf8 name with
  | [f] => value f.2
  | _ => none

/-- An `Option` field of a struct read from an object. -/
def optField {α : Type} (fields : List (Bytes × Json)) (name : String)
    (value : Json → Option α) : Option (Option α) :=
  match fields.filter fun f => f.1 = utf8 name with
  | [] => some none
  | [f] => opt value f.2
  | _ => none

end Json

/-! ## The documents -/

structure Platform where
  architecture : Bytes
  os : Bytes
  deriving DecidableEq

structure Descriptor where
  digest : Bytes
  mediaType : Bytes
  size : Nat
  platform : Option Platform
  deriving DecidableEq

structure ImageManifest where
  schemaVersion : Nat
  layers : List Descriptor
  deriving DecidableEq

structure ImageIndex where
  manifests : List Descriptor
  deriving DecidableEq

structure FetchedManifest where
  manifest : ImageManifest
  bytes : Bytes
  digest : Bytes
  deriving DecidableEq

def Platform.deserialize : Json → Option Platform
  | .obj fields => do
    let architecture ← Json.field fields "architecture" Json.string
    let os ← Json.field fields "os" Json.string
    return ⟨architecture, os⟩
  | .arr [a, o] => do
    let architecture ← a.string
    let os ← o.string
    return ⟨architecture, os⟩
  | _ => none

def Descriptor.deserialize : Json → Option Descriptor
  | .obj fields => do
    let digest ← Json.field fields "digest" Json.string
    let mediaType ← Json.field fields "mediaType" Json.string
    let size ← Json.field fields "size" (Json.unsigned 64)
    let platform ← Json.optField fields "platform" Platform.deserialize
    return ⟨digest, mediaType, size, platform⟩
  | .arr [d, m, s, p] => do
    let digest ← d.string
    let mediaType ← m.string
    let size ← s.unsigned 64
    let platform ← p.opt Platform.deserialize
    return ⟨digest, mediaType, size, platform⟩
  | _ => none

def ImageManifest.deserialize : Json → Option ImageManifest
  | .obj fields => do
    let schemaVersion ← Json.field fields "schemaVersion" (Json.unsigned 32)
    let layers ← Json.field fields "layers" (Json.vec Descriptor.deserialize)
    return ⟨schemaVersion, layers⟩
  | .arr [v, l] => do
    let schemaVersion ← v.unsigned 32
    let layers ← l.vec Descriptor.deserialize
    return ⟨schemaVersion, layers⟩
  | _ => none

def ImageIndex.deserialize : Json → Option ImageIndex
  | .obj fields => do
    let manifests ← Json.field fields "manifests" (Json.vec Descriptor.deserialize)
    return ⟨manifests⟩
  | .arr [m] => do
    let manifests ← m.vec Descriptor.deserialize
    return ⟨manifests⟩
  | _ => none

/-! ## The platform -/

/-- `env::consts::OS` and `env::consts::ARCH` of the build. -/
structure Target where
  os : Bytes
  arch : Bytes

def normalizedArch (target : Target) : Bytes :=
  if target.arch = utf8 "x86_64" then utf8 "amd64"
  else if target.arch = utf8 "aarch64" then utf8 "arm64"
  else target.arch

def Descriptor.matchesCurrentPlatform (target : Target) (d : Descriptor) : Bool :=
  match d.platform with
  | some platform => platform.os == target.os && platform.architecture == normalizedArch target
  | none => false

end Pakstak
