/-
  `reference.rs`: image references, their text and their JSON form.
-/
import Pakstak.Manifest

namespace Pakstak

open Posix Text

inductive Specifier where
  | digest (s : Bytes)
  | tag (s : Bytes)
  deriving DecidableEq

def Specifier.asTypelessStr : Specifier → Bytes
  | digest s => s
  | tag s => s

structure Reference where
  registry : Bytes
  repository : Bytes
  specifier : Specifier
  deriving DecidableEq

inductive ReferenceError where
  | noExplicitRegistry
  | repositoryMissing
  deriving DecidableEq

/-- `rsplit_once(sep).map(|(n, d)| (n, Some(d))).unwrap_or((input, None))`. -/
def splitTail (sep : UInt8) (input : Bytes) : Bytes × Option Bytes :=
  match rsplitOnce sep input with
  | some (name, tail) => (name, some tail)
  | none => (input, none)

def Reference.parse (input : Bytes) : Except ReferenceError Reference :=
  let (name, digest) := splitTail 64 input
  let (name, tag) := splitTail 58 name
  let parts := name.splitOn slashByte
  let registry := parts.headD []
  if 46 ∉ registry ∧ 58 ∉ registry ∧ registry ≠ utf8 "localhost" then .error .noExplicitRegistry
  else
    let repository := [slashByte].intercalate parts.tail
    if repository = [] then .error .repositoryMissing
    else
      .ok
        { registry, repository,
          specifier :=
            match digest with
            | some d => .digest d
            | none => .tag (tag.getD (utf8 "latest")) }

/-- `Display for Reference`. -/
def Reference.display (r : Reference) : Bytes :=
  r.registry ++ [slashByte] ++ r.repository ++
    match r.specifier with
    | .digest digest => 64 :: digest
    | .tag tag => 58 :: tag

/-! ## JSON -/

/-- An enum in snake case with externally tagged variants. -/
def Specifier.deserialize : Json → Option Specifier
  | .obj [(name, value)] =>
    if name = utf8 "digest" then value.string.map .digest
    else if name = utf8 "tag" then value.string.map .tag
    else none
  | _ => none

def Specifier.serialize : Specifier → Json
  | digest s => .obj [(utf8 "digest", .str s)]
  | tag s => .obj [(utf8 "tag", .str s)]

def Reference.deserialize : Json → Option Reference
  | .obj fields => do
    let registry ← Json.field fields "registry" Json.string
    let repository ← Json.field fields "repository" Json.string
    let specifier ← Json.field fields "specifier" Specifier.deserialize
    return ⟨registry, repository, specifier⟩
  | .arr [a, b, c] => do
    let registry ← a.string
    let repository ← b.string
    let specifier ← Specifier.deserialize c
    return ⟨registry, repository, specifier⟩
  | _ => none

def Reference.serialize (r : Reference) : Json :=
  .obj [(utf8 "registry", .str r.registry), (utf8 "repository", .str r.repository),
    (utf8 "specifier", r.specifier.serialize)]

@[simp] theorem Reference.deserialize_serialize (r : Reference) :
    Reference.deserialize r.serialize = some r := by
  obtain ⟨registry, repository, specifier⟩ := r
  cases specifier with
  | digest d => rfl
  | tag t => rfl

end Pakstak
