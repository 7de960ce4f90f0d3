/-
  Runs that can be computed: the environment answers by a script.

  A `Script` fixes the answers of the registries and the calls that fail; all else takes
  the one answer `Posix` gives (listings in the order of the tree, all locks free but those
  held by others).

  Proved: `exec_replay`, what a script computes is an execution of the machine.
-/
import Pakstak.Calls

namespace Pakstak

open Posix Prog

/-! ## Scripts -/

structure Script where
  registry : Request → Except HttpError Response
  /-- The calls that fail for a reason outside the tree. -/
  fails : Op → Bool

namespace Script

variable (env : Env) (script : Script)

/-- Take the effect of a call that changes the tree. -/
def effect (w : World) : Except Errno Node → Except Errno Unit × World
  | .ok x => (.ok (), { w with root := x })
  | .error e => (.error e, w)

/-- A call that changes the tree, unless the script lets it fail. -/
def change (w : World) (o : Op) (a : Except Errno Node) : Except Errno Unit × World :=
  if script.fails o then (.error (.other 5), w) else effect w a

def lock (w : World) (p : PathBuf) : Except Errno Unit :=
  match walk w.root p with
  | .error _ => .error (.other 5)
  | .ok c => if w.held.contains c then .error .again else .ok ()

def reply : (o : Op) → World → Reply o × World
  | .stat p, w => (Posix.stat w.root p, w)
  | .lstat p, w => (Posix.lstat w.root p, w)
  | .read p, w => (Posix.read w.root p, w)
  | .readDir p, w => ((listDir w.root p).map fun names => ⟨names, none⟩, w)
  | .mkdir p, w => script.change w (.mkdir p) (Posix.mkdir w.root p)
  | .write p data, w =>
    script.change w (.write p data)
      ((openTarget w.root p).map fun c => withData w.root c data)
  | .rename p q, w => script.change w (.rename p q) (Posix.rename w.root p q)
  | .removeFile p, w => script.change w (.removeFile p) (unlink w.root p)
  | .removeDirAll p, w =>
    script.change w (.removeDirAll p) ((removalTarget w.root p).map fun c => w.root.put c none)
  | .setPermissions p mode, w =>
    script.change w (.setPermissions p mode) (changeMeta (fun m => { m with mode }) w.root p)
  | .openCreate p, w => script.change w (.openCreate p) (Posix.openCreate w.root p)
  | .createNew p, w => script.change w (.createNew p) (Posix.createNew w.root p)
  | .setXattr p name value, w =>
    script.change w (.setXattr p name value) (changeMeta (Meta.setXattr name value) w.root p)
  | .tryLock _ _, w => (.ok (), w)
  | .setlk p, w => (lock w p, w)
  | .unpack format body p, w =>
    script.change w (.unpack format body p) (unpacked env format body w.root p)
  | .get request, w =>
    (script.registry request, { w with net := w.net ++ [(request, script.registry request)] })
  | .hashOrder items, w => (items.dedup, w)
  | .eprintln m e, w => ((), { w with lines := w.lines ++ [(m, e)] })

theorem writes_change (w : World) (o : Op) (a : Except Errno Node) :
    Writes a w (script.change w o a).1 (script.change w o a).2 := by
  rw [change]
  split
  · exact .inr (.inr ⟨⟨5, rfl⟩, rfl⟩)
  · cases a with
    | ok x => exact .inl ⟨x, rfl, rfl, rfl⟩
    | error e => exact .inr (.inl ⟨e, rfl, rfl, rfl⟩)

theorem locks_lock (w : World) (p : PathBuf) : Locks w p (lock w p) := by
  simp only [Locks, lock]
  cases hw : walk w.root p with
  | error e => exact ⟨5, by simp⟩
  | ok c =>
    by_cases hc : c ∈ w.held
    · simp [hc]
    · simp [hc]

/-- A script's answer is one the machine allows. -/
theorem reply_step (o : Op) (w : World) :
    (machine env).step o w (script.reply env o w).1 (script.reply env o w).2 := by
  cases o with
  | stat p => exact ⟨.inl rfl, rfl⟩
  | lstat p => exact ⟨.inl rfl, rfl⟩
  | read p => exact ⟨.inl rfl, rfl⟩
  | readDir p =>
    refine ⟨.inl ?_, rfl⟩
    rw [reply]
    cases listDir w.root p with
    | error e => rfl
    | ok names => exact ⟨_, rfl, .inl ⟨rfl, .refl _⟩⟩
  | mkdir p => exact writes_change script w _ _
  | write p data => exact .inl (writes_change script w _ _)
  | rename p q => exact writes_change script w _ _
  | removeFile p => exact writes_change script w _ _
  | removeDirAll p => exact .inl (writes_change script w _ _)
  | setPermissions p mode => exact writes_change script w _ _
  | openCreate p => exact writes_change script w _ _
  | createNew p => exact writes_change script w _ _
  | setXattr p name value => exact writes_change script w _ _
  | tryLock p mode => exact ⟨.inl rfl, rfl⟩
  | setlk p => exact ⟨locks_lock w p, rfl⟩
  | unpack format body p => exact .inl (writes_change script w _ _)
  | get request => rfl
  | hashOrder items => exact ⟨.refl _, rfl⟩
  | eprintln m e => rfl

/-- The run of a program under a script. -/
def replay {α : Type} (p : M α) (w : World) : Option (Except Err α) × World :=
  p.run (script.reply env) w

/-- What a script computes is an execution. -/
theorem exec_replay {α : Type} (p : M α) (w : World) :
    Exec (machine env) p w (script.replay env p w).1 (script.replay env p w).2 :=
  exec_run (script.reply_step env) p w

end Script

theorem exec_of_fst_eq {α : Type} {p : M α} {w w' : World} {r r' : Option (Except Err α)}
    (h : Exec (machine env) p w r w') (hr : r = r') : Exec (machine env) p w r' w' := hr ▸ h

/-! ## A small world to run in -/

/-- A text some party publishes, with its SHA-256 and what the JSON parser makes of it. -/
structure Document where
  text : Bytes
  sha256 : Bytes
  json : Option Json

/-- The text of a serialized `Reference`, as `to_vec_pretty` lays it out. -/
def prettyReference : Json → Bytes
  | .obj [(k₁, .str v₁), (k₂, .str v₂), (k₃, .obj [(k₄, .str v₄)])] =>
    utf8 "\x7b\n  \"" ++ k₁ ++ utf8 "\": \"" ++ v₁ ++ utf8 "\",\n  \"" ++ k₂ ++ utf8 "\": \"" ++
      v₂ ++
      utf8 "\",\n  \"" ++ k₃ ++ utf8 "\": \x7b\n    \"" ++ k₄ ++ utf8 "\": \"" ++ v₄ ++
      utf8 "\"\n  \x7d\n\x7d"
  | _ => []

/-- An environment that knows the given documents, with the store at `/s`. -/
def smallEnv (documents : List Document) : Env where
  storagePath := pathOf [utf8 "s"]
  target := ⟨utf8 "linux", utf8 "x86_64"⟩
  fuel := 64
  hash alg bytes :=
    match alg, documents.find? fun d => d.text = bytes with
    | .sha256, some d => d.sha256
    | alg, _ => List.replicate alg.outputLen 0
  fromSlice bytes := (documents.find? fun d => d.text = bytes).bind Document.json
  toVecPretty := prettyReference
  parseChallenges _ := none
  unpack _ _ x := some x

instance (documents : List Document) : StatAnswers (smallEnv documents) := ⟨fun _ _ h => h⟩

/-- The bytes of a hexadecimal text. -/
def fromHex (s : String) : Bytes :=
  match decodeHex (utf8 s) with
  | .ok bytes => bytes
  | .error _ => []

/-- A response of status 200. -/
def okResponse (mediaType digest data : Bytes) : Response :=
  ⟨200, [(utf8 "content-type", mediaType), (utf8 "docker-content-digest", digest)],
    ⟨data, false⟩⟩

/-- A registry that answers a manifest request by the first response whose path matches. -/
def registryOf (pages : List (Bytes × Response)) : Request → Except HttpError Response
  | .registry _ path _ _ _ =>
    match pages.lookup path with
    | some response => .ok response
    | none => .error (.statusCode 404)
  | .token _ _ => .error .other

end Pakstak
