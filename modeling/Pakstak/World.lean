/-
  What the program asks of its environment, and what the environment may answer.

  A file system call takes the effect `Posix` gives it, or fails with an `Errno.other` and
  no effect; `write`, `removeDirAll` and `unpack` may also be seen, or broken off, half
  done. `Path::is_dir`, `is_file` and `exists` take every error of `stat` for "no". Where it
  may fail is a relation of the environment (`Env.statFails`): the results that need `stat`
  to answer say so (`StatAnswers`), the others hold wherever it fails. A directory is listed
  in any order, and the listing may break off with an error. Registries answer anything at
  all: a request has the response that the client is given in the end, with the redirects
  that `ureq` follows on its own inside. The lock of a layer file is refused exactly when
  another process holds it (`World.held`); `hashOrder` is the iteration order of a `HashSet`.

  The crates `ring`, `serde_json`, `http_auth`, and `tar` with its decoders are parameters
  (`Env`).
-/
import Pakstak.Digest
import Pakstak.Lib.Prog
import Pakstak.Reference

namespace Pakstak

open Posix

/-! ## Errors and messages -/

/-- A message: the format string, and what stands in its gaps. -/
structure Msg where
  fmt : String
  args : List Bytes
  deriving DecidableEq

/-- An error of `ureq`. -/
inductive HttpError where
  | statusCode (code : Nat)
  | other
  deriving DecidableEq

/-- An `anyhow::Error`: a cause under its contexts. -/
inductive Err where
  | io (e : Errno)
  | invalidData
  | text (m : Msg)
  | digest (e : DigestError)
  | reference (e : ReferenceError)
  | json
  | http (e : HttpError)
  | unsupportedLayerMediaType (mediaType : Bytes)
  | context (m : Msg) (e : Err)
  deriving DecidableEq

/-! ## Requests and responses -/

inductive LayerFormat where
  | tar | gzip | zstd
  deriving DecidableEq

/-- A response body: the bytes delivered, and whether an error follows them. -/
structure Body where
  data : Bytes
  broken : Bool
  deriving DecidableEq

/-- `headers` in the order received, names in lower case. -/
structure Response where
  status : Nat
  headers : List (Bytes × Bytes)
  body : Body
  deriving DecidableEq

/-- A GET request: to a registry, or to the realm of an auth challenge. -/
inductive Request where
  | registry (registry path accept : Bytes) (authorization : Option Bytes)
      (httpStatusAsError : Bool)
  | token (realm : Bytes) (query : List (Bytes × Bytes))
  deriving DecidableEq

/-- A challenge as `http_auth::parse_challenges` returns it. -/
structure Challenge where
  scheme : Bytes
  params : List (Bytes × Bytes)
  deriving DecidableEq

/-! ## The environment -/

/-- What the program gets from outside `src/`. -/
structure Env where
  /-- `storage_path_from_env`, an absolute path. -/
  storagePath : PathBuf
  target : Target
  /-- A bound on the iterations of each `while let` loop. -/
  fuel : Nat
  /-- `ring::digest`. -/
  hash : Algorithm → Bytes → Bytes
  /-- The text level of `serde_json::from_slice`. -/
  fromSlice : Bytes → Option Json
  /-- The text level of `serde_json::to_vec_pretty`. -/
  toVecPretty : Json → Bytes
  /-- `http_auth::parse_challenges`. -/
  parseChallenges : Bytes → Option (List Challenge)
  /-- `Archive::unpack` over the decoder of a format: the tree it leaves of the tree it
      finds, when it returns `Ok`. -/
  unpack : LayerFormat → Body → Node → Option Node
  /-- The paths whose `stat` may fail though it has an answer, in a tree. -/
  statFails : PathBuf → Node → Prop := fun _ _ => False

/-- No `stat` fails that has an answer. -/
class StatAnswers (env : Env) : Prop where
  not_statFails : ∀ p x, ¬ env.statFails p x

theorem not_answers {env : Env} {p : PathBuf} {x : Node} (h : env.statFails p x) :
    ¬ StatAnswers env := fun hs => hs.not_statFails p x h

theorem statFails_elim {env : Env} [StatAnswers env] {p : PathBuf} {x : Node} {a : Prop}
    (h : env.statFails p x) : a := (StatAnswers.not_statFails p x h).elim

/-- A directory listing: names, and the error it broke off with. -/
structure Listing where
  names : List Bytes
  broken : Option Errno

inductive LockMode where
  | shared | exclusive
  deriving DecidableEq

inductive Op where
  | stat (p : PathBuf)
  | lstat (p : PathBuf)
  | read (p : PathBuf)
  | readDir (p : PathBuf)
  | mkdir (p : PathBuf)
  | write (p : PathBuf) (data : Bytes)
  | rename (p q : PathBuf)
  | removeFile (p : PathBuf)
  | removeDirAll (p : PathBuf)
  | setPermissions (p : PathBuf) (mode : Nat)
  | openCreate (p : PathBuf)
  | createNew (p : PathBuf)
  | setXattr (p : PathBuf) (name value : Bytes)
  | tryLock (p : PathBuf) (mode : LockMode)
  | setlk (p : PathBuf)
  | unpack (format : LayerFormat) (body : Body) (p : PathBuf)
  | get (request : Request)
  | hashOrder (items : List Bytes)
  | eprintln (m : Msg) (e : Option Err)

/-- The type of the answer to a question. -/
@[reducible] def Reply : Op → Type
  | .stat _ | .lstat _ => Except Errno Inode
  | .read _ => Except Errno Bytes
  | .readDir _ => Except Errno Listing
  | .mkdir _ | .write _ _ | .rename _ _ | .removeFile _ | .removeDirAll _ | .setPermissions _ _
  | .openCreate _ | .createNew _ | .setXattr _ _ _ | .tryLock _ _ | .setlk _
  | .unpack _ _ _ => Except Errno Unit
  | .get _ => Except HttpError Response
  | .hashOrder _ => List Bytes
  | .eprintln _ _ => Unit

structure World where
  root : Node
  /-- The lock files other processes hold locks on. -/
  held : List Place
  /-- The requests made so far, with their answers. -/
  net : List (Request × Except HttpError Response)
  /-- What was written to standard error. -/
  lines : List (Msg × Option Err)

/-! ## Steps -/

/-- An error that says nothing about the tree. -/
def Failed {α : Type} (r : Except Errno α) : Prop := ∃ code, r = .error (.other code)

/-- A call that reads: the answer `a`, or a failure. -/
def Reads {α : Type} (a : Except Errno α) (w : World) (r : Except Errno α) (w' : World) : Prop :=
  (r = a ∨ Failed r) ∧ w' = w

/-- A call that changes the tree at once, or fails and changes nothing. -/
def Writes (a : Except Errno Node) (w : World) (r : Except Errno Unit) (w' : World) : Prop :=
  (∃ x, a = .ok x ∧ r = .ok () ∧ w' = { w with root := x }) ∨
  (∃ e, a = .error e ∧ r = .error e ∧ w' = w) ∨
  (Failed r ∧ w' = w)

/-- A call that changes the tree in several steps; `part x` are the trees on the way. -/
def WritesSlowly (a : Except Errno Node) (part : Node → Prop) (w : World)
    (r : Except Errno Unit) (w' : World) : Prop :=
  Writes a w r w' ∨ (Failed r ∧ ∃ x, part x ∧ w' = { w with root := x })

/-- A write half done: the file holds a first part of the data. -/
def PartWritten (x : Node) (p : PathBuf) (data : Bytes) (y : Node) : Prop :=
  ∃ c d, openTarget x p = .ok c ∧ d <+: data ∧ y = withData x c d

/-- A recursive removal half done: some entries are left. -/
def PartRemoved (x : Node) (p : PathBuf) (y : Node) : Prop :=
  ∃ c t t', removalTarget x p = .ok c ∧ x.get c = some t ∧ Remnant t' t ∧ y = x.put c (some t')

/-- An unpacking half done: anything may be in the directory. -/
def PartUnpacked (x : Node) (p : PathBuf) (y : Node) : Prop :=
  ∃ c m kids, walk x p = .ok c ∧ x.DirAt c ∧ y = x.put c (some (.dir m kids))

/-- The whole of an unpacking. -/
def unpacked (env : Env) (format : LayerFormat) (body : Body) (x : Node) (p : PathBuf) :
    Except Errno Node :=
  match walk x p with
  | .error e => .error e
  | .ok c =>
    match x.get c with
    | none => .error .noent
    | some (.leaf _) => .error .notdir
    | some (.dir m kids) =>
      match env.unpack format body (.dir m kids) with
      | some (.dir m' kids') => .ok (x.put c (some (.dir m' kids')))
      | _ => .error (.other 0)

/-- The order of a listing is free; one that breaks off has some of the names. -/
def Lists (names : List Bytes) (l : Listing) : Prop :=
  (l.broken = none ∧ l.names.Perm names) ∨
  (∃ code, l.broken = some (.other code) ∧ l.names.Nodup ∧ l.names ⊆ names)

/-- The answer to the write lock on a layer lock file. -/
def Locks (w : World) (p : PathBuf) (r : Except Errno Unit) : Prop :=
  match walk w.root p with
  | .error _ => Failed r
  | .ok c => if c ∈ w.held then r = .error .again else r = .ok () ∨ Failed r

variable (env : Env)

def Step : (o : Op) → World → Reply o → World → Prop
  | .stat p, w, r, w' => (r = stat w.root p ∨ env.statFails p w.root ∧ Failed r) ∧ w' = w
  | .lstat p, w, r, w' => Reads (lstat w.root p) w r w'
  | .read p, w, r, w' => Reads (read w.root p) w r w'
  | .readDir p, w, r, w' =>
    ((match listDir w.root p with
      | .error e => r = .error e
      | .ok names => ∃ l, r = .ok l ∧ Lists names l) ∨ Failed r) ∧ w' = w
  | .mkdir p, w, r, w' => Writes (mkdir w.root p) w r w'
  | .write p data, w, r, w' =>
    WritesSlowly ((openTarget w.root p).map fun c => withData w.root c data)
      (PartWritten w.root p data) w r w'
  | .rename p q, w, r, w' => Writes (rename w.root p q) w r w'
  | .removeFile p, w, r, w' => Writes (unlink w.root p) w r w'
  | .removeDirAll p, w, r, w' =>
    WritesSlowly ((removalTarget w.root p).map fun c => w.root.put c none)
      (PartRemoved w.root p) w r w'
  | .setPermissions p mode, w, r, w' =>
    Writes (changeMeta (fun m => { m with mode }) w.root p) w r w'
  | .openCreate p, w, r, w' => Writes (openCreate w.root p) w r w'
  | .createNew p, w, r, w' => Writes (createNew w.root p) w r w'
  | .setXattr p name value, w, r, w' =>
    Writes (changeMeta (Meta.setXattr name value) w.root p) w r w'
  | .tryLock _ _, w, r, w' => (r = .ok () ∨ r = .error .again ∨ Failed r) ∧ w' = w
  | .setlk p, w, r, w' => Locks w p r ∧ w' = w
  | .unpack format body p, w, r, w' =>
    WritesSlowly (unpacked env format body w.root p) (PartUnpacked w.root p) w r w'
  | .get request, w, r, w' => w' = { w with net := w.net ++ [(request, r)] }
  | .hashOrder items, w, r, w' => r.Perm items.dedup ∧ w' = w
  | .eprintln m e, w, _, w' => w' = { w with lines := w.lines ++ [(m, e)] }

def Mid : Op → World → World → Prop
  | .write p data, w, w' => ∃ x, PartWritten w.root p data x ∧ w' = { w with root := x }
  | .removeDirAll p, w, w' => ∃ x, PartRemoved w.root p x ∧ w' = { w with root := x }
  | .unpack _ _ p, w, w' => ∃ x, PartUnpacked w.root p x ∧ w' = { w with root := x }
  | _, _, _ => False

def machine : Machine Op Reply World := ⟨Step env, Mid⟩

/-- A program of the tool. -/
abbrev M : Type → Type := Prog Op Reply Err

/-! ## Calls as the source writes them -/

namespace Fs

def metadata (p : PathBuf) : M (Except Errno Inode) := Prog.call (Op.stat p)

def symlinkMetadata (p : PathBuf) : M (Except Errno Inode) := Prog.call (Op.lstat p)

def read (p : PathBuf) : M (Except Errno Bytes) := Prog.call (Op.read p)

def readDir (p : PathBuf) : M (Except Errno Listing) := Prog.call (Op.readDir p)

def createDir (p : PathBuf) : M (Except Errno Unit) := Prog.call (Op.mkdir p)

def write (p : PathBuf) (data : Bytes) : M (Except Errno Unit) := Prog.call (Op.write p data)

def rename (p q : PathBuf) : M (Except Errno Unit) := Prog.call (Op.rename p q)

def removeFile (p : PathBuf) : M (Except Errno Unit) := Prog.call (Op.removeFile p)

def removeDirAll (p : PathBuf) : M (Except Errno Unit) := Prog.call (Op.removeDirAll p)

def setPermissions (p : PathBuf) (mode : Nat) : M (Except Errno Unit) :=
  Prog.call (Op.setPermissions p mode)

/-- `OpenOptions::new().write(true).create(true).truncate(false).open(..)`. -/
def openCreate (p : PathBuf) : M (Except Errno Unit) := Prog.call (Op.openCreate p)

/-- `File::create_new`. -/
def createNew (p : PathBuf) : M (Except Errno Unit) := Prog.call (Op.createNew p)

/-- `libc::setxattr`. -/
def setxattr (p : PathBuf) (name value : Bytes) : M (Except Errno Unit) :=
  Prog.call (Op.setXattr p name value)

/-- `File::try_lock` and `File::try_lock_shared`. -/
def tryLock (p : PathBuf) (mode : LockMode) : M (Except Errno Unit) := Prog.call (Op.tryLock p mode)

/-- `libc::fcntl` with `F_SETLK` and a write lock on the whole file. -/
def setlk (p : PathBuf) : M (Except Errno Unit) := Prog.call (Op.setlk p)

/-- `Archive::unpack`. -/
def unpack (format : LayerFormat) (body : Body) (p : PathBuf) : M (Except Errno Unit) :=
  Prog.call (Op.unpack format body p)

end Fs

/-- `.with_context(..)?` on an `io::Result`. -/
def orContext {α : Type} (m : Msg) (r : Except Errno α) : M α :=
  .lift (r.mapError fun e => .context m (.io e))

/-- `.with_context(..)`. -/
def withContext {α : Type} (m : Msg) (p : M α) : M α := p.mapError (.context m)

def bail {α : Type} (m : Msg) : M α := .fail (.text m)

/-- `Path::is_dir`. -/
def pathIsDir (p : PathBuf) : M Bool := do
  match ← Fs.metadata p with
  | .ok i => return isDir i
  | .error _ => return false

/-- `Path::is_file`. -/
def pathIsFile (p : PathBuf) : M Bool := do
  match ← Fs.metadata p with
  | .ok i => return isFile i
  | .error _ => return false

/-- `Path::exists`. -/
def pathExists (p : PathBuf) : M Bool := do
  match ← Fs.metadata p with
  | .ok _ => return true
  | .error _ => return false

def get (request : Request) : M (Except HttpError Response) := Prog.call (Op.get request)

def hashOrder (items : List Bytes) : M (List Bytes) := Prog.call (Op.hashOrder items)

def eprintln (m : Msg) : M Unit := Prog.call (Op.eprintln m none)

/-- `eprintln!` of a message that ends in `{error:#}`. -/
def eprintError (m : Msg) (e : Err) : M Unit := Prog.call (Op.eprintln m (some e))

/-- `fs::create_dir_all`; `depth` bounds the number of parents. -/
def createDirAllUpTo : Nat → PathBuf → M (Except Errno Unit)
  | 0, _ => return .error (.other 0)
  | depth + 1, p => do
    match ← Fs.createDir p with
    | .ok () => return .ok ()
    | .error .noent =>
      match p.parent with
      | none => return .error (.other 0)
      | some parent =>
        match ← createDirAllUpTo depth parent with
        | .error e => return .error e
        | .ok () =>
          match ← Fs.createDir p with
          | .ok () => return .ok ()
          | .error e => if ← pathIsDir p then return .ok () else return .error e
    | .error e => if ← pathIsDir p then return .ok () else return .error e

def createDirAll (p : PathBuf) : M (Except Errno Unit) :=
  createDirAllUpTo (p.comps.length + 1) p

end Pakstak
