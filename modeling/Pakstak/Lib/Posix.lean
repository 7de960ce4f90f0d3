/-
  Path strings and file system calls on a tree of files, after POSIX and the Rust
  standard library.

  A `PathBuf` is an absolute path as the system sees it: the pieces between slashes,
  with `.` and `..` kept, and whether it ends in a slash. `walk` resolves it to the
  place it names, following symlinks (at most `maxLinks`), with `..` taken after the
  symlinks before it. The calls below return the new tree, or the error the call must
  give. Permissions, the lengths of names and paths, and NUL bytes are not here: a call
  refused for such a reason, or by a failing disk, is an `Errno.other`. Every entry has a
  file of its own: there are no hard links.

  Proved, for a place `d ++ [n]` below a real directory `d` (no symlink on the way):
  * `walk_dirAt`, `walk_child`: a path spelled like the place names it.
  * `stat_child`, `lstat_child`, `read_child`, `listDir_dirAt`: what the readers answer.
-/
import Pakstak.Lib.FileTree

namespace Posix

/-! ## Names and paths -/

abbrev Bytes := List UInt8

instance : LawfulBEq Bytes := inferInstance

/-- The UTF-8 bytes of a text. -/
def utf8 (s : String) : Bytes := s.toByteArray.data.toList

/-- A place in the tree: the names on the way from the root. -/
abbrev Place := List Bytes

def slashByte : UInt8 := 47

def dot : Bytes := [46]

def dotdot : Bytes := [46, 46]

/-- The pieces between the slashes of a path string. -/
def pieces (s : Bytes) : List Bytes := (s.splitOn slashByte).filter (· ≠ [])

def isAbsolute (s : Bytes) : Bool := s.head? == some slashByte

def endsInSlash (s : Bytes) : Bool := s.getLast? == some slashByte

/-- A name that a directory entry can have. -/
structure Plain (n : Bytes) : Prop where
  ne_nil : n ≠ []
  no_slash : slashByte ∉ n
  ne_dot : n ≠ dot
  ne_dotdot : n ≠ dotdot

instance (n : Bytes) : Decidable (Plain n) :=
  decidable_of_iff (n ≠ [] ∧ slashByte ∉ n ∧ n ≠ dot ∧ n ≠ dotdot)
    ⟨fun ⟨a, b, c, d⟩ => ⟨a, b, c, d⟩, fun ⟨a, b, c, d⟩ => ⟨a, b, c, d⟩⟩

structure PathBuf where
  comps : List Bytes
  slash : Bool
  deriving DecidableEq

namespace PathBuf

/-- `Path::join`: an absolute argument replaces the path, an empty one adds a slash. -/
def join (p : PathBuf) (s : Bytes) : PathBuf :=
  if isAbsolute s then ⟨pieces s, endsInSlash s⟩
  else ⟨p.comps ++ pieces s, s = [] || endsInSlash s⟩

/-- The components without the `.` ones at the end, which `Path::components` skips. -/
def normal (p : PathBuf) : List Bytes := (p.comps.reverse.dropWhile (· = dot)).reverse

/-- `Path::file_name`. -/
def fileName (p : PathBuf) : Option Bytes :=
  p.normal.getLast?.filter (· ≠ dotdot)

/-- `Path::parent`. -/
def parent (p : PathBuf) : Option PathBuf :=
  if p.normal = [] then none else some ⟨p.normal.dropLast, false⟩

/-- The text of the path. -/
def display (p : PathBuf) : Bytes :=
  (p.comps.flatMap fun n => slashByte :: n) ++ if p.slash then [slashByte] else []

end PathBuf

/-- The path spelled like a place. -/
def pathOf (c : Place) : PathBuf := ⟨c, false⟩

/-! ## The tree -/

structure Meta where
  mode : Nat
  xattrs : List (Bytes × Bytes)
  deriving DecidableEq

inductive Leaf where
  | file (m : Meta) (data : Bytes)
  | symlink (target : Bytes)
  deriving DecidableEq

abbrev Node := FileTree Bytes Leaf Meta

/-- A node without its entries. -/
abbrev Inode := Leaf ⊕ Meta

def isDir : Inode → Bool
  | .inl _ => false
  | .inr _ => true

theorem isDir_eq_true {i : Inode} : isDir i = true ↔ ∃ m, i = .inr m := by
  cases i <;> simp [isDir]

def isFile : Inode → Bool
  | .inl (.file _ _) => true
  | _ => false

/-- Metadata of a new directory and of a new file, under the usual umask. -/
def newDir : Meta := ⟨0o755, []⟩

def newFile : Meta := ⟨0o644, []⟩

/-- The names in a directory, each once. -/
def entries (x : Node) : List Bytes := x.names.filter fun n => Plain n

/-- Change the metadata of a node (a symlink has none). -/
def mapMeta (f : Meta → Meta) : Node → Node
  | .leaf (.file m data) => .leaf (.file (f m) data)
  | .leaf (.symlink t) => .leaf (.symlink t)
  | .dir m kids => .dir (f m) kids

def Meta.setXattr (name value : Bytes) (m : Meta) : Meta :=
  { m with xattrs := (name, value) :: m.xattrs.filter fun a => a.1 ≠ name }

inductive Errno where
  | noent | notdir | isdir | exist | notempty | inval | busy | loop | again
  | other (code : Nat)
  deriving DecidableEq

/-! ## Resolution -/

/-- Walk from the directory `cur` along the remaining pieces. A symlink is handed to
    `follow`. Only the last name may be missing. -/
def walkWith (x : Node) (follow : Place → List Bytes → Except Errno Place) :
    Place → List Bytes → Except Errno Place
  | cur, [] => .ok cur
  | cur, n :: rest =>
    if n = dot then walkWith x follow cur rest
    else if n = dotdot then walkWith x follow cur.dropLast rest
    else
      match x.find (cur ++ [n]) with
      | none => if rest = [] then .ok (cur ++ [n]) else .error .noent
      | some (.inl (.file _ _)) => if rest = [] then .ok (cur ++ [n]) else .error .notdir
      | some (.inl (.symlink t)) => follow (if isAbsolute t then [] else cur) (pieces t ++ rest)
      | some (.inr _) => walkWith x follow (cur ++ [n]) rest

/-- Walk through at most `links` symlinks. -/
def walkLinks (x : Node) : Nat → Place → List Bytes → Except Errno Place
  | 0 => walkWith x fun _ _ => .error .loop
  | links + 1 => walkWith x (walkLinks x links)

def maxLinks : Nat := 40

/-- The place a path names, however long it is. -/
def walk (x : Node) (p : PathBuf) : Except Errno Place := walkLinks x maxLinks [] p.comps

/-- The directory and the name of an entry to make, move or remove: the last piece is
    not followed. -/
def locate (x : Node) (p : PathBuf) : Except Errno (Place × Bytes) :=
  match p.comps.getLast? with
  | none => .error .busy
  | some n =>
    if n = dot ∨ n = dotdot then .error .busy
    else
      match walk x ⟨p.comps.dropLast, true⟩ with
      | .error e => .error e
      | .ok d =>
        match x.find d with
        | none => .error .noent
        | some (.inl _) => .error .notdir
        | some (.inr _) => .ok (d, n)

/-! ## Calls that read -/

/-- `fs::metadata`: symlinks are followed. -/
def stat (x : Node) (p : PathBuf) : Except Errno Inode :=
  match walk x p with
  | .error e => .error e
  | .ok c =>
    match x.find c with
    | none => .error .noent
    | some i => if p.slash ∧ ¬ isDir i then .error .notdir else .ok i

/-- `fs::symlink_metadata`: a symlink at the end is not followed. -/
def lstat (x : Node) (p : PathBuf) : Except Errno Inode :=
  if p.slash ∨ p.comps = [] ∨ p.comps.getLast? = some dot ∨ p.comps.getLast? = some dotdot then
    stat x p
  else
    match locate x p with
    | .error e => .error e
    | .ok (d, n) =>
      match x.find (d ++ [n]) with
      | none => .error .noent
      | some i => .ok i

/-- `fs::read`. -/
def read (x : Node) (p : PathBuf) : Except Errno Bytes :=
  match stat x p with
  | .ok (.inl (.file _ data)) => .ok data
  | .ok _ => .error .isdir
  | .error e => .error e

/-- The names `fs::read_dir` yields, in some order. An entry whose name is not plain cannot
    be reached by any path, and is not listed either. -/
def listDir (x : Node) (p : PathBuf) : Except Errno (List Bytes) :=
  match walk x p with
  | .error e => .error e
  | .ok c =>
    match x.get c with
    | none => .error .noent
    | some (.leaf _) => .error .notdir
    | some (.dir m kids) => .ok (entries (.dir m kids))

/-! ## Calls that change the tree -/

/-- `mkdir(2)`. -/
def mkdir (x : Node) (p : PathBuf) : Except Errno Node :=
  match locate x p with
  | .error .busy => .error .exist
  | .error e => .error e
  | .ok (d, n) =>
    match x.find (d ++ [n]) with
    | none => .ok (x.put (d ++ [n]) (some (.dir newDir [])))
    | some _ => .error .exist

/-- Where a file opened for writing with `O_CREAT` is, or will be. -/
def openTarget (x : Node) (p : PathBuf) : Except Errno Place :=
  if p.slash then .error .isdir
  else
    match walk x p with
    | .error e => .error e
    | .ok c => if (x.find c).any isDir then .error .isdir else .ok c

/-- The file at `c` with its contents replaced by `data`. -/
def withData (x : Node) (c : Place) (data : Bytes) : Node :=
  match x.find c with
  | some (.inl (.file m _)) => x.put c (some (.leaf (.file m data)))
  | _ => x.put c (some (.leaf (.file newFile data)))

/-- `open(2)` with `O_WRONLY | O_CREAT` and no truncation. -/
def openCreate (x : Node) (p : PathBuf) : Except Errno Node :=
  match openTarget x p with
  | .error e => .error e
  | .ok c =>
    match x.find c with
    | none => .ok (x.put c (some (.leaf (.file newFile []))))
    | some _ => .ok x

/-- `File::create_new`. -/
def createNew (x : Node) (p : PathBuf) : Except Errno Node :=
  if p.slash then .error .isdir
  else
    match locate x p with
    | .error e => .error e
    | .ok (d, n) =>
      match x.find (d ++ [n]) with
      | none => .ok (x.put (d ++ [n]) (some (.leaf (.file newFile []))))
      | some _ => .error .exist

/-- Whether the subtree `s` at `src` may replace what is at `dst`. -/
def renameInto (x : Node) (src dst : Place) (s : Node) : Except Errno Node :=
  if src = dst then .ok x
  else if src <+: dst then .error .inval
  else if dst <+: src then .error .notempty
  else
    match x.get dst with
    | none => .ok ((x.put src none).put dst (some s))
    | some (.leaf _) =>
      if s.isDir then .error .notdir else .ok ((x.put src none).put dst (some s))
    | some (.dir _ kids) =>
      if ¬ s.isDir then .error .isdir
      else if kids ≠ [] then .error .notempty
      else .ok ((x.put src none).put dst (some s))

/-- `rename(2)`. -/
def rename (x : Node) (p q : PathBuf) : Except Errno Node :=
  match locate x p with
  | .error e => .error e
  | .ok (d, n) =>
    match locate x q with
    | .error e => .error e
    | .ok (d', n') =>
      match x.get (d ++ [n]) with
      | none => .error .noent
      | some s =>
        if (p.slash ∨ q.slash) ∧ ¬ s.isDir then .error .notdir
        else renameInto x (d ++ [n]) (d' ++ [n']) s

/-- `unlink(2)`. -/
def unlink (x : Node) (p : PathBuf) : Except Errno Node :=
  match locate x p with
  | .error e => .error e
  | .ok (d, n) =>
    match x.find (d ++ [n]) with
    | none => .error .noent
    | some (.inr _) => .error .isdir
    | some (.inl _) => if p.slash then .error .notdir else .ok (x.put (d ++ [n]) none)

/-- The place `fs::remove_dir_all` empties and removes. A symlink is removed itself. -/
def removalTarget (x : Node) (p : PathBuf) : Except Errno Place :=
  match locate x p with
  | .error e => .error e
  | .ok (d, n) =>
    match x.find (d ++ [n]) with
    | none => .error .noent
    | some (.inl (.file _ _)) => .error .notdir
    | some _ => .ok (d ++ [n])

/-- `y` is `x` with some entries gone: what a removal of `x` broken off may leave. -/
def Remnant (y x : Node) : Prop := ∀ q i, y.find q = some i → x.find q = some i

/-- Change the metadata at the place a path names, and nowhere else. -/
def changeMeta (f : Meta → Meta) (x : Node) (p : PathBuf) : Except Errno Node :=
  match walk x p with
  | .error e => .error e
  | .ok c =>
    match x.get c with
    | none => .error .noent
    | some t => if p.slash ∧ ¬ t.isDir then .error .notdir else .ok (x.put c (some (mapMeta f t)))

/-! ## Plain names -/

theorem pieces_of_noSlash {n : Bytes} (hn : n ≠ []) (hs : slashByte ∉ n) : pieces n = [n] := by
  have : n.splitOn slashByte = [n] := by
    rw [List.splitOn_eq_splitOnP]
    refine List.splitOnP_eq_singleton fun b hb => ?_
    exact beq_eq_false_iff_ne.mpr fun he => hs (he ▸ hb)
  simp [pieces, this, hn]

theorem pieces_plain {n : Bytes} (h : Plain n) : pieces n = [n] :=
  pieces_of_noSlash h.ne_nil h.no_slash

theorem not_mem_of_mem_splitOn {s n : Bytes} {b : UInt8} (h : n ∈ s.splitOn b) : b ∉ n := by
  have key : ∀ s acc : Bytes, b ∉ acc → ∀ n ∈ s.splitOnPPrepend (· == b) acc, b ∉ n := by
    intro s
    induction s with
    | nil =>
      intro acc hacc n hn
      rw [List.splitOnPPrepend_nil, List.mem_singleton] at hn
      rw [hn, List.mem_reverse]
      exact hacc
    | cons a s ih =>
      intro acc hacc n hn
      rw [List.splitOnPPrepend_cons_eq_if] at hn
      split at hn
      · rcases List.mem_cons.mp hn with rfl | hn
        · rwa [List.mem_reverse]
        · exact ih [] (by simp) n hn
      · rename_i ha
        refine ih (a :: acc) (fun hb => ?_) n hn
        rcases List.mem_cons.mp hb with rfl | hb
        · exact ha (beq_self_eq_true b)
        · exact hacc hb
  exact key s [] (by simp) n h

theorem proper_of_mem_pieces {s n : Bytes} (h : n ∈ pieces s) : n ≠ [] ∧ slashByte ∉ n := by
  obtain ⟨hn, hne⟩ := List.mem_filter.mp h
  exact ⟨by simpa using hne, not_mem_of_mem_splitOn hn⟩

theorem isAbsolute_plain {n : Bytes} (h : Plain n) : isAbsolute n = false := by
  refine beq_eq_false_iff_ne.mpr fun he => h.no_slash ?_
  exact List.mem_of_mem_head? he

theorem endsInSlash_plain {n : Bytes} (h : Plain n) : endsInSlash n = false := by
  refine beq_eq_false_iff_ne.mpr fun he => h.no_slash ?_
  exact List.mem_of_getLast? he

/-- Joining a plain name goes one entry down. -/
theorem join_plain {n : Bytes} (h : Plain n) (p : PathBuf) :
    p.join n = pathOf (p.comps ++ [n]) := by
  simp [PathBuf.join, isAbsolute_plain h, pieces_plain h, endsInSlash_plain h, h.ne_nil, pathOf]

theorem normal_pathOf {c : Place} {n : Bytes} (h : n ≠ dot) :
    (pathOf (c ++ [n])).normal = c ++ [n] := by
  simp [PathBuf.normal, pathOf, h]

theorem fileName_pathOf {c : Place} {n : Bytes} (h : Plain n) :
    (pathOf (c ++ [n])).fileName = some n := by
  rw [PathBuf.fileName, normal_pathOf h.ne_dot]
  simp [Option.filter, h.ne_dotdot]

theorem parent_pathOf {c : Place} {n : Bytes} (h : n ≠ dot) :
    (pathOf (c ++ [n])).parent = some (pathOf c) := by
  rw [PathBuf.parent, normal_pathOf h]
  simp [pathOf]

/-! ## Places without symlinks on the way -/

/-- Every name on the way is plain. -/
def PlainPlace (c : Place) : Prop := ∀ n ∈ c, Plain n

instance (c : Place) : Decidable (PlainPlace c) := inferInstanceAs (Decidable (∀ n ∈ c, Plain n))

theorem PlainPlace.append {c d : Place} (hc : PlainPlace c) (hd : PlainPlace d) :
    PlainPlace (c ++ d) := fun n hn => (List.mem_append.mp hn).elim (hc n) (hd n)

theorem PlainPlace.snoc {c : Place} {n : Bytes} (hc : PlainPlace c) (hn : Plain n) :
    PlainPlace (c ++ [n]) := hc.append fun _ hm => List.mem_singleton.mp hm ▸ hn

theorem PlainPlace.up {c d : Place} (hd : PlainPlace d) (h : c <+: d) : PlainPlace c :=
  fun n hn => hd n (h.subset hn)

/-- What stands on the way to `c`, and at `c`, is a directory or missing. -/
def Clear (x : Node) (c : Place) : Prop := ∀ q, q <+: c → x.get q = none ∨ x.DirAt q

theorem Clear.up {x : Node} {c d : Place} (h : Clear x d) (hc : c <+: d) : Clear x c :=
  fun q hq => h q (hq.trans hc)

theorem clear_of_dirAt {x : Node} {c : Place} (h : x.DirAt c) : Clear x c :=
  fun _ hq => Or.inr (FileTree.dirAt_above h hq)

theorem walkWith_dirAt {x : Node} {follow : Place → List Bytes → Except Errno Place}
    {cur d : Place} (hd : x.DirAt (cur ++ d)) (hp : PlainPlace d) (rest : List Bytes) :
    walkWith x follow cur (d ++ rest) = walkWith x follow (cur ++ d) rest := by
  induction d generalizing cur with
  | nil => simp
  | cons n d ih =>
    have hn := hp n (by simp)
    have hd' : x.DirAt (cur ++ [n] ++ d) := by simpa using hd
    obtain ⟨m, hm⟩ := FileTree.dirAt_iff_find.mp
      (FileTree.dirAt_above hd' (List.prefix_append _ _))
    rw [List.cons_append, walkWith, if_neg hn.ne_dot, if_neg hn.ne_dotdot]
    simp only [hm]
    rw [ih hd' fun a ha => hp a (by simp [ha])]
    simp

theorem walkLinks_dirAt {x : Node} {d : Place} (hd : x.DirAt d) (hp : PlainPlace d)
    (links : Nat) (rest : List Bytes) :
    walkLinks x links [] (d ++ rest) = walkLinks x links d rest := by
  have h : x.DirAt ([] ++ d) := hd
  cases links <;> exact walkWith_dirAt h hp rest

theorem walk_dirAt {x : Node} {d : Place} (hd : x.DirAt d) (hp : PlainPlace d) (s : Bool) :
    walk x ⟨d, s⟩ = .ok d := by
  have := walkLinks_dirAt hd hp maxLinks []
  rw [List.append_nil] at this
  exact this

/-- No symlink stands at `c`. -/
def NotLink (x : Node) (c : Place) : Prop := ∀ t, x.find c ≠ some (.inl (.symlink t))

theorem walk_child {x : Node} {d : Place} {n : Bytes} (hd : x.DirAt d) (hp : PlainPlace d)
    (hn : Plain n) (hl : NotLink x (d ++ [n])) (s : Bool) :
    walk x ⟨d ++ [n], s⟩ = .ok (d ++ [n]) := by
  have h := walkLinks_dirAt hd hp maxLinks [n]
  rw [walk, h, maxLinks, walkLinks, walkWith, if_neg hn.ne_dot, if_neg hn.ne_dotdot]
  cases hf : x.find (d ++ [n]) with
  | none => rfl
  | some i =>
    match i with
    | .inl (.file _ _) => rfl
    | .inl (.symlink t) => exact absurd hf (hl t)
    | .inr _ => rfl

/-- Below a missing directory nothing is found. -/
theorem walk_missing {x : Node} {d : Place} (hc : Clear x d) (hm : x.get d = none)
    (hp : PlainPlace d) {rest : List Bytes} (hr : rest ≠ []) (s : Bool) :
    walk x ⟨d ++ rest, s⟩ = .error .noent := by
  induction d using List.reverseRecOn generalizing rest with
  | nil => simp at hm
  | append_singleton d n ih =>
    have hpd : PlainPlace d := hp.up (List.prefix_append _ _)
    rcases hc d (List.prefix_append _ _) with h | h
    · rw [List.append_assoc]
      exact ih (hc.up (List.prefix_append _ _)) h hpd (by simp)
    · have hn := hp n (by simp)
      have hw := walkLinks_dirAt h hpd maxLinks (n :: rest)
      rw [walk, List.append_assoc, List.singleton_append, hw, maxLinks, walkLinks, walkWith,
        if_neg hn.ne_dot, if_neg hn.ne_dotdot, FileTree.find_eq_none_iff.mpr hm]
      simp [hr]

theorem locate_child {x : Node} {d : Place} {n : Bytes} (hd : x.DirAt d) (hp : PlainPlace d)
    (hn : Plain n) (s : Bool) : locate x ⟨d ++ [n], s⟩ = .ok (d, n) := by
  obtain ⟨m, hm⟩ := FileTree.dirAt_iff_find.mp hd
  simp [locate, hn.ne_dot, hn.ne_dotdot, walk_dirAt hd hp, hm]

theorem locate_missing {x : Node} {d : Place} {n : Bytes} (hc : Clear x d)
    (hm : x.get d = none) (hp : PlainPlace d) (hn : Plain n) (s : Bool) :
    locate x ⟨d ++ [n], s⟩ = .error .noent := by
  rw [locate]
  simp only [List.getLast?_append, List.getLast?_singleton, Option.some_or, hn.ne_dot,
    hn.ne_dotdot, or_self, if_false, List.dropLast_concat]
  obtain ⟨d', a, rfl⟩ : ∃ d' a, d = d' ++ [a] := by
    rcases List.eq_nil_or_concat d with h | ⟨d', a, h⟩
    · subst h; simp at hm
    · exact ⟨d', a, by rw [h, List.concat_eq_append]⟩
  have hpd : PlainPlace d' := hp.up (List.prefix_append _ _)
  rcases hc d' (List.prefix_append _ _) with h | h
  · rw [walk_missing (hc.up (List.prefix_append _ _)) h hpd (by simp)]
  · have hf := FileTree.find_eq_none_iff.mpr hm
    rw [walk_child h hpd (hp a (by simp)) (fun t ht => by simp [hf] at ht)]
    simp only [hf]

/-- The metadata of an entry that is no symlink, its directory there or not. -/
theorem stat_child {x : Node} {d : Place} {n : Bytes} (hc : Clear x d) (hp : PlainPlace d)
    (hn : Plain n) (hl : NotLink x (d ++ [n])) :
    stat x (pathOf (d ++ [n])) =
      match x.find (d ++ [n]) with
      | none => .error .noent
      | some i => .ok i := by
  rcases hc d List.prefix_rfl with h | h
  · have hf := FileTree.find_eq_none_iff.mpr (FileTree.get_append_of_none h [n])
    rw [stat, pathOf, walk_missing hc h hp (by simp), hf]
  · rw [stat, pathOf, walk_child h hp hn hl]
    cases hf : x.find (d ++ [n]) <;> simp [hf]

theorem lstat_child {x : Node} {d : Place} {n : Bytes} (hc : Clear x d) (hp : PlainPlace d)
    (hn : Plain n) :
    lstat x (pathOf (d ++ [n])) =
      match x.find (d ++ [n]) with
      | none => .error .noent
      | some i => .ok i := by
  have hcond : ¬ ((pathOf (d ++ [n])).slash ∨ (pathOf (d ++ [n])).comps = [] ∨
      (pathOf (d ++ [n])).comps.getLast? = some dot ∨
      (pathOf (d ++ [n])).comps.getLast? = some dotdot) := by
    simp [pathOf, hn.ne_dot, hn.ne_dotdot]
  rw [lstat, if_neg hcond, pathOf]
  rcases hc d List.prefix_rfl with h | h
  · rw [locate_missing hc h hp hn,
      FileTree.find_eq_none_iff.mpr (FileTree.get_append_of_none h [n])]
  · rw [locate_child h hp hn]

theorem read_child {x : Node} {d : Place} {n : Bytes} (hc : Clear x d) (hp : PlainPlace d)
    (hn : Plain n) (hl : NotLink x (d ++ [n])) :
    read x (pathOf (d ++ [n])) =
      match x.find (d ++ [n]) with
      | none => .error .noent
      | some (.inl (.file _ data)) => .ok data
      | some _ => .error .isdir := by
  rw [read, stat_child hc hp hn hl]
  cases x.find (d ++ [n]) with
  | none => rfl
  | some i =>
    match i with
    | .inl (.file _ _) => rfl
    | .inl (.symlink _) => rfl
    | .inr _ => rfl

theorem listDir_dirAt {x t : Node} {d : Place} (hd : x.get d = some t) (ht : t.isDir)
    (hp : PlainPlace d) : listDir x (pathOf d) = .ok (entries t) := by
  cases t with
  | leaf f => cases ht
  | dir m kids =>
    rw [listDir, pathOf, walk_dirAt ⟨m, kids, hd⟩ hp]
    simp only [hd]

theorem listDir_missing {x : Node} {d : Place} {n : Bytes} (hc : Clear x d) (hp : PlainPlace d)
    (hn : Plain n) (hm : x.get (d ++ [n]) = none) :
    listDir x (pathOf (d ++ [n])) = .error .noent := by
  have hf := FileTree.find_eq_none_iff.mpr hm
  rcases hc d List.prefix_rfl with h | h
  · rw [listDir, pathOf, walk_missing hc h hp (by simp)]
  · rw [listDir, pathOf, walk_child h hp hn (fun t ht => by simp [hf] at ht)]
    simp only [hm]

end Posix
