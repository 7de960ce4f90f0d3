/-
  Which calls the permission bits let through, after POSIX.

  `trail x p` are the directories in which resolving `p` looks a name up. `Follows`, `Enters`,
  `Alters` and `Touches` are the rules for the four kinds of calls: resolving a path, looking
  up its last name, making or removing that entry, and reading or writing what is there.
  `may` says which access a mode grants: `owner` for the owner of everything, without
  privileges, `privileged` for one who is never refused.

  Proved, below a real directory (no symlink on the way): `trail_dirAt`, `trail_child`, and
  with them what each rule asks there (`enters_child`, `alters_child`, `touches_dirAt`,
  `touches_child`).
-/
import Pakstak.Lib.Places

namespace Posix

/-! ## Modes -/

inductive Access where
  | read | write | search
  deriving DecidableEq

/-- The bit of the owner. -/
def Access.bit : Access → Nat
  | read => 8
  | write => 7
  | search => 6

/-- What a mode grants the owner. -/
def owner (a : Access) (mode : Nat) : Prop := mode.testBit a.bit

instance (a : Access) (mode : Nat) : Decidable (owner a mode) :=
  inferInstanceAs (Decidable (_ = true))

/-- Nothing is refused. -/
def privileged (_ : Access) (_ : Nat) : Prop := True

def metaOf : Inode → Option Meta
  | .inl (.file m _) => some m
  | .inl (.symlink _) => none
  | .inr m => some m

/-! ## Rules -/

/-- The directories in which `walkWith` looks names up. -/
def trailWith (x : Node) (follow : Place → List Bytes → List Place) :
    Place → List Bytes → List Place
  | _, [] => []
  | cur, n :: rest =>
    cur ::
      if n = dot then trailWith x follow cur rest
      else if n = dotdot then trailWith x follow cur.dropLast rest
      else
        match x.find (cur ++ [n]) with
        | some (.inl (.symlink t)) => follow (if isAbsolute t then [] else cur) (pieces t ++ rest)
        | some (.inr _) => trailWith x follow (cur ++ [n]) rest
        | _ => []

def trailLinks (x : Node) : Nat → Place → List Bytes → List Place
  | 0 => trailWith x fun _ _ => []
  | links + 1 => trailWith x (trailLinks x links)

/-- The directories in which resolving a path looks names up. -/
def trail (x : Node) (p : PathBuf) : List Place := trailLinks x maxLinks [] p.comps

section

variable (may : Access → Nat → Prop) (x : Node) (p : PathBuf)

/-- What is at `q` grants the access. -/
def Lets (a : Access) (q : Place) : Prop := ∀ m, (x.find q).bind metaOf = some m → may a m.mode

/-- The path can be resolved. -/
def Follows : Prop := ∀ q ∈ trail x p, Lets may x .search q

/-- The last name can be looked up. -/
def Enters : Prop :=
  Follows may x ⟨p.comps.dropLast, true⟩ ∧
    ∀ d, walk x ⟨p.comps.dropLast, true⟩ = .ok d → Lets may x .search d

/-- The entry can be made or removed. -/
def Alters : Prop :=
  Enters may x p ∧ ∀ d, walk x ⟨p.comps.dropLast, true⟩ = .ok d → Lets may x .write d

/-- What the path names can be accessed. -/
def Touches (a : Access) : Prop := Follows may x p ∧ ∀ c, walk x p = .ok c → Lets may x a c

end

/-! ## Below a real directory -/

variable {may : Access → Nat → Prop} {x : Node} {e q : Place} {n : Bytes} {a : Access}

theorem prefix_cons_iff {cur d : Place} : (cur <+: q ∧ q <+: cur ++ n :: d ∧ q ≠ cur ++ n :: d) ↔
    q = cur ∨ cur ++ [n] <+: q ∧ q <+: cur ++ [n] ++ d ∧ q ≠ cur ++ [n] ++ d := by
  have hsnoc : cur ++ n :: d = cur ++ [n] ++ d := by simp
  rw [hsnoc]
  constructor
  · rintro ⟨⟨r, rfl⟩, hle, hne⟩
    cases r with
    | nil => exact .inl (List.append_nil _)
    | cons m r =>
      refine .inr ⟨?_, hle, hne⟩
      rw [List.append_assoc, List.prefix_append_right_inj] at hle
      obtain ⟨rfl, -⟩ := List.cons_prefix_cons.mp hle
      exact ⟨r, by simp⟩
  · rintro (rfl | ⟨hle, h⟩)
    · refine ⟨List.prefix_rfl, ⟨n :: d, by simp⟩, fun h => ?_⟩
      simpa using congrArg List.length h
    · exact ⟨(List.prefix_append _ _).trans hle, h⟩

theorem trailWith_dirAt {follow : Place → List Bytes → List Place} {cur d : Place}
    (hd : x.DirAt (cur ++ d)) (hp : PlainPlace d) (rest : List Bytes) :
    q ∈ trailWith x follow cur (d ++ rest) ↔
      (cur <+: q ∧ q <+: cur ++ d ∧ q ≠ cur ++ d) ∨ q ∈ trailWith x follow (cur ++ d) rest := by
  induction d generalizing cur with
  | nil =>
    rw [List.nil_append, List.append_nil, or_iff_right]
    rintro ⟨hle, hle', hne⟩
    exact hne (hle'.eq_of_length_le hle.length_le)
  | cons n d ih =>
    have hn := hp n (by simp)
    have hd' : x.DirAt (cur ++ [n] ++ d) := by simpa using hd
    obtain ⟨m, hm⟩ := FileTree.dirAt_iff_find.mp
      (FileTree.dirAt_above hd' (List.prefix_append _ _))
    rw [List.cons_append, trailWith, if_neg hn.ne_dot, if_neg hn.ne_dotdot]
    simp only [hm, List.mem_cons]
    rw [ih hd' fun a ha => hp a (by simp [ha]), prefix_cons_iff, or_assoc]
    simp

theorem trailLinks_dirAt (hd : x.DirAt e) (hp : PlainPlace e) (links : Nat) (rest : List Bytes) :
    q ∈ trailLinks x links [] (e ++ rest) ↔
      (q <+: e ∧ q ≠ e) ∨ q ∈ trailLinks x links e rest := by
  have h : x.DirAt ([] ++ e) := hd
  cases links <;>
  · rw [trailLinks, trailWith_dirAt h hp]
    simp

theorem trail_dirAt (hd : x.DirAt e) (hp : PlainPlace e) (s : Bool) :
    q ∈ trail x ⟨e, s⟩ ↔ q <+: e ∧ q ≠ e := by
  have h := trailLinks_dirAt (q := q) hd hp maxLinks []
  rw [List.append_nil] at h
  rw [trail, h, or_iff_left]
  simp [maxLinks, trailLinks, trailWith]

/-- The last name of a path is not that of a symlink. -/
def NoLink (x : Node) (e : Place) (n : Bytes) : Prop :=
  n ≠ dot → n ≠ dotdot → NotLink x (e ++ [n])

/-- One name further the directory itself is searched, whatever the name. -/
theorem trail_child (hd : x.DirAt e) (hp : PlainPlace e) (hl : NoLink x e n) (s : Bool) :
    q ∈ trail x ⟨e ++ [n], s⟩ ↔ q <+: e := by
  have hlast : trailLinks x maxLinks e [n] = [e] := by
    rw [maxLinks, trailLinks, trailWith]
    split
    · rfl
    rename_i hdot
    split
    · rfl
    rename_i hdotdot
    cases hf : x.find (e ++ [n]) with
    | none => rfl
    | some i =>
      cases i with
      | inl l =>
        cases l with
        | file _ _ => rfl
        | symlink t => exact absurd hf (hl hdot hdotdot t)
      | inr _ => rfl
  rw [trail, trailLinks_dirAt hd hp, hlast, List.mem_singleton]
  constructor
  · rintro (h | rfl)
    · exact h.1
    · exact List.prefix_rfl
  · intro h
    by_cases hq : q = e
    · exact .inr hq
    · exact .inl ⟨h, hq⟩

/-- The directories above `e` can be searched. -/
def Reaches (may : Access → Nat → Prop) (x : Node) (e : Place) : Prop :=
  ∀ q, q <+: e → q ≠ e → Lets may x .search q

theorem enters_iff (hd : x.DirAt e) (hp : PlainPlace e) :
    Enters may x (pathOf (e ++ [n])) ↔ Reaches may x e ∧ Lets may x .search e := by
  rw [Enters, pathOf, List.dropLast_concat, walk_dirAt hd hp]
  refine and_congr ?_ (by simp)
  constructor
  · exact fun h q hq hne => h q ((trail_dirAt hd hp true).mpr ⟨hq, hne⟩)
  · exact fun h q hq => ((trail_dirAt hd hp true).mp hq).elim (h q)

theorem alters_iff (hd : x.DirAt e) (hp : PlainPlace e) : Alters may x (pathOf (e ++ [n])) ↔
    Reaches may x e ∧ Lets may x .search e ∧ Lets may x .write e := by
  rw [Alters, enters_iff hd hp, pathOf, List.dropLast_concat, walk_dirAt hd hp, and_assoc]
  simp

section

variable (hd : x.DirAt e) (hp : PlainPlace e) (hr : Reaches may x e)

include hd hp hr

theorem follows_dirAt (s : Bool) : Follows may x ⟨e, s⟩ := fun q hq =>
  ((trail_dirAt hd hp s).mp hq).elim (hr q)

theorem follows_child (hl : NoLink x e n) :
    Follows may x (pathOf (e ++ [n])) ↔ Lets may x .search e := by
  constructor
  · exact fun h => h e ((trail_child hd hp hl false).mpr List.prefix_rfl)
  · intro h q hq
    by_cases hqe : q = e
    · exact hqe ▸ h
    · exact hr q ((trail_child hd hp hl false).mp hq) hqe

theorem enters_child : Enters may x (pathOf (e ++ [n])) ↔ Lets may x .search e :=
  (enters_iff hd hp).trans (and_iff_right hr)

theorem alters_child : Alters may x (pathOf (e ++ [n])) ↔
    Lets may x .search e ∧ Lets may x .write e :=
  (alters_iff hd hp).trans (and_iff_right hr)

theorem touches_dirAt : Touches may x (pathOf e) a ↔ Lets may x a e := by
  rw [Touches, pathOf, walk_dirAt hd hp]
  refine (and_iff_right (follows_dirAt hd hp hr false)).trans ?_
  simp

theorem touches_child (hl : NoLink x e n) {c : Place}
    (hw : walk x (pathOf (e ++ [n])) = .ok c) :
    Touches may x (pathOf (e ++ [n])) a ↔ Lets may x .search e ∧ Lets may x a c := by
  rw [Touches, follows_child hd hp hr hl, hw]
  simp

end

end Posix
