/-
  The calls of `Posix` at plain places, and what they leave alone.

  A place `d ++ [n]` below a real directory `d` is named by the path spelled like it; the
  first section says what each call does there. `Mkdirs c x y`: `y` is `x` with missing
  directories made on the way to `c`. `Grows p x y`: outside the subtree at `p`, the
  directories and symlinks of `x` are still there in `y`.

  Proved:
  * `rename_eq_ok_iff`: what a rename moves, and where.
  * `walk_mono`: a path that names a directory still names it when the tree has grown.
  * `walk_snoc`: a path to an entry that is no symlink resolves to that entry.
  * `walk_of_locate`: what is moved or removed is what the path names, if it is no symlink.
  * `read_agree`: a file read in two trees that agree where both have something reads the same.
-/
import Pakstak.Lib.Posix

namespace Posix

open FileTree

variable {x y z : Node} {c d d' : Place} {n n' : Bytes}

/-- An entry is not above its directory. -/
theorem entry_not_above (c : Place) (n : Bytes) : ¬ c ++ [n] <+: c := fun h => by
  have := h.length_le
  simp only [List.length_append, List.length_singleton] at this
  omega

theorem snoc_off_snoc {c : Place} {a b : Bytes} (h : a ≠ b) : ¬ c ++ [a] <+: c ++ [b] := by
  rw [List.prefix_append_right_inj, List.cons_prefix_cons]
  exact fun ⟨hab, _⟩ => h hab

/-! ## Calls at a place -/

theorem mkdir_child (hd : x.DirAt d) (hp : PlainPlace d) (hn : Plain n) :
    mkdir x (pathOf (d ++ [n])) =
      match x.find (d ++ [n]) with
      | none => .ok (x.put (d ++ [n]) (some (.dir newDir [])))
      | some _ => .error .exist := by
  have hl := locate_child hd hp hn
  cases hf : x.find (d ++ [n]) with
  | none => simp only [mkdir, pathOf, hl, hf]
  | some i => simp only [mkdir, pathOf, hl, hf]

theorem mkdir_missing (hc : Clear x d) (hm : x.get d = none) (hp : PlainPlace d) (hn : Plain n) :
    mkdir x (pathOf (d ++ [n])) = .error .noent := by
  rw [mkdir, pathOf, locate_missing hc hm hp hn]

theorem openTarget_child (hd : x.DirAt d) (hp : PlainPlace d) (hn : Plain n)
    (hl : NotLink x (d ++ [n])) :
    openTarget x (pathOf (d ++ [n])) =
      if (x.find (d ++ [n])).any isDir then .error .isdir else .ok (d ++ [n]) := by
  rw [openTarget, pathOf, walk_child hd hp hn hl]
  rfl

theorem openCreate_child (hd : x.DirAt d) (hp : PlainPlace d) (hn : Plain n)
    (hl : NotLink x (d ++ [n])) :
    openCreate x (pathOf (d ++ [n])) =
      match x.find (d ++ [n]) with
      | none => .ok (x.put (d ++ [n]) (some (.leaf (.file newFile []))))
      | some i => if isDir i then .error .isdir else .ok x := by
  rw [openCreate, openTarget_child hd hp hn hl]
  cases hf : x.find (d ++ [n]) with
  | none => simp [hf]
  | some i => by_cases hi : isDir i <;> simp [hi, hf]

theorem createNew_child (hd : x.DirAt d) (hp : PlainPlace d) (hn : Plain n) :
    createNew x (pathOf (d ++ [n])) =
      match x.find (d ++ [n]) with
      | none => .ok (x.put (d ++ [n]) (some (.leaf (.file newFile []))))
      | some _ => .error .exist := by
  rw [createNew, pathOf, locate_child hd hp hn]
  rfl

theorem unlink_child (hd : x.DirAt d) (hp : PlainPlace d) (hn : Plain n) :
    unlink x (pathOf (d ++ [n])) =
      match x.find (d ++ [n]) with
      | none => .error .noent
      | some (.inr _) => .error .isdir
      | some (.inl _) => .ok (x.put (d ++ [n]) none) := by
  rw [unlink, pathOf, locate_child hd hp hn]
  rfl

theorem removalTarget_child (hd : x.DirAt d) (hp : PlainPlace d) (hn : Plain n) :
    removalTarget x (pathOf (d ++ [n])) =
      match x.find (d ++ [n]) with
      | none => .error .noent
      | some (.inl (.file _ _)) => .error .notdir
      | some _ => .ok (d ++ [n]) := by
  have hl := locate_child hd hp hn
  cases hf : x.find (d ++ [n]) with
  | none => simp only [removalTarget, pathOf, hl, hf]
  | some i => rcases i with (_ | _) | _ <;> simp only [removalTarget, pathOf, hl, hf]

theorem changeMeta_child {f : Meta → Meta} (hd : x.DirAt d) (hp : PlainPlace d) (hn : Plain n)
    (hl : NotLink x (d ++ [n])) :
    changeMeta f x (pathOf (d ++ [n])) =
      match x.get (d ++ [n]) with
      | none => .error .noent
      | some t => .ok (x.put (d ++ [n]) (some (mapMeta f t))) := by
  rw [changeMeta, pathOf, walk_child hd hp hn hl]
  cases hg : x.get (d ++ [n]) with
  | none => simp [hg]
  | some t => simp [hg]

/-- A rename moves a subtree to a place that is free, a leaf for a leaf, or an empty directory
    for a directory. -/
def Free (x : Node) (dst : Place) (s : Node) : Prop :=
  x.get dst = none ∨ (∃ f, x.get dst = some (.leaf f) ∧ s.isDir = false) ∨
    ∃ m, x.get dst = some (.dir m []) ∧ s.isDir = true

theorem renameInto_eq_ok_iff {src dst : Place} {s : Node} :
    renameInto x src dst s = .ok y ↔
      (src = dst ∧ y = x) ∨
      (¬ src <+: dst ∧ ¬ dst <+: src ∧ Free x dst s ∧ y = (x.put src none).put dst (some s)) := by
  rw [renameInto, Free]
  by_cases h₀ : src = dst
  · rw [if_pos h₀]
    constructor
    · intro h
      cases h
      exact .inl ⟨h₀, rfl⟩
    · rintro (⟨-, rfl⟩ | ⟨h, -⟩)
      · rfl
      · exact absurd (h₀ ▸ List.prefix_rfl) h
  have only {P : Prop} : ((src = dst ∧ y = x) ∨ P) ↔ P := by simp [h₀]
  rw [if_neg h₀, only]
  by_cases h₁ : src <+: dst
  · simp [h₁]
  by_cases h₂ : dst <+: src
  · simp [h₁, h₂]
  rw [if_neg h₁, if_neg h₂]
  cases hg : x.get dst with
  | none =>
    constructor
    · intro h
      cases h
      exact ⟨h₁, h₂, .inl rfl, rfl⟩
    · rintro ⟨-, -, -, rfl⟩
      rfl
  | some t =>
    cases t with
    | leaf f =>
      cases hs : s.isDir with
      | true => simp
      | false =>
        constructor
        · intro h
          cases h
          exact ⟨h₁, h₂, .inr (.inl ⟨f, rfl, rfl⟩), rfl⟩
        · rintro ⟨-, -, -, rfl⟩
          rfl
    | dir m kids =>
      cases hs : s.isDir with
      | false => simp
      | true =>
        by_cases hk : kids = []
        · subst hk
          constructor
          · intro h
            cases h
            exact ⟨h₁, h₂, .inr (.inr ⟨m, rfl, rfl⟩), rfl⟩
          · rintro ⟨-, -, -, rfl⟩
            rfl
        · simp [hk]

theorem rename_eq_ok_iff {p q : PathBuf} :
    rename x p q = .ok y ↔ ∃ d n d' n' s, locate x p = .ok (d, n) ∧ locate x q = .ok (d', n') ∧
      x.get (d ++ [n]) = some s ∧ ((p.slash ∨ q.slash) → s.isDir) ∧
      renameInto x (d ++ [n]) (d' ++ [n']) s = .ok y := by
  rw [rename]
  cases hp : locate x p with
  | error e => simp
  | ok a =>
    obtain ⟨d, n⟩ := a
    cases hq : locate x q with
    | error e => simp
    | ok b =>
      obtain ⟨d', n'⟩ := b
      cases hg : x.get (d ++ [n]) with
      | none => simp [hg]
      | some s =>
        simp only [hg]
        by_cases hs : (p.slash ∨ q.slash) ∧ ¬ s.isDir
        · rw [if_pos hs]
          constructor
          · intro h
            cases h
          · rintro ⟨_, _, _, _, s', h₁, h₂, h₃, h₄, -⟩
            cases h₁
            cases h₂
            rw [hg, Option.some.injEq] at h₃
            subst h₃
            exact absurd (h₄ hs.1) hs.2
        · rw [if_neg hs]
          constructor
          · intro h
            exact ⟨d, n, d', n', s, rfl, rfl, hg, fun h' => by_contra fun hn => hs ⟨h', hn⟩, h⟩
          · rintro ⟨_, _, _, _, s', h₁, h₂, h₃, -, h⟩
            cases h₁
            cases h₂
            rw [hg, Option.some.injEq] at h₃
            exact h₃ ▸ h

/-! ## Changing metadata -/

theorem get_mapMeta {f : Meta → Meta} {t : Node} {q : Place} (hq : q ≠ []) :
    (mapMeta f t).get q = t.get q := by
  obtain ⟨n, q, rfl⟩ := List.exists_cons_of_ne_nil hq
  cases t with
  | leaf l => cases l <;> rfl
  | dir m kids => rfl

theorem dirAt_mapMeta {f : Meta → Meta} {t : Node} {q : Place} :
    (mapMeta f t).DirAt q ↔ t.DirAt q := by
  by_cases hq : q = []
  · subst hq
    cases t with
    | leaf l => cases l <;> exact ⟨fun ⟨_, _, h⟩ => (by cases h), fun ⟨_, _, h⟩ => by cases h⟩
    | dir m kids => exact ⟨fun _ => ⟨m, kids, rfl⟩, fun _ => ⟨f m, kids, rfl⟩⟩
  · rw [DirAt, DirAt, get_mapMeta hq]

/-- A subtree replaced by one with the same directories leaves the directories. -/
theorem dirAt_put_iff {t t' : Node} (hd : x.DirAt d) (ht : x.get (d ++ [n]) = some t)
    (htt : ∀ q, t'.DirAt q ↔ t.DirAt q) (q : Place) :
    (x.put (d ++ [n]) (some t')).DirAt q ↔ x.DirAt q := by
  by_cases hq : d ++ [n] <+: q
  · obtain ⟨r, rfl⟩ := hq
    have h := htt r
    rw [DirAt, DirAt] at h
    rw [DirAt, DirAt, get_append_of_some ht, List.append_assoc, List.singleton_append,
      get_put_append hd]
    exact h
  · exact dirAt_put_off hq _

theorem dirAt_put_mapMeta {f : Meta → Meta} {t : Node} (hd : x.DirAt d)
    (ht : x.get (d ++ [n]) = some t) (q : Place) :
    (x.put (d ++ [n]) (some (mapMeta f t))).DirAt q ↔ x.DirAt q :=
  dirAt_put_iff hd ht (fun _ => dirAt_mapMeta) q

/-- Directories are still there after a change at a place where none was. -/
theorem dirAt_put_of_not (hc : ¬ x.DirAt c) {o : Option Node} {q : Place} (hq : x.DirAt q) :
    (x.put c o).DirAt q :=
  (dirAt_put_off (fun h => hc (dirAt_above hq h)) o).mpr hq

/-- The names in a directory are plain, and lead to its entries. -/
theorem mem_entries {t : Node} {n : Bytes} : n ∈ entries t ↔ (t.kid n).isSome ∧ Plain n := by
  rw [entries, List.mem_filter, mem_names]
  simp

/-! ## Directories made on the way -/

/-- `y` is `x` with missing directories made on the way to `c`. -/
structure Mkdirs (c : Place) (x y : Node) : Prop where
  on : ∀ q, q <+: c → y.find q = x.find q ∨ (x.find q = none ∧ y.find q = some (.inr newDir))
  off : ∀ q, ¬ q <+: c → y.get q = x.get q

theorem Mkdirs.refl (c : Place) (x : Node) : Mkdirs c x x :=
  ⟨fun _ _ => .inl rfl, fun _ _ => rfl⟩

theorem Mkdirs.trans (h : Mkdirs c x y) (h' : Mkdirs c y z) : Mkdirs c x z := by
  refine ⟨fun q hq => ?_, fun q hq => (h'.off q hq).trans (h.off q hq)⟩
  rcases h'.on q hq with h₂ | ⟨h₂, h₃⟩ <;> rcases h.on q hq with h₀ | ⟨h₀, h₁⟩
  · exact .inl (h₂.trans h₀)
  · exact .inr ⟨h₀, h₂.trans h₁⟩
  · exact .inr ⟨h₀ ▸ h₂, h₃⟩
  · exact .inr ⟨h₀, h₃⟩

theorem Mkdirs.mono {c' : Place} (h : Mkdirs c x y) (hc : c <+: c') : Mkdirs c' x y := by
  refine ⟨fun q _ => ?_, fun q hq => h.off q fun hqc => hq (hqc.trans hc)⟩
  by_cases hqc : q <+: c
  · exact h.on q hqc
  · exact .inl (by rw [find, find, h.off q hqc])

theorem mkdirs_put (hd : x.DirAt d) (hf : x.find (d ++ [n]) = none) :
    Mkdirs (d ++ [n]) x (x.put (d ++ [n]) (some (.dir newDir []))) := by
  have hg := find_eq_none_iff.mp hf
  constructor
  · intro q hq
    by_cases hqd : q = d ++ [n]
    · subst hqd
      exact .inr ⟨hf, by rw [find, get_put_append hd]; rfl⟩
    · exact .inl (find_put_off (fun hdq => hqd (hq.eq_of_length_le hdq.length_le)) _)
  · intro q hq
    by_cases hdq : d ++ [n] <+: q
    · obtain ⟨r, rfl⟩ := hdq
      have hr : r ≠ [] := by
        rintro rfl
        exact hq (by simp)
      rw [get_append_of_none hg, List.append_assoc, List.singleton_append, get_put_append hd]
      obtain ⟨m, r, rfl⟩ := List.exists_cons_of_ne_nil hr
      rfl
    · exact get_put_of_disjoint hdq hq _

theorem Mkdirs.find_eq_some (h : Mkdirs c x y) {q : Place} {i : Inode} (hq : x.find q = some i) :
    y.find q = some i := by
  by_cases hqc : q <+: c
  · rcases h.on q hqc with h | ⟨h, -⟩
    · exact h.trans hq
    · rw [hq] at h; cases h
  · rw [find, h.off q hqc]
    exact hq

theorem Mkdirs.dirAt (h : Mkdirs c x y) {q : Place} (hq : x.DirAt q) : y.DirAt q := by
  obtain ⟨m, hm⟩ := dirAt_iff_find.mp hq
  exact dirAt_iff_find.mpr ⟨m, h.find_eq_some hm⟩

theorem Mkdirs.find_or (h : Mkdirs c x y) (q : Place) : y.find q = x.find q ∨ y.DirAt q := by
  by_cases hqc : q <+: c
  · rcases h.on q hqc with h | ⟨-, h⟩
    · exact .inl h
    · exact .inr (dirAt_iff_find.mpr ⟨_, h⟩)
  · exact .inl (by rw [find, find, h.off q hqc])

theorem Mkdirs.clear (h : Mkdirs c x y) (hd : Clear x d) : Clear y d := by
  intro q hq
  rcases h.find_or q with hf | hf
  · rcases hd q hq with hq | hq
    · exact .inl (find_eq_none_iff.mp (hf.trans (find_eq_none_iff.mpr hq)))
    · exact .inr (h.dirAt hq)
  · exact .inr hf

theorem Mkdirs.notLink (h : Mkdirs c x y) {q : Place} (hq : NotLink x q) : NotLink y q := by
  intro t ht
  rcases h.find_or q with hf | hf
  · exact hq t (hf ▸ ht)
  · obtain ⟨m, hm⟩ := dirAt_iff_find.mp hf
    rw [hm] at ht
    cases ht

/-! ## What a change outside `p` keeps -/

theorem Clear.of_agreeOff {p : Place} (hc : Clear x c) (h : AgreeOff p x y) (hp : ¬ p <+: c) :
    Clear y c := by
  intro q hq
  have hpq : ¬ p <+: q := fun hpq => hp (hpq.trans hq)
  rcases hc q hq with hx | hx
  · exact .inl (find_eq_none_iff.mp ((h q hpq).1.trans (find_eq_none_iff.mpr hx)))
  · exact .inr ((h.dirAt hpq).mpr hx)

/-- Outside the subtree at `p`, directories and symlinks are still there. -/
def Grows (p : Place) (x y : Node) : Prop :=
  ∀ q, ¬ p <+: q → (x.DirAt q → y.DirAt q) ∧
    ∀ t, x.find q = some (.inl (.symlink t)) → y.find q = some (.inl (.symlink t))

theorem Grows.refl (p : Place) (x : Node) : Grows p x x := fun _ _ => ⟨id, fun _ => id⟩

theorem Grows.trans {p : Place} (h : Grows p x y) (h' : Grows p y z) : Grows p x z :=
  fun q hq => ⟨fun hx => (h' q hq).1 ((h q hq).1 hx), fun t ht => (h' q hq).2 t ((h q hq).2 t ht)⟩

theorem grows_of_agreeOff {p : Place} (h : AgreeOff p x y) : Grows p x y :=
  fun q hq => ⟨(h.dirAt hq).mpr, fun _ ht => (h q hq).1.trans ht⟩

theorem Mkdirs.grows (h : Mkdirs c x y) (p : Place) : Grows p x y :=
  fun _ _ => ⟨h.dirAt, fun _ ht => h.find_eq_some ht⟩

/-- What is put where no directory or symlink was makes the tree grow. -/
theorem grows_put (p : Place) {o : Option Node}
    (hd : ¬ x.DirAt c) (hl : NotLink x c) : Grows p x (x.put c o) := by
  intro q _
  by_cases hcq : c <+: q
  · have hc : q = c ∨ x.get q = none := by
      obtain ⟨r, rfl⟩ := hcq
      by_cases hr : r = []
      · exact .inl (by rw [hr, List.append_nil])
      · cases hg : x.get (c ++ r) with
        | none => exact .inr rfl
        | some t => exact absurd (dirAt_of_get_append hg hr) hd
    rcases hc with rfl | hc
    · exact ⟨fun h => absurd h hd, fun t ht => absurd ht (hl t)⟩
    · refine ⟨fun ⟨m, kids, h⟩ => ?_, fun t ht => ?_⟩
      · rw [hc] at h; cases h
      · rw [find_eq_none_iff.mpr hc] at ht; cases ht
  · exact ⟨(dirAt_put_off hcq o).mpr, fun t ht => (find_put_off hcq o).trans ht⟩

/-! ## Paths that go on naming what they named -/

theorem walkWith_mono {f g : Place → List Bytes → Except Errno Place}
    (hd : ∀ q, x.DirAt q → y.DirAt q)
    (hl : ∀ q t, x.find q = some (.inl (.symlink t)) → y.find q = some (.inl (.symlink t)))
    (hfg : ∀ a ps c, f a ps = .ok c → x.DirAt c → g a ps = .ok c) {cur : Place}
    {ps : List Bytes} (h : walkWith x f cur ps = .ok c) (hc : x.DirAt c) :
    walkWith y g cur ps = .ok c := by
  induction ps generalizing cur with
  | nil => exact h
  | cons n rest ih =>
    have notLast {i : Option Inode} (hi : x.find (cur ++ [n]) = i)
        (hi' : ∀ m, i ≠ some (.inr m)) {e : Errno}
        (h : (if rest = [] then .ok (cur ++ [n]) else .error e) = Except.ok c) : False := by
      split at h
      · cases h
        obtain ⟨m, hm⟩ := dirAt_iff_find.mp hc
        exact hi' m (hi.symm.trans hm)
      · cases h
    rw [walkWith] at h ⊢
    by_cases hdot : n = dot
    · rw [if_pos hdot] at h ⊢
      exact ih h
    rw [if_neg hdot] at h ⊢
    by_cases hdd : n = dotdot
    · rw [if_pos hdd] at h ⊢
      exact ih h
    rw [if_neg hdd] at h ⊢
    cases hf : x.find (cur ++ [n]) with
    | none =>
      simp only [hf] at h
      exact (notLast hf (by simp) h).elim
    | some i =>
      cases i with
      | inl l =>
        cases l with
        | file m data =>
          simp only [hf] at h
          exact (notLast hf (by simp) h).elim
        | symlink t =>
          simp only [hf] at h
          simp only [hl _ _ hf]
          exact hfg _ _ _ h hc
      | inr m =>
        obtain ⟨m', hm'⟩ := dirAt_iff_find.mp (hd _ (dirAt_iff_find.mpr ⟨m, hf⟩))
        simp only [hf] at h
        simp only [hm']
        exact ih h

/-- A path that names a directory names it still where nothing on its way is gone. -/
theorem walk_mono (hd : ∀ q, x.DirAt q → y.DirAt q)
    (hl : ∀ q t, x.find q = some (.inl (.symlink t)) → y.find q = some (.inl (.symlink t)))
    {p : PathBuf} (h : walk x p = .ok c) (hc : x.DirAt c) : walk y p = .ok c := by
  have key : ∀ links cur ps c, walkLinks x links cur ps = .ok c → x.DirAt c →
      walkLinks y links cur ps = .ok c := by
    intro links
    induction links with
    | zero => exact fun cur ps c h hc => walkWith_mono hd hl (fun _ _ _ h => by cases h) h hc
    | succ links ih => exact fun cur ps c h hc => walkWith_mono hd hl ih h hc
  exact key _ _ _ _ h hc

/-- So does a path to an entry of a directory. -/
theorem locate_mono (hd : ∀ q, x.DirAt q → y.DirAt q)
    (hl : ∀ q t, x.find q = some (.inl (.symlink t)) → y.find q = some (.inl (.symlink t)))
    {p : PathBuf} (h : locate x p = .ok (d, n)) : locate y p = .ok (d, n) := by
  rw [locate] at h ⊢
  split at h
  · cases h
  rename_i m hm
  clear hm
  by_cases hdots : m = dot ∨ m = dotdot
  · rw [if_pos hdots] at h
    cases h
  rw [if_neg hdots] at h ⊢
  split at h
  · cases h
  rename_i e hw
  split at h
  · cases h
  · cases h
  rename_i hf
  cases h
  have hdir : x.DirAt d := dirAt_iff_find.mpr ⟨_, hf⟩
  obtain ⟨j, hj⟩ := dirAt_iff_find.mp (hd d hdir)
  simp only [walk_mono hd hl hw hdir, hj]

/-- Everything that is in `x` is in `y`. -/
def Extends (x y : Node) : Prop := ∀ q i, x.find q = some i → y.find q = some i

theorem Extends.refl (x : Node) : Extends x x := fun _ _ h => h

theorem Extends.trans (h : Extends x y) (h' : Extends y z) : Extends x z :=
  fun q i hq => h' q i (h q i hq)

theorem Extends.dirAt (h : Extends x y) {q : Place} (hq : x.DirAt q) : y.DirAt q := by
  obtain ⟨m, hm⟩ := dirAt_iff_find.mp hq
  exact dirAt_iff_find.mpr ⟨m, h q _ hm⟩

theorem extends_put (hc : x.find c = none) (o : Option Node) : Extends x (x.put c o) := by
  intro q i hq
  by_cases hcq : c <+: q
  · obtain ⟨r, rfl⟩ := hcq
    rw [find_eq_none_iff.mpr (get_append_of_none (find_eq_none_iff.mp hc) r)] at hq
    cases hq
  · rw [find_put_off hcq, hq]

theorem walkWith_extends {f g : Place → List Bytes → Except Errno Place} (h : Extends x y)
    (hnew : x.find c = none → ∃ m data, y.find c = some (.inl (.file m data)))
    (hfg : ∀ a ps, f a ps = .ok c → g a ps = .ok c) {cur : Place} {ps : List Bytes}
    (hw : walkWith x f cur ps = .ok c) : walkWith y g cur ps = .ok c := by
  induction ps generalizing cur with
  | nil => exact hw
  | cons n rest ih =>
    rw [walkWith] at hw ⊢
    by_cases hdot : n = dot
    · rw [if_pos hdot] at hw ⊢
      exact ih hw
    rw [if_neg hdot] at hw ⊢
    by_cases hdd : n = dotdot
    · rw [if_pos hdd] at hw ⊢
      exact ih hw
    rw [if_neg hdd] at hw ⊢
    cases hf : x.find (cur ++ [n]) with
    | none =>
      -- the last piece, which is a file in `y`
      simp only [hf] at hw
      split at hw
      · rename_i hrest
        cases hw
        obtain ⟨m, data, hfile⟩ := hnew hf
        simp only [hfile, hrest, if_true]
      · cases hw
    | some i =>
      rw [h _ _ hf]
      rw [hf] at hw
      rcases i with (_ | t) | m
      · exact hw
      · exact hfg _ _ hw
      · exact ih hw

/-- A path names the same place where nothing is gone and the place is new, if at all, as a
    file. -/
theorem walk_extends (h : Extends x y)
    (hnew : x.find c = none → ∃ m data, y.find c = some (.inl (.file m data))) {p : PathBuf}
    (hw : walk x p = .ok c) : walk y p = .ok c := by
  have key : ∀ links cur ps, walkLinks x links cur ps = .ok c →
      walkLinks y links cur ps = .ok c := by
    intro links
    induction links with
    | zero => exact fun cur ps hw => walkWith_extends h hnew (fun _ _ hf => by cases hf) hw
    | succ links ih => exact fun cur ps hw => walkWith_extends h hnew ih hw
  exact key _ _ _ hw

theorem walkWith_missing {f : Place → List Bytes → Except Errno Place} (hr : x.DirAt [])
    (hf : ∀ a ps, f a ps = .ok c → x.DirAt a → ∃ d n, c = d ++ [n] ∧ x.DirAt d)
    (hc : x.find c = none) {cur : Place} {ps : List Bytes} (hw : walkWith x f cur ps = .ok c)
    (hcur : x.DirAt cur) : ∃ d n, c = d ++ [n] ∧ x.DirAt d := by
  induction ps generalizing cur with
  | nil =>
    cases hw
    obtain ⟨m, hm⟩ := dirAt_iff_find.mp hcur
    rw [hm] at hc
    cases hc
  | cons n rest ih =>
    rw [walkWith] at hw
    by_cases hdot : n = dot
    · rw [if_pos hdot] at hw
      exact ih hw hcur
    rw [if_neg hdot] at hw
    by_cases hdd : n = dotdot
    · rw [if_pos hdd] at hw
      exact ih hw (dirAt_above hcur (List.dropLast_prefix cur))
    rw [if_neg hdd] at hw
    cases hx : x.find (cur ++ [n]) with
    | none =>
      simp only [hx] at hw
      split at hw
      · cases hw
        exact ⟨cur, n, rfl, hcur⟩
      · cases hw
    | some i =>
      rcases i with (_ | t) | m
      · simp only [hx] at hw
        split at hw
        · cases hw
          rw [hx] at hc
          cases hc
        · cases hw
      · simp only [hx] at hw
        refine hf _ _ hw ?_
        split
        · exact hr
        · exact hcur
      · simp only [hx] at hw
        exact ih hw (dirAt_iff_find.mpr ⟨m, hx⟩)

/-- What a path names and is missing would be an entry of a directory. -/
theorem dirAt_of_walk_missing (hr : x.DirAt []) {p : PathBuf} (hw : walk x p = .ok c)
    (hc : x.find c = none) : ∃ d n, c = d ++ [n] ∧ x.DirAt d := by
  have key : ∀ links cur ps, walkLinks x links cur ps = .ok c → x.DirAt cur →
      ∃ d n, c = d ++ [n] ∧ x.DirAt d := by
    intro links
    induction links with
    | zero =>
      exact fun cur ps hw hcur => walkWith_missing hr (fun _ _ hf => by cases hf) hc hw hcur
    | succ links ih => exact fun cur ps hw hcur => walkWith_missing hr ih hc hw hcur
  exact key _ _ _ hw hr

/-- The path leads to something. -/
def Present (x : Node) (p : PathBuf) : Prop := ∃ c, walk x p = .ok c ∧ x.find c ≠ none

theorem Present.extends {p : PathBuf} (h : Present x p) (h' : Extends x y) : Present y p := by
  obtain ⟨c, hw, hc⟩ := h
  obtain ⟨i, hi⟩ := Option.ne_none_iff_exists'.mp hc
  exact ⟨c, walk_extends h' (fun hn => absurd hn hc) hw, by simp [h' c i hi]⟩

theorem openTarget_eq_ok {p : PathBuf} (h : openTarget x p = .ok c) : walk x p = .ok c := by
  rw [openTarget] at h
  split at h
  · cases h
  · split at h
    · cases h
    · split at h
      · cases h
      · cases h
        assumption

/-- A file that has been opened with `O_CREAT` is there, and nothing is gone. -/
theorem extends_openCreate {p : PathBuf} (h : openCreate x p = .ok y) :
    Extends x y ∧ (x.DirAt [] → Present y p) := by
  rw [openCreate] at h
  split at h
  · cases h
  rename_i c htarget
  have hw := openTarget_eq_ok htarget
  split at h
  · rename_i hc
    cases h
    refine ⟨extends_put hc _, fun hr => ?_⟩
    obtain ⟨d, n, rfl, hd⟩ := dirAt_of_walk_missing hr hw hc
    have hfile : (x.put (d ++ [n]) (some (.leaf (.file newFile [])))).find (d ++ [n]) =
        some (.inl (.file newFile [])) := by
      rw [find, get_put_append hd]
      rfl
    exact ⟨d ++ [n], walk_extends (extends_put hc _) (fun _ => ⟨_, _, hfile⟩) hw, by simp [hfile]⟩
  · rename_i hc
    cases h
    exact ⟨.refl _, fun _ => ⟨c, hw, by simp [hc]⟩⟩

theorem extends_mkdir {p : PathBuf} (h : mkdir x p = .ok y) : Extends x y := by
  rw [mkdir] at h
  split at h
  · cases h
  · cases h
  · split at h
    · rename_i hc
      cases h
      exact extends_put hc _
    · cases h

theorem walkWith_snoc {f : Place → List Bytes → Except Errno Place} (hdot : n ≠ dot)
    (hdd : n ≠ dotdot) (hl : NotLink x (c ++ [n]))
    (hf : ∀ a ps, f a ps = .ok c → f a (ps ++ [n]) = .ok (c ++ [n])) (hc : x.DirAt c)
    {cur : Place} {ps : List Bytes} (h : walkWith x f cur ps = .ok c) :
    walkWith x f cur (ps ++ [n]) = .ok (c ++ [n]) := by
  induction ps generalizing cur with
  | nil =>
    cases h
    rw [List.nil_append, walkWith, if_neg hdot, if_neg hdd]
    cases hx : x.find (c ++ [n]) with
    | none => rfl
    | some i =>
      cases i with
      | inl l =>
        cases l with
        | file _ _ => rfl
        | symlink t => exact absurd hx (hl t)
      | inr _ => rfl
  | cons m rest ih =>
    have notLast {i : Option Inode} (hi : x.find (cur ++ [m]) = i)
        (hi' : ∀ m, i ≠ some (.inr m)) {e : Errno}
        (h : (if rest = [] then .ok (cur ++ [m]) else .error e) = Except.ok c) : False := by
      split at h
      · cases h
        obtain ⟨m, hm⟩ := dirAt_iff_find.mp hc
        exact hi' m (hi.symm.trans hm)
      · cases h
    rw [List.cons_append]
    rw [walkWith] at h ⊢
    by_cases hdot : m = dot
    · rw [if_pos hdot] at h ⊢
      exact ih h
    rw [if_neg hdot] at h ⊢
    by_cases hdd : m = dotdot
    · rw [if_pos hdd] at h ⊢
      exact ih h
    rw [if_neg hdd] at h ⊢
    cases hx : x.find (cur ++ [m]) with
    | none =>
      simp only [hx] at h
      exact (notLast hx (by simp) h).elim
    | some i =>
      cases i with
      | inl l =>
        cases l with
        | file _ _ =>
          simp only [hx] at h
          exact (notLast hx (by simp) h).elim
        | symlink t =>
          simp only [hx] at h ⊢
          rw [← List.append_assoc]
          exact hf _ _ h
      | inr _ =>
        simp only [hx] at h ⊢
        exact ih h

/-- A path to an entry of a directory resolves to that entry, unless it is a symlink. -/
theorem walk_snoc {ps : List Bytes} {s s' : Bool} (hdot : n ≠ dot) (hdd : n ≠ dotdot)
    (h : walk x ⟨ps, s⟩ = .ok c) (hc : x.DirAt c) (hl : NotLink x (c ++ [n])) :
    walk x ⟨ps ++ [n], s'⟩ = .ok (c ++ [n]) := by
  have key : ∀ links cur ps, walkLinks x links cur ps = .ok c →
      walkLinks x links cur (ps ++ [n]) = .ok (c ++ [n]) := by
    intro links
    induction links with
    | zero => exact fun cur ps h => walkWith_snoc hdot hdd hl (fun _ _ h => by cases h) hc h
    | succ links ih => exact fun cur ps h => walkWith_snoc hdot hdd hl ih hc h
  exact key _ _ _ h

theorem find_ne_none_of_le {q : Place} (h : x.find c ≠ none) (hq : q <+: c) : x.find q ≠ none := by
  obtain ⟨r, rfl⟩ := hq
  intro hn
  exact h (find_eq_none_iff.mpr (get_append_of_none (find_eq_none_iff.mp hn) r))

theorem walkWith_init {f : Place → List Bytes → Except Errno Place}
    (hf : ∀ a ps c, f a (ps ++ [n]) = .ok c → x.find a ≠ none →
      ∃ d, f a ps = .ok d ∧ x.find d ≠ none)
    {cur : Place} {ps : List Bytes} (h : walkWith x f cur (ps ++ [n]) = .ok c)
    (hc : x.find cur ≠ none) : ∃ d, walkWith x f cur ps = .ok d ∧ x.find d ≠ none := by
  induction ps generalizing cur with
  | nil => exact ⟨cur, rfl, hc⟩
  | cons m rest ih =>
    rw [List.cons_append] at h
    rw [walkWith] at h ⊢
    by_cases hdot : m = dot
    · rw [if_pos hdot] at h ⊢
      exact ih h hc
    rw [if_neg hdot] at h ⊢
    by_cases hdd : m = dotdot
    · rw [if_pos hdd] at h ⊢
      exact ih h (find_ne_none_of_le hc (List.dropLast_prefix cur))
    rw [if_neg hdd] at h ⊢
    cases hx : x.find (cur ++ [m]) with
    | none => simp [hx] at h
    | some i =>
      cases i with
      | inl l =>
        cases l with
        | file _ _ => simp [hx] at h
        | symlink t =>
          simp only [hx] at h ⊢
          rw [← List.append_assoc] at h
          refine hf _ _ _ h ?_
          split
          · exact find_ne_none_of_le hc List.nil_prefix
          · exact hc
      | inr _ =>
        simp only [hx] at h ⊢
        exact ih h (by rw [hx]; simp)

/-- What comes before the last piece of a path that resolves is there. -/
theorem walk_init {ps : List Bytes} {s s' : Bool} (h : walk x ⟨ps ++ [n], s⟩ = .ok c) :
    ∃ d, walk x ⟨ps, s'⟩ = .ok d ∧ x.find d ≠ none := by
  have key : ∀ links a ps c, walkLinks x links a (ps ++ [n]) = .ok c → x.find a ≠ none →
      ∃ d, walkLinks x links a ps = .ok d ∧ x.find d ≠ none := by
    intro links
    induction links with
    | zero => exact fun a ps c h ha => walkWith_init (fun _ _ _ h => by cases h) h ha
    | succ links ih => exact fun a ps c h ha => walkWith_init ih h ha
  exact key _ _ _ _ h (by rw [find, get_nil]; simp)

/-- Nothing is made where the path names a directory, and its parent is not missing. -/
theorem mkdir_of_dir {p : PathBuf} {m : Meta} (h : stat x p = .ok (.inr m)) :
    ∃ e, mkdir x p = .error e ∧ e ≠ .noent := by
  obtain ⟨comps, s⟩ := p
  rcases List.eq_nil_or_concat comps with rfl | ⟨ps, n, rfl⟩
  · exact ⟨.exist, rfl, by simp⟩
  rw [List.concat_eq_append] at *
  by_cases hn : n = dot ∨ n = dotdot
  · exact ⟨.exist, by simp [mkdir, locate, hn], by simp⟩
  rw [stat] at h
  cases hw : walk x ⟨ps ++ [n], s⟩ with
  | error e => rw [hw] at h; cases h
  | ok c =>
    rw [hw] at h
    obtain ⟨d, hd, hdf⟩ : ∃ d, walk x ⟨ps, true⟩ = .ok d ∧ x.find d ≠ none := walk_init hw
    cases hfd : x.find d with
    | none => exact absurd hfd hdf
    | some i =>
      cases i with
      | inl l =>
        have hloc : locate x ⟨ps ++ [n], s⟩ = .error .notdir := by simp [locate, hn, hd, hfd]
        exact ⟨.notdir, by rw [mkdir, hloc], by simp⟩
      | inr m' =>
        have hloc : locate x ⟨ps ++ [n], s⟩ = .ok (d, n) := by simp [locate, hn, hd, hfd]
        cases hfn : x.find (d ++ [n]) with
        | some j => exact ⟨.exist, by rw [mkdir, hloc]; simp only [hfn], by simp⟩
        | none =>
          rw [walk_snoc (fun h => hn (.inl h)) (fun h => hn (.inr h)) hd
            (dirAt_iff_find.mpr ⟨m', hfd⟩) (fun t ht => by rw [hfn] at ht; cases ht),
            Except.ok.injEq] at hw
          subst hw
          simp [hfn] at h

/-! ## Entries that a path leads to -/

theorem locate_eq_ok {p : PathBuf} (h : locate x p = .ok (d, n)) :
    ∃ ps, p.comps = ps ++ [n] ∧ n ≠ dot ∧ n ≠ dotdot ∧ walk x ⟨ps, true⟩ = .ok d ∧ x.DirAt d := by
  rw [locate] at h
  split at h
  · cases h
  rename_i m hm
  obtain ⟨ps, hps⟩ := List.getLast?_eq_some_iff.mp hm
  rw [hps, List.dropLast_concat] at h
  split at h
  · cases h
  rename_i hdots
  rw [not_or] at hdots
  split at h
  · cases h
  rename_i e hw
  split at h
  · cases h
  · cases h
  rename_i hf
  cases h
  exact ⟨ps, hps, hdots.1, hdots.2, hw, dirAt_iff_find.mpr ⟨_, hf⟩⟩

/-- A path that is moved or removed names what it moves, unless that is a symlink. -/
theorem walk_of_locate {p : PathBuf} (h : locate x p = .ok (d, n)) (hl : NotLink x (d ++ [n])) :
    walk x p = .ok (d ++ [n]) := by
  obtain ⟨ps, hps, hdot, hdd, hw, hd⟩ := locate_eq_ok h
  rw [show p = ⟨ps ++ [n], p.slash⟩ by rw [← hps]]
  exact walk_snoc hdot hdd hw hd hl

variable {p : PathBuf}

theorem parent_join (hn : Plain n) (p : PathBuf) : (p.join n).parent = some ⟨p.comps, false⟩ := by
  rw [join_plain hn, parent_pathOf hn.ne_dot]
  rfl

theorem locate_join (hn : Plain n) (hw : walk x p = .ok c) (hc : x.DirAt c) :
    locate x (p.join n) = .ok (c, n) := by
  obtain ⟨m, hm⟩ := dirAt_iff_find.mp hc
  have hw' : walk x ⟨p.comps, true⟩ = .ok c := hw
  rw [join_plain hn]
  simp [locate, pathOf, hn.ne_dot, hn.ne_dotdot, hw', hm]

theorem read_join {data : Bytes} (hn : Plain n) (hw : walk x p = .ok c) (hc : x.DirAt c)
    (hl : NotLink x (c ++ [n])) :
    read x (p.join n) = .ok data ↔ ∃ m, x.find (c ++ [n]) = some (.inl (.file m data)) := by
  have hwalk : walk x (p.join n) = .ok (c ++ [n]) := walk_of_locate (locate_join hn hw hc) hl
  have hs : (p.join n).slash = false := by rw [join_plain hn]; rfl
  rw [read, stat, hwalk]
  cases hf : x.find (c ++ [n]) with
  | none => simp [hf]
  | some i =>
    cases i with
    | inl l =>
      cases l with
      | file m d => simp [hf, hs]
      | symlink t => exact absurd hf (hl t)
    | inr m => simp [hf, hs]

/-! ## Two trees that agree -/

/-- What is at a place of both trees is the same, or a directory in both. -/
def Agreeing (x y : Node) : Prop :=
  ∀ q i j, x.find q = some i → y.find q = some j → i = j ∨ (isDir i = true ∧ isDir j = true)

theorem walkWith_agree {f g : Place → List Bytes → Except Errno Place} (h : Agreeing x y)
    (hfg : ∀ a ps, f a ps = .ok c → g a ps = .ok d → x.find c ≠ none → y.find d ≠ none → c = d)
    {cur : Place} {ps : List Bytes} (hx : walkWith x f cur ps = .ok c)
    (hy : walkWith y g cur ps = .ok d) (hc : x.find c ≠ none) (hd : y.find d ≠ none) : c = d := by
  induction ps generalizing cur with
  | nil =>
    cases hx
    cases hy
    rfl
  | cons n rest ih =>
    rw [walkWith] at hx hy
    by_cases hdot : n = dot
    · rw [if_pos hdot] at hx hy
      exact ih hx hy
    rw [if_neg hdot] at hx hy
    by_cases hdd : n = dotdot
    · rw [if_pos hdd] at hx hy
      exact ih hx hy
    rw [if_neg hdd] at hx hy
    -- a name that is missing ends the walk at nothing
    have last {z : Node} {e : Place} (hz : z.find (cur ++ [n]) = none)
        (hw : (if rest = [] then .ok (cur ++ [n]) else .error Errno.noent) = Except.ok e)
        (he : z.find e ≠ none) : False := by
      split at hw
      · cases hw
        exact he hz
      · cases hw
    cases hfx : x.find (cur ++ [n]) with
    | none =>
      simp only [hfx] at hx
      exact (last hfx hx hc).elim
    | some i =>
      cases hfy : y.find (cur ++ [n]) with
      | none =>
        simp only [hfy] at hy
        exact (last hfy hy hd).elim
      | some j =>
        simp only [hfx] at hx
        simp only [hfy] at hy
        rcases h _ _ _ hfx hfy with rfl | ⟨hi, hj⟩
        · cases i with
          | inl l =>
            cases l with
            | file m data =>
              dsimp only at hx hy
              split at hx
              · rename_i hr
                rw [if_pos hr] at hy
                cases hx
                cases hy
                rfl
              · cases hx
            | symlink t => exact hfg _ _ hx hy hc hd
          | inr m => exact ih hx hy
        · obtain ⟨_, rfl⟩ := isDir_eq_true.mp hi
          obtain ⟨_, rfl⟩ := isDir_eq_true.mp hj
          exact ih hx hy

theorem walk_agree (h : Agreeing x y) {p : PathBuf} (hx : walk x p = .ok c)
    (hy : walk y p = .ok d) (hc : x.find c ≠ none) (hd : y.find d ≠ none) : c = d := by
  have key : ∀ links cur ps, walkLinks x links cur ps = .ok c → walkLinks y links cur ps = .ok d →
      x.find c ≠ none → y.find d ≠ none → c = d := by
    intro links
    induction links with
    | zero => exact fun cur ps => walkWith_agree h fun _ _ hx => by cases hx
    | succ links ih => exact fun cur ps => walkWith_agree h ih
  exact key _ _ _ hx hy hc hd

theorem read_eq_ok {p : PathBuf} {data : Bytes} (h : read x p = .ok data) :
    ∃ c m, walk x p = .ok c ∧ x.find c = some (.inl (.file m data)) := by
  rw [read, stat] at h
  cases hw : walk x p with
  | error e => simp [hw] at h
  | ok c =>
    rw [hw] at h
    dsimp only at h
    cases hf : x.find c with
    | none => simp [hf] at h
    | some i =>
      cases i with
      | inr m => simp [hf, isDir] at h
      | inl l =>
        simp only [hf] at h
        split at h
        · rename_i m data' heq
          split at heq
          · cases heq
          · cases heq
            cases h
            exact ⟨c, m, rfl, hf⟩
        · cases h
        · cases h

/-- A file that can be read in both trees reads the same. -/
theorem read_agree (h : Agreeing x y) {p : PathBuf} {a b : Bytes} (hx : read x p = .ok a)
    (hy : read y p = .ok b) : a = b := by
  obtain ⟨c, m, hwx, hfx⟩ := read_eq_ok hx
  obtain ⟨d, m', hwy, hfy⟩ := read_eq_ok hy
  cases walk_agree h hwx hwy (by simp [hfx]) (by simp [hfy])
  rcases h c _ _ hfx hfy with he | ⟨hi, -⟩
  · cases he
    rfl
  · cases hi

end Posix
