/-
  Where the container argument of a command leads.

  The argument is joined to the path of the containers, and only tested to be a directory:
  it may lead anywhere. `Site` are the directories that `update` and `switch` can write a
  digest to, given that they read a reference there first; `Spares` is what the argument of
  `uninstall` must leave alone.

  Proved, for a tidy store:
  * `site_of_reference`: no table but the locks, and the layers, has a `reference.json`.
  * `Site.moved`: a digest written at a site is one move of the contents.
  * `Removed.moved`: so is a removal that spares the manifests and the layers.
-/
import Pakstak.Fetching

namespace Pakstak

open Posix Prog FileTree

variable {env : Env} {slack : Slack} {S c : Place} {x : Node} {p : PathBuf} {w w' : World}

/-! ## Tables and places -/

theorem table_le_entry {k k' : Kind} {n : Bytes} (h : tablePlace S k <+: entryPlace S k' n) :
    k = k' := by
  rw [entryPlace, tablePlace, tablePlace, List.append_assoc, List.prefix_append_right_inj,
    List.cons_append, List.cons_prefix_cons] at h
  exact head_injective h.1

/-- A change inside one table does not touch another. -/
theorem view_put_within {k k' : Kind} (h : tablePlace S k <+: c) (hk : k' ≠ k) (o : Option Node)
    (n : Bytes) : view S (x.put c o) k' n = view S x k' n := by
  refine get_put_of_disjoint (fun h' => hk (table_le_entry (h.trans h')).symm) (fun h' => ?_) o
  rcases List.prefix_or_prefix_of_prefix h h' with h | h
  · exact hk (table_le_entry h).symm
  · exact entry_off_table k' k n h

/-- Above a table stand only the store and the directory of the locks. -/
theorem le_table {k : Kind} {a : Bytes} (ha : a ∉ k.head :: k.tail)
    (h : c ++ [a] <+: tablePlace S k) : c ++ [a] <+: S := by
  rcases List.prefix_or_prefix_of_prefix h (store_le_table S k) with h' | ⟨q, hq⟩
  · exact h'
  rw [tablePlace, ← hq, List.prefix_append_right_inj] at h
  rcases List.eq_nil_or_concat q with rfl | ⟨q', b, rfl⟩
  · rw [← hq, List.append_nil]
  · rw [List.concat_eq_append, ← List.append_assoc] at hq
    obtain ⟨-, hb⟩ := List.append_inj' hq rfl
    cases hb
    exact absurd (h.subset (by simp)) ha

theorem digestFile_not_mem (k : Kind) : digestFile ∉ k.head :: k.tail := by
  cases k <;> decide +kernel

/-- No directory is at or below a file. -/
theorem not_dirAt_of_leaf {f : Leaf} (h : x.get c = some (.leaf f)) (r : Place) :
    ¬ x.DirAt (c ++ r) := by
  rintro ⟨m, kids, hd⟩
  rw [get_append_of_some h] at hd
  cases r <;> simp [get_cons, kid] at hd

/-- A container of a tidy store has no directory in it. -/
theorem Tidy.below_container (ht : Tidy env (view S x)) {n a : Bytes} {r : Place} {u : Node}
    (h : x.get (entryPlace S .containers n ++ a :: r) = some u) :
    ∃ m data, u = .leaf (.file m data) := by
  rw [get_append] at h
  obtain ⟨t, hn, h⟩ := Option.bind_eq_some_iff.mp h
  rw [get_cons] at h
  obtain ⟨v, hv, h⟩ := Option.bind_eq_some_iff.mp h
  obtain ⟨m, data, rfl⟩ := (ht.container n t hn).2.1 a v hv
  cases r with
  | nil => exact ⟨m, data, (Option.some.inj h).symm⟩
  | cons b r => simp [get_cons, kid] at h

/-! ## Where a digest is written -/

/-- A directory that a command can take for a container. -/
inductive Site (slack : Slack) (S c : Place) : Prop
  | container (n : Bytes) (h : c = entryPlace S .containers n)
  | layers (h : slack.layers) (hc : tablePlace S .layers <+: c)
  | locks (hc : tablePlace S .locks <+: c)
  | off (h : ∀ k, ¬ tablePlace S k <+: c)

theorem site_of_reference {bytes : Bytes} (hl : Layout S x) (ht : Tidy env (view S x))
    (hw : walk x p = .ok c) (hd : x.DirAt c) (href : read x (p.join referenceFile) = .ok bytes)
    (hs : slack.layers ∨ ¬ tablePlace S .layers <+: c) : Site slack S c := by
  by_cases h : ∃ k, tablePlace S k <+: c
  swap
  · exact .off fun k hk => h ⟨k, hk⟩
  -- an entry `reference.json` of a table, where the site is the table
  have entry {k : Kind} (hc : c = tablePlace S k) :
      ∃ m, view S x k referenceFile = some (.leaf (.file m bytes)) := by
    subst hc
    obtain ⟨m, hm⟩ := (read_join plain_referenceFile hw hd (hl.entry k referenceFile)).mp href
    obtain ⟨t, ht, hlabel⟩ := find_eq_some_iff.mp hm
    refine ⟨m, ht.trans ?_⟩
    cases t <;> simp_all [label]
  obtain ⟨k, r, hr⟩ := h
  cases k with
  | containers =>
    cases r with
    | nil =>
      obtain ⟨m, hm⟩ := entry (k := .containers) (by simpa using hr.symm)
      cases (ht.container _ _ hm).1
    | cons n r =>
      have hc : c = entryPlace S .containers n ++ r := by simp [entryPlace, ← hr]
      cases r with
      | nil => exact .container n (by simpa using hc)
      | cons a r =>
        obtain ⟨m, kids, hg⟩ := hd
        obtain ⟨_, _, hu⟩ := ht.below_container (hc ▸ hg)
        cases hu
  | manifests =>
    cases r with
    | nil =>
      obtain ⟨m, hm⟩ := entry (k := .manifests) (by simpa using hr.symm)
      obtain ⟨d, _, _, _, hn, -, hv, -⟩ := ht.manifest _ _ hm
      have hcolon := colon_mem_of_wellFormed (wellFormed_of_verifies hv)
      have : (58 : UInt8) ∈ referenceFile := hn ▸ List.mem_append_left _ hcolon
      exact absurd this (by decide +kernel)
    | cons n r =>
      have hc : c = entryPlace S .manifests n ++ r := by simp [entryPlace, ← hr]
      subst hc
      cases hg : view S x .manifests n with
      | none =>
        obtain ⟨m, kids, hd⟩ := hd
        rw [get_append_of_none hg] at hd
        cases hd
      | some t =>
        obtain ⟨_, _, _, _, -, rfl, -, -⟩ := ht.manifest _ _ hg
        exact absurd hd (not_dirAt_of_leaf hg r)
  | layers => exact .layers (hs.resolve_right (not_not.mpr ⟨r, hr⟩)) ⟨r, hr⟩
  | locks => exact .locks ⟨r, hr⟩

/-- No manifest is saved in a file of this name. -/
theorem manifestName_ne_digestFile (d : Bytes) : manifestName d ≠ digestFile := by
  intro h
  have hlast := congrArg List.getLast? h
  rw [manifestName, List.getLast?_append, show (utf8 ".json").getLast? = some 110 by decide +kernel,
    show digestFile.getLast? = some 116 by decide +kernel] at hlast
  exact absurd hlast (by simp)

theorem Published.off_table {m : Bytes} {t : Node} (h : Published S c digestFile m t w w')
    (k : Kind) : ¬ c ++ [digestFile] <+: tablePlace S k := fun hk =>
  h.above ((le_table (digestFile_not_mem k) hk).trans (List.prefix_append _ _))

theorem Published.layout {digest m : Bytes} (hl : Layout S w.root)
    (h : Published S c digestFile m (.leaf (.file newFile digest)) w w') : Layout S w'.root := by
  refine h.placed.layout (layout_put hl (by simp) (.inr ⟨h.above, h.off_table, fun k n he => ?_⟩))
  obtain ⟨-, hn⟩ := List.append_inj' he rfl
  cases hn
  exact plain_digestFile

/-- A digest written at a site. -/
theorem Site.moved {digest m : Bytes} (hc : Site slack S c) (hr : Ready S w) (hd : w.root.DirAt c)
    (hw : WellFormed digest) (hs : slack.unsaved ∨ Saved env (view S w.root) digest)
    (h : Published S c digestFile m (.leaf (.file newFile digest)) w w') :
    Moved env slack S w w' := by
  have hoff := h.off_table
  have hl : Layout S w'.root := h.layout hr.layout
  refine ⟨hl, ?_, congrArg Prod.fst h.placed.aside⟩
  rw [h.placed.view_eq]
  -- a table in which the site is not
  have same {k : Kind} (hk : tablePlace S k <+: c) {k' : Kind} (hne : k' ≠ k) (n : Bytes) :=
    view_put_within (x := w.root) (hk.trans (List.prefix_append c [digestFile])) hne
      (some (.leaf (.file newFile digest))) n
  cases hc with
  | container n hc =>
    subst hc
    obtain ⟨m, kids, hg⟩ := hd
    have hg' : view S w.root .containers n = some (.dir m kids) := hg
    rw [view_put_below (by simp), hg', Option.map_some, put_singleton]
    exact .single (.setDigest hg' hw hs)
  | layers hsl hc =>
    exact .single (.other (fun n => .inl (same hc (by simp) n))
      (fun n => .inl (same hc (by simp) n)) (.inl hsl))
  | locks hc =>
    exact .single (.other (fun n => .inl (same hc (by simp) n))
      (fun n => .inl (same hc (by simp) n)) (.inr fun n => same hc (by simp) n))
  | off hc =>
    rw [view_put_off (fun k n h' => ?_) (fun k n h' => ?_)]
    · rcases List.prefix_concat_iff.mp h' with h' | h'
      · obtain ⟨ht, -⟩ := List.append_inj' h' rfl
        exact hc k (ht ▸ List.prefix_rfl)
      · exact hoff k h'
    · rcases List.prefix_concat_iff.mp h' with h' | h'
      · obtain ⟨ht, -⟩ := List.append_inj' h' rfl
        exact hc k (ht ▸ List.prefix_rfl)
      · exact hc k ((List.prefix_append _ _).trans h')

/-! ## What a digest written changes -/

/-- An entry of a table after a digest has been written to the directory `c`. -/
theorem Published.entry {digest m : Bytes} (hd : w.root.DirAt c)
    (h : Published S c digestFile m (.leaf (.file newFile digest)) w w') (k : Kind) (n : Bytes) :
    view S w'.root k n = view S w.root k n ∨
      (c = tablePlace S k ∧ n = digestFile ∧
        view S w'.root k n = some (.leaf (.file newFile digest))) ∨
      ∃ r, c = entryPlace S k n ++ r ∧ view S w'.root k n =
        (view S w.root k n).map fun t => t.put (r ++ [digestFile])
          (some (.leaf (.file newFile digest))) := by
  rw [h.placed.view_eq]
  by_cases hle : entryPlace S k n <+: c
  · obtain ⟨r, rfl⟩ := hle
    refine .inr (.inr ⟨r, rfl, ?_⟩)
    rw [List.append_assoc, view_put_below (by simp), Store.set_same]
  by_cases he : entryPlace S k n = c ++ [digestFile]
  · obtain ⟨rfl, hn⟩ := List.append_inj' he rfl
    cases hn
    exact .inr (.inl ⟨rfl, rfl, get_put_append hd _ []⟩)
  · refine .inl (get_put_of_disjoint (fun h' => ?_) (fun h' => ?_) _)
    · rcases List.prefix_concat_iff.mp h' with h' | h'
      · exact he h'.symm
      · exact h.off_table k h'
    · rcases List.prefix_concat_iff.mp h' with h' | h'
      · exact he h'
      · exact hle h'

theorem Published.set {digest m n : Bytes} {k : Kind}
    (h : Published S (entryPlace S k n) digestFile m (.leaf (.file newFile digest)) w w') :
    view S w'.root k n = (view S w.root k n).map fun t =>
      t.setKid digestFile (some (.leaf (.file newFile digest))) := by
  rw [h.placed.view_eq, view_put_below (by simp), Store.set_same]
  simp only [put_singleton]

theorem Published.manifestBytes {digest m : Bytes} (hd : w.root.DirAt c)
    (h : Published S c digestFile m (.leaf (.file newFile digest)) w w') (d : Bytes) :
    (view S w'.root).manifestBytes d = (view S w.root).manifestBytes d := by
  rw [Store.manifestBytes, Store.manifestBytes]
  rcases h.entry hd .manifests (manifestName d) with he | ⟨-, hn, -⟩ | ⟨r, rfl, he⟩
  · rw [he]
  · exact absurd hn (manifestName_ne_digestFile d)
  · cases hv : view S w.root .manifests (manifestName d) with
    | none => rw [he, hv]; rfl
    | some t =>
      cases t with
      | leaf f => exact absurd hd (not_dirAt_of_leaf hv r)
      | dir m kids =>
        obtain ⟨kids', hput⟩ := exists_put_dir m kids (List.concat_ne_nil digestFile r)
          (some (.leaf (.file newFile digest)))
        rw [he, hv, Option.map_some, hput]
        rfl

theorem Published.hasLayer {digest m : Bytes} (hd : w.root.DirAt c)
    (h : Published S c digestFile m (.leaf (.file newFile digest)) w w') {n : Bytes}
    (hn : (view S w.root).HasLayer n) : (view S w'.root).HasLayer n := by
  obtain ⟨m, kids, hv⟩ := hn
  rcases h.entry hd .layers n with he | ⟨rfl, rfl, -⟩ | ⟨r, -, he⟩
  · exact ⟨m, kids, he.trans hv⟩
  · -- a file is not renamed onto a directory
    have hg : w.root.get (tablePlace S .layers ++ [digestFile]) = some (.dir m kids) := hv
    rcases h.free with hf | ⟨f, hf, -⟩ | ⟨_, -, hf⟩
    · rw [hg] at hf
      cases hf
    · rw [hg] at hf
      cases hf
    · cases hf
  · obtain ⟨kids', hput⟩ := exists_put_dir m kids (List.concat_ne_nil digestFile r)
      (some (.leaf (.file newFile digest)))
    rw [hv, Option.map_some, hput] at he
    exact ⟨m, kids', he⟩

/-- The directory of the containers holds directories only, and no reference. -/
theorem ne_containers_of_reference {bytes : Bytes} (hl : Layout S x) (hd : x.DirAt c)
    (hf : (view S x).FileContainers) (hw : walk x p = .ok c)
    (href : read x (p.join referenceFile) = .ok bytes) : c ≠ tablePlace S .containers := by
  rintro rfl
  obtain ⟨m', hm'⟩ := (read_join plain_referenceFile hw hd (hl.entry .containers _)).mp href
  obtain ⟨t, ht, hlabel⟩ := find_eq_some_iff.mp hm'
  have hdir := (hf _ _ ht).1
  cases t with
  | leaf f => cases hdir
  | dir m kids => cases hlabel

/-- Where the containers are directories of files, only the container that `c` is changes. -/
theorem Published.containers {digest m : Bytes} (hd : w.root.DirAt c)
    (hf : (view S w.root).FileContainers) (hc : c ≠ tablePlace S .containers)
    (h : Published S c digestFile m (.leaf (.file newFile digest)) w w') (n : Bytes) :
    view S w'.root .containers n = view S w.root .containers n ∨
      c = entryPlace S .containers n ∧ ∃ t, view S w.root .containers n = some t ∧
        view S w'.root .containers n =
          some (t.setKid digestFile (some (.leaf (.file newFile digest)))) := by
  rcases h.entry hd .containers n with he | ⟨he, -⟩ | ⟨r, rfl, he⟩
  · exact .inl he
  · exact absurd he hc
  · obtain ⟨m', kids, hg⟩ := hd
    rw [get_append] at hg
    obtain ⟨t, ht, hg⟩ := Option.bind_eq_some_iff.mp hg
    have hv : view S w.root .containers n = some t := ht
    cases r with
    | nil =>
      rw [hv, List.nil_append, Option.map_some, put_singleton] at he
      exact .inr ⟨List.append_nil _, t, hv, he⟩
    | cons a r =>
      rw [get_cons] at hg
      obtain ⟨u, hu, hg⟩ := Option.bind_eq_some_iff.mp hg
      obtain ⟨_, _, rfl⟩ := (hf n t hv).2 a u hu
      cases r <;> simp [get_cons, kid] at hg

/-- A file read in a container. -/
theorem kid_of_read {n a data : Bytes} (ha : Plain a) (hf : (view S x).FileContainers)
    (hw : walk x p = .ok (entryPlace S .containers n)) (hd : x.DirAt (entryPlace S .containers n))
    (h : read x (p.join a) = .ok data) :
    ((view S x .containers n).bind fun t => (t.kid a).bind fileData) = some data := by
  obtain ⟨m, kids, hv⟩ := hd
  have hget : x.get (entryPlace S .containers n ++ [a]) = (FileTree.dir m kids).kid a := by
    rw [get_append_of_some hv, get_cons]
    cases (FileTree.dir m kids).kid a <;> simp
  have hlink : NotLink x (entryPlace S .containers n ++ [a]) := by
    intro t hf'
    obtain ⟨u, hu, hlabel⟩ := find_eq_some_iff.mp hf'
    obtain ⟨_, _, rfl⟩ := (hf n _ hv).2 a u (hget ▸ hu)
    cases hlabel
  obtain ⟨m', hfind⟩ := (read_join ha hw ⟨m, kids, hv⟩ hlink).mp h
  obtain ⟨u, hu, hlabel⟩ := find_eq_some_iff.mp hfind
  have hfile : u = .leaf (.file m' data) := by
    cases u with
    | leaf f => rw [label, Sum.inl.injEq] at hlabel; rw [hlabel]
    | dir m kids => cases hlabel
  rw [view, hv]
  show ((FileTree.dir m kids).kid a).bind fileData = _
  rw [← hget, hu, hfile]
  rfl

/-! ## What is removed -/

/-- The removal of what the path names spares the directory of the manifests, and the
    layers. -/
def Spares (slack : Slack) (S : Place) (x : Node) (p : PathBuf) : Prop :=
  ∀ d m, locate x p = .ok (d, m) → (slack.unsaved ∨ d ++ [m] ≠ tablePlace S .manifests) ∧
    (slack.layers ∨ ¬ tablePlace S .layers <+: d ++ [m])

theorem not_isDirPath_of_file {d : Place} {n data : Bytes} {m : Meta}
    (h : locate x p = .ok (d, n)) (hf : x.get (d ++ [n]) = some (.leaf (.file m data))) :
    ¬ isDirPath x p = true := by
  intro hd
  have hfind : x.find (d ++ [n]) = some (.inl (.file m data)) := by rw [find, hf]; rfl
  obtain ⟨e, hw, he⟩ := isDirPath_iff_walk.mp hd
  rw [walk_of_locate h (fun t ht => by rw [hfind] at ht; cases ht), Except.ok.injEq] at hw
  subst hw
  obtain ⟨m', hm'⟩ := dirAt_iff_find.mp he
  rw [hfind] at hm'
  cases hm'

/-- A directory of the store itself is no more than one name below it. -/
theorem eq_table {k : Kind} {e : Place} (hk : k.tail = []) (h : e <+: tablePlace S k)
    (he : ¬ e <+: temporaryPlace S) : e = tablePlace S k := by
  rw [tablePlace, hk] at h ⊢
  exact (List.prefix_concat_iff.mp h).resolve_right fun h => he (h.trans (List.prefix_append _ _))

/-- A directory moved away from a tidy store. -/
theorem Removed.moved (hl : Layout S w.root) (ht : Tidy env (view S w.root)) (hcl : Cleared S w)
    (hd : isDirPath w.root p = true) (hs : Spares slack S w.root p) (h : Removed S p w w') :
    Moved env slack S w w' := by
  obtain ⟨w₁, d, m, s, -, -, hw₁, hloc, hg, hoff, hp⟩ := h
  obtain rfl := hw₁ hcl
  obtain ⟨hman, hlay⟩ := hs d m hloc
  refine ⟨hp.layout (layout_put hl (by simp) (.inl rfl)), ?_, congrArg Prod.fst hp.aside⟩
  rw [hp.view_eq]
  generalize hde : d ++ [m] = e at hg hoff hman hlay
  have nofile {m' : Meta} {data : Bytes} : s ≠ .leaf (.file m' data) := by
    rintro rfl
    exact not_isDirPath_of_file hloc (hde ▸ hg) hd
  rcases place_cases S e with ⟨k, hk⟩ | ⟨k, n, r, rfl⟩ | ⟨h₁, h₂⟩
  · have hne : e ≠ [] := by
      rintro rfl
      simp at hde
    refine .single (.other (fun n => ?_) (fun n => ?_) ?_)
    · rcases view_put_above (x := w₁.root) hne hk .manifests n with h | ⟨h, h'⟩
      · exact .inl h
      · exact .inr ⟨hman.resolve_right (not_not.mpr (eq_table rfl h hoff)), h'⟩
    · exact (view_put_above (x := w₁.root) hne hk .containers n).imp_right And.right
    · by_cases hle : e <+: tablePlace S .layers
      · exact .inl (hlay.resolve_right (not_not.mpr (eq_table rfl hle hoff ▸ List.prefix_rfl)))
      · exact .inr fun n => (view_put_above (x := w₁.root) hne hk .layers n).resolve_right
          fun h => hle h.1
  · have hin : tablePlace S k <+: entryPlace S k n ++ r :=
      (List.prefix_append _ _).trans (List.prefix_append _ _)
    have same {k' : Kind} (hne : k' ≠ k) (a : Bytes) :=
      view_put_within (x := w₁.root) hin hne none a
    cases k with
    | containers =>
      refine .single (.other (fun a => .inl (same (by simp) a)) (fun a => ?_)
        (.inr fun a => same (by simp) a))
      cases r with
      | nil =>
        rw [List.append_nil, view_put_entry (.inl rfl)]
        by_cases ha : a = n
        · exact .inr (ha ▸ Store.set_same ..)
        · exact .inl (Store.set_of_ne fun h => ha h.2)
      | cons b r =>
        obtain ⟨_, _, hf⟩ := ht.below_container hg
        exact absurd hf nofile
    | manifests =>
      cases hv : view S w₁.root .manifests n with
      | none =>
        rw [get_append_of_none hv] at hg
        cases hg
      | some t =>
        obtain ⟨_, _, _, _, -, rfl, -, -⟩ := ht.manifest _ _ hv
        rw [get_append_of_some hv] at hg
        cases r with
        | nil => exact absurd (Option.some.inj hg).symm nofile
        | cons b r => simp [get_cons, kid] at hg
    | layers =>
      exact .single (.other (fun a => .inl (same (by simp) a)) (fun a => .inl (same (by simp) a))
        (.inl (hlay.resolve_right (not_not.mpr hin))))
    | locks =>
      exact .single (.other (fun a => .inl (same (by simp) a)) (fun a => .inl (same (by simp) a))
        (.inr fun a => same (by simp) a))
  · rw [view_put_off h₁ h₂]

end Pakstak
