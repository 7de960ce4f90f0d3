/-
  The store as a table of entries, and the tree that holds it.

  The store at the place `S` has four directories whose entries count: containers,
  manifests, layers, and the layer locks. `view S x` is their contents, `Store.set` the
  change of one entry. `Layout S x`: no symlink or file stands where these directories,
  `temporary` and the lock files are, or will be made.

  Proved: what keeps the layout, and what changes no entry or just one
  (`Still`, `Quiet`, `layout_put_entry`, `view_put_entry`).
-/
import Pakstak.Extraction

namespace Pakstak

open Posix Prog FileTree

/-! ## Tables -/

/-- The directories whose entries are the store. -/
inductive Kind where
  | containers | manifests | layers | locks
  deriving DecidableEq

/-- The first name on the way from the store to a table. -/
def Kind.head : Kind → Bytes
  | containers => utf8 "containers"
  | manifests => utf8 "manifests"
  | layers => utf8 "layers"
  | locks => utf8 "locks"

def Kind.tail : Kind → Place
  | locks => [utf8 "layers"]
  | _ => []

/-- The contents of the tables. -/
abbrev Store : Type := Kind → Bytes → Option Node

/-- Set or remove one entry. -/
def Store.set (s : Store) (k : Kind) (n : Bytes) (o : Option Node) : Store :=
  fun k' n' => if k' = k ∧ n' = n then o else s k' n'

@[simp] theorem Store.set_same (s : Store) (k : Kind) (n : Bytes) (o : Option Node) :
    s.set k n o k n = o := by simp [Store.set]

theorem Store.set_of_ne {s : Store} {k k' : Kind} {n n' : Bytes} {o : Option Node}
    (h : ¬ (k' = k ∧ n' = n)) : s.set k n o k' n' = s k' n' := if_neg h

@[simp] theorem Store.set_of_ne_kind {s : Store} {k k' : Kind} {n n' : Bytes} {o : Option Node}
    (h : k' ≠ k) : s.set k n o k' n' = s k' n' := if_neg fun ⟨hk, _⟩ => h hk

variable {S : Place}

/-- The place of a table. -/
def tablePlace (S : Place) (k : Kind) : Place := S ++ k.head :: k.tail

/-- The place of an entry. -/
def entryPlace (S : Place) (k : Kind) (n : Bytes) : Place := tablePlace S k ++ [n]

def temporaryPlace (S : Place) : Place := S ++ [utf8 "temporary"]

def storageLockPlace (S : Place) : Place := S ++ [utf8 "locks", utf8 "storage"]

def view (S : Place) (x : Node) : Store := fun k n => x.get (entryPlace S k n)

/-! ## The places are apart -/

theorem head_ne_temporary (k : Kind) : k.head ≠ utf8 "temporary" := by
  cases k <;> decide +kernel

theorem head_injective {k k' : Kind} (h : k.head = k'.head) : k = k' := by
  cases k <;> cases k' <;> first | rfl | exact absurd h (by decide +kernel)

theorem storage_ne_layers : utf8 "storage" ≠ utf8 "layers" := by decide +kernel

theorem temporary_off_table (k : Kind) (q : Place) :
    ¬ temporaryPlace S <+: tablePlace S k ++ q := by
  rw [temporaryPlace, tablePlace, List.append_assoc, List.prefix_append_right_inj,
    List.cons_append, List.cons_prefix_cons]
  exact fun h => head_ne_temporary k h.1.symm

theorem temporary_off_le_table {c : Place} {k : Kind} (h : c <+: tablePlace S k) :
    ¬ temporaryPlace S <+: c := fun h' => by
  have := temporary_off_table (S := S) k []
  rw [List.append_nil] at this
  exact this (h'.trans h)

theorem entry_off_temporary (k : Kind) (n : Bytes) : ¬ entryPlace S k n <+: temporaryPlace S := by
  rw [entryPlace, temporaryPlace, tablePlace, List.append_assoc, List.prefix_append_right_inj,
    List.cons_append, List.cons_prefix_cons]
  exact fun h => head_ne_temporary k h.1

theorem entry_off_table (k k' : Kind) (n : Bytes) : ¬ entryPlace S k n <+: tablePlace S k' := by
  rw [entryPlace, tablePlace, tablePlace, List.append_assoc, List.prefix_append_right_inj,
    List.cons_append, List.cons_prefix_cons]
  rintro ⟨hk, h⟩
  cases head_injective hk
  have := h.length_le
  simp only [List.length_append, List.length_singleton] at this
  omega

theorem entry_off_entry {k k' : Kind} {n n' : Bytes} (h : ¬ (k' = k ∧ n' = n)) :
    ¬ entryPlace S k n <+: entryPlace S k' n' := by
  rw [entryPlace, entryPlace, tablePlace, tablePlace, List.append_assoc, List.append_assoc,
    List.prefix_append_right_inj, List.cons_append, List.cons_append, List.cons_prefix_cons]
  rintro ⟨hk, hn⟩
  cases head_injective hk
  rw [List.prefix_append_right_inj, List.cons_prefix_cons] at hn
  exact h ⟨rfl, hn.1.symm⟩

theorem table_off_storageLock (k : Kind) (q : Place) :
    ¬ storageLockPlace S <+: tablePlace S k ++ q := by
  rw [storageLockPlace, tablePlace, List.append_assoc, List.prefix_append_right_inj,
    List.cons_append, List.cons_prefix_cons]
  rintro ⟨hk, h⟩
  cases k with
  | locks =>
    rw [Kind.tail, List.cons_append, List.cons_prefix_cons] at h
    exact storage_ne_layers h.1
  | containers => exact absurd hk (by decide +kernel)
  | manifests => exact absurd hk (by decide +kernel)
  | layers => exact absurd hk (by decide +kernel)

theorem storageLock_off_temporary : ¬ storageLockPlace S <+: temporaryPlace S := by
  intro h
  have := h.length_le
  simp [storageLockPlace, temporaryPlace] at this

theorem entry_off_storageLock (k : Kind) (n : Bytes) :
    ¬ entryPlace S k n <+: storageLockPlace S := by
  intro h
  rw [entryPlace, storageLockPlace, tablePlace, List.append_assoc, List.prefix_append_right_inj,
    List.cons_append, List.cons_prefix_cons] at h
  obtain ⟨hk, h⟩ := h
  cases k with
  | locks =>
    rw [Kind.tail, List.cons_append, List.cons_prefix_cons] at h
    exact storage_ne_layers h.1.symm
  | containers => exact absurd hk (by decide +kernel)
  | manifests => exact absurd hk (by decide +kernel)
  | layers => exact absurd hk (by decide +kernel)

theorem temporary_off_storageLock : ¬ temporaryPlace S <+: storageLockPlace S := by
  rw [temporaryPlace, storageLockPlace, List.prefix_append_right_inj, List.cons_prefix_cons]
  rintro ⟨h, -⟩
  exact absurd h (by decide +kernel)

/-! ## The layout -/

/-- Where the store's directories are, or will be made, no file or symlink stands. No entry
    is a symlink, and its name is one a directory entry can have. -/
structure Layout (S : Place) (x : Node) : Prop where
  table : ∀ k, Clear x (tablePlace S k)
  temporary : Clear x (temporaryPlace S)
  storageLock : NotLink x (storageLockPlace S)
  entry : ∀ k n, NotLink x (entryPlace S k n)
  name : ∀ k n, x.find (entryPlace S k n) ≠ none → Plain n

/-- The layout is about these places: the first two kinds must not become a file or symlink. -/
theorem Layout.of_find {x y : Node} (h : Layout S x)
    (hd : ∀ q, (∃ k, q <+: tablePlace S k) ∨ q <+: temporaryPlace S →
      y.find q = x.find q ∨ y.get q = none ∨ y.DirAt q)
    (hs : y.find (storageLockPlace S) = x.find (storageLockPlace S) ∨
      NotLink y (storageLockPlace S))
    (he : ∀ k n, y.find (entryPlace S k n) = x.find (entryPlace S k n) ∨
      y.get (entryPlace S k n) = none ∨ (NotLink y (entryPlace S k n) ∧ Plain n)) :
    Layout S y := by
  have clear {c : Place} (hc : Clear x c)
      (hq : ∀ q, q <+: c → y.find q = x.find q ∨ y.get q = none ∨ y.DirAt q) : Clear y c := by
    intro q h
    rcases hq q h with he | he
    · rcases hc q h with hx | hx
      · exact .inl (find_eq_none_iff.mp (he.trans (find_eq_none_iff.mpr hx)))
      · obtain ⟨m, hm⟩ := dirAt_iff_find.mp hx
        exact .inr (dirAt_iff_find.mpr ⟨m, he.trans hm⟩)
    · exact he
  have notLink {c : Place} (hc : NotLink x c) (hq : y.find c = x.find c ∨ NotLink y c) :
      NotLink y c := by
    rcases hq with he | he
    · exact fun t ht => hc t (he ▸ ht)
    · exact he
  refine ⟨fun k => clear (h.table k) fun q hq => hd q (.inl ⟨k, hq⟩),
    clear h.temporary fun q hq => hd q (.inr hq), notLink h.storageLock hs,
    fun k n => notLink (h.entry k n) ?_, fun k n hn => ?_⟩
  · rcases he k n with h | h | ⟨h, -⟩
    · exact .inl h
    · exact .inr fun t ht => by rw [find_eq_none_iff.mpr h] at ht; cases ht
    · exact .inr h
  · rcases he k n with h' | h' | ⟨-, h'⟩
    · exact h.name k n (h' ▸ hn)
    · exact absurd (find_eq_none_iff.mpr h') hn
    · exact h'

/-- Changes below `temporary` keep the layout. -/
theorem Layout.of_agreeOff {x y : Node} (h : Layout S x) (ha : AgreeOff (temporaryPlace S) x y)
    (ht : y.get (temporaryPlace S) = none ∨ y.DirAt (temporaryPlace S)) : Layout S y := by
  refine h.of_find (fun q hq => ?_) (.inl (ha _ temporary_off_storageLock).1)
    fun k n => .inl (ha _ (temporary_off_table k [n])).1
  by_cases hT : temporaryPlace S <+: q
  · rcases hq with ⟨k, hq⟩ | hq
    · exact absurd hT (temporary_off_le_table hq)
    · cases hq.eq_of_length_le hT.length_le
      exact .inr ht
  · exact .inl (ha q hT).1

theorem view_of_agreeOff {p : Place} {x y : Node} (h : AgreeOff p x y)
    (hp : ∀ k n, ¬ p <+: entryPlace S k n) (hp' : ∀ k n, ¬ entryPlace S k n <+: p) :
    view S y = view S x := by
  funext k n
  exact (h _ (hp k n)).2 (hp' k n)

theorem view_of_within {w w' : World} (h : Within (temporaryPlace S) w w') :
    view S w'.root = view S w.root :=
  view_of_agreeOff h.agree (fun k n => temporary_off_table k [n]) entry_off_temporary

/-- The contents are `s` now. -/
structure Becomes (S : Place) (s : Store) (w w' : World) : Prop where
  layout : Layout S w'.root
  view : view S w'.root = s
  aside : w'.aside = w.aside

/-- No entry of the store has changed. -/
abbrev Still (S : Place) (w w' : World) : Prop := Becomes S (view S w.root) w w'

theorem Still.refl {w : World} (h : Layout S w.root) : Still S w w := ⟨h, rfl, rfl⟩

theorem Still.becomes {s : Store} {w w' w'' : World} (h : Still S w w') (h' : Becomes S s w' w'') :
    Becomes S s w w'' := ⟨h'.layout, h'.view, h'.aside.trans h.aside⟩

theorem Becomes.trans {s : Store} {w w' w'' : World} (h : Becomes S s w w') (h' : Still S w' w'') :
    Becomes S s w w'' := ⟨h'.layout, h'.view.trans h.view, h'.aside.trans h.aside⟩

/-- What happens below `temporary` changes no entry. -/
theorem still_of_within {w w' : World} (hl : Layout S w.root)
    (h : Within (temporaryPlace S) w w')
    (hd : w'.root.get (temporaryPlace S) = none ∨ w'.root.DirAt (temporaryPlace S)) :
    Still S w w' :=
  ⟨hl.of_agreeOff h.agree hd, view_of_within h, h.aside⟩

theorem still_of_keeps {w w' : World} (hl : Layout S w.root) (hd : w.root.DirAt (temporaryPlace S))
    (h : Keeps (temporaryPlace S) w w') : Still S w w' :=
  still_of_within hl h.within (.inr (h.dirs _ hd))

/-- Making the store's directories changes no entry. -/
theorem still_of_made {c : Place} {w w' : World} (hl : Layout S w.root) (h : Made c w w')
    (hc : ∀ k n, ¬ entryPlace S k n <+: c) : Still S w w' := by
  have same (k : Kind) (n : Bytes) := h.mkdirs.off _ (hc k n)
  refine ⟨⟨fun k => h.mkdirs.clear (hl.table k), h.mkdirs.clear hl.temporary,
    h.mkdirs.notLink hl.storageLock, fun k n => h.mkdirs.notLink (hl.entry k n),
    fun k n hn => hl.name k n ?_⟩, ?_, h.aside⟩
  · rwa [find, same, ← find] at hn
  · funext k n
    exact same k n

/-! ## Nothing but the insides -/

/-- The directory of the lock files. -/
def locksPlace (S : Place) : Place := S ++ [utf8 "locks"]

/-- Off `temporary` and the locks, a place is as it was, or is a directory of the store that
    was missing. -/
def Kept (S : Place) (x y : Node) : Prop :=
  ∀ q, ¬ temporaryPlace S <+: q → ¬ locksPlace S <+: q →
    y.find q = x.find q ∨
      (x.find q = none ∧ y.find q = some (.inr newDir) ∧ ∃ k, q <+: tablePlace S k)

theorem Kept.refl (S : Place) (x : Node) : Kept S x x := fun _ _ _ => .inl rfl

theorem Kept.trans {x y z : Node} (h : Kept S x y) (h' : Kept S y z) : Kept S x z := by
  intro q hT hL
  rcases h' q hT hL with h₂ | ⟨h₂, h₃, hk⟩
  · rw [h₂]
    exact h q hT hL
  · rcases h q hT hL with h₁ | ⟨-, h₁, -⟩
    · exact .inr ⟨h₁ ▸ h₂, h₃, hk⟩
    · rw [h₁] at h₂
      cases h₂

theorem kept_of_agreeOff {x y : Node} (h : AgreeOff (temporaryPlace S) x y) : Kept S x y :=
  fun q hT _ => .inl (h q hT).1

theorem kept_of_mkdirs {c : Place} {x y : Node} (h : Mkdirs c x y)
    (hc : c <+: temporaryPlace S ∨ ∃ k, c <+: tablePlace S k) : Kept S x y := by
  intro q hT _
  by_cases hq : q <+: c
  · refine (h.on q hq).imp_right fun ⟨h₁, h₂⟩ => ⟨h₁, h₂, ?_⟩
    rcases hc with hc | ⟨k, hc⟩
    · refine ⟨.layers, ((List.prefix_concat_iff.mp (hq.trans hc)).resolve_left ?_).trans
        (List.prefix_append _ _)⟩
      rintro rfl
      exact hT List.prefix_rfl
    · exact ⟨k, hq.trans hc⟩
  · exact .inl (by rw [find, find, h.off q hq])

/-- Changes below the directory of the locks. -/
theorem kept_put_lock {x : Node} {c : Place} (hc : locksPlace S <+: c) (o : Option Node) :
    Kept S x (x.put c o) := fun _ _ hL => .inl (find_put_off (fun h => hL (hc.trans h)) o)

/-- No entry has changed, and all that has is in `temporary`, or is a directory or a lock file
    of the store. -/
structure Quiet (S : Place) (w w' : World) : Prop where
  still : Still S w w'
  kept : Kept S w.root w'.root

theorem Quiet.refl {w : World} (h : Layout S w.root) : Quiet S w w := ⟨.refl h, .refl S _⟩

theorem Quiet.trans {w w' w'' : World} (h : Quiet S w w') (h' : Quiet S w' w'') : Quiet S w w'' :=
  ⟨h.still.trans h'.still, h.kept.trans h'.kept⟩

theorem quiet_of_within {w w' : World} (hl : Layout S w.root) (h : Within (temporaryPlace S) w w')
    (hd : w'.root.get (temporaryPlace S) = none ∨ w'.root.DirAt (temporaryPlace S)) :
    Quiet S w w' := ⟨still_of_within hl h hd, kept_of_agreeOff h.agree⟩

theorem quiet_of_keeps {w w' : World} (hl : Layout S w.root) (hd : w.root.DirAt (temporaryPlace S))
    (h : Keeps (temporaryPlace S) w w') : Quiet S w w' :=
  quiet_of_within hl h.within (.inr (h.dirs _ hd))

theorem quiet_of_made {c : Place} {w w' : World} (hl : Layout S w.root) (h : Made c w w')
    (hc : c <+: temporaryPlace S ∨ ∃ k, c <+: tablePlace S k) : Quiet S w w' := by
  refine ⟨still_of_made hl h fun k n hle => ?_, kept_of_mkdirs h.mkdirs hc⟩
  rcases hc with hc | ⟨k', hc⟩
  · exact entry_off_temporary k n (hle.trans hc)
  · exact entry_off_table k k' n (hle.trans hc)

/-! ## One place changed -/

theorem notLink_put {x : Node} {c : Place} {o : Option Node} (h : NotLink x c)
    (ho : ∀ t, o ≠ some (.leaf (.symlink t))) : NotLink (x.put c o) c := by
  intro t ht
  rcases List.eq_nil_or_concat c with rfl | ⟨d, n, rfl⟩
  · cases o with
    | none => exact h t (by simpa using ht)
    | some u =>
      obtain ⟨u', hu, hl⟩ := find_eq_some_iff.mp ht
      rw [put_nil, Option.getD_some, get_nil, Option.some.injEq] at hu
      subst hu
      cases u with
      | leaf f => cases hl; exact ho t rfl
      | dir m kids => cases hl
  · rw [List.concat_eq_append] at *
    obtain ⟨u', hu, hl⟩ := find_eq_some_iff.mp ht
    cases o with
    | none => rw [get_put_none] at hu; cases hu
    | some u =>
      by_cases hd : x.DirAt d
      · rw [get_put_append hd, get_nil, Option.some.injEq] at hu
        subst hu
        cases u with
        | leaf f => cases hl; exact ho t rfl
        | dir m kids => cases hl
      · rw [get_put_of_not_dirAt hd] at hu; cases hu

/-- A place, as the tables lie to it: above one, at or below an entry, or off them all. -/
theorem place_cases (S c : Place) : (∃ k, c <+: tablePlace S k) ∨
    (∃ k n r, c = entryPlace S k n ++ r) ∨
    ((∀ k n, ¬ c <+: entryPlace S k n) ∧ ∀ k n, ¬ entryPlace S k n <+: c) := by
  by_cases h₁ : ∃ k, c <+: tablePlace S k
  · exact .inl h₁
  by_cases h₂ : ∃ k n, entryPlace S k n <+: c
  · obtain ⟨k, n, r, hr⟩ := h₂
    exact .inr (.inl ⟨k, n, r, hr.symm⟩)
  refine .inr (.inr ⟨fun k n h => ?_, fun k n h => h₂ ⟨k, n, h⟩⟩)
  rcases List.prefix_concat_iff.mp h with h | h
  · exact h₂ ⟨k, n, h ▸ List.prefix_rfl⟩
  · exact h₁ ⟨k, h⟩

/-- What is put must not stand in the way of the store's directories. -/
theorem layout_put {x : Node} {c : Place} {o : Option Node} (hl : Layout S x)
    (ho : ∀ t, o ≠ some (.leaf (.symlink t)))
    (hc : o = none ∨ ¬ c <+: temporaryPlace S ∧ (∀ k, ¬ c <+: tablePlace S k) ∧
      ∀ k n, c = entryPlace S k n → Plain n) : Layout S (x.put c o) := by
  -- a place is as before, or is empty, or is the place changed or below it
  have cases (q : Place) : (x.put c o).find q = x.find q ∨ (x.put c o).get q = none ∨
      (o ≠ none ∧ c <+: q) := by
    by_cases hcq : c <+: q
    · cases o with
      | none =>
        rcases get_put_none_or x c q with h | h
        · exact .inl h
        · exact .inr (.inl h)
      | some t => exact .inr (.inr ⟨by simp, hcq⟩)
    · exact .inl (find_put_off hcq o)
  refine hl.of_find (fun q hq => ?_) ?_ fun k n => ?_
  · rcases cases q with h | h | ⟨ho', hcq⟩
    · exact .inl h
    · exact .inr (.inl h)
    · obtain ⟨hT, htab, -⟩ := hc.resolve_left ho'
      rcases hq with ⟨k, hq⟩ | hq
      · exact absurd (hcq.trans hq) (htab k)
      · exact absurd (hcq.trans hq) hT
  · rcases cases (storageLockPlace S) with h | h | ⟨ho', hcq⟩
    · exact .inl h
    · exact .inr fun t ht => by rw [find_eq_none_iff.mpr h] at ht; cases ht
    · rcases List.prefix_concat_iff.mp (show c <+: (S ++ [utf8 "locks"]) ++ [utf8 "storage"] by
        simpa [storageLockPlace] using hcq) with hcq | hcq
      · have hc' : c = storageLockPlace S := by simpa [storageLockPlace] using hcq
        subst hc'
        exact .inr (notLink_put hl.storageLock ho)
      · refine absurd (hcq.trans ?_) ((hc.resolve_left ho').2.1 .locks)
        simp [tablePlace, Kind.head]
  · rcases cases (entryPlace S k n) with h | h | ⟨ho', hcq⟩
    · exact .inl h
    · exact .inr (.inl h)
    · rcases List.prefix_concat_iff.mp hcq with hcq | hcq
      · have hc' : c = entryPlace S k n := hcq
        have hplain := (hc.resolve_left ho').2.2 k n hc'
        subst hc'
        exact .inr (.inr ⟨notLink_put (hl.entry k n) ho, hplain⟩)
      · exact absurd hcq ((hc.resolve_left ho').2.1 k)

theorem layout_put_entry {x : Node} {k : Kind} {n : Bytes} {o : Option Node} (hl : Layout S x)
    (ho : ∀ t, o ≠ some (.leaf (.symlink t))) (hn : o = none ∨ Plain n) :
    Layout S (x.put (entryPlace S k n) o) := by
  refine layout_put hl ho (hn.imp_right fun hn => ⟨entry_off_temporary k n,
    fun k' => entry_off_table k k' n, fun k' n' he => ?_⟩)
  by_cases hk : k = k' ∧ n = n'
  · exact hk.2 ▸ hn
  · have hle : entryPlace S k n <+: entryPlace S k' n' := by rw [he]
    exact absurd hle (entry_off_entry fun h => hk ⟨h.1.symm, h.2.symm⟩)

theorem view_put_off {x : Node} {c : Place} (h : ∀ k n, ¬ c <+: entryPlace S k n)
    (h' : ∀ k n, ¬ entryPlace S k n <+: c) (o : Option Node) :
    view S (x.put c o) = view S x := by
  funext k n
  exact get_put_of_disjoint (h k n) (h' k n) o

theorem view_put_entry {x : Node} {k : Kind} {n : Bytes} {o : Option Node}
    (h : o = none ∨ x.DirAt (tablePlace S k)) :
    view S (x.put (entryPlace S k n) o) = (view S x).set k n o := by
  funext k' n'
  by_cases he : k' = k ∧ n' = n
  · obtain ⟨rfl, rfl⟩ := he
    rw [Store.set_same]
    cases o with
    | none => exact get_put_none _ _ _ []
    | some t => exact get_put_append (h.resolve_left (by simp)) t []
  · rw [Store.set_of_ne he]
    exact get_put_of_disjoint (entry_off_entry he)
      (entry_off_entry fun h => he ⟨h.1.symm, h.2.symm⟩) o

theorem view_put_below {x : Node} {k : Kind} {n : Bytes} {r : Place} (hr : r ≠ [])
    (o : Option Node) : view S (x.put (entryPlace S k n ++ r) o) =
      (view S x).set k n ((view S x k n).map fun t => t.put r o) := by
  funext k' n'
  by_cases he : k' = k ∧ n' = n
  · obtain ⟨rfl, rfl⟩ := he
    rw [Store.set_same]
    exact get_put_below x _ hr o
  · rw [Store.set_of_ne he]
    have he' : ¬ (k = k' ∧ n = n') := fun h => he ⟨h.1.symm, h.2.symm⟩
    refine get_put_of_disjoint (fun h => entry_off_entry he ((List.prefix_append _ _).trans h))
      (fun h => ?_) o
    rcases List.prefix_or_prefix_of_prefix h (List.prefix_append (entryPlace S k n) r) with h | h
    · exact entry_off_entry he' h
    · exact entry_off_entry he h

/-- A removal above tables empties them. -/
theorem view_put_above {x : Node} {c : Place} {k : Kind} (hc : c ≠ []) (h : c <+: tablePlace S k)
    (k' : Kind) (n : Bytes) : view S (x.put c none) k' n = view S x k' n ∨
      c <+: tablePlace S k' ∧ view S (x.put c none) k' n = none := by
  by_cases hk : c <+: tablePlace S k'
  · refine .inr ⟨hk, ?_⟩
    obtain ⟨d, a, rfl⟩ : ∃ d a, c = d ++ [a] := by
      rcases List.eq_nil_or_concat c with h | ⟨d, a, h⟩
      · exact absurd h hc
      · exact ⟨d, a, by rw [h, List.concat_eq_append]⟩
    obtain ⟨r, hr⟩ := hk
    rw [view, entryPlace, ← hr, List.append_assoc, List.append_assoc, List.singleton_append]
    exact get_put_none _ _ _ _
  · refine .inl (get_put_of_disjoint (fun h' => ?_) (fun h' => ?_) none)
    · rcases List.prefix_concat_iff.mp h' with h' | h'
      · exact entry_off_table k' k n (h' ▸ h)
      · exact hk h'
    · exact entry_off_table k' k n (h'.trans h)

/-! ## A layout that can be checked -/

def isClear (x : Node) (c : Place) : Bool :=
  c.inits.all fun q => (x.get q).all FileTree.isDir

def isSymlinkNode : Node → Bool
  | .leaf (.symlink _) => true
  | _ => false

/-- The entries of a table are no symlinks, and their names are plain. -/
def isTable (x : Node) (c : Place) : Bool :=
  (x.get c).all fun t =>
    match t with
    | .leaf _ => true
    | .dir _ kids => kids.all fun e => decide (Plain e.1) && !isSymlinkNode e.2

def isLayout (S : Place) (x : Node) : Bool :=
  ([Kind.containers, .manifests, .layers, .locks].all fun k =>
    isClear x (tablePlace S k) && isTable x (tablePlace S k)) &&
  isClear x (temporaryPlace S) && (x.get (storageLockPlace S)).all (!isSymlinkNode ·)

theorem clear_of_isClear {x : Node} {c : Place} (h : isClear x c = true) : Clear x c := by
  intro q hq
  have hd := List.all_eq_true.mp h q ((List.mem_inits _ _).mpr hq)
  cases hg : x.get q with
  | none => exact .inl rfl
  | some t =>
    rw [hg] at hd
    cases t with
    | leaf f => cases hd
    | dir m kids => exact .inr ⟨m, kids, hg⟩

theorem notLink_of_get {x : Node} {c : Place}
    (h : (x.get c).all (!isSymlinkNode ·) = true) : NotLink x c := by
  intro t ht
  obtain ⟨u, hu, hl⟩ := find_eq_some_iff.mp ht
  rw [hu] at h
  cases u with
  | leaf f =>
    cases hl
    cases h
  | dir m kids => cases hl

theorem layout_of_isLayout {x : Node} (h : isLayout S x = true) : Layout S x := by
  rw [isLayout, Bool.and_eq_true, Bool.and_eq_true] at h
  obtain ⟨⟨htables, htemp⟩, hlock⟩ := h
  have table (k : Kind) : isClear x (tablePlace S k) = true ∧ isTable x (tablePlace S k) = true :=
    Bool.and_eq_true_iff.mp (List.all_eq_true.mp htables k (by cases k <;> simp))
  -- an entry is listed in its table
  have entry {k : Kind} {n : Bytes} {u : Node} (hu : x.get (entryPlace S k n) = some u) :
      Plain n ∧ isSymlinkNode u = false := by
    obtain ⟨m, kids, hg⟩ := dirAt_of_get_append hu (by simp)
    have hk : isTable x (tablePlace S k) = true := (table k).2
    rw [isTable, hg] at hk
    rw [entryPlace, get_append_of_some hg, get_cons] at hu
    obtain ⟨v, hv, hvu⟩ := Option.bind_eq_some_iff.mp hu
    obtain rfl : v = u := Option.some.inj hvu
    have hmem := List.all_eq_true.mp hk (n, v) (mem_of_kid hv)
    rw [Bool.and_eq_true, decide_eq_true_eq, Bool.not_eq_true'] at hmem
    exact hmem
  refine ⟨fun k => clear_of_isClear (table k).1, clear_of_isClear htemp, notLink_of_get hlock,
    fun k n => notLink_of_get ?_, fun k n hn => ?_⟩
  · cases hg : x.get (entryPlace S k n) with
    | none => rfl
    | some u => simp [(entry hg).2]
  · cases hg : x.get (entryPlace S k n) with
    | none => exact absurd (find_eq_none_iff.mpr hg) hn
    | some u => exact (entry hg).1

end Pakstak
