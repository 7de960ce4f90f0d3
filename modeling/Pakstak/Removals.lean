/-
  The operations that remove from the store, each as one change of its contents, and the
  locks of the layers.

  `Gone S k n w w'`: the entry `n` of the table `k` is gone, `Idle S w w'`: no entry has
  changed. `Thins S x y`: off `temporary` and the lock files, `y` has nothing that `x` has not.

  Proved, for any answers of the environment, and for every state seen on the way:
  * `ensures_removeManifest`, `ends_removeLayer`: the entry is there, or is gone; an error of
    `removeLayer` tells which.
  * `ensures_lockLayerForPrune`: a lock is refused exactly where another process holds it.
-/
import Pakstak.Operations

namespace Pakstak

open Posix Prog FileTree

variable {env : Env} {I : World → Prop} {S : Place} {x y z : Node} {w w' w'' : World}
  {k : Kind} {n : Bytes}

/-! ## Trees with less in them -/

/-- Off `temporary` and the lock files, what is in `y` is in `x`. -/
def Thins (S : Place) (x y : Node) : Prop :=
  ∀ q, ¬ temporaryPlace S <+: q → ¬ q <+: tablePlace S .locks →
    (∀ n, q ≠ entryPlace S .locks n) → ∀ i, y.find q = some i → x.find q = some i

theorem Thins.refl (S : Place) (x : Node) : Thins S x x := fun _ _ _ _ _ => id

theorem Thins.trans (h : Thins S x y) (h' : Thins S y z) : Thins S x z :=
  fun q h₁ h₂ h₃ i hi => h q h₁ h₂ h₃ i (h' q h₁ h₂ h₃ i hi)

theorem thins_of_agreeOff (h : AgreeOff (temporaryPlace S) x y) : Thins S x y :=
  fun q hq _ _ _ hi => (h q hq).1 ▸ hi

theorem thins_put_none (x : Node) (c : Place) : Thins S x (x.put c none) := by
  intro q _ _ _ i hi
  rcases get_put_none_or x c q with h | h
  · exact h ▸ hi
  · rw [find_eq_none_iff.mpr h] at hi
    cases hi

theorem Removed.thins {p : PathBuf} (h : Removed S p w w') : Thins S w.root w'.root := by
  obtain ⟨w₁, d, m, s, hw₁, -, -, -, -, -, hp⟩ := h
  exact ((thins_of_agreeOff hw₁.agree).trans (thins_put_none _ _)).trans
    (thins_of_agreeOff hp.agree)

theorem thins_of_made (h : Made (tablePlace S .locks) w w') : Thins S w.root w'.root :=
  fun q _ hq _ i hi => by
    rw [find, ← h.mkdirs.off q hq]
    exact hi

theorem thins_of_lockMade (h : LockMade (entryPlace S .locks n) w w') :
    Thins S w.root w'.root := by
  rcases h with rfl | ⟨hf, rfl⟩
  · exact .refl _ _
  intro q _ _ hq i hi
  by_cases hle : entryPlace S .locks n <+: q
  · -- nothing is below a file
    obtain ⟨r, rfl⟩ := hle
    have hr : r ≠ [] := fun hr => hq n (by rw [hr, List.append_nil])
    rw [withRoot_root, find] at hi
    obtain ⟨t, ht, -⟩ := Option.map_eq_some_iff.mp hi
    obtain ⟨m, kids, hd⟩ := dirAt_of_get_append ht hr
    by_cases htab : w.root.DirAt (tablePlace S .locks)
    · have hput : (w.root.put (entryPlace S .locks n) (some (.leaf (.file newFile [])))).get
          (entryPlace S .locks n) = _ := get_put_append htab _ []
      rw [hput] at hd
      cases hd
    · have hput := get_put_of_not_dirAt (n := n) htab (some (.leaf (.file newFile [])))
      rw [entryPlace, hput] at hd
      cases hd
  · rwa [withRoot_root, find_put_off hle] at hi

/-! ## One entry gone -/

/-- No entry has changed. -/
structure Idle (S : Place) (w w' : World) : Prop where
  still : Still S w w'
  ready : Ready S w'
  thins : Thins S w.root w'.root

/-- The entry `n` is gone. -/
structure Gone (S : Place) (k : Kind) (n : Bytes) (w w' : World) : Prop where
  becomes : Becomes S ((view S w.root).set k n none) w w'
  ready : Ready S w'
  thins : Thins S w.root w'.root

theorem Idle.refl (hr : Ready S w) : Idle S w w := ⟨.refl hr.layout, hr, .refl _ _⟩

theorem Removed.gone (hS : PlainPlace S) (hn : Plain n) (hl : Layout S w.root)
    (h : Removed S (pathOf (entryPlace S k n)) w w') : Gone S k n w w' := by
  suffices hb : Becomes S ((view S w.root).set k n none) w w' from
    ⟨hb, ⟨hb.layout, h.temporary⟩, h.thins⟩
  obtain ⟨w₁, d, m, s, hw₁, hT₁, -, hloc, -, -, hp⟩ := h
  have hs₁ : Still S w w₁ := still_of_within hl hw₁ (.inr hT₁)
  have htable := plain_tablePlace hS k
  rw [pathOf, entryPlace] at hloc
  rcases hs₁.layout.table k _ List.prefix_rfl with hg | hd
  · rw [locate_missing (hs₁.layout.table k) hg htable hn] at hloc
    cases hloc
  · rw [locate_child hd htable hn, Except.ok.injEq, Prod.mk.injEq] at hloc
    obtain ⟨rfl, rfl⟩ := hloc
    have hb := hp.becomes hs₁.layout (by simp) (.inl rfl)
    rw [hs₁.view] at hb
    exact hs₁.becomes hb

section

variable (hS : PlainPlace S) (hr : Ready S w)
include hS hr

theorem ends_moveAndDrop_entry {clear drop : PathBuf → M Unit} {moved : PathBuf → Msg}
    {B D : Err → Prop} (hn : Plain n) (hbail : ∀ m, B (.text m))
    (hmoved : ∀ q e, B (.context (moved q) e))
    (hclear : ∀ a, Plain a → Drops env S a B (clear (pathOf (temporaryPlace S ++ [a]))))
    (hdrop : ∀ a, Plain a → Drops env S a D (drop (pathOf (temporaryPlace S ++ [a]))))
    (hI : ∀ w', Idle S w w' → I w') (hI' : ∀ w', Gone S k n w w' → I w') :
    Ends (machine env) I
      (fun _ w' => Gone S k n w w' ∧ (Cleared S w → Cleared S w'))
      (fun e w' => (B e ∧ Idle S w w') ∨ (D e ∧ Gone S k n w w'))
      (moveAndDrop (storeAt S) clear drop moved (pathOf (entryPlace S k n))) w := by
  have hp := properPath_pathOf ((plain_tablePlace hS k).snoc hn)
  have gone {w' : World} (h : Removed S (pathOf (entryPlace S k n)) w w') : Gone S k n w w' :=
    h.gone hS hn hr.layout
  have idle {w' : World} (h : Within (temporaryPlace S) w w')
      (hT : w'.root.DirAt (temporaryPlace S)) : Idle S w w' :=
    have hs : Still S w w' := still_of_within hr.layout h (.inr hT)
    ⟨hs, ⟨hs.layout, hT⟩, thins_of_agreeOff h.agree⟩
  refine ends_mono (ends_moveAndDrop hS hp hr.temporary hbail hmoved hclear hdrop
    (fun w' h hT => hI w' (idle h hT)) fun w' h => hI' w' (gone h)) (fun _ h => h)
    (fun _ w' _ h => ⟨gone h.1, h.2⟩) ?_
  rintro e w' - (⟨he, h, hT⟩ | ⟨he, h⟩)
  · exact .inl ⟨he, idle h hT⟩
  · exact .inr ⟨he, gone h⟩

theorem ensures_removeManifest {digest : Bytes} (hn : Plain (manifestName digest))
    (hI : ∀ w', Idle S w w' → I w')
    (hI' : ∀ w', Gone S .manifests (manifestName digest) w w' → I w') :
    Ensures (machine env) I
      (fun _ w' => Gone S .manifests (manifestName digest) w w' ∧ (Cleared S w → Cleared S w'))
      ((storeAt S).removeManifest digest) w := by
  have hpath : (storeAt S).manifestPath digest =
      pathOf (entryPlace S .manifests (manifestName digest)) := manifestPath_storeAt hn S
  rw [Storage.removeManifest, hpath, removeFile_eq]
  exact ensures_withContext.mpr (ensures_of_ends (ends_moveAndDrop_entry hS hr hn
    (fun _ => trivial) (fun _ _ => trivial) (fun a ha => drops_removeFile hS ha _)
    (fun a ha => drops_removeFile hS ha _) hI hI'))

/-- An error of the recursive removal in `temporary`. -/
def FromTemporary (e : Err) : Prop :=
  ∃ args e', e = .context ⟨"failed to remove temporary {} directory {}", args⟩ e'

theorem ends_removeLayer (hn : Plain n) (hI : ∀ w', Idle S w w' → I w')
    (hI' : ∀ w', Gone S .layers n w w' → I w') :
    Ends (machine env) I
      (fun _ w' => Gone S .layers n w w' ∧ (Cleared S w → Cleared S w'))
      (fun e w' => ∃ e', e = .context ⟨"failed to remove layer {}", [n]⟩ e' ∧
        ((¬ FromTemporary e' ∧ Idle S w w') ∨ (FromTemporary e' ∧ Gone S .layers n w w')))
      ((storeAt S).removeLayer env n) w := by
  rw [Storage.removeLayer, layerPath_storeAt hn, removeDirectory_eq]
  refine ends_mapError.mpr (ends_mono (ends_moveAndDrop_entry
    (B := fun e => ¬ FromTemporary e) (D := FromTemporary) hS hr hn ?_ ?_
    (fun a ha => drops_removeDirAllWritable hS ha _ ?_)
    (fun a ha => drops_removeDirAllWritable hS ha _ fun e => ⟨_, e, rfl⟩) hI hI')
    (fun _ h => h) (fun _ _ _ h => h) fun e w' _ h => ⟨e, rfl, h⟩)
  · rintro m ⟨_, _, h⟩
    cases h
  · rintro q e ⟨_, _, h⟩
    simp at h
  · rintro e ⟨_, _, h⟩
    simp at h

end

/-! ## Layer locks -/

/-- The lock file `n` has been made, if it was not there; `temporary` is as it was. -/
structure LockKept (S : Place) (n : Bytes) (w w' : World) : Prop where
  contents : Still S w w' ∨ (view S w.root .locks n = none ∧
    Becomes S ((view S w.root).set .locks n (some (.leaf (.file newFile [])))) w w')
  temporary : ∀ q, w'.root.get (temporaryPlace S ++ q) = w.root.get (temporaryPlace S ++ q)
  thins : Thins S w.root w'.root
  kept : Kept S w.root w'.root

theorem LockKept.refl (hl : Layout S w.root) : LockKept S n w w :=
  ⟨.inl (.refl hl), fun _ => rfl, .refl _ _, .refl S _⟩

theorem LockKept.layout (h : LockKept S n w w') : Layout S w'.root := by
  rcases h.contents with h | ⟨-, h⟩ <;> exact h.layout

theorem LockKept.aside (h : LockKept S n w w') : w'.aside = w.aside := by
  rcases h.contents with h | ⟨-, h⟩ <;> exact h.aside

theorem LockKept.ready (h : LockKept S n w w') (hr : Ready S w) : Ready S w' := by
  obtain ⟨m, kids, hg⟩ := hr.temporary
  have ht := h.temporary []
  rw [List.append_nil] at ht
  exact ⟨h.layout, m, kids, ht.trans hg⟩

theorem LockKept.cleared (h : LockKept S n w w') (hc : Cleared S w) : Cleared S w' :=
  fun m => (h.temporary [m]).trans (hc m)

theorem lockKept_of_mkdirs (hl : Layout S w.root) (h : Made (tablePlace S .locks) w w') :
    LockKept S n w w' :=
  ⟨.inl (still_of_made hl h (entry_off_of_le_table List.prefix_rfl)), fun _ =>
    h.mkdirs.off _ fun h => temporary_off_le_table List.prefix_rfl
      ((List.prefix_append _ _).trans h), thins_of_made h,
    kept_of_mkdirs h.mkdirs (.inr ⟨_, List.prefix_rfl⟩)⟩

theorem LockKept.after (hl : Layout S w.root) (h : Made (tablePlace S .locks) w w')
    (h' : LockKept S n w' w'') : LockKept S n w w'' := by
  have hs : Still S w w' := still_of_made hl h (entry_off_of_le_table List.prefix_rfl)
  refine ⟨?_, fun q => (h'.temporary q).trans ((lockKept_of_mkdirs (n := n) hl h).temporary q),
    (thins_of_made h).trans h'.thins,
    (lockKept_of_mkdirs (n := n) hl h).kept.trans h'.kept⟩
  rcases h'.contents with h' | ⟨hv, h'⟩
  · exact .inl (hs.trans h')
  · rw [hs.view] at hv h'
    exact .inr ⟨hv, hs.becomes h'⟩

theorem lock_in_locks (n : Bytes) : locksPlace S <+: entryPlace S .locks n := by
  simp [locksPlace, entryPlace, tablePlace, Kind.head]

theorem lockKept_of_made (hl : Layout S w.root) (hd : w.root.DirAt (tablePlace S .locks))
    (hn : Plain n) (h : LockMade (entryPlace S .locks n) w w') : LockKept S n w w' := by
  have hthins := thins_of_lockMade h
  rcases h with rfl | ⟨hf, rfl⟩
  · exact .refl hl
  refine ⟨.inr ⟨find_eq_none_iff.mp hf, layout_put_entry hl (by simp) (.inr hn),
    view_put_entry (.inr hd), rfl⟩, fun q => get_put_of_disjoint (fun h => ?_) (fun h => ?_) _,
    hthins, kept_put_lock (lock_in_locks n) _⟩
  · rcases List.prefix_or_prefix_of_prefix h (List.prefix_append (temporaryPlace S) q) with h | h
    · exact entry_off_temporary _ _ h
    · exact temporary_off_table .locks [n] h
  · exact temporary_off_table .locks [n] ((List.prefix_append _ _).trans h)

/-- An error of opening or locking a lock file. -/
def FromLock (e : Err) : Prop :=
  ∃ m e', e = .context m e' ∧ (m.fmt = "failed to create output directory {}" ∨
    m.fmt = "failed to open lock file {}" ∨ m.fmt = "failed to acquire layer lock {}")

/-- Opening or making a layer lock file. -/
theorem ends_openLockFile (hS : PlainPlace S) (hn : Plain n) (hl : Layout S w.root)
    (hI : ∀ w', LockKept S n w w' → I w') :
    Ends (machine env) I
      (fun _ w' => LockKept S n w w' ∧ w'.root.DirAt (tablePlace S .locks) ∧
        ∃ l, w'.root.find (entryPlace S .locks n) = some (.inl l))
      (fun e w' => FromLock e ∧ LockKept S n w w')
      (openLockFile (pathOf (entryPlace S .locks n))) w := by
  have htable := plain_tablePlace hS .locks
  have made {w' : World} (h : Made (tablePlace S .locks) w w') : LockKept S n w w' :=
    lockKept_of_mkdirs hl h
  rw [openLockFile, ensureParentDir, entryPlace, parent_pathOf hn.ne_dot]
  refine ends_bind (P := fun _ w' => Made (tablePlace S .locks) w w' ∧
    w'.root.DirAt (tablePlace S .locks)) ?_ ?_
  · refine ends_bind (ends_of_noError (noError_createDirAll _)
      (ensures_createDirAll htable (hl.table _) fun w' h => hI w' (made h))) ?_
    rintro r w₁ h₁ ⟨hm₁, hd₁⟩
    cases r with
    | ok a => exact ends_ok h₁ ⟨hm₁, hd₁ rfl⟩
    | error e => exact ends_error h₁ ⟨⟨_, _, rfl, .inl rfl⟩, made hm₁⟩
  rintro - w₁ h₁ ⟨hm₁, hd₁⟩
  have hl₁ := (made hm₁).layout
  have kept {w' : World} (h : LockMade (entryPlace S .locks n) w₁ w') : LockKept S n w w' :=
    .after hl hm₁ (lockKept_of_made hl₁ hd₁ hn h)
  refine ends_bind (ends_call (ensures_openLock htable hn hd₁ (hl₁.entry _ _)
    fun w' h => hI w' (kept h))) ?_
  rintro r w₂ h₂ ⟨hm₂, hok⟩
  cases r with
  | ok a => exact ends_ok h₂ ⟨kept hm₂, hm₂.dirAt hd₁, hok rfl⟩
  | error e => exact ends_error h₂ ⟨⟨_, _, rfl, .inr (.inl rfl)⟩, kept hm₂⟩

/-- Locking a layer: refused exactly where another process holds the lock. -/
theorem ensures_lockLayerForPrune (hS : PlainPlace S) (hn : Plain n) (hl : Layout S w.root)
    (hI : ∀ w', LockKept S n w w' → I w') :
    Ensures (machine env) I
      (fun r w' => LockKept S n w w' ∧
        match r with
        | .acquired path => path = pathOf (entryPlace S .locks n) ∧
            entryPlace S .locks n ∉ w.held ∧ w'.root.DirAt (tablePlace S .locks) ∧
            ∃ l, w'.root.find (entryPlace S .locks n) = some (.inl l)
        | .failed => entryPlace S .locks n ∈ w.held
        | .error e => FromLock e)
      ((storeAt S).lockLayerForPrune n) w := by
  rw [Storage.lockLayerForPrune, layerLockPath_storeAt hn]
  refine ensures_bind (P := fun r w' => LockKept S n w w' ∧ match r with
    | .ok _ => w'.root.DirAt (tablePlace S .locks) ∧
        ∃ l, w'.root.find (entryPlace S .locks n) = some (.inl l)
    | .error e => FromLock e) ?_ ?_
  · exact ends_attempt (ends_openLockFile hS hn hl hI) (fun _ _ _ h => h)
      fun _ _ _ h => h.symm
  rintro r w₁ h₁ ⟨hk₁, hr⟩
  split
  · exact ensures_ok h₁ ⟨hk₁, hr⟩
  obtain ⟨hd₁, l, hf₁⟩ := hr
  have hheld : w₁.held = w.held := congrArg Prod.fst hk₁.aside
  refine ensures_bind (P := fun r w' => w' = w₁ ∧ Locks w₁ (pathOf (entryPlace S .locks n)) r)
    (ensures_setlk h₁ fun r h => ⟨rfl, h⟩) ?_
  rintro r w' - ⟨rfl, hlock⟩
  have hwalk : walk w'.root (pathOf (entryPlace S .locks n)) = .ok (entryPlace S .locks n) :=
    walk_child hd₁ (plain_tablePlace hS .locks) hn (hk₁.layout.entry _ _) false
  rw [Locks, hwalk] at hlock
  dsimp only at hlock
  split
  · refine ensures_ok h₁ ⟨hk₁, rfl, fun hh => ?_, hd₁, l, hf₁⟩
    rw [if_pos (hheld ▸ hh)] at hlock
    cases hlock
  · refine ensures_ok h₁ ⟨hk₁, ?_⟩
    by_contra hh
    rw [if_neg (hheld ▸ hh)] at hlock
    rcases hlock with h | ⟨code, h⟩ <;> cases h
  · exact ensures_ok h₁ ⟨hk₁, _, _, rfl, .inr (.inr rfl)⟩

theorem unlink_entry (hS : PlainPlace S) (hl : Layout S x) (hn : Plain n)
    (h : unlink x (pathOf (entryPlace S k n)) = .ok y) : y = x.put (entryPlace S k n) none := by
  rcases hl.table k _ List.prefix_rfl with hg | hd
  · rw [unlink, pathOf, entryPlace,
      locate_missing (hl.table k) hg (plain_tablePlace hS k) hn] at h
    cases h
  · rw [entryPlace, unlink_child hd (plain_tablePlace hS k) hn] at h
    split at h <;> cases h
    rfl

/-- A lock file is removed at once. -/
theorem ends_removeLockFile (hS : PlainPlace S) (hn : Plain n) (hr : Ready S w) (hI : I w)
    (hI' : ∀ w', Gone S .locks n w w' → I w') :
    Ends (machine env) I
      (fun _ w' => Gone S .locks n w w' ∧ (Cleared S w → Cleared S w'))
      (fun e w' => (∃ args e', e = .context ⟨"failed to remove layer lock file {}", args⟩ e') ∧
        w' = w)
      (Storage.removeLockFile (pathOf (entryPlace S .locks n))) w := by
  refine ends_bind (ends_call (ensures_removeFile (P := fun r w' => (∃ e, r = .error e ∧ w' = w) ∨
    (r = .ok () ∧ Gone S .locks n w w' ∧ (Cleared S w → Cleared S w'))) hI (fun x hx => ?_)
      fun e _ => .inl ⟨e, rfl, rfl⟩)) ?_
  · obtain rfl := unlink_entry hS hr.layout hn hx
    have hb : Becomes S ((view S w.root).set .locks n none) w
        (w.withRoot (w.root.put (entryPlace S .locks n) none)) :=
      ⟨layout_put_entry hr.layout (by simp) (.inl rfl), view_put_entry (.inl rfl), rfl⟩
    have hg : Gone S .locks n w (w.withRoot (w.root.put (entryPlace S .locks n) none)) :=
      ⟨hb, ⟨hb.layout, (dirAt_put_off (entry_off_temporary _ _) none).mpr hr.temporary⟩,
        thins_put_none _ _⟩
    exact ⟨hI' _ hg, .inr ⟨rfl, hg, fun hc m => get_put_none_of_none (hc m)⟩⟩
  rintro r w' h' (⟨e, rfl, rfl⟩ | ⟨rfl, h⟩)
  · exact ends_error h' ⟨⟨_, _, rfl⟩, rfl⟩
  · exact ends_ok h' h

end Pakstak
