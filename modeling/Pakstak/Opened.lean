/-
  Opening the store: its directories are made, its lock is taken, `temporary` is emptied.

  Proved, for any answers of the environment, and for every state seen on the way:
  * `ensures_newMutable`: no entry of the store changes, and `temporary` ends up empty, if it is
    not taken for missing while there is something in it (`TemporarySeen`).
  * `ensures_new`: no entry changes either when the store is opened to read it.
-/
import Pakstak.Atomic

namespace Pakstak

open Posix Prog FileTree

variable {env : Env} {I : World → Prop} {S : Place}

/-! ## Parents and lock files -/

theorem existsPath_iff {x : Node} {d : Place} {n : Bytes} (h : Clear x (d ++ [n]))
    (hp : PlainPlace (d ++ [n])) : existsPath x (pathOf (d ++ [n])) = true ↔
      x.DirAt (d ++ [n]) := by
  have hpd := hp.up (List.prefix_append d [n])
  have hl : NotLink x (d ++ [n]) := by
    intro t ht
    rcases h _ List.prefix_rfl with hx | hx
    · rw [find_eq_none_iff.mpr hx] at ht
      cases ht
    · obtain ⟨m, hm⟩ := dirAt_iff_find.mp hx
      rw [hm] at ht
      cases ht
  rw [existsPath, stat_child (h.up (List.prefix_append _ _)) hpd (hp n (by simp)) hl]
  rcases h _ List.prefix_rfl with hx | hx
  · rw [find_eq_none_iff.mpr hx]
    refine ⟨fun h => (by cases h), fun hd => ?_⟩
    obtain ⟨m, kids, hk⟩ := hd
    rw [hx] at hk
    cases hk
  · obtain ⟨m, hm⟩ := dirAt_iff_find.mp hx
    rw [hm]
    exact ⟨fun _ => hx, fun _ => rfl⟩

/-- The parent of a path spelled like a place is made where it is missing. -/
theorem ensures_ensureParentDir {d : Place} {n : Bytes} {w : World} (hp : PlainPlace d)
    (hn : Plain n) (hc : Clear w.root d) (hI : ∀ w', Made d w w' → I w') :
    Ensures (machine env) I (fun _ w' => Made d w w' ∧ w'.root.DirAt d)
      (ensureParentDir (pathOf (d ++ [n]))) w := by
  rw [ensureParentDir, parent_pathOf hn.ne_dot]
  exact ensures_last (ensures_mono (ensures_createDirAll hp hc hI) (fun _ h => h)
    fun r w' _ h a ha => ⟨h.1, h.2 ha⟩)

/-- Where the parent is a directory, nothing is made. -/
theorem ensures_ensureParentDir_present {p q : PathBuf} {w : World} (hq : p.parent = some q)
    (hd : isDirPath w.root q = true) (hI : I w) :
    Ensures (machine env) I (fun _ w' => w' = w) (ensureParentDir p) w := by
  rw [ensureParentDir, hq]
  exact ensures_last (ensures_mono (ensures_createDirAll_present hd hI) (fun _ h => h)
    fun _ _ _ h _ _ => h)

/-- A lock file is opened, or made: nothing else at its place, and nothing elsewhere. -/
def LockMade (c : Place) (w w' : World) : Prop :=
  w' = w ∨ (w.root.find c = none ∧
    w' = w.withRoot (w.root.put c (some (.leaf (.file newFile [])))))

theorem ensures_openLock {d : Place} {n : Bytes} {w : World} (hp : PlainPlace d) (hn : Plain n)
    (hd : w.root.DirAt d) (hl : NotLink w.root (d ++ [n]))
    (hI : ∀ w', LockMade (d ++ [n]) w w' → I w') :
    Ensures (machine env) I
      (fun r w' => LockMade (d ++ [n]) w w' ∧
        (r = .ok () → ∃ l, w'.root.find (d ++ [n]) = some (.inl l)))
      (Fs.openCreate (pathOf (d ++ [n]))) w := by
  have h₀ := hI w (.inl rfl)
  refine ensures_openCreate h₀ (fun x hx => ?_) fun e => ⟨.inl rfl, by simp⟩
  rw [openCreate_child hd hp hn hl] at hx
  cases hf : w.root.find (d ++ [n]) with
  | none =>
    rw [hf] at hx
    cases hx
    have hm : LockMade (d ++ [n]) w (w.withRoot _) := .inr ⟨hf, rfl⟩
    exact ⟨hI _ hm, hm, fun _ => ⟨_, by rw [withRoot_root, find, get_put_append hd]; rfl⟩⟩
  | some i =>
    rw [hf] at hx
    cases i with
    | inr m => cases hx
    | inl l =>
      cases hx
      exact ⟨h₀, .inl rfl, fun _ => ⟨l, hf⟩⟩

theorem LockMade.dirAt {c q : Place} {w w' : World} (h : LockMade c w w')
    (hq : w.root.DirAt q) : w'.root.DirAt q := by
  rcases h with rfl | ⟨hf, rfl⟩
  · exact hq
  · exact dirAt_put_of_not (fun hd => by
      obtain ⟨m, hm⟩ := dirAt_iff_find.mp hd
      rw [hf] at hm
      cases hm) hq

/-- The lock of the store is no entry. -/
theorem still_of_storageLock {w w' : World} (hl : Layout S w.root)
    (h : LockMade (storageLockPlace S) w w') : Still S w w' := by
  rcases h with rfl | ⟨hf, rfl⟩
  · exact .refl hl
  have hoff {q : Place} (hq : ¬ storageLockPlace S <+: q) :=
    find_put_off (x := w.root) hq (some (.leaf (.file newFile [])))
  refine ⟨hl.of_find (fun q hq => .inl (hoff fun h => ?_))
    (.inr (notLink_put hl.storageLock (by simp)))
    fun k n => .inl (hoff (table_off_storageLock k [n])), ?_, rfl⟩
  · rcases hq with ⟨k, hq⟩ | hq
    · have := table_off_storageLock (S := S) k []
      rw [List.append_nil] at this
      exact this (h.trans hq)
    · exact storageLock_off_temporary (h.trans hq)
  · exact view_put_off (fun k n => table_off_storageLock k [n]) entry_off_storageLock _

theorem quiet_of_storageLock {w w' : World} (hl : Layout S w.root)
    (h : LockMade (storageLockPlace S) w w') : Quiet S w w' := by
  refine ⟨still_of_storageLock hl h, ?_⟩
  rcases h with rfl | ⟨-, rfl⟩
  · exact .refl S _
  · exact kept_put_lock (by simp [locksPlace, storageLockPlace]) _

/-! ## The store -/

theorem store_le_table (S : Place) (k : Kind) : S <+: tablePlace S k := List.prefix_append _ _

theorem entry_off_of_le_table {c : Place} {k : Kind} (h : c <+: tablePlace S k) (k' : Kind)
    (n : Bytes) : ¬ entryPlace S k' n <+: c := fun h' => entry_off_table k' k n (h'.trans h)

theorem locks_le_table (S : Place) : S ++ [utf8 "locks"] <+: tablePlace S .locks := by
  simp [tablePlace, Kind.head]

theorem plain_locksPlace (hS : PlainPlace S) : PlainPlace (S ++ [utf8 "locks"]) :=
  hS.snoc plain_locks

/-- Taking the lock of the store changes no entry. -/
theorem ensures_acquireLock {w : World} {mode : LockMode} (hS : PlainPlace S)
    (hl : Layout S w.root) (hI : ∀ w', Quiet S w w' → I w') :
    Ensures (machine env) I (fun _ w' => Quiet S w w' ∧ w'.root.DirAt S)
      (acquireLock (pathOf S) mode) w := by
  have made {w' : World} (h : Made S w w') : Quiet S w w' :=
    quiet_of_made hl h (.inr ⟨.containers, store_le_table S _⟩)
  rw [acquireLock]
  refine ensures_step (P := fun _ w' => Quiet S w w' ∧ w'.root.DirAt S)
    (ensures_mono (ensures_createDirAll hS ((hl.table .containers).up (store_le_table S _))
      fun w' h => hI w' (made h)) (fun _ h => h) fun r w' _ h a ha => ⟨made h.1, h.2 ha⟩) ?_
  rintro - w₁ h₁ ⟨hs₁, hd₁⟩
  extract_lets lockPath
  have hlock : lockPath = pathOf ((S ++ [utf8 "locks"]) ++ [utf8 "storage"]) := by
    rw [show lockPath = ((pathOf S).join (utf8 "locks")).join (utf8 "storage") from rfl,
      join_plain plain_locks, join_plain plain_storage]
    rfl
  have hplace : (S ++ [utf8 "locks"]) ++ [utf8 "storage"] = storageLockPlace S := by
    simp [storageLockPlace]
  rw [hlock, openLockFile]
  refine ensures_bind (P := fun _ w' => Quiet S w w' ∧ w'.root.DirAt S) ?_ ?_
  · have locks {w' : World} (h : Made (locksPlace S) w₁ w') : Quiet S w w' :=
      hs₁.trans (quiet_of_made hs₁.still.layout h (.inr ⟨.locks, locks_le_table S⟩))
    refine ensures_bind (ensures_ensureParentDir (plain_locksPlace hS) plain_storage
      ((hs₁.still.layout.table .locks).up (locks_le_table S)) fun w' h => hI w' (locks h)) ?_
    rintro - w₂ h₂ ⟨hm₂, hd₂⟩
    have hs₂ : Quiet S w w₂ := locks hm₂
    have hI₂ {w' : World} (h : LockMade (S ++ [utf8 "locks"] ++ [utf8 "storage"]) w₂ w') :
        Quiet S w w' := hs₂.trans (quiet_of_storageLock hs₂.still.layout (hplace ▸ h))
    refine ensures_last (ensures_mono (ensures_openLock (plain_locksPlace hS) plain_storage hd₂
      (hplace ▸ hs₂.still.layout.storageLock) fun w' h => hI w' (hI₂ h)) (fun _ h => h)
      fun r w' _ h a _ => ⟨hI₂ h.1, h.1.dirAt (hm₂.mkdirs.dirAt hd₁)⟩)
  rintro - w₃ h₃ hs₃
  exact ensures_last (ensures_tryLock h₃ fun r a _ => hs₃)

/-- While there is something in `temporary`, the question whether it exists does not fail. -/
class TemporarySeen (env : Env) (S : Place) : Prop where
  empty : ∀ x, env.statFails (pathOf (temporaryPlace S)) x →
    ∀ n, x.get (temporaryPlace S ++ [n]) = none

instance [StatAnswers env] : TemporarySeen env S :=
  ⟨fun x h => (StatAnswers.not_statFails _ x h).elim⟩

variable (henv : env.storagePath = pathOf S)
include henv

/-- Opening the store to read it changes no entry. -/
theorem ensures_new {w : World} (hS : PlainPlace S) (hl : Layout S w.root)
    (hI : ∀ w', Quiet S w w' → I w') :
    Ensures (machine env) I (fun st w' => st = storeAt S ∧ Quiet S w w') (Storage.new env) w := by
  rw [Storage.new, Storage.newWithLock, henv]
  refine ensures_bind (ensures_acquireLock hS hl hI) ?_
  rintro - w₁ h₁ ⟨hs₁, -⟩
  exact ensures_ok h₁ ⟨rfl, hs₁⟩

/-- Opening the store to change it changes no entry, and empties `temporary`. -/
theorem ensures_newMutable [TemporarySeen env S] {w : World} (hS : PlainPlace S)
    (hl : Layout S w.root) (hI : ∀ w', Quiet S w w' → I w') :
    Ensures (machine env) I
      (fun st w' => st = storeAt S ∧ Quiet S w w' ∧ w'.root.DirAt (temporaryPlace S) ∧
        Cleared S w')
      (Storage.newMutable env) w := by
  have hpT := plain_temporaryPlace hS
  rw [Storage.newMutable, Storage.newWithLock, henv]
  refine ensures_bind (P := fun st w' => st = storeAt S ∧ Quiet S w w' ∧ w'.root.DirAt S) ?_ ?_
  · refine ensures_bind (ensures_acquireLock hS hl hI) ?_
    rintro - w₁ h₁ ⟨hs₁, hd₁⟩
    exact ensures_ok h₁ ⟨rfl, hs₁, hd₁⟩
  rintro st w₁ h₁ ⟨rfl, hs₁, hd₁⟩
  rw [temporaryPath_storeAt]
  -- the directory made where it is not there, with nothing left in it
  have rest {w₂ : World} (hs₂ : Quiet S w w₂)
      (hg₂ : ∀ n, w₂.root.get (temporaryPlace S ++ [n]) = none) : Ensures (machine env) I
      (fun st w' => st = storeAt S ∧ Quiet S w w' ∧ w'.root.DirAt (temporaryPlace S) ∧
        Cleared S w')
      (do
        orContext ⟨"failed to create temporary directory {}", [(pathOf (temporaryPlace S)).display]⟩
          (← createDirAll (pathOf (temporaryPlace S)))
        return storeAt S) w₂ := by
    have hs₃ {w' : World} (h : Made (temporaryPlace S) w₂ w') : Quiet S w w' :=
      hs₂.trans (quiet_of_made hs₂.still.layout h (.inl List.prefix_rfl))
    refine ensures_step (P := fun _ w' => Made (temporaryPlace S) w₂ w' ∧
        w'.root.DirAt (temporaryPlace S))
      (ensures_mono (ensures_createDirAll hpT hs₂.still.layout.temporary fun w' h => hI w' (hs₃ h))
        (fun _ h => h) fun r w' _ h a ha => ⟨h.1, h.2 ha⟩) ?_
    rintro - w₃ h₃ ⟨hm₃, hd₃⟩
    refine ensures_ok h₃ ⟨rfl, hs₃ hm₃, hd₃, fun n => ?_⟩
    rw [hm₃.mkdirs.off _ (entry_not_above _ _)]
    exact hg₂ n
  refine ensures_bind (P := fun b w' => w' = w₁ ∧
      (b = existsPath w₁.root (pathOf (temporaryPlace S)) ∨
        b = false ∧ ∀ n, w₁.root.get (temporaryPlace S ++ [n]) = none))
    (ensures_pathExists h₁ ⟨rfl, .inl rfl⟩ fun hs => ⟨rfl, .inr ⟨rfl, TemporarySeen.empty _ hs⟩⟩) ?_
  rintro b w' - ⟨rfl, hb⟩
  dsimp only
  split
  · rename_i hbt
    rw [hbt] at hb
    have hT : w'.root.DirAt (temporaryPlace S) := (existsPath_iff hs₁.still.layout.temporary hpT).mp
      (hb.resolve_right (by simp)).symm
    refine ensures_bind (ensures_withContext.mpr (ensures_removeDirAllWritable (d := S)
      (n := utf8 "temporary") hpT hd₁ fun w' h => hI w'
        (hs₁.trans (quiet_of_within hs₁.still.layout h.within (h.left hT))))) ?_
    rintro - w₂ h₂ ⟨hw₂, hg₂⟩
    exact rest (hs₁.trans (quiet_of_within hs₁.still.layout hw₂ (.inl hg₂)))
      fun n => get_append_of_none hg₂ [n]
  · rename_i hbf
    refine rest hs₁ (hb.elim (fun hb => ?_) fun hb => hb.2)
    have hnone := (hs₁.still.layout.temporary _ List.prefix_rfl).resolve_right fun hT =>
      hbf (hb.trans ((existsPath_iff hs₁.still.layout.temporary hpT).mpr hT))
    exact fun n => get_append_of_none hnone [n]

end Pakstak
