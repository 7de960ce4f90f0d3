/-
  Commands and runs at the same time.

  Any number of processes work on one store, one call at a time, in any order; each of them may
  stop or be killed anywhere. What they do before they have the lock of the store, and what runs
  do with it, goes on among the calls of others.

  Proved, for any registries and any answers of the environment (its `stat` answering):
  `interleaved_healthy`, `interleaved_run`.
-/
import Pakstak.Running
import Pakstak.Lib.Pool

namespace Pakstak

open Posix Prog FileTree

variable {env : Env} {C R : World → Prop} {G : World → World → Prop} {S c : Place} {w w' : World}

/-! ## The lock of the store -/

/-- The lock file of the store is there. -/
def LockThere (S : Place) (x : Node) : Prop :=
  ∃ m data, x.find (storageLockPlace S) = some (.inl (.file m data))

def holdOf : LockMode → Hold
  | .shared => .reader
  | .exclusive => .writer

/-- What an answer gives a process of the lock of the store. -/
def lockOf : (o : Op) → Reply o → Option Hold
  | .tryLock _ mode, .ok () => some (holdOf mode)
  | _, _ => none

theorem storageLockPlace_eq (S : Place) :
    storageLockPlace S = locksPlace S ++ [utf8 "storage"] := by
  simp [storageLockPlace, locksPlace]

theorem storageLockPath_eq (S : Place) : ((pathOf S).join (utf8 "locks")).join (utf8 "storage") =
    pathOf (locksPlace S ++ [utf8 "storage"]) := by
  rw [join_plain plain_locks, join_plain plain_storage]
  rfl

theorem LockThere.locks {x : Node} (h : LockThere S x) : x.DirAt (locksPlace S) := by
  obtain ⟨m, data, hf⟩ := h
  rw [storageLockPlace_eq] at hf
  obtain ⟨t, ht, -⟩ := find_eq_some_iff.mp hf
  exact dirAt_of_get_append ht (by simp)

theorem LockThere.store {x : Node} (h : LockThere S x) : x.DirAt S :=
  dirAt_above h.locks (List.prefix_append _ _)

/-! ## Before the lock -/

theorem steady_pathIsDir {p : PathBuf} {L : Hold → World → M Bool → Prop} {H : Err → Prop}
    {lock : (o : Op) → Reply o → Option Hold} (hl : ∀ p r, lock (.stat p) r = none)
    (hG : ∀ w, R w → G w w) :
    Steady ((machine env).under C) lock R G L (fun _ => True) H (pathIsDir p) := by
  refine steady_bind (steady_call (P := fun _ => True) (hl p) fun w hR _ =>
    ensures_metadata (hG w hR) trivial fun _ _ => trivial) fun r _ => ?_
  cases r with
  | ok i => trivial
  | error e => trivial

/-- Where the parent is never missing, one call makes the directory. -/
theorem steady_createDirAll {p : PathBuf}
    {L : Hold → World → M (Except Errno Unit) → Prop} {H : Err → Prop}
    {lock : (o : Op) → Reply o → Option Hold} (hl : ∀ p r, lock (.stat p) r = none)
    (hl' : ∀ p r, lock (.mkdir p) r = none) (hG : ∀ w, R w → G w w)
    (h : ∀ w, R w → C w →
      Ensures (machine env) (G w) (fun r _ => r ≠ .error .noent) (Fs.createDir p) w) :
    Steady ((machine env).under C) lock R G L (fun _ => True) H (createDirAll p) := by
  rw [createDirAll, createDirAllUpTo]
  refine steady_bind (steady_call (hl' p) h) fun r hr => ?_
  have again (e : Errno) : Steady ((machine env).under C) lock R G L (fun _ => True) H
      (do if ← pathIsDir p then return .ok () else return .error e) := by
    refine steady_bind (steady_pathIsDir hl hG) fun b _ => ?_
    cases b <;> trivial
  cases r with
  | ok u => trivial
  | error e =>
    cases e with
    | noent => exact absurd rfl hr
    | _ => exact again _

theorem stat_dirAt {x : Node} (hc : PlainPlace c) (hd : x.DirAt c) :
    ∃ m, stat x (pathOf c) = .ok (.inr m) := by
  obtain ⟨m, hm⟩ := dirAt_iff_find.mp hd
  exact ⟨m, by simp [stat, pathOf, walk_dirAt hd hc, hm]⟩

theorem ensures_createDir_present (hc : PlainPlace c) (hd : w.root.DirAt c) :
    Ensures (machine env) (fun w' => w'.root = w.root) (fun r _ => r ≠ .error .noent)
      (Fs.createDir (pathOf c)) w := by
  obtain ⟨m, hm⟩ := stat_dirAt hc hd
  obtain ⟨e, he, hne⟩ := mkdir_of_dir hm
  refine ensures_createDir rfl (fun x hx => ?_) fun e' he' => ?_
  · rw [he] at hx
    cases hx
  · rcases he' with he' | ⟨code, rfl⟩
    · rw [he] at he'
      cases he'
      simpa using hne
    · simp

theorem steady_createDirAll_present {L : Hold → World → M (Except Errno Unit) → Prop}
    {H : Err → Prop} (hc : PlainPlace c) (hd : ∀ w, C w → w.root.DirAt c) :
    Steady ((machine env).under C) lockOf R (fun w w' => w'.root = w.root) L (fun _ => True) H
      (createDirAll (pathOf c)) :=
  steady_createDirAll (fun _ _ => rfl) (fun _ _ => rfl) (fun _ _ => rfl)
    fun w _ hC => ensures_createDir_present hc (hd w hC)

/-- Until it has the lock, a process changes nothing in a store that was used before. -/
theorem steady_acquireLock {mode : LockMode} {L : Hold → World → M Unit → Prop}
    (hS : PlainPlace S) (hC : ∀ w, C w → LockThere S w.root)
    (hL : ∀ w, R w → C w → L (holdOf mode) w (.ret (.ok ()))) :
    Steady ((machine env).under C) lockOf R (fun w w' => w'.root = w.root) L (fun _ => False)
      (fun _ => True) (acquireLock (pathOf S) mode) := by
  have orContext_steady {α : Type} {L : Hold → World → M α → Prop} {m : Msg}
      {r : Except Errno α} : Steady ((machine env).under C) lockOf R
        (fun w w' => w'.root = w.root) L (fun _ => True) (fun _ => True) (orContext m r) := by
    cases r <;> trivial
  rw [acquireLock]
  refine steady_bind (steady_createDirAll_present hS fun w h => (hC w h).store) fun r _ =>
    steady_bind orContext_steady fun _ _ => ?_
  extract_lets lockPath
  rw [show lockPath = _ from storageLockPath_eq S, openLockFile, ensureParentDir,
    parent_pathOf plain_storage.ne_dot]
  refine steady_bind (P := fun _ => True) (steady_bind (P := fun _ => True) (steady_bind
    (steady_createDirAll_present (plain_locksPlace hS) fun w h => (hC w h).locks)
    fun r _ => orContext_steady) fun _ _ => steady_bind (P := fun _ => True)
      (steady_call (fun _ => rfl) fun w hR hCw => ?_) fun r _ => orContext_steady) fun _ _ => ?_
  · obtain ⟨m, data, hf⟩ := hC w hCw
    rw [storageLockPlace_eq] at hf
    refine ensures_openCreate rfl (fun x hx => ?_) fun _ => trivial
    rw [openCreate_child (hC w hCw).locks (plain_locksPlace hS) plain_storage
      (fun t ht => by rw [hf] at ht; cases ht), hf] at hx
    cases hx
    exact ⟨rfl, trivial⟩
  · refine fun w hR => ⟨fun r w' hstep => ?_, fun w' hmid => hmid.2.elim⟩
    obtain ⟨hCw, -, rfl⟩ := hstep
    cases r with
    | ok u => exact ⟨rfl, hL _ hR hCw⟩
    | error e => exact ⟨rfl, trivial⟩

/-- The lock can be had without a change. -/
theorem reach_createDirAll (hc : PlainPlace c) (hd : w.root.DirAt c) (hC : C w) :
    Reach ((machine env).under C) (createDirAll (pathOf c)) w (.ret (.ok (.ok ()))) w := by
  obtain ⟨m, hm⟩ := stat_dirAt hc hd
  obtain ⟨e, he, hne⟩ := mkdir_of_dir hm
  have hmkdir : ((machine env).under C).step (.mkdir (pathOf c)) w (.error e) w :=
    ⟨hC, .inr (.inl ⟨e, he, rfl, rfl⟩)⟩
  have hstat : ((machine env).under C).step (.stat (pathOf c)) w (.ok (.inr m)) w :=
    ⟨hC, .inl hm.symm, rfl⟩
  rw [createDirAll, createDirAllUpTo]
  refine .ask hmkdir ?_
  cases e with
  | noent => exact absurd rfl hne
  | _ => exact .ask hstat (.refl _ _)

theorem reach_acquireLock {mode : LockMode} (hS : PlainPlace S) (h : LockThere S w.root)
    (hC : C w) : Reach ((machine env).under C) (acquireLock (pathOf S) mode) w
      (.ret (.ok ())) w := by
  have hopen : ((machine env).under C).step
      (.openCreate (pathOf (locksPlace S ++ [utf8 "storage"]))) w (.ok ()) w := by
    obtain ⟨m, data, hf⟩ := h
    rw [storageLockPlace_eq] at hf
    have hlocks := LockThere.locks ⟨m, data, (storageLockPlace_eq S).symm ▸ hf⟩
    refine ⟨hC, .inl ⟨w.root, ?_, rfl, rfl⟩⟩
    rw [openCreate_child hlocks (plain_locksPlace hS) plain_storage
      (fun t ht => by rw [hf] at ht; cases ht), hf]
    rfl
  have htry : ((machine env).under C).step
      (.tryLock (pathOf (locksPlace S ++ [utf8 "storage"])) mode) w (.ok ()) w :=
    ⟨hC, .inl rfl, rfl⟩
  have hfile : Reach ((machine env).under C)
      (openLockFile (pathOf (locksPlace S ++ [utf8 "storage"]))) w (.ret (.ok ())) w := by
    rw [openLockFile, ensureParentDir, parent_pathOf plain_storage.ne_dot]
    exact (((reach_createDirAll (plain_locksPlace hS) h.locks hC).bind _).bind _).trans
      (.ask hopen (.refl _ _))
  rw [acquireLock]
  refine ((reach_createDirAll hS h.store hC).bind _).trans ?_
  dsimp only [Prog.bind, orContext, lift, Except.mapError]
  rw [storageLockPath_eq]
  exact (hfile.bind _).trans (.ask htry (.refl _ _))

/-! ## With the lock, to read -/

/-- A store whose layout is right and whose promises are kept. -/
structure Healthy (env : Env) (S : Place) (x : Node) : Prop where
  layout : Layout S x
  promised : Promised env (view S x)

/-- Nothing has changed but what is among the locks, or a directory of the store was missing. -/
structure LocksOnly (S : Place) (x y : Node) : Prop where
  layout : Layout S y
  entries : ∀ k n, k ≠ .locks → view S y k n = view S x k n
  kept : Kept S x y

variable {x y z x₀ : Node}

theorem LocksOnly.refl (hl : Layout S x) : LocksOnly S x x := ⟨hl, fun _ _ _ => rfl, .refl S x⟩

theorem LocksOnly.trans (h : LocksOnly S x y) (h' : LocksOnly S y z) : LocksOnly S x z :=
  ⟨h'.layout, fun k n hk => (h'.entries k n hk).trans (h.entries k n hk), h.kept.trans h'.kept⟩

theorem Calm.locksOnly (h : Calm S w w') : LocksOnly S w.root w'.root :=
  ⟨h.layout, h.entries, h.kept⟩

theorem Healthy.locksOnly (h : Healthy env S x) (hk : LocksOnly S x y) : Healthy env S y :=
  ⟨hk.layout, h.promised.agrees hk.entries⟩

theorem LocksOnly.hasContainer {n : Bytes} (h : LocksOnly S x y) :
    (view S y).HasContainer n ↔ (view S x).HasContainer n := by
  rw [Store.HasContainer, h.entries .containers n (by simp), Store.HasContainer]

theorem LocksOnly.hasLayer {n : Bytes} (h : LocksOnly S x y) :
    (view S y).HasLayer n ↔ (view S x).HasLayer n := by
  rw [Store.HasLayer, h.entries .layers n (by simp), Store.HasLayer]

/-- A part of `run`, among the calls of other runs, since the tree was `x₀`. -/
abbrev AmongRuns {α : Type} (env : Env) (C : World → Prop) (S : Place) (x₀ : Node) (P : α → Prop)
    (H : Err → Prop) (p : M α) : Prop :=
  Steady ((machine env).under C) (fun _ _ => none)
    (fun w => Healthy env S w.root ∧ LocksOnly S x₀ w.root)
    (fun w w' => LocksOnly S w.root w'.root) (fun _ _ _ => True) P H p

theorem brief_pathIsDir (p : PathBuf) : Brief (pathIsDir p) :=
  (brief_call _).bind fun r => by cases r <;> exact ⟨_, rfl⟩

theorem brief_ensureContainerInstalled (st : Storage) (n : Bytes) :
    Brief (st.ensureContainerInstalled n) :=
  (brief_pathIsDir _).bind fun b => by cases b <;> exact ⟨_, rfl⟩

theorem brief_readOrContext (p : PathBuf) (m : Msg) :
    Brief ((Fs.read p).bind fun r => orContext m r) := (brief_call _).bind fun _ => ⟨_, rfl⟩

theorem brief_readContainerManifestDigest (st : Storage) (n : Bytes) :
    Brief (st.readContainerManifestDigest n) := by
  refine (brief_readOrContext _ _).bind fun text => ?_
  split
  · exact ⟨_, rfl⟩
  · split
    · exact ⟨_, rfl⟩
    · exact ⟨_, rfl⟩

theorem brief_readManifest (st : Storage) (d : Bytes) : Brief (st.readManifest env d) := by
  refine (brief_readOrContext _ _).bind fun bytes => ?_
  split
  · exact ⟨_, rfl⟩
  · exact ⟨_, rfl⟩

theorem brief_layerPathOrMissing (st : Storage) (layer : Descriptor) :
    Brief (layerPathOrMissing st layer) :=
  ((brief_pathIsDir _).bind fun b => by cases b <;> exact ⟨_, rfl⟩).bind fun o => by
    cases o <;> exact ⟨_, rfl⟩

/-- What is read of the containers is what the store had when the run got the lock. -/
theorem among_readStackedLayers [StatAnswers env] {containers command : List Bytes}
    (hS : PlainPlace S) (hp : Promised env (view S x₀)) (hn : ∀ n ∈ containers, Plain n) :
    AmongRuns env C S x₀
      (fun layers => ∃ manifests, List.Forall₂ (Names env (view S x₀)) containers manifests ∧
        layers = stackLayers [] (manifests.flatMap ImageManifest.layers))
      (RunError env (view S x₀) containers command)
      (readStackedLayers env (storeAt S) containers) := by
  let K : List Descriptor → List Bytes → Prop := fun layers todo =>
    ∃ done manifests, containers = done ++ todo ∧
      List.Forall₂ (Names env (view S x₀)) done manifests ∧
        layers = stackLayers [] (manifests.flatMap ImageManifest.layers)
  refine steady_mono (steady_fold (K := K) ?_ containers [] ⟨[], [], rfl, .nil, rfl⟩) ?_
    fun _ h => h
  · rintro layers n todo ⟨done, manifests, hdone, hall, rfl⟩
    have hmem : n ∈ containers := by simp [hdone]
    have hpn := hn n hmem
    refine steady_bind (P := fun _ => (view S x₀).HasContainer n)
      (steady_of_ends (brief_ensureContainerInstalled _ _) fun w hw _ =>
        ends_mono (ends_ensureContainerInstalled (.refl hw.1.layout)) (fun _ h => h) ?_ ?_) ?_
    · rintro - w' - ⟨rfl, hd⟩
      exact hw.2.hasContainer.mp ((hasContainer_iff hS hw.1.layout hpn).mp hd)
    · rintro e w' - ⟨rfl, rfl, hnot⟩
      exact .notInstalled hmem fun h =>
        hnot ((hasContainer_iff hS hw.1.layout hpn).mpr (hw.2.hasContainer.mpr h))
    intro _ hhas
    obtain ⟨manifest, digest, bytes, hdigest, hwf, hb, hver, hm⟩ := hp.names hhas
    refine steady_bind (P := fun d => d = digest)
      (steady_of_ends (brief_readContainerManifestDigest _ _) fun w hw _ =>
        ends_mono (ends_readContainerManifestDigest hS hpn hw.1.promised.tidy.files
          ((digestText_of_eq (hw.2.entries _ _ (by simp))).trans hdigest) hwf
          (.refl hw.1.layout)) (fun _ h => h) (fun _ _ _ h => h.2) fun _ _ _ h => .disk h.2) ?_
    rintro d rfl
    refine steady_bind (P := fun r => r = manifest)
      (steady_of_ends (brief_readManifest _ _) fun w hw _ =>
        ends_mono (ends_readManifest hS hw.1.layout hwf
          ((manifestBytes_of_eq (hw.2.entries _ _ (by simp))).trans hb) hm
          (.refl hw.1.layout)) (fun _ h => h) (fun _ _ _ h => h.2) fun _ _ _ h => .disk h.2) ?_
    rintro r rfl
    exact ⟨done ++ [n], manifests ++ [r], by simp [hdone],
      List.rel_append hall (.cons ⟨d, bytes, hdigest, hwf, hb, hver, hm⟩ .nil),
      by simp [stackLayers, List.foldl_append]⟩
  · rintro layers ⟨done, manifests, hdone, hall, rfl⟩
    obtain rfl : containers = done := by simpa using hdone
    exact ⟨manifests, hall, rfl⟩

theorem openCreate_missing {d : Place} {n : Bytes} (hc : Clear x d) (hm : x.get d = none)
    (hp : PlainPlace d) : openCreate x (pathOf (d ++ [n])) = .error .noent := by
  simp [openCreate, openTarget, pathOf, walk_missing hc hm hp]

/-- Whatever is made is the lock file, or a directory for it. -/
theorem among_openLockFile {n : Bytes} (hS : PlainPlace S) (hn : Plain n)
    (hC : ∀ w, C w → LockThere S w.root) :
    AmongRuns env C S x₀ (fun _ => True) FromLock
      (openLockFile (pathOf (entryPlace S .locks n))) := by
  have htable := plain_tablePlace hS .locks
  rw [openLockFile, ensureParentDir, entryPlace, parent_pathOf hn.ne_dot]
  refine steady_bind (P := fun _ => True) (steady_bind (P := fun _ => True)
    (steady_createDirAll (fun _ _ => rfl) (fun _ _ => rfl) (fun w hw => .refl hw.1.layout)
      fun w hw hCw => ?_) fun r _ => ?_) fun _ _ => steady_bind (P := fun _ => True)
      (steady_call (o := Op.openCreate (pathOf (tablePlace S .locks ++ [n]))) (fun _ => rfl)
        fun w hw _ => ?_) fun r _ => ?_
  · obtain ⟨n', hn'⟩ : ∃ n', tablePlace S .locks = locksPlace S ++ [n'] :=
      ⟨utf8 "layers", by simp [tablePlace, locksPlace, Kind.head, Kind.tail]⟩
    rw [hn'] at htable ⊢
    exact ensures_mono (ensures_createDir_or (hC w hCw).locks htable fun w' h =>
      (quiet_of_made hw.1.layout h (.inr ⟨.locks, hn' ▸ List.prefix_rfl⟩)).calm.locksOnly)
      (fun _ h => h) fun _ _ _ h => h.2.2
  · cases r with
    | ok a => trivial
    | error e => exact ⟨_, _, rfl, .inl rfl⟩
  · rcases hw.1.layout.table .locks _ List.prefix_rfl with hnone | hd
    · refine ensures_openCreate (.refl hw.1.layout) (fun y hy => ?_) fun _ => trivial
      rw [openCreate_missing (hw.1.layout.table .locks) hnone htable] at hy
      cases hy
    · exact ensures_mono (ensures_openLock htable hn hd (hw.1.layout.entry _ _) fun w' h =>
        (lockKept_of_made hw.1.layout hd hn h).calm.locksOnly) (fun _ h => h) fun _ _ _ _ => trivial
  · cases r with
    | ok a => trivial
    | error e => exact ⟨_, _, rfl, .inr (.inl rfl)⟩

theorem among_createLayerLockFiles {layers : List Descriptor} (hS : PlainPlace S)
    (hC : ∀ w, C w → LockThere S w.root) (hw : ∀ layer ∈ layers, WellFormed layer.digest) :
    AmongRuns env C S x₀
      (fun paths => paths = (layers.map Descriptor.digest).zipIdx.map fun lock =>
        ((storeAt S).layerLockPath lock.1, sandboxPath lock.2)) FromLock
      (createLayerLockFiles (storeAt S) layers) := by
  let K : List (PathBuf × Bytes) → List Descriptor → Prop := fun paths todo =>
    ∃ done, layers = done ++ todo ∧ paths = (done.map Descriptor.digest).zipIdx.map fun lock =>
      ((storeAt S).layerLockPath lock.1, sandboxPath lock.2)
  refine steady_mono (steady_fold (K := K) ?_ layers [] ⟨[], rfl, rfl⟩) ?_ fun _ h => h
  · rintro paths layer todo ⟨done, hdone, rfl⟩
    have hplain := plain_of_wellFormed (hw layer (by simp [hdone]))
    refine steady_bind (P := fun path => path = (storeAt S).layerLockPath layer.digest) ?_ ?_
    · rw [Storage.createLayerLockFile, layerLockPath_storeAt hplain]
      exact steady_bind (among_openLockFile hS hplain hC) fun _ _ => rfl
    · rintro path rfl
      exact ⟨done ++ [layer], by simp [hdone], by simp [List.zipIdx_append, sandboxPath]⟩
  · rintro paths ⟨done, hdone, rfl⟩
    obtain rfl : layers = done := by simpa using hdone
    rfl

/-- A layer that was there when the run got the lock is found. -/
theorem among_layerPathOrMissing [StatAnswers env] {layer : Descriptor} {H : Err → Prop}
    (hS : PlainPlace S) (hw : WellFormed layer.digest) (hl : (view S x₀).HasLayer layer.digest) :
    AmongRuns env C S x₀ (fun path => path = (storeAt S).layerPath layer.digest) H
      (layerPathOrMissing (storeAt S) layer) := by
  refine steady_of_ends (brief_layerPathOrMissing _ _) fun w hw' _ => ?_
  have hd : isDirPath w.root ((storeAt S).layerPath layer.digest) = true :=
    (hasLayer_iff hS hw'.1.layout (plain_of_wellFormed hw)).mpr (hw'.2.hasLayer.mpr hl)
  exact ends_mono (ends_and (ends_layerPathOrMissing (H := fun e _ => H e) (I := fun w' =>
    LocksOnly S w.root w'.root) (.refl hw'.1.layout) hd)
    (ensures_layerPathOrMissing (I := fun _ => True) trivial)) (fun _ h => h)
    (fun _ _ _ h => h.2.2) fun _ _ _ h => h

theorem among_layerArgs [StatAnswers env] {layers : List Descriptor} (hS : PlainPlace S)
    (hl : ∀ layer ∈ layers, WellFormed layer.digest ∧ (view S x₀).HasLayer layer.digest) :
    AmongRuns env C S x₀
      (fun args => args = (rootOptions S (layers.map Descriptor.digest)).flatMap BwrapOption.args)
      (fun e => layers = [] ∧ e = .text ⟨"selected containers have no layers", []⟩)
      (layerArgs (storeAt S) layers) := by
  have found {layer : Descriptor} (h : layer ∈ layers) :=
    @among_layerPathOrMissing env C S x₀ _ layer (fun e => layers = [] ∧
      e = .text ⟨"selected containers have no layers", []⟩) hS (hl layer h).1 (hl layer h).2
  cases layers with
  | nil => exact ⟨rfl, rfl⟩
  | cons first rest =>
    cases rest with
    | nil =>
      refine steady_bind (found (by simp)) ?_
      rintro path rfl
      rfl
    | cons second rest =>
      let K : List Arg → List Descriptor → Prop := fun args todo =>
        ∃ done, first :: second :: rest = done ++ todo ∧ args = done.flatMap fun layer =>
          [Arg.text (utf8 "--overlay-src"), .path ((storeAt S).layerPath layer.digest)]
      refine steady_bind (P := fun args => K args [])
        (steady_fold (K := K) ?_ _ _ ⟨[], rfl, rfl⟩) ?_
      · rintro args layer todo ⟨done, hdone, rfl⟩
        refine steady_bind (found (by simp [hdone])) ?_
        rintro path rfl
        exact ⟨done ++ [layer], by simp [hdone], by simp⟩
      · rintro args ⟨done, hdone, rfl⟩
        obtain rfl : first :: second :: rest = done := by simpa using hdone
        show _ = _
        simp [rootOptions, BwrapOption.args, List.flatMap_map]

theorem among_buildBwrapCommand [StatAnswers env] {containers command : List Bytes}
    (hS : PlainPlace S) (hC : ∀ w, C w → LockThere S w.root) (hp : Promised env (view S x₀))
    (hn : ∀ n ∈ containers, Plain n) :
    AmongRuns env C S x₀ (MountsSelected env S (view S x₀) containers command)
      (RunError env (view S x₀) containers command)
      (buildBwrapCommand env (storeAt S) containers command) := by
  rw [buildBwrapCommand]
  split
  · rename_i hnil
    exact .noContainers hnil
  split
  · rename_i hnil
    exact .noCommand hnil
  refine steady_bind (among_readStackedLayers hS hp hn) ?_
  rintro layers ⟨manifests, hall, hlayers⟩
  have selected {layer : Descriptor} (h : layer ∈ layers) :
      Selects env (view S x₀) containers layer.digest :=
    (selects_iff hall _).mpr (hlayers ▸ List.mem_map_of_mem h)
  refine steady_bind (steady_mono (among_createLayerLockFiles hS hC fun layer h =>
    (hp.selected (selected h)).1) (fun _ h => h) fun e h => .lock h) ?_
  rintro paths rfl
  refine steady_bind (steady_mono (among_layerArgs hS fun layer h => ?_) (fun _ h => h) ?_) ?_
  · obtain ⟨hw, t, ht, hdir, -⟩ := hp.selected (selected h)
    exact ⟨hw, hasLayer_of_isDir ht hdir⟩
  · rintro e ⟨hnil, rfl⟩
    refine .noLayers fun d hd => ?_
    have hmem := (selects_iff hall d).mp hd
    rw [← hlayers, hnil] at hmem
    cases hmem
  rintro args rfl
  have hmounts := @mountsSelected_of_names env S _ containers command manifests hp hall
  rw [← hlayers] at hmounts
  refine Eq.subst (motive := MountsSelected env S (view S x₀) containers command) ?_ hmounts
  simp [bwrapOptions, lockOptions, BwrapOption.args, List.flatMap_map, List.flatMap_assoc]

/-! ## Jobs -/

/-- What a process does. -/
inductive Job where
  | mutable (command : Command)
  | run (containers command : List Bytes)

/-- The program of a process; only a run returns something. -/
def Job.prog (env : Env) : Job → M (List Arg)
  | .mutable command => (main env command).bind fun _ => .ret (.ok [])
  | .run containers command => mainRun env containers command

/-- What a process asks wherever it makes a step. -/
def Job.Asks (env : Env) (S : Place) : Job → World → Prop
  | .mutable command, w => LockThere S w.root ∧ command.Asks env ⟨False, False, False⟩ S w
  | .run _ _, w => LockThere S w.root

/-- How a process may end that got the lock when the tree was `x`. -/
def Job.Ends (env : Env) (S : Place) : Job → Node → Except Err (List Arg) → Prop
  | .mutable _, _, _ => True
  | .run containers command, x, r => RunEnds env S (view S x) containers command (some r)

theorem Job.Asks.lock {job : Job} (h : job.Asks env S w) : LockThere S w.root := by
  cases job with
  | mutable command => exact h.1
  | run containers command => exact h

/-- A command that has the store for itself keeps it healthy. -/
theorem healthy_of_exec [StatAnswers env] {command : Command} (hS : PlainPlace S)
    (henv : env.storagePath = pathOf S) (h : Healthy env S w.root)
    (hx : Exec ((machine env).under ((Job.mutable command).Asks env S))
      ((Job.mutable command).prog env) w none w') : Healthy env S w'.root := by
  have hm : EnsuresUnder (machine env) (command.Asks env ⟨False, False, False⟩ S)
      (Moved env ⟨False, False, False⟩ S w) (fun _ _ => True) ((Job.mutable command).prog env) w :=
    ensuresUnder_bind (ensures_main hS henv h.layout h.promised.tidy)
      fun _ _ hI _ _ => ensuresUnder_ok hI trivial
  have hmoved := ensuresUnder_exec hm (exec_under_mono (fun _ ha => ha.2) hx)
  exact ⟨hmoved.layout, h.promised.moves hmoved.moves⟩

/-- Until it has the lock, a process changes nothing; then a command is where its own run could
    be, and a run is about to read. -/
theorem steady_job {job : Job} {L : Hold → World → M (List Arg) → Prop} (hS : PlainPlace S)
    (henv : env.storagePath = pathOf S)
    (hwrite : ∀ command, job = .mutable command → ∀ w q, job.Asks env S w →
      Reach ((machine env).under (job.Asks env S)) (job.prog env) w q w → L .writer w q)
    (hread : ∀ containers command, job = .run containers command → ∀ w, Healthy env S w.root →
      L .reader w (buildBwrapCommand env (storeAt S) containers command)) :
    Steady ((machine env).under (job.Asks env S)) lockOf (fun w => Healthy env S w.root)
      (fun w w' => w'.root = w.root) L (fun _ => True) (fun _ => True) (job.prog env) := by
  cases job with
  | mutable command =>
    rw [Job.prog, main, withContext, Storage.newMutable, Storage.newWithLock]
    refine steady_bind (P := fun _ => False) (steady_bind (P := fun _ => False)
      (steady_mapError (steady_bind (P := fun _ => False) (steady_bind (P := fun _ => False)
        ?_ fun _ h => h.elim) fun _ h => h.elim)) fun _ h => h.elim) fun _ h => h.elim
    rw [henv]
    refine steady_acquireLock hS (fun w h => h.lock) fun w hh ha => hwrite command rfl w _ ha ?_
    have hreach : Reach ((machine env).under ((Job.mutable command).Asks env S))
        (acquireLock (pathOf S) .exclusive) w (.ret (.ok ())) w :=
      reach_acquireLock hS ha.lock ha
    rw [Job.prog, main, withContext, Storage.newMutable, Storage.newWithLock, henv]
    exact ((((hreach.bind _).bind _).mapError _).bind _).bind _
  | run containers command =>
    rw [Job.prog, mainRun, withContext, Storage.new, Storage.newWithLock]
    refine steady_bind (P := fun _ => False) (steady_mapError (steady_bind (P := fun _ => False)
      ?_ fun _ h => h.elim)) fun _ h => h.elim
    rw [henv]
    exact steady_acquireLock hS (fun w h => h.lock) fun w hh ha => hread containers command rfl w hh

/-! ## Any number of processes -/

/-- The processes share the tree. -/
def treeShare : Share World Node := ⟨World.root, World.withRoot, fun _ _ => rfl, fun _ => rfl⟩

section Processes

variable {ι : Type} [DecidableEq ι]

/-- The processes of `jobs` at the store `S`, taking turns. -/
abbrev Interleaved (env : Env) (S : Place) (jobs : ι → Job) :
    Pool ι Node Op Reply Err (List Arg) World → Pool ι Node Op Reply Err (List Arg) World → Prop :=
  Turns treeShare (fun i => (machine env).under ((jobs i).Asks env S)) lockOf
    fun i => (jobs i).prog env

/-- `i` got the lock in a turn that left the tree `x`, and has had it since. -/
abbrev Locked (env : Env) (S : Place) (jobs : ι → Job)
    (P : Pool ι Node Op Reply Err (List Arg) World) (i : ι) :
    Pool ι Node Op Reply Err (List Arg) World → Node → Prop :=
  HoldsSince treeShare (fun i => (machine env).under ((jobs i).Asks env S)) lockOf
    (fun i => (jobs i).prog env) P i

omit [DecidableEq ι] in
theorem disciplined [StatAnswers env] {jobs : ι → Job} (hS : PlainPlace S)
    (henv : env.storagePath = pathOf S)
    (hn : ∀ i containers command, jobs i = .run containers command → ∀ n ∈ containers, Plain n) :
    Disciplined treeShare (fun i => (machine env).under ((jobs i).Asks env S)) lockOf
      (fun i => (jobs i).prog env) (Healthy env S) (LocksOnly S)
      (fun i => (jobs i).Ends env S) where
  refl _ h := .refl h.layout
  trans _ _ _ h h' := h.trans h'
  keeps _ _ h h' := h.locksOnly h'
  outside i := by
    refine steady_job hS henv (fun command hj w q _ hreach => ⟨hreach, ?_⟩)
      fun containers command hj w hw => ?_
    · intro s s' hs hx
      dsimp only at hx
      rw [hj] at hx
      exact healthy_of_exec hS henv hs hx
    · exact steady_mono (among_buildBwrapCommand hS (fun _ ha => ha.lock) hw.promised
        (hn i containers command hj)) (fun _ h => by dsimp only; rw [hj]; exact h)
        fun _ h => by dsimp only; rw [hj]; exact .inr h

variable {jobs : ι → Job} {P P' : Pool ι Node Op Reply Err (List Arg) World}

/-- However commands and runs take turns, and wherever they fail or are killed: the store stays
    healthy; while one has the lock to write no other has it; and a command that has it is where
    a run of its own could be, from a healthy store. -/
theorem interleaved_healthy [StatAnswers env] (hS : PlainPlace S)
    (henv : env.storagePath = pathOf S)
    (hn : ∀ i containers command, jobs i = .run containers command → ∀ n ∈ containers, Plain n)
    (hnobody : ∀ i, P.procs i = none) (h : Healthy env S P.shared)
    (ht : Interleaved env S jobs P P') :
    Healthy env S P'.shared ∧ ∀ i q, P'.procs i = some q → q.hold = some .writer →
      (∀ j q', j ≠ i → P'.procs j = some q' → q'.hold = none) ∧
      ∃ w, Locked env S jobs P i P' w.root ∧ Healthy env S w.root ∧
        Reach ((machine env).under ((jobs i).Asks env S)) ((jobs i).prog env) w q.prog
          (q.state.withRoot P'.shared) := by
  obtain ⟨since, ho, hsince⟩ := orderly_turns (disciplined hS henv hn) h hnobody ht
  refine ⟨ho.inv, fun i q hq hw => ⟨ho.alone i q hq hw, ?_⟩⟩
  obtain ⟨w, hw₀, hh, hreach⟩ := ho.serial hq hw
  have hlock := hsince i q hq (by simp [hw])
  rw [← hw₀] at hlock hh
  exact ⟨w, hlock, hh, hreach⟩

end Processes

namespace Restored

/-- A run, while a prune tries to get the lock. -/
def jobs : Bool → Job
  | true => .run [utf8 "c"] [utf8 "sh"]
  | false => .mutable .prune

abbrev Two : Type := Pool Bool Node Op Reply Err (List Arg) World

/-- The lock is refused while the other process has it. -/
def answerTo (busy : Bool) : (o : Op) → World → Reply o × World
  | .tryLock _ _, w => (if busy then .error .again else .ok (), w)
  | o, w => calm.reply host o w

theorem answerTo_step (busy : Bool) (o : Op) (w : World) :
    (machine host).step o w (answerTo busy o w).1 (answerTo busy o w).2 := by
  cases o with
  | tryLock p mode =>
    cases busy with
    | false => exact ⟨.inl rfl, rfl⟩
    | true => exact ⟨.inr (.inl rfl), rfl⟩
  | _ => exact calm.reply_step host _ w

def busy (P : Two) (i : Bool) : Bool := (P.procs (!i)).any fun q => q.hold.isSome

/-- The lock file is there. -/
def lockThere (x : Node) : Bool :=
  match x.find (storageLockPlace place) with
  | some (.inl (.file _ _)) => true
  | _ => false

theorem lockThere_iff {x : Node} : lockThere x = true ↔ LockThere place x := by
  rw [lockThere, LockThere]
  split
  · rename_i m data hf
    simp [hf]
  · rename_i hno
    constructor
    · intro h
      cases h
    · rintro ⟨m, data, hf⟩
      exact (hno m data hf).elim

/-- A turn of one of them, if it can make one. -/
def next (P : Two) (i : Bool) : Two :=
  match P.procs i with
  | none => P.set i P.shared (some ⟨(jobs i).prog host, ⟨P.shared, [], [], []⟩, none⟩)
  | some ⟨.ask o k, s, h⟩ =>
    if lockThere P.shared then
      let a := answerTo (busy P i) o (s.withRoot P.shared)
      P.set i a.2.root (some ⟨k a.1, a.2, h.or (lockOf o a.1)⟩)
    else P
  | some _ => P

theorem asks_of_lockThere {i : Bool} {w : World} (h : LockThere place w.root) :
    (jobs i).Asks host place w := by
  cases i with
  | true => exact h
  | false => exact ⟨h, trivial⟩

theorem admits_of_lockOf {P : Two} {i : Bool} {o : Op} {w : World} {m : Hold}
    (h : lockOf o (answerTo (busy P i) o w).1 = some m) : P.Admits i m := by
  have hfree : busy P i = false := by
    cases o with
    | tryLock p mode =>
      cases hb : busy P i with
      | false => rfl
      | true =>
        rw [hb] at h
        cases h
    | _ => cases h
  have none_of {j : Bool} {q : Process Op Reply Err (List Arg) World} (hj : j ≠ i)
      (hq : P.procs j = some q) : q.hold = none := by
    obtain rfl : j = !i := by
      cases i <;> cases j <;> simp at hj ⊢
    rw [busy, hq] at hfree
    simpa using hfree
  cases m with
  | reader =>
    intro j q hj hq hw
    rw [none_of hj hq] at hw
    cases hw
  | writer => exact fun j q hj hq => none_of hj hq

theorem interleaved_next {P P' : Two} (i : Bool) (h : Interleaved host place jobs P P') :
    Interleaved host place jobs P (next P' i) := by
  rw [next]
  split
  · rename_i hp
    exact .step h (.start _ hp)
  · rename_i o k s m hp
    split
    · rename_i hl
      have hstep := answerTo_step (busy P' i) o (s.withRoot P'.shared)
      exact .step h (.call hp ⟨asks_of_lockThere (lockThere_iff.mp hl), hstep⟩
        fun _ _ hm => admits_of_lockOf hm)
    · exact h
  · exact h

theorem interleaved_schedule (P : Two) (l : List Bool) :
    Interleaved host place jobs P (l.foldl next P) := by
  induction l using List.reverseRecOn with
  | nil => exact .refl
  | append_singleton l i ih =>
    rw [List.foldl_append]
    exact interleaved_next i ih

/-- Nobody is there, and the store has been used before. -/
def empty : Two := ⟨pruned.root, fun _ => none⟩

/-- Turn by turn; the run is the first to ask for the lock. -/
def schedule : List Bool := (List.replicate 32 [true, false]).flatten

theorem healthy_pruned : Healthy host place pruned.root := by
  have h := session_pruned.promised plain_place rfl layout_world promised
  exact ⟨h.1, h.2⟩

theorem shared_empty : empty.shared = pruned.root := by rw [empty]

theorem healthy_empty : Healthy host place empty.shared := by
  rw [shared_empty]
  exact healthy_pruned

theorem nobody (i : Bool) : empty.procs i = none := rfl

theorem plain_jobs (i : Bool) (containers command : List Bytes)
    (h : jobs i = .run containers command) : ∀ n ∈ containers, Plain n := by
  cases i with
  | true =>
    cases h
    intro n hn
    rw [List.mem_singleton.mp hn]
    decide +kernel
  | false => cases h

end Restored

open Restored in
theorem interleaved_healthy_prune : Healthy host place
    ((schedule.foldl next Restored.empty).shared) :=
  (interleaved_healthy (P := Restored.empty) plain_place rfl plain_jobs nobody healthy_empty
    (interleaved_schedule Restored.empty schedule)).1

namespace Restored

end Restored

end Pakstak
