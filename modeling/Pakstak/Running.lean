/-
  `run` over a store that keeps its promises.

  `Promised`: the store is tidy, linked and complete, as it is in every state of a history in
  which the promises are kept.

  Proved, for any answers of the environment (its `stat` answering):
  * `ends_readStackedLayers`: the manifests of installed containers are read, unless the disk
    fails.
  * `ends_createLayerLockFiles`: lock files of the layers selected are made, and nothing else.
  * `run_outcome`: what `run` leaves at any point, what it mounts, and why it may fail.
-/
import Pakstak.Histories
import Pakstak.Mounts

namespace Pakstak

open Posix Prog FileTree Text

variable {env : Env} {I : World → Prop} {S : Place} {w w' w'' : World}

/-! ## Promises -/

/-- The store is tidy, linked and complete. -/
structure Promised (env : Env) (s : Store) : Prop where
  tidy : Tidy env s
  linked : Linked env s
  complete : Complete env s

/-- The manifest saved for the digest of a container. -/
def Names (env : Env) (s : Store) (n : Bytes) (manifest : ImageManifest) : Prop :=
  ∃ digest bytes, s.digestText n = some digest ∧ WellFormed digest ∧
    s.manifestBytes digest = some bytes ∧ Verifies env.hash bytes digest ∧
    parseManifest env bytes = some manifest

/-- A layer of one of the containers. -/
def Selects (env : Env) (s : Store) (containers : List Bytes) (d : Bytes) : Prop :=
  ∃ n ∈ containers, ∃ manifest, Names env s n manifest ∧
    ∃ layer ∈ manifest.layers, layer.digest = d

theorem Promised.names {s : Store} (h : Promised env s) {n : Bytes} (hn : s.HasContainer n) :
    ∃ manifest, Names env s n manifest := by
  obtain ⟨m, kids, hv⟩ := hn
  obtain ⟨-, -, text, htext, hw⟩ := h.tidy.container n _ hv
  obtain ⟨text', htext', bytes, manifest, hb, hver, hm⟩ := h.linked n _ hv rfl
  rw [htext, Option.some.injEq] at htext'
  subst htext'
  rw [trim_of_wellFormed hw] at hb hver
  exact ⟨manifest, text, bytes, htext, hw, hb, hver, hm⟩

theorem Names.unique {s : Store} {n : Bytes} {m m' : ImageManifest} (h : Names env s n m)
    (h' : Names env s n m') : m = m' := by
  obtain ⟨d, b, hd, -, hb, -, hm⟩ := h
  obtain ⟨d', b', hd', -, hb', -, hm'⟩ := h'
  rw [hd, Option.some.injEq] at hd'
  subst hd'
  rw [hb, Option.some.injEq] at hb'
  subst hb'
  exact Option.some.inj (hm.symm.trans hm')

/-- A layer selected is there, complete. -/
theorem Promised.selected {s : Store} (h : Promised env s) {containers : List Bytes} {d : Bytes}
    (hd : Selects env s containers d) :
    WellFormed d ∧ ∃ t, s .layers d = some t ∧ t.isDir ∧ Extracted env d t := by
  obtain ⟨n, -, manifest, ⟨digest, bytes, -, -, hb, -, hm⟩, layer, hl, rfl⟩ := hd
  obtain ⟨hw, m, kids, hv⟩ := h.complete.listed digest bytes manifest hb hm layer hl
  obtain ⟨hdir, -, hx⟩ := h.complete.extracted _ _ hv
  exact ⟨hw, _, hv, hdir, hx⟩

/-! ## Errors -/

/-- The error under its contexts. -/
def Err.cause : Err → Err
  | .context _ e => e.cause
  | e => e

/-- A disk that failed. -/
def FromDisk (e : Err) : Prop := ∃ code, e.cause = .io (.other code)

/-- Why the arguments of bwrap may not be built. -/
inductive RunError (env : Env) (s : Store) (containers command : List Bytes) : Err → Prop
  | noContainers (h : containers = []) :
      RunError env s containers command (.text ⟨"at least one container required", []⟩)
  | noCommand (h : command = []) :
      RunError env s containers command (.text ⟨"command cannot be empty", []⟩)
  | notInstalled {n : Bytes} (hn : n ∈ containers) (h : ¬ s.HasContainer n) :
      RunError env s containers command (.text ⟨"container {} not installed", [n]⟩)
  | disk {e : Err} (h : FromDisk e) : RunError env s containers command e
  | lock {e : Err} (h : FromLock e) : RunError env s containers command e
  | noLayers (h : ∀ d, ¬ Selects env s containers d) :
      RunError env s containers command (.text ⟨"selected containers have no layers", []⟩)

/-! ## Readers that fail with the disk only -/

theorem ends_read {p : PathBuf} {data : Bytes} {m : Msg} {P : Bytes → World → Prop}
    {H : Err → World → Prop} (hI : I w) (h : Posix.read w.root p = .ok data) (hP : P data w)
    (hH : ∀ e, FromDisk e → H e w) :
    Ends (machine env) I P H ((Fs.read p).bind fun r => orContext m r) w := by
  refine ends_last (ends_of_noError (noError_call _) (ensures_read hI ?_ fun code => ?_))
  · rw [h]
    refine ⟨fun a ha => ?_, fun e he => by cases he⟩
    cases ha
    exact hP
  · refine ⟨fun a ha => (by cases ha), fun e he => ?_⟩
    cases he
    exact hH _ ⟨code, rfl⟩

theorem ends_ensureContainerInstalled [StatAnswers env] {container : Bytes} (hI : I w) :
    Ends (machine env) I
      (fun _ w' => w' = w ∧ isDirPath w.root ((storeAt S).containerPath container) = true)
      (fun e w' => w' = w ∧ e = .text ⟨"container {} not installed", [container]⟩ ∧
        ¬ isDirPath w.root ((storeAt S).containerPath container) = true)
      ((storeAt S).ensureContainerInstalled container) w := by
  refine ends_bind
    (P := fun b w' => w' = w ∧ b = isDirPath w.root ((storeAt S).containerPath container))
    (ends_of_noError (noError_pathIsDir _) (ensures_pathIsDir hI ⟨rfl, rfl⟩ statFails_elim)) ?_
  rintro b w' hI' ⟨rfl, rfl⟩
  split
  · rename_i h
    exact ends_ok hI' ⟨rfl, h⟩
  · rename_i h
    exact ends_error hI' ⟨rfl, rfl, h⟩

/-- The file that holds the digest of a container. -/
theorem read_digestFile {n digest : Bytes} (hS : PlainPlace S) (hn : Plain n)
    (hf : (view S w.root).FileContainers) (h : (view S w.root).digestText n = some digest) :
    Posix.read w.root (((storeAt S).containerPath n).join digestFile) = .ok digest := by
  obtain ⟨t, hv, hk⟩ := Option.bind_eq_some_iff.mp h
  obtain ⟨u, hu, hd⟩ := Option.bind_eq_some_iff.mp hk
  obtain ⟨hdir, hfiles⟩ := hf n t hv
  obtain ⟨m, data, rfl⟩ := hfiles _ u hu
  cases hd
  have hc : w.root.DirAt (entryPlace S .containers n) := by
    cases t with
    | leaf f => cases hdir
    | dir m kids => exact ⟨m, kids, hv⟩
  have hget : w.root.get (entryPlace S .containers n ++ [digestFile]) =
      some (.leaf (.file m digest)) := by
    rw [get_append_of_some hv, get_cons, hu]
    rfl
  have hfind : w.root.find (entryPlace S .containers n ++ [digestFile]) =
      some (.inl (.file m digest)) := by
    rw [find, hget]
    rfl
  rw [containerPath_storeAt hn]
  refine (read_join plain_digestFile (walk_dirAt hc ((plain_tablePlace hS _).snoc hn) _) hc
    fun t ht => ?_).mpr ⟨m, hfind⟩
  rw [hfind] at ht
  cases ht

theorem ends_readContainerManifestDigest {n digest : Bytes} (hS : PlainPlace S) (hn : Plain n)
    (hf : (view S w.root).FileContainers) (h : (view S w.root).digestText n = some digest)
    (hw : WellFormed digest) (hI : I w) :
    Ends (machine env) I (fun d w' => w' = w ∧ d = digest) (fun e w' => w' = w ∧ FromDisk e)
      ((storeAt S).readContainerManifestDigest n) w := by
  have hne : digest ≠ [] := by
    rintro rfl
    cases colon_mem_of_wellFormed hw
  rw [Storage.readContainerManifestDigest]
  refine ends_bind (P := fun text w' => w' = w ∧ text = digest)
    (ends_read hI (read_digestFile hS hn hf h) ⟨rfl, rfl⟩ fun e he => ⟨rfl, he⟩) ?_
  rintro text w' - ⟨rfl, rfl⟩
  rw [trim_of_wellFormed hw, if_neg (by rw [validUtf8_of_wellFormed hw]; simp), if_neg hne]
  exact ends_ok hI ⟨rfl, rfl⟩

theorem ends_readManifest {digest bytes : Bytes} {manifest : ImageManifest} (hS : PlainPlace S)
    (hl : Layout S w.root) (hw : WellFormed digest)
    (hb : (view S w.root).manifestBytes digest = some bytes)
    (hm : parseManifest env bytes = some manifest) (hI : I w) :
    Ends (machine env) I (fun r w' => w' = w ∧ r = manifest) (fun e w' => w' = w ∧ FromDisk e)
      ((storeAt S).readManifest env digest) w := by
  rw [Storage.readManifest, Storage.readManifestBytes]
  refine ends_bind (P := fun data w' => w' = w ∧ data = bytes) (ends_read hI
    ((read_manifestPath hS hl (plain_json_of_wellFormed hw)).mpr hb) ⟨rfl, rfl⟩
    fun e he => ⟨rfl, he⟩) ?_
  rintro data w' - ⟨rfl, rfl⟩
  rw [hm]
  exact ends_ok hI ⟨rfl, rfl⟩

/-! ## The layers of the containers -/

theorem hasContainer_iff {n : Bytes} (hS : PlainPlace S) (hl : Layout S w.root) (hn : Plain n) :
    isDirPath w.root ((storeAt S).containerPath n) = true ↔ (view S w.root).HasContainer n := by
  rw [containerPath_storeAt hn]
  exact isDirPath_entry hS hl hn

theorem ends_readStackedLayers [StatAnswers env] {containers command : List Bytes}
    (hS : PlainPlace S)
    (hl : Layout S w.root) (hp : Promised env (view S w.root)) (hn : ∀ n ∈ containers, Plain n)
    (hI : I w) :
    Ends (machine env) I
      (fun layers w' => w' = w ∧ ∃ manifests,
        List.Forall₂ (Names env (view S w.root)) containers manifests ∧
        layers = stackLayers [] (manifests.flatMap ImageManifest.layers))
      (fun e w' => w' = w ∧ RunError env (view S w.root) containers command e)
      (readStackedLayers env (storeAt S) containers) w := by
  -- the containers `todo` are still to be read
  let K : List Descriptor → List Bytes → World → Prop := fun layers todo w' =>
    w' = w ∧ ∃ done manifests, containers = done ++ todo ∧
      List.Forall₂ (Names env (view S w.root)) done manifests ∧
        layers = stackLayers [] (manifests.flatMap ImageManifest.layers)
  refine ends_mono (ends_fold (K := K) (fun _ _ _ h => h.1 ▸ hI) ?_ containers [] w
    ⟨rfl, [], [], rfl, .nil, rfl⟩) (fun _ h => h) ?_ fun _ _ _ h => h
  · rintro layers n todo w' ⟨rfl, done, manifests, hdone, hall, rfl⟩
    have hmem : n ∈ containers := by simp [hdone]
    refine ends_bind (ends_mono (ends_ensureContainerInstalled hI) (fun _ h => h)
      (fun _ _ _ h => h) fun e w₁ _ h => ?_) ?_
    · obtain ⟨rfl, rfl, hnot⟩ := h
      exact ⟨rfl, .notInstalled hmem fun h => hnot ((hasContainer_iff hS hl (hn n hmem)).mpr h)⟩
    rintro - w₁ - ⟨rfl, hd⟩
    obtain ⟨manifest, digest, bytes, hdigest, hw, hb, hver, hm⟩ :=
      hp.names ((hasContainer_iff hS hl (hn n hmem)).mp hd)
    refine ends_bind (ends_mono (ends_readContainerManifestDigest hS (hn n hmem) hp.tidy.files
      hdigest hw hI) (fun _ h => h) (fun _ _ _ h => h) fun e w₂ _ h => ⟨h.1, .disk h.2⟩) ?_
    rintro d w₂ - ⟨rfl, rfl⟩
    refine ends_bind (ends_mono (ends_readManifest hS hl hw hb hm hI) (fun _ h => h)
      (fun _ _ _ h => h) fun e w₃ _ h => ⟨h.1, .disk h.2⟩) ?_
    rintro r w₃ - ⟨rfl, rfl⟩
    refine ends_ok hI ⟨rfl, done ++ [n], manifests ++ [r], by simp [hdone],
      List.rel_append hall (.cons ⟨d, bytes, hdigest, hw, hb, hver, hm⟩ .nil), ?_⟩
    simp [stackLayers, List.foldl_append]
  · rintro layers w' - ⟨hw, done, manifests, hdone, hall, rfl⟩
    obtain rfl : containers = done := by simpa using hdone
    exact ⟨hw, manifests, hall, rfl⟩

theorem selects_iff_mem {s : Store} {containers : List Bytes} {manifests : List ImageManifest}
    (h : List.Forall₂ (Names env s) containers manifests) (d : Bytes) :
    Selects env s containers d ↔
      ∃ manifest ∈ manifests, ∃ layer ∈ manifest.layers, layer.digest = d := by
  induction h with
  | nil => simp [Selects]
  | @cons n manifest containers manifests h _ ih =>
    have hcons : Selects env s (n :: containers) d ↔
        (∃ layer ∈ manifest.layers, layer.digest = d) ∨ Selects env s containers d := by
      constructor
      · rintro ⟨a, ha, m, hm, hl⟩
        rcases List.mem_cons.mp ha with rfl | ha
        · exact .inl (hm.unique h ▸ hl)
        · exact .inr ⟨a, ha, m, hm, hl⟩
      · rintro (hl | ⟨a, ha, m, hm, hl⟩)
        · exact ⟨n, by simp, manifest, h, hl⟩
        · exact ⟨a, by simp [ha], m, hm, hl⟩
    rw [hcons, ih]
    simp

/-- The layers stacked are those selected. -/
theorem selects_iff {s : Store} {containers : List Bytes} {manifests : List ImageManifest}
    (h : List.Forall₂ (Names env s) containers manifests) (d : Bytes) :
    Selects env s containers d ↔
      d ∈ (stackLayers [] (manifests.flatMap ImageManifest.layers)).map Descriptor.digest := by
  rw [selects_iff_mem h, digests_stackLayers, List.mem_reverse, List.mem_dedup, List.mem_reverse,
    List.map_flatMap]
  simp

/-! ## Lock files -/

/-- Lock files under names that satisfy `P` may have been made; nothing else has changed. -/
structure LocksMade (S : Place) (P : Bytes → Prop) (w w' : World) : Prop extends Calm S w w' where
  locks : ∀ n, view S w'.root .locks n = view S w.root .locks n ∨
    P n ∧ view S w.root .locks n = none ∧
      view S w'.root .locks n = some (.leaf (.file newFile []))

variable {P : Bytes → Prop}

theorem LocksMade.trans (h : LocksMade S P w w') (h' : LocksMade S P w' w'') :
    LocksMade S P w w'' := by
  refine ⟨h.toCalm.trans h'.toCalm, fun n => ?_⟩
  rcases h'.locks n with he | ⟨hP, hnone, hfile⟩
  · rw [he]
    exact h.locks n
  · rcases h.locks n with he | ⟨-, -, hsome⟩
    · exact .inr ⟨hP, he ▸ hnone, hfile⟩
    · rw [hsome] at hnone
      cases hnone

theorem Quiet.locksMade (h : Quiet S w w') : LocksMade S P w w' :=
  ⟨h.calm, fun n => .inl (by rw [h.still.view])⟩

theorem LockKept.locksMade {n : Bytes} (h : LockKept S n w w') (hn : P n) :
    LocksMade S P w w' := by
  refine ⟨h.calm, fun a => ?_⟩
  rcases h.contents with hs | ⟨hnone, hb⟩
  · exact .inl (by rw [hs.view])
  rw [hb.view]
  by_cases ha : a = n
  · subst ha
    exact .inr ⟨hn, hnone, Store.set_same ..⟩
  · exact .inl (Store.set_of_ne fun h => ha h.2)

theorem LocksMade.hasLayer (h : LocksMade S P w w') {n : Bytes} :
    (view S w'.root).HasLayer n ↔ (view S w.root).HasLayer n := by
  rw [Store.HasLayer, Store.HasLayer, h.entries .layers n (by simp)]

theorem ends_createLayerLockFiles {layers : List Descriptor} (hS : PlainPlace S)
    (hl : Layout S w.root) (hw : ∀ layer ∈ layers, WellFormed layer.digest ∧ P layer.digest)
    (hI : ∀ w', LocksMade S P w w' → I w') :
    Ends (machine env) I (fun _ w' => LocksMade S P w w')
      (fun e w' => LocksMade S P w w' ∧ FromLock e)
      (createLayerLockFiles (storeAt S) layers) w := by
  refine ends_mono (ends_fold (K := fun _ todo w' => LocksMade S P w w' ∧
    ∀ layer ∈ todo, layer ∈ layers) (fun _ _ w' h => hI w' h.1) ?_ layers [] w
    ⟨(Quiet.refl hl).locksMade, fun _ h => h⟩) (fun _ h => h) (fun _ _ _ h => h.1) fun _ _ _ h => h
  rintro paths layer todo w₁ ⟨hk₁, htodo⟩
  obtain ⟨hwf, hP⟩ := hw layer (htodo layer (by simp))
  have hplain := plain_of_wellFormed hwf
  have made {w₂ : World} (h : LockKept S layer.digest w₁ w₂) : LocksMade S P w w₂ :=
    hk₁.trans (h.locksMade hP)
  refine ends_bind (P := fun _ w₂ => LocksMade S P w w₂) ?_ fun path w₂ h₂ hk₂ =>
    ends_ok h₂ ⟨hk₂, fun l h => htodo l (by simp [h])⟩
  rw [Storage.createLayerLockFile, layerLockPath_storeAt hplain]
  refine ends_bind (ends_mono (ends_openLockFile hS hplain hk₁.layout fun w₂ h => hI w₂ (made h))
    (fun _ h => h) (fun _ _ _ h => h) fun e w₂ _ h => ⟨made h.2, h.1⟩) ?_
  rintro - w₂ h₂ ⟨hk₂, -⟩
  exact ends_ok h₂ (made hk₂)

/-! ## The arguments of bwrap -/

theorem ends_layerPathOrMissing [StatAnswers env] {layer : Descriptor} (hI : I w)
    (hd : isDirPath w.root ((storeAt S).layerPath layer.digest) = true) {H : Err → World → Prop} :
    Ends (machine env) I (fun _ w' => w' = w) H (layerPathOrMissing (storeAt S) layer) w := by
  rw [layerPathOrMissing]
  refine ends_bind (P := fun o w' => w' = w ∧ o = some ((storeAt S).layerPath layer.digest)) ?_ ?_
  · refine ends_bind (P := fun b w' => w' = w ∧ b = true)
      (ends_of_noError (noError_pathIsDir _) (ensures_pathIsDir hI ⟨rfl, hd⟩ statFails_elim)) ?_
    rintro b w' - ⟨rfl, rfl⟩
    exact ends_ok hI ⟨rfl, rfl⟩
  · rintro o w' - ⟨rfl, rfl⟩
    exact ends_ok hI rfl

/-- Where every layer is there, only an empty stack is refused. -/
theorem ends_layerArgs [StatAnswers env] {layers : List Descriptor} (hI : I w)
    (hd : ∀ layer ∈ layers, isDirPath w.root ((storeAt S).layerPath layer.digest) = true) :
    Ends (machine env) I (fun _ w' => w' = w)
      (fun e w' => w' = w ∧ layers = [] ∧
        e = .text ⟨"selected containers have no layers", []⟩)
      (layerArgs (storeAt S) layers) w := by
  match layers with
  | [] => exact ends_error hI ⟨rfl, rfl, rfl⟩
  | [layer] =>
    refine ends_bind (ends_layerPathOrMissing hI (hd layer (by simp))) ?_
    rintro path w' - rfl
    exact ends_ok hI rfl
  | first :: second :: rest =>
    refine ends_bind (ends_fold (K := fun _ todo w' => w' = w ∧
      ∀ layer ∈ todo, layer ∈ first :: second :: rest) (fun _ _ _ h => h.1 ▸ hI) ?_ _ _ w
      ⟨rfl, fun _ h => h⟩) ?_
    · rintro args layer todo w' ⟨rfl, htodo⟩
      refine ends_bind (ends_layerPathOrMissing hI (hd layer (htodo layer (by simp)))) ?_
      rintro path w' - rfl
      exact ends_ok hI ⟨rfl, fun l h => htodo l (by simp [h])⟩
    · rintro args w' - ⟨rfl, -⟩
      exact ends_ok hI rfl

theorem ends_buildBwrapCommand [StatAnswers env] {containers command : List Bytes}
    (hS : PlainPlace S)
    (hl : Layout S w.root) (hp : Promised env (view S w.root)) (hn : ∀ n ∈ containers, Plain n)
    (hI : ∀ w', LocksMade S (Selects env (view S w.root) containers) w w' → I w') :
    Ends (machine env) I
      (fun args w' => LocksMade S (Selects env (view S w.root) containers) w w' ∧ ∃ manifests,
        List.Forall₂ (Names env (view S w.root)) containers manifests ∧
        args = (bwrapOptions S ((stackLayers [] (manifests.flatMap ImageManifest.layers)).map
          Descriptor.digest)).flatMap BwrapOption.args ++ command.map .text)
      (fun e w' => LocksMade S (Selects env (view S w.root) containers) w w' ∧
        RunError env (view S w.root) containers command e)
      (buildBwrapCommand env (storeAt S) containers command) w := by
  have hrefl : LocksMade S (Selects env (view S w.root) containers) w w :=
    (Quiet.refl hl).locksMade
  have h₀ := hI w hrefl
  rw [buildBwrapCommand]
  split
  · rename_i hnil
    exact ends_error h₀ ⟨hrefl, .noContainers hnil⟩
  split
  · rename_i hnil
    exact ends_error h₀ ⟨hrefl, .noCommand hnil⟩
  refine ends_bind (ends_mono
    (H := fun e w' => w' = w ∧ RunError env (view S w.root) containers command e)
    (ends_readStackedLayers hS hl hp hn h₀) (fun _ h => h) (fun _ _ _ h => h)
    fun e w₁ _ h => ⟨h.1 ▸ hrefl, h.2⟩) ?_
  rintro layers w₁ - ⟨rfl, manifests, hall, hlayers⟩
  have selected {layer : Descriptor} (h : layer ∈ layers) :
      Selects env (view S w₁.root) containers layer.digest :=
    (selects_iff hall _).mpr (hlayers ▸ List.mem_map_of_mem h)
  refine ends_bind (ends_and (ends_mono (ends_createLayerLockFiles hS hl
    (fun layer h => ⟨(hp.selected (selected h)).1, selected h⟩) hI) (fun _ h => h)
    (fun _ _ _ h => h) fun e w₂ _ h => ⟨h.1, .lock h.2⟩) (ensures_createLayerLockFiles layers)) ?_
  rintro paths w₂ h₂ ⟨hk₂, hpaths, -⟩
  refine ends_bind (ends_and (ends_mono (ends_layerArgs h₂ fun layer h => ?_) (fun _ h => h)
    (fun _ _ _ h => h) fun e w₃ _ h => ?_) (ensures_layerArgs layers)) ?_
  · obtain ⟨hw, t, ht, hdir, -⟩ := hp.selected (selected h)
    exact (hasLayer_iff hS hk₂.layout (plain_of_wellFormed hw)).mpr
      (hk₂.hasLayer.mpr (hasLayer_of_isDir ht hdir))
  · obtain ⟨rfl, hnil, rfl⟩ := h
    refine ⟨hk₂, .noLayers fun d hd => ?_⟩
    have hmem := (selects_iff hall d).mp hd
    rw [← hlayers, hnil] at hmem
    cases hmem
  rintro args w₃ - ⟨rfl, rfl⟩
  refine ends_ok h₂ ⟨hk₂, manifests, hall, ?_⟩
  rw [hpaths, ← hlayers]
  simp [bwrapOptions, lockOptions, BwrapOption.args, List.flatMap_map, List.flatMap_assoc]

/-! ## The command `run` -/

/-- The layers of the containers are mounted, in order and each once, with a lock file for each
    of them; and each is there, complete. -/
def MountsSelected (env : Env) (S : Place) (s : Store) (containers command : List Bytes)
    (args : List Arg) : Prop :=
  ∃ manifests digests options, List.Forall₂ (Names env s) containers manifests ∧
    FirstOccurrences (manifests.flatMap fun manifest => manifest.layers.map Descriptor.digest)
      digests ∧
    Mounts S digests options ∧
    args = options.flatMap BwrapOption.args ++ command.map .text ∧
    ∀ d ∈ digests, WellFormed d ∧ ∃ t, s .layers d = some t ∧ t.isDir ∧ Extracted env d t

theorem mountsSelected_of_names {s : Store} {containers command : List Bytes}
    {manifests : List ImageManifest} (hp : Promised env s)
    (h : List.Forall₂ (Names env s) containers manifests) :
    MountsSelected env S s containers command
      ((bwrapOptions S ((stackLayers [] (manifests.flatMap ImageManifest.layers)).map
        Descriptor.digest)).flatMap BwrapOption.args ++ command.map .text) := by
  refine ⟨manifests, _, _, h, ?_, mounts_bwrapOptions _, rfl, fun d hd =>
    hp.selected ((selects_iff h d).mpr hd)⟩
  rw [digests_stackLayers, List.map_flatMap]
  exact firstOccurrences_dedup _

/-- How `run` may end. -/
def RunEnds (env : Env) (S : Place) (s : Store) (containers command : List Bytes) :
    Option (Except Err (List Arg)) → Prop
  | none => True
  | some (.ok args) => MountsSelected env S s containers command args
  | some (.error e) => (∃ e', e = .context ⟨"failed to initialize storage", []⟩ e') ∨
      RunError env s containers command e

theorem run_outcome [StatAnswers env] {containers command : List Bytes}
    {res : Option (Except Err (List Arg))}
    (hS : PlainPlace S) (henv : env.storagePath = pathOf S) (hl : Layout S w.root)
    (hp : Promised env (view S w.root)) (hn : ∀ n ∈ containers, Plain n)
    (hx : Exec (machine env) (mainRun env containers command) w res w') :
    LocksMade S (Selects env (view S w.root) containers) w w' ∧
      RunEnds env S (view S w.root) containers command res := by
  have h : Ends (machine env) (LocksMade S (Selects env (view S w.root) containers) w)
      (fun args _ => MountsSelected env S (view S w.root) containers command args)
      (fun e _ => (∃ e', e = .context ⟨"failed to initialize storage", []⟩ e') ∨
        RunError env (view S w.root) containers command e)
      (mainRun env containers command) w := by
    rw [mainRun]
    refine ends_bind (ends_mapError.mpr (ends_of_ensures (ensures_new henv hS hl
      fun w' hq => hq.locksMade) fun e _ _ => .inl ⟨e, rfl⟩)) ?_
    rintro st w₁ - ⟨rfl, hq⟩
    have hv := hq.still.view
    refine ends_mono (ends_buildBwrapCommand hS hq.still.layout (hv ▸ hp) hn
      fun w' hk => (Quiet.locksMade hq).trans (hv ▸ hk)) (fun _ h => h) ?_
      fun e w₂ _ h => .inr (hv ▸ h.2)
    rintro args w₂ - ⟨-, manifests, hall, rfl⟩
    exact mountsSelected_of_names hp (hv ▸ hall)
  obtain ⟨hk, hend⟩ := wp_exec h hx
  refine ⟨hk, ?_⟩
  rcases res with _ | (e | args)
  · trivial
  · exact hend _ rfl
  · exact hend _ rfl

/-! ## Sessions -/

/-- Commands and runs one after the other, each at its end, failed or killed; the commands keep
    all promises, and the containers of a run are given by name. -/
inductive Session (env : Env) (S : Place) (w : World) : World → Prop
  | start : Session env S w w
  | process {w' w₁ w'' : World} (command : Command) {res : Option (Except Err Unit)}
      (h : Session env S w w') (hroot : w₁.root = w'.root)
      (hx : Exec ((machine env).under (command.Asks env ⟨False, False, False⟩ S))
        (main env command) w₁ res w'') : Session env S w w''
  | run {w' w₁ w'' : World} (containers command : List Bytes)
      {res : Option (Except Err (List Arg))} (hn : ∀ n ∈ containers, Plain n)
      (h : Session env S w w') (hroot : w₁.root = w'.root)
      (hx : Exec (machine env) (mainRun env containers command) w₁ res w'') : Session env S w w''

theorem Promised.moves {s s' : Store} (h : Promised env s)
    (hm : Moves env ⟨False, False, False⟩ s s') : Promised env s' :=
  ⟨h.tidy.moves hm, h.linked.moves id hm, h.complete.moves id id hm⟩

/-- Lock files are none of the promises. -/
theorem Promised.agrees {s s' : Store} (h : Promised env s)
    (ha : ∀ k n, k ≠ .locks → s' k n = s k n) : Promised env s' :=
  h.moves (.single (.other (fun n => .inl (ha _ n (by simp)))
    (fun n => .inl (ha _ n (by simp))) (.inr fun n => ha _ n (by simp))))

theorem Session.promised [StatAnswers env] (hS : PlainPlace S) (henv : env.storagePath = pathOf S)
    (hl : Layout S w.root) (hp : Promised env (view S w.root)) (h : Session env S w w') :
    Layout S w'.root ∧ Promised env (view S w'.root) := by
  induction h with
  | start => exact ⟨hl, hp⟩
  | process command h hroot hx ih =>
    rw [← hroot] at ih
    have hm := ensuresUnder_exec (ensures_main hS henv ih.1 ih.2.tidy) hx
    exact ⟨hm.layout, ih.2.moves hm.moves⟩
  | run containers command hn h hroot hx ih =>
    rw [← hroot] at ih
    have hk := (run_outcome hS henv ih.1 ih.2 hn hx).1
    exact ⟨hk.layout, ih.2.agrees hk.entries⟩

/-- In every state of a session, `run` makes nothing but lock files of the layers it selects;
    what it hands to bwrap are these layers, each the complete extraction of an archive that
    verifies under its digest; and the errors it may end with are those of `RunEnds`. -/
theorem session_run [StatAnswers env] {containers command : List Bytes}
    {res : Option (Except Err (List Arg))}
    {w₁ : World} (hS : PlainPlace S) (henv : env.storagePath = pathOf S) (hl : Layout S w.root)
    (hp : Promised env (view S w.root)) (h : Session env S w w') (hroot : w₁.root = w'.root)
    (hn : ∀ n ∈ containers, Plain n)
    (hx : Exec (machine env) (mainRun env containers command) w₁ res w'') :
    LocksMade S (Selects env (view S w'.root) containers) w₁ w'' ∧
      RunEnds env S (view S w'.root) containers command res := by
  obtain ⟨hl', hp'⟩ := h.promised hS henv hl hp
  rw [← hroot] at hl' hp' ⊢
  exact run_outcome hS henv hl' hp' hn hx

theorem mem_of_view {x : Node} {k : Kind} {m : Meta} {kids : List (Bytes × Node)} {n : Bytes}
    {t : Node} (h : x.get (tablePlace S k) = some (.dir m kids)) (ht : view S x k n = some t) :
    (n, t) ∈ kids := by
  rw [view, entryPlace, get_append_of_some h, get_cons] at ht
  obtain ⟨u, hu, ht⟩ := Option.bind_eq_some_iff.mp ht
  obtain rfl : u = t := Option.some.inj ht
  exact mem_of_kid hu

namespace Restored

theorem plain_place : PlainPlace place := by
  intro n hn
  rw [List.mem_singleton.mp hn]
  decide +kernel

theorem layout_world : Layout place world.root := layout_of_isLayout (by decide +kernel)

theorem manifestSound : Verifies host.hash manifest.text manifestDigest := by decide +kernel

theorem isDir_result {digest : Bytes} (h : digest = fileDigest ∨ digest = removalDigest) :
    (OneFile.result host (archive digest)).isDir = true := by
  rcases h with rfl | rfl
  · decide +kernel
  · decide +kernel

theorem layer_mem {n : Bytes} {t : Node} (h : view place world.root .layers n = some t) :
    (n = fileDigest ∨ n = removalDigest) ∧ t = OneFile.result host (archive n) := by
  have hmem := mem_of_view (m := newDir) rfl h
  rcases List.mem_cons.mp hmem with he | hmem
  · cases he
    exact ⟨.inl rfl, rfl⟩
  · cases List.mem_singleton.mp hmem
    exact ⟨.inr rfl, rfl⟩

theorem promised : Promised host (view place world.root) := by
  have hc := computed
  have saved : (view place world.root).manifestBytes manifestDigest = some manifest.text := rfl
  have text : (view place world.root).digestText (utf8 "c") = some manifestDigest := rfl
  have container {n : Bytes} {t : Node} (h : view place world.root .containers n = some t) :
      n = utf8 "c" ∧ t = .dir newDir [(utf8 "manifest_digest", leaf manifestDigest)] := by
    cases List.mem_singleton.mp (mem_of_view (m := newDir) rfl h)
    exact ⟨rfl, rfl⟩
  have manifests {n : Bytes} {t : Node} (h : view place world.root .manifests n = some t) :
      n = manifestName manifestDigest ∧ t = leaf manifest.text := by
    cases List.mem_singleton.mp (mem_of_view (m := newDir) rfl h)
    exact ⟨rfl, rfl⟩
  refine ⟨⟨fun n t ht => ?_, fun n t ht => ?_⟩, fun n t ht _ => ?_, ⟨?_, fun n t ht => ?_⟩⟩
  · obtain ⟨rfl, rfl⟩ := manifests ht
    exact ⟨manifestDigest, manifest.text, newFile, _, rfl, rfl, manifestSound, hc.parsed⟩
  · obtain ⟨rfl, rfl⟩ := container ht
    refine ⟨rfl, fun a u hu => ?_, manifestDigest, text, wellFormed_of_verifies manifestSound⟩
    cases List.mem_singleton.mp (mem_of_kid hu)
    exact ⟨_, _, rfl⟩
  · obtain ⟨rfl, rfl⟩ := container ht
    refine ⟨manifestDigest, text, ?_⟩
    rw [trim_of_wellFormed (wellFormed_of_verifies manifestSound)]
    exact ⟨_, _, saved, manifestSound, hc.parsed⟩
  · intro digest bytes m hb hm layer hlayer
    obtain ⟨t, ht, hd⟩ := Option.bind_eq_some_iff.mp hb
    obtain ⟨-, rfl⟩ := manifests ht
    cases hd
    cases hc.parsed.symm.trans hm
    have file : WellFormed fileDigest ∧ (view place world.root).HasLayer fileDigest :=
      ⟨wellFormed_of_verifies hc.fileSound, hasLayer_of_isDir rfl (isDir_result (.inl rfl))⟩
    simp only [List.mem_cons, List.not_mem_nil, or_false] at hlayer
    rcases hlayer with rfl | rfl | rfl
    · exact file
    · exact ⟨wellFormed_of_verifies hc.removalSound,
        hasLayer_of_isDir rfl (isDir_result (.inr rfl))⟩
    · exact file
  · obtain ⟨hn, rfl⟩ := layer_mem ht
    refine ⟨isDir_result hn, ?_⟩
    rcases hn with rfl | rfl
    · exact ⟨wellFormed_of_verifies hc.fileSound, _, extractedFrom_file⟩
    · exact ⟨wellFormed_of_verifies hc.removalSound, _, extractedFrom_removal⟩

/-- Prune finds everything in use. -/
def pruned : World := (calm.replay host (main host .prune) world).2

theorem session_pruned : Session host place world pruned :=
  .process .prune .start rfl (exec_under (calm.exec_replay _ _ _) fun _ _ => trivial)

theorem exec_run : Exec (machine host) (mainRun host [utf8 "c"] [utf8 "sh"]) pruned
    (some (.ok bwrapArgs)) (calm.replay host (mainRun host [utf8 "c"] [utf8 "sh"]) pruned).2 :=
  exec_of_fst_eq (calm.exec_replay _ _ _) (by decide +kernel)

end Restored

open Restored in
theorem session_run_restored :
    MountsSelected host place (view place pruned.root) [utf8 "c"] [utf8 "sh"] bwrapArgs :=
  (session_run plain_place rfl layout_world promised session_pruned rfl
    (fun n hn => by rw [List.mem_singleton.mp hn]; decide +kernel) exec_run).2

end Pakstak
