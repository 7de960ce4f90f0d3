/-
  What prune finds out before it removes anything: the manifests and the layers in use.

  `Uses S x d`: the digest `d` is that of a container. `UsesLayer env S x n`: a manifest of
  such a digest lists `n`.

  Proved, for any answers of the environment:
  * `ensures_survey`: the lists read are exactly these, and every digest and every manifest
    in use can be read. Nothing changes on the way.
-/
import Pakstak.Prune
import Pakstak.Readers

namespace Pakstak

open Posix Prog FileTree

variable {env : Env} {I : World → Prop} {S : Place} {x : Node} {w : World} {n d : Bytes}

/-! ## What is in use -/

/-- An entry of the containers that is a directory. -/
def Store.HasContainer (s : Store) (n : Bytes) : Prop :=
    ∃ m kids, s .containers n = some (.dir m kids)

/-- The digest of an installed container. -/
def Uses (S : Place) (x : Node) (d : Bytes) : Prop :=
  ∃ n, (view S x).HasContainer n ∧ ReadsDigest S x n d

/-- The manifest that is read for a digest. -/
def ReadsManifest (env : Env) (S : Place) (x : Node) (d : Bytes) (manifest : ImageManifest) :
    Prop :=
  ∃ bytes, Posix.read x ((storeAt S).manifestPath d) = .ok bytes ∧
    parseManifest env bytes = some manifest

/-- A layer that a manifest in use lists. -/
def UsesLayer (env : Env) (S : Place) (x : Node) (n : Bytes) : Prop :=
  ∃ d manifest, Uses S x d ∧ ReadsManifest env S x d manifest ∧
    ∃ layer ∈ manifest.layers, layer.digest = n

theorem ReadsDigest.unique {d' : Bytes} (h : ReadsDigest S x n d) (h' : ReadsDigest S x n d') :
    d = d' := by
  obtain ⟨t, ht, -, -, rfl⟩ := h
  obtain ⟨t', ht', -, -, rfl⟩ := h'
  rw [ht, Except.ok.injEq] at ht'
  rw [ht']

theorem ReadsManifest.unique {manifest manifest' : ImageManifest}
    (h : ReadsManifest env S x d manifest) (h' : ReadsManifest env S x d manifest') :
    manifest = manifest' := by
  obtain ⟨b, hb, hm⟩ := h
  obtain ⟨b', hb', hm'⟩ := h'
  rw [hb, Except.ok.injEq] at hb'
  subst hb'
  exact Option.some.inj (hm.symm.trans hm')

/-- Every digest and every manifest in use can be read. -/
structure Readable (env : Env) (S : Place) (x : Node) : Prop where
  digest : ∀ n, (view S x).HasContainer n → ∃ d, ReadsDigest S x n d
  manifest : ∀ d, Uses S x d → ∃ manifest, ReadsManifest env S x d manifest

/-! ## The survey -/

/-- The digests in use, as they are read. -/
structure UsedManifests (S : Place) (x : Node) (used : List Bytes) : Prop where
  mem_iff : ∀ d, d ∈ used ↔ Uses S x d
  digest : ∀ n, (view S x).HasContainer n → ∃ d, ReadsDigest S x n d

theorem ensures_readUsedManifests (hS : PlainPlace S) (hl : Layout S w.root) (hI : I w) :
    Ensures (machine env) I
      (fun used w' => w' = w ∧ (StatAnswers env → UsedManifests S w.root used))
      (readUsedManifests (storeAt S)) w := by
  rw [readUsedManifests]
  refine ensures_bind (ensures_readContainers hS hl hI) ?_
  rintro it w' - ⟨rfl, hlist, hitem⟩
  refine ensures_mono (ensures_tryFold (K := fun used rest w₁ => w₁ = w' ∧
      (∀ d ∈ used, Uses S w'.root d) ∧ (∀ n ∈ rest, Plain n) ∧
      (StatAnswers env → ∀ n ∈ it.listing.names, n ∉ rest → (view S w'.root).HasContainer n →
        ∃ d ∈ used, ReadsDigest S w'.root n d))
    (fun _ _ _ h => h.1 ▸ hI) ?_
    ⟨rfl, by simp, fun n hn => (hlist.sound n hn).2, fun _ n h h' => absurd h h'⟩)
    (fun _ h => h) ?_
  · rintro used name rest w₁ ⟨rfl, hused, hplain, hdone⟩
    rw [hitem]
    refine ensures_bind (ensures_withContext.mpr
      (ensures_dirItem hS hl (hplain name (by simp)) hI)) ?_
    rintro o w₂ - ⟨rfl, ⟨rfl, hc⟩ | ⟨rfl, hc⟩⟩
    · refine ensures_bind (ensures_withContext.mpr (ensures_readContainerManifestDigest hI)) ?_
      rintro d w₁ - ⟨rfl, hd⟩
      refine ensures_ok hI ⟨rfl, fun e he => ?_, fun n hn => hplain n (by simp [hn]),
        fun hs n hn hrest hn' => ?_⟩
      · rcases List.mem_append.mp he with he | he
        · exact hused e he
        · exact List.mem_singleton.mp he ▸ ⟨name, hc, hd⟩
      · by_cases he : n = name
        · exact ⟨d, by simp, he ▸ hd⟩
        · obtain ⟨e, he', hr⟩ := hdone hs n hn (by simp [he, hrest]) hn'
          exact ⟨e, by simp [he'], hr⟩
    · refine ensures_ok hI ⟨rfl, hused, fun n hn => hplain n (by simp [hn]),
        fun hs n hn hrest hn' => hdone hs n hn ?_ hn'⟩
      rintro h
      rcases List.mem_cons.mp h with rfl | h
      · exact hc hs hn'
      · exact hrest h
  · rintro used w₁ - ⟨⟨rfl, hused, -, hdone⟩, hb⟩
    refine ⟨rfl, fun hs => ?_⟩
    have found {n : Bytes} (hn : (view S w₁.root).HasContainer n) :
        ∃ d ∈ used, ReadsDigest S w₁.root n d := by
      obtain ⟨m, kids, hv⟩ := hn
      exact hdone hs n (hlist.whole hb n (by rw [hv]; rfl)) (by simp) ⟨m, kids, hv⟩
    refine ⟨fun d => ⟨hused d, ?_⟩, fun n hn => ?_⟩
    · rintro ⟨n, hn, hd⟩
      obtain ⟨e, he, hr⟩ := found hn
      exact hd.unique hr ▸ he
    · obtain ⟨d, -, hr⟩ := found hn
      exact ⟨d, hr⟩

/-- The lists that prune works with. -/
structure Survey (env : Env) (S : Place) (x : Node) (used usedLayers : List Bytes) : Prop where
  used : ∀ d, d ∈ used ↔ Uses S x d
  layers : ∀ n, n ∈ usedLayers ↔ UsesLayer env S x n
  readable : Readable env S x

theorem ensures_readUsedLayers {used : List Bytes}
    (hu : StatAnswers env → UsedManifests S w.root used) (hI : I w) :
    Ensures (machine env) I
      (fun layers w' => w' = w ∧ (StatAnswers env → Survey env S w.root used layers))
      (readUsedLayers env (storeAt S) used) w := by
  rw [readUsedLayers]
  refine ensures_bind (P := fun order w' => w' = w ∧ ∀ d, d ∈ order ↔ d ∈ used)
    (ensures_hashOrder hI fun order ho => ⟨rfl, fun d => ho.mem_iff.trans List.mem_dedup⟩) ?_
  rintro order w' - ⟨rfl, horder⟩
  refine ensures_mono (ensures_fold (K := fun layers rest w₁ => w₁ = w' ∧
      (∀ d ∈ rest, d ∈ used) ∧ (StatAnswers env → ∀ n ∈ layers, UsesLayer env S w'.root n) ∧
      ∀ d ∈ order, d ∉ rest → ∃ manifest, ReadsManifest env S w'.root d manifest ∧
        ∀ layer ∈ manifest.layers, layer.digest ∈ layers)
    (fun _ _ _ h => h.1 ▸ hI) ?_ order [] w'
    ⟨rfl, fun d hd => (horder d).mp hd, by simp, fun d h h' => absurd h h'⟩) (fun _ h => h) ?_
  · rintro layers digest rest w₁ ⟨rfl, hrest, hlayers, hdone⟩
    refine ensures_bind (ensures_withContext.mpr (ensures_readManifest hI)) ?_
    rintro manifest w₂ - ⟨rfl, hm⟩
    refine ensures_ok hI ⟨rfl, fun d hd => hrest d (by simp [hd]), fun hs n hn => ?_,
      fun d hd hn => ?_⟩
    · rcases List.mem_append.mp hn with hn | hn
      · exact hlayers hs n hn
      · obtain ⟨layer, hl, rfl⟩ := List.mem_map.mp hn
        exact ⟨digest, manifest, ((hu hs).mem_iff digest).mp (hrest digest (by simp)), hm, layer,
          hl,
          rfl⟩
    · by_cases he : d = digest
      · exact ⟨manifest, he ▸ hm, fun layer hl =>
          List.mem_append_right _ (List.mem_map_of_mem hl)⟩
      · obtain ⟨manifest', hm', hl'⟩ := hdone d hd (by simp [he, hn])
        exact ⟨manifest', hm', fun layer hl => List.mem_append_left _ (hl' layer hl)⟩
  · rintro layers w₁ - ⟨rfl, -, hlayers, hdone⟩
    refine ⟨rfl, fun hs => ?_⟩
    have hu := hu hs
    have found {d : Bytes} (hd : Uses S w₁.root d) : ∃ manifest,
        ReadsManifest env S w₁.root d manifest ∧ ∀ layer ∈ manifest.layers, layer.digest ∈ layers :=
      hdone d ((horder d).mpr ((hu.mem_iff d).mpr hd)) (by simp)
    refine ⟨hu.mem_iff, fun n => ⟨hlayers hs n, ?_⟩, hu.digest, fun d hd => ?_⟩
    · rintro ⟨d, manifest, hd, hm, layer, hl, rfl⟩
      obtain ⟨manifest', hm', hl'⟩ := found hd
      exact hl' layer (hm.unique hm' ▸ hl)
    · obtain ⟨manifest, hm, -⟩ := found hd
      exact ⟨manifest, hm⟩

/-! ## The survey comes to an end -/

theorem noSpin_pathIsDir (p : PathBuf) : (pathIsDir p).NoSpin :=
  noSpin_bind (noSpin_call _) fun r => by cases r <;> trivial

theorem noSpin_intoString (what : String) (name : Bytes) : (intoString what name).NoSpin := by
  rw [intoString]
  split <;> trivial

theorem noSpin_readDirEntries (path : PathBuf) (kind : Bytes) :
    (readDirEntries path kind).NoSpin := by
  refine noSpin_bind (noSpin_call _) fun r => ?_
  split <;> trivial

theorem noSpin_tryFold {α β : Type} {it : Iter α} {m : Msg} {init : β} {body : β → α → M β}
    (hitem : ∀ name, (it.item name).NoSpin) (hbody : ∀ acc a, (body acc a).NoSpin) :
    (it.tryFold m init body).NoSpin := by
  refine noSpin_bind (noSpin_fold (fun acc name => ?_) _ _) fun acc => noSpin_bind ?_ fun _ =>
    trivial
  · refine noSpin_bind (noSpin_mapError (hitem name)) fun o => ?_
    split
    · trivial
    · exact hbody _ _
  · rw [Iter.finish]
    split <;> trivial

variable {st : Storage}

theorem noSpin_readContainerManifestDigest (container : Bytes) :
    (st.readContainerManifestDigest container).NoSpin := by
  refine noSpin_bind (noSpin_call _) fun r => noSpin_bind (noSpin_orContext _ _) fun text => ?_
  split
  · trivial
  · split <;> trivial

theorem noSpin_readManifest (digest : Bytes) : (st.readManifest env digest).NoSpin := by
  refine noSpin_bind (noSpin_bind (noSpin_call _) fun r => noSpin_orContext _ _) fun bytes => ?_
  split <;> trivial

theorem noSpin_readUsedManifests : (readUsedManifests st).NoSpin := by
  rw [readUsedManifests, Storage.readContainers]
  simp only [bind_eq, bind_assoc]
  refine noSpin_bind (noSpin_readDirEntries _ _) fun l => noSpin_tryFold (fun name => ?_)
    fun used container => noSpin_bind (noSpin_mapError (noSpin_readContainerManifestDigest _))
      fun _ => trivial
  refine noSpin_bind (noSpin_pathIsDir _) fun b => ?_
  split
  · exact noSpin_bind (noSpin_intoString _ _) fun _ => trivial
  · trivial

theorem noSpin_readUsedLayers (used : List Bytes) : (readUsedLayers env st used).NoSpin := by
  refine noSpin_bind (noSpin_call _) fun order => noSpin_fold (fun layers digest => ?_) _ _
  exact noSpin_bind (noSpin_mapError (noSpin_readManifest _)) fun _ => trivial

end Pakstak
