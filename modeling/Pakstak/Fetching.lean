/-
  Fetching an image into a store: layers first, then the manifest.

  `Moved` and `Fetching` relate two states of the world by moves of the contents; `Fetching`
  ends at rest, with the containers unchanged and no directory or symlink gone.

  Proved, for any registry and any answers of the environment (its `stat` answering), and for
  every state seen on the way:
  * `ensures_fetchLayers`: layers appear one at a time, complete; in the end all are there.
  * `ensures_fetchImage`: the manifest is saved when its layers are there.
-/
import Pakstak.Operations
import Pakstak.Pinned

namespace Pakstak

open Posix Prog FileTree RegistryClient

variable {env : Env} {I C : World → Prop} {S : Place} {slack : Slack}

/-! ## Moves of the world -/

/-- The contents have moved; the lock files held are the same. -/
structure Moved (env : Env) (slack : Slack) (S : Place) (w w' : World) : Prop where
  layout : Layout S w'.root
  moves : Moves env slack (view S w.root) (view S w'.root)
  held : w'.held = w.held

theorem Moved.refl {w : World} (hl : Layout S w.root) : Moved env slack S w w := ⟨hl, .refl, rfl⟩

theorem Moved.trans {w w' w'' : World} (h : Moved env slack S w w')
    (h' : Moved env slack S w' w'') : Moved env slack S w w'' :=
  ⟨h'.layout, h.moves.trans h'.moves, h'.held.trans h.held⟩

theorem moved_of_still {w w' : World} (h : Still S w w') : Moved env slack S w w' :=
  ⟨h.layout, by rw [h.view], congrArg Prod.fst h.aside⟩

theorem moved_of_becomes {s : Store} {w w' : World} (h : Becomes S s w w')
    (hm : Move env slack (view S w.root) s) : Moved env slack S w w' :=
  ⟨h.layout, by rw [h.view]; exact .single hm, congrArg Prod.fst h.aside⟩

theorem moved_of_same {w w' : World} (hl : Layout S w.root) (h : Same w w') :
    Moved env slack S w w' := ⟨h.root ▸ hl, by rw [h.root], h.held⟩

/-! ## What a fetch leaves alone -/

/-- A fetch, from a store at rest to a store at rest. -/
structure Fetching (env : Env) (slack : Slack) (S : Place) (w w' : World) : Prop where
  moved : Moved env slack S w w'
  rest : AtRest S w'
  grows : Grows (temporaryPlace S) w.root w'.root
  containers : ∀ n, view S w'.root .containers n = view S w.root .containers n

theorem Fetching.refl {w : World} (hr : AtRest S w) : Fetching env slack S w w :=
  ⟨.refl hr.layout, hr, .refl _ _, fun _ => rfl⟩

theorem Fetching.trans {w w' w'' : World} (h : Fetching env slack S w w')
    (h' : Fetching env slack S w' w'') : Fetching env slack S w w'' :=
  ⟨h.moved.trans h'.moved, h'.rest, h.grows.trans h'.grows,
    fun n => (h'.containers n).trans (h.containers n)⟩

theorem AtRest.same {w w' : World} (hr : AtRest S w) (h : Same w w') : AtRest S w' := by
  refine ⟨⟨h.root ▸ hr.layout, h.root ▸ hr.temporary⟩, fun n => ?_⟩
  rw [h.root]
  exact hr.cleared n

theorem Same.toFetching {w w' : World} (hr : AtRest S w) (h : Same w w') :
    Fetching env slack S w w' :=
  ⟨moved_of_same hr.layout h, hr.same h, h.root ▸ .refl _ _, fun n => by rw [h.root]⟩

theorem Advanced.toFetching {k : Kind} {n : Bytes} {t : Node} {w w' : World}
    (h : Advanced S k n t w w') (hk : k ≠ .containers)
    (hm : Move env slack (view S w.root) ((view S w.root).set k n (some t))) :
    Fetching env slack S w w' :=
  ⟨moved_of_becomes h.becomes hm, h.rest, h.grows, fun a => by
    rw [h.becomes.view, Store.set_of_ne_kind fun he => hk he.symm]⟩

/-- Nothing is in an empty `temporary` that could be missed. -/
theorem AtRest.dirs {w w' : World} (hr : AtRest S w) (hg : Grows (temporaryPlace S) w.root w'.root)
    (ht : w'.root.DirAt (temporaryPlace S)) (q : Place) (hq : w.root.DirAt q) :
    w'.root.DirAt q := by
  by_cases hT : temporaryPlace S <+: q
  · obtain ⟨r, rfl⟩ := hT
    cases r with
    | nil => rwa [List.append_nil]
    | cons n r =>
      obtain ⟨m, kids, h⟩ := hq
      rw [show temporaryPlace S ++ n :: r = temporaryPlace S ++ [n] ++ r by simp,
        get_append_of_none (hr.cleared n)] at h
      cases h
  · exact (hg q hT).1 hq

theorem AtRest.links {w w' : World} (hr : AtRest S w)
    (hg : Grows (temporaryPlace S) w.root w'.root) (q : Place) (t : Bytes)
    (hq : w.root.find q = some (.inl (.symlink t))) :
    w'.root.find q = some (.inl (.symlink t)) := by
  by_cases hT : temporaryPlace S <+: q
  · obtain ⟨r, rfl⟩ := hT
    cases r with
    | nil =>
      obtain ⟨m, hm⟩ := dirAt_iff_find.mp hr.temporary
      rw [List.append_nil, hm] at hq
      cases hq
    | cons n r =>
      rw [show temporaryPlace S ++ n :: r = temporaryPlace S ++ [n] ++ r by simp,
        find_eq_none_iff.mpr (get_append_of_none (hr.cleared n) r)] at hq
      cases hq
  · exact (hg q hT).2 t hq

theorem isDirPath_iff_walk {x : Node} {p : PathBuf} :
    isDirPath x p = true ↔ ∃ c, walk x p = .ok c ∧ x.DirAt c := by
  rw [isDirPath, stat]
  constructor
  · intro h
    cases hw : walk x p with
    | error e => simp [hw] at h
    | ok c =>
      rw [hw] at h
      refine ⟨c, rfl, dirAt_iff_find.mpr ?_⟩
      cases hf : x.find c with
      | none => simp [hf] at h
      | some i =>
        cases i with
        | inr m => exact ⟨m, rfl⟩
        | inl l =>
          by_cases hs : p.slash = true <;> simp [hf, hs, Posix.isDir] at h
  · rintro ⟨c, hw, hd⟩
    obtain ⟨m, hm⟩ := dirAt_iff_find.mp hd
    simp [hw, hm, Posix.isDir]

/-- A path that names a directory names one after a fetch. -/
theorem Fetching.isDirPath {w w' : World} {p : PathBuf} (hr : AtRest S w)
    (h : Fetching env slack S w w') (hp : isDirPath w.root p = true) :
    isDirPath w'.root p = true := by
  obtain ⟨c, hw, hd⟩ := isDirPath_iff_walk.mp hp
  have hdirs := hr.dirs h.grows h.rest.temporary
  exact isDirPath_iff_walk.mpr ⟨c, walk_mono hdirs (hr.links h.grows) hw hd, hdirs c hd⟩

/-! ## Layers -/

/-- Layers under names that satisfy `P` may have come, extracted from what verifies; nothing
    else has changed. -/
structure Filled (env : Env) (S : Place) (P : Bytes → Prop) (w w' : World) : Prop where
  others : ∀ k n, k ≠ .layers → view S w'.root k n = view S w.root k n
  layers : ∀ n, view S w'.root .layers n = view S w.root .layers n ∨
    ¬ (view S w.root).HasLayer n ∧ P n ∧ WellFormed n ∧
      ∃ t, view S w'.root .layers n = some t ∧ t.isDir ∧ Extracted env n t

variable {P : Bytes → Prop}

theorem Filled.of_view {w w' : World} (h : view S w'.root = view S w.root) :
    Filled env S P w w' := ⟨fun k n _ => by rw [h], fun n => .inl (by rw [h])⟩

theorem Filled.trans {w w' w'' : World} (h : Filled env S P w w') (h' : Filled env S P w' w'') :
    Filled env S P w w'' := by
  refine ⟨fun k n hk => (h'.others k n hk).trans (h.others k n hk), fun n => ?_⟩
  rcases h'.layers n with he | ⟨hnot, hP, hw, hx⟩
  · rw [he]
    exact h.layers n
  rcases h.layers n with he | ⟨-, -, -, t, ht, hd, -⟩
  · refine .inr ⟨fun hh => hnot ?_, hP, hw, hx⟩
    obtain ⟨m, kids, hk⟩ := hh
    exact ⟨m, kids, he.trans hk⟩
  · exact absurd (hasLayer_of_isDir ht hd) hnot

theorem Filled.mono {Q : Bytes → Prop} {w w' : World} (h : Filled env S P w w')
    (hPQ : ∀ n, P n → Q n) : Filled env S Q w w' :=
  ⟨h.others, fun n => (h.layers n).imp_right fun ⟨hnot, hP, h⟩ => ⟨hnot, hPQ n hP, h⟩⟩

/-- One layer has come. -/
theorem filled_of_becomes {n : Bytes} {t : Node} {w w' : World}
    (h : Becomes S ((view S w.root).set .layers n (some t)) w w')
    (hnot : ¬ (view S w.root).HasLayer n) (hP : P n) (hw : WellFormed n) (ht : t.isDir)
    (hx : Extracted env n t) : Filled env S P w w' := by
  refine ⟨fun k a hk => by rw [h.view, Store.set_of_ne_kind hk], fun a => ?_⟩
  rw [h.view]
  by_cases ha : a = n
  · subst ha
    exact .inr ⟨hnot, hP, hw, t, Store.set_same .., ht, hx⟩
  · exact .inl (Store.set_of_ne fun hh => ha hh.2)

/-- The contents have moved, by layers coming. -/
structure Filling (env : Env) (slack : Slack) (S : Place) (P : Bytes → Prop) (w w' : World) :
    Prop where
  moved : Moved env slack S w w'
  filled : Filled env S P w w'

theorem Filling.trans {w w' w'' : World} (h : Filling env slack S P w w')
    (h' : Filling env slack S P w' w'') : Filling env slack S P w w'' :=
  ⟨h.moved.trans h'.moved, h.filled.trans h'.filled⟩

theorem Filling.mono {Q : Bytes → Prop} {w w' : World} (h : Filling env slack S P w w')
    (hPQ : ∀ n, P n → Q n) : Filling env slack S Q w w' := ⟨h.moved, h.filled.mono hPQ⟩

theorem filling_of_same {w w' : World} (hl : Layout S w.root) (h : Same w w') :
    Filling env slack S P w w' := ⟨moved_of_same hl h, .of_view (by rw [h.root])⟩

theorem filling_of_still {w w' : World} (h : Still S w w') : Filling env slack S P w w' :=
  ⟨moved_of_still h, .of_view h.view⟩

/-- Answers more, none of which names the digest of a manifest. -/
def MoreAnswers (env : Env) (w w' : World) : Prop :=
  ∃ l, answers w'.net = answers w.net ++ l ∧ ∀ a ∈ l, a.isFinal env = false

theorem MoreAnswers.refl (w : World) : MoreAnswers env w w := ⟨[], by simp, by simp⟩

theorem MoreAnswers.trans {w w' w'' : World} (h : MoreAnswers env w w')
    (h' : MoreAnswers env w' w'') : MoreAnswers env w w'' := by
  obtain ⟨l, hl, hf⟩ := h
  obtain ⟨l', hl', hf'⟩ := h'
  refine ⟨l ++ l', by rw [hl', hl, List.append_assoc], fun a ha => ?_⟩
  rcases List.mem_append.mp ha with ha | ha
  · exact hf a ha
  · exact hf' a ha

theorem moreAnswers_of_net {w w' : World} (h : w'.net = w.net) : MoreAnswers env w w' :=
  ⟨[], by rw [h, List.append_nil], by simp⟩

/-- No manifest is asked for under the media type of a layer. -/
theorem isFinal_of_layerFormat {a : Answer} {format : LayerFormat}
    (h : LayerFormat.tryFrom a.accept = .ok format) : a.isFinal env = false := by
  have hm : a.accept ≠ acceptManifest := by
    rintro he
    rw [he] at h
    revert h
    rw [show LayerFormat.tryFrom acceptManifest = .error (.unsupportedLayerMediaType acceptManifest)
      by decide +kernel]
    simp
  have ha : a.accept ≠ acceptAny := by
    rintro he
    rw [he] at h
    revert h
    rw [show LayerFormat.tryFrom acceptAny = .error (.unsupportedLayerMediaType acceptAny)
      by decide +kernel]
    simp
  simp [Answer.isFinal, hm, ha]

theorem ensures_fetchBlobReader {client : RegistryClient} {reference : Reference} {accept : Bytes}
    {size : Nat} {format : LayerFormat} {w : World} (hf : LayerFormat.tryFrom accept = .ok format)
    (hI : ∀ w', Same w w' → I w') :
    Ensures (machine env) I (fun _ w' => Same w w' ∧ MoreAnswers env w w')
      (client.fetchBlobReader env reference accept size) w := by
  rw [fetchBlobReader]
  refine ensures_bind (P := fun _ w' => Same w w' ∧ w'.net = w.net)
    (ensures_eprintln (hI w (.refl w)) fun w' hs hn => ⟨hI w' hs, hs, hn⟩) ?_
  rintro - w₁ h₁ ⟨hs₁, hn₁⟩
  refine ensures_bind (ensures_withContext.mpr
    (ensures_callGetWithAuthRetry fun w' hs => hI w' (hs₁.trans hs))) ?_
  rintro ⟨response, client'⟩ w₂ h₂ ⟨hs₂, ha₂⟩
  refine ensures_ok h₂ ⟨hs₁.trans hs₂, _, by rw [ha₂, hn₁], fun a ha => ?_⟩
  rw [List.mem_singleton.mp ha]
  exact isFinal_of_layerFormat hf

/-- After a layer has been fetched. -/
structure Layered (env : Env) (slack : Slack) (S : Place) (P : Bytes → Prop) (w w' : World) :
    Prop where
  fetching : Fetching env slack S w w'
  filled : Filled env S P w w'
  answers : MoreAnswers env w w'

theorem Layered.filling {w w' : World} (h : Layered env slack S P w w') :
    Filling env slack S P w w' := ⟨h.fetching.moved, h.filled⟩

theorem Layered.refl {w : World} (hr : AtRest S w) : Layered env slack S P w w :=
  ⟨.refl hr, .of_view rfl, .refl w⟩

theorem Layered.trans {w w' w'' : World} (h : Layered env slack S P w w')
    (h' : Layered env slack S P w' w'') : Layered env slack S P w w'' :=
  ⟨h.fetching.trans h'.fetching, h.filled.trans h'.filled, h.answers.trans h'.answers⟩

theorem Layered.mono {Q : Bytes → Prop} {w w' : World} (h : Layered env slack S P w w')
    (hPQ : ∀ n, P n → Q n) : Layered env slack S Q w w' :=
  ⟨h.fetching, h.filled.mono hPQ, h.answers⟩

theorem Same.layered {w w' : World} (hr : AtRest S w) (h : Same w w')
    (ha : MoreAnswers env w w') : Layered env slack S P w w' :=
  ⟨h.toFetching hr, .of_view (by rw [h.root]), ha⟩

/-- One layer: found, or fetched, extracted, checked and then published. -/
theorem ensures_fetchLayer [StatAnswers env] {client : RegistryClient} {reference : Reference}
    {layer : Descriptor} {w : World} (hS : PlainPlace S) (hr : AtRest S w)
    (hI : ∀ w', Filling env slack S (· = layer.digest) w w' → I w') :
    Ensures (machine env) I
      (fun _ w' => Layered env slack S (· = layer.digest) w w' ∧
        isDirPath w'.root ((storeAt S).layerPath layer.digest) = true)
      (fetchLayer env (storeAt S) reference client layer) w := by
  have h₀ := hI w (filling_of_same hr.layout (.refl w))
  rw [fetchLayer]
  refine ensures_check (F := fun format => LayerFormat.tryFrom layer.mediaType = .ok format)
    (ensures_withContext.mpr (ensures_lift h₀ fun format hf => ⟨rfl, hf⟩)) fun format hformat => ?_
  refine ensures_bind (ensures_getLayerPath h₀) ?_
  rintro o w' - ⟨rfl, ho⟩
  -- a message does not change what holds
  have print {w₁ : World} {m : Msg} {c : RegistryClient} (h₁ : I w₁)
      (hl : Layered env slack S (· = layer.digest) w' w₁)
      (hd : isDirPath w₁.root ((storeAt S).layerPath layer.digest) = true) :
      Ensures (machine env) I
        (fun _ w'' => Layered env slack S (· = layer.digest) w' w'' ∧
          isDirPath w''.root ((storeAt S).layerPath layer.digest) = true)
        (do eprintln m; return c) w₁ := by
    refine ensures_bind (P := fun _ w₂ => Same w₁ w₂ ∧ w₂.net = w₁.net)
      (ensures_eprintln h₁ fun w₂ hs hn =>
        ⟨hI w₂ (hl.filling.trans (filling_of_same hl.fetching.rest.layout hs)), hs, hn⟩) ?_
    rintro - w₂ h₂ ⟨hs, hn⟩
    exact ensures_ok h₂ ⟨hl.trans (hs.layered hl.fetching.rest (moreAnswers_of_net hn)),
      by rw [hs.root, hd]⟩
  rcases ho with ⟨rfl, hd⟩ | ⟨rfl, hno⟩
  · exact print h₀ (.refl hr) hd
  · have hnot := Bool.eq_false_iff.mp (hno inferInstance)
    refine ensures_bind (ensures_withContext.mpr (ensures_fetchBlobReader hformat
      fun w₁ hs => hI w₁ (filling_of_same hr.layout hs))) ?_
    rintro ⟨reader, client'⟩ w₁ h₁ ⟨hs₁, ha₁⟩
    have hl₁ : Layered env slack S (· = layer.digest) w' w₁ := hs₁.layered hr ha₁
    have hr₁ := hl₁.fetching.rest
    have missing (hw : WellFormed layer.digest) : ¬ (view S w₁.root).HasLayer layer.digest := by
      rw [hs₁.root, ← hasLayer_iff hS hr.layout (plain_of_wellFormed hw)]
      exact hnot
    refine ensures_bind (ensures_withContext.mpr (ensures_writeLayer hS hr₁
      (fun w₂ h => hI w₂ (hl₁.filling.trans (filling_of_still h.still))) fun t w₂ hw ht hx hb =>
        hI w₂ (hl₁.filling.trans ⟨moved_of_becomes hb.becomes (.addLayer hw ht hx),
          filled_of_becomes hb.becomes (missing hw) rfl hw ht hx⟩))) ?_
    rintro - w₂ h₂ ⟨t, hw, ht, hx, hadv⟩
    have hl₂ : Layered env slack S (· = layer.digest) w₁ w₂ :=
      ⟨hadv.toFetching (by simp) (.addLayer hw ht hx),
        filled_of_becomes hadv.becomes (missing hw) rfl hw ht hx,
        moreAnswers_of_net (congrArg (fun a => a.2.1) hadv.becomes.aside)⟩
    refine print h₂ (hl₁.trans hl₂)
      ((hasLayer_iff hS hadv.rest.layout (plain_of_wellFormed hw)).mpr ?_)
    rw [hadv.becomes.view]
    exact hasLayer_of_isDir (Store.set_same ..) ht

/-- A layer of the manifest has this digest. -/
def FetchedManifest.HasDigest (f : FetchedManifest) (n : Bytes) : Prop :=
  ∃ layer ∈ f.manifest.layers, layer.digest = n

theorem ensures_fetchLayers [StatAnswers env] {client : RegistryClient} {reference : Reference}
    {fetched : FetchedManifest} {w : World} (hS : PlainPlace S) (hr : AtRest S w)
    (hI : ∀ w', Filling env slack S fetched.HasDigest w w' → I w') :
    Ensures (machine env) I
      (fun _ w' => Layered env slack S fetched.HasDigest w w' ∧
        ∀ layer ∈ fetched.manifest.layers,
          isDirPath w'.root ((storeAt S).layerPath layer.digest) = true)
      (client.fetchLayers env (storeAt S) reference fetched) w := by
  rw [fetchLayers]
  refine ensures_bind (P := fun _ w' => Same w w' ∧ w'.net = w.net)
    (ensures_eprintln (hI w (filling_of_same hr.layout (.refl w))) fun w' hs hn =>
      ⟨hI w' (filling_of_same hr.layout hs), hs, hn⟩) ?_
  rintro - w₁ h₁ ⟨hs₁, hn₁⟩
  -- one after the other, the layers of the manifest are there
  refine ensures_mono (ensures_fold (K := fun _ rest w' => Layered env slack S fetched.HasDigest w
    w' ∧
      (∀ layer ∈ rest, layer ∈ fetched.manifest.layers) ∧
      ∀ layer ∈ fetched.manifest.layers, layer ∉ rest →
        isDirPath w'.root ((storeAt S).layerPath layer.digest) = true)
    (fun _ _ w' h => hI w' h.1.filling) ?_ _ client w₁
    ⟨hs₁.layered hr (moreAnswers_of_net hn₁), fun _ h => h, fun layer h h' => absurd h h'⟩)
    (fun _ h => h) fun _ w' _ h => ⟨h.1, fun layer hm => h.2.2 layer hm (by simp)⟩
  rintro client' layer rest w₂ ⟨hl₂, hrest₂, hd₂⟩
  have digest {n : Bytes} (hn : n = layer.digest) : fetched.HasDigest n :=
    ⟨layer, hrest₂ layer (by simp), hn.symm⟩
  refine ensures_mono (ensures_fetchLayer hS hl₂.fetching.rest fun w' h =>
    hI w' (hl₂.filling.trans (h.mono fun _ => digest))) (fun _ h => h) ?_
  rintro client'' w₃ - ⟨hl₃, hd₃⟩
  refine ⟨hl₂.trans (hl₃.mono fun _ => digest), fun layer' hm => hrest₂ layer' (by simp [hm]),
    fun layer' hm hn => ?_⟩
  by_cases he : layer' = layer
  · rw [he]
    exact hd₃
  · exact hl₃.fetching.isDirPath hl₂.fetching.rest (hd₂ layer' hm fun h =>
      (List.mem_cons.mp h).elim he hn)

/-! ## Images -/

/-- Every layer digest of a manifest received has the right form, if what it is joined to is a
    directory: an extracted layer, or anything that a string of another form leads to. -/
def FormedLayers (env : Env) (S : Place) (w : World) : Prop :=
  ∀ a ∈ answers w.net, ∀ manifest, parseManifest env a.response.body.data = some manifest →
    ∀ layer ∈ manifest.layers, isDirPath w.root ((storeAt S).layerPath layer.digest) = true →
      WellFormed layer.digest

/-- After an image has been fetched. -/
structure ImageFetched (env : Env) (slack : Slack) (S : Place) (reference : Reference)
    (repair : Bool) (f : FetchedManifest) (w w' : World) : Prop where
  fetching : Fetching env slack S w w'
  answers : ∃ l w₁, Fetched env reference l f ∧ answers w₁.net = answers w.net ++ l ∧
    MoreAnswers env w₁ w'
  saved : ∃ bytes, (view S w'.root).manifestBytes f.digest = some bytes ∧
    (repair = true → Verifies env.hash bytes f.digest) ∧
    (bytes = f.bytes ∨ (view S w.root).manifestBytes f.digest = some bytes)
  manifests : ∀ n, n ≠ manifestName f.digest →
    view S w'.root .manifests n = view S w.root .manifests n
  kept : repair = false → (view S w.root).manifestBytes f.digest ≠ none →
    ∀ n, view S w'.root .manifests n = view S w.root .manifests n
  added : (view S w.root).manifestBytes f.digest = none → Saved env (view S w'.root) f.digest
  layers : (repair = false ∧ ∃ bytes, (view S w.root).manifestBytes f.digest = some bytes) ∨
    ∀ layer ∈ f.manifest.layers, isDirPath w'.root ((storeAt S).layerPath layer.digest) = true

/-- After the fetch of an image has failed: no entry has changed, but layers of the manifest
    fetched may have come. -/
def Unfinished (env : Env) (S : Place) (reference : Reference) (w w' : World) : Prop :=
  view S w'.root = view S w.root ∨
    ∃ l f, Fetched env reference l f ∧ Pakstak.answers w.net ++ l <+: Pakstak.answers w'.net ∧
      Filled env S f.HasDigest w w'

/-- Fetching an image: all its layers are there before the manifest is saved. -/
theorem endsUnder_fetchImage [StatAnswers env] {client : RegistryClient} {reference : Reference}
    {repair : Bool} {w : World} (hS : PlainPlace S) (hr : AtRest S w)
    (hC : ∀ w', C w' → slack.digests ∨ FormedLayers env S w')
    (hI : ∀ w', Moved env slack S w w' → I w') :
    EndsUnder (machine env) C I
      (fun r w' => ImageFetched env slack S reference repair r.1 w w')
      (fun _ w' => Unfinished env S reference w w')
      (client.fetchImage env (storeAt S) reference repair) w := by
  -- until the first layer no entry changes
  have same {w' : World} (h : Same w w') : I w' ∧ Unfinished env S reference w w' :=
    ⟨hI w' (moved_of_same hr.layout h), .inl (by rw [h.root])⟩
  rw [fetchImage]
  refine endsUnder_bind (endsUnder_of (ends_of_ensures_and (ensures_withContext.mpr
    (ensures_fetchImageManifest fun w' hs => same hs)))) ?_
  rintro ⟨f, client₁⟩ w₁ h₁ - ⟨hs₁, l, ha₁, hf⟩
  obtain ⟨hparse, -, hver⟩ := hf.parsed
  have hplain := plain_json_of_wellFormed (wellFormed_of_verifies hver)
  have hr₁ := hr.same hs₁
  have hf₁ : Fetching env slack S w w₁ := hs₁.toFetching hr
  refine endsUnder_bind (endsUnder_of (ends_of_ensures_and (ensures_withContext.mpr
    (ensures_isManifestSaved hS hr₁.layout hplain fun w' hs => same (hs₁.trans hs))))) ?_
  rintro isSaved w₂ h₂ - ⟨hs₂, hn₂, hsaved, hunsaved⟩
  have hr₂ := hr₁.same hs₂
  have hf₂ : Fetching env slack S w w₂ := hf₁.trans (hs₂.toFetching hr₁)
  have ha₂ : MoreAnswers env w₁ w₂ := moreAnswers_of_net hn₂
  have same₂ : view S w₂.root = view S w.root := by rw [hs₂.root, hs₁.root]
  split
  · -- the manifest is there already
    rename_i hcond
    obtain ⟨bytes, hbytes, -⟩ := hsaved hcond.1
    have hrepair : repair = false := by simpa using hcond.2
    refine endsUnder_bind (endsUnder_of (ends_of_ensures_and
      (P := fun _ w' => Same w₂ w' ∧ w'.net = w₂.net)
      (ensures_eprintln ⟨h₂, .inl same₂⟩ fun w' hs hn =>
        ⟨same ((hs₁.trans hs₂).trans hs), hs, hn⟩))) ?_
    rintro - w₃ h₃ - ⟨hs₃, hn₃⟩
    rw [hs₁.root] at hbytes
    refine endsUnder_ok h₃ ⟨hf₂.trans (hs₃.toFetching hr₂), ⟨l, w₁, hf, ha₁,
      ha₂.trans (moreAnswers_of_net hn₃)⟩, ⟨bytes, ?_, fun h => (by rw [hrepair] at h; cases h),
      .inr hbytes⟩,
      fun n _ => by rw [hs₃.root, same₂], fun _ _ n => by rw [hs₃.root, same₂],
      fun h => (by rw [hbytes] at h; cases h), .inl ⟨hrepair, bytes, hbytes⟩⟩
    rw [hs₃.root, same₂, hbytes]
  · rename_i hcond
    -- the layers come, after the manifest
    have filled {w' : World} (hn : w₂.net <+: w'.net) (h : Filled env S f.HasDigest w₂ w') :
        Unfinished env S reference w w' := by
      refine .inr ⟨l, f, hf, ?_, (Filled.of_view same₂).trans h⟩
      rw [← ha₁, ← hn₂]
      exact hn.filterMap answer
    refine endsUnder_bind (endsUnder_of (ends_of_ensures_and (ensures_withContext.mpr
      (ensures_mono (ensures_logged (ensures_fetchLayers
        (I := Filling env slack S f.HasDigest w₂) hS hr₂ fun w' h => h))
        (fun w' h => ⟨hI w' (hf₂.moved.trans h.1.moved), filled h.2 h.1.filled⟩)
        fun _ _ h h' => (⟨h', h.2⟩ : _ ∧ w₂.net <+: _))))) ?_
    rintro client₃ w₃ h₃ hC₃ ⟨⟨hl₃, hlayers₃⟩, hn₃⟩
    have hr₃ := hl₃.fetching.rest
    have hf₃ := hf₂.trans hl₃.fetching
    have manifests₃ (n : Bytes) : view S w₃.root .manifests n = view S w.root .manifests n := by
      rw [hl₃.filled.others _ _ (by simp), same₂]
    split
    · -- the layers are there, the manifest is not
      rename_i hno
      have hmove : Move env slack (view S w₃.root) ((view S w₃.root).set .manifests
          (manifestName f.digest) (some (.leaf (.file newFile f.bytes)))) := by
        refine .saveManifest hver hparse (fun layer hm hw =>
          (hasLayer_iff hS hr₃.layout (plain_of_wellFormed hw)).mp (hlayers₃ layer hm)) ?_
        refine (hC w₃ hC₃).imp_right fun hformed => ?_
        obtain ⟨pre, a, rfl, -, -, -, hdata⟩ := hf.final
        obtain ⟨l', hl', -⟩ := ha₂.trans hl₃.answers
        refine fun layer hm => hformed a ?_ f.manifest (hdata ▸ hparse) layer hm (hlayers₃ layer hm)
        rw [hl', ha₁]
        simp
      refine endsUnder_bind (endsUnder_of (ends_mono (ends_writeManifest hS hr₃ hplain
        (fun w' h => hI w' (hf₃.moved.trans (moved_of_still h.still)))
        fun w' h => hI w' (hf₃.moved.trans (moved_of_becomes h.becomes hmove))) (fun _ h => h)
        (fun _ _ _ h => h) fun _ w' _ h => filled
          (hn₃.trans (by rw [show w'.net = w₃.net from congrArg (fun a => a.2.1) h.aside]))
          (hl₃.filled.trans (.of_view h.view)))) ?_
      rintro - w₄ h₄ - hadv
      have hf₄ := hadv.toFetching (by simp) hmove
      have hbytes₄ : (view S w₄.root).manifestBytes f.digest = some f.bytes := by
        rw [hadv.becomes.view, Store.manifestBytes, Store.set_same]
        rfl
      refine endsUnder_ok h₄ ⟨hf₃.trans hf₄, ⟨l, w₁, hf, ha₁, (ha₂.trans hl₃.answers).trans
        (moreAnswers_of_net (congrArg (fun a => a.2.1) hadv.becomes.aside))⟩, ⟨f.bytes, hbytes₄,
        fun _ => hver, .inl rfl⟩, fun n hn => ?_, fun hrepair hsome => absurd ?_ hsome,
        fun _ => ⟨f.bytes, f.manifest, hbytes₄, hver, hparse⟩,
        .inr fun layer hm => hf₄.isDirPath hr₃ (hlayers₃ layer hm)⟩
      · rw [hadv.becomes.view, Store.set_of_ne fun h => hn h.2, manifests₃]
      · rw [← hs₁.root]
        exact hunsaved inferInstance (by simpa using hno) hrepair
    · rename_i hnot
      obtain ⟨bytes, hbytes, hv⟩ := hsaved (not_not.mp hnot)
      rw [hs₁.root] at hbytes
      refine endsUnder_ok h₃ ⟨hf₃, ⟨l, w₁, hf, ha₁, ha₂.trans hl₃.answers⟩,
        ⟨bytes, ?_, hv, .inr hbytes⟩, fun n _ => manifests₃ n, fun _ _ => manifests₃,
        fun h => (by rw [hbytes] at h; cases h), .inr hlayers₃⟩
      rw [Store.manifestBytes, manifests₃, ← hbytes, Store.manifestBytes]

theorem ensures_fetchImage [StatAnswers env] {client : RegistryClient} {reference : Reference}
    {repair : Bool} {w : World} (hS : PlainPlace S) (hr : AtRest S w)
    (hC : ∀ w', C w' → slack.digests ∨ FormedLayers env S w')
    (hI : ∀ w', Moved env slack S w w' → I w') :
    EnsuresUnder (machine env) C I
      (fun r w' => ImageFetched env slack S reference repair r.1 w w')
      (client.fetchImage env (storeAt S) reference repair) w :=
  ensuresUnder_of_endsUnder (endsUnder_fetchImage hS hr hC hI)

/-! ## How a fetch ends -/

/-- A fetch that fails leaves every entry as it was, but for complete layers of the manifest it
    got. One that succeeds got its manifest from the registry of the reference and leaves it
    saved, by the bytes it got or by those that were there; and its layers are there, unless the
    manifest was saved before. -/
theorem fetchImage_outcome [StatAnswers env] {client : RegistryClient} {reference : Reference}
    {repair : Bool} {w w' : World} {res : Except Err (FetchedManifest × RegistryClient)}
    (hS : PlainPlace S) (hr : AtRest S w)
    (hx : Exec (machine env) (client.fetchImage env (storeAt S) reference repair) w (some res) w') :
    match res with
    | .error _ => Unfinished env S reference w w'
    | .ok (f, _) =>
      (∃ l post, Fetched env reference l f ∧ answers w'.net = answers w.net ++ (l ++ post)) ∧
      (∃ bytes, (view S w'.root).manifestBytes f.digest = some bytes ∧
        (repair = true → Verifies env.hash bytes f.digest) ∧
        (bytes = f.bytes ∨ (view S w.root).manifestBytes f.digest = some bytes)) ∧
      ((repair = false ∧ ∃ bytes, (view S w.root).manifestBytes f.digest = some bytes) ∨
        ∀ layer ∈ f.manifest.layers,
          isDirPath w'.root ((storeAt S).layerPath layer.digest) = true) := by
  have h : Ends (machine env) (fun _ => True)
      (fun r w' => ImageFetched env ⟨True, True, True⟩ S reference repair r.1 w w')
      (fun _ w' => Unfinished env S reference w w')
      (client.fetchImage env (storeAt S) reference repair) w :=
    endsUnder_true.mp (endsUnder_fetchImage hS hr (fun _ _ => .inl trivial) fun _ _ => trivial)
  have hres := (wp_exec h hx).2 res rfl
  cases res with
  | error e => exact hres
  | ok r =>
    obtain ⟨l, w₁, hf, hl, l', hl', -⟩ := hres.answers
    exact ⟨⟨l, l', hf, by rw [hl', hl, List.append_assoc]⟩, hres.saved, hres.layers⟩

namespace FirstFetch

/-- The store at `/s`. -/
def place : Place := [utf8 "s"]

/-- An empty store at rest. -/
def store : World :=
  ⟨.dir newDir [(utf8 "s", .dir newDir [(utf8 "temporary", .dir newDir [])])], [], [], []⟩

theorem plain_place : PlainPlace place := by
  intro n hn
  rw [List.mem_singleton.mp hn]
  decide +kernel

theorem atRest : AtRest place store :=
  ⟨⟨layout_of_isLayout (by decide +kernel), _, _, rfl⟩, cleared_of_get rfl⟩

end FirstFetch

namespace TwoLayers

open FirstFetch (place)

/-- The first layer of the image is there already. -/
def store : World :=
  ⟨.dir newDir [(utf8 "s", .dir newDir [(utf8 "temporary", .dir newDir []),
    (utf8 "layers", .dir newDir [(firstDigest, .dir newDir [])])])], [], [], []⟩

theorem atRest : AtRest place store :=
  ⟨⟨layout_of_isLayout (by decide +kernel), _, _, rfl⟩, cleared_of_get rfl⟩

/-- The image fetched from `w`, where `data` comes for its second layer. -/
def fetchRun (data : Bytes) (w : World) :
    Option (Except Err (FetchedManifest × RegistryClient)) × World :=
  (script data).replay twoLayers
    (RegistryClient.new.fetchImage twoLayers (storeAt place) reference false) w

theorem exec_fetchRun (data : Bytes) (w : World) : Exec (machine twoLayers)
    (RegistryClient.new.fetchImage twoLayers (storeAt place) reference false) w (fetchRun data w).1
    (fetchRun data w).2 := Script.exec_replay _ _ _ _

def fetchedManifest : FetchedManifest := ⟨imageManifest, manifest.text, manifestDigest⟩

/-- No archive: its digest is not that of the layer. -/
def corrupt : Bytes := [1]

def isError {α : Type} : Option (Except Err α) → Bool
  | some (.error _) => true
  | _ => false

theorem of_isError {α : Type} {r : Option (Except Err α)} (h : isError r = true) :
    ∃ e, r = some (.error e) := by
  unfold isError at h
  split at h
  · exact ⟨_, rfl⟩
  · cases h

/-- What the two runs compute. -/
structure Fetches : Prop where
  succeeds : (fetchRun second.text store).1 = some (.ok (fetchedManifest, .new))
  absent : (view place store.root).manifestBytes manifestDigest = none
  fails : isError (fetchRun corrupt FirstFetch.store).1 = true
  one : ((view place (fetchRun corrupt FirstFetch.store).2.root .layers firstDigest).map
    FileTree.isDir = some true) ∧
    view place (fetchRun corrupt FirstFetch.store).2.root .layers secondDigest = none

theorem fetches : Fetches := by constructor <;> decide +kernel

end TwoLayers

open TwoLayers in
/-- One layer is there and one fetched; and a second layer that is corrupt ends a fetch after
    the first has come. -/
theorem fetchImage_outcome_layers :
    ((view FirstFetch.place (fetchRun second.text store).2.root).manifestBytes manifestDigest =
        some manifest.text ∧
      ∀ layer ∈ imageManifest.layers, isDirPath (fetchRun second.text store).2.root
        ((storeAt FirstFetch.place).layerPath layer.digest) = true) ∧
    Unfinished twoLayers FirstFetch.place reference FirstFetch.store
      (fetchRun corrupt FirstFetch.store).2 ∧
    (view FirstFetch.place (fetchRun corrupt FirstFetch.store).2.root .layers firstDigest).map
      FileTree.isDir = some true := by
  obtain ⟨-, ⟨bytes, hb, -, hbytes⟩, hlayers⟩ := fetchImage_outcome FirstFetch.plain_place atRest
    (exec_of_fst_eq (exec_fetchRun second.text store) fetches.succeeds)
  obtain ⟨e, he⟩ := of_isError fetches.fails
  have hfails := fetchImage_outcome FirstFetch.plain_place FirstFetch.atRest
    (exec_of_fst_eq (exec_fetchRun corrupt FirstFetch.store) he)
  refine ⟨⟨hb.trans ?_, hlayers.resolve_left ?_⟩, hfails, fetches.one.1⟩
  · rw [hbytes.resolve_right (by simp [fetchedManifest, fetches.absent])]
    rfl
  · rintro ⟨-, bytes', hb'⟩
    rw [show fetchedManifest.digest = manifestDigest from rfl, fetches.absent] at hb'
    cases hb'

end Pakstak
