/-
  What `repair` leaves, and what it means that it ends well.

  The first loop fetches what every container names, by its digest; the second one reads every
  manifest file. `Mended` says what may change on the way, from a store in which any manifest
  may be missing or corrupt, and any layer missing.

  Proved, for any registry and any answers of the environment (its `stat` answering):
  `repair_outcome`.
-/
import Pakstak.Outcomes
import Pakstak.Kills

namespace Pakstak

open Posix Prog FileTree RegistryClient

variable {env : Env} {I : World → Prop} {S : Place} {slack : Slack} {w w' w'' : World}
  {n d : Bytes}

/-! ## What may change -/

/-- The manifest saved under `digest` verifies. -/
def VerifiedAt (env : Env) (s : Store) (digest : Bytes) : Prop :=
  ∃ bytes, s.manifestBytes digest = some bytes ∧ Verifies env.hash bytes digest

/-- No container changes, no layer goes, no manifest that verifies is lost, and a manifest file
    that changes comes to verify. -/
structure Mended (env : Env) (S : Place) (w w' : World) : Prop where
  containers : ∀ n, view S w'.root .containers n = view S w.root .containers n
  layers : ∀ n, (view S w.root).HasLayer n → (view S w'.root).HasLayer n
  verified : ∀ d, VerifiedAt env (view S w.root) d → VerifiedAt env (view S w'.root) d
  manifests : ∀ n, view S w'.root .manifests n = view S w.root .manifests n ∨
    ∃ d, n = manifestName d ∧ VerifiedAt env (view S w'.root) d
  net : answers w.net <+: answers w'.net

theorem VerifiedAt.of_eq {s s' : Store} (h : VerifiedAt env s d)
    (he : s' .manifests (manifestName d) = s .manifests (manifestName d)) :
    VerifiedAt env s' d := by
  obtain ⟨bytes, hb, hv⟩ := h
  exact ⟨bytes, (manifestBytes_of_eq he).trans hb, hv⟩

theorem Mended.of_view (h : view S w'.root = view S w.root)
    (hn : answers w.net <+: answers w'.net) : Mended env S w w' :=
  ⟨fun n => by rw [h], fun n => by rw [h]; exact id, fun d => by rw [h]; exact id,
    fun n => .inl (by rw [h]), hn⟩

theorem Mended.refl (w : World) : Mended env S w w := .of_view rfl List.prefix_rfl

theorem Mended.trans (h : Mended env S w w') (h' : Mended env S w' w'') : Mended env S w w'' := by
  refine ⟨fun n => (h'.containers n).trans (h.containers n),
    fun n hn => h'.layers n (h.layers n hn), fun d hd => h'.verified d (h.verified d hd),
    fun n => ?_, h.net.trans h'.net⟩
  rcases h'.manifests n with he | hv
  · rw [he]
    exact (h.manifests n).imp_right fun ⟨d, hn, hv⟩ => ⟨d, hn, h'.verified d hv⟩
  · exact .inr hv

theorem Filled.mended {P : Bytes → Prop} (h : Filled env S P w w')
    (hn : answers w.net <+: answers w'.net) : Mended env S w w' := by
  refine ⟨fun n => h.others _ n (by simp), fun n hn => ?_,
    fun d hd => hd.of_eq (h.others _ _ (by simp)), fun n => .inl (h.others _ n (by simp)), hn⟩
  rcases h.layers n with he | ⟨-, -, -, t, ht, hdir, -⟩
  · obtain ⟨m, kids, hv⟩ := hn
    exact ⟨m, kids, he.trans hv⟩
  · exact hasLayer_of_isDir ht hdir

theorem Unfinished.mended {reference : Reference} (h : Unfinished env S reference w w')
    (hn : answers w.net <+: answers w'.net) : Mended env S w w' := by
  rcases h with hv | ⟨_, _, -, -, hf⟩
  · exact .of_view hv hn
  · exact hf.mended hn

/-- A fetch that verifies what is saved. -/
theorem ImageFetched.verifiedAt {reference : Reference} {f : FetchedManifest}
    (h : ImageFetched env slack S reference true f w w') :
    VerifiedAt env (view S w'.root) f.digest := by
  obtain ⟨bytes, hb, hv, -⟩ := h.saved
  exact ⟨bytes, hb, hv rfl⟩

theorem ImageFetched.mended {reference : Reference} {f : FetchedManifest} (hr : AtRest S w)
    (h : ImageFetched env slack S reference true f w w') : Mended env S w w' := by
  refine ⟨h.fetching.containers,
    fun n hn => hr.dirs h.fetching.grows h.fetching.rest.temporary _ hn, fun d hd => ?_,
    fun n => ?_, ?_⟩
  · by_cases he : d = f.digest
    · exact he ▸ h.verifiedAt
    · exact hd.of_eq (h.manifests _ fun hn => he (manifestName_inj.mp hn))
  · by_cases hn : n = manifestName f.digest
    · exact .inr ⟨f.digest, hn, h.verifiedAt⟩
    · exact .inl (h.manifests n hn)
  · obtain ⟨l, w₁, -, hl, l', hl', -⟩ := h.answers
    rw [hl', hl, List.append_assoc]
    exact List.prefix_append _ _

/-! ## The containers -/

/-- A manifest that verifies has been fetched, by answers in the log, for what the container
    names, and is saved under the digest it was received with. -/
def MendedFor (env : Env) (S : Place) (n : Bytes) (w w' : World) : Prop :=
  ∃ text reference pre l post f, (view S w.root).digestText n = some text ∧
    (view S w.root).storedReference env n = some reference ∧
    Fetched env { reference with specifier := .digest (Text.trim text) } l f ∧
    answers w'.net = answers w.net ++ (pre ++ l ++ post) ∧
    ChainedTo env (Text.trim text) f.bytes ∧ VerifiedAt env (view S w'.root) f.digest

theorem MendedFor.later (h : MendedFor env S n w w') (h' : Mended env S w' w'') :
    MendedFor env S n w w'' := by
  obtain ⟨text, reference, pre, l, post, f, ht, href, hf, ha, hc, hv⟩ := h
  obtain ⟨more, hmore⟩ := h'.net
  refine ⟨text, reference, pre, l, post ++ more, f, ht, href, hf, ?_, hc, h'.verified _ hv⟩
  rw [← hmore, ha]
  simp

theorem MendedFor.earlier (h : Mended env S w w') (h' : MendedFor env S n w' w'') :
    MendedFor env S n w w'' := by
  obtain ⟨text, reference, pre, l, post, f, ht, href, hf, ha, hv⟩ := h'
  obtain ⟨more, hmore⟩ := h.net
  rw [digestText_of_eq (h.containers n)] at ht
  rw [Store.storedReference, h.containers n] at href
  refine ⟨text, reference, more ++ pre, l, post, f, ht, href, hf, ?_, hv⟩
  rw [ha, ← hmore]
  simp

/-- A file read in an installed container. -/
theorem kid_of_container {a data : Bytes} (hS : PlainPlace S) (hl : Layout S w.root)
    (hf : (view S w.root).FileContainers) (hc : (view S w.root).HasContainer n) (ha : Plain a)
    (h : Posix.read w.root (((storeAt S).containerPath n).join a) = .ok data) :
    ((view S w.root .containers n).bind fun t => (t.kid a).bind fileData) = some data := by
  obtain ⟨m, kids, hv⟩ := hc
  have hdir : w.root.DirAt (entryPlace S .containers n) := ⟨m, kids, hv⟩
  have hn : Plain n := hl.name .containers n fun hnone => by
    rw [view, find_eq_none_iff.mp hnone] at hv
    cases hv
  refine kid_of_read ha hf ?_ hdir h
  rw [containerPath_storeAt hn]
  exact walk_dirAt hdir ((plain_tablePlace hS _).snoc hn) _

theorem ends_repairContainer [StatAnswers env] {client : RegistryClient} (hS : PlainPlace S)
    (hr : AtRest S w) (hf : (view S w.root).FileContainers) (hc : (view S w.root).HasContainer n) :
    Ends (machine env) (fun _ => True)
      (fun _ w' => AtRest S w' ∧ Mended env S w w' ∧ MendedFor env S n w w')
      (fun _ w' => Mended env S w w') (repairContainer env (storeAt S) client n) w := by
  have h₀ : True ∧ Mended env S w w := ⟨trivial, .refl w⟩
  rw [repairContainer]
  refine ends_bind (ends_of_ensures_and (ensures_withContext.mpr
    (ensures_readContainerManifestDigest h₀))) ?_
  rintro digest w' - ⟨rfl, text, htext, -, -, rfl⟩
  refine ends_bind (ends_of_ensures_and (ensures_withContext.mpr
    (ensures_readContainerReference h₀))) ?_
  rintro reference w₁ - ⟨rfl, bytes, href, hparse⟩
  have hfetch : EndsUnder (machine env) (fun _ => True) (fun _ => True)
      (fun r w' => ImageFetched env ⟨True, True, True⟩ S
        { reference with specifier := .digest (Text.trim text) } true r.1 w₁ w')
      (fun _ w' => Unfinished env S { reference with specifier := .digest (Text.trim text) } w₁ w')
      (client.fetchImage env (storeAt S)
        { reference with specifier := .digest (Text.trim text) } true) w₁ :=
    endsUnder_fetchImage hS hr (fun _ _ => .inl trivial) fun _ _ => trivial
  refine ends_bind (ends_mapError.mpr (ends_mono (ends_logged (endsUnder_true.mp hfetch))
    (fun _ h => h) (fun _ _ _ h => h.1) fun _ _ _ h => h.1.mended (h.2.filterMap answer))) ?_
  rintro ⟨f, client'⟩ w₂ - h
  obtain ⟨l, w₃, hfetched, hl, l', hl', -⟩ := h.answers
  refine ends_ok trivial ⟨h.fetching.rest, h.mended hr, text, reference, [], l, l', f,
    kid_of_container hS hr.layout hf hc plain_digestFile htext, ?_, hfetched, ?_,
    hfetched.chained rfl, h.verifiedAt⟩
  swap
  · rw [hl', hl]
    simp
  have hdata := kid_of_container hS hr.layout hf hc plain_referenceFile href
  rw [← Option.bind_assoc] at hdata
  rw [Store.storedReference, hdata]
  exact hparse

/-! ## The manifests -/

/-- A manifest file verifies under its name, parses, and all its layers are there. -/
def SoundAt (env : Env) (S : Place) (x : Node) (digest : Bytes) : Prop :=
  ∃ bytes manifest, (view S x).manifestBytes digest = some bytes ∧
    Verifies env.hash bytes digest ∧ parseManifest env bytes = some manifest ∧
    ∀ layer ∈ manifest.layers, isDirPath x ((storeAt S).layerPath layer.digest) = true

/-- No layer is counted only if none is missing. -/
theorem ensures_countLayers {digest : Bytes} {missing : Nat} {layers : List Descriptor} :
    Ensures (machine env) (Same w)
      (fun missing' w' => Same w w' ∧ (missing' = 0 → missing = 0 ∧ ∀ layer ∈ layers,
        isDirPath w.root ((storeAt S).layerPath layer.digest) = true))
      (Prog.fold (countMissing (storeAt S) digest) missing layers) w := by
  refine ensures_mono (ensures_fold (K := fun count todo w' => Same w w' ∧ (count = 0 →
      missing = 0 ∧ ∃ done, layers = done ++ todo ∧ ∀ layer ∈ done,
        isDirPath w.root ((storeAt S).layerPath layer.digest) = true)) (fun _ _ _ h => h.1) ?_
    layers missing w ⟨.refl w, fun h => ⟨h, [], rfl, by simp⟩⟩) (fun _ h => h) ?_
  · rintro count layer todo w₁ ⟨hs₁, hcount⟩
    rw [countMissing]
    refine ensures_bind (ensures_getLayerPath hs₁) ?_
    rintro found w₂ - ⟨rfl, ⟨rfl, hd⟩ | ⟨rfl, -⟩⟩
    · rw [hs₁.root] at hd
      refine ensures_ok hs₁ ⟨hs₁, fun hzero => ?_⟩
      obtain ⟨hm, done, hdone, hall⟩ := hcount hzero
      refine ⟨hm, done ++ [layer], by simp [hdone], fun l hl => ?_⟩
      rcases List.mem_append.mp hl with hl | hl
      · exact hall l hl
      · exact List.mem_singleton.mp hl ▸ hd
    · refine ensures_bind (P := fun _ w₃ => Same w w₃)
        (ensures_eprintln hs₁ fun w₃ hs _ => ⟨hs₁.trans hs, hs₁.trans hs⟩) ?_
      rintro - w₃ h₃ -
      exact ensures_ok h₃ ⟨h₃, by simp⟩
  · rintro count w' - ⟨hs, hcount⟩
    refine ⟨hs, fun hzero => ?_⟩
    obtain ⟨hm, done, hdone, hall⟩ := hcount hzero
    obtain rfl : layers = done := by simpa using hdone
    exact ⟨hm, hall⟩

/-- A manifest is not counted only if it is sound. -/
theorem ensures_checkSound {counts : Nat × Nat} (hS : PlainPlace S) (hl : Layout S w.root)
    (hd : Plain (manifestName d)) :
    Ensures (machine env) (Same w)
      (fun counts' w' => Same w w' ∧ (counts' = (0, 0) → counts = (0, 0) ∧
        SoundAt env S w.root d))
      (checkManifest env (storeAt S) counts d) w := by
  rw [checkManifest]
  refine ensures_bind (ensures_withContext.mpr (ensures_readManifestBytes (.refl w))) ?_
  rintro bytes w' - ⟨rfl, hb⟩
  rw [read_manifestPath hS hl hd] at hb
  have print {m : Msg} {e : Err} : Ensures (machine env) (Same w')
      (fun counts' w'' => Same w' w'' ∧ (counts' = (0, 0) → counts = (0, 0) ∧
        SoundAt env S w'.root d))
      (do eprintError m e; return (counts.1 + 1, counts.2)) w' := by
    refine ensures_bind (P := fun _ w₁ => Same w' w₁)
      (ensures_eprintError (.refl w') fun w₁ hs _ => ⟨hs, hs⟩) ?_
    rintro - w₁ h₁ hs
    exact ensures_ok h₁ ⟨hs, by simp⟩
  split
  · exact print
  rename_i hver
  split
  · exact print
  rename_i manifest hm
  refine ensures_bind ensures_countLayers ?_
  rintro missing w₁ h₁ ⟨hs, hmissing⟩
  refine ensures_ok h₁ ⟨hs, fun hzero => ?_⟩
  obtain ⟨hfirst, hsecond⟩ := Prod.mk.inj hzero
  obtain ⟨hcount, hall⟩ := hmissing hsecond
  exact ⟨Prod.ext hfirst hcount, bytes, manifest, hb, hver, hm, hall⟩

/-! ## The whole command -/

/-- After a repair that ends well. -/
structure Repaired (env : Env) (S : Place) (w w' : World) : Prop where
  mended : Mended env S w w'
  sound : ∀ n m data, view S w'.root .manifests n = some (.leaf (.file m data)) →
    ∃ d, n = manifestName d ∧ SoundAt env S w'.root d
  containers : ∀ n, (view S w.root).HasContainer n → MendedFor env S n w w'

/-- The first loop: each container has been fetched. -/
theorem ends_repairContainers [StatAnswers env] {it : Iter Bytes} {m : Msg} (hS : PlainPlace S)
    (hr : AtRest S w)
    (hf : (view S w.root).FileContainers) (hlist : Listed S .containers w.root it.listing)
    (hitem : it.item = dirItem S .containers "container name {:?} is not valid UTF-8") :
    Ends (machine env) (fun _ => True)
      (fun _ w' => AtRest S w' ∧ Mended env S w w' ∧
        ∀ n, (view S w.root).HasContainer n → MendedFor env S n w w')
      (fun _ w' => Mended env S w w')
      (it.tryFold m RegistryClient.new (repairContainer env (storeAt S))) w := by
  refine ends_mono (ends_tryFold (K := fun _ rest w₁ => AtRest S w₁ ∧ Mended env S w w₁ ∧
    (∀ n ∈ rest, Plain n) ∧ ∀ n ∈ it.listing.names, n ∉ rest →
      (view S w.root).HasContainer n → MendedFor env S n w w₁)
    (fun _ _ _ _ => trivial) ?_ (fun _ _ _ h => h.2.1)
    ⟨hr, .refl w, fun n hn => (hlist.sound n hn).2, fun n h h' => absurd h h'⟩) (fun _ h => h) ?_
    fun _ _ _ h => h
  · rintro client name rest w₁ ⟨hr₁, hm₁, hplain, hdone⟩
    have hplain' : ∀ n ∈ rest, Plain n := fun n hn => hplain n (by simp [hn])
    have has (n : Bytes) : (view S w₁.root).HasContainer n ↔ (view S w.root).HasContainer n := by
      rw [Store.HasContainer, hm₁.containers n, Store.HasContainer]
    rw [hitem]
    refine ends_bind (ends_mapError.mpr (ends_of_ensures_and
      (ensures_dirItem hS hr₁.layout (hplain name (by simp)) ⟨trivial, hm₁⟩))) ?_
    rintro found w₂ - ⟨rfl, ⟨rfl, hc⟩ | ⟨rfl, hnot⟩⟩
    · have hf₂ : (view S w₂.root).FileContainers := fun n t ht =>
        hf n t ((hm₁.containers n).symm.trans ht)
      refine ends_mono (ends_repairContainer hS hr₁ hf₂ hc) (fun _ h => h) ?_
        fun _ _ _ h => hm₁.trans h
      rintro client' w₃ - ⟨hr₃, hm₃, hname⟩
      refine ⟨hr₃, hm₁.trans hm₃, hplain', fun n hn hrest hn' => ?_⟩
      by_cases he : n = name
      · exact he ▸ hname.earlier hm₁
      · exact (hdone n hn (by simp [he, hrest]) hn').later hm₃
    · refine ends_ok trivial ⟨hr₁, hm₁, hplain', fun n hn hrest hn' => ?_⟩
      refine hdone n hn (fun h => ?_) hn'
      rcases List.mem_cons.mp h with rfl | h
      · exact hnot inferInstance ((has n).mpr hn')
      · exact hrest h
  · rintro client w₁ - ⟨⟨hr₁, hm₁, -, hdone⟩, hb⟩
    refine ⟨hr₁, hm₁, fun n hn => ?_⟩
    obtain ⟨m, kids, hv⟩ := hn
    exact hdone n (hlist.whole hb n (by rw [hv]; rfl)) (by simp) ⟨m, kids, hv⟩

/-- The second loop: where nothing is counted, every manifest file is sound. -/
theorem ends_checkManifests [StatAnswers env] {it : Iter Bytes} {m : Msg} (hS : PlainPlace S)
    (hl : Layout S w.root) (hlist : Listed S .manifests w.root it.listing)
    (hitem : it.item = fileItem S .manifests (readManifestName S)) :
    Ends (machine env) (fun _ => True)
      (fun counts w' => Same w w' ∧ (counts = (0, 0) → ∀ n m data,
        view S w.root .manifests n = some (.leaf (.file m data)) →
          ∃ d, n = manifestName d ∧ SoundAt env S w.root d))
      (fun _ w' => Same w w') (it.tryFold m (0, 0) (checkManifest env (storeAt S))) w := by
  refine ends_mono (ends_tryFold (K := fun counts rest w₁ => Same w w₁ ∧
    (∀ n ∈ rest, Plain n) ∧ (counts = (0, 0) → ∀ n ∈ it.listing.names, n ∉ rest → ∀ m data,
      view S w.root .manifests n = some (.leaf (.file m data)) →
        ∃ d, n = manifestName d ∧ SoundAt env S w.root d))
    (fun _ _ _ _ => trivial) ?_ (fun _ _ _ h => h.1)
    ⟨.refl w, fun n hn => (hlist.sound n hn).2, fun _ n h h' => absurd h h'⟩) (fun _ h => h) ?_
    fun _ _ _ h => h
  · rintro counts name rest w₁ ⟨hs₁, hplain, hdone⟩
    have hplain' : ∀ n ∈ rest, Plain n := fun n hn => hplain n (by simp [hn])
    have hl₁ : Layout S w₁.root := hs₁.root ▸ hl
    rw [hitem]
    refine ends_bind (ends_mapError.mpr (ends_of_ensures_and (ensures_fileItem hS hl₁
      (hplain name (by simp)) ⟨trivial, hs₁⟩ (ensures_readManifestName ⟨trivial, hs₁⟩)))) ?_
    rintro found w₂ - ⟨rfl, ⟨d, rfl, rfl, -⟩ | ⟨rfl, hnot⟩⟩
    · refine ends_mono (ends_of_ensures (H := fun _ w' => Same w w') (ensures_checkSound hS hl₁
        (hplain _ (by simp))) fun _ _ hs => hs₁.trans hs) (fun _ _ => trivial) ?_ fun _ _ _ h => h
      rintro counts' w₃ - ⟨hs, hcounts⟩
      refine ⟨hs₁.trans hs, hplain', fun hzero n hn hrest m data hv => ?_⟩
      obtain ⟨hzero', hsound⟩ := hcounts hzero
      by_cases he : n = manifestName d
      · rw [hs₁.root] at hsound
        exact ⟨d, he, hsound⟩
      · exact hdone hzero' n hn (by simp [he, hrest]) m data hv
    · refine ends_ok trivial ⟨hs₁, hplain', fun hzero n hn hrest m data hv => ?_⟩
      refine hdone hzero n hn (fun h => ?_) m data hv
      rcases List.mem_cons.mp h with rfl | h
      · rw [hs₁.root] at hnot
        exact hnot inferInstance ⟨m, data, hv⟩
      · exact hrest h
  · rintro counts w₁ - ⟨⟨hs₁, -, hdone⟩, hb⟩
    exact ⟨hs₁, fun hzero n m data hv =>
      hdone hzero n (hlist.whole hb n (by rw [hv]; rfl)) (by simp) m data hv⟩

theorem ends_repair [StatAnswers env] (hS : PlainPlace S) (hr : AtRest S w)
    (hf : (view S w.root).FileContainers) :
    Ends (machine env) (fun _ => True) (fun _ w' => Repaired env S w w')
      (fun _ w' => Mended env S w w') (repair env (storeAt S)) w := by
  rw [repair]
  refine ends_bind (ends_of_ensures_and (ensures_readContainers hS hr.layout
    ⟨trivial, .refl w⟩)) ?_
  rintro it w' - ⟨rfl, hlist, hitem⟩
  refine ends_bind (ends_repairContainers hS hr hf hlist hitem) ?_
  rintro client w₁ - ⟨hr₁, hm₁, hnames⟩
  refine ends_bind (ends_of_ensures_and (ensures_readManifestDigests hS hr₁.layout
    ⟨trivial, hm₁⟩)) ?_
  rintro it₁ w₂ - ⟨rfl, hlist₁, hitem₁⟩
  have later {w₃ : World} (h : Same w₂ w₃) (hn : w₂.net <+: w₃.net) : Mended env S w' w₃ :=
    hm₁.trans (.of_view (by rw [h.root]) (hn.filterMap answer))
  refine ends_bind (ends_mono (ends_logged (ends_checkManifests hS hr₁.layout hlist₁ hitem₁))
    (fun _ h => h) (fun _ _ _ h => h) fun _ _ _ h => later h.1 h.2) ?_
  rintro counts w₃ - ⟨⟨hs₃, hsound⟩, hn₃⟩
  split
  · exact ends_error trivial (later hs₃ hn₃)
  rename_i hzero
  have hzero : counts = (0, 0) := by
    obtain ⟨a, b⟩ := counts
    simp only [not_or, not_lt, Nat.le_zero] at hzero
    rw [hzero.1, hzero.2]
  refine ends_of_noError (noError_call _) (ensures_eprintln trivial fun w₄ hs hn => ⟨trivial, ?_⟩)
  have hs₄ := hs₃.trans hs
  have hn₄ : w₂.net <+: w₄.net := hn₃.trans (by rw [hn])
  refine ⟨later hs₄ hn₄, fun n m data hv => ?_, fun n hn => (hnames n hn).later
    (.of_view (by rw [hs₄.root]) (hn₄.filterMap answer))⟩
  rw [hs₄.root] at hv ⊢
  exact hsound hzero n m data hv

/-- From a store in which manifests may be missing or corrupt and layers missing, `repair`
    changes no container, loses no layer and no manifest that verifies, and writes manifests that
    verify only. If it ends well, every manifest saved verifies, parses and has all its layers;
    and for every container a manifest is saved that has been fetched for the digest it names. -/
theorem repair_outcome [StatAnswers env] {res : Except Err Unit} (hS : PlainPlace S)
    (hr : AtRest S w) (hf : (view S w.root).FileContainers)
    (hx : Exec (machine env) (repair env (storeAt S)) w (some res) w') :
    Mended env S w w' ∧ (res = .ok () → Repaired env S w w') := by
  have hres := (wp_exec (ends_repair hS hr hf) hx).2 res rfl
  cases res with
  | ok u => exact ⟨hres.mended, fun _ => hres⟩
  | error e => exact ⟨hres, by simp⟩

namespace Damaged

open TwoLayers
open FirstFetch (place)

/-- One container, a manifest file that does not verify under the digest it names, and one of
    the two layers. -/
def store : World :=
  ⟨.dir newDir [(utf8 "s", .dir newDir [(utf8 "temporary", .dir newDir []),
    (utf8 "manifests", .dir newDir
      [(manifestName manifestDigest, .leaf (.file newFile (utf8 "no document")))]),
    (utf8 "layers", .dir newDir [(firstDigest, .dir newDir [])]),
    (utf8 "containers", .dir newDir [(utf8 "web", .dir newDir
      [(digestFile, .leaf (.file newFile manifestDigest)),
        (referenceFile, .leaf (.file newFile (prettyReference reference.serialize)))])])])],
    [], [], []⟩

theorem atRest : AtRest place store :=
  ⟨⟨layout_of_isLayout (by decide +kernel), _, _, rfl⟩, cleared_of_get rfl⟩

theorem files : (view place store.root).FileContainers := by
  refine fileContainers_of_get rfl fun e he => ?_
  obtain rfl := List.mem_singleton.mp he
  refine ⟨_, _, rfl, fun f hf => ?_⟩
  rcases List.mem_cons.mp hf with rfl | hf
  · exact ⟨_, _, rfl⟩
  · obtain rfl := List.mem_singleton.mp hf
    exact ⟨_, _, rfl⟩

def repairRun : Option (Except Err Unit) × World :=
  (script second.text).replay twoLayers (repair twoLayers (storeAt place)) store

theorem exec_repairRun : Exec (machine twoLayers) (repair twoLayers (storeAt place)) store
    repairRun.1 repairRun.2 := Script.exec_replay _ _ _ _

end Damaged

open TwoLayers Damaged in
theorem repair_outcome_damaged :
    Repaired twoLayers FirstFetch.place Damaged.store repairRun.2 ∧
    ((view FirstFetch.place repairRun.2.root .layers secondDigest).map FileTree.isDir) =
      some true := by
  have h : repairRun.1 = some (.ok ()) ∧
      ((view FirstFetch.place repairRun.2.root .layers secondDigest).map FileTree.isDir) =
        some true := by decide +kernel
  exact ⟨(repair_outcome FirstFetch.plain_place Damaged.atRest Damaged.files
    (exec_of_fst_eq exec_repairRun h.1)).2 rfl, h.2⟩

end Pakstak
