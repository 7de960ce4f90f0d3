/-
  What `update` leaves, for every order of the containers and however it ends.

  `Updated` relates the state before to any later one: a container is as it was, or its digest
  is the one fetched for the reference it is stored with (`FetchedFor`). One turn of the loop
  keeps it (`endsUnder_updateContainer`), so the run does (`endsUnder_updateAll`).

  Proved: `update_outcome`, for any answers of the environment (its `stat` answering), when no
  argument that is no name leads to a container that was not asked for. Names are not checked,
  so one may (`update_rewrites_other`).
-/
import Pakstak.Installing

namespace Pakstak

open Posix Prog FileTree RegistryClient

variable {env : Env} {I C : World → Prop} {S c : Place} {slack : Slack} {w w' w'' : World}
  {T : Bytes → Prop} {n d : Bytes}

/-! ## What is fetched for a container -/

/-- The reference in `reference.json` of a container. -/
def Store.storedReference (env : Env) (s : Store) (n : Bytes) : Option Reference :=
  (((s .containers n).bind fun t => t.kid referenceFile).bind fileData).bind fun bytes =>
    (env.fromSlice bytes).bind Reference.deserialize

/-- The manifest `digest` has been fetched for the reference of a container, and is saved. -/
structure FetchedFor (env : Env) (S : Place) (n digest : Bytes) (w w' : World) : Prop where
  fetched : ∃ reference pre l post f, (view S w.root).storedReference env n = some reference ∧
    Fetched env reference l f ∧ f.digest = digest ∧
    answers w'.net = answers w.net ++ (pre ++ l ++ post)
  saved : (view S w'.root).manifestBytes digest ≠ none

/-- What an update may have changed in the store, where it may change the containers of
    which `T` holds. -/
structure Updated (env : Env) (S : Place) (T : Bytes → Prop) (w w' : World) : Prop where
  containers : ∀ n, view S w'.root .containers n = view S w.root .containers n ∨
    T n ∧ ∃ t digest, FetchedFor env S n digest w w' ∧ view S w.root .containers n = some t ∧
      view S w'.root .containers n =
        some (t.setKid digestFile (some (.leaf (.file newFile digest))))
  manifests : ∀ d bytes, (view S w.root).manifestBytes d = some bytes →
    (view S w'.root).manifestBytes d = some bytes
  added : ∀ d, (view S w.root).manifestBytes d = none →
    (view S w'.root).manifestBytes d = none ∨ Saved env (view S w'.root) d
  layers : ∀ n, (view S w.root).HasLayer n → (view S w'.root).HasLayer n
  net : answers w.net <+: answers w'.net

theorem Updated.of_view (h : view S w'.root = view S w.root)
    (hn : answers w.net <+: answers w'.net) : Updated env S T w w' :=
  ⟨fun n => .inl (by rw [h]), fun _ _ => by rw [h]; exact id, fun _ hd => .inl (by rw [h, hd]),
    fun _ => by rw [h]; exact id, hn⟩

theorem Updated.refl (w : World) : Updated env S T w w := .of_view rfl List.prefix_rfl

theorem Updated.of_same (h : Same w w') (hn : w'.net = w.net) : Updated env S T w w' :=
  .of_view (by rw [h.root]) (by rw [hn])

/-- The references are not touched. -/
theorem Updated.reference (h : Updated env S T w w') (n : Bytes) :
    ((view S w'.root .containers n).bind fun t => t.kid referenceFile) =
      (view S w.root .containers n).bind fun t => t.kid referenceFile := by
  rcases h.containers n with he | ⟨-, t, digest, -, ht, ht'⟩
  · rw [he]
  · rw [ht, ht', Option.bind_some, Option.bind_some,
      kid_setKid_of_ne _ (by decide +kernel : referenceFile ≠ digestFile)]

theorem Updated.storedReference (h : Updated env S T w w') (n : Bytes) :
    (view S w'.root).storedReference env n = (view S w.root).storedReference env n := by
  rw [Store.storedReference, h.reference n, Store.storedReference]

theorem Updated.files (h : Updated env S T w w') (hf : (view S w.root).FileContainers) :
    (view S w'.root).FileContainers := by
  intro n t ht
  rcases h.containers n with he | ⟨-, t₀, digest, -, ht₀, ht₁⟩
  · exact hf n t (he ▸ ht)
  · obtain ⟨hdir, hkids⟩ := hf n t₀ ht₀
    obtain rfl := Option.some.inj (ht₁.symm.trans ht)
    refine ⟨by rw [isDir_setKid, hdir], fun a u hu => ?_⟩
    rw [kid_setKid _ hdir] at hu
    split at hu
    · exact ⟨_, _, (Option.some.inj hu).symm⟩
    · exact hkids a u hu

theorem FetchedFor.later (h : FetchedFor env S n d w w')
    (hm : ∀ d bytes, (view S w'.root).manifestBytes d = some bytes →
      (view S w''.root).manifestBytes d = some bytes)
    (hn : answers w'.net <+: answers w''.net) : FetchedFor env S n d w w'' := by
  obtain ⟨reference, pre, l, post, f, href, hf, hd, ha⟩ := h.fetched
  obtain ⟨more, hmore⟩ := hn
  obtain ⟨bytes, hb⟩ := Option.ne_none_iff_exists'.mp h.saved
  refine ⟨⟨reference, pre, l, post ++ more, f, href, hf, hd, ?_⟩, ?_⟩
  · rw [← hmore, ha]
    simp
  · rw [hm d bytes hb]
    simp

theorem FetchedFor.earlier (h : Updated env S T w w') (h' : FetchedFor env S n d w' w'') :
    FetchedFor env S n d w w'' := by
  obtain ⟨reference, pre, l, post, f, href, hf, hd, ha⟩ := h'.fetched
  obtain ⟨more, hmore⟩ := h.net
  refine ⟨⟨reference, more ++ pre, l, post, f, (h.storedReference n).symm.trans href, hf, hd, ?_⟩,
    h'.saved⟩
  rw [ha, ← hmore]
  simp

theorem FetchedFor.wellFormed (h : FetchedFor env S n d w w') : WellFormed d := by
  obtain ⟨_, _, _, _, _, -, hf, rfl, -⟩ := h.fetched
  obtain ⟨-, -, hver⟩ := hf.parsed
  exact wellFormed_of_verifies hver

/-- A digest set once more. -/
theorem Updated.set {t : Node} (h : Updated env S T w w') (hT : T n)
    (hf : FetchedFor env S n d w w'') (ht : view S w'.root .containers n = some t)
    (hs : view S w''.root .containers n =
      some (t.setKid digestFile (some (.leaf (.file newFile d))))) :
    T n ∧ ∃ t digest, FetchedFor env S n digest w w'' ∧ view S w.root .containers n = some t ∧
      view S w''.root .containers n =
        some (t.setKid digestFile (some (.leaf (.file newFile digest)))) := by
  refine ⟨hT, ?_⟩
  rcases h.containers n with he | ⟨-, t₀, _, -, ht₀, hs₀⟩
  · exact ⟨t, d, hf, he.symm.trans ht, hs⟩
  · obtain rfl := Option.some.inj (hs₀.symm.trans ht)
    exact ⟨t₀, d, hf, ht₀, by rw [hs, setKid_setKid]⟩

theorem Updated.trans (h : Updated env S T w w') (h' : Updated env S T w' w'') :
    Updated env S T w w'' := by
  refine ⟨fun n => ?_, fun d bytes hb => h'.manifests d bytes (h.manifests d bytes hb),
    fun d hd => ?_, fun n hn => h'.layers n (h.layers n hn), h.net.trans h'.net⟩
  · rcases h'.containers n with he' | ⟨hT, t', digest', hf', ht', hs'⟩
    · rw [he']
      exact (h.containers n).imp_right fun ⟨hT, t, digest, hf, ht, hs⟩ =>
        ⟨hT, t, digest, hf.later h'.manifests h'.net, ht, hs⟩
    · exact .inr (h.set hT (hf'.earlier h) ht' hs')
  · rcases h.added d hd with hn | hs
    · exact h'.added d hn
    · obtain ⟨bytes, manifest, hb, hv, hm⟩ := hs
      exact .inr ⟨bytes, manifest, h'.manifests d bytes hb, hv, hm⟩

/-- The container names a manifest fetched for it. -/
def UpToDate (env : Env) (S : Place) (n : Bytes) (w w' : World) : Prop :=
  ∃ text, (view S w'.root).digestText n = some text ∧ FetchedFor env S n (Text.trim text) w w'

theorem UpToDate.earlier (h : Updated env S T w w') (h' : UpToDate env S n w' w'') :
    UpToDate env S n w w'' := by
  obtain ⟨text, ht, hf⟩ := h'
  exact ⟨text, ht, hf.earlier h⟩

theorem upToDate_of_set {t : Node} (ht : t.isDir) (hf : FetchedFor env S n d w w')
    (hs : view S w'.root .containers n =
      some (t.setKid digestFile (some (.leaf (.file newFile d))))) : UpToDate env S n w w' := by
  refine ⟨d, ?_, (trim_of_wellFormed hf.wellFormed).symm ▸ hf⟩
  rw [Store.digestText, hs, Option.bind_some, kid_setKid _ ht, if_pos rfl]
  rfl

/-- Another turn may fetch another manifest for it. -/
theorem UpToDate.later (h : UpToDate env S n w w') (h₀ : Updated env S T w w')
    (h' : Updated env S T w' w'') : UpToDate env S n w w'' := by
  obtain ⟨text, ht, hf⟩ := h
  rcases h'.containers n with he | ⟨-, t, digest, hf', hv, hv'⟩
  · exact ⟨text, (digestText_of_eq he).trans ht, hf.later h'.manifests h'.net⟩
  · obtain ⟨t', ht', hdir⟩ := isDir_of_digestText ht
    obtain rfl := Option.some.inj (ht'.symm.trans hv)
    exact upToDate_of_set hdir (hf'.earlier h₀) hv'

/-! ## One turn -/

theorem Filled.updated {P : Bytes → Prop} (h : Filled env S P w w')
    (hn : answers w.net <+: answers w'.net) : Updated env S T w w' := by
  have bytes (d : Bytes) : (view S w'.root).manifestBytes d = (view S w.root).manifestBytes d := by
    rw [Store.manifestBytes, h.others _ _ (by simp), Store.manifestBytes]
  refine ⟨fun n => .inl (h.others _ n (by simp)), fun d b hb => (bytes d).trans hb,
    fun d hd => .inl ((bytes d).trans hd), fun n hn => ?_, hn⟩
  rcases h.layers n with he | ⟨-, -, -, t, ht, hdir, -⟩
  · obtain ⟨m, kids, hv⟩ := hn
    exact ⟨m, kids, he.trans hv⟩
  · exact hasLayer_of_isDir ht hdir

theorem Unfinished.updated {reference : Reference} (h : Unfinished env S reference w w')
    (hn : answers w.net <+: answers w'.net) : Updated env S T w w' := by
  rcases h with hv | ⟨_, _, -, -, hf⟩
  · exact .of_view hv hn
  · exact hf.updated hn

theorem ImageFetched.updated {reference : Reference} {f : FetchedManifest} (hr : AtRest S w)
    (h : ImageFetched env slack S reference false f w w') : Updated env S T w w' := by
  have other {d : Bytes} (hd : d ≠ f.digest) :
      (view S w'.root).manifestBytes d = (view S w.root).manifestBytes d := by
    rw [Store.manifestBytes, h.manifests _ fun he => hd (manifestName_inj.mp he),
      Store.manifestBytes]
  refine ⟨fun n => .inl (h.fetching.containers n), fun d bytes hb => ?_, fun d hd => ?_,
    fun n hn => hr.dirs h.fetching.grows h.fetching.rest.temporary _ hn, ?_⟩
  · by_cases he : d = f.digest
    · subst he
      rw [Store.manifestBytes, h.kept rfl (by rw [hb]; simp), ← hb, Store.manifestBytes]
    · exact (other he).trans hb
  · by_cases he : d = f.digest
    · subst he
      exact .inr (h.added hd)
    · exact .inl ((other he).trans hd)
  · obtain ⟨l, w₁, -, hl, l', hl', -⟩ := h.answers
    rw [hl', hl, List.append_assoc]
    exact List.prefix_append _ _

theorem ImageFetched.fetchedFor {reference : Reference} {f : FetchedManifest}
    (h : ImageFetched env slack S reference false f w w')
    (href : (view S w.root).storedReference env n = some reference) :
    FetchedFor env S n f.digest w w' := by
  obtain ⟨l, w₁, hf, hl, l', hl', -⟩ := h.answers
  obtain ⟨bytes, hb, -⟩ := h.saved
  refine ⟨⟨reference, [], l, l', f, href, hf, rfl, ?_⟩, by rw [hb]; simp⟩
  rw [hl', hl]
  simp

/-- The digest fetched for a container is written to it. -/
theorem Updated.publish {digest m : Bytes} (hu : Updated env S T w w') (hd : w'.root.DirAt c)
    (hf : (view S w'.root).FileContainers) (hc : c ≠ tablePlace S .containers)
    (hT : ∀ n, c = entryPlace S .containers n → T n ∧ FetchedFor env S n digest w w')
    (h : Published S c digestFile m (.leaf (.file newFile digest)) w' w'') :
    Updated env S T w w'' := by
  have hm (d bytes : Bytes) (hb : (view S w'.root).manifestBytes d = some bytes) :
      (view S w''.root).manifestBytes d = some bytes := (h.manifestBytes hd d).trans hb
  have hn : answers w'.net <+: answers w''.net := by
    rw [show w''.net = w'.net from congrArg (fun a => a.2.1) h.placed.aside]
  refine ⟨fun n => ?_, fun d b hb => hm d b (hu.manifests d b hb), fun d hd' => ?_,
    fun n hl => h.hasLayer hd (hu.layers n hl), hu.net.trans hn⟩
  · rcases h.containers hd hf hc n with he | ⟨he, t, ht, hs⟩
    · rw [he]
      exact (hu.containers n).imp_right fun ⟨hT, t, digest, hf, ht, hs⟩ =>
        ⟨hT, t, digest, hf.later hm hn, ht, hs⟩
    · exact .inr (hu.set (hT n he).1 ((hT n he).2.later hm hn) ht hs)
  · refine (hu.added d hd').imp (fun h' => (h.manifestBytes hd d).trans h') fun h' => ?_
    obtain ⟨bytes, manifest, hb, hv, hp⟩ := h'
    exact ⟨bytes, manifest, hm d bytes hb, hv, hp⟩

/-- A turn that ends well. -/
structure Refreshed (env : Env) (S : Place) (T : Bytes → Prop) (container : Bytes) (w w' : World) :
    Prop where
  updated : Updated env S T w w'
  rest : AtRest S w'
  installed : isDirPath w.root ((storeAt S).containerPath container) = true
  current : ∀ n, walk w.root ((storeAt S).containerPath container) =
    .ok (entryPlace S .containers n) → UpToDate env S n w w'

theorem Refreshed.same {container : Bytes} (h : Refreshed env S T container w w')
    (hs : Same w' w'') (hn : w''.net = w'.net) : Refreshed env S T container w w'' :=
  ⟨h.updated.trans (.of_same hs hn), h.rest.same hs, h.installed, fun n hw =>
    (h.current n hw).later h.updated (.of_same (T := T) hs hn)⟩

theorem endsUnder_updateContainer [StatAnswers env] {client : RegistryClient} {container : Bytes}
    (hS : PlainPlace S) (hr : AtRest S w) (hf : (view S w.root).FileContainers)
    (hT : ∀ n, walk w.root ((storeAt S).containerPath container) =
      .ok (entryPlace S .containers n) → T n) :
    EndsUnder (machine env) C (fun _ => True) (fun _ w' => Refreshed env S T container w w')
      (fun _ w' => Updated env S T w w')
      (updateContainer env (storeAt S) client container) w := by
  -- what does not change the store
  have still {w₁ : World} (h : Updated env S T w w₁) : True ∧ Updated env S T w w₁ := ⟨trivial, h⟩
  rw [updateContainer]
  refine endsUnder_bind (endsUnder_of (ends_of_ensures_and
    (ensures_ensureContainerInstalled (still (.refl w))))) ?_
  rintro - w' - - ⟨rfl, hinstalled⟩
  refine endsUnder_bind (endsUnder_of (ends_of_ensures_and
    (ensures_readContainerReference (still (.refl _))))) ?_
  rintro reference w₁ - - ⟨rfl, bytes, href, hparse⟩
  obtain ⟨c, hw, hc⟩ := isDirPath_iff_walk.mp hinstalled
  have hoff := off_of_reference hr.cleared hw hc href
  have stored {n : Bytes} (hn : c = entryPlace S .containers n) :
      (view S w₁.root).storedReference env n = some reference := by
    subst hn
    have hdata := kid_of_read plain_referenceFile hf hw hc href
    rw [← Option.bind_assoc] at hdata
    rw [Store.storedReference, hdata]
    exact hparse
  have hfetches : EndsUnder (machine env) C (fun _ => True)
      (fun r w' => ImageFetched env ⟨True, True, True⟩ S reference false r.1 w₁ w')
      (fun _ w' => Unfinished env S reference w₁ w')
      (client.fetchImage env (storeAt S) reference false) w₁ :=
    endsUnder_fetchImage hS hr (fun _ _ => .inl trivial) fun _ _ => trivial
  refine endsUnder_bind (endsUnder_mapError.mpr (endsUnder_mono (endsUnder_logged hfetches)
    (fun _ h => h) (fun _ _ _ h => h) fun _ _ _ h => h.1.updated (h.2.filterMap answer))) ?_
  rintro ⟨f, client'⟩ w₂ - - hfetch
  have hu₂ : Updated env S T w₁ w₂ := hfetch.updated hr
  have hr₂ := hfetch.fetching.rest
  have hdirs := hr.dirs hfetch.fetching.grows hr₂.temporary
  have hc₂ : w₂.root.DirAt c := hdirs c hc
  have hw₂ : walk w₂.root ((storeAt S).containerPath container) = .ok c :=
    walk_mono hdirs (hr.links hfetch.fetching.grows) hw hc
  refine endsUnder_bind (endsUnder_of (ends_of_ensures_and
    (ensures_readContainerManifestDigest (still hu₂)))) ?_
  rintro current w₃ - - ⟨rfl, text, htext, -, -, rfl⟩
  -- a message ends the turn
  have print {w₄ : World} {m : Msg} (h : Refreshed env S T container w₁ w₄) :
      EndsUnder (machine env) C (fun _ => True) (fun _ w' => Refreshed env S T container w₁ w')
        (fun _ w' => Updated env S T w₁ w') (do eprintln m; return client') w₄ := by
    refine endsUnder_bind (endsUnder_of (ends_of_ensures_and
      (P := fun _ w₅ => Refreshed env S T container w₁ w₅)
      (ensures_eprintln (still h.updated) fun w₅ hs hn =>
        ⟨still (h.same hs hn).updated, h.same hs hn⟩))) ?_
    rintro - w₅ - - h₅
    exact endsUnder_ok trivial h₅
  have fetched {n : Bytes} (hn : c = entryPlace S .containers n) :
      FetchedFor env S n f.digest w₁ w₃ := hfetch.fetchedFor (stored hn)
  -- the container that the argument leads to
  have led {n : Bytes} (hn : walk w₁.root ((storeAt S).containerPath container) =
      .ok (entryPlace S .containers n)) : c = entryPlace S .containers n :=
    Except.ok.inj (hw.symm.trans hn)
  split
  · rename_i hcur
    refine print ⟨hu₂, hr₂, hinstalled, fun n hn => ⟨text, ?_, hcur ▸ fetched (led hn)⟩⟩
    obtain rfl := led hn
    exact kid_of_read plain_digestFile (hu₂.files hf) hw₂ hc₂ htext
  · have hne := ne_containers_of_reference hr.layout hc hf hw href
    refine endsUnder_bind (endsUnder_of (ends_mapError.mpr (ends_mono (ends_publishDigest
      (I := fun _ => True) hS hr₂ hw₂ hc₂ hoff (fun _ _ => trivial) fun _ _ => trivial)
      (fun _ h => h) (fun _ _ _ h => h) fun _ w₄ _ hk => hu₂.trans (.of_view
        (hr₂.toReady.still hk).view ?_)))) ?_
    · rw [show w₄.net = w₃.net from congrArg (fun a => a.2.1) (hr₂.toReady.still hk).aside]
    rintro - w₄ - - hpub
    have hu₄ := hu₂.publish hc₂ (hu₂.files hf) hne (fun n hn => ⟨hT n (hn ▸ hw), fetched hn⟩) hpub
    refine print ⟨hu₄, ⟨⟨hpub.layout hr₂.layout, hpub.placed.temporary⟩,
      hpub.cleared (hr₂.cleared.but _)⟩, hinstalled, fun n hn => ?_⟩
    obtain rfl := led hn
    obtain ⟨m, kids, hv⟩ := hc₂
    have hset := hpub.set
    rw [show view S w₃.root .containers n = some (.dir m kids) from hv, Option.map_some] at hset
    refine upToDate_of_set rfl ((fetched rfl).later (fun d b hb => ?_) ?_) hset
    · exact (hpub.manifestBytes ⟨m, kids, hv⟩ d).trans hb
    · rw [show w₄.net = w₃.net from congrArg (fun a => a.2.1) hpub.placed.aside]

/-! ## Every order of the containers -/

/-- The turn of an argument came, in a state that satisfies `C`. -/
structure Attended (env : Env) (S : Place) (C : World → Prop) (container : Bytes)
    (w w' : World) : Prop where
  turn : ∃ w₁, C w₁ ∧ isDirPath w₁.root ((storeAt S).containerPath container) = true ∧
    ∀ n, walk w₁.root ((storeAt S).containerPath container) = .ok (entryPlace S .containers n) →
      UpToDate env S n w w'
  named : Plain container → UpToDate env S container w w'

theorem Attended.later {container : Bytes} (h : Attended env S C container w w')
    (h₀ : Updated env S T w w') (h' : Updated env S T w' w'') :
    Attended env S C container w w'' := by
  obtain ⟨w₁, hC, hd, hcur⟩ := h.turn
  exact ⟨⟨w₁, hC, hd, fun n hn => (hcur n hn).later h₀ h'⟩, fun hp => (h.named hp).later h₀ h'⟩

theorem Refreshed.attended {container : Bytes} (hS : PlainPlace S) (hr : AtRest S w') (hC : C w')
    (hu : Updated env S T w w') (h : Refreshed env S T container w' w'') :
    Attended env S C container w w'' := by
  refine ⟨⟨w', hC, h.installed, fun n hn => (h.current n hn).earlier hu⟩, fun hp => ?_⟩
  obtain ⟨c, hw, -⟩ := isDirPath_iff_walk.mp h.installed
  obtain rfl := walk_container hS hr.layout hp hw
  exact (h.current container hw).earlier hu

theorem endsUnder_updateAll [StatAnswers env] {names : List Bytes} (hS : PlainPlace S)
    (hr : AtRest S w) (hf : (view S w.root).FileContainers)
    (hT : ∀ w₁, C w₁ → Layout S w₁.root → ∀ a ∈ names, ∀ n,
      walk w₁.root ((storeAt S).containerPath a) = .ok (entryPlace S .containers n) → T n) :
    EndsUnder (machine env) C (fun _ => True)
      (fun _ w' => Updated env S T w w' ∧ ∀ a ∈ names, Attended env S C a w w')
      (fun _ w' => Updated env S T w w')
      (do
        let _ ← Prog.fold (updateContainer env (storeAt S)) RegistryClient.new
          (← hashOrder names)) w := by
  refine endsUnder_bind (endsUnder_of (ends_of_ensures_and (P := fun order w' => w' = w ∧
    ∀ a, a ∈ order ↔ a ∈ names) (ensures_hashOrder ⟨trivial, .refl w⟩ fun order ho =>
      ⟨rfl, fun a => ho.mem_iff.trans List.mem_dedup⟩))) ?_
  rintro order w' - - ⟨rfl, horder⟩
  refine endsUnder_bind (endsUnder_fold (K := fun _ rest w₁ => AtRest S w₁ ∧
    Updated env S T w' w₁ ∧ (∀ a ∈ rest, a ∈ names) ∧
    ∀ a ∈ order, a ∉ rest → Attended env S C a w' w₁) (fun _ _ _ _ => trivial) ?_ order _ w'
    ⟨hr, .refl w', fun a ha => (horder a).mp ha, fun a ha hn => absurd ha hn⟩)
    fun _ w₁ _ _ h => endsUnder_ok trivial ⟨h.2.1, fun a ha =>
      h.2.2.2 a ((horder a).mpr ha) (by simp)⟩
  rintro client name rest w₁ hC ⟨hr₁, hu₁, hrest, hdone⟩
  refine endsUnder_mono (endsUnder_updateContainer hS hr₁ (hu₁.files hf) fun n hn =>
    hT w₁ hC hr₁.layout name (hrest name (by simp)) n hn) (fun _ h => h) ?_
    fun _ _ _ h => hu₁.trans h
  rintro client' w₂ - h
  refine ⟨h.rest, hu₁.trans h.updated, fun a ha => hrest a (by simp [ha]), fun a ha hn => ?_⟩
  by_cases he : a = name
  · subst he
    exact h.attended hS hr₁ hC hu₁
  · exact (hdone a ha (by simp [he, hn])).later hu₁ h.updated

/-- A container that an update is asked for: all of them are, or its name is an argument. -/
def Requested (containers : List Bytes) (n : Bytes) : Prop := containers = [] ∨ n ∈ containers

/-- No argument that is no name leads, in a state of the run, to a container that the update
    is not asked for. -/
def LeadsToRequested (env : Env) (S : Place) (containers : List Bytes) (w : World) : Prop :=
  ∀ a ∈ containers, ¬ Plain a → ∀ w₁ n,
    Exec (machine env) (update env (storeAt S) containers) w none w₁ →
    walk w₁.root ((storeAt S).containerPath a) = .ok (entryPlace S .containers n) →
    Requested containers n

/-- What holds after an update that succeeds. -/
structure AllUpdated (env : Env) (S : Place) (C : World → Prop) (containers : List Bytes)
    (w w' : World) : Prop where
  arguments : ∀ a ∈ containers, Attended env S C a w w'
  installed : containers = [] → ∀ n m kids, view S w.root .containers n = some (.dir m kids) →
    UpToDate env S n w w'

theorem endsUnder_update [StatAnswers env] {containers : List Bytes} (hS : PlainPlace S)
    (hr : AtRest S w) (hf : (view S w.root).FileContainers) (hT₀ : containers = [] → ∀ n, T n)
    (hT : ∀ w₁, C w₁ → Layout S w₁.root → ∀ a ∈ containers, ∀ n,
      walk w₁.root ((storeAt S).containerPath a) = .ok (entryPlace S .containers n) → T n) :
    EndsUnder (machine env) C (fun _ => True)
      (fun _ w' => Updated env S T w w' ∧ AllUpdated env S C containers w w')
      (fun _ w' => Updated env S T w w') (update env (storeAt S) containers) w := by
  have h₀ : True ∧ Updated env S T w w := ⟨trivial, .refl w⟩
  rw [update]
  split
  · rename_i hnil
    refine endsUnder_bind (endsUnder_of (ends_of_ensures_and
      (ensures_readContainers hS hr.layout h₀))) ?_
    rintro it w' - - ⟨rfl, hlist, hitem⟩
    refine endsUnder_bind (endsUnder_of (ends_of_ensures_and
      (ensures_collectContainers hS hr.layout hlist hitem h₀))) ?_
    rintro names w₁ - - ⟨rfl, hnames, hall⟩
    refine endsUnder_mono (endsUnder_updateAll hS hr hf fun _ _ _ _ _ n _ => hT₀ hnil n)
      (fun _ h => h) (fun _ w₂ _ h => ⟨h.1, by simp [hnil], fun _ n m kids hv => ?_⟩)
      fun _ _ _ h => h
    have hn := hall inferInstance n m kids hv
    exact (h.2 n hn).named (hnames n hn)
  · rename_i hne
    exact endsUnder_mono (endsUnder_updateAll hS hr hf hT) (fun _ h => h)
      (fun _ _ _ h => ⟨h.1, h.2, fun h => absurd h hne⟩) fun _ _ _ h => h

/-- However an update ends, a container that it was asked for names what it named before or the
    manifest fetched for its reference; nothing else that was there has changed or gone. If it
    succeeds, every container that it was asked for names the manifest fetched for it. -/
theorem update_outcome [StatAnswers env] {containers : List Bytes} {res : Except Err Unit}
    (hS : PlainPlace S) (hr : AtRest S w) (hf : (view S w.root).FileContainers)
    (hled : LeadsToRequested env S containers w)
    (hx : Exec (machine env) (update env (storeAt S) containers) w (some res) w') :
    Updated env S (Requested containers) w w' ∧
    (∀ n, ((view S w'.root .containers n).bind fun t => t.kid referenceFile) =
      (view S w.root .containers n).bind fun t => t.kid referenceFile) ∧
    (res = .ok () → AllUpdated env S
      (fun w₁ => Exec (machine env) (update env (storeAt S) containers) w none w₁)
      containers w w') := by
  let seen (w₁ : World) : Prop :=
    Exec (machine env) (update env (storeAt S) containers) w none w₁
  -- an argument that is a name leads to the container of that name
  have requested (w₁ : World) (hx₁ : seen w₁) (hl₁ : Layout S w₁.root) (a : Bytes)
      (ha : a ∈ containers) (n : Bytes)
      (hn : walk w₁.root ((storeAt S).containerPath a) = .ok (entryPlace S .containers n)) :
      Requested containers n := by
    by_cases hp : Plain a
    · have he := walk_container hS hl₁ hp hn
      rw [entryPlace, entryPlace] at he
      obtain ⟨-, hna⟩ := List.append_inj' he rfl
      cases hna
      exact .inr ha
    · exact hled a ha hp w₁ n hx₁ hn
  have h : EndsUnder (machine env) seen _ _ _ (update env (storeAt S) containers) w :=
    endsUnder_update (T := Requested containers) hS hr hf (fun hnil _ => .inl hnil) requested
  have hend := (wp_exec h (exec_under hx fun _ h => h)).2 res rfl
  cases res with
  | ok u =>
    obtain ⟨hu, hall⟩ := hend (exec_seen hx)
    exact ⟨hu, hu.reference, fun _ => hall⟩
  | error e =>
    have hu := hend (exec_seen hx)
    exact ⟨hu, hu.reference, by simp⟩

theorem fileContainers_of_get {x : Node} {m : Meta} {kids : List (Bytes × Node)}
    (h : x.get (tablePlace S .containers) = some (.dir m kids))
    (hk : ∀ e ∈ kids, ∃ m' files, e.2 = .dir m' files ∧
      ∀ f ∈ files, ∃ m'' data, f.2 = .leaf (.file m'' data)) : (view S x).FileContainers := by
  intro n t ht
  have hkid : (FileTree.dir m kids).kid n = some t := by
    rw [view, entryPlace, get_append_of_some h, get_cons] at ht
    cases hn : (FileTree.dir m kids).kid n with
    | none => simp [hn] at ht
    | some u => simpa [hn] using ht
  obtain ⟨m', files, rfl, hf⟩ := hk _ (mem_of_kid hkid)
  exact ⟨rfl, fun a u hu => hf _ (mem_of_kid hu)⟩

namespace OneContainer

open FirstFetch (place plain_place)

/-- A container stored with a reference that is pinned to the empty manifest. -/
def reference : Reference := TwoKinds.reference emptyManifestDigest

def oneContainer : Env := smallEnv [emptyManifest,
  ⟨prettyReference reference.serialize, [], some reference.serialize⟩]

instance : StatAnswers oneContainer := ⟨fun _ _ h => h⟩

/-- It names a manifest that is not there any more. -/
def store : World :=
  ⟨.dir newDir [(utf8 "s", .dir newDir [(utf8 "temporary", .dir newDir []),
    (utf8 "containers", .dir newDir [(utf8 "web", .dir newDir
      [(digestFile, .leaf (.file newFile manifestAndIndexDigest)),
        (referenceFile, .leaf (.file newFile (prettyReference reference.serialize)))])])])],
    [], [], []⟩

theorem atRest : AtRest place store :=
  ⟨⟨layout_of_isLayout (by decide +kernel), _, _, rfl⟩, cleared_of_get rfl⟩

theorem files : (view place store.root).FileContainers := by
  refine fileContainers_of_get rfl fun e he => ?_
  obtain rfl := List.mem_singleton.mp he
  refine ⟨_, _, rfl, fun f hf => ?_⟩
  rcases List.mem_cons.mp hf with rfl | hf
  · exact ⟨_, _, rfl⟩
  · obtain rfl := List.mem_singleton.mp hf
    exact ⟨_, _, rfl⟩

end OneContainer

namespace Outdated

open TwoLayers
open FirstFetch (place plain_place)

/-- A container of the image that names another manifest. -/
def container : Node := .dir newDir
  [(digestFile, .leaf (.file newFile emptyManifestDigest)),
    (referenceFile, .leaf (.file newFile (prettyReference reference.serialize)))]

/-- Two of them, the manifest they name, and the first layer of the image. -/
def store : World :=
  ⟨.dir newDir [(utf8 "s", .dir newDir [(utf8 "temporary", .dir newDir []),
    (utf8 "containers", .dir newDir [(utf8 "db", container), (utf8 "web", container)]),
    (utf8 "manifests", .dir newDir
      [(manifestName emptyManifestDigest, .leaf (.file newFile emptyManifest.text))]),
    (utf8 "layers", .dir newDir [(firstDigest, .dir newDir [])])])], [], [], []⟩

theorem atRest : AtRest place store :=
  ⟨⟨layout_of_isLayout (by decide +kernel), _, _, rfl⟩, cleared_of_get rfl⟩

theorem files : (view place store.root).FileContainers := by
  refine fileContainers_of_get rfl fun e he => ?_
  have hdir : e.2 = container := by
    rcases List.mem_cons.mp he with rfl | he
    · rfl
    · obtain rfl := List.mem_singleton.mp he
      rfl
  refine ⟨_, _, hdir, fun f hf => ?_⟩
  rcases List.mem_cons.mp hf with rfl | hf
  · exact ⟨_, _, rfl⟩
  · obtain rfl := List.mem_singleton.mp hf
    exact ⟨_, _, rfl⟩

def updateRun (a : Bytes) : Option (Except Err Unit) × World :=
  (script second.text).replay twoLayers (update twoLayers (storeAt place) [a]) store

theorem exec_updateRun (a : Bytes) : Exec (machine twoLayers)
    (update twoLayers (storeAt place) [a]) store (updateRun a).1 (updateRun a).2 :=
  Script.exec_replay _ _ _ _

/-- A path that leads to a container. -/
def astray : Bytes := utf8 "../containers/web"

/-- What the two runs compute. -/
structure Evaluated : Prop where
  named : (updateRun (utf8 "web")).1 = some (.ok ())
  led : (updateRun astray).1 = some (.ok ())
  before : (view place store.root).digestText (utf8 "web") = some emptyManifestDigest
  after : (view place (updateRun astray).2.root).digestText (utf8 "web") = some manifestDigest

theorem evaluated : Evaluated := by constructor <;> decide +kernel

end Outdated

open Outdated TwoLayers in
/-- One container is updated, and the other is as it was. -/
theorem update_outcome_web :
    UpToDate twoLayers FirstFetch.place (utf8 "web") Outdated.store
        (updateRun (utf8 "web")).2 ∧
      view FirstFetch.place (updateRun (utf8 "web")).2.root .containers (utf8 "db") =
        view FirstFetch.place Outdated.store.root .containers (utf8 "db") := by
  have hplain : Plain (utf8 "web") := by decide +kernel
  have hother : utf8 "db" ≠ utf8 "web" := by decide +kernel
  obtain ⟨hu, -, hall⟩ := update_outcome FirstFetch.plain_place Outdated.atRest Outdated.files
    (fun a ha hp => absurd (List.mem_singleton.mp ha ▸ hplain) hp)
    (exec_of_fst_eq (exec_updateRun (utf8 "web")) evaluated.named)
  refine ⟨((hall rfl).arguments _ (by simp)).named hplain, ?_⟩
  exact (hu.containers _).resolve_right fun h => by simp [Requested, hother] at h

open Outdated TwoLayers in
/-- An argument that is no name leads to a container that is not asked for, and the update
    rewrites it. -/
theorem update_rewrites_other :
    (¬ ∀ (env : Env) (S : Place) (containers : List Bytes) (w w' : World), PlainPlace S →
      AtRest S w → (view S w.root).FileContainers →
      Exec (machine env) (update env (storeAt S) containers) w (some (.ok ())) w' →
      ∀ n, ¬ Requested containers n →
        view S w'.root .containers n = view S w.root .containers n) ∧
    Exec (machine twoLayers) (update twoLayers (storeAt FirstFetch.place) [astray]) Outdated.store
      (some (.ok ())) (updateRun astray).2 ∧
    (view FirstFetch.place Outdated.store.root).digestText (utf8 "web") =
      some emptyManifestDigest ∧
    (view FirstFetch.place (updateRun astray).2.root).digestText (utf8 "web") =
      some manifestDigest := by
  have hx := exec_of_fst_eq (exec_updateRun astray) evaluated.led
  refine ⟨fun h => ?_, hx, evaluated.before, evaluated.after⟩
  have hother : utf8 "web" ≠ astray := by decide +kernel
  have hsame := h _ _ _ _ _ FirstFetch.plain_place Outdated.atRest Outdated.files hx (utf8 "web")
    (by simp [Requested, hother])
  have hdigest := (digestText_of_eq hsame).trans evaluated.before
  rw [evaluated.after, Option.some.injEq] at hdigest
  exact absurd hdigest (by decide +kernel)

end Pakstak
