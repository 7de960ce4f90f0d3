/-
  How `install` and `switch` end.

  A command that fails has changed no container: manifests and layers may have come (`Grown`).
  One that succeeds has made or changed the one container it was asked for, and that names the
  manifest fetched.

  Proved, for any answers of the environment (its `stat` answering): `install_outcome`,
  `switch_outcome`.
-/
import Pakstak.Surveying
import Pakstak.Updating

namespace Pakstak

open Posix Prog FileTree RegistryClient

variable {env : Env} {I C : World → Prop} {S c : Place} {slack : Slack} {w w' w'' : World}
  {n d : Bytes}

/-- Manifests that verify and layers may have come; no container has changed. -/
abbrev Grown (env : Env) (S : Place) : World → World → Prop := Updated env S fun _ => False

theorem Grown.containers (h : Grown env S w w') (n : Bytes) :
    view S w'.root .containers n = view S w.root .containers n :=
  (h.1 n).resolve_right fun h => h.1

theorem Grown.of_still (h : Still S w w') : Grown env S w w' :=
  .of_view h.view (by rw [show w'.net = w.net from congrArg (fun a => a.2.1) h.aside])

/-- Fetching an image, for any answers: it ends as `ImageFetched` says, or grown. -/
theorem ends_fetchImage [StatAnswers env] {client : RegistryClient} {reference : Reference}
    (hS : PlainPlace S) (hr : AtRest S w) :
    Ends (machine env) (fun _ => True)
      (fun r w' => ImageFetched env ⟨True, True, True⟩ S reference false r.1 w w')
      (fun _ w' => Grown env S w w')
      (client.fetchImage env (storeAt S) reference false) w := by
  have h : EndsUnder (machine env) (fun _ => True) (fun _ => True)
      (fun r w' => ImageFetched env ⟨True, True, True⟩ S reference false r.1 w w')
      (fun _ w' => Unfinished env S reference w w')
      (client.fetchImage env (storeAt S) reference false) w :=
    endsUnder_fetchImage hS hr (fun _ _ => .inl trivial) fun _ _ => trivial
  refine endsUnder_true.mp (endsUnder_mono (endsUnder_logged h) (fun _ h => h)
    (fun _ _ _ h => h) fun _ _ _ h => h.1.updated (h.2.filterMap answer))

/-! ## Install -/

/-- After an install that ends well. -/
structure InstalledAs (env : Env) (S : Place) (container image : Bytes) (w w' : World) : Prop where
  name : validateContainerName container = .ok ()
  free : ¬ (view S w.root).HasContainer container
  /-- The container names the manifest fetched for the image, which is saved; unless it was
      saved before, it verifies and all its layers are there. -/
  fetched : ∃ reference f l post t, Reference.parse image = .ok reference ∧
    Fetched env reference l f ∧ answers w'.net = answers w.net ++ (l ++ post) ∧
    view S w'.root .containers container = some t ∧ IsContainer env f.digest reference t ∧
    (view S w'.root).manifestBytes f.digest ≠ none ∧
    ((view S w.root).manifestBytes f.digest ≠ none ∨ Saved env (view S w'.root) f.digest ∧
      ∀ layer ∈ f.manifest.layers,
        isDirPath w'.root ((storeAt S).layerPath layer.digest) = true)
  others : ∀ n, n ≠ container → view S w'.root .containers n = view S w.root .containers n
  manifests : ∀ d bytes, (view S w.root).manifestBytes d = some bytes →
    (view S w'.root).manifestBytes d = some bytes
  added : ∀ d, (view S w.root).manifestBytes d = none →
    (view S w'.root).manifestBytes d = none ∨ Saved env (view S w'.root) d
  layers : ∀ n, (view S w.root).HasLayer n → (view S w'.root).HasLayer n

/-- The container made, after the image has been fetched. -/
theorem installedAs {container image : Bytes} {reference : Reference} {f : FetchedManifest}
    {t : Node} (hr : AtRest S w) (hname : validateContainerName container = .ok ())
    (hfree : ¬ (view S w.root).HasContainer container)
    (hparse : Reference.parse image = .ok reference)
    (hf : ImageFetched env slack S reference false f w w')
    (hc : IsContainer env f.digest reference t) (hadv : Advanced S .containers container t w' w'') :
    InstalledAs env S container image w w'' := by
  have hu : Grown env S w w' := hf.updated hr
  have hnet : w''.net = w'.net := congrArg (fun a => a.2.1) hadv.becomes.aside
  have bytes (d : Bytes) : (view S w''.root).manifestBytes d =
      (view S w'.root).manifestBytes d := by
    rw [hadv.becomes.view]
    exact manifestBytes_of_eq (Store.set_of_ne_kind (by simp))
  have saved {d : Bytes} (h : Saved env (view S w'.root) d) : Saved env (view S w''.root) d := by
    rw [hadv.becomes.view]
    exact h.of_eq (Store.set_of_ne_kind (by simp))
  have dirs := hf.fetching.rest.dirs hadv.grows hadv.rest.temporary
  refine ⟨hname, hfree, ?_, fun n hn => ?_, fun d b hb => (bytes d).trans (hu.manifests d b hb),
    fun d hd => ?_, fun n hn => dirs _ (hu.layers n hn)⟩
  · obtain ⟨l, w₁, hfetched, hl, l', hl', -⟩ := hf.answers
    obtain ⟨b, hb, -⟩ := hf.saved
    refine ⟨reference, f, l, l', t, hparse, hfetched, by rw [hnet, hl', hl, List.append_assoc],
      by rw [hadv.becomes.view, Store.set_same], hc, by rw [bytes, hb]; simp, ?_⟩
    by_cases hold : (view S w.root).manifestBytes f.digest = none
    · refine .inr ⟨saved (hf.added hold), fun layer hlayer => ?_⟩
      have hdir := (hf.layers.resolve_left fun h => by
        rw [hold] at h
        simp at h) layer hlayer
      obtain ⟨c, hw, hd⟩ := isDirPath_iff_walk.mp hdir
      exact isDirPath_iff_walk.mpr
        ⟨c, walk_mono dirs (hf.fetching.rest.links hadv.grows) hw hd, dirs c hd⟩
    · exact .inl hold
  · rw [hadv.becomes.view, Store.set_of_ne fun h => hn h.2]
    exact hu.containers n
  · exact (hu.added d hd).imp (fun h => (bytes d).trans h) saved

theorem ends_install [StatAnswers env] {container image : Bytes} (hS : PlainPlace S)
    (hr : AtRest S w) :
    Ends (machine env) (fun _ => True) (fun _ w' => InstalledAs env S container image w w')
      (fun _ w' => Grown env S w w') (install env (storeAt S) container image) w := by
  have h₀ : True ∧ Grown env S w w := ⟨trivial, .refl w⟩
  rw [install]
  refine ends_bind (ends_of_ensures_and (P := fun _ w' => w' = w ∧
    validateContainerName container = .ok ()) (ensures_lift h₀ fun _ ha => ⟨rfl, ha⟩)) ?_
  rintro - w' - ⟨rfl, hname⟩
  have hn := plain_of_validateContainerName hname
  refine ends_bind (ends_of_ensures_and (P := fun b w₁ => w₁ = w' ∧
    b = isDirPath w'.root ((storeAt S).containerPath container))
    (ensures_pathIsDir h₀ ⟨rfl, rfl⟩ statFails_elim)) ?_
  rintro taken w₁ - ⟨rfl, htaken⟩
  have hiff : isDirPath w₁.root ((storeAt S).containerPath container) = true ↔
      (view S w₁.root).HasContainer container := by
    rw [containerPath_storeAt hn]
    exact isDirPath_entry hS hr.layout hn
  split
  · exact ends_error trivial (.refl w₁)
  rename_i hfree
  rw [htaken, hiff] at hfree
  refine ends_bind (ends_of_ensures_and (P := fun reference w' => w' = w₁ ∧
    Reference.parse image = .ok reference) (ensures_withContext.mpr
      (ensures_lift h₀ fun a ha => ⟨rfl, ok_of_mapError ha⟩))) ?_
  rintro reference w' - ⟨rfl, hparse⟩
  refine ends_bind (ends_fetchImage hS hr) ?_
  rintro ⟨f, client⟩ w₂ - hf
  have hu₂ : Grown env S w' w₂ := hf.updated hr
  refine ends_bind (ends_mapError.mpr (ends_mono (ends_writeContainer (I := fun _ => True) hS hn
    hf.fetching.rest (fun _ _ => trivial) fun _ _ _ _ => trivial) (fun _ h => h)
    (fun _ _ _ h => h) fun _ w₃ _ hq => hu₂.trans (Grown.of_still hq.still))) ?_
  rintro - w₃ - ⟨t, hc, hadv⟩
  have hdone := installedAs hr hname hfree hparse hf hc hadv
  refine ends_of_noError (noError_call _) (ensures_eprintln trivial fun w₄ hs hnet => ⟨trivial, ?_⟩)
  obtain ⟨reference, f, l, post, t, hp, hf, hl, hv, hc, hb, hlayers⟩ := hdone.fetched
  rw [← hs.root] at hv hb hlayers
  rw [← hnet] at hl
  exact ⟨hdone.name, hdone.free, ⟨reference, f, l, post, t, hp, hf, hl, hv, hc, hb, hlayers⟩,
    hs.root ▸ hdone.others, hs.root ▸ hdone.manifests, hs.root ▸ hdone.added,
    hs.root ▸ hdone.layers⟩

/-- An install that fails changes no container. One that succeeds makes the container it is
    asked for, which was not there, and changes no other; it names the manifest fetched for the
    image. -/
theorem install_outcome [StatAnswers env] {container image : Bytes} {res : Except Err Unit}
    (hS : PlainPlace S) (hr : AtRest S w)
    (hx : Exec (machine env) (install env (storeAt S) container image) w (some res) w') :
    match res with
    | .error _ => Grown env S w w'
    | .ok () => InstalledAs env S container image w w' := by
  have hres := (wp_exec (ends_install hS hr) hx).2 res rfl
  cases res with
  | ok u => exact hres
  | error e => exact hres

namespace TwoLayers

open FirstFetch (place)

/-- The image installed as `web` in a store that has its first layer. -/
def installed : Option (Except Err Unit) × World :=
  (script second.text).replay twoLayers (install twoLayers (storeAt place) (utf8 "web") image) store

theorem exec_installed : Exec (machine twoLayers)
    (install twoLayers (storeAt place) (utf8 "web") image) store installed.1 installed.2 :=
  Script.exec_replay _ _ _ _

end TwoLayers

open TwoLayers in
theorem install_outcome_web :
    InstalledAs twoLayers FirstFetch.place (utf8 "web") image store installed.2 ∧
    ((view FirstFetch.place installed.2.root .layers secondDigest).map FileTree.isDir) =
      some true := by
  have h : installed.1 = some (.ok ()) ∧
      ((view FirstFetch.place installed.2.root .layers secondDigest).map FileTree.isDir) =
        some true := by decide +kernel
  exact ⟨install_outcome FirstFetch.plain_place TwoLayers.atRest
    (exec_of_fst_eq exec_installed h.1), h.2⟩

/-! ## Switch -/

/-- The manifest `digest` has been fetched for a container, by the reference it is stored with;
    what was fetched is saved, under the digest it was received with. -/
def PinnedFor (env : Env) (S : Place) (n digest : Bytes) (w w' : World) : Prop :=
  ∃ reference f l post, (view S w.root).storedReference env n = some reference ∧
    Fetched env { reference with specifier := .digest digest } l f ∧
    ChainedTo env digest f.bytes ∧ answers w'.net = answers w.net ++ (l ++ post) ∧
    (view S w'.root).manifestBytes f.digest ≠ none

/-- After a switch that ends well. -/
structure SwitchedTo (env : Env) (S : Place) (container digest : Bytes) (w w' : World) :
    Prop where
  installed : isDirPath w.root ((storeAt S).containerPath container) = true
  formed : WellFormed digest
  containers : ∀ n, view S w'.root .containers n = view S w.root .containers n ∨
    walk w.root ((storeAt S).containerPath container) = .ok (entryPlace S .containers n) ∧
      ∃ t, view S w.root .containers n = some t ∧ view S w'.root .containers n =
        some (t.setKid digestFile (some (.leaf (.file newFile digest))))
  current : ∀ n, walk w.root ((storeAt S).containerPath container) =
    .ok (entryPlace S .containers n) →
      (view S w'.root).digestText n = some digest ∧ PinnedFor env S n digest w w'
  manifests : ∀ d bytes, (view S w.root).manifestBytes d = some bytes →
    (view S w'.root).manifestBytes d = some bytes
  added : ∀ d, (view S w.root).manifestBytes d = none →
    (view S w'.root).manifestBytes d = none ∨ Saved env (view S w'.root) d
  layers : ∀ n, (view S w.root).HasLayer n → (view S w'.root).HasLayer n

theorem SwitchedTo.same {container digest : Bytes} (h : SwitchedTo env S container digest w w')
    (hs : Same w' w'') (hn : w''.net = w'.net) : SwitchedTo env S container digest w w'' := by
  refine ⟨h.installed, h.formed, hs.root ▸ h.containers, fun n hw => ?_, hs.root ▸ h.manifests,
    hs.root ▸ h.added, hs.root ▸ h.layers⟩
  obtain ⟨htext, hpin⟩ := h.current n hw
  rw [PinnedFor, hn, hs.root]
  exact ⟨htext, hpin⟩

theorem ends_switch [StatAnswers env] {container digest : Bytes} (hS : PlainPlace S)
    (hr : AtRest S w) (hf : (view S w.root).FileContainers) :
    Ends (machine env) (fun _ => True) (fun _ w' => SwitchedTo env S container digest w w')
      (fun _ w' => Grown env S w w') (switch env (storeAt S) container digest) w := by
  have h₀ : True ∧ Grown env S w w := ⟨trivial, .refl w⟩
  rw [switch]
  refine ends_bind (ends_of_ensures_and (ensures_ensureContainerInstalled h₀)) ?_
  rintro - w' - ⟨rfl, hinstalled⟩
  refine ends_bind (ends_of_ensures_and (ensures_withContext.mpr
    (ensures_readContainerReference h₀))) ?_
  rintro reference w₁ - ⟨rfl, bytes, href, hparse⟩
  obtain ⟨c, hw, hc⟩ := isDirPath_iff_walk.mp hinstalled
  have hoff := off_of_reference hr.cleared hw hc href
  have hne := ne_containers_of_reference hr.layout hc hf hw href
  refine ends_bind (ends_mapError.mpr (ends_fetchImage hS hr)) ?_
  rintro ⟨f, client⟩ w₂ - hfetch
  have hu₂ : Grown env S w₁ w₂ := hfetch.updated hr
  have hr₂ := hfetch.fetching.rest
  have hdirs := hr.dirs hfetch.fetching.grows hr₂.temporary
  have hc₂ : w₂.root.DirAt c := hdirs c hc
  have hw₂ : walk w₂.root ((storeAt S).containerPath container) = .ok c :=
    walk_mono hdirs (hr.links hfetch.fetching.grows) hw hc
  obtain ⟨l, _, hfetched, hl, l', hl', -⟩ := hfetch.answers
  have hchain := hfetched.chained rfl
  obtain ⟨b, hb, -⟩ := hfetch.saved
  refine ends_bind (ends_mapError.mpr (ends_mono (ends_publishDigest (I := fun _ => True) hS hr₂
    hw₂ hc₂ hoff (fun _ _ => trivial) fun _ _ => trivial) (fun _ h => h) (fun _ _ _ h => h)
    fun _ w₃ _ hk => hu₂.trans (Grown.of_still (hr₂.toReady.still hk)))) ?_
  rintro - w₃ - hpub
  have hnet : w₃.net = w₂.net := congrArg (fun a => a.2.1) hpub.placed.aside
  have hdone : SwitchedTo env S container digest w₁ w₃ := by
    refine ⟨hinstalled, hchain.wellFormed, fun n => ?_, fun n hn => ?_, fun d b hb => ?_,
      fun d hd => ?_, fun n hn => hpub.hasLayer hc₂ (hu₂.layers n hn)⟩
    · rw [← Grown.containers hu₂ n]
      rcases hpub.containers hc₂ (hu₂.files hf) hne n with h | ⟨he, h⟩
      · exact .inl h
      · exact .inr ⟨he ▸ hw, h⟩
    · obtain rfl : c = entryPlace S .containers n := Except.ok.inj (hw.symm.trans hn)
      obtain ⟨m, kids, hv⟩ := hc₂
      have hset := hpub.set
      rw [show view S w₂.root .containers n = some (.dir m kids) from hv, Option.map_some] at hset
      refine ⟨?_, reference, f, l, l', ?_, hfetched, hchain, ?_, ?_⟩
      · rw [Store.digestText, hset, Option.bind_some, kid_setKid _ rfl, if_pos rfl]
        rfl
      · have hdata := kid_of_read plain_referenceFile hf hw hc href
        rw [← Option.bind_assoc] at hdata
        rw [Store.storedReference, hdata]
        exact hparse
      · rw [hnet, hl', hl, List.append_assoc]
      · rw [hpub.manifestBytes ⟨m, kids, hv⟩, hb]
        simp
    · exact (hpub.manifestBytes hc₂ d).trans (hu₂.manifests d b hb)
    · refine (hu₂.added d hd).imp (fun h => (hpub.manifestBytes hc₂ d).trans h) ?_
      rintro ⟨b, manifest, hb, hv, hm⟩
      exact ⟨b, manifest, (hpub.manifestBytes hc₂ d).trans hb, hv, hm⟩
  exact ends_of_noError (noError_call _) (ensures_eprintln trivial fun w₄ hs hn =>
    ⟨trivial, hdone.same hs hn⟩)

/-- A switch that fails changes no container. One that succeeds changes the container that its
    argument leads to, if any, and no other: it names the digest asked for, and a manifest has
    been fetched that verifies under that digest, or that an index with that digest lists. -/
theorem switch_outcome [StatAnswers env] {container digest : Bytes} {res : Except Err Unit}
    (hS : PlainPlace S) (hr : AtRest S w) (hf : (view S w.root).FileContainers)
    (hx : Exec (machine env) (switch env (storeAt S) container digest) w (some res) w') :
    match res with
    | .error _ => Grown env S w w'
    | .ok () => SwitchedTo env S container digest w w' := by
  have hres := (wp_exec (ends_switch hS hr hf) hx).2 res rfl
  cases res with
  | ok u => exact hres
  | error e => exact hres

namespace Outdated

open TwoLayers
open FirstFetch (place)

def switched : Option (Except Err Unit) × World :=
  (script second.text).replay twoLayers
    (switch twoLayers (storeAt place) (utf8 "web") manifestDigest) store

theorem exec_switched : Exec (machine twoLayers)
    (switch twoLayers (storeAt place) (utf8 "web") manifestDigest) store switched.1 switched.2 :=
  Script.exec_replay _ _ _ _

end Outdated

open Outdated TwoLayers in
/-- One container is switched, and the other is as it was. -/
theorem switch_outcome_web :
    (view FirstFetch.place switched.2.root).digestText (utf8 "web") = some manifestDigest ∧
    view FirstFetch.place switched.2.root .containers (utf8 "db") =
      view FirstFetch.place Outdated.store.root .containers (utf8 "db") := by
  have h : switched.1 = some (.ok ()) := by decide +kernel
  have hweb : walk Outdated.store.root ((storeAt FirstFetch.place).containerPath (utf8 "web")) =
      .ok (entryPlace FirstFetch.place .containers (utf8 "web")) := by decide +kernel
  have hother : utf8 "db" ≠ utf8 "web" := by decide +kernel
  have hdone := switch_outcome FirstFetch.plain_place Outdated.atRest Outdated.files
    (exec_of_fst_eq exec_switched h)
  refine ⟨(hdone.current _ hweb).1, (hdone.containers _).resolve_right ?_⟩
  rintro ⟨hdb, -⟩
  rw [hweb, Except.ok.injEq, entryPlace, entryPlace] at hdb
  obtain ⟨-, hn⟩ := List.append_inj' hdb rfl
  exact hother (List.cons.inj hn).1.symm

end Pakstak
