/-
  What the store is for: a container names a saved manifest, a manifest lists layers that are
  extracted.

  The model here is the tables alone (`Store`), and the changes a command may make to them
  one at a time (`Move`), each with what must be so before it. `Slack` says which of the
  promises are given up; the commands keep all of them but for the cases named there.

  Proved: a move keeps
  * `Tidy`: saved manifests verify and parse, and containers hold files only;
  * `Linked`, without `Slack.unsaved`: every container names a saved manifest;
  * `Complete`, without `Slack.layers` and `Slack.digests`: every layer that a saved manifest
    lists is there, and is the extraction of an archive that verifies.
-/
import Mathlib.Logic.Relation
import Pakstak.View

namespace Pakstak

open Posix FileTree

/-! ## What the tables say -/

/-- The contents of a file. -/
def fileData : Node → Option Bytes
  | .leaf (.file _ data) => some data
  | _ => none

/-- The name of the file of a manifest. -/
def manifestName (digest : Bytes) : Bytes := digest ++ utf8 ".json"

theorem manifestName_inj {d d' : Bytes} : manifestName d = manifestName d' ↔ d = d' :=
  List.append_left_inj _

def digestFile : Bytes := utf8 "manifest_digest"

def referenceFile : Bytes := utf8 "reference.json"

namespace Store

variable (s : Store)

/-- The bytes of the manifest saved under a digest. -/
def manifestBytes (digest : Bytes) : Option Bytes :=
  (s .manifests (manifestName digest)).bind fileData

/-- The text in `manifest_digest` of a container. -/
def digestText (n : Bytes) : Option Bytes :=
  (s .containers n).bind fun t => (t.kid digestFile).bind fileData

/-- A layer is a directory. -/
def HasLayer (n : Bytes) : Prop := ∃ m kids, s .layers n = some (.dir m kids)

/-- Every container is a directory of files. -/
def FileContainers : Prop := ∀ n t, s .containers n = some t → t.isDir ∧
  ∀ a u, t.kid a = some u → ∃ m data, u = .leaf (.file m data)

end Store

variable (env : Env)

/-- A manifest is saved under `digest`, verifies and parses. -/
def Saved (s : Store) (digest : Bytes) : Prop :=
  ∃ bytes manifest, s.manifestBytes digest = some bytes ∧ Verifies env.hash bytes digest ∧
    parseManifest env bytes = some manifest

/-- The container directory as `writeContainer` makes it. -/
structure IsContainer (digest : Bytes) (reference : Reference) (t : Node) : Prop where
  dir : t.isDir
  digest : t.kid digestFile = some (.leaf (.file newFile digest))
  reference : t.kid referenceFile =
    some (.leaf (.file newFile (env.toVecPretty reference.serialize)))
  only : ∀ a u, t.kid a = some u → a = digestFile ∨ a = referenceFile

/-! ## Moves -/

/-- Promises that may be given up. -/
structure Slack where
  /-- A container may come to name a digest whose manifest is not saved. -/
  unsaved : Prop
  /-- What is in the layers may change, and go. -/
  layers : Prop
  /-- A manifest may list layer digests of any form. -/
  digests : Prop

/-- One change of the store. -/
inductive Move (slack : Slack) : Store → Store → Prop
  | saveManifest {s : Store} {digest bytes : Bytes} {manifest : ImageManifest}
      (hv : Verifies env.hash bytes digest) (hm : parseManifest env bytes = some manifest)
      (hl : ∀ layer ∈ manifest.layers, WellFormed layer.digest → s.HasLayer layer.digest)
      (hd : slack.digests ∨ ∀ layer ∈ manifest.layers, WellFormed layer.digest) :
      Move slack s (s.set .manifests (manifestName digest) (some (.leaf (.file newFile bytes))))
  | removeManifest {s : Store} {digest : Bytes}
      (h : ∀ n text, s.digestText n = some text → Text.trim text ≠ digest) :
      Move slack s (s.set .manifests (manifestName digest) none)
  | addLayer {s : Store} {digest : Bytes} {t : Node} (hd : WellFormed digest) (ht : t.isDir)
      (he : Extracted env digest t) : Move slack s (s.set .layers digest (some t))
  | removeLayer {s : Store} {n : Bytes}
      (h : ∀ digest bytes manifest, s.manifestBytes digest = some bytes →
        parseManifest env bytes = some manifest → ∀ layer ∈ manifest.layers, layer.digest ≠ n) :
      Move slack s (s.set .layers n none)
  | addContainer {s : Store} {n digest : Bytes} {reference : Reference} {t : Node}
      (h : Saved env s digest) (ht : IsContainer env digest reference t) :
      Move slack s (s.set .containers n (some t))
  | setDigest {s : Store} {n digest : Bytes} {t : Node} (ht : s .containers n = some t)
      (hd : WellFormed digest) (h : slack.unsaved ∨ Saved env s digest) :
      Move slack s (s.set .containers n
        (some (t.setKid digestFile (some (.leaf (.file newFile digest))))))
  | other {s s' : Store}
      (hm : ∀ n, s' .manifests n = s .manifests n ∨ slack.unsaved ∧ s' .manifests n = none)
      (hc : ∀ n, s' .containers n = s .containers n ∨ s' .containers n = none)
      (hl : slack.layers ∨ ∀ n, s' .layers n = s .layers n) : Move slack s s'

/-! ## Tidy stores -/

/-- Every manifest file is named after a digest its bytes verify under, and parses. Every
    container is a directory of files, one of them the digest of a manifest. -/
structure Tidy (s : Store) : Prop where
  manifest : ∀ n t, s .manifests n = some t → ∃ digest bytes m manifest,
    n = manifestName digest ∧ t = .leaf (.file m bytes) ∧ Verifies env.hash bytes digest ∧
      parseManifest env bytes = some manifest
  container : ∀ n t, s .containers n = some t → t.isDir ∧
    (∀ a u, t.kid a = some u → ∃ m data, u = .leaf (.file m data)) ∧
    ∃ digest, s.digestText n = some digest ∧ WellFormed digest

variable {env} {slack : Slack} {s s' : Store}

theorem Tidy.saved (h : Tidy env s) {digest bytes : Bytes}
    (hb : s.manifestBytes digest = some bytes) : Saved env s digest := by
  obtain ⟨t, ht, hb'⟩ := Option.bind_eq_some_iff.mp hb
  obtain ⟨d, b, m, manifest, hn, rfl, hv, hm⟩ := h.manifest _ _ ht
  cases manifestName_inj.mp hn
  cases hb'
  exact ⟨bytes, manifest, hb, hv, hm⟩

theorem Tidy.files (h : Tidy env s) : s.FileContainers := fun n t ht =>
  ⟨(h.container n t ht).1, (h.container n t ht).2.1⟩

/-- A container's name is taken by a directory. -/
theorem isDir_of_digestText {n text : Bytes} (h : s.digestText n = some text) :
    ∃ t, s .containers n = some t ∧ t.isDir := by
  obtain ⟨t, ht, hk⟩ := Option.bind_eq_some_iff.mp h
  obtain ⟨u, hu, -⟩ := Option.bind_eq_some_iff.mp hk
  exact ⟨t, ht, isDir_of_kid hu⟩

theorem digestText_of_eq {n : Bytes} (h : s' .containers n = s .containers n) :
    s'.digestText n = s.digestText n := by
  rw [Store.digestText, h, Store.digestText]

theorem digestText_set {n : Bytes} {t : Node} :
    (s.set .containers n (some t)).digestText n = (t.kid digestFile).bind fileData := by
  rw [Store.digestText, Store.set_same]
  rfl

theorem IsContainer.files {digest : Bytes} {reference : Reference} {t : Node}
    (h : IsContainer env digest reference t) {a : Bytes} {u : Node} (hu : t.kid a = some u) :
    ∃ m data, u = .leaf (.file m data) := by
  rcases h.only a u hu with rfl | rfl
  · cases h.digest.symm.trans hu
    exact ⟨_, _, rfl⟩
  · cases h.reference.symm.trans hu
    exact ⟨_, _, rfl⟩

theorem IsContainer.text {digest : Bytes} {reference : Reference} {t : Node}
    (h : IsContainer env digest reference t) : (t.kid digestFile).bind fileData = some digest := by
  rw [h.digest]
  rfl

theorem Tidy.move (h : Tidy env s) (hm : Move env slack s s') : Tidy env s' := by
  -- a container that a move leaves alone
  have kept {n : Bytes} {t : Node} (he : s' .containers n = s .containers n)
      (ht : s' .containers n = some t) : t.isDir ∧
      (∀ a u, t.kid a = some u → ∃ m data, u = .leaf (.file m data)) ∧
      ∃ digest, s'.digestText n = some digest ∧ WellFormed digest := by
    rw [digestText_of_eq he]
    exact h.container n t (he ▸ ht)
  cases hm with
  | @saveManifest digest bytes manifest hv hp hl hd =>
    refine ⟨fun n t ht => ?_, fun n t => kept (Store.set_of_ne_kind (by simp))⟩
    by_cases hn : n = manifestName digest
    · rw [hn, Store.set_same, Option.some.injEq] at ht
      exact ⟨digest, bytes, newFile, manifest, hn, ht.symm, hv, hp⟩
    · rw [Store.set_of_ne fun hh => hn hh.2] at ht
      exact h.manifest n t ht
  | @removeManifest digest hr =>
    refine ⟨fun n t ht => ?_, fun n t => kept (Store.set_of_ne_kind (by simp))⟩
    by_cases hn : n = manifestName digest
    · rw [hn, Store.set_same] at ht
      cases ht
    · rw [Store.set_of_ne fun hh => hn hh.2] at ht
      exact h.manifest n t ht
  | addLayer => exact ⟨h.manifest, h.container⟩
  | removeLayer => exact ⟨h.manifest, h.container⟩
  | @addContainer n digest reference t₀ hs hc =>
    refine ⟨h.manifest, fun a t ht => ?_⟩
    by_cases ha : a = n
    · subst ha
      rw [digestText_set, hc.text]
      rw [Store.set_same, Option.some.injEq] at ht
      subst ht
      obtain ⟨bytes, manifest, -, hv, -⟩ := hs
      exact ⟨hc.dir, fun _ _ => hc.files, digest, rfl, wellFormed_of_verifies hv⟩
    · exact kept (Store.set_of_ne fun hh => ha hh.2) ht
  | @setDigest n digest t₀ ht₀ hd hs =>
    refine ⟨h.manifest, fun a t ht => ?_⟩
    by_cases ha : a = n
    · subst ha
      obtain ⟨hdir, hkids, -⟩ := h.container _ _ ht₀
      rw [digestText_set, kid_setKid _ hdir, if_pos rfl]
      rw [Store.set_same, Option.some.injEq] at ht
      subst ht
      refine ⟨by rw [isDir_setKid, hdir], fun b u hu => ?_, digest, rfl, hd⟩
      rw [kid_setKid _ hdir] at hu
      split at hu
      · cases hu
        exact ⟨_, _, rfl⟩
      · exact hkids b u hu
    · exact kept (Store.set_of_ne fun hh => ha hh.2) ht
  | other hm hc hl =>
    refine ⟨fun n t ht => ?_, fun n t ht => ?_⟩
    · rcases hm n with he | ⟨-, he⟩
      · exact h.manifest n t (he ▸ ht)
      · rw [he] at ht
        cases ht
    rcases hc n with he | he
    · exact kept he ht
    · rw [he] at ht
      cases ht

/-! ## Linked stores -/

/-- Every container names a saved manifest. -/
def Linked (env : Env) (s : Store) : Prop :=
  ∀ n t, s .containers n = some t → t.isDir →
    ∃ text, s.digestText n = some text ∧ Saved env s (Text.trim text)

theorem Saved.of_eq {digest : Bytes} (h : Saved env s digest)
    (he : s' .manifests (manifestName digest) = s .manifests (manifestName digest)) :
    Saved env s' digest := by
  obtain ⟨bytes, manifest, hb, hv, hm⟩ := h
  refine ⟨bytes, manifest, ?_, hv, hm⟩
  rw [Store.manifestBytes, he]
  exact hb

theorem Saved.save {digest digest' bytes : Bytes} {manifest : ImageManifest}
    (h : Saved env s digest) (hv : Verifies env.hash bytes digest')
    (hm : parseManifest env bytes = some manifest) :
    Saved env (s.set .manifests (manifestName digest') (some (.leaf (.file newFile bytes))))
      digest := by
  by_cases he : digest = digest'
  · subst he
    exact ⟨bytes, manifest, by rw [Store.manifestBytes, Store.set_same]; rfl, hv, hm⟩
  · exact h.of_eq (Store.set_of_ne fun hh => he (manifestName_inj.mp hh.2))

theorem Linked.move (h : Linked env s) (hu : ¬ slack.unsaved) (hm : Move env slack s s') :
    Linked env s' := by
  -- a container left alone, whose manifest is still saved
  have kept {n : Bytes} {t : Node} (he : s' .containers n = s .containers n)
      (hs : ∀ text, s.digestText n = some text → Saved env s (Text.trim text) →
        Saved env s' (Text.trim text))
      (ht : s' .containers n = some t) (hd : t.isDir) :
      ∃ text, s'.digestText n = some text ∧ Saved env s' (Text.trim text) := by
    obtain ⟨text, htext, hsaved⟩ := h n t (he ▸ ht) hd
    exact ⟨text, by rw [digestText_of_eq he, htext], hs text htext hsaved⟩
  cases hm with
  | saveManifest hv hp hl hd =>
    exact fun n t => kept (Store.set_of_ne_kind (by simp)) fun _ _ hs => hs.save hv hp
  | @removeManifest digest hr =>
    exact fun n t => kept (Store.set_of_ne_kind (by simp)) fun text ht hs =>
      hs.of_eq (Store.set_of_ne fun hh => hr n text ht (manifestName_inj.mp hh.2))
  | addLayer =>
    exact fun n t => kept (Store.set_of_ne_kind (by simp)) fun _ _ hs =>
      hs.of_eq (Store.set_of_ne_kind (by simp))
  | removeLayer =>
    exact fun n t => kept (Store.set_of_ne_kind (by simp)) fun _ _ hs =>
      hs.of_eq (Store.set_of_ne_kind (by simp))
  | @addContainer n digest reference t₀ hs hc =>
    intro a t ht hd
    by_cases ha : a = n
    · subst ha
      obtain ⟨bytes, manifest, hb, hv, hm⟩ := hs
      refine ⟨digest, by rw [digestText_set, hc.text], ?_⟩
      rw [trim_of_wellFormed (wellFormed_of_verifies hv)]
      exact Saved.of_eq ⟨bytes, manifest, hb, hv, hm⟩ (Store.set_of_ne_kind (by simp))
    · exact kept (Store.set_of_ne fun hh => ha hh.2)
        (fun _ _ hs => hs.of_eq (Store.set_of_ne_kind (by simp))) ht hd
  | @setDigest n digest t₀ ht₀ hw hs =>
    intro a t ht hd
    by_cases ha : a = n
    · subst ha
      rw [Store.set_same, Option.some.injEq] at ht
      subst ht
      rw [isDir_setKid] at hd
      refine ⟨digest, by rw [digestText_set, kid_setKid _ hd, if_pos rfl]; rfl, ?_⟩
      rw [trim_of_wellFormed hw]
      exact (hs.resolve_left hu).of_eq (Store.set_of_ne_kind (by simp))
    · exact kept (Store.set_of_ne fun hh => ha hh.2)
        (fun _ _ hs => hs.of_eq (Store.set_of_ne_kind (by simp))) ht hd
  | other hm hc hl =>
    intro n t ht hd
    rcases hc n with he | he
    · exact kept he (fun text _ hs => hs.of_eq ((hm _).resolve_right fun h => hu h.1)) ht hd
    · rw [he] at ht
      cases ht

/-! ## Complete stores -/

/-- Every layer a saved manifest lists is there, and every layer there is the extraction of an
    archive that verifies under its name. -/
structure Complete (env : Env) (s : Store) : Prop where
  listed : ∀ digest bytes manifest, s.manifestBytes digest = some bytes →
    parseManifest env bytes = some manifest →
    ∀ layer ∈ manifest.layers, WellFormed layer.digest ∧ s.HasLayer layer.digest
  extracted : ∀ n t, s .layers n = some t → t.isDir ∧ WellFormed n ∧ Extracted env n t

theorem manifestBytes_of_eq {digest : Bytes}
    (h : s' .manifests (manifestName digest) = s .manifests (manifestName digest)) :
    s'.manifestBytes digest = s.manifestBytes digest := by
  rw [Store.manifestBytes, h, Store.manifestBytes]

theorem hasLayer_of_isDir {n : Bytes} {t : Node} (h : s .layers n = some t) (ht : t.isDir) :
    s.HasLayer n := by
  cases t with
  | leaf f => cases ht
  | dir m kids => exact ⟨m, kids, h⟩

theorem Complete.move (h : Complete env s) (hl : ¬ slack.layers) (hd : ¬ slack.digests)
    (hm : Move env slack s s') : Complete env s' := by
  -- manifests left alone, with layers still there
  have kept (hm : ∀ n, s' .manifests n = s .manifests n ∨ s' .manifests n = none)
      (hs : ∀ n, s.HasLayer n → (∃ digest bytes manifest, s.manifestBytes digest = some bytes ∧
        parseManifest env bytes = some manifest ∧ ∃ layer ∈ manifest.layers, layer.digest = n) →
        s'.HasLayer n) :
      ∀ digest bytes manifest, s'.manifestBytes digest = some bytes →
        parseManifest env bytes = some manifest →
        ∀ layer ∈ manifest.layers, WellFormed layer.digest ∧ s'.HasLayer layer.digest := by
    intro digest bytes manifest hb hp layer hlayer
    rcases hm (manifestName digest) with he | he
    · rw [manifestBytes_of_eq he] at hb
      obtain ⟨hw, hh⟩ := h.listed digest bytes manifest hb hp layer hlayer
      exact ⟨hw, hs _ hh ⟨digest, bytes, manifest, hb, hp, layer, hlayer, rfl⟩⟩
    · rw [Store.manifestBytes, he] at hb
      cases hb
  cases hm with
  | @saveManifest digest bytes manifest hv hp hs hw =>
    refine ⟨fun digest' bytes' manifest' hb hp' layer hlayer => ?_, h.extracted⟩
    by_cases he : digest' = digest
    · subst he
      rw [Store.manifestBytes, Store.set_same] at hb
      cases hb
      cases hp.symm.trans hp'
      have hwf := hw.resolve_left hd layer hlayer
      exact ⟨hwf, hs layer hlayer hwf⟩
    · rw [manifestBytes_of_eq (Store.set_of_ne fun hh => he (manifestName_inj.mp hh.2))] at hb
      exact h.listed digest' bytes' manifest' hb hp' layer hlayer
  | @removeManifest digest hr =>
    refine ⟨fun digest' bytes' manifest' hb hp' layer hlayer => ?_, h.extracted⟩
    by_cases he : digest' = digest
    · subst he
      rw [Store.manifestBytes, Store.set_same] at hb
      cases hb
    · rw [manifestBytes_of_eq (Store.set_of_ne fun hh => he (manifestName_inj.mp hh.2))] at hb
      exact h.listed digest' bytes' manifest' hb hp' layer hlayer
  | @addLayer digest t hw ht hx =>
    constructor
    · refine kept (fun _ => .inl (Store.set_of_ne_kind (by simp))) fun n hh _ => ?_
      by_cases hn : n = digest
      · exact hn ▸ hasLayer_of_isDir (Store.set_same ..) ht
      · obtain ⟨m, kids, hk⟩ := hh
        exact ⟨m, kids, (Store.set_of_ne fun hh => hn hh.2).trans hk⟩
    · intro n u hu
      by_cases hn : n = digest
      · subst hn
        rw [Store.set_same, Option.some.injEq] at hu
        exact hu ▸ ⟨ht, hw, hx⟩
      · rw [Store.set_of_ne fun hh => hn hh.2] at hu
        exact h.extracted n u hu
  | @removeLayer n hr =>
    constructor
    · refine kept (fun _ => .inl (Store.set_of_ne_kind (by simp))) ?_
      rintro a ⟨m, kids, hk⟩ ⟨digest, bytes, manifest, hb, hp, layer, hlayer, rfl⟩
      exact ⟨m, kids, (Store.set_of_ne fun hh => hr _ _ _ hb hp _ hlayer hh.2).trans hk⟩
    · intro a u hu
      by_cases ha : a = n
      · rw [ha, Store.set_same] at hu
        cases hu
      · rw [Store.set_of_ne fun hh => ha hh.2] at hu
        exact h.extracted a u hu
  | addContainer =>
    exact ⟨kept (fun _ => .inl (Store.set_of_ne_kind (by simp))) fun _ hh _ => hh, h.extracted⟩
  | setDigest =>
    exact ⟨kept (fun _ => .inl (Store.set_of_ne_kind (by simp))) fun _ hh _ => hh, h.extracted⟩
  | other hm hc hl' =>
    have hl' := hl'.resolve_left hl
    refine ⟨kept (fun n => (hm n).imp_right And.right) fun n ⟨m, kids, hk⟩ _ =>
      ⟨m, kids, (hl' n).trans hk⟩, fun n t ht => ?_⟩
    exact h.extracted n t (hl' n ▸ ht)

/-! ## Runs of moves -/

/-- Any number of changes. -/
abbrev Moves (env : Env) (slack : Slack) : Store → Store → Prop :=
  Relation.ReflTransGen (Move env slack)

theorem Tidy.moves (h : Tidy env s) (hm : Moves env slack s s') : Tidy env s' := by
  induction hm with
  | refl => exact h
  | tail _ hm ih => exact ih.move hm

theorem Linked.moves (h : Linked env s) (hu : ¬ slack.unsaved) (hm : Moves env slack s s') :
    Linked env s' := by
  induction hm with
  | refl => exact h
  | tail _ hm ih => exact ih.move hu hm

theorem Complete.moves (h : Complete env s) (hl : ¬ slack.layers) (hd : ¬ slack.digests)
    (hm : Moves env slack s s') : Complete env s' := by
  induction hm with
  | refl => exact h
  | tail _ hm ih => exact ih.move hl hd hm

end Pakstak
