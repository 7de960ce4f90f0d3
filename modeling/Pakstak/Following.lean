/-
  From an installation to a later update.

  The reference in `reference.json` is what the image was given as to the installation. Only the
  uninstallation of the container takes it away, and no command changes it: not in a container it
  is about, and however the command ends (`Tenure.kept`). So an update asks for the image that the
  container was installed from.

  Proved, from any tidy store: `updated_as_installed`.
-/
import Pakstak.Bystanders

namespace Pakstak

open Posix Prog FileTree RegistryClient

variable {env : Env} {S : Place} {c : Command} {n : Bytes} {w w' w₁ w₂ : World}

/-! ## The reference of one container -/

/-- The file with the reference of a container. -/
def Store.referenceNode (s : Store) (n : Bytes) : Option Node :=
  (s .containers n).bind fun t => t.kid referenceFile

theorem referenceNode_of_eq {s s' : Store} (h : s' .containers n = s .containers n) :
    s'.referenceNode n = s.referenceNode n := by
  rw [Store.referenceNode, h, Store.referenceNode]

theorem storedReference_of_node {s s' : Store} (h : s'.referenceNode n = s.referenceNode n) :
    s'.storedReference env n = s.storedReference env n := by
  rw [Store.storedReference, ← Store.referenceNode, h]
  rfl

theorem hasContainer_of_referenceNode {s : Store} (h : s.referenceNode n ≠ none) :
    s.HasContainer n := by
  obtain ⟨u, hu⟩ := Option.ne_none_iff_exists'.mp h
  obtain ⟨t, ht, hk⟩ := Option.bind_eq_some_iff.mp hu
  cases t with
  | dir m kids => exact ⟨m, kids, ht⟩
  | leaf l => cases hk

theorem SwitchedTo.referenceNode {container digest : Bytes}
    (h : SwitchedTo env S container digest w w') (n : Bytes) :
    (view S w'.root).referenceNode n = (view S w.root).referenceNode n := by
  rcases h.containers n with he | ⟨-, t, ht, ht'⟩
  · exact referenceNode_of_eq he
  · rw [Store.referenceNode, ht', Store.referenceNode, ht, Option.bind_some, Option.bind_some,
      kid_setKid_of_ne _ (by decide +kernel : referenceFile ≠ digestFile)]

/-- The body of a command that does not uninstall the container leaves its reference. -/
theorem ends_referenceNode [StatAnswers env] (hS : PlainPlace S) (hr : AtRest S w)
    (hf : (view S w.root).FileContainers) (hc : c.Named) (hne : c ≠ .uninstall n)
    (hn : (view S w.root).referenceNode n ≠ none) :
    Ends (machine env) (fun _ => True)
      (fun _ w' => (view S w'.root).referenceNode n = (view S w.root).referenceNode n)
      (fun _ w' => (view S w'.root).referenceNode n = (view S w.root).referenceNode n)
      (c.body env (storeAt S)) w := by
  by_cases ha : c.Aims n
  · cases c with
    | install container image =>
      obtain rfl : n = container := ha
      exact ends_mono (ends_install hS hr) (fun _ h => h)
        (fun _ _ _ h => absurd (hasContainer_of_referenceNode hn) h.free)
        fun _ _ _ h => referenceNode_of_eq (h.containers n)
    | uninstall container =>
      obtain rfl : n = container := ha
      exact absurd rfl hne
    | update containers =>
      have hupdate := @endsUnder_update env (fun _ => True) S w (fun _ => True) _ containers hS hr
        hf
        (fun _ _ => trivial) fun _ _ _ _ _ _ _ => trivial
      exact ends_mono (endsUnder_true.mp hupdate) (fun _ h => h)
        (fun _ _ _ h => h.1.reference n) fun _ _ _ h => h.reference n
    | switch container digest =>
      exact ends_mono (ends_switch hS hr hf) (fun _ h => h) (fun _ _ _ h => h.referenceNode n)
        fun _ _ _ h => referenceNode_of_eq (h.containers n)
    | prune => exact ha.elim
    | repair => exact ha.elim
  · exact ends_mono (ends_others hS hr hf hc) (fun _ h => h)
      (fun _ _ _ h => referenceNode_of_eq (h n ha)) fun _ _ _ h => referenceNode_of_eq (h n ha)

/-! ## As long as it is installed -/

/-- Commands one after the other, each to its end, and none of them the uninstallation of `n`. -/
inductive Tenure (env : Env) (n : Bytes) (w : World) : World → Prop
  | start : Tenure env n w w
  | command {w' w₁ w'' : World} (c : Command) {res : Except Err Unit} (hc : c.Named)
      (hne : c ≠ .uninstall n) (h : Tenure env n w w') (hroot : w₁.root = w'.root)
      (hx : Exec (machine env) (main env c) w₁ (some res) w'') : Tenure env n w w''

theorem tidy_of_exec [StatAnswers env] {res : Option (Except Err Unit)} (hS : PlainPlace S)
    (henv : env.storagePath = pathOf S) (hl : Layout S w.root) (ht : Tidy env (view S w.root))
    (hx : Exec (machine env) (main env c) w res w') :
    Layout S w'.root ∧ Tidy env (view S w'.root) := by
  have asks : ∀ w, c.Asks env ⟨True, True, True⟩ S w := c.asks_nothing
  have hm := ensuresUnder_exec (ensures_main hS henv hl ht) (exec_under hx fun w _ => asks w)
  exact ⟨hm.layout, ht.moves hm.moves⟩

theorem Tenure.kept [StatAnswers env] (hS : PlainPlace S) (henv : env.storagePath = pathOf S)
    (hl : Layout S w.root) (ht : Tidy env (view S w.root))
    (hn : (view S w.root).referenceNode n ≠ none) (h : Tenure env n w w') :
    Layout S w'.root ∧ Tidy env (view S w'.root) ∧
      (view S w'.root).referenceNode n = (view S w.root).referenceNode n := by
  induction h with
  | start => exact ⟨hl, ht, rfl⟩
  | command c hc hne h hroot hx ih =>
    rw [← hroot] at ih
    obtain ⟨hl₁, ht₁, hkept⟩ := ih
    obtain ⟨hl₂, ht₂⟩ := tidy_of_exec hS henv hl₁ ht₁ hx
    -- the container is there before the command, so an install in its place fails
    have hstep := relation_of_exec (P := fun s s' => s.referenceNode n ≠ none →
      s'.referenceNode n = s.referenceNode n) hS henv hl₁ (fun _ _ => rfl) (fun w₂ hr hv => by
        rw [hv]
        have hbody := @ends_referenceNode env S c n w₂ _ hS hr (hv ▸ ht₁.files) hc hne
          (by rwa [hv, hkept])
        rw [hv] at hbody
        exact ends_mono hbody (fun _ h => h) (fun _ _ _ h _ => h) fun _ _ _ h _ => h) hx
    exact ⟨hl₂, ht₂, (hstep (by rwa [hkept])).trans hkept⟩

/-! ## Fetched twice -/

theorem Carries.unique {r : Response} {specifier : Specifier} {b b' : ManifestBytes}
    (h : Carries env r specifier b) (h' : Carries env r specifier b') : b = b' := by
  obtain ⟨bytes, digest, mediaType⟩ := b
  obtain ⟨bytes', digest', mediaType'⟩ := b'
  obtain rfl : bytes = bytes' := h.bytes.symm.trans h'.bytes
  obtain rfl : digest = digest' := Option.some.inj (h.claimed.symm.trans h'.claimed)
  obtain rfl : mediaType = mediaType' := h.mediaType.trans h'.mediaType.symm
  rfl

/-- The answers to one request are the same in both. -/
def SameAnswers (l l' : List Answer) : Prop :=
  ∀ a ∈ l, ∀ b ∈ l', a.path = b.path → a.accept = b.accept → a.response = b.response

/-- The same answers make the same manifest. -/
theorem Fetched.unique {reference : Reference} {l l' : List Answer} {f f' : FetchedManifest}
    (h : Fetched env reference l f) (h' : Fetched env reference l' f') (ha : SameAnswers l l') :
    f = f' := by
  cases h with
  | direct hr hb hf =>
    cases h' with
    | direct hr' hb' hf' =>
      obtain rfl := ha _ List.mem_cons_self _ List.mem_cons_self rfl rfl
      obtain rfl := hr.unique hr'
      exact Except.ok.inj (hf.symm.trans hf')
    | selected hr' hb' hi' hd' hrr' hf' =>
      obtain rfl := ha _ List.mem_cons_self _ List.mem_cons_self rfl rfl
      obtain rfl := hr.unique hr'
      exact absurd hb (by simp [hb'])
  | selected hr hb hi hd hrr hf =>
    cases h' with
    | direct hr' hb' hf' =>
      obtain rfl := ha _ List.mem_cons_self _ List.mem_cons_self rfl rfl
      obtain rfl := hr.unique hr'
      exact absurd hb' (by simp [hb])
    | selected hr' hb' hi' hd' hrr' hf' =>
      obtain rfl := ha _ List.mem_cons_self _ List.mem_cons_self rfl rfl
      obtain rfl := hr.unique hr'
      -- the same index, so the same descriptor and the same second request
      obtain rfl := Option.some.inj (hi.symm.trans hi')
      obtain rfl := Option.some.inj (hd.symm.trans hd')
      obtain rfl := ha _ (List.mem_cons_of_mem _ List.mem_cons_self) _
        (List.mem_cons_of_mem _ List.mem_cons_self) rfl rfl
      obtain rfl := hrr.unique hrr'
      exact Except.ok.inj (hf.symm.trans hf')

/-! ## Install, then update -/

/-- The container just made holds the reference that the image was given as, and the digest
    fetched for it. -/
structure StoredFor (env : Env) (S : Place) (container image : Bytes) (reference : Reference)
    (f : FetchedManifest) (w w' : World) : Prop where
  name : Plain container
  node : (view S w'.root).referenceNode container ≠ none
  parsed : Reference.parse image = .ok reference
  stored : (view S w'.root).storedReference env container = some reference
  fetched : ∃ l post, Fetched env reference l f ∧
    answers w'.net = answers w.net ++ (l ++ post)
  text : (view S w'.root).digestText container = some f.digest

theorem stored_of_installed [StatAnswers env] {container image : Bytes} (hS : PlainPlace S)
    (henv : env.storagePath = pathOf S) (hl : Layout S w.root)
    (hjson : ∀ reference, Reference.parse image = .ok reference →
      env.fromSlice (env.toVecPretty reference.serialize) = some reference.serialize)
    (hx : Exec (machine env) (main env (.install container image)) w (some (.ok ())) w') :
    ∃ reference f, StoredFor env S container image reference f w w' := by
  have hi := installed_of_exec hS henv hl hx
  obtain ⟨reference, f, l, post, t, hparse, hf, hnet, ht, hcontainer, -⟩ := hi.fetched
  have hnode : (view S w'.root).referenceNode container =
      some (.leaf (.file newFile (env.toVecPretty reference.serialize))) := by
    rw [Store.referenceNode, ht, Option.bind_some, hcontainer.reference]
  refine ⟨reference, f, plain_of_validateContainerName hi.name, by simp [hnode], hparse, ?_,
    ⟨l, post, hf, hnet⟩, ?_⟩
  · rw [Store.storedReference, ← Store.referenceNode, hnode]
    simp [fileData, hjson reference hparse]
  · rw [Store.digestText, ht, Option.bind_some, hcontainer.text]

/-- A container names what the registry has given for a reference. -/
structure GotFor (env : Env) (S : Place) (n : Bytes) (reference : Reference) (f : FetchedManifest)
    (w w' : World) : Prop where
  fetched : ∃ pre l post, Fetched env reference l f ∧
    answers w'.net = answers w.net ++ (pre ++ l ++ post)
  text : ∃ text, (view S w'.root).digestText n = some text ∧ Text.trim text = f.digest
  saved : (view S w'.root).manifestBytes f.digest ≠ none

theorem got_of_updated [StatAnswers env] {containers : List Bytes} {reference : Reference}
    (hS : PlainPlace S)
    (henv : env.storagePath = pathOf S) (hl : Layout S w.root) (ht : Tidy env (view S w.root))
    (hn : Plain n) (hnode : (view S w.root).referenceNode n ≠ none)
    (href : (view S w.root).storedReference env n = some reference)
    (hasked : containers = [] ∨ n ∈ containers)
    (hx : Exec (machine env) (main env (.update containers)) w (some (.ok ())) w') :
    ∃ f, GotFor env S n reference f w w' := by
  have hbody := ends_main (c := .update containers) hS henv hl fun w₀ hr hs => by
    have hupdate := @endsUnder_update env (fun _ => True) S w₀ (fun _ => True) _ containers hS hr
      (hs.view ▸ ht.files) (fun _ _ => trivial) fun _ _ _ _ _ _ _ => trivial
    exact ends_mono (endsUnder_true.mp hupdate) (fun _ h => h) (fun _ _ _ h => h.2)
      fun _ _ _ _ => trivial
  obtain ⟨w₀, -, hs, hall⟩ := (wp_exec hbody hx).2 _ rfl
  have hcurrent : UpToDate env S n w₀ w' := by
    rcases hasked with hnil | hmem
    · obtain ⟨m, kids, hv⟩ := hasContainer_of_referenceNode hnode
      exact hall.installed hnil n m kids (hs.view ▸ hv)
    · exact (hall.arguments n hmem).named hn
  obtain ⟨text, htext, hfetched⟩ := hcurrent
  obtain ⟨reference', pre, l, post, f, href', hf, hd, hnet⟩ := hfetched.fetched
  obtain rfl : reference = reference' := by
    rw [hs.view, href] at href'
    exact Option.some.inj href'
  have hnet₀ : w₀.net = w.net := congrArg (fun a => a.2.1) hs.aside
  exact ⟨f, ⟨pre, l, post, hf, hnet₀ ▸ hnet⟩, ⟨text, htext, hd.symm⟩, hd ▸ hfetched.saved⟩

section

variable {container image : Bytes} {containers : List Bytes} {w₃ : World} (hS : PlainPlace S)
  (henv : env.storagePath = pathOf S) (hl : Layout S w.root) (ht : Tidy env (view S w.root))
  (hjson : ∀ reference, Reference.parse image = .ok reference →
    env.fromSlice (env.toVecPretty reference.serialize) = some reference.serialize)
  (hi : Exec (machine env) (main env (.install container image)) w (some (.ok ())) w₁)
  (h : Tenure env container w₁ w₂) (hroot : w₃.root = w₂.root)
  (hasked : containers = [] ∨ container ∈ containers)
  (hu : Exec (machine env) (main env (.update containers)) w₃ (some (.ok ())) w')
include hS henv hl ht hjson hi h hroot hasked hu

theorem stored_and_got [StatAnswers env] : ∃ reference f f',
    StoredFor env S container image reference f w w₁ ∧
      GotFor env S container reference f' w₃ w' := by
  obtain ⟨reference, f, hstored⟩ := stored_of_installed hS henv hl hjson hi
  obtain ⟨hl₁, ht₁⟩ := tidy_of_exec hS henv hl ht hi
  obtain ⟨hl₂, ht₂, hkept⟩ := h.kept hS henv hl₁ ht₁ hstored.node
  have href : (view S w₂.root).storedReference env container = some reference :=
    (storedReference_of_node hkept).trans hstored.stored
  rw [← hroot] at hl₂ ht₂ hkept href
  have hnode := hstored.node
  rw [← hkept] at hnode
  obtain ⟨f', hgot⟩ := got_of_updated hS henv hl₂ ht₂ hstored.name hnode href hasked hu
  exact ⟨reference, f, f', hstored, hgot⟩

/-- An update, however long after the installation, and whatever commands came between them,
    makes a container name what the registry gives for the image it was installed from. -/
theorem updated_as_installed [StatAnswers env] : ∃ reference f,
    Reference.parse image = .ok reference ∧ GotFor env S container reference f w₃ w' := by
  obtain ⟨reference, _, f, hstored, hgot⟩ :=
    stored_and_got hS henv hl ht hjson hi h hroot hasked hu
  exact ⟨reference, f, hstored.parsed, hgot⟩

/-- Where the registry answers as it did for the installation, an update makes the container name
    the digest that the installation gave it. -/
theorem updated_back [StatAnswers env] (hagree : SameAnswers (answers w₁.net) (answers w'.net)) :
    ∃ digest text, (view S w₁.root).digestText container = some digest ∧
      (view S w'.root).digestText container = some text ∧ Text.trim text = digest := by
  obtain ⟨reference, f, f', hstored, hgot⟩ :=
    stored_and_got hS henv hl ht hjson hi h hroot hasked hu
  obtain ⟨l, post, hf, hnet⟩ := hstored.fetched
  obtain ⟨pre', l', post', hf', hnet'⟩ := hgot.fetched
  obtain rfl : f = f' := hf.unique hf' fun a ha b hb => by
    refine hagree a ?_ b ?_
    · rw [hnet]
      simp [ha]
    · rw [hnet']
      simp [hb]
  obtain ⟨text, htext, htrim⟩ := hgot.text
  exact ⟨f.digest, text, hstored.text, htext, htrim⟩

end

namespace OneContainer

open FirstFetch (place plain_place)

def image : Bytes := utf8 "r.io/a@" ++ emptyManifestDigest

def pages : Script := ⟨TwoKinds.registry TwoKinds.manifestType, fun _ => false⟩

/-- The container made in the empty store. -/
def first : Option (Except Err Unit) × World :=
  pages.replay oneContainer (main oneContainer (.install (utf8 "web") image)) FirstFetch.store

/-- Then prune, as another process. -/
def second : Option (Except Err Unit) × World :=
  pages.replay oneContainer (main oneContainer .prune) ⟨first.2.root, [], [], []⟩

/-- Then the update. -/
def third : Option (Except Err Unit) × World :=
  pages.replay oneContainer (main oneContainer (.update [utf8 "web"])) ⟨second.2.root, [], [], []⟩

/-- What is computed from these. -/
structure Evaluated : Prop where
  parsed : Reference.parse image = .ok reference
  read : emptyManifest.text ≠ prettyReference reference.serialize
  installs : first.1 = some (.ok ())
  prunes : second.1 = some (.ok ())
  updates : third.1 = some (.ok ())
  agree : ∀ a ∈ answers first.2.net, ∀ b ∈ answers third.2.net, a.path = b.path →
    a.accept = b.accept → a.response = b.response

theorem evaluated : Evaluated where
  parsed := by decide +kernel
  read := by decide +kernel
  installs := by decide +kernel
  prunes := by decide +kernel
  updates := by decide +kernel
  agree := by decide +kernel

theorem fromSlice_pretty : oneContainer.fromSlice (oneContainer.toVecPretty reference.serialize) =
    some reference.serialize := by
  simp [oneContainer, smallEnv, evaluated.read]

theorem exec_first : Exec (machine oneContainer)
    (main oneContainer (.install (utf8 "web") image)) FirstFetch.store (some (.ok ())) first.2 :=
  exec_of_fst_eq (pages.exec_replay _ _ _) evaluated.installs

theorem exec_second : Exec (machine oneContainer) (main oneContainer .prune)
    ⟨first.2.root, [], [], []⟩ (some (.ok ())) second.2 :=
  exec_of_fst_eq (pages.exec_replay _ _ _) evaluated.prunes

theorem exec_third : Exec (machine oneContainer) (main oneContainer (.update [utf8 "web"]))
    ⟨second.2.root, [], [], []⟩ (some (.ok ())) third.2 :=
  exec_of_fst_eq (pages.exec_replay _ _ _) evaluated.updates

theorem tenure : Tenure oneContainer (utf8 "web") first.2 second.2 :=
  .command .prune trivial (by simp) .start (by rfl) exec_second

theorem json_image (r : Reference) (hr : Reference.parse image = .ok r) :
    oneContainer.fromSlice (oneContainer.toVecPretty r.serialize) = some r.serialize := by
  obtain rfl : reference = r := Except.ok.inj (evaluated.parsed.symm.trans hr)
  exact fromSlice_pretty

theorem tidy_first : Tidy oneContainer (view place FirstFetch.store.root) :=
  (promises_empty FirstInstall.view_store).1

end OneContainer

open OneContainer in
theorem updated_as_installed_web : ∃ reference f, Reference.parse image = .ok reference ∧
    GotFor oneContainer FirstFetch.place (utf8 "web") reference f ⟨second.2.root, [], [], []⟩
      third.2 :=
  updated_as_installed FirstFetch.plain_place rfl FirstFetch.atRest.layout tidy_first json_image
    exec_first tenure (by rfl) (.inr List.mem_cons_self) exec_third

open OneContainer in
theorem updated_back_web : ∃ digest text,
    (view FirstFetch.place first.2.root).digestText (utf8 "web") = some digest ∧
      (view FirstFetch.place third.2.root).digestText (utf8 "web") = some text ∧
      Text.trim text = digest :=
  updated_back FirstFetch.plain_place rfl FirstFetch.atRest.layout tidy_first json_image exec_first
    tenure (by rfl) (.inr List.mem_cons_self) exec_third evaluated.agree

end Pakstak
