/-
  From an image, or a digest, to what is mounted.

  A run of a container that has just been installed, or switched, mounts the layers of a manifest
  whose bytes verify under the digest fetched for the image, or under the digest asked for.

  Proved, from any store that keeps the promises: `installed_run`, `switched_run`.
-/
import Pakstak.Offline
import Pakstak.Outcomes
import Pakstak.Running

namespace Pakstak

open Posix Prog FileTree RegistryClient

variable {env : Env} {S : Place} {w w' w₁ w₂ : World}

/-! ## The manifest of one container -/

/-- The layers of a manifest are mounted, in order and each once, with a lock file for each of
    them; and each is there, complete. -/
def MountsManifest (env : Env) (S : Place) (s : Store) (manifest : ImageManifest)
    (command : List Bytes) (args : List Arg) : Prop :=
  ∃ digests options, FirstOccurrences (manifest.layers.map Descriptor.digest) digests ∧
    Mounts S digests options ∧
    args = options.flatMap BwrapOption.args ++ command.map .text ∧
    ∀ d ∈ digests, WellFormed d ∧ ∃ t, s .layers d = some t ∧ t.isDir ∧ Extracted env d t

theorem mountsManifest_of_selected {s : Store} {n digest : Bytes} {command : List Bytes}
    {args : List Arg} (h : MountsSelected env S s [n] command args)
    (hd : s.digestText n = some digest) :
    ∃ bytes manifest, s.manifestBytes digest = some bytes ∧ Verifies env.hash bytes digest ∧
      parseManifest env bytes = some manifest ∧ MountsManifest env S s manifest command args := by
  obtain ⟨manifests, digests, options, hall, hfirst, hmounts, hargs, hlayers⟩ := h
  obtain ⟨manifest, rest, hname, hrest, rfl⟩ := List.forall₂_cons_left_iff.mp hall
  obtain rfl := List.forall₂_nil_left_iff.mp hrest
  obtain ⟨digest', bytes, hd', -, hb, hv, hm⟩ := hname
  obtain rfl : digest = digest' := Option.some.inj (hd.symm.trans hd')
  refine ⟨bytes, manifest, hb, hv, hm, digests, options, ?_, hmounts, hargs, hlayers⟩
  simpa using hfirst

/-! ## A command, then a run -/

theorem exec_of_under {C : World → Prop} {α : Type} {p : M α} {res : Option (Except Err α)}
    (h : Exec ((machine env).under C) p w res w') : Exec (machine env) p w res w' := by
  have h' : Exec ((machine env).under fun _ => True) p w res w' :=
    exec_under_mono (fun _ _ => trivial) h
  rwa [Machine.under_true] at h'

/-- What the body of a command ends with, from a store at rest with the same contents. -/
theorem ends_main [StatAnswers env] {c : Command} {P : World → World → Prop} (hS : PlainPlace S)
    (henv : env.storagePath = pathOf S) (hl : Layout S w.root)
    (h : ∀ w₁, AtRest S w₁ → Still S w w₁ → Ends (machine env) (fun _ => True)
      (fun _ w' => P w₁ w') (fun _ _ => True) (c.body env (storeAt S)) w₁) :
    Ends (machine env) (fun _ => True) (fun _ w' => ∃ w₁, AtRest S w₁ ∧ Still S w w₁ ∧ P w₁ w')
      (fun _ _ => True) (main env c) w := by
  rw [main]
  refine ends_bind (ends_mapError.mpr (ends_of_ensures (ensures_newMutable henv hS hl
    fun _ _ => trivial) fun _ _ _ => trivial)) ?_
  rintro st w₁ - ⟨rfl, hq, htemp, hcleared⟩
  have hr : AtRest S w₁ := ⟨⟨hq.still.layout, htemp⟩, hcleared⟩
  exact ends_mono (h w₁ hr hq.still) (fun _ h => h) (fun _ w' _ hP => ⟨w₁, hr, hq.still, hP⟩)
    fun _ _ _ h => h

/-- A run right after a command, where the contents keep all promises. -/
theorem run_after [StatAnswers env] {c : Command} {res : Option (Except Err Unit)}
    {n digest : Bytes} {command : List Bytes} {args : List Arg} (hS : PlainPlace S)
    (henv : env.storagePath = pathOf S) (hl : Layout S w.root) (hp : Promised env (view S w.root))
    (hx : Exec ((machine env).under (c.Asks env ⟨False, False, False⟩ S)) (main env c) w res w')
    (hroot : w₁.root = w'.root) (hn : Plain n)
    (hd : (view S w'.root).digestText n = some digest)
    (hr : Exec (machine env) (mainRun env [n] command) w₁ (some (.ok args)) w₂) :
    ∃ bytes manifest, (view S w'.root).manifestBytes digest = some bytes ∧
      Verifies env.hash bytes digest ∧ parseManifest env bytes = some manifest ∧
      MountsManifest env S (view S w'.root) manifest command args := by
  have hs : Session env S w w' := .process c .start rfl hx
  obtain ⟨hl', hp'⟩ := hs.promised hS henv hl hp
  rw [← hroot] at hl' hp' hd ⊢
  have hplain : ∀ a ∈ [n], Plain a := by
    intro a ha
    rw [List.mem_singleton.mp ha]
    exact hn
  exact mountsManifest_of_selected (run_outcome hS henv hl' hp' hplain hr).2 hd

theorem InstalledAs.earlier {container image : Bytes} (h : InstalledAs env S container image w₁ w')
    (hs : Still S w w₁) : InstalledAs env S container image w w' := by
  have hv := hs.view
  have hnet : w₁.net = w.net := congrArg (fun a => a.2.1) hs.aside
  have hfetched := h.fetched
  rw [hv, hnet] at hfetched
  exact ⟨h.name, hv ▸ h.free, hfetched, hv ▸ h.others, hv ▸ h.manifests, hv ▸ h.added,
    hv ▸ h.layers⟩

theorem installed_of_exec [StatAnswers env] {container image : Bytes} (hS : PlainPlace S)
    (henv : env.storagePath = pathOf S) (hl : Layout S w.root)
    (hx : Exec (machine env) (main env (.install container image)) w (some (.ok ())) w') :
    InstalledAs env S container image w w' := by
  have hbody := ends_main (c := .install container image) hS henv hl fun w₀ hr _ =>
    ends_mono (ends_install hS hr) (fun _ h => h) (fun _ _ _ h => h) fun _ _ _ _ => trivial
  obtain ⟨w₀, -, hs, hi⟩ := (wp_exec hbody hx).2 _ rfl
  exact hi.earlier hs

/-- A run of the container just installed mounts the layers of a manifest that verifies under the
    digest fetched for the image: the one fetched, unless other bytes verify under that digest. -/
theorem installed_run [StatAnswers env] {container image : Bytes} {command : List Bytes}
    {args : List Arg} (hS : PlainPlace S) (henv : env.storagePath = pathOf S) (hl : Layout S w.root)
    (hp : Promised env (view S w.root))
    (hx : Exec ((machine env).under ((Command.install container image).Asks env
      ⟨False, False, False⟩ S)) (main env (.install container image)) w (some (.ok ())) w')
    (hroot : w₁.root = w'.root)
    (hr : Exec (machine env) (mainRun env [container] command) w₁ (some (.ok args)) w₂) :
    ∃ reference f l post, Reference.parse image = .ok reference ∧ Fetched env reference l f ∧
      answers w'.net = answers w.net ++ (l ++ post) ∧
      ∃ bytes manifest, Verifies env.hash bytes f.digest ∧
        parseManifest env bytes = some manifest ∧ (bytes ≠ f.bytes ∨ manifest = f.manifest) ∧
        MountsManifest env S (view S w'.root) manifest command args := by
  have hi := installed_of_exec hS henv hl (exec_of_under hx)
  obtain ⟨reference, f, l, post, t, hparse, hf, hnet, ht, hc, -⟩ := hi.fetched
  have hd : (view S w'.root).digestText container = some f.digest := by
    rw [Store.digestText, ht, Option.bind_some, hc.text]
  obtain ⟨bytes, manifest, -, hv, hm, hmounts⟩ := run_after hS henv hl hp hx hroot
    (plain_of_validateContainerName hi.name) hd hr
  refine ⟨reference, f, l, post, hparse, hf, hnet, bytes, manifest, hv, hm, ?_, hmounts⟩
  by_cases he : bytes = f.bytes
  · rw [he, hf.parsed.1, Option.some.injEq] at hm
    exact .inr hm.symm
  · exact .inl he

namespace Restored

/-- What the image is installed by once more. -/
def reference : Reference := ⟨utf8 "r.io", utf8 "a", .digest manifestDigest⟩

/-- The host, with a parser that knows the text of this reference too. -/
def knowing : Env :=
  { host with fromSlice := fun bytes =>
      if bytes = prettyReference reference.serialize then some reference.serialize
      else host.fromSlice bytes }

instance : StatAnswers knowing := ⟨fun _ _ h => h⟩

/-- A registry that has the manifest. -/
def page : Response := okResponse TwoKinds.manifestType manifestDigest manifest.text

def pages : Script :=
  ⟨registryOf [(manifestRequestPath (utf8 "a") manifestDigest, page)], fun _ => false⟩

/-- The image installed once more, as `d`. -/
def again : Command := .install (utf8 "d") (utf8 "r.io/a@" ++ manifestDigest)

def installed : Option (Except Err Unit) × World := pages.replay knowing (main knowing again) world

/-- A run of `d`. -/
def ran (w : World) : Option (Except Err (List Arg)) × World :=
  pages.replay knowing (mainRun knowing [utf8 "d"] [utf8 "sh"]) w

/-- The container switched to the manifest it has. -/
def same : Command := .switch (utf8 "d") manifestDigest

/-- Another process, in the tree that the install has left. -/
def after : World := ⟨installed.2.root, [], [], []⟩

def switched : Option (Except Err Unit) × World := pages.replay knowing (main knowing same) after

/-- What is computed from these. -/
structure Evaluated : Prop where
  plain : Plain (utf8 "d")
  unread : parseManifest knowing (prettyReference reference.serialize) =
    parseManifest host (prettyReference reference.serialize)
  claimed : page.claimedDigest = some manifestDigest
  installs : installed.1 = some (.ok ())
  runs : (ran installed.2).1 = some (.ok bwrapArgs)
  switches : switched.1 = some (.ok ())
  runsSwitched : (ran switched.2).1 = some (.ok bwrapArgs)

theorem evaluated : Evaluated where
  plain := by decide +kernel
  unread := by decide +kernel
  claimed := by decide +kernel
  installs := by decide +kernel
  runs := by decide +kernel
  switches := by decide +kernel
  runsSwitched := by decide +kernel

theorem parseManifest_knowing : parseManifest knowing = parseManifest host := by
  funext bytes
  by_cases h : bytes = prettyReference reference.serialize
  · subst h
    exact evaluated.unread
  · simp [parseManifest, knowing, h]

theorem promised_knowing : Promised knowing (view place world.root) := by
  have h := promised
  refine ⟨⟨?_, h.tidy.container⟩, ?_, ⟨?_, h.complete.extracted⟩⟩
  · rw [parseManifest_knowing]
    exact h.tidy.manifest
  · unfold Linked Saved
    rw [parseManifest_knowing]
    exact h.linked
  · rw [parseManifest_knowing]
    exact h.complete.listed

/-- Only the manifest has been received. -/
def Served (w : World) : Prop := ∀ a ∈ answers w.net, a.response = page

theorem served_reply (o : Op) (w : World) (h : Served w) :
    Served (pages.reply knowing o w).2 := by
  refine Script.answers_reply (P := fun response => response = page) (fun request r hr => ?_) o w h
  obtain ⟨path, hmem⟩ := mem_of_registryOf hr
  exact congrArg Prod.snd (List.mem_singleton.mp hmem)

theorem formed_of_served {w : World} (h : Served w) : FormedLayers knowing place w := by
  intro a ha m hm layer hlayer _
  rw [h a ha, parseManifest_knowing, show page.body.data = manifest.text from rfl,
    computed.parsed, Option.some.injEq] at hm
  subst hm
  simp only [List.mem_cons, List.not_mem_nil, or_false] at hlayer
  rcases hlayer with rfl | rfl | rfl
  · exact wellFormed_of_verifies computed.fileSound
  · exact wellFormed_of_verifies computed.removalSound
  · exact wellFormed_of_verifies computed.fileSound

theorem served_world : Served world := by
  intro a ha
  cases ha

theorem exec_installed : Exec
    ((machine knowing).under (again.Asks knowing ⟨False, False, False⟩ place))
    (main knowing again) world (some (.ok ())) installed.2 := by
  rw [← evaluated.installs]
  exact exec_run_under (pages.reply_step knowing) served_reply
    (fun w hw => .inr (formed_of_served hw)) _ _ served_world

theorem exec_ran {w : World} (h : (ran w).1 = some (.ok bwrapArgs)) :
    Exec (machine knowing) (mainRun knowing [utf8 "d"] [utf8 "sh"]) w (some (.ok bwrapArgs))
      (ran w).2 := exec_of_fst_eq (pages.exec_replay _ _ _) h

end Restored

open Restored in
theorem installed_run_again : ∃ reference f l post,
    Reference.parse (utf8 "r.io/a@" ++ manifestDigest) = .ok reference ∧
      Fetched knowing reference l f ∧
      answers installed.2.net = answers world.net ++ (l ++ post) ∧
      ∃ bytes m, Verifies knowing.hash bytes f.digest ∧ parseManifest knowing bytes = some m ∧
        (bytes ≠ f.bytes ∨ m = f.manifest) ∧
        MountsManifest knowing place (view place installed.2.root) m [utf8 "sh"] bwrapArgs :=
  installed_run plain_place rfl layout_world promised_knowing exec_installed rfl
    (exec_ran evaluated.runs)

/-- A run of the container just switched mounts the layers of a manifest that verifies under the
    digest asked for. -/
theorem switched_run [StatAnswers env] {container digest : Bytes} {command : List Bytes}
    {args : List Arg} (hS : PlainPlace S) (henv : env.storagePath = pathOf S) (hl : Layout S w.root)
    (hp : Promised env (view S w.root)) (hn : Plain container)
    (hx : Exec ((machine env).under ((Command.switch container digest).Asks env
      ⟨False, False, False⟩ S)) (main env (.switch container digest)) w (some (.ok ())) w')
    (hroot : w₁.root = w'.root)
    (hr : Exec (machine env) (mainRun env [container] command) w₁ (some (.ok args)) w₂) :
    ∃ bytes manifest, (view S w'.root).manifestBytes digest = some bytes ∧
      Verifies env.hash bytes digest ∧ parseManifest env bytes = some manifest ∧
      MountsManifest env S (view S w'.root) manifest command args := by
  have hbody := ends_main (c := .switch container digest) hS henv hl fun w₀ hr hs =>
    ends_mono (ends_switch hS hr (hs.view ▸ hp.tidy.files)) (fun _ h => h) (fun _ _ _ h => h)
      fun _ _ _ _ => trivial
  obtain ⟨w₀, hrest, hs, hsw⟩ := (wp_exec hbody (exec_of_under hx)).2 _ rfl
  obtain ⟨c, hw, -⟩ := isDirPath_iff_walk.mp hsw.installed
  obtain rfl := walk_container hS hrest.layout hn hw
  exact run_after hS henv hl hp hx hroot hn (hsw.current container hw).1 hr

namespace Restored

theorem honest_of_served {w : World} (h : Served w) : Honest knowing place manifestDigest w := by
  intro a ha _ claimed m hclaimed _ _
  rw [h a ha] at hclaimed
  exact .inl (Option.some.inj (hclaimed.symm.trans evaluated.claimed))

theorem root_after : after.root = installed.2.root := by rw [after]

theorem promised_after : Layout place after.root ∧ Promised knowing (view place after.root) := by
  rw [root_after]
  exact Session.promised plain_place rfl layout_world promised_knowing
    (.process again .start rfl exec_installed)

theorem exec_switched : Exec
    ((machine knowing).under (same.Asks knowing ⟨False, False, False⟩ place))
    (main knowing same) after (some (.ok ())) switched.2 := by
  have hserved : Served after := by
    intro a ha
    cases ha
  have hx : Exec ((machine knowing).under Served) (main knowing same) after (some (.ok ()))
      switched.2 := by
    rw [← evaluated.switches]
    exact exec_run_under (pages.reply_step knowing) served_reply (fun _ hw => hw) _ _ hserved
  have hlayout : ∀ w, Exec (machine knowing) (main knowing same) after none w →
      Layout place w.root := by
    intro w hw
    have asks : ∀ w, same.Asks knowing ⟨True, True, True⟩ place w := fun w => same.asks_nothing w
    have hw' := exec_under hw fun w _ => asks w
    exact (ensuresUnder_exec (ensures_main plain_place rfl promised_after.1
      promised_after.2.tidy) hw').layout
  refine exec_under_mono ?_ (exec_under_and hx hlayout)
  rintro w ⟨hw, hl⟩
  refine ⟨.inr (formed_of_served hw), .inr fun c hc hpre => ?_, .inr (honest_of_served hw)⟩
  rw [walk_container plain_place hl evaluated.plain hc] at hpre
  exact absurd (table_le_entry hpre) (by decide)

end Restored

open Restored in
theorem switched_run_same : ∃ bytes m,
    (view place switched.2.root).manifestBytes manifestDigest = some bytes ∧
      Verifies knowing.hash bytes manifestDigest ∧ parseManifest knowing bytes = some m ∧
      MountsManifest knowing place (view place switched.2.root) m [utf8 "sh"] bwrapArgs :=
  switched_run plain_place rfl promised_after.1 promised_after.2 evaluated.plain exec_switched rfl
    (exec_ran evaluated.runsSwitched)

end Pakstak
