/-
  What has been installed can be taken away again.

  In a store that keeps its promises, prune leaves what is in use (`Thinned`): the manifests that
  containers name and the layers these list. A store is swept when nothing else is there. Where a
  container is installed into it and uninstalled again, the containers are as before, so the same
  is in use, and prune gives back the store as it was.

  Proved: `session_pruned_swept`, `reclaimed`.
-/
import Pakstak.Following

namespace Pakstak

open Posix Prog FileTree

variable {env : Env} {S : Place} {n d : Bytes} {x : Node} {s s' s₀ : Store}
  {w w' w₁ w₂ w₃ w₄ : World} {out : List (Msg × Option Err)}

/-! ## What is in use -/

/-- A container names the digest. -/
def Store.InUse (s : Store) (d : Bytes) : Prop :=
  ∃ n text, s.digestText n = some text ∧ Text.trim text = d

/-- A manifest in use lists the layer. -/
def Store.Lists (env : Env) (s : Store) (n : Bytes) : Prop :=
  ∃ d bytes manifest, s.InUse d ∧ s.manifestBytes d = some bytes ∧
    parseManifest env bytes = some manifest ∧ ∃ layer ∈ manifest.layers, layer.digest = n

theorem inUse_of_eq (h : ∀ n, s' .containers n = s .containers n) : s'.InUse d ↔ s.InUse d := by
  have htext (n : Bytes) : s'.digestText n = s.digestText n := digestText_of_eq (h n)
  simp only [Store.InUse, htext]

theorem Promised.saved (hp : Promised env s) (h : s.InUse d) : Saved env s d := by
  obtain ⟨n, text, htext, rfl⟩ := h
  obtain ⟨t, ht, hdir⟩ := isDir_of_digestText htext
  obtain ⟨text', htext', hsaved⟩ := hp.linked n t ht hdir
  rw [htext, Option.some.injEq] at htext'
  exact htext' ▸ hsaved

theorem uses_iff (hS : PlainPlace S) (hl : Layout S x) (ht : Tidy env (view S x))
    (hr : Readable env S x) : Uses S x d ↔ (view S x).InUse d := by
  constructor
  · rintro ⟨n, hc, hread⟩
    obtain ⟨text, htext, rfl⟩ := digestText_of_reads hS hl ht hc hread
    exact ⟨n, text, htext, rfl⟩
  · rintro ⟨n, text, htext, rfl⟩
    obtain ⟨t, hv, hdir⟩ := isDir_of_digestText htext
    have hc : (view S x).HasContainer n := by
      cases t with
      | leaf f => cases hdir
      | dir m kids => exact ⟨m, kids, hv⟩
    obtain ⟨d, hread⟩ := hr.digest n hc
    obtain ⟨text', htext', rfl⟩ := digestText_of_reads hS hl ht hc hread
    rw [htext, Option.some.injEq] at htext'
    exact htext' ▸ ⟨n, hc, hread⟩

theorem usesLayer_iff (hS : PlainPlace S) (hl : Layout S x) (hp : Promised env (view S x))
    (hr : Readable env S x) : UsesLayer env S x n ↔ (view S x).Lists env n := by
  -- the manifest of a digest in use is read where it is saved
  have hread {d bytes : Bytes} (hd : (view S x).InUse d) :
      Posix.read x ((storeAt S).manifestPath d) = .ok bytes ↔
        (view S x).manifestBytes d = some bytes := by
    obtain ⟨bytes', _, hb, -⟩ := hp.saved hd
    refine read_manifestPath hS hl (hl.name .manifests _ fun hf => ?_)
    have hg : x.get (entryPlace S .manifests (manifestName d)) = none := find_eq_none_iff.mp hf
    rw [Store.manifestBytes, view, hg] at hb
    cases hb
  constructor
  · rintro ⟨d, manifest, hd, ⟨bytes, hb, hm⟩, hlayer⟩
    have hd' := (uses_iff hS hl hp.tidy hr).mp hd
    exact ⟨d, bytes, manifest, hd', (hread hd').mp hb, hm, hlayer⟩
  · rintro ⟨d, bytes, manifest, hd, hb, hm, hlayer⟩
    exact ⟨d, manifest, (uses_iff hS hl hp.tidy hr).mpr hd, ⟨bytes, (hread hd).mpr hb, hm⟩, hlayer⟩

/-! ## What prune leaves -/

/-- What is in use is left, and nothing else. -/
structure Thinned (env : Env) (s s' : Store) : Prop where
  containers : ∀ n, s' .containers n = s .containers n
  kept : ∀ d, s.InUse d → s'.manifestBytes d = s.manifestBytes d
  only : ∀ d, s'.manifestBytes d ≠ none → s.InUse d
  layers : ∀ n, s'.HasLayer n ↔ s.Lists env n

/-- A manifest stays if it is in use, and goes otherwise. -/
theorem Pruned.fate {bytes : Bytes} (h : Pruned env S out w w') (hS : PlainPlace S)
    (hl : Layout S w.root) (ht : Tidy env (view S w.root))
    (hb : (view S w.root).manifestBytes d = some bytes) :
    ((view S w'.root).manifestBytes d = some bytes ∧ (view S w.root).InUse d) ∨
      ((view S w'.root).manifestBytes d = none ∧ ¬ (view S w.root).InUse d) := by
  rw [← uses_iff hS hl ht h.readable]
  obtain ⟨t, hv, -⟩ := Option.bind_eq_some_iff.mp hb
  obtain ⟨_, _, _, _, -, rfl, -⟩ := ht.manifest _ _ hv
  rcases h.manifests d _ _ hv with ⟨he, hu⟩ | ⟨he, hu⟩
  · exact .inl ⟨(manifestBytes_of_eq he).trans hb, hu⟩
  · refine .inr ⟨?_, hu⟩
    rw [Store.manifestBytes, he]
    rfl

theorem Pruned.thinned (h : Pruned env S out w w') (hS : PlainPlace S) (hl : Layout S w.root)
    (hp : Promised env (view S w.root)) (hheld : ∀ n, entryPlace S .locks n ∉ w.held)
    (hout : ∀ line ∈ out, line.2 = none) : Thinned env (view S w.root) (view S w'.root) := by
  have hlists (n : Bytes) : UsesLayer env S w.root n ↔ (view S w.root).Lists env n :=
    usesLayer_iff hS hl hp h.readable
  have hrefused (n : Bytes) : ¬ Refused n out := by
    rintro ⟨e, he, -⟩
    cases hout _ he
  refine ⟨h.containers, fun d hd => ?_, fun d hd => ?_, fun n => ⟨fun hn => ?_, fun hn => ?_⟩⟩
  · obtain ⟨bytes, _, hb, -⟩ := hp.saved hd
    rcases h.fate hS hl hp.tidy hb with ⟨he, -⟩ | ⟨-, hd'⟩
    · exact he.trans hb.symm
    · exact absurd hd hd'
  · obtain ⟨bytes, hb'⟩ := Option.ne_none_iff_exists'.mp hd
    obtain ⟨t, ht, -⟩ := Option.bind_eq_some_iff.mp hb'
    have hb : (view S w.root).manifestBytes d = some bytes :=
      (manifestBytes_of_eq (h.saved _ (by simp [ht]))).symm.trans hb'
    rcases h.fate hS hl hp.tidy hb with ⟨-, hd'⟩ | ⟨he, -⟩
    · exact hd'
    · exact absurd he hd
  · by_cases hold : (view S w.root).HasLayer n
    · rcases h.layers n hold with ⟨-, hu | hu | hu⟩ | ⟨he, -⟩
      · exact (hlists n).mp hu
      · exact absurd hu (hheld n)
      · exact absurd hu (hrefused n)
      · obtain ⟨m, kids, hv⟩ := hn
        cases he.symm.trans hv
    · obtain ⟨m, kids, hv⟩ := hn
      exact absurd ⟨m, kids, (h.others n hold).symm.trans hv⟩ hold
  · obtain ⟨d, bytes, manifest, hd, hb, hm, layer, hlayer, rfl⟩ := id hn
    have hold := (hp.complete.listed d bytes manifest hb hm layer hlayer).2
    rcases h.layers layer.digest hold with ⟨he, -⟩ | ⟨-, hu, -⟩
    · obtain ⟨m, kids, hv⟩ := hold
      exact ⟨m, kids, he.trans hv⟩
    · exact absurd ((hlists _).mpr hn) hu

/-! ## Swept stores -/

/-- Nothing is saved that no container uses. -/
structure Swept (env : Env) (s : Store) : Prop where
  manifests : ∀ d, s.manifestBytes d ≠ none → s.InUse d
  layers : ∀ n, s.HasLayer n → s.Lists env n

theorem Thinned.swept (h : Thinned env s s') : Swept env s' := by
  have huse (d : Bytes) : s'.InUse d ↔ s.InUse d := inUse_of_eq h.containers
  refine ⟨fun d hd => (huse d).mpr (h.only d hd), fun n hn => ?_⟩
  obtain ⟨d, bytes, manifest, hd, hb, hrest⟩ := (h.layers n).mp hn
  exact ⟨d, bytes, manifest, (huse d).mpr hd, (h.kept d hd).trans hb, hrest⟩

/-- The containers and manifests as before, and the same layers. -/
structure SameContents (s s' : Store) : Prop where
  containers : ∀ n, s' .containers n = s .containers n
  manifests : ∀ d, s'.manifestBytes d = s.manifestBytes d
  layers : ∀ n, s'.HasLayer n ↔ s.HasLayer n

/-- Prune takes away what has been added to a swept store, once the containers are as before. -/
theorem Thinned.restores (h : Thinned env s s') (hp₀ : Promised env s₀) (hs : Swept env s₀)
    (hc : ∀ n, s .containers n = s₀ .containers n)
    (hm : ∀ d bytes, s₀.manifestBytes d = some bytes → s.manifestBytes d = some bytes) :
    SameContents s₀ s' := by
  have huse (d : Bytes) : s.InUse d ↔ s₀.InUse d := inUse_of_eq hc
  have hbytes {d : Bytes} (hd : s₀.InUse d) : s.manifestBytes d = s₀.manifestBytes d := by
    obtain ⟨bytes, _, hb, -⟩ := hp₀.saved hd
    rw [hb, hm d bytes hb]
  have hlists (n : Bytes) : s.Lists env n ↔ s₀.Lists env n := by
    constructor
    · rintro ⟨d, bytes, manifest, hd, hb, hrest⟩
      have hd₀ := (huse d).mp hd
      exact ⟨d, bytes, manifest, hd₀, (hbytes hd₀).symm.trans hb, hrest⟩
    · rintro ⟨d, bytes, manifest, hd, hb, hrest⟩
      exact ⟨d, bytes, manifest, (huse d).mpr hd, (hbytes hd).trans hb, hrest⟩
  refine ⟨fun n => (h.containers n).trans (hc n), fun d => ?_, fun n => ?_⟩
  · by_cases hd : s₀.InUse d
    · exact (h.kept d ((huse d).mpr hd)).trans (hbytes hd)
    · have h₀ : s₀.manifestBytes d = none := not_not.mp fun hb => hd (hs.manifests d hb)
      have h' : s'.manifestBytes d = none := not_not.mp fun hb => hd ((huse d).mp (h.only d hb))
      exact h'.trans h₀.symm
  · rw [h.layers n, hlists n]
    refine ⟨?_, hs.layers n⟩
    rintro ⟨d, bytes, manifest, -, hb, hm, layer, hlayer, rfl⟩
    exact (hp₀.complete.listed d bytes manifest hb hm layer hlayer).2

/-! ## Install, uninstall, prune -/

theorem Removal.promised (h : Removal S n w w') (hp : Promised env (view S w.root)) :
    Promised env (view S w'.root) := by
  refine hp.moves (.single (.other (fun m => .inl (h.entries .manifests m (by simp) (by simp)))
    (fun m => ?_) (.inr fun m => h.entries .layers m (by simp) (by simp))))
  by_cases hm : m = n
  · exact .inr (hm ▸ h.gone)
  · exact .inl (h.entries .containers m (by simp) fun _ => hm)

theorem removal_of_exec [StatAnswers env] {container : Bytes} (hS : PlainPlace S)
    (henv : env.storagePath = pathOf S) (hl : Layout S w.root) (hn : Plain container)
    (hx : Exec (machine env) (main env (.uninstall container)) w (some (.ok ())) w') :
    Removal S container w w' := by
  have hbody := ends_main (c := .uninstall container) hS henv hl fun w₀ hr _ =>
    ends_mono (ends_removal hS hr hn) (fun _ h => h) (fun _ _ _ h => h) fun _ _ _ _ => trivial
  obtain ⟨w₀, -, hs, hrem⟩ := (wp_exec hbody hx).2 _ rfl
  exact ⟨hrem.gone, fun k m hk hm => (hrem.entries k m hk hm).trans (by rw [hs.view])⟩

theorem thinned_of_exec [StatAnswers env] (hS : PlainPlace S) (henv : env.storagePath = pathOf S)
    (hl : Layout S w.root) (hp : Promised env (view S w.root))
    (hheld : ∀ n, entryPlace S .locks n ∉ w.held)
    (hx : Exec (machine env) (main env .prune) w (some (.ok ())) w')
    (hquiet : ∀ out, w'.lines = w.lines ++ out → ∀ line ∈ out, line.2 = none) :
    Thinned env (view S w.root) (view S w'.root) := by
  have hbody := ends_main (c := .prune) hS henv hl fun w₀ hr _ => by
    have hprune := @ensures_prune env (fun _ => True) S ⟨True, True, True⟩ w₀ _ hS hr.toReady
      fun _ _ _ _ => trivial
    exact ends_mono (ends_of_ensures hprune fun _ _ _ => trivial) (fun _ h => h)
      (fun _ _ _ h => h) fun _ _ _ h => h
  obtain ⟨w₀, hr, hs, out, hpruned⟩ := (wp_exec hbody hx).2 _ rfl
  have hheld₀ : w₀.held = w.held := congrArg (fun a => a.1) hs.aside
  have hlines₀ : w₀.lines = w.lines := congrArg (fun a => a.2.2) hs.aside
  have h := hpruned.thinned hS hr.layout (hs.view ▸ hp) (hheld₀ ▸ hheld)
    (hquiet out (hlines₀ ▸ hpruned.lines))
  rwa [hs.view] at h

/-- In every state of a session: a prune without an error changes no container and no manifest
    that one names, keeps the promises, and leaves nothing that no container uses. -/
theorem session_pruned_swept [StatAnswers env] (hS : PlainPlace S)
    (henv : env.storagePath = pathOf S)
    (hl : Layout S w.root) (hp : Promised env (view S w.root)) (h : Session env S w w₁)
    (h₁ : w₂.root = w₁.root) (hheld : ∀ n, entryPlace S .locks n ∉ w₂.held)
    (hx : Exec (machine env) (main env .prune) w₂ (some (.ok ())) w')
    (hquiet : ∀ out, w'.lines = w₂.lines ++ out → ∀ line ∈ out, line.2 = none) :
    Promised env (view S w'.root) ∧ Swept env (view S w'.root) ∧
      (∀ n, view S w'.root .containers n = view S w₁.root .containers n) ∧
      ∀ d, (view S w₁.root).InUse d →
        (view S w'.root).manifestBytes d = (view S w₁.root).manifestBytes d := by
  obtain ⟨hl₁, hp₁⟩ := h.promised hS henv hl hp
  have hsession : Session env S w w' := .process .prune h h₁ (exec_under hx fun _ _ => trivial)
  rw [← h₁] at hl₁ hp₁
  have hthin := thinned_of_exec hS henv hl₁ hp₁ hheld hx hquiet
  rw [h₁] at hthin
  exact ⟨(hsession.promised hS henv hl hp).2, hthin.swept, hthin.containers, hthin.kept⟩

/-- In a swept store that keeps its promises, a container installed and uninstalled again leaves
    nothing behind once prune has run without an error. -/
theorem reclaimed [StatAnswers env] {container image : Bytes} (hS : PlainPlace S)
    (henv : env.storagePath = pathOf S) (hl : Layout S w.root)
    (hp : Promised env (view S w.root)) (hs : Swept env (view S w.root))
    (hi : Exec ((machine env).under ((Command.install container image).Asks env
      ⟨False, False, False⟩ S)) (main env (.install container image)) w (some (.ok ())) w₁)
    (h₁ : w₂.root = w₁.root)
    (hu : Exec (machine env) (main env (.uninstall container)) w₂ (some (.ok ())) w₃)
    (h₃ : w₄.root = w₃.root) (hheld : ∀ n, entryPlace S .locks n ∉ w₄.held)
    (hx : Exec (machine env) (main env .prune) w₄ (some (.ok ())) w')
    (hquiet : ∀ out, w'.lines = w₄.lines ++ out → ∀ line ∈ out, line.2 = none) :
    SameContents (view S w.root) (view S w'.root) := by
  have hinst := installed_of_exec hS henv hl (exec_of_under hi)
  have hsession : Session env S w w₁ := .process (.install container image) .start rfl hi
  obtain ⟨hl₁, hp₁⟩ := hsession.promised hS henv hl hp
  rw [← h₁] at hl₁ hp₁
  have hrem := removal_of_exec hS henv hl₁ (plain_of_validateContainerName hinst.name) hu
  have hl₃ := (tidy_of_exec hS henv hl₁ hp₁.tidy hu).1
  have hp₃ := hrem.promised hp₁
  rw [← h₃] at hl₃ hp₃
  have hthin := thinned_of_exec hS henv hl₃ hp₃ hheld hx hquiet
  rw [h₃] at hthin
  refine hthin.restores hp hs (fun n => ?_) fun d bytes hb => ?_
  · by_cases hn : n = container
    · subst hn
      -- what is not a container's directory is not there at all
      have hnone : view S w.root .containers n = none := by
        by_contra hne
        obtain ⟨t, ht⟩ := Option.ne_none_iff_exists'.mp hne
        cases t with
        | leaf f => cases (hp.tidy.container n _ ht).1
        | dir m kids => exact hinst.free ⟨m, kids, ht⟩
      rw [hrem.gone, hnone]
    · rw [hrem.entries .containers n (by simp) fun _ => hn, h₁, hinst.others n hn]
  · rw [manifestBytes_of_eq (hrem.entries .manifests _ (by simp) (by simp)), h₁]
    exact hinst.manifests d bytes hb

namespace Restored

/-- Prune, after the installation. -/
def tidied : Option (Except Err Unit) × World := pages.replay knowing (main knowing .prune) after

theorem held_after (p : Place) : p ∉ after.held := by
  rw [after]
  exact List.not_mem_nil

/-- The container uninstalled again. -/
def removed : Option (Except Err Unit) × World :=
  pages.replay knowing (main knowing (.uninstall (utf8 "d"))) after

/-- One more process, in the tree that this has left. -/
def last : World := ⟨removed.2.root, [], [], []⟩

theorem root_last : last.root = removed.2.root := by rw [last]

theorem held_last (p : Place) : p ∉ last.held := by
  rw [last]
  exact List.not_mem_nil

/-- Then prune. -/
def cleaned : Option (Except Err Unit) × World := pages.replay knowing (main knowing .prune) last

/-- What is computed from these. -/
structure Cleaned : Prop where
  tidies : tidied.1 = some (.ok ())
  quietTidied : (tidied.2.lines.all fun line => line.2.isNone) = true
  removes : removed.1 = some (.ok ())
  cleans : cleaned.1 = some (.ok ())
  quiet : (cleaned.2.lines.all fun line => line.2.isNone) = true

theorem computed_cleaned : Cleaned where
  tidies := by decide +kernel
  quietTidied := by decide +kernel
  removes := by decide +kernel
  cleans := by decide +kernel
  quiet := by decide +kernel

theorem inUse_world : (view place world.root).InUse manifestDigest :=
  ⟨utf8 "c", manifestDigest, rfl, trim_of_wellFormed (wellFormed_of_verifies manifestSound)⟩

theorem swept_world : Swept knowing (view place world.root) := by
  refine ⟨fun d hd => ?_, fun n hn => ?_⟩
  · obtain ⟨bytes, hb⟩ := Option.ne_none_iff_exists'.mp hd
    obtain ⟨t, ht, -⟩ := Option.bind_eq_some_iff.mp hb
    have hname := congrArg Prod.fst (List.mem_singleton.mp (mem_of_view (m := newDir) rfl ht))
    cases manifestName_inj.mp hname
    exact inUse_world
  · obtain ⟨m, kids, hv⟩ := hn
    refine ⟨manifestDigest, manifest.text, _, inUse_world, rfl,
      (congrFun parseManifest_knowing _).trans computed.parsed, ?_⟩
    rcases (layer_mem hv).1 with rfl | rfl
    · exact ⟨_, List.mem_cons_self, rfl⟩
    · exact ⟨_, List.mem_cons_of_mem _ List.mem_cons_self, rfl⟩

theorem exec_removed : Exec (machine knowing) (main knowing (.uninstall (utf8 "d"))) after
    (some (.ok ())) removed.2 := exec_of_fst_eq (pages.exec_replay _ _ _) computed_cleaned.removes

theorem exec_cleaned : Exec (machine knowing) (main knowing .prune) last (some (.ok ()))
    cleaned.2 := exec_of_fst_eq (pages.exec_replay _ _ _) computed_cleaned.cleans

/-- Where no line reports an error, none of those printed last does. -/
theorem quiet_of_all {lines before : List (Msg × Option Err)}
    (h : (lines.all fun line => line.2.isNone) = true) (out : List (Msg × Option Err))
    (hout : lines = before ++ out) : ∀ line ∈ out, line.2 = none := by
  intro line hline
  have hmem : line ∈ lines := by
    rw [hout]
    exact List.mem_append_right _ hline
  exact Option.isNone_iff_eq_none.mp (List.all_eq_true.mp h line hmem)

theorem exec_tidied : Exec (machine knowing) (main knowing .prune) after (some (.ok ())) tidied.2 :=
  exec_of_fst_eq (pages.exec_replay _ _ _) computed_cleaned.tidies

end Restored

open Restored in
theorem session_pruned_swept_again : Promised knowing (view place tidied.2.root) ∧
    Swept knowing (view place tidied.2.root) ∧
    (∀ n, view place tidied.2.root .containers n = view place installed.2.root .containers n) ∧
    ∀ d, (view place installed.2.root).InUse d →
      (view place tidied.2.root).manifestBytes d = (view place installed.2.root).manifestBytes d :=
  session_pruned_swept plain_place rfl layout_world promised_knowing
    (.process again .start rfl exec_installed) root_after (fun _ => held_after _) exec_tidied
    (quiet_of_all computed_cleaned.quietTidied)

open Restored in
theorem reclaimed_again :
    SameContents (view place world.root) (view place cleaned.2.root) :=
  reclaimed plain_place rfl layout_world promised_knowing swept_world exec_installed root_after
    exec_removed root_last (fun _ => held_last _) exec_cleaned (quiet_of_all computed_cleaned.quiet)

end Pakstak
