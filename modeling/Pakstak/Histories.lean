/-
  The commands as moves of the contents, over whole histories.

  `Command.Asks` is what a command asks of its arguments and of what registries have answered,
  each unless the slack gives the promise up. In a `Lawful` history every step of a command
  starts from a state that meets what the command asks.

  Proved, for any registry and any answers of the environment (its `stat` answering), with
  processes that fail or are killed at any point:
  * `history_tidy`: a tidy store stays tidy, whatever the commands are.
  * `lawful_linked`: every container goes on to name a saved manifest.
  * `lawful_complete`: every layer listed goes on to be there, extracted from what verifies.
-/
import Pakstak.Kills

namespace Pakstak

open Posix Prog FileTree RegistryClient

variable {env : Env} {I C : World → Prop} {S : Place} {slack : Slack} {w w' w'' : World}

/-! ## Repair -/

/-- The condition is met wherever a turn of the loop starts. -/
theorem ensuresUnder_tryFold {α β : Type} {it : Iter α} {m : Msg} {body : β → α → M β}
    {K : β → List Bytes → World → Prop} {init : β}
    (hI : ∀ acc names w, K acc names w → I w)
    (hstep : ∀ acc name names w, C w → K acc (name :: names) w →
      EnsuresUnder (machine env) C I (fun acc' => K acc' names) (do
        match ← withContext m (it.item name) with
        | none => return acc
        | some a => body acc a) w)
    (h : K init it.listing.names w) :
    EnsuresUnder (machine env) C I (fun acc w' => K acc [] w' ∧ it.listing.broken = none)
      (it.tryFold m init body) w := by
  refine ensures_mono (ensures_tryFold (K := fun acc names w => I w ∧ (C w → K acc names w))
    (fun _ _ _ h => h.1) (fun acc name names w h => ?_) ⟨hI _ _ _ h, fun _ => h⟩) (fun _ h => h)
    fun _ _ _ h hC => ⟨h.1.2 hC, h.2⟩
  by_cases hC : C w
  · exact ensures_mono (hstep acc name names w hC (h.2 hC)) (fun _ h => h) fun _ _ hI h => ⟨hI, h⟩
  · exact ensures_mono (ensuresUnder_blocked (P := fun acc' => K acc' names) h.1 hC) (fun _ h => h)
      fun _ _ hI h => ⟨hI, h⟩

theorem ensures_repairContainer [StatAnswers env] {client : RegistryClient} {container : Bytes}
    (hS : PlainPlace S) (hr : AtRest S w) (hC : ∀ w', C w' → slack.digests ∨ FormedLayers env S w')
    (hI : ∀ w', Moved env slack S w w' → I w') :
    EnsuresUnder (machine env) C I (fun _ w' => Settled env slack S w w')
      (repairContainer env (storeAt S) client container) w := by
  have h₀ := hI w (.refl hr.layout)
  rw [repairContainer]
  refine ensuresUnder_bind (ensuresUnder_of (ensures_withContext.mpr
    (ensures_readContainerManifestDigest h₀))) ?_
  rintro digest w' - - ⟨rfl, -⟩
  refine ensuresUnder_bind (ensuresUnder_of (ensures_withContext.mpr
    (ensures_readContainerReference h₀))) ?_
  rintro reference w₁ - - ⟨rfl, -⟩
  refine ensuresUnder_bind (ensuresUnder_mapError.mpr (ensures_fetchImage hS hr hC hI)) ?_
  rintro ⟨f, client'⟩ w₂ h₂ - hf
  exact ensuresUnder_ok h₂ hf.fetching.settled

/-- The first loop moves the contents, the second one only reads them. -/
theorem ensures_repair [StatAnswers env] (hS : PlainPlace S) (hr : AtRest S w)
    (hC : ∀ w', C w' → slack.digests ∨ FormedLayers env S w')
    (hI : ∀ w', Moved env slack S w w' → I w') :
    EnsuresUnder (machine env) C I (fun _ w' => Settled env slack S w w')
      (repair env (storeAt S)) w := by
  have h₀ := hI w (.refl hr.layout)
  rw [repair]
  refine ensuresUnder_bind (ensuresUnder_of (ensures_readContainers hS hr.layout h₀)) ?_
  rintro it w' - - ⟨rfl, hlist, hitem⟩
  refine ensuresUnder_bind (ensuresUnder_tryFold (K := fun _ rest w₁ =>
    Settled env slack S w' w₁ ∧ ∀ n ∈ rest, Plain n) (fun _ _ w₁ h => hI w₁ h.1.moved) ?_
    ⟨.refl hr, fun n hn => (hlist.sound n hn).2⟩) ?_
  · rintro client name rest w₁ - ⟨hs₁, hrest⟩
    have h₁ := hI w₁ hs₁.moved
    have hrest' : ∀ n ∈ rest, Plain n := fun n hn => hrest n (by simp [hn])
    rw [hitem]
    refine ensuresUnder_bind (ensuresUnder_of (ensures_withContext.mpr
      (ensures_dirItem hS hs₁.rest.layout (hrest name (by simp)) h₁))) ?_
    rintro found w₂ - - ⟨rfl, ⟨rfl, -⟩ | ⟨rfl, -⟩⟩
    · exact ensuresUnder_mono (ensures_repairContainer hS hs₁.rest hC
        fun w₃ h => hI w₃ (hs₁.moved.trans h)) (fun _ h => h)
        fun _ w₃ _ h => ⟨hs₁.trans h, hrest'⟩
    · exact ensuresUnder_ok h₁ ⟨hs₁, hrest'⟩
  rintro client w₁ h₁ - ⟨⟨hs₁, -⟩, -⟩
  refine ensuresUnder_bind (ensuresUnder_of
    (ensures_readManifestDigests hS hs₁.rest.layout h₁)) ?_
  rintro it₁ w₂ - - ⟨rfl, hlist₁, hitem₁⟩
  refine ensuresUnder_bind (P := fun _ w₃ => Settled env slack S w' w₃) (ensuresUnder_of
    (ensures_mono (ensures_tryFold (K := fun _ rest w₃ => Settled env slack S w' w₃ ∧
      ∀ n ∈ rest, Plain n) (fun _ _ w₃ h => hI w₃ h.1.moved) ?_
      ⟨hs₁, fun n hn => (hlist₁.sound n hn).2⟩) (fun _ h => h) fun _ _ _ h => h.1.1)) ?_
  · rintro counts name rest w₃ ⟨hs₃, hrest⟩
    have h₃ := hI w₃ hs₃.moved
    have hrest' : ∀ n ∈ rest, Plain n := fun n hn => hrest n (by simp [hn])
    rw [hitem₁]
    refine ensures_bind (ensures_withContext.mpr (ensures_fileItem hS hs₃.rest.layout
      (hrest name (by simp)) h₃ (ensures_readManifestName h₃))) ?_
    rintro found w₄ - ⟨rfl, ⟨d, rfl, -⟩ | ⟨rfl, -⟩⟩
    · exact ensures_mono (ensures_checkManifest fun w₅ hs =>
        hI w₅ (hs₃.trans (hs.settled hs₃.rest)).moved) (fun _ h => h)
        fun _ w₅ _ hs => ⟨hs₃.trans (hs.settled hs₃.rest), hrest'⟩
    · exact ensures_ok h₃ ⟨hs₃, hrest'⟩
  rintro counts w₃ h₃ - hs₃
  split
  · exact ensuresUnder_of (ensures_bail h₃)
  · exact ensuresUnder_of (ensures_eprintln h₃ fun w₄ hs _ =>
      ⟨hI w₄ (hs₃.trans (hs.settled hs₃.rest)).moved, hs₃.trans (hs.settled hs₃.rest)⟩)

/-! ## Commands -/

/-- What a command asks of its arguments and of the registry. -/
def Command.Asks (env : Env) (slack : Slack) (S : Place) : Command → World → Prop
  | .install _ _, w => slack.digests ∨ FormedLayers env S w
  | .uninstall container, w => Spares slack S w.root ((storeAt S).containerPath container)
  | .update containers, w => (slack.digests ∨ FormedLayers env S w) ∧
      ∀ container ∈ containers, Outside slack S w.root container
  | .switch container digest, w => (slack.digests ∨ FormedLayers env S w) ∧
      Outside slack S w.root container ∧ (slack.unsaved ∨ Honest env S digest w)
  | .prune, _ => True
  | .repair, w => slack.digests ∨ FormedLayers env S w

/-- Without promises nothing is asked. -/
theorem Command.asks_nothing (command : Command) (w : World) :
    command.Asks env ⟨True, True, True⟩ S w := by
  cases command with
  | install container image => exact .inl trivial
  | uninstall container => exact fun _ _ _ => ⟨.inl trivial, .inl trivial⟩
  | update containers => exact ⟨.inl trivial, fun _ _ => .inl trivial⟩
  | switch container digest => exact ⟨.inl trivial, .inl trivial, .inl trivial⟩
  | prune => trivial
  | repair => exact .inl trivial

theorem ensures_body [StatAnswers env] {command : Command} (hS : PlainPlace S) (hr : AtRest S w)
    (ht : Tidy env (view S w.root)) (hI : ∀ w', Moved env slack S w w' → I w') :
    EnsuresUnder (machine env) (command.Asks env slack S) I (fun _ _ => True)
      (command.body env (storeAt S)) w := by
  cases command with
  | install container image =>
    exact ensuresUnder_mono (ensures_install hS hr ht (fun _ h => h) hI) (fun _ h => h)
      fun _ _ _ _ => trivial
  | uninstall container =>
    exact ensuresUnder_mono (ensures_uninstall hS hr ht (fun _ h => h) hI) (fun _ h => h)
      fun _ _ _ _ => trivial
  | update containers =>
    exact ensuresUnder_mono (ensures_update hS hr ht (fun _ h => h.1) (fun _ h => h.2) hI)
      (fun _ h => h) fun _ _ _ _ => trivial
  | switch container digest =>
    exact ensuresUnder_mono (ensures_switch hS hr ht (fun _ h => h.1) (fun _ h => h.2.1)
      (fun _ h => h.2.2) hI) (fun _ h => h) fun _ _ _ _ => trivial
  | prune =>
    exact ensuresUnder_mono (ensuresUnder_of (ensures_prune hS hr.toReady
      fun w' hl hh hd => hI w' ⟨hl, hd.moves ht, hh⟩)) (fun _ h => h) fun _ _ _ _ => trivial
  | repair =>
    exact ensuresUnder_mono (ensures_repair hS hr (fun _ h => h) hI) (fun _ h => h)
      fun _ _ _ _ => trivial

/-- Every state that a command can be seen in, while its steps meet what it asks. -/
theorem ensures_main [StatAnswers env] {command : Command} (hS : PlainPlace S)
    (henv : env.storagePath = pathOf S) (hl : Layout S w.root) (ht : Tidy env (view S w.root)) :
    EnsuresUnder (machine env) (command.Asks env slack S) (Moved env slack S w) (fun _ _ => True)
      (main env command) w := by
  rw [main]
  refine ensuresUnder_bind (ensuresUnder_of (ensures_withContext.mpr (ensures_newMutable henv hS hl
    fun w' hq => moved_of_still hq.still))) ?_
  rintro st w₁ - - ⟨rfl, hq, hT, hcl⟩
  have hm : Moved env slack S w w₁ := moved_of_still hq.still
  refine ensures_body hS ⟨⟨hm.layout, hT⟩, hcl⟩ (hq.still.view ▸ ht) fun w₂ h => hm.trans h

/-! ## Histories -/

/-- A history in which each step of a command starts from a state that meets what the command
    asks. -/
inductive Lawful (env : Env) (slack : Slack) (S : Place) (w : World) : World → Prop
  | start : Lawful env slack S w w
  | process {w' w₁ w'' : World} (command : Command) {res : Option (Except Err Unit)}
      (h : Lawful env slack S w w') (hroot : w₁.root = w'.root)
      (hx : Exec ((machine env).under (command.Asks env slack S)) (main env command) w₁ res w'') :
      Lawful env slack S w w''

theorem moves_of_lawful [StatAnswers env] (hS : PlainPlace S) (henv : env.storagePath = pathOf S)
    (hl : Layout S w.root) (ht : Tidy env (view S w.root)) (h : Lawful env slack S w w') :
    Layout S w'.root ∧ Moves env slack (view S w.root) (view S w'.root) := by
  induction h with
  | start => exact ⟨hl, .refl⟩
  | @process w' w₁ w'' command res h hroot hx ih =>
    obtain ⟨hl', hm'⟩ := ih
    rw [← hroot] at hl' hm'
    have hm := ensuresUnder_exec (ensures_main hS henv hl' (ht.moves hm')) hx
    exact ⟨hm.layout, hm'.trans hm.moves⟩

/-- An empty store keeps every promise. -/
theorem promises_empty (h : ∀ k n, view S w.root k n = none) : Tidy env (view S w.root) ∧
    Linked env (view S w.root) ∧ Complete env (view S w.root) := by
  refine ⟨⟨fun n t ht => ?_, fun n t ht => ?_⟩, fun n t ht => ?_, ⟨fun d bytes _ hb => ?_,
    fun n t ht => ?_⟩⟩
  · exact absurd ((h _ n).symm.trans ht) (by simp)
  · exact absurd ((h _ n).symm.trans ht) (by simp)
  · exact absurd ((h _ n).symm.trans ht) (by simp)
  · rw [Store.manifestBytes, h] at hb
    cases hb
  · exact absurd ((h _ n).symm.trans ht) (by simp)

namespace FirstInstall

open FirstFetch (place store)

/-- The empty manifest, installed in the empty store. -/
def installRun : Option (Except Err Unit) × World :=
  Script.replay TwoKinds.twoDocuments ⟨TwoKinds.registry TwoKinds.manifestType, fun _ => false⟩
    (main TwoKinds.twoDocuments (.install (utf8 "web") (utf8 "r.io/a@" ++ emptyManifestDigest)))
    store

/-- Prune, after the installation. -/
def pruneRun : Option (Except Err Unit) × World :=
  Script.replay TwoKinds.twoDocuments ⟨fun _ => .error .other, fun _ => false⟩
    (main TwoKinds.twoDocuments .prune) installRun.2

theorem exec_pruneRun : Exec (machine TwoKinds.twoDocuments) (main TwoKinds.twoDocuments .prune)
    installRun.2 pruneRun.1 pruneRun.2 := Script.exec_replay _ _ _ _

theorem view_store (k : Kind) (n : Bytes) : view place store.root k n = none := by
  refine get_append_of_none ?_ [n]
  cases k <;> rfl

end FirstInstall

/-- Where no argument leads into the layers, and the layer digests of the manifests received are
    well formed, every layer that a saved manifest lists is there, and every layer there is the
    extraction of an archive that verifies under its name. -/
theorem lawful_complete [StatAnswers env] (hS : PlainPlace S) (henv : env.storagePath = pathOf S)
    (hl : Layout S w.root) (ht : Tidy env (view S w.root)) (hk : Complete env (view S w.root))
    (h : Lawful env ⟨True, False, False⟩ S w w') : Complete env (view S w'.root) :=
  hk.moves id id (moves_of_lawful hS henv hl ht h).2

namespace TwoLayers

open FirstFetch (place)

/-- The image installed in the empty store. -/
def installRun : Option (Except Err Unit) × World :=
  (script second.text).replay twoLayers (main twoLayers (.install (utf8 "web") image))
    FirstFetch.store

/-- Prune, after the installation. -/
def pruneRun : Option (Except Err Unit) × World :=
  (script second.text).replay twoLayers (main twoLayers .prune) installRun.2

/-- All that is received is the manifest and the archives. -/
def Sent (w : World) : Prop :=
  ∀ a ∈ answers w.net, a.response.body.data ∈ [manifest.text, first.text, second.text]

theorem sent_reply (o : Op) (w : World) (h : Sent w) :
    Sent ((script second.text).reply twoLayers o w).2 :=
  Script.answers_reply (P := fun response =>
    response.body.data ∈ [manifest.text, first.text, second.text])
    (fun _ _ hr => data_of_sent hr) o w h

/-- What the runs compute. -/
structure Kept : Prop where
  parsed : parseManifest twoLayers manifest.text = some imageManifest
  other : parseManifest twoLayers first.text = none ∧ parseManifest twoLayers second.text = none
  formed : ∀ layer ∈ imageManifest.layers, WellFormed layer.digest
  saved : ((view place pruneRun.2.root).manifestBytes manifestDigest).isSome = true
  layers : ((view place pruneRun.2.root .layers firstDigest).isSome &&
    (view place pruneRun.2.root .layers secondDigest).isSome) = true

theorem kept : Kept := by constructor <;> decide +kernel

theorem formed_of_sent {w : World} (h : Sent w) : FormedLayers twoLayers place w := by
  intro a ha m hm layer hlayer _
  have hdata := h a ha
  simp only [List.mem_cons, List.not_mem_nil, or_false] at hdata
  rcases hdata with hd | hd | hd
  · rw [hd, kept.parsed, Option.some.injEq] at hm
    subst hm
    exact kept.formed layer hlayer
  · rw [hd, kept.other.1] at hm
    cases hm
  · rw [hd, kept.other.2] at hm
    cases hm

theorem lawful_pruneRun : Lawful twoLayers ⟨True, False, False⟩ place FirstFetch.store
    pruneRun.2 :=
  .process .prune
    (.process (.install _ _) .start rfl (exec_run_under ((script second.text).reply_step twoLayers)
      sent_reply (fun _ h => .inr (formed_of_sent h)) _ _ fun _ ha => by cases ha)) rfl
    (exec_under (Script.exec_replay _ _ _ _) fun _ _ => trivial)

end TwoLayers

open TwoLayers in
open FirstFetch (place plain_place) in
/-- An image of two layers installed, and the store pruned. -/
theorem lawful_complete_prune : Complete twoLayers (view place pruneRun.2.root) ∧
    ((view place pruneRun.2.root).manifestBytes manifestDigest).isSome = true ∧
    ((view place pruneRun.2.root .layers firstDigest).isSome &&
      (view place pruneRun.2.root .layers secondDigest).isSome) = true :=
  ⟨lawful_complete plain_place rfl FirstFetch.atRest.layout
    (promises_empty FirstInstall.view_store).1
    (promises_empty FirstInstall.view_store).2.2 lawful_pruneRun, kept.saved, kept.layers⟩

end Pakstak
