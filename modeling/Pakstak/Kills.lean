/-
  The commands, killed or failing at any point.

  `Ran env S w w'`: from `w` to `w'` whole operations have been done, and else nothing but what
  is `Calm`. A state seen while a command runs is never inside an operation.

  Proved, for any registry and any answers of the environment:
  * `ran_install`, `ran_uninstall`, `ran_update`, `ran_switch`, `ran_repair`, `ran_prune`: so
    it is at every point of each command, if `temporary` is not taken for missing while there is
    something in it (`TemporarySeen`).
  * `history_publishes_left`: otherwise what a killed process has left there may be published.
-/
import Pakstak.Crash
import Pakstak.Pruned
import Pakstak.Run

namespace Pakstak

open Posix Prog FileTree RegistryClient

variable {env : Env} {I : World → Prop} {S c : Place} {w w' w'' w₀ : World} {o : Operation}

/-! ## Calls -/

theorem Ran.same (h : Ran env S w w') (hl : Layout S w'.root) (hs : Same w' w'') :
    Ran env S w w'' := h.calm (hs.calm hl)

/-- A call of an operation. -/
theorem ran_perform (hS : PlainPlace S) (h : Ran env S w₀ w) (hc : o.Called S w) :
    Ensures (machine env) (Ran env S w₀) (fun _ w' => o.Leaves S w w')
      (o.perform env (storeAt S)) w :=
  ensures_mono (Operation.ensures_perform hS hc) (fun _ hw => hw.elim h.calm (h.operation o hc))
    fun _ _ _ hw => hw.2

/-- A message, after which the run goes on or ends. -/
theorem ran_print {α : Type} {m : Msg} {a : α} (h : Ran env S w₀ w') (hr : Resting S w w') :
    Ensures (machine env) (Ran env S w₀) (fun _ w'' => Resting S w w'')
      (do eprintln m; return a) w' := by
  refine ensures_bind (P := fun _ w'' => Same w' w'')
    (ensures_eprintln h fun w'' hs _ => ⟨h.same hr.rest.layout hs, hs⟩) ?_
  rintro - w'' h'' hs
  exact ensures_ok h'' (hr.trans (resting_of_same hr.rest hs))

theorem ran_last {m : Msg} (h : Ran env S w₀ w) (hl : Layout S w.root) :
    Ensures (machine env) (Ran env S w₀) (fun _ _ => True) (eprintln m) w :=
  ensures_eprintln h fun _ hs _ => ⟨h.same hl hs, trivial⟩

/-! ## Fetching -/

section

variable (hS : PlainPlace S) (hr : AtRest S w) (h : Ran env S w₀ w)
include hS hr h

theorem ran_fetchLayer {client : RegistryClient} {reference : Reference} {layer : Descriptor} :
    Ensures (machine env) (Ran env S w₀) (fun _ w' => Resting S w w')
      (fetchLayer env (storeAt S) reference client layer) w := by
  rw [fetchLayer]
  refine ensures_check (F := fun format => LayerFormat.tryFrom layer.mediaType = .ok format)
    (ensures_withContext.mpr (ensures_lift h fun format hf => ⟨rfl, hf⟩)) fun format hformat => ?_
  refine ensures_bind (ensures_getLayerPath h) ?_
  rintro found w' - ⟨rfl, -⟩
  split
  · exact ran_print h (.refl hr)
  · refine ensures_bind (ensures_withContext.mpr (ensures_fetchBlobReader hformat
      fun w₁ hs => h.same hr.layout hs)) ?_
    rintro ⟨reader, client'⟩ w₁ h₁ ⟨hs₁, -⟩
    refine ensures_bind (ensures_withContext.mpr
      (ran_perform (o := .writeLayer layer.digest format reader) hS h₁ (hr.same hs₁))) ?_
    rintro - w₂ h₂ hr₂
    exact ran_print h₂ ((resting_of_same hr hs₁).trans hr₂)

theorem ran_fetchLayers {client : RegistryClient} {reference : Reference}
    {fetched : FetchedManifest} :
    Ensures (machine env) (Ran env S w₀) (fun _ w' => Resting S w w')
      (client.fetchLayers env (storeAt S) reference fetched) w := by
  rw [fetchLayers]
  refine ensures_bind (P := fun _ w' => Same w w')
    (ensures_eprintln h fun w' hs _ => ⟨h.same hr.layout hs, hs⟩) ?_
  rintro - w₁ h₁ hs₁
  refine ensures_mono (ensures_fold (K := fun _ _ w' => Ran env S w₀ w' ∧ Resting S w w')
    (fun _ _ _ hk => hk.1) ?_ _ client w₁ ⟨h₁, resting_of_same hr hs₁⟩) (fun _ hw => hw)
    fun _ _ _ hk => hk.2
  rintro client' layer rest w₂ ⟨h₂, hr₂⟩
  exact ensures_mono (ran_fetchLayer hS hr₂.rest h₂) (fun _ hw => hw)
    fun _ w₃ h₃ hr₃ => ⟨h₃, hr₂.trans hr₃⟩

theorem ran_fetchImage {client : RegistryClient} {reference : Reference} {repair : Bool} :
    Ensures (machine env) (Ran env S w₀) (fun _ w' => Resting S w w')
      (client.fetchImage env (storeAt S) reference repair) w := by
  rw [fetchImage]
  refine ensures_bind (ensures_withContext.mpr (ensures_fetchImageManifest
    fun w' hs => h.same hr.layout hs)) ?_
  rintro ⟨f, client₁⟩ w₁ h₁ ⟨hs₁, l, -, hf⟩
  obtain ⟨-, -, hver⟩ := hf.parsed
  have hplain := plain_json_of_wellFormed (wellFormed_of_verifies hver)
  have hr₁ := hr.same hs₁
  refine ensures_bind (ensures_withContext.mpr (ensures_isManifestSaved hS hr₁.layout hplain
    fun w' hs => h₁.same hr₁.layout hs)) ?_
  rintro isSaved w₂ h₂ ⟨hs₂, -⟩
  have hr₂ : Resting S w w₂ := (resting_of_same hr hs₁).trans (resting_of_same hr₁ hs₂)
  split
  · exact ran_print h₂ hr₂
  · refine ensures_bind (ensures_withContext.mpr (ran_fetchLayers hS hr₂.rest h₂)) ?_
    rintro client₃ w₃ h₃ hr₃
    split
    · refine ensures_bind (ran_perform (o := .writeManifest f.digest f.bytes) hS h₃
        ⟨hr₃.rest, hplain⟩) ?_
      rintro - w₄ h₄ hr₄
      exact ensures_ok h₄ ((hr₂.trans hr₃).trans hr₄)
    · exact ensures_ok h₃ (hr₂.trans hr₃)

end

/-! ## Install and uninstall -/

theorem ran_install {container image : Bytes} (hS : PlainPlace S) (hr : AtRest S w)
    (h : Ran env S w₀ w) :
    Ensures (machine env) (Ran env S w₀) (fun _ _ => True)
      (install env (storeAt S) container image) w := by
  rw [install]
  refine ensures_bind (P := fun _ w' => w' = w ∧ Plain container)
    (ensures_lift h fun _ ha => ⟨rfl, plain_of_validateContainerName ha⟩) ?_
  rintro - w' - ⟨rfl, hn⟩
  refine ensures_bind (P := fun _ w₁ => w₁ = w') (ensures_pathIsDir h rfl fun _ => rfl) ?_
  rintro taken w₁ - rfl
  split
  · exact ensures_bail h
  refine ensures_bind (P := fun _ w' => w' = w₁)
    (ensures_withContext.mpr (ensures_lift h fun _ _ => rfl)) ?_
  rintro reference w' - rfl
  refine ensures_bind (ran_fetchImage hS hr h) ?_
  rintro ⟨f, client⟩ w₂ h₂ hr₂
  refine ensures_bind (ensures_withContext.mpr (ran_perform
    (o := .writeContainer container f.digest reference) hS h₂ ⟨hr₂.rest, hn⟩)) ?_
  rintro - w₃ h₃ hr₃
  exact ran_last h₃ hr₃.rest.layout

theorem ran_uninstall {container : Bytes} (hS : PlainPlace S) (hr : AtRest S w)
    (h : Ran env S w₀ w) :
    Ensures (machine env) (Ran env S w₀) (fun _ _ => True)
      (uninstall env (storeAt S) container) w := by
  rw [uninstall]
  refine ensures_bind (ensures_withContext.mpr
    (ran_perform (o := .removeContainer container) hS h hr.toReady)) ?_
  rintro - w₁ h₁ hr₁
  exact ran_last h₁ hr₁.layout

/-! ## Update and switch -/

theorem leadsOff_of_reference {container bytes : Bytes} (hr : AtRest S w)
    (hd : isDirPath w.root ((storeAt S).containerPath container) = true)
    (href : Posix.read w.root (((storeAt S).containerPath container).join referenceFile) =
      .ok bytes) : Operation.LeadsOff S w container := by
  obtain ⟨c, hw, hc⟩ := isDirPath_iff_walk.mp hd
  exact ⟨c, hw, hc, off_of_reference hr.cleared hw hc href⟩

/-- An argument leads where it led. -/
theorem Resting.leadsOff {container : Bytes} (hr : AtRest S w) (h : Resting S w w')
    (hc : Operation.LeadsOff S w container) : Operation.LeadsOff S w' container := by
  obtain ⟨c, hw, hd, hoff⟩ := hc
  have hdirs := hr.dirs h.grows h.rest.temporary
  exact ⟨c, walk_mono hdirs (hr.links h.grows) hw hd, hdirs c hd, hoff⟩

section

variable (hS : PlainPlace S) (hr : AtRest S w) (h : Ran env S w₀ w)
include hS hr h

theorem ran_updateContainer {client : RegistryClient} {container : Bytes} :
    Ensures (machine env) (Ran env S w₀) (fun _ w' => AtRest S w')
      (updateContainer env (storeAt S) client container) w := by
  rw [updateContainer]
  refine ensures_bind (ensures_ensureContainerInstalled h) ?_
  rintro - w' - ⟨rfl, hd⟩
  refine ensures_bind (ensures_readContainerReference h) ?_
  rintro reference w₁ - ⟨rfl, bytes, href, -⟩
  have hc := leadsOff_of_reference hr hd href
  refine ensures_bind (ensures_withContext.mpr (ran_fetchImage hS hr h)) ?_
  rintro ⟨f, client'⟩ w₂ h₂ hr₂
  refine ensures_bind (ensures_readContainerManifestDigest h₂) ?_
  rintro current w₃ - ⟨rfl, -⟩
  have print {w₄ : World} {m : Msg} (h₄ : Ran env S w₀ w₄) (hr₄ : AtRest S w₄) :
      Ensures (machine env) (Ran env S w₀) (fun _ w' => AtRest S w')
        (do eprintln m; return client') w₄ :=
    ensures_mono (ran_print h₄ (.refl hr₄)) (fun _ hw => hw) fun _ _ _ hw => hw.rest
  split
  · exact print h₂ hr₂.rest
  refine ensures_bind (ensures_withContext.mpr (ran_perform
    (o := .writeContainerManifestDigest container f.digest) hS h₂
      ⟨hr₂.rest, hr₂.leadsOff hr hc⟩)) ?_
  rintro - w₄ h₄ hr₄
  exact print h₄ hr₄

theorem ran_update {containers : List Bytes} :
    Ensures (machine env) (Ran env S w₀) (fun _ _ => True)
      (update env (storeAt S) containers) w := by
  have rest (names : List Bytes) : Ensures (machine env) (Ran env S w₀) (fun _ _ => True)
      (do
        let _ ← Prog.fold (updateContainer env (storeAt S)) RegistryClient.new
          (← hashOrder names)) w := by
    refine ensures_bind (P := fun _ w' => w' = w) (ensures_hashOrder h fun _ _ => rfl) ?_
    rintro order w' - rfl
    refine ensures_bind (ensures_fold (K := fun _ _ w₁ => Ran env S w₀ w₁ ∧ AtRest S w₁)
      (fun _ _ _ hk => hk.1) ?_ order _ w' ⟨h, hr⟩) fun _ w₁ h₁ _ => ensures_ok h₁ trivial
    rintro client name names w₁ ⟨h₁, hr₁⟩
    exact ensures_mono (ran_updateContainer hS hr₁ h₁) (fun _ hw => hw)
      fun _ w₂ h₂ hr₂ => ⟨h₂, hr₂⟩
  rw [update]
  split
  · refine ensures_bind (ensures_readContainers hS hr.layout h) ?_
    rintro it w' - ⟨rfl, hlist, hitem⟩
    refine ensures_bind (ensures_collectContainers hS hr.layout hlist hitem h) ?_
    rintro names w₁ - ⟨rfl, -⟩
    exact rest names
  · exact rest containers

theorem ran_switch {container digest : Bytes} :
    Ensures (machine env) (Ran env S w₀) (fun _ _ => True)
      (switch env (storeAt S) container digest) w := by
  rw [switch]
  refine ensures_bind (ensures_ensureContainerInstalled h) ?_
  rintro - w' - ⟨rfl, hd⟩
  refine ensures_bind (ensures_withContext.mpr (ensures_readContainerReference h)) ?_
  rintro reference w₁ - ⟨rfl, bytes, href, -⟩
  have hc := leadsOff_of_reference hr hd href
  refine ensures_bind (ensures_withContext.mpr (ran_fetchImage hS hr h)) ?_
  rintro ⟨f, client⟩ w₂ h₂ hr₂
  refine ensures_bind (ensures_withContext.mpr (ran_perform
    (o := .writeContainerManifestDigest container digest) hS h₂ ⟨hr₂.rest, hr₂.leadsOff hr hc⟩)) ?_
  rintro - w₃ h₃ hr₃
  exact ran_last h₃ hr₃.layout

/-! ## Repair -/

theorem ran_repairContainer {client : RegistryClient} {container : Bytes} :
    Ensures (machine env) (Ran env S w₀) (fun _ w' => AtRest S w')
      (repairContainer env (storeAt S) client container) w := by
  rw [repairContainer]
  refine ensures_bind (ensures_withContext.mpr (ensures_readContainerManifestDigest h)) ?_
  rintro digest w' - ⟨rfl, -⟩
  refine ensures_bind (ensures_withContext.mpr (ensures_readContainerReference h)) ?_
  rintro reference w₁ - ⟨rfl, -⟩
  refine ensures_bind (ensures_withContext.mpr (ran_fetchImage hS hr h)) ?_
  rintro ⟨f, client'⟩ w₂ h₂ hr₂
  exact ensures_ok h₂ hr₂.rest

end

/-- The checks of the second loop only print. -/
theorem ensures_countMissing {digest : Bytes} {missing : Nat} {layer : Descriptor}
    (hI : ∀ w', Same w w' → I w') :
    Ensures (machine env) I (fun _ w' => Same w w')
      (countMissing (storeAt S) digest missing layer) w := by
  have h₀ := hI w (.refl w)
  rw [countMissing]
  refine ensures_bind (ensures_getLayerPath h₀) ?_
  rintro found w' - ⟨rfl, -⟩
  split
  · exact ensures_ok h₀ (.refl w')
  · refine ensures_bind (P := fun _ w₁ => Same w' w₁)
      (ensures_eprintln h₀ fun w₁ hs _ => ⟨hI w₁ hs, hs⟩) ?_
    rintro - w₁ h₁ hs
    exact ensures_ok h₁ hs

theorem ensures_checkManifest {digest : Bytes} {counts : Nat × Nat}
    (hI : ∀ w', Same w w' → I w') :
    Ensures (machine env) I (fun _ w' => Same w w')
      (checkManifest env (storeAt S) counts digest) w := by
  have h₀ := hI w (.refl w)
  rw [checkManifest]
  refine ensures_bind (ensures_withContext.mpr (ensures_readManifestBytes h₀)) ?_
  rintro bytes w' - ⟨rfl, -⟩
  have print {m : Msg} {e : Err} : Ensures (machine env) I (fun _ w'' => Same w' w'')
      (do eprintError m e; return (counts.1 + 1, counts.2)) w' := by
    refine ensures_bind (P := fun _ w₁ => Same w' w₁)
      (ensures_eprintError h₀ fun w₁ hs _ => ⟨hI w₁ hs, hs⟩) ?_
    rintro - w₁ h₁ hs
    exact ensures_ok h₁ hs
  split
  · exact print
  split
  · exact print
  · rename_i manifest _
    refine ensures_bind (ensures_fold (K := fun _ _ w₁ => Same w' w₁) (fun _ _ w₁ hs => hI w₁ hs)
      ?_ manifest.layers _ w' (.refl w')) fun _ w₁ h₁ hs => ensures_ok h₁ hs
    rintro missing layer rest w₁ hs
    exact ensures_mono (ensures_countMissing fun w₂ hs₂ => hI w₂ (hs.trans hs₂)) (fun _ hw => hw)
      fun _ w₂ _ hs₂ => hs.trans hs₂

theorem ran_repair (hS : PlainPlace S) (hr : AtRest S w) (h : Ran env S w₀ w) :
    Ensures (machine env) (Ran env S w₀) (fun _ _ => True) (repair env (storeAt S)) w := by
  rw [repair]
  refine ensures_bind (ensures_readContainers hS hr.layout h) ?_
  rintro it w' - ⟨rfl, hlist, hitem⟩
  refine ensures_bind (ensures_tryFold (K := fun _ rest w₁ => Ran env S w₀ w₁ ∧ AtRest S w₁ ∧
    ∀ n ∈ rest, Plain n) (fun _ _ _ hk => hk.1) ?_ ⟨h, hr, fun n hn => (hlist.sound n hn).2⟩) ?_
  · rintro client name rest w₁ ⟨h₁, hr₁, hrest⟩
    rw [hitem]
    refine ensures_bind (ensures_withContext.mpr
      (ensures_dirItem hS hr₁.layout (hrest name (by simp)) h₁)) ?_
    rintro found w₂ - ⟨rfl, ⟨rfl, -⟩ | ⟨rfl, -⟩⟩
    · exact ensures_mono (ran_repairContainer hS hr₁ h₁) (fun _ hw => hw)
        fun _ w₃ h₃ hr₃ => ⟨h₃, hr₃, fun n hn => hrest n (by simp [hn])⟩
    · exact ensures_ok h₁ ⟨h₁, hr₁, fun n hn => hrest n (by simp [hn])⟩
  rintro client w₁ h₁ ⟨⟨-, hr₁, -⟩, -⟩
  refine ensures_bind (ensures_readManifestDigests hS hr₁.layout h₁) ?_
  rintro it₁ w₂ - ⟨rfl, hlist₁, hitem₁⟩
  refine ensures_bind (P := fun _ w' => AtRest S w') (ensures_mono
    (ensures_tryFold (K := fun _ rest w' => Ran env S w₀ w' ∧ AtRest S w' ∧ ∀ n ∈ rest, Plain n)
      (fun _ _ _ hk => hk.1) ?_ ⟨h₁, hr₁, fun n hn => (hlist₁.sound n hn).2⟩) (fun _ hw => hw)
      fun _ _ _ hk => hk.1.2.1) ?_
  · rintro counts name rest w₃ ⟨h₃, hr₃, hrest⟩
    rw [hitem₁]
    refine ensures_bind (ensures_withContext.mpr (ensures_fileItem hS hr₃.layout
      (hrest name (by simp)) h₃ (ensures_readManifestName h₃))) ?_
    rintro found w₄ - ⟨rfl, ⟨d, rfl, -⟩ | ⟨rfl, -⟩⟩
    · exact ensures_mono (ensures_checkManifest fun w₅ hs => h₃.same hr₃.layout hs)
        (fun _ hw => hw) fun _ w₅ h₅ hs => ⟨h₅, hr₃.same hs, fun n hn => hrest n (by simp [hn])⟩
    · exact ensures_ok h₃ ⟨h₃, hr₃, fun n hn => hrest n (by simp [hn])⟩
  rintro counts w₃ h₃ hr₃
  split
  · exact ensures_bail h₃
  · exact ensures_eprintln h₃ fun w₄ hs _ => ⟨h₃.same hr₃.layout hs, trivial⟩

/-! ## Prune -/

/-- Whole operations have been done, and `temporary` is there, whatever is in it: a removal
    that has failed does not end the run. -/
structure Purging (env : Env) (S : Place) (w w' : World) : Prop where
  ran : Ran env S w w'
  ready : Ready S w'

theorem Purging.same (h : Purging env S w w') (hs : Same w' w'') : Purging env S w w'' :=
  ⟨h.ran.same h.ready.layout hs, hs.root ▸ h.ready.layout, hs.root ▸ h.ready.temporary⟩

theorem Purging.locked {n : Bytes} (h : Purging env S w w') (hk : LockKept S n w' w'') :
    Purging env S w w'' := ⟨h.ran.calm hk.calm, hk.ready h.ready⟩

theorem purging_printed {m : Msg} {e : Option Err} (h : Purging env S w₀ w) :
    Ensures (machine env) (Purging env S w₀) (fun _ _ => True)
      (Prog.call (Op.eprintln m e) : M Unit) w :=
  ensures_printed h ⟨h.same (same_print w m e), trivial⟩

theorem purging_print {α : Type} {m : Msg} {e : Option Err} {a : α} (h : Purging env S w₀ w) :
    Ensures (machine env) (Purging env S w₀) (fun _ _ => True)
      (do let _ ← (Prog.call (Op.eprintln m e) : M Unit); return a) w := by
  exact ensures_bind (purging_printed h) fun _ _ h₁ _ => ensures_ok h₁ trivial

section

variable {n : Bytes} (hS : PlainPlace S) (h : Purging env S w₀ w)
include hS h

theorem purging_perform (ho : o.Removes) (hc : o.Called S w) :
    Ensures (machine env) (Purging env S w₀) (fun _ _ => True) (o.perform env (storeAt S)) w :=
  ensures_mono (Operation.ensures_performRemoval hS h.ready ho)
    (fun _ hw => ⟨hw.1.elim h.ran.calm (h.ran.operation o hc), hw.2⟩) fun _ _ _ _ => trivial

theorem purging_removeLockFile (hn : Plain n) :
    Ensures (machine env) (Purging env S w₀) (fun _ _ => True)
      (Storage.removeLockFile (pathOf (entryPlace S .locks n))) w := by
  refine ensures_last (ensures_removeFile h (fun x hx => ⟨?_, fun _ _ => trivial⟩)
    fun _ _ _ _ => trivial)
  obtain rfl := unlink_entry hS h.ready.layout hn hx
  have hl : Layout S (w.root.put (entryPlace S .locks n) none) :=
    layout_put_entry h.ready.layout (by simp) (.inl rfl)
  refine ⟨h.ran.calm ⟨hl, fun k a hk => ?_, kept_put_lock (lock_in_locks n) none⟩, hl,
    (dirAt_put_off (entry_off_temporary _ _) none).mpr h.ready.temporary⟩
  rw [withRoot_root, view_put_entry (.inl rfl), Store.set_of_ne_kind hk]

theorem purging_pruneManifests {used : List Bytes} :
    Ensures (machine env) (Purging env S w₀) (fun _ _ => True)
      (pruneManifests (storeAt S) used) w := by
  rw [pruneManifests]
  refine ensures_bind (ensures_readManifestDigests hS h.ready.layout h) ?_
  rintro it w' - ⟨rfl, hlist, hitem⟩
  refine ensures_mono (ensures_tryFold (K := fun _ rest w₁ => Purging env S w₀ w₁ ∧
    ∀ n ∈ rest, Plain n) (fun _ _ _ hk => hk.1) ?_ ⟨h, fun n hn => (hlist.sound n hn).2⟩)
    (fun _ hw => hw) fun _ _ _ _ => trivial
  rintro removed name rest w₁ ⟨h₁, hrest⟩
  have hrest' : ∀ n ∈ rest, Plain n := fun n hn => hrest n (by simp [hn])
  rw [hitem]
  refine ensures_bind (ensures_withContext.mpr (ensures_fileItem hS h₁.ready.layout
    (hrest name (by simp)) h₁ (ensures_readManifestName h₁))) ?_
  rintro found w₂ - ⟨rfl, ⟨d, rfl, -⟩ | ⟨rfl, -⟩⟩
  · dsimp only
    split
    · exact ensures_ok h₁ ⟨h₁, hrest'⟩
    refine ensures_bind (ensures_withContext.mpr
      (purging_perform (o := .removeManifest d) hS h₁ trivial h₁.ready)) ?_
    rintro - w₃ h₃ -
    exact ensures_ok h₃ ⟨h₃, hrest'⟩
  · exact ensures_ok h₁ ⟨h₁, hrest'⟩

theorem purging_pruneLayer {used : List Bytes} {removed : Nat} (hn : Plain n) :
    Ensures (machine env) (Purging env S w₀) (fun _ _ => True)
      (pruneLayer env (storeAt S) used removed n) w := by
  rw [pruneLayer]
  split
  · exact ensures_ok h trivial
  refine ensures_bind (ensures_lockLayerForPrune hS hn h.ready.layout fun w' hk => h.locked hk) ?_
  rintro r w₁ h₁ ⟨-, hlock⟩
  split
  · obtain ⟨rfl, -⟩ := hlock
    refine ensures_bind (P := fun _ _ => True) (ensures_attempt (P := fun _ _ => True) ?_
      (fun _ _ _ _ => trivial) fun _ _ _ => trivial) ?_
    · refine ensures_bind (ensures_withContext.mpr
        (purging_perform (o := .removeLayer n) hS h₁ trivial h₁.ready)) ?_
      rintro - w₂ h₂ -
      exact purging_removeLockFile hS h₂ hn
    rintro r w₂ h₂ -
    split
    · exact purging_print h₂
    · exact ensures_ok h₂ trivial
  · exact purging_print h₁
  · exact purging_print h₁

theorem purging_pruneLayers {used : List Bytes} :
    Ensures (machine env) (Purging env S w₀) (fun _ _ => True)
      (pruneLayers env (storeAt S) used) w := by
  rw [pruneLayers]
  refine ensures_bind (ensures_readLayerDigests hS h.ready.layout h) ?_
  rintro it w' - ⟨rfl, hlist, hitem⟩
  refine ensures_mono (ensures_tryFold (K := fun _ rest w₁ => Purging env S w₀ w₁ ∧
    ∀ n ∈ rest, Plain n) (fun _ _ _ hk => hk.1) ?_ ⟨h, fun n hn => (hlist.sound n hn).2⟩)
    (fun _ hw => hw) fun _ _ _ _ => trivial
  rintro removed name rest w₁ ⟨h₁, hrest⟩
  have hname := hrest name (by simp)
  have hrest' : ∀ n ∈ rest, Plain n := fun n hn => hrest n (by simp [hn])
  rw [hitem]
  refine ensures_bind (ensures_withContext.mpr (ensures_dirItem hS h₁.ready.layout hname h₁)) ?_
  rintro found w₂ - ⟨rfl, ⟨rfl, -⟩ | ⟨rfl, -⟩⟩
  · exact ensures_mono (purging_pruneLayer hS h₁ hname) (fun _ hw => hw)
      fun _ w₃ h₃ _ => ⟨h₃, hrest'⟩
  · exact ensures_ok h₁ ⟨h₁, hrest'⟩

theorem purging_cleanupLayerLock (hn : Plain n) :
    Ensures (machine env) (Purging env S w₀) (fun _ _ => True)
      (cleanupLayerLock (storeAt S) n) w := by
  rw [cleanupLayerLock]
  refine ensures_bind (ensures_getLayerPath h) ?_
  rintro found w' - ⟨rfl, -⟩
  split
  · exact ensures_ok h trivial
  refine ensures_bind (ensures_lockLayerForPrune hS hn h.ready.layout fun w' hk => h.locked hk) ?_
  rintro r w₁ h₁ ⟨-, hlock⟩
  split
  · obtain ⟨rfl, -⟩ := hlock
    refine ensures_bind (P := fun _ _ => True) (ensures_attempt (P := fun _ _ => True)
      (ensures_withContext.mpr (purging_removeLockFile hS h₁ hn))
      (fun _ _ _ _ => trivial) fun _ _ _ => trivial) ?_
    rintro r w₂ h₂ -
    split
    · exact purging_printed h₂
    · exact ensures_ok h₂ trivial
  · exact ensures_ok h₁ trivial
  · exact purging_printed h₁

theorem purging_cleanupLayerLocks :
    Ensures (machine env) (Purging env S w₀) (fun _ _ => True)
      (cleanupLayerLocks (storeAt S)) w := by
  rw [cleanupLayerLocks]
  refine ensures_bind (ensures_readLayerLockDigests hS h.ready.layout h) ?_
  rintro it w' - ⟨rfl, hlist, hitem⟩
  refine ensures_mono (ensures_iterEach (K := fun rest w₁ => Purging env S w₀ w₁ ∧
    ∀ n ∈ rest, Plain n) (fun _ _ hk => hk.1) ?_ ⟨h, fun n hn => (hlist.sound n hn).2⟩)
    (fun _ hw => hw) fun _ _ _ _ => trivial
  rintro name rest w₁ ⟨h₁, hrest⟩
  have hname := hrest name (by simp)
  have hrest' : ∀ n ∈ rest, Plain n := fun n hn => hrest n (by simp [hn])
  rw [hitem]
  refine ensures_bind (ensures_withContext.mpr (ensures_fileItem (R := fun a => a = name) hS
    h₁.ready.layout hname h₁ (ensures_bind (ensures_intoString h₁) fun a w₂ h₂ ha =>
      ensures_ok h₂ ⟨ha.1, a, rfl, ha.2⟩))) ?_
  rintro found w₂ - ⟨rfl, ⟨d, rfl, rfl, -⟩ | ⟨rfl, -⟩⟩
  · exact ensures_mono (purging_cleanupLayerLock hS h₁ hname) (fun _ hw => hw)
      fun _ w₃ h₃ _ => ⟨h₃, hrest'⟩
  · exact ensures_ok h₁ ⟨h₁, hrest'⟩

theorem purging_prune :
    Ensures (machine env) (Purging env S w₀) (fun _ _ => True) (prune env (storeAt S)) w := by
  rw [prune]
  refine ensures_bind (ensures_readUsedManifests hS h.ready.layout h) ?_
  rintro used w' - ⟨rfl, hused⟩
  refine ensures_bind (ensures_readUsedLayers hused h) ?_
  rintro usedLayers w₁ - ⟨rfl, -⟩
  refine ensures_bind (purging_pruneManifests hS h) ?_
  rintro removedManifests w₂ h₂ -
  refine ensures_bind (purging_pruneLayers hS h₂) ?_
  rintro removedLayers w₃ h₃ -
  refine ensures_bind (purging_cleanupLayerLocks hS h₃) ?_
  rintro - w₄ h₄ -
  exact purging_printed h₄

end

/-! ## Processes -/

theorem ran_body {command : Command} (hS : PlainPlace S) (hr : AtRest S w)
    (h : Ran env S w₀ w) :
    Ensures (machine env) (Ran env S w₀) (fun _ _ => True) (command.body env (storeAt S)) w := by
  cases command with
  | install container image => exact ran_install hS hr h
  | uninstall container => exact ran_uninstall hS hr h
  | update containers => exact ran_update hS hr h
  | switch container digest => exact ran_switch hS hr h
  | prune =>
    exact ensures_mono (purging_prune hS ⟨h, hr.toReady⟩) (fun _ hw => hw.ran) fun _ _ _ h => h
  | repair => exact ran_repair hS hr h

/-- Every state that a command can be seen in. -/
theorem ran_main [TemporarySeen env S] {command : Command} (hS : PlainPlace S)
    (henv : env.storagePath = pathOf S) (hl : Layout S w.root) :
    Ensures (machine env) (Ran env S w) (fun _ _ => True) (main env command) w := by
  rw [main]
  refine ensures_bind (ensures_withContext.mpr (ensures_newMutable henv hS hl
    fun w' hq => Ran.refl.calm hq.calm)) ?_
  rintro st w₁ h₁ ⟨rfl, hq, hT, hcl⟩
  exact ran_body hS ⟨⟨hq.still.layout, hT⟩, hcl⟩ h₁

/-- Processes one after the other, each killed at some point or gone on to its end. Between two
    of them the tree stays as it is, while what is aside from it may change. -/
inductive History (env : Env) (w : World) : World → Prop
  | start : History env w w
  | process {w' w₁ w'' : World} (command : Command) {res : Option (Except Err Unit)}
      (h : History env w w') (hroot : w₁.root = w'.root)
      (hx : Exec (machine env) (main env command) w₁ res w'') : History env w w''

theorem ran_of_history [TemporarySeen env S] (hS : PlainPlace S) (henv : env.storagePath = pathOf S)
    (hl : Layout S w.root) (h : History env w w') : Ran env S w w' := by
  induction h with
  | start => exact .refl
  | @process w' w₁ _ command _ _ hroot hx ih =>
    have hl₁ : Layout S w₁.root := hroot ▸ ih.layout hl
    have hc : Calm S w' w₁ := ⟨hl₁, fun _ _ _ => by rw [hroot], hroot ▸ .refl S _⟩
    exact (ih.calm hc).trans (wp_exec (ran_main hS henv hl₁) hx).1

/-- What holds at any point of a history: the store is seen with whole operations done and nothing
    else visible changed; an operation is seen undone or done; the next process finds no more in
    `temporary` than it empties; and nothing from there has come into the store. -/
structure Atomic (env : Env) (S : Place) (w w' : World) : Prop where
  ran : Ran env S w w'
  operation : ∀ (o : Operation) w₁ res w₂, o.Called S w₁ →
    Exec (machine env) (o.perform env (storeAt S)) w₁ res w₂ →
    (Calm S w₁ w₂ ∨ o.After env S w₁ w₂) ∧ (res = some (.ok ()) → o.After env S w₁ w₂)
  opened : ∀ st w₂, Exec (machine env) (Storage.newMutable env) w' (some (.ok st)) w₂ →
    Calm S w' w₂ ∧ w₂.root.DirAt (temporaryPlace S) ∧ Cleared S w₂
  sourced : AllSourced env (view S w.root) (view S w'.root)

/-- However processes are killed or fail, and whatever `stat` fails, but the question whether
    `temporary` exists while there is something in it. -/
theorem history_atomic [TemporarySeen env S] (hS : PlainPlace S) (henv : env.storagePath = pathOf S)
    (hl : Layout S w.root) (h : History env w w') : Atomic env S w w' where
  ran := ran_of_history hS henv hl h
  operation o w₁ res w₂ hc hx := by
    have hp := wp_exec (Operation.ensures_perform hS hc) hx
    exact ⟨hp.1, fun hres => (hp.2 _ hres).1⟩
  opened st w₂ hx := by
    have hran := ran_of_history hS henv hl h
    obtain ⟨-, hq, hT, hcl⟩ := (wp_exec (ensures_newMutable (I := fun _ => True) henv hS
      (hran.layout hl) fun _ _ => trivial) hx).2 _ rfl
    exact ⟨hq.calm, hT, hcl⟩
  sourced := (ran_of_history hS henv hl h).allSourced hS

namespace LeftOver

open LateError

/-- Prune, where the layer moved to `temporary` cannot be removed there. -/
def pruneRun : Option (Except Err Unit) × World :=
  Script.replay (smallEnv []) ⟨fun _ => .error .other, fun
    | .removeDirAll p => p == pathOf (temporaryPlace place ++ [layer])
    | _ => false⟩ (main (smallEnv []) .prune) store

/-- The next process opens the store. -/
def openRun : Option (Except Err Storage) × World :=
  Script.replay (smallEnv []) ⟨fun _ => .error .other, fun _ => false⟩
    (Storage.newMutable (smallEnv [])) pruneRun.2

theorem history_pruneRun : History (smallEnv []) store pruneRun.2 :=
  .process .prune .start rfl (Script.exec_replay _ _ _ _)

theorem exec_openRun : Exec (machine (smallEnv [])) (Storage.newMutable (smallEnv []))
    pruneRun.2 openRun.1 openRun.2 := Script.exec_replay _ _ _ _

end LeftOver

open LateError LeftOver in
/-- What one process leaves behind, the next one finds and removes. -/
theorem history_atomic_leftOver :
    Atomic (smallEnv []) place store pruneRun.2 ∧
    (pruneRun.2.root.get (temporaryPlace place ++ [layer])).isSome = true ∧
    Cleared place openRun.2 := by
  obtain ⟨st, hok⟩ : ∃ st, openRun.1 = some (.ok st) := by
    have h : (openRun.1.bind Except.toOption).isSome = true := by decide +kernel
    rcases hr : openRun.1 with _ | (e | st)
    · rw [hr] at h
      cases h
    · rw [hr] at h
      cases h
    · exact ⟨st, rfl⟩
  have hatomic := history_atomic plain_place rfl atRest.layout history_pruneRun
  exact ⟨hatomic, by decide +kernel, (hatomic.opened _ _ (exec_of_fst_eq exec_openRun hok)).2.2⟩

/-- Where the question about `temporary` fails, the store is opened with what is in there. -/
theorem exec_newMutable_blind {st : Storage} {w₁ w₂ : World}
    (hlock : Exec (machine env) (Storage.newWithLock env .exclusive) w (some (.ok st)) w₁)
    (hfails : env.statFails st.temporaryPath w₁.root)
    (hmade : Exec (machine env) (createDirAll st.temporaryPath) w₁ (some (.ok (.ok ()))) w₂) :
    Exec (machine env) (Storage.newMutable env) w (some (.ok st)) w₂ := by
  have hblind : Exec (machine env) (pathExists st.temporaryPath) w₁ (some (.ok false)) w₁ :=
    .ask ⟨.inr ⟨hfails, 5, rfl⟩, rfl⟩ (.done _ _)
  exact exec_bind hlock (exec_bind hblind (exec_bind hmade (.done _ _)))

namespace Stale

open TwoLayers
open FirstFetch (place plain_place)

/-- The question about `temporary` may fail. -/
def blind : Env := { twoLayers with statFails := fun p _ => p = pathOf (temporaryPlace place) }

/-- A process that was killed has left a directory where the second layer of the image is
    unpacked. -/
def store : World :=
  ⟨.dir newDir [(utf8 "s", .dir newDir [(utf8 "temporary", .dir newDir
    [(secondDigest, .dir newDir [(utf8 "left", .dir newDir [])])])])], [], [], []⟩

/-- The next process gets the lock, -/
def locked : Option (Except Err Storage) × World :=
  (script second.text).replay blind (Storage.newWithLock blind .exclusive) store

/-- finds `temporary` there, after the question about it has failed, -/
def made : Option (Except Err (Except Errno Unit)) × World :=
  (script second.text).replay blind (createDirAll (pathOf (temporaryPlace place))) locked.2

/-- and installs the image. -/
def installed : Option (Except Err Unit) × World :=
  (script second.text).replay blind
    ((Command.install (utf8 "web") image).body blind (storeAt place)) made.2

/-- What these compute. -/
structure Evaluated : Prop where
  locks : locked.1.bind Except.toOption = some (storeAt place)
  makes : (made.1.bind Except.toOption).bind Except.toOption = some ()
  installs : installed.1.bind Except.toOption = some ()
  left : (made.2.root.get (temporaryPlace place ++ [secondDigest])).isSome = true
  fresh : (view place store.root .layers secondDigest).isNone = true
  published : ((view place installed.2.root .layers secondDigest).bind
    fun t => t.kid (utf8 "left")).isSome = true

theorem evaluated : Evaluated := by constructor <;> decide +kernel

theorem ok_of_toOption {ε α : Type} {r : Option (Except ε α)} {a : α}
    (h : r.bind Except.toOption = some a) : r = some (.ok a) := by
  rcases r with _ | (e | b)
  · cases h
  · cases h
  · cases h
    rfl

theorem exec_opened :
    Exec (machine blind) (Storage.newMutable blind) store (some (.ok (storeAt place))) made.2 :=
  exec_newMutable_blind
    (exec_of_fst_eq (Script.exec_replay _ _ _ _) (ok_of_toOption evaluated.locks)) rfl
    (exec_of_fst_eq (Script.exec_replay _ _ _ _) (ok_of_toOption (ok_of_toOption evaluated.makes)))

theorem layout : Layout place store.root := layout_of_isLayout (by decide +kernel)

theorem history_installed : History blind store installed.2 :=
  .process (.install (utf8 "web") image) .start rfl (exec_bind (exec_mapError exec_opened)
    (exec_of_fst_eq (Script.exec_replay _ _ _ _) (ok_of_toOption evaluated.installs)))

end Stale

open Stale TwoLayers FirstFetch in
/-- `temporary` is not emptied, and the layer published has in it what was left there. -/
theorem history_publishes_left :
    (¬ ∀ env S w w', PlainPlace S → env.storagePath = pathOf S → Layout S w.root →
      History env w w' → Atomic env S w w') ∧
    History blind Stale.store installed.2 ∧
    (view place Stale.store.root .layers secondDigest).isNone = true ∧
    ((view place installed.2.root .layers secondDigest).bind
      fun t => t.kid (utf8 "left")).isSome = true := by
  refine ⟨fun h => ?_, history_installed, evaluated.fresh, evaluated.published⟩
  obtain ⟨-, -, hcl⟩ := (h blind place _ _ plain_place rfl Stale.layout .start).opened _ _
    exec_opened
  have hleft := evaluated.left
  rw [hcl secondDigest] at hleft
  cases hleft

end Pakstak
