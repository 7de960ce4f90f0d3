/-
  The commands on containers, as moves of the contents: install, uninstall, update, switch.

  Each of them ends at rest (`Settled`). What a command may ask of its arguments and of the
  registry is a condition `C` on the states its steps start from: `Outside` (no container
  argument leads into the layers), `Spares`, `Honest` (the registry answers under the digest
  asked for) and `FormedLayers`, each unless the slack allows for its absence.

  Proved, for a tidy store at rest, any answers of the environment (its `stat` answering), and
  every state seen on the way: `ensures_install`, `ensures_uninstall`, `ensures_update`,
  `ensures_switch`.
-/
import Pakstak.Commands
import Pakstak.Sites

namespace Pakstak

open Posix Prog FileTree RegistryClient

variable {env : Env} {I C : World → Prop} {S c : Place} {slack : Slack} {w w' w'' : World}

/-! ## The state between two steps -/

/-- The contents have moved, and the store is at rest. -/
structure Settled (env : Env) (slack : Slack) (S : Place) (w w' : World) : Prop where
  moved : Moved env slack S w w'
  rest : AtRest S w'

theorem Settled.refl (hr : AtRest S w) : Settled env slack S w w := ⟨.refl hr.layout, hr⟩

theorem Settled.trans (h : Settled env slack S w w') (h' : Settled env slack S w' w'') :
    Settled env slack S w w'' := ⟨h.moved.trans h'.moved, h'.rest⟩

theorem Settled.tidy (h : Settled env slack S w w') (ht : Tidy env (view S w.root)) :
    Tidy env (view S w'.root) := ht.moves h.moved.moves

theorem Fetching.settled (h : Fetching env slack S w w') : Settled env slack S w w' :=
  ⟨h.moved, h.rest⟩

theorem Same.settled (h : Same w w') (hr : AtRest S w) : Settled env slack S w w' :=
  (h.toFetching hr).settled

/-- A message ends a run well. -/
theorem ensuresUnder_print {α : Type} {P : α → World → Prop} {m : Msg} {a : α}
    (h : Settled env slack S w w') (hI : ∀ w', Moved env slack S w w' → I w')
    (hP : ∀ w'', Settled env slack S w w'' → P a w'') :
    EnsuresUnder (machine env) C I P (do eprintln m; return a) w' := by
  have settled {w'' : World} (hs : Same w' w'') : Settled env slack S w w'' :=
    h.trans (hs.settled h.rest)
  refine ensuresUnder_of (ensures_bind (P := fun _ w'' => Same w' w'')
    (ensures_eprintln (hI w' h.moved) fun w'' hs _ => ⟨hI w'' (settled hs).moved, hs⟩) ?_)
  rintro - w'' h'' hs
  exact ensures_ok h'' (hP w'' (settled hs))

/-! ## Install -/

theorem plain_of_validateContainerName {n : Bytes} (h : validateContainerName n = .ok ()) :
    Plain n := by
  rw [validateContainerName] at h
  split at h
  · cases h
  rename_i hne
  split at h
  · cases h
  rename_i hdots
  rw [not_or] at hdots
  split at h
  · cases h
  rename_i hall
  refine ⟨hne, fun hs => ?_, hdots.1, hdots.2⟩
  have := List.all_eq_true.mp (not_not.mp hall) slashByte hs
  exact absurd this (by decide)

theorem ImageFetched.saved_tidy {reference : Reference} {repair : Bool} {f : FetchedManifest}
    (h : ImageFetched env slack S reference repair f w w') (ht : Tidy env (view S w.root)) :
    Saved env (view S w'.root) f.digest := by
  obtain ⟨bytes, hb, -⟩ := h.saved
  exact (h.fetching.settled.tidy ht).saved hb

theorem ensures_install [StatAnswers env] {container image : Bytes} (hS : PlainPlace S)
    (hr : AtRest S w)
    (ht : Tidy env (view S w.root)) (hC : ∀ w', C w' → slack.digests ∨ FormedLayers env S w')
    (hI : ∀ w', Moved env slack S w w' → I w') :
    EnsuresUnder (machine env) C I (fun _ w' => Settled env slack S w w')
      (install env (storeAt S) container image) w := by
  have h₀ := hI w (.refl hr.layout)
  rw [install]
  refine ensuresUnder_bind (ensuresUnder_of (P := fun _ w' => w' = w ∧ Plain container)
    (ensures_lift h₀ fun a ha => ⟨rfl, plain_of_validateContainerName ha⟩)) ?_
  rintro - w' - - ⟨rfl, hn⟩
  refine ensuresUnder_bind (ensuresUnder_of (P := fun _ w₁ => w₁ = w')
    (ensures_pathIsDir h₀ rfl fun _ => rfl)) ?_
  rintro taken w₁ - - rfl
  split
  · exact ensuresUnder_of (ensures_bail h₀)
  refine ensuresUnder_bind (ensuresUnder_of (P := fun _ w' => w' = w₁)
    (ensures_withContext.mpr (ensures_lift h₀ fun _ _ => rfl))) ?_
  rintro reference w' - - rfl
  refine ensuresUnder_bind (ensures_fetchImage hS hr hC hI) ?_
  rintro ⟨f, client⟩ w₂ h₂ - hf
  have hs₂ := hf.fetching.settled
  have hsaved := hf.saved_tidy ht
  have move {t : Node} (hc : IsContainer env f.digest reference t) :
      Move env slack (view S w₂.root) ((view S w₂.root).set .containers container (some t)) :=
    .addContainer hsaved hc
  refine ensuresUnder_bind (ensuresUnder_of (ensures_withContext.mpr
    (ensures_writeContainer hS hn hs₂.rest
      (fun w₃ h => hI w₃ (hs₂.moved.trans (moved_of_still h.still)))
      fun t w₃ hc h => hI w₃ (hs₂.moved.trans (moved_of_becomes h.becomes (move hc)))))) ?_
  rintro - w₃ h₃ - ⟨t, hc, hadv⟩
  exact ensuresUnder_print (hs₂.trans ⟨moved_of_becomes hadv.becomes (move hc), hadv.rest⟩) hI
    fun _ h => h

/-! ## Uninstall -/

theorem ensures_uninstall {container : Bytes} (hS : PlainPlace S) (hr : AtRest S w)
    (ht : Tidy env (view S w.root))
    (hC : ∀ w', C w' → Spares slack S w'.root ((storeAt S).containerPath container))
    (hI : ∀ w', Moved env slack S w w' → I w') :
    EnsuresUnder (machine env) C I (fun _ w' => Settled env slack S w w')
      (uninstall env (storeAt S) container) w := by
  have h₀ := hI w (.refl hr.layout)
  rw [uninstall, Storage.removeContainer]
  refine ensuresUnder_bind (P := fun _ w' => Settled env slack S w w')
    (ensuresUnder_mapError.mpr ?_) fun _ w₁ _ _ hs₁ => ensuresUnder_print hs₁ hI fun _ h => h
  refine ensuresUnder_bind (ensuresUnder_of (ensures_ensureContainerInstalled h₀)) ?_
  rintro - w' - hCw ⟨rfl, hd⟩
  have hp := properPath_containerPath hS container
  have gone {w₁ : World} (h : Removed S ((storeAt S).containerPath container) w' w₁) :
      Moved env slack S w' w₁ := h.moved hr.layout ht hr.cleared hd (hC w' hCw)
  rw [removeDirectory_eq]
  refine ensuresUnder_of (ensures_mono (ensures_moveAndDrop hS hp hr.temporary
    (fun a ha => drops_removeDirAllWritable hS ha _ fun _ => trivial)
    (fun a ha => drops_removeDirAllWritable hS ha _ fun _ => trivial)
    (fun w₁ h hT => hI w₁ (moved_of_still (still_of_within hr.layout h (.inr hT))))
    fun w₁ h => hI w₁ (gone h)) (fun _ h => h) ?_)
  rintro - w₁ - ⟨hrem, hcl⟩
  exact ⟨gone hrem, ⟨(gone hrem).layout, hrem.temporary⟩, hcl hr.cleared⟩

/-! ## The directory a command takes for a container -/

/-- The argument does not lead into the layers. -/
def Outside (slack : Slack) (S : Place) (x : Node) (container : Bytes) : Prop :=
  slack.layers ∨ ∀ c, walk x ((storeAt S).containerPath container) = .ok c →
    ¬ tablePlace S .layers <+: c

/-- The name of a container leads to that container. -/
theorem walk_container {x : Node} {n : Bytes} (hS : PlainPlace S) (hl : Layout S x)
    (hn : Plain n) (hw : walk x ((storeAt S).containerPath n) = .ok c) :
    c = entryPlace S .containers n := by
  rw [containerPath_storeAt hn] at hw
  rcases hl.table .containers _ List.prefix_rfl with hg | hd
  · rw [pathOf, entryPlace,
      walk_missing (hl.table .containers) hg (plain_tablePlace hS _) (by simp)] at hw
    cases hw
  · rw [pathOf, entryPlace,
      walk_child hd (plain_tablePlace hS _) hn (hl.entry .containers n), Except.ok.injEq] at hw
    exact hw.symm

theorem outside_of_plain {x : Node} {n : Bytes} (hS : PlainPlace S) (hl : Layout S x)
    (hn : Plain n) : Outside slack S x n := by
  refine .inr fun c hw h => ?_
  rw [walk_container hS hl hn hw] at h
  cases table_le_entry h

/-- The argument leads to the directory `c`, where a digest can be written. -/
structure LeadsTo (slack : Slack) (S : Place) (w : World) (container : Bytes) (c : Place) :
    Prop where
  walk : Posix.walk w.root ((storeAt S).containerPath container) = .ok c
  dir : w.root.DirAt c
  off : ¬ temporaryPlace S <+: c
  site : Site slack S c

/-- A directory with a reference in it is not in `temporary`, where nothing is. -/
theorem off_of_reference {p : PathBuf} {bytes : Bytes} (hcl : Cleared S w)
    (hw : Posix.walk w.root p = .ok c) (hc : w.root.DirAt c)
    (href : Posix.read w.root (p.join referenceFile) = .ok bytes) : ¬ temporaryPlace S <+: c := by
  rintro ⟨r, rfl⟩
  cases r with
  | nil =>
    rw [List.append_nil] at hw hc
    have hf := find_eq_none_iff.mpr (hcl referenceFile)
    obtain ⟨m, hm⟩ := (read_join plain_referenceFile hw hc fun t ht => by
      rw [hf] at ht; cases ht).mp href
    rw [hf] at hm
    cases hm
  | cons n r =>
    obtain ⟨m, kids, hg⟩ := hc
    rw [show temporaryPlace S ++ n :: r = temporaryPlace S ++ [n] ++ r by simp,
      get_append_of_none (hcl n)] at hg
    cases hg

theorem leadsTo_of_reference {container bytes : Bytes} (hr : AtRest S w)
    (ht : Tidy env (view S w.root))
    (hd : isDirPath w.root ((storeAt S).containerPath container) = true)
    (href : Posix.read w.root (((storeAt S).containerPath container).join referenceFile) =
      .ok bytes) (ho : Outside slack S w.root container) : ∃ c, LeadsTo slack S w container c := by
  obtain ⟨c, hw, hc⟩ := isDirPath_iff_walk.mp hd
  exact ⟨c, hw, hc, off_of_reference hr.cleared hw hc href,
    site_of_reference hr.layout ht hw hc href (ho.imp_right fun h => h c hw)⟩

theorem LeadsTo.fetching {container : Bytes} (h : LeadsTo slack S w container c) (hr : AtRest S w)
    (hf : Fetching env slack S w w') : LeadsTo slack S w' container c := by
  have hdirs := hr.dirs hf.grows hf.rest.temporary
  exact ⟨walk_mono hdirs (hr.links hf.grows) h.walk h.dir, hdirs c h.dir, h.off, h.site⟩

/-- A digest is written to the directory that the argument leads to. -/
theorem ends_publishDigest {container digest : Bytes} (hS : PlainPlace S) (hr : AtRest S w)
    (hw : Posix.walk w.root ((storeAt S).containerPath container) = .ok c) (hc : w.root.DirAt c)
    (hoff : ¬ temporaryPlace S <+: c) (hI : ∀ w', Keeps (temporaryPlace S) w w' → I w')
    (hI' : ∀ w', Published S c digestFile digestFile (.leaf (.file newFile digest)) w w' → I w') :
    Ends (machine env) I
      (fun _ w' => Published S c digestFile digestFile (.leaf (.file newFile digest)) w w')
      (fun _ w' => Keeps (temporaryPlace S) w w')
      ((storeAt S).writeContainerManifestDigest container digest) w := by
  rw [Storage.writeContainerManifestDigest]
  refine ends_mapError.mpr (ends_bind (ends_of_ensures_and (ensures_ensureParentDir_present
    (parent_join plain_digestFile _) (isDirPath_iff_walk.mpr ⟨c, hw, hc⟩)
    ⟨hI w (.refl _ w), .refl _ w⟩)) ?_)
  rintro - w' - rfl
  refine ends_writeAndRename hS hr.toReady hr.cleared
    ⟨locate_join plain_digestFile hw hc, (properPath_containerPath hS container).join _,
      fun h => ?_⟩ hI hI'
  rcases List.prefix_concat_iff.mp h with h | h
  · obtain ⟨-, hn⟩ := List.append_inj' h rfl
    exact absurd hn (by decide +kernel)
  · exact hoff h

theorem ensures_writeContainerManifestDigest {container digest : Bytes} (hS : PlainPlace S)
    (hr : AtRest S w) (hc : LeadsTo slack S w container c) (hw : WellFormed digest)
    (hs : slack.unsaved ∨ Saved env (view S w.root) digest)
    (hI : ∀ w', Moved env slack S w w' → I w') :
    Ensures (machine env) I (fun _ w' => Settled env slack S w w')
      ((storeAt S).writeContainerManifestDigest container digest) w := by
  have moved {w' : World} (h : Published S c digestFile digestFile (.leaf (.file newFile digest))
      w w') : Moved env slack S w w' := hc.site.moved hr.toReady hc.dir hw hs h
  exact ensures_mono (ensures_of_ends (ends_publishDigest hS hr hc.walk hc.dir hc.off
    (fun w₁ h => hI w₁ (moved_of_still (hr.still h))) fun w₁ h => hI w₁ (moved h)))
    (fun _ h => h) fun _ w₁ _ h =>
      ⟨moved h, ⟨(moved h).layout, h.placed.temporary⟩, h.cleared (hr.cleared.but _)⟩

/-! ## Update -/

theorem ensures_updateContainer [StatAnswers env] {client : RegistryClient} {container : Bytes}
    (hS : PlainPlace S) (hr : AtRest S w) (ht : Tidy env (view S w.root))
    (hC : ∀ w', C w' → slack.digests ∨ FormedLayers env S w')
    (hC' : C w → Outside slack S w.root container)
    (hI : ∀ w', Moved env slack S w w' → I w') :
    EnsuresUnder (machine env) C I (fun _ w' => Settled env slack S w w')
      (updateContainer env (storeAt S) client container) w := by
  have h₀ := hI w (.refl hr.layout)
  rw [updateContainer]
  refine ensuresUnder_bind (ensuresUnder_of (ensures_ensureContainerInstalled h₀)) ?_
  rintro - w' - hCw ⟨rfl, hd⟩
  refine ensuresUnder_bind (ensuresUnder_of (ensures_readContainerReference h₀)) ?_
  rintro reference w₁ - - ⟨rfl, bytes, href, -⟩
  obtain ⟨c, hc⟩ := leadsTo_of_reference hr ht hd href (hC' hCw)
  refine ensuresUnder_bind (ensuresUnder_mapError.mpr (ensures_fetchImage hS hr hC hI)) ?_
  rintro ⟨f, client'⟩ w₂ h₂ - hf
  have hs₂ := hf.fetching.settled
  have hsaved := hf.saved_tidy ht
  have hw : WellFormed f.digest := by
    obtain ⟨_, _, -, hv, -⟩ := hsaved
    exact wellFormed_of_verifies hv
  refine ensuresUnder_bind (ensuresUnder_of (ensures_readContainerManifestDigest h₂)) ?_
  rintro current w₃ - - ⟨rfl, -⟩
  split
  · exact ensuresUnder_print hs₂ hI fun _ h => h
  refine ensuresUnder_bind (ensuresUnder_of (ensures_withContext.mpr
    (ensures_writeContainerManifestDigest hS hs₂.rest (hc.fetching hr hf.fetching) hw (.inr hsaved)
      fun w₄ h => hI w₄ (hs₂.moved.trans h)))) ?_
  rintro - w₄ - - hs₄
  exact ensuresUnder_print (hs₂.trans hs₄) hI fun _ h => h

/-- The installed containers, by their names. -/
theorem ensures_collectContainers {it : Iter Bytes} {m : Msg} (hS : PlainPlace S)
    (hl : Layout S w.root) (hlist : Listed S .containers w.root it.listing)
    (hitem : it.item = dirItem S .containers "container name {:?} is not valid UTF-8")
    (h₀ : I w) :
    Ensures (machine env) I
      (fun names w' => w' = w ∧ (∀ n ∈ names, Plain n) ∧
        (StatAnswers env →
          ∀ n m kids, view S w.root .containers n = some (.dir m kids) → n ∈ names))
      (it.collect m) w := by
  refine ensures_mono (ensures_tryFold (K := fun names rest w₁ => w₁ = w ∧
    (∀ n ∈ names, Plain n) ∧ (∀ n ∈ rest, Plain n) ∧ (StatAnswers env →
      ∀ n ∈ it.listing.names, n ∉ rest →
        ∀ m kids, view S w.root .containers n = some (.dir m kids) → n ∈ names))
    (fun _ _ _ h => h.1 ▸ h₀) ?_
    ⟨rfl, by simp, fun n hn => (hlist.sound n hn).2, fun _ n h h' => absurd h h'⟩) (fun _ h => h) ?_
  · rintro names name rest w₁ ⟨rfl, hnames, hrest, hdone⟩
    rw [hitem]
    refine ensures_bind (ensures_withContext.mpr
      (ensures_dirItem hS hl (hrest name (by simp)) h₀)) ?_
    rintro o w₂ - ⟨rfl, ⟨rfl, -⟩ | ⟨rfl, hnot⟩⟩
    · refine ensures_ok h₀ ⟨rfl, fun n hn => ?_, fun n hn => hrest n (by simp [hn]),
        fun hs n hn hr m kids hv => ?_⟩
      · rcases List.mem_append.mp hn with hn | hn
        · exact hnames n hn
        · exact List.mem_singleton.mp hn ▸ hrest name (by simp)
      · by_cases he : n = name
        · simp [he]
        · simp [hdone hs n hn (by simp [he, hr]) m kids hv]
    · refine ensures_ok h₀ ⟨rfl, hnames, fun n hn => hrest n (by simp [hn]),
        fun hs n hn hr m kids hv => hdone hs n hn (fun h => ?_) m kids hv⟩
      rcases List.mem_cons.mp h with rfl | h
      · exact hnot hs ⟨m, kids, hv⟩
      · exact hr h
  · rintro names w₁ - ⟨⟨rfl, hnames, -, hdone⟩, hb⟩
    exact ⟨rfl, hnames, fun hs n m kids hv =>
      hdone hs n (hlist.whole hb n (by rw [hv]; rfl)) (by simp) m kids hv⟩

theorem ensures_update [StatAnswers env] {containers : List Bytes} (hS : PlainPlace S)
    (hr : AtRest S w)
    (ht : Tidy env (view S w.root)) (hC : ∀ w', C w' → slack.digests ∨ FormedLayers env S w')
    (hC' : ∀ w', C w' → ∀ a ∈ containers, Outside slack S w'.root a)
    (hI : ∀ w', Moved env slack S w w' → I w') :
    EnsuresUnder (machine env) C I (fun _ w' => Settled env slack S w w')
      (update env (storeAt S) containers) w := by
  have h₀ := hI w (.refl hr.layout)
  -- a name is an argument, or the name of a container
  have rest (names : List Bytes) (hnames : ∀ n ∈ names, n ∈ containers ∨ Plain n) :
      EnsuresUnder (machine env) C I (fun _ w' => Settled env slack S w w')
        (do
          let _ ← Prog.fold (updateContainer env (storeAt S)) RegistryClient.new
            (← hashOrder names)) w := by
    refine ensuresUnder_bind (ensuresUnder_of (P := fun order w' => w' = w ∧
      ∀ n ∈ order, n ∈ containers ∨ Plain n) (ensures_hashOrder h₀ fun order ho =>
        ⟨rfl, fun n hn => hnames n (List.mem_dedup.mp (ho.mem_iff.mp hn))⟩)) ?_
    rintro order w' - - ⟨rfl, horder⟩
    refine ensuresUnder_bind (ensuresUnder_fold (K := fun _ names w₁ =>
      Settled env slack S w' w₁ ∧ ∀ n ∈ names, n ∈ containers ∨ Plain n)
      (fun _ _ w₁ h => hI w₁ h.1.moved) ?_ order _ w' ⟨.refl hr, horder⟩)
      fun _ w₁ h₁ _ h => ensuresUnder_ok h₁ h.1
    rintro client name names w₁ - ⟨hs₁, hn⟩
    refine ensuresUnder_mono (ensures_updateContainer hS hs₁.rest (hs₁.tidy ht) hC
      (fun hCw => ?_) fun w₂ h => hI w₂ (hs₁.moved.trans h)) (fun _ h => h)
      fun _ w₂ _ h => ⟨hs₁.trans h, fun n hm => hn n (by simp [hm])⟩
    rcases hn name (by simp) with h | h
    · exact hC' w₁ hCw name h
    · exact outside_of_plain hS hs₁.rest.layout h
  rw [update]
  split
  · refine ensuresUnder_bind (ensuresUnder_of (ensures_readContainers hS hr.layout h₀)) ?_
    rintro it w' - - ⟨rfl, hlist, hitem⟩
    refine ensuresUnder_bind (ensuresUnder_of
      (ensures_collectContainers hS hr.layout hlist hitem h₀)) ?_
    rintro names w₁ - - ⟨rfl, hnames⟩
    exact rest names fun n hn => .inr (hnames.1 n hn)
  · exact rest containers fun n hn => .inl hn

/-! ## Switch -/

/-- A manifest received carries the digest asked for, or that is saved already. -/
def Honest (env : Env) (S : Place) (digest : Bytes) (w : World) : Prop :=
  ∀ a ∈ answers w.net, a.isFinal env = true → ∀ claimed manifest,
    a.response.claimedDigest = some claimed →
    Verifies env.hash a.response.body.data claimed →
    parseManifest env a.response.body.data = some manifest →
    claimed = digest ∨ (view S w.root).manifestBytes digest ≠ none

theorem ImageFetched.saved_honest {reference : Reference} {repair : Bool} {f : FetchedManifest}
    {digest : Bytes} (h : ImageFetched env slack S reference repair f w w')
    (ht : Tidy env (view S w.root)) (hh : Honest env S digest w') :
    Saved env (view S w'.root) digest := by
  obtain ⟨l, w₁, hf, hl, l', hl', -⟩ := h.answers
  obtain ⟨pre, a, rfl, hfinal, -, hclaim, hdata⟩ := hf.final
  obtain ⟨hparse, -, hver⟩ := hf.parsed
  have ha : a ∈ Pakstak.answers w'.net := by
    rw [hl', hl]
    simp
  rcases hh a ha hfinal f.digest f.manifest hclaim (hdata ▸ hver) (hdata ▸ hparse) with he | he
  · exact he ▸ h.saved_tidy ht
  · obtain ⟨bytes, hb⟩ := Option.ne_none_iff_exists'.mp he
    exact (h.fetching.settled.tidy ht).saved hb

theorem ChainedTo.wellFormed {d bytes : Bytes} (h : ChainedTo env d bytes) : WellFormed d := by
  rcases h with h | ⟨_, _, _, h, -⟩
  · exact wellFormed_of_verifies h
  · exact wellFormed_of_verifies h

theorem ensures_switch [StatAnswers env] {container digest : Bytes} (hS : PlainPlace S)
    (hr : AtRest S w)
    (ht : Tidy env (view S w.root)) (hC : ∀ w', C w' → slack.digests ∨ FormedLayers env S w')
    (hC' : ∀ w', C w' → Outside slack S w'.root container)
    (hH : ∀ w', C w' → slack.unsaved ∨ Honest env S digest w')
    (hI : ∀ w', Moved env slack S w w' → I w') :
    EnsuresUnder (machine env) C I (fun _ w' => Settled env slack S w w')
      (switch env (storeAt S) container digest) w := by
  have h₀ := hI w (.refl hr.layout)
  rw [switch]
  refine ensuresUnder_bind (ensuresUnder_of (ensures_ensureContainerInstalled h₀)) ?_
  rintro - w' - hCw ⟨rfl, hd⟩
  refine ensuresUnder_bind (ensuresUnder_of (ensures_withContext.mpr
    (ensures_readContainerReference h₀))) ?_
  rintro reference w₁ - - ⟨rfl, bytes, href, -⟩
  obtain ⟨c, hc⟩ := leadsTo_of_reference hr ht hd href (hC' w₁ hCw)
  refine ensuresUnder_bind (ensuresUnder_mapError.mpr (ensures_fetchImage hS hr hC hI)) ?_
  rintro ⟨f, client⟩ w₂ h₂ hCw₂ hf
  have hs₂ := hf.fetching.settled
  obtain ⟨l, _, hfetched, -⟩ := hf.answers
  refine ensuresUnder_bind (ensuresUnder_of (ensures_withContext.mpr
    (ensures_writeContainerManifestDigest hS hs₂.rest (hc.fetching hr hf.fetching)
      (hfetched.chained rfl).wellFormed ((hH w₂ hCw₂).imp_right (hf.saved_honest ht))
      fun w₃ h => hI w₃ (hs₂.moved.trans h)))) ?_
  rintro - w₃ - - hs₃
  exact ensuresUnder_print (hs₂.trans hs₃) hI fun _ h => h

end Pakstak
