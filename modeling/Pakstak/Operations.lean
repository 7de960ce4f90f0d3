/-
  The operations that add to the store, each as one change of its contents.

  `AtRest S w`: the store is open and `temporary` is empty. `Entered S k n t w w'`: the entry
  `n` has been set to `t` by a rename. `Advanced`: so it has, the store is at rest again, and
  no directory or symlink outside `temporary` is gone.

  Proved, for any answers of the environment, and for every state seen on the way:
  * `ends_writeManifest`, `ensures_writeLayer`, `ensures_writeContainer`: the entry is as it
    was, or is there complete.
-/
import Pakstak.Readers

namespace Pakstak

open Posix Prog FileTree

variable {env : Env} {I : World → Prop} {S : Place}

/-! ## A store at rest -/

/-- The store is open for changes, and `temporary` is empty. -/
structure AtRest (S : Place) (w : World) : Prop extends Ready S w where
  cleared : Cleared S w

theorem cleared_of_get {w : World} {m : Meta}
    (h : w.root.get (temporaryPlace S) = some (.dir m [])) : Cleared S w :=
  fun n => get_append_of_some h [n]

/-- The entry has been set by a rename out of `temporary`. -/
structure Entered (S : Place) (k : Kind) (n : Bytes) (t : Node) (w w' : World) : Prop where
  becomes : Becomes S ((view S w.root).set k n (some t)) w w'
  placed : ∃ w₁, Quiet S w w₁ ∧ Placed S (entryPlace S k n) (some t) w₁ w'

theorem Entered.of_quiet {k : Kind} {n : Bytes} {t : Node} {w w' w'' : World} (h : Quiet S w w')
    (h' : Entered S k n t w' w'') : Entered S k n t w w'' := by
  obtain ⟨w₁, hq, hp⟩ := h'.placed
  exact ⟨h.still.view ▸ h.still.becomes h'.becomes, w₁, h.trans hq, hp⟩

/-- The entry has been set, and the store is at rest again. -/
structure Advanced (S : Place) (k : Kind) (n : Bytes) (t : Node) (w w' : World) : Prop
    extends Entered S k n t w w' where
  rest : AtRest S w'
  grows : Grows (temporaryPlace S) w.root w'.root

theorem Advanced.of_quiet {k : Kind} {n : Bytes} {t : Node} {w w' w'' : World} (h : Quiet S w w')
    (hg : Grows (temporaryPlace S) w.root w'.root) (h' : Advanced S k n t w' w'') :
    Advanced S k n t w w'' := ⟨.of_quiet h h'.toEntered, h'.rest, hg.trans h'.grows⟩

theorem Ready.quiet {w w' : World} (h : Ready S w) (hk : Keeps (temporaryPlace S) w w') :
    Quiet S w w' := quiet_of_keeps h.layout h.temporary hk

theorem Ready.made {c : Place} {k : Kind} {w w' : World} (h : Ready S w) (hm : Made c w w')
    (hc : c <+: tablePlace S k) : Ready S w' :=
  ⟨(still_of_made h.layout hm (entry_off_of_le_table hc)).layout, hm.mkdirs.dirAt h.temporary⟩

theorem ClearedBut.made {c : Place} {k : Kind} {n : Bytes} {w w' : World} (h : ClearedBut S n w)
    (hm : Made c w w') (hc : c <+: tablePlace S k) : ClearedBut S n w' := by
  intro a ha
  rw [hm.mkdirs.off _ fun h => temporary_off_le_table hc ((List.prefix_append _ _).trans h)]
  exact h a ha

theorem Cleared.but {w : World} (h : Cleared S w) (n : Bytes) : ClearedBut S n w := fun a _ => h a

theorem Still.moved {w w' : World} (h : Still S w w') : view S w'.root = view S w.root := h.view

/-- What is put at a free place makes the tree grow. -/
theorem grows_put_free {p c : Place} {x : Node} {s : Node} (hf : Free x c s) (hl : NotLink x c)
    (hc : c ≠ []) : Grows p x (x.put c (some s)) := by
  by_cases hd : x.DirAt c
  · obtain ⟨d, n, rfl⟩ : ∃ d n, c = d ++ [n] := by
      rcases List.eq_nil_or_concat c with h | ⟨d, n, h⟩
      · exact absurd h hc
      · exact ⟨d, n, by rw [h, List.concat_eq_append]⟩
    -- an empty directory, replaced by a directory
    obtain ⟨m, kids, hg⟩ := hd
    obtain ⟨m', hg', hs⟩ : ∃ m', x.get (d ++ [n]) = some (.dir m' []) ∧ s.isDir = true := by
      rcases hf with h | ⟨f, h, -⟩ | h
      · rw [hg] at h; cases h
      · rw [hg] at h; cases h
      · exact h
    have hdir : x.DirAt d := dirAt_of_get_append hg (by simp)
    obtain ⟨m'', kids', rfl⟩ : ∃ m'' kids', s = .dir m'' kids' := by
      cases s with
      | leaf f => cases hs
      | dir m'' kids' => exact ⟨m'', kids', rfl⟩
    intro q _
    by_cases hq : d ++ [n] <+: q
    · obtain ⟨r, rfl⟩ := hq
      cases r with
      | nil =>
        rw [List.append_nil]
        refine ⟨fun _ => ⟨m'', kids', get_put_append hdir _ []⟩, fun t ht => ?_⟩
        exact absurd ht (hl t)
      | cons a r =>
        have hnone : x.get (d ++ [n] ++ a :: r) = none := by
          rw [get_append_of_some hg']
          rfl
        refine ⟨fun ⟨_, _, h⟩ => ?_, fun t ht => ?_⟩
        · rw [hnone] at h; cases h
        · rw [find_eq_none_iff.mpr hnone] at ht; cases ht
    · exact ⟨(dirAt_put_off hq _).mpr, fun t ht => (find_put_off hq _).trans ht⟩
  · exact grows_put p hd hl

/-- A published entry. -/
theorem Published.advanced {k : Kind} {n m : Bytes} {s : Node} {w w' : World} (hr : Ready S w)
    (hcl : ClearedBut S m w) (hd : w.root.DirAt (tablePlace S k)) (hn : Plain n)
    (hs : ∀ t, s ≠ .leaf (.symlink t)) (h : Published S (tablePlace S k) n m s w w') :
    Advanced S k n s w w' := by
  have hb : Becomes S ((view S w.root).set k n (some s)) w w' :=
    h.placed.becomes hr.layout (fun t ht => hs t (Option.some.inj ht)) (.inr ⟨hd, hn⟩)
  refine ⟨⟨hb, w, .refl hr.layout, h.placed⟩, ⟨⟨hb.layout, h.placed.temporary⟩, h.cleared hcl⟩, ?_⟩
  exact (grows_put_free h.free (hr.layout.entry k n) (by simp)).trans
    (grows_of_agreeOff h.placed.agree)

theorem output_entry {k : Kind} {n : Bytes} {w : World} (hS : PlainPlace S) (hn : Plain n)
    (hd : w.root.DirAt (tablePlace S k)) :
    Output S w (pathOf (entryPlace S k n)) (tablePlace S k) n :=
  ⟨locate_child hd (plain_tablePlace hS k) hn false,
    properPath_pathOf ((plain_tablePlace hS k).snoc hn), temporary_off_table k [n]⟩

/-! ## Manifests -/

/-- The manifest is there complete; after an error no entry has changed. -/
theorem ends_writeManifest {digest data : Bytes} {w : World} (hS : PlainPlace S)
    (hr : AtRest S w) (hd : Plain (manifestName digest)) (hI : ∀ w', Quiet S w w' → I w')
    (hI' : ∀ w', Entered S .manifests (manifestName digest) (.leaf (.file newFile data)) w w' →
      I w') :
    Ends (machine env) I
      (fun _ w' => Advanced S .manifests (manifestName digest) (.leaf (.file newFile data)) w w')
      (fun _ w' => Still S w w')
      ((storeAt S).writeManifest digest data) w := by
  have hpath : (storeAt S).manifestPath digest =
      pathOf (entryPlace S .manifests (manifestName digest)) := manifestPath_storeAt hd S
  have htable := plain_tablePlace hS .manifests
  rw [Storage.writeManifest, hpath]
  refine ends_mapError.mpr ?_
  have made {w' : World} (h : Made (tablePlace S .manifests) w w') : Quiet S w w' :=
    quiet_of_made hr.layout h (.inr ⟨_, List.prefix_rfl⟩)
  refine ends_bind (ends_of_ensures_and (ensures_ensureParentDir htable hd (hr.layout.table _)
    fun w' h => ⟨hI w' (made h), (made h).still⟩)) ?_
  rintro - w₁ h₁ ⟨hm₁, hd₁⟩
  have hs₁ := made hm₁
  have hr₁ : Ready S w₁ := hr.made hm₁ List.prefix_rfl
  have hcl₁ : Cleared S w₁ := by
    intro a
    exact ((hr.cleared.but (a ++ [0])).made hm₁ List.prefix_rfl) a (by simp)
  have adv {w' : World} (h : Published S (tablePlace S .manifests) (manifestName digest)
      (manifestName digest) (.leaf (.file newFile data)) w₁ w') :
      Advanced S .manifests (manifestName digest) (.leaf (.file newFile data)) w w' :=
    .of_quiet hs₁ (hm₁.mkdirs.grows _) (h.advanced hr₁ (hcl₁.but _) hd₁ hd (by simp))
  exact ends_mono (ends_writeAndRename hS hr₁ hcl₁ (output_entry hS hd hd₁)
    (fun w' h => hI w' (hs₁.trans (hr₁.quiet h)))
    fun w' h => hI' w' (adv h).toEntered) (fun _ h => h) (fun _ _ _ h => adv h) fun _ _ _ h =>
      hs₁.still.trans (hr₁.still h)

/-! ## Directories built under `temporary` -/

theorem keeps_of_made {d : Place} {n : Bytes} {w w' : World} (h : Made (d ++ [n]) w w')
    (hd : w.root.DirAt d) : Keeps (d ++ [n]) w w' := by
  refine ⟨⟨fun q hq => ⟨?_, fun hq' => h.mkdirs.off q hq'⟩, h.aside⟩, fun q => h.mkdirs.dirAt⟩
  by_cases hqd : q <+: d ++ [n]
  · rcases h.mkdirs.on q hqd with he | ⟨he, -⟩
    · exact he
    · rcases List.prefix_concat_iff.mp hqd with rfl | hqd
      · exact absurd List.prefix_rfl hq
      · obtain ⟨m, hm⟩ := dirAt_iff_find.mp (dirAt_above hd hqd)
        rw [hm] at he
        cases he
  · rw [find, find, h.mkdirs.off q hqd]

/-- A directory made where nothing was is empty. -/
theorem get_of_made {c : Place} {w w' : World} (h : Made c w w') (hc : w.root.get c = none)
    (hd : w'.root.DirAt c) : w'.root.get c = some (.dir newDir []) := by
  obtain ⟨m, kids, hg⟩ := hd
  have hf := find_eq_none_iff.mpr hc
  have hf' : w'.root.find c = some (.inr m) := by rw [find, hg]; rfl
  rcases h.mkdirs.on c List.prefix_rfl with he | ⟨-, he⟩
  · rw [hf, hf'] at he
    cases he
  rw [hf', Option.some.injEq, Sum.inr.injEq] at he
  subst he
  have hkids : kids = [] := by
    cases kids with
    | nil => rfl
    | cons e kids =>
      have hk : ((FileTree.dir newDir (e :: kids)).kid e.1).isSome :=
        (lookup_isSome_iff (e :: kids) e.1).mpr (by simp)
      obtain ⟨t, ht⟩ := Option.isSome_iff_exists.mp hk
      have hget := h.mkdirs.off (c ++ [e.1]) (entry_not_above _ _)
      rw [get_append_of_some hg, get_append_of_none hc, get_cons, ht] at hget
      simp at hget
  rw [hg, hkids]

theorem ensures_createTemporaryDir {n : Bytes} {w : World} (hS : PlainPlace S) (hn : Plain n)
    (hr : AtRest S w) (hI : ∀ w', Keeps (temporaryPlace S ++ [n]) w w' → I w') :
    Ensures (machine env) I
      (fun r w' => Keeps (temporaryPlace S ++ [n]) w w' ∧
        (r = .ok () → w'.root.get (temporaryPlace S ++ [n]) = some (.dir newDir [])))
      (createDirAll (pathOf (temporaryPlace S ++ [n]))) w := by
  have hclear : Clear w.root (temporaryPlace S ++ [n]) := by
    intro q hq
    rcases List.prefix_concat_iff.mp hq with rfl | hq
    · exact .inl (hr.cleared n)
    · exact .inr (dirAt_above hr.temporary hq)
  exact ensures_mono (ensures_createDirAll ((plain_temporaryPlace hS).snoc hn) hclear
    fun w' h => hI w' (keeps_of_made h hr.temporary)) (fun _ h => h) fun r w' _ h =>
      ⟨keeps_of_made h.1 hr.temporary, fun hok => get_of_made h.1 (hr.cleared n) (h.2 hok)⟩

/-- A directory built in `temporary` becomes an entry; after an error no entry has changed. -/
theorem ends_publishDirectory {k : Kind} {n : Bytes} {s : Node} {w : World} (hS : PlainPlace S)
    (hr : Ready S w) (hcl : ClearedBut S n w) (hn : Plain n) (hd : s.isDir)
    (hs : w.root.get (temporaryPlace S ++ [n]) = some s) (hI : ∀ w', Quiet S w w' → I w')
    (hI' : ∀ w', Entered S k n s w w' → I w') :
    Ends (machine env) I (fun _ w' => Advanced S k n s w w') (fun _ w' => Quiet S w w')
      (Storage.publishDirectory (pathOf (temporaryPlace S ++ [n]))
        (pathOf (entryPlace S k n))) w := by
  have htable := plain_tablePlace hS k
  rw [Storage.publishDirectory]
  have made {w' : World} (h : Made (tablePlace S k) w w') : Quiet S w w' :=
    quiet_of_made hr.layout h (.inr ⟨k, List.prefix_rfl⟩)
  refine ends_bind (ends_of_ensures_and (ensures_ensureParentDir htable hn (hr.layout.table _)
    fun w' h => ⟨hI w' (made h), made h⟩)) ?_
  rintro - w₁ h₁ ⟨hm₁, hd₁⟩
  have hs₁ : Quiet S w w₁ := made hm₁
  have hr₁ : Ready S w₁ := hr.made hm₁ List.prefix_rfl
  have hlink : ∀ t, s ≠ .leaf (.symlink t) := by
    rintro t rfl
    cases hd
  have hg₁ : w₁.root.get (temporaryPlace S ++ [n]) = some s := by
    rw [hm₁.mkdirs.off _ fun h => temporary_off_le_table List.prefix_rfl
      ((List.prefix_append _ _).trans h)]
    exact hs
  have adv {w' : World} (h : Published S (tablePlace S k) n n s w₁ w') :
      Advanced S k n s w w' := .of_quiet hs₁ (hm₁.mkdirs.grows _)
    (h.advanced hr₁ (hcl.made hm₁ List.prefix_rfl) hd₁ hn hlink)
  exact ends_last (ends_call (ensures_mono (ensures_publish hS hr₁.temporary hn
    (output_entry hS hn hd₁) hg₁ h₁ fun w' h => hI' w' (adv h).toEntered) (fun _ h => h)
    fun r w' _ h => ⟨fun a ha => adv (h.1 (by rw [ha])), fun e he => by rw [h.2 e he]; exact hs₁⟩))

/-! ## Layers -/

theorem ensures_writeLayer {digest : Bytes} {format : LayerFormat} {reader : Body} {w : World}
    (hS : PlainPlace S) (hr : AtRest S w) (hI : ∀ w', Quiet S w w' → I w')
    (hI' : ∀ t w', WellFormed digest → t.isDir → Extracted env digest t →
      Entered S .layers digest t w w' → I w') :
    Ensures (machine env) I
      (fun _ w' => ∃ t, WellFormed digest ∧ t.isDir ∧ Extracted env digest t ∧
        Advanced S .layers digest t w w')
      ((storeAt S).writeLayer env digest format reader) w := by
  have h₀ := hI w (.refl hr.layout)
  rw [Storage.writeLayer]
  refine ensures_bind (ensures_temporaryPathFor (properPath_layerPath hS digest) h₀) ?_
  rintro q w' - ⟨rfl, n, hfile, hn, rfl⟩
  have inside {w'' : World} (h : Keeps (temporaryPlace S ++ [n]) w' w'') : I w'' :=
    hI w'' (hr.quiet h.inside)
  refine ensures_step (P := fun _ w₁ => Keeps (temporaryPlace S ++ [n]) w' w₁ ∧
      w₁.root.get (temporaryPlace S ++ [n]) = some (.dir newDir []))
    (ensures_mono (ensures_createTemporaryDir hS hn hr fun w'' h => inside h)
      (fun _ h => h) fun r w₁ _ h a ha => ⟨h.1, h.2 ha⟩) ?_
  rintro - w₁ h₁ ⟨hk₁, hg₁⟩
  have hne : temporaryPlace S ≠ [] := by simp [temporaryPlace]
  have hpn := (plain_temporaryPlace hS).snoc hn
  -- while the layer is extracted, and after a failure, only `temporary` changes
  refine ensures_bind (P := fun r w₂ => Shut (temporaryPlace S) n w' w₂ ∧
      (r = .ok () → WellFormed digest ∧ ∃ t, w₂.root.get (temporaryPlace S ++ [n]) = some t ∧
        t.isDir ∧ Extracted env digest t)) ?_ ?_
  · refine ensures_mono (ensures_attempt (K := fun r w₂ => r = .ok () → WellFormed digest ∧
      ∃ t, w₂.root.get (temporaryPlace S ++ [n]) = some t ∧ t.isDir ∧ Extracted env digest t)
      (ensures_extractLayer (I := fun w₂ => Shut (temporaryPlace S) n w' w₂) hne hpn hg₁
        fun w₂ h => hk₁.shut.trans h) (fun _ _ _ h _ => h.2) fun _ _ _ h => by cases h)
      (fun w₂ h => hI w₂ (hr.quiet h.toKeeps)) fun r w₂ h h' => ⟨h, h'⟩
  rintro r w₂ h₂ ⟨hk₂, hok⟩
  have hr₂ : Ready S w₂ := hr.keeps hk₂.toKeeps
  have hs₂ : Quiet S w' w₂ := hr.quiet hk₂.toKeeps
  split
  · refine ensures_bind (P := fun _ _ => True) (ensures_attempt (P := fun _ _ => True)
      (ensures_mono (ensures_removeDirAllWritable hpn hr₂.temporary fun w₃ h => hI w₃ ?_)
        (fun _ h => h) fun _ _ _ _ => trivial)
      (fun _ _ _ _ => trivial) fun _ _ _ => trivial) fun _ _ h₃ _ => ensures_fail h₃
    exact hs₂.trans (quiet_of_within hr₂.layout h.inside (.inr (h.within.temporary hr₂.temporary)))
  · obtain ⟨hw, t, hg₂, hdir, hx⟩ := hok rfl
    have hn' : n = digest := by
      rw [layerPath_storeAt (plain_of_wellFormed hw), entryPlace,
        fileName_pathOf (plain_of_wellFormed hw)] at hfile
      exact (Option.some.inj hfile).symm
    subst hn'
    rw [layerPath_storeAt hn]
    refine ensures_withContext.mpr (ensures_mono (ensures_of_ends (ends_publishDirectory hS hr₂
      (fun m hm => (hk₂.beside m hm).trans (hr.cleared m)) hn hdir hg₂
      (fun w₃ h => hI w₃ (hs₂.trans h)) fun w₃ h => hI' t w₃ hw hdir hx (.of_quiet hs₂ h)))
      (fun _ h => h) fun _ _ _ h => ⟨t, hw, hdir, hx,
        .of_quiet hs₂ (grows_of_agreeOff hk₂.within.agree) h⟩)

/-! ## Containers -/

theorem plain_digestFile : Plain digestFile := by decide +kernel

theorem plain_referenceFile : Plain referenceFile := by decide +kernel

theorem digestFile_ne_referenceFile : digestFile ≠ referenceFile := by decide +kernel

/-- The files written to a new directory. -/
theorem isContainer_of_written {c : Place} {digest : Bytes} {reference : Reference}
    {w₁ w₂ w₃ : World} (h₁ : w₁.root.get c = some (.dir newDir []))
    (hk₂ : Keeps (c ++ [digestFile]) w₁ w₂)
    (h₂ : w₂.root.get (c ++ [digestFile]) = some (.leaf (.file newFile digest)))
    (hk₃ : Keeps (c ++ [referenceFile]) w₂ w₃)
    (h₃ : w₃.root.get (c ++ [referenceFile]) =
      some (.leaf (.file newFile (env.toVecPretty reference.serialize)))) :
    ∃ t, w₃.root.get c = some t ∧ IsContainer env digest reference t := by
  obtain ⟨m, kids, hg⟩ := hk₃.dirs c (hk₂.dirs c ⟨newDir, [], h₁⟩)
  have hkid (a : Bytes) : (FileTree.dir m kids).kid a = w₃.root.get (c ++ [a]) := by
    rw [get_append_of_some hg, get_cons]
    cases (FileTree.dir m kids).kid a <;> simp
  refine ⟨_, hg, rfl, ?_, by rw [hkid, h₃], fun a u hu => ?_⟩
  · rw [hkid, hk₃.shut.beside _ digestFile_ne_referenceFile, h₂]
  · by_contra hne
    rw [not_or] at hne
    rw [hkid, hk₃.shut.beside _ hne.2, hk₂.shut.beside _ hne.1, get_append_of_some h₁] at hu
    cases hu

/-- The container is there complete; after an error no entry has changed. -/
theorem ends_writeContainer {n digest : Bytes} {reference : Reference} {w : World}
    (hS : PlainPlace S) (hn : Plain n) (hr : AtRest S w) (hI : ∀ w', Quiet S w w' → I w')
    (hI' : ∀ t w', IsContainer env digest reference t → Entered S .containers n t w w' → I w') :
    Ends (machine env) I
      (fun _ w' => ∃ t, IsContainer env digest reference t ∧
        Advanced S .containers n t w w')
      (fun _ w' => Quiet S w w')
      ((storeAt S).writeContainer env n digest reference) w := by
  have hplain := (plain_tablePlace hS .containers).snoc hn
  have h₀ := hI w (.refl hr.layout)
  rw [Storage.writeContainer, containerPath_storeAt hn]
  refine ends_bind (ends_of_ensures_and (ensures_temporaryPathFor (properPath_pathOf hplain)
    ⟨h₀, .refl hr.layout⟩)) ?_
  rintro q w' - ⟨rfl, m, hfile, -, rfl⟩
  obtain rfl : n = m := by
    rw [entryPlace, fileName_pathOf hn] at hfile
    exact Option.some.inj hfile
  have hpn := (plain_temporaryPlace hS).snoc hn
  have quiet {w'' : World} (h : Keeps (temporaryPlace S ++ [n]) w' w'') : Quiet S w' w'' :=
    hr.quiet h.inside
  rw [join_plain (by decide +kernel), join_plain (by decide +kernel)]
  refine ends_step (P := fun _ w₁ => Keeps (temporaryPlace S ++ [n]) w' w₁ ∧
      w₁.root.get (temporaryPlace S ++ [n]) = some (.dir newDir []))
    (ends_of_noError (noError_createDirAll _) (ensures_mono (ensures_createTemporaryDir hS hn hr
      fun w'' h => hI w'' (quiet h)) (fun _ h => h)
      fun r w₁ _ h => ⟨fun a ha => ⟨h.1, h.2 (by rw [ha])⟩, fun _ _ => quiet h.1⟩)) ?_
  rintro - w₁ h₁ ⟨hk₁, hg₁⟩
  have missing {w₂ : World} {a b : Bytes} (hab : a ≠ b)
      (hk : Keeps (temporaryPlace S ++ [n] ++ [a]) w₁ w₂) :
      w₂.root.find (temporaryPlace S ++ [n] ++ [b]) = none := by
    rw [find_eq_none_iff, hk.shut.beside _ hab.symm, get_append_of_some hg₁]
    rfl
  have within {w₂ w₃ : World} {a : Bytes} (hk : Keeps (temporaryPlace S ++ [n] ++ [a]) w₂ w₃) :
      Keeps (temporaryPlace S ++ [n]) w₂ w₃ :=
    ⟨hk.within.mono (List.prefix_append _ _), hk.dirs⟩
  refine ends_step
    (P := fun _ w₂ => Keeps (temporaryPlace S ++ [n] ++ [digestFile]) w₁ w₂ ∧
      w₂.root.get (temporaryPlace S ++ [n] ++ [digestFile]) = some (.leaf (.file newFile digest)))
    (ends_call (ensures_mono (ensures_writeTemporary (hpn.snoc plain_digestFile) ⟨_, _, hg₁⟩
      (find_eq_none_iff.mpr (get_append_of_some hg₁ _))
      fun w₂ h => hI w₂ (quiet (hk₁.trans (within h)))) (fun _ h => h)
      fun r w₂ _ h => ⟨fun a ha => ⟨h.1, h.2 (by rw [ha])⟩,
        fun _ _ => quiet (hk₁.trans (within h.1))⟩)) ?_
  rintro - w₂ h₂ ⟨hk₂, hg₂⟩
  refine ends_step
    (P := fun _ w₃ => Keeps (temporaryPlace S ++ [n] ++ [referenceFile]) w₂ w₃ ∧
      w₃.root.get (temporaryPlace S ++ [n] ++ [referenceFile]) =
        some (.leaf (.file newFile (env.toVecPretty reference.serialize))))
    (ends_call (ensures_mono (ensures_writeTemporary (hpn.snoc plain_referenceFile)
      (hk₂.dirs _ ⟨_, _, hg₁⟩) (missing digestFile_ne_referenceFile hk₂)
      fun w₃ h => hI w₃ (quiet ((hk₁.trans (within hk₂)).trans (within h)))) (fun _ h => h)
      fun r w₃ _ h => ⟨fun a ha => ⟨h.1, h.2 (by rw [ha])⟩,
        fun _ _ => quiet ((hk₁.trans (within hk₂)).trans (within h.1))⟩)) ?_
  rintro - w₃ h₃ ⟨hk₃, hg₃⟩
  obtain ⟨t, ht, hc⟩ := isContainer_of_written hg₁ hk₂ hg₂ hk₃ hg₃
  have hk := (hk₁.trans (within hk₂)).trans (within hk₃)
  have hs₃ : Quiet S w' w₃ := quiet hk
  refine ends_mono (ends_publishDirectory hS (hr.keeps hk.inside)
    (fun m hm => (hk.shut.beside m hm).trans (hr.cleared m)) hn hc.dir ht
    (fun w₄ h => hI w₄ (hs₃.trans h)) fun w₄ h => hI' t w₄ hc (.of_quiet hs₃ h)) (fun _ h => h)
    (fun _ _ _ h => ⟨t, hc, .of_quiet hs₃ (grows_of_agreeOff hk.inside.within.agree) h⟩)
    fun _ _ _ h => hs₃.trans h

theorem ensures_writeContainer {n digest : Bytes} {reference : Reference} {w : World}
    (hS : PlainPlace S) (hn : Plain n) (hr : AtRest S w) (hI : ∀ w', Quiet S w w' → I w')
    (hI' : ∀ t w', IsContainer env digest reference t → Entered S .containers n t w w' → I w') :
    Ensures (machine env) I
      (fun _ w' => ∃ t, IsContainer env digest reference t ∧
        Advanced S .containers n t w w')
      ((storeAt S).writeContainer env n digest reference) w :=
  ensures_of_ends (ends_writeContainer hS hn hr hI hI')

end Pakstak
