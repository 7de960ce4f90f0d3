/-
  The operations that change containers, manifests and layers, interrupted at any point.

  There are seven of them (`Operation`). Each sets the place that its path leads to, with a
  content that depends on nothing in `temporary` (`Content`). `Calm S w w'`: no container,
  manifest or layer has changed; what has is in `temporary`, among the locks, or a directory
  of the store that was missing. `After` is `Calm` up to the one change.

  Proved, for any answers of the environment:
  * `ensures_perform`: every state seen is `Calm`, or is `After`; where the operation has
    succeeded, it is `After`.
  * `Ran.allSourced`: what whole operations leave in the store comes from the store and their
    arguments, whatever is in `temporary`.
-/
import Pakstak.Installing
import Pakstak.Removals

namespace Pakstak

open Posix Prog FileTree

variable {env : Env} {I : World → Prop} {S c : Place} {w w' w'' : World}

/-! ## Nothing visible has changed -/

/-- No container, manifest or layer has changed, nor anything else but what is in `temporary`,
    among the locks, or a directory of the store that was missing. -/
structure Calm (S : Place) (w w' : World) : Prop where
  layout : Layout S w'.root
  entries : ∀ k n, k ≠ .locks → view S w'.root k n = view S w.root k n
  kept : Kept S w.root w'.root

theorem Calm.refl (hl : Layout S w.root) : Calm S w w := ⟨hl, fun _ _ _ => rfl, .refl S _⟩

theorem Calm.trans (h : Calm S w w') (h' : Calm S w' w'') : Calm S w w'' :=
  ⟨h'.layout, fun k n hk => (h'.entries k n hk).trans (h.entries k n hk), h.kept.trans h'.kept⟩

theorem Quiet.calm (h : Quiet S w w') : Calm S w w' :=
  ⟨h.still.layout, fun _ _ _ => by rw [h.still.view], h.kept⟩

theorem Same.calm (hl : Layout S w.root) (h : Same w w') : Calm S w w' :=
  ⟨h.root ▸ hl, fun _ _ _ => by rw [h.root], h.root ▸ .refl S _⟩

theorem LockKept.calm {n : Bytes} (h : LockKept S n w w') : Calm S w w' := by
  refine ⟨h.layout, fun k a hk => ?_, h.kept⟩
  rcases h.contents with h | ⟨-, h⟩
  · rw [h.view]
  · rw [h.view, Store.set_of_ne_kind hk]

theorem calm_of_within (hl : Layout S w.root) (h : Within (temporaryPlace S) w w')
    (hT : w'.root.DirAt (temporaryPlace S)) : Calm S w w' :=
  (quiet_of_within hl h (.inr hT)).calm

/-! ## A store at rest again -/

/-- The store at rest again, with no directory or symlink outside `temporary` gone. -/
structure Resting (S : Place) (w w' : World) : Prop where
  rest : AtRest S w'
  grows : Grows (temporaryPlace S) w.root w'.root

theorem Resting.trans (h : Resting S w w') (h' : Resting S w' w'') : Resting S w w'' :=
  ⟨h'.rest, h.grows.trans h'.grows⟩

theorem Resting.refl (hr : AtRest S w) : Resting S w w := ⟨hr, .refl _ _⟩

theorem resting_of_same (hr : AtRest S w) (h : Same w w') : Resting S w w' :=
  ⟨hr.same h, h.root ▸ .refl _ _⟩

theorem Advanced.resting {k : Kind} {n : Bytes} {t : Node} (h : Advanced S k n t w w') :
    Resting S w w' := ⟨h.rest, h.grows⟩

/-! ## Operations -/

inductive Operation where
  | writeManifest (digest contents : Bytes)
  | writeContainerManifestDigest (container digest : Bytes)
  | writeContainer (container digest : Bytes) (reference : Reference)
  | writeLayer (digest : Bytes) (format : LayerFormat) (reader : Body)
  | removeContainer (container : Bytes)
  | removeManifest (digest : Bytes)
  | removeLayer (digest : Bytes)

namespace Operation

def perform (env : Env) (st : Storage) : Operation → M Unit
  | writeManifest digest contents => st.writeManifest digest contents
  | writeContainerManifestDigest container digest =>
    st.writeContainerManifestDigest container digest
  | writeContainer container digest reference => st.writeContainer env container digest reference
  | writeLayer digest format reader => st.writeLayer env digest format reader
  | removeContainer container => st.removeContainer env container
  | removeManifest digest => st.removeManifest digest
  | removeLayer digest => st.removeLayer env digest

/-- The path it sets. -/
def path (st : Storage) : Operation → PathBuf
  | writeManifest digest _ | removeManifest digest => st.manifestPath digest
  | writeContainerManifestDigest container _ => (st.containerPath container).join digestFile
  | writeContainer container _ _ | removeContainer container => st.containerPath container
  | writeLayer digest _ _ | removeLayer digest => st.layerPath digest

/-- What it sets the path to. -/
def Content (env : Env) : Operation → Option Node → Prop
  | writeManifest _ contents, o => o = some (.leaf (.file newFile contents))
  | writeContainerManifestDigest _ digest, o => o = some (.leaf (.file newFile digest))
  | writeContainer _ digest reference, o => ∃ t, o = some t ∧ IsContainer env digest reference t
  | writeLayer digest _ _, o => ∃ t, o = some t ∧ WellFormed digest ∧ t.isDir ∧
      Extracted env digest t
  | removeContainer _, o | removeManifest _, o | removeLayer _, o => o = none

/-- The entries whose content it may be. -/
def Sets : Operation → Kind → Bytes → Prop
  | writeManifest digest _, k, n => k = .manifests ∧ n = manifestName digest
  | writeContainerManifestDigest _ _, _, n => n = digestFile
  | writeContainer container _ _, k, n => k = .containers ∧ n = container
  | writeLayer digest _ _, k, n => k = .layers ∧ n = digest
  | removeContainer _, _, _ | removeManifest _, _, _ | removeLayer _, _, _ => False

/-- The argument leads to a directory outside `temporary`. -/
def LeadsOff (S : Place) (w : World) (container : Bytes) : Prop :=
  ∃ c, Posix.walk w.root ((storeAt S).containerPath container) = .ok c ∧ w.root.DirAt c ∧
    ¬ temporaryPlace S <+: c

/-- What the callers of an operation see to. -/
def Called (S : Place) (w : World) : Operation → Prop
  | writeManifest digest _ => AtRest S w ∧ Plain (manifestName digest)
  | writeContainerManifestDigest container _ => AtRest S w ∧ LeadsOff S w container
  | writeContainer container _ _ => AtRest S w ∧ Plain container
  | writeLayer _ _ _ => AtRest S w
  | removeContainer _ | removeManifest _ | removeLayer _ => Ready S w

/-- The path has been set, in a store where no more than that has changed. -/
structure After (env : Env) (S : Place) (o : Operation) (w w' : World) : Prop where
  layout : Layout S w'.root
  placed : ∃ w₁ d m v, Calm S w w₁ ∧ locate w₁.root (o.path (storeAt S)) = .ok (d, m) ∧
    o.Content env v ∧ Placed S (d ++ [m]) v w₁ w'

variable {o : Operation}

theorem properPath_path (hS : PlainPlace S) (o : Operation) : ProperPath (o.path (storeAt S)) := by
  cases o with
  | writeManifest digest _ => exact properPath_manifestPath hS digest
  | writeContainerManifestDigest container _ => exact (properPath_containerPath hS container).join _
  | writeContainer container _ _ => exact properPath_containerPath hS container
  | writeLayer digest _ _ => exact properPath_layerPath hS digest
  | removeContainer container => exact properPath_containerPath hS container
  | removeManifest digest => exact properPath_manifestPath hS digest
  | removeLayer digest => exact properPath_layerPath hS digest

/-! ## One change -/

theorem after_of_entered {k : Kind} {n : Bytes} {t : Node} (hS : PlainPlace S) (hn : Plain n)
    (hp : o.path (storeAt S) = pathOf (entryPlace S k n)) (hv : o.Content env (some t))
    (h : Entered S k n t w w') : o.After env S w w' := by
  obtain ⟨w₁, hq, hpl⟩ := h.placed
  refine ⟨h.becomes.layout, w₁, tablePlace S k, n, some t, hq.calm, ?_, hv, hpl⟩
  -- the entry is there in the end, so its table is, and was before
  have hget : view S w'.root k n = some t := by rw [h.becomes.view, Store.set_same]
  have hd : w'.root.DirAt (tablePlace S k) := dirAt_of_get_append hget (by simp)
  have hoff := temporary_off_table (S := S) k []
  rw [List.append_nil] at hoff
  rw [hp]
  exact locate_child ((dirAt_put_off (entry_off_table k k n) _).mp ((hpl.agree.dirAt hoff).mp hd))
    (plain_tablePlace hS k) hn false

theorem after_of_removed (hl : Layout S w.root) (hv : o.Content env none)
    (h : Removed S (o.path (storeAt S)) w w') : o.After env S w w' := by
  obtain ⟨w₁, d, m, s, hw₁, hT₁, -, hloc, -, -, hp⟩ := h
  have hc := calm_of_within hl hw₁ hT₁
  exact ⟨hp.layout (layout_put hc.layout (by simp) (.inl rfl)), w₁, d, m, none, hc, hloc, hv, hp⟩

/-! ## Removals -/

section

variable (hS : PlainPlace S) (hr : Ready S w)
include hS hr

theorem ensures_moveAndDrop_after {clear drop : PathBuf → M Unit} {moved : PathBuf → Msg}
    (hv : o.Content env none)
    (hclear : ∀ a, Plain a →
      Drops env S a (fun _ => True) (clear (pathOf (temporaryPlace S ++ [a]))))
    (hdrop : ∀ a, Plain a →
      Drops env S a (fun _ => True) (drop (pathOf (temporaryPlace S ++ [a])))) :
    Ensures (machine env) (fun w' => (Calm S w w' ∨ o.After env S w w') ∧ Ready S w')
      (fun _ w' => o.After env S w w')
      (moveAndDrop (storeAt S) clear drop moved (o.path (storeAt S))) w := by
  refine ensures_mono (ensures_moveAndDrop hS (properPath_path hS o) hr.temporary hclear hdrop
    (fun w' h hT => ?_) fun w' h => ?_) (fun _ h => h) fun _ _ _ h =>
      after_of_removed hr.layout hv h.1
  · have hc := calm_of_within hr.layout h hT
    exact ⟨.inl hc, hc.layout, hT⟩
  · have ha := after_of_removed hr.layout hv h
    exact ⟨.inr ha, ha.layout, h.temporary⟩

/-- The three removals. -/
def Removes : Operation → Prop
  | removeContainer _ | removeManifest _ | removeLayer _ => True
  | _ => False

theorem ensures_performRemoval (ho : o.Removes) :
    Ensures (machine env) (fun w' => (Calm S w w' ∨ o.After env S w w') ∧ Ready S w')
      (fun _ w' => o.After env S w w') (o.perform env (storeAt S)) w := by
  have directory {o : Operation} {kind : Bytes} (hv : o.Content env none) :
      Ensures (machine env) (fun w' => (Calm S w w' ∨ o.After env S w w') ∧ Ready S w')
        (fun _ w' => o.After env S w w')
        ((storeAt S).removeDirectory env (o.path (storeAt S)) kind) w :=
    ensures_moveAndDrop_after hS hr hv
      (fun _ ha => drops_removeDirAllWritable hS ha _ fun _ => trivial)
      fun _ ha => drops_removeDirAllWritable hS ha _ fun _ => trivial
  cases o with
  | removeContainer container =>
    refine ensures_bind (ensures_ensureContainerInstalled ⟨.inl (.refl hr.layout), hr⟩) ?_
    rintro - w' - ⟨rfl, -⟩
    exact directory (o := removeContainer container) rfl
  | removeManifest digest =>
    rw [perform, Storage.removeManifest, removeFile_eq]
    exact ensures_withContext.mpr (ensures_moveAndDrop_after (o := removeManifest digest) hS hr rfl
      (fun _ ha => drops_removeFile hS ha _) fun _ ha => drops_removeFile hS ha _)
  | removeLayer digest => exact ensures_withContext.mpr (directory (o := removeLayer digest) rfl)
  | _ => exact ho.elim

end

/-! ## Operations are atomic -/

/-- The state an operation that has succeeded leaves. -/
def Leaves (S : Place) (w w' : World) : Operation → Prop
  | writeContainerManifestDigest _ _ => AtRest S w'
  | removeContainer _ | removeManifest _ | removeLayer _ => Ready S w'
  | _ => Resting S w w'

/-- Seen before its change or after it, and never in between. -/
theorem ensures_perform (hS : PlainPlace S) (hc : o.Called S w) :
    Ensures (machine env) (fun w' => Calm S w w' ∨ o.After env S w w')
      (fun _ w' => o.After env S w w' ∧ o.Leaves S w w') (o.perform env (storeAt S)) w := by
  have removal {o : Operation} (hr : Ready S w) (ho : o.Removes) :
      Ensures (machine env) (fun w' => Calm S w w' ∨ o.After env S w w')
        (fun _ w' => o.After env S w w' ∧ Ready S w') (o.perform env (storeAt S)) w :=
    ensures_mono (ensures_performRemoval hS hr ho) (fun _ h => h.1)
      fun _ _ hI h => ⟨h, hI.2⟩
  cases o with
  | writeManifest digest contents =>
    obtain ⟨hr, hn⟩ := hc
    have after {w' : World} (h : Entered S .manifests (manifestName digest)
        (.leaf (.file newFile contents)) w w') :
        (writeManifest digest contents).After env S w w' :=
      after_of_entered hS hn (manifestPath_storeAt hn S) rfl h
    exact ensures_of_ends (ends_mono (ends_writeManifest hS hr hn (fun _ h => .inl h.calm)
      fun _ h => .inr (after h)) (fun _ h => h)
      (fun _ _ _ h => ⟨after h.toEntered, h.resting⟩) fun _ _ _ _ => trivial)
  | writeContainerManifestDigest container digest =>
    obtain ⟨hr, c, hw, hd, hoff⟩ := hc
    have after {w' : World} (h : Published S c digestFile digestFile
        (.leaf (.file newFile digest)) w w') :
        (writeContainerManifestDigest container digest).After env S w w' :=
      ⟨h.layout hr.layout, w, c, digestFile, _, .refl hr.layout,
        locate_join plain_digestFile hw hd, rfl, h.placed⟩
    exact ensures_mono (ensures_of_ends (ends_publishDigest hS hr hw hd hoff
      (fun _ h => .inl (hr.quiet h).calm) fun _ h => .inr (after h))) (fun _ h => h)
      fun _ _ _ h => ⟨after h, ⟨h.layout hr.layout, h.placed.temporary⟩,
        h.cleared (hr.cleared.but _)⟩
  | writeContainer container digest reference =>
    obtain ⟨hr, hn⟩ := hc
    have after {t : Node} {w' : World} (ht : IsContainer env digest reference t)
        (h : Entered S .containers container t w w') :
        (writeContainer container digest reference).After env S w w' :=
      after_of_entered hS hn (containerPath_storeAt hn S) ⟨t, rfl, ht⟩ h
    exact ensures_mono (ensures_writeContainer hS hn hr (fun _ h => .inl h.calm)
      fun _ _ ht h => .inr (after ht h)) (fun _ h => h)
      fun _ _ _ ⟨_, ht, h⟩ => ⟨after ht h.toEntered, h.resting⟩
  | writeLayer digest format reader =>
    have after {t : Node} {w' : World} (hd : WellFormed digest) (ht : t.isDir)
        (hx : Extracted env digest t) (h : Entered S .layers digest t w w') :
        (writeLayer digest format reader).After env S w w' :=
      after_of_entered hS (plain_of_wellFormed hd) (layerPath_storeAt (plain_of_wellFormed hd) S)
        ⟨t, rfl, hd, ht, hx⟩ h
    exact ensures_mono (ensures_writeLayer hS hc (fun _ h => .inl h.calm)
      fun _ _ hd ht hx h => .inr (after hd ht hx h)) (fun _ h => h)
      fun _ _ _ ⟨_, hd, ht, hx, h⟩ => ⟨after hd ht hx h.toEntered, h.resting⟩
  | removeContainer container => exact removal hc trivial
  | removeManifest digest => exact removal hc trivial
  | removeLayer digest => exact removal hc trivial

end Operation

/-! ## Whole operations -/

variable {o : Operation}

/-- Whole operations, each where its caller may call it, and calm between them. -/
inductive Ran (env : Env) (S : Place) (w : World) : World → Prop
  | refl : Ran env S w w
  | calm {w' w'' : World} (h : Ran env S w w') (hc : Calm S w' w'') : Ran env S w w''
  | operation {w' w'' : World} (o : Operation) (h : Ran env S w w') (hc : o.Called S w')
      (ha : o.After env S w' w'') : Ran env S w w''

theorem Ran.trans (h : Ran env S w w') (h' : Ran env S w' w'') : Ran env S w w'' := by
  induction h' with
  | refl => exact h
  | calm _ hc ih => exact ih.calm hc
  | operation o _ hc ha ih => exact ih.operation o hc ha

theorem Ran.layout (h : Ran env S w w') (hl : Layout S w.root) : Layout S w'.root := by
  cases h with
  | refl => exact hl
  | calm _ hc => exact hc.layout
  | operation _ _ _ ha => exact ha.layout

/-! ## Where contents come from -/

/-- A content that comes from the store `s` and the arguments of operations alone: an operation
    on this entry has set it, or it was there; in it digests may have been written to files of
    the one name, and places removed. -/
inductive Sourced (env : Env) (s : Store) (k : Kind) (n : Bytes) : Node → Prop
  | initial {t : Node} (h : s k n = some t) : Sourced env s k n t
  | set (o : Operation) {t : Node} (hn : o.Sets k n) (h : o.Content env (some t)) :
      Sourced env s k n t
  | digest {t : Node} (r : Place) (digest : Bytes) (h : Sourced env s k n t) :
      Sourced env s k n (t.put (r ++ [digestFile]) (some (.leaf (.file newFile digest))))
  | removed {t : Node} (r : Place) (h : Sourced env s k n t) : Sourced env s k n (t.put r none)

/-- All containers, manifests and layers are so. -/
def AllSourced (env : Env) (s s' : Store) : Prop :=
  ∀ k n t, k ≠ .locks → s' k n = some t → Sourced env s k n t

theorem locate_entry {x : Node} {k : Kind} {n m : Bytes} {d : Place} (hS : PlainPlace S)
    (hl : Layout S x) (hn : Plain n) (h : locate x (pathOf (entryPlace S k n)) = .ok (d, m)) :
    d = tablePlace S k ∧ m = n := by
  rw [pathOf, entryPlace] at h
  rcases hl.table k _ List.prefix_rfl with hg | hd
  · rw [locate_missing (hl.table k) hg (plain_tablePlace hS k) hn] at h
    cases h
  · rw [locate_child hd (plain_tablePlace hS k) hn, Except.ok.injEq, Prod.mk.injEq] at h
    exact ⟨h.1.symm, h.2.symm⟩

/-- One entry set. -/
theorem AllSourced.set {s s' : Store} {k : Kind} {n : Bytes} {v : Option Node}
    (h : AllSourced env s s') (o : Operation) (hv : o.Content env v)
    (hn : v = none ∨ o.Sets k n) : AllSourced env s (s'.set k n v) := by
  intro k' n' t hk ht
  by_cases he : k' = k ∧ n' = n
  · obtain ⟨rfl, rfl⟩ := he
    rw [Store.set_same] at ht
    subst ht
    exact .set o (hn.resolve_left (by simp)) hv
  · rw [Store.set_of_ne he] at ht
    exact h k' n' t hk ht

/-- One place set to a digest, or removed. -/
theorem AllSourced.put {s : Store} {x : Node} {d c : Place} {m : Bytes} {v : Option Node}
    (o : Operation) (h : AllSourced env s (view S x)) (hv : o.Content env v) (hc : c = d ++ [m])
    (hd : ∀ k, c <+: tablePlace S k → v = none)
    (hentry : v = none ∨ (∃ digest, v = some (.leaf (.file newFile digest))) ∧ m = digestFile ∧
      (∀ k, o.Sets k digestFile) ∧ ∀ k n, c = entryPlace S k n → x.DirAt (tablePlace S k)) :
    AllSourced env s (view S (x.put c v)) := by
  have hne : c ≠ [] := by simp [hc]
  rcases place_cases S c with ⟨k, hk⟩ | ⟨k, n, r, rfl⟩ | ⟨h₁, h₂⟩
  · obtain rfl := hd k hk
    intro k' n' t hk' ht
    rcases view_put_above (x := x) hne hk k' n' with he | ⟨-, he⟩
    · exact h k' n' t hk' (he ▸ ht)
    · rw [he] at ht
      cases ht
  · cases r with
    | nil =>
      rw [List.append_nil] at hentry hc ⊢
      rw [view_put_entry (hentry.imp_right fun h => h.2.2.2 k n rfl)]
      refine h.set o hv (hentry.imp_right fun h => ?_)
      obtain ⟨-, hm⟩ := List.append_inj' hc rfl
      rw [List.singleton_inj.mp hm, h.2.1]
      exact h.2.2.1 k
    | cons a r =>
      rw [view_put_below (by simp)]
      intro k' n' t hk' ht
      by_cases he : k' = k ∧ n' = n
      · obtain ⟨rfl, rfl⟩ := he
        rw [Store.set_same] at ht
        obtain ⟨u, hu, rfl⟩ := Option.map_eq_some_iff.mp ht
        rcases hentry with rfl | ⟨⟨digest, rfl⟩, rfl, -⟩
        · exact .removed _ (h k' n' u hk' hu)
        · -- the place ends in the name of the file
          obtain ⟨r', b, hr⟩ : ∃ r' b, a :: r = r' ++ [b] :=
            ⟨_, _, (List.dropLast_append_getLast (List.cons_ne_nil a r)).symm⟩
          rw [hr, ← List.append_assoc] at hc
          obtain ⟨-, hb⟩ := List.append_inj' hc rfl
          rw [hr, List.singleton_inj.mp hb]
          exact .digest _ _ (h k' n' u hk' hu)
      · rw [Store.set_of_ne he] at ht
        exact h k' n' t hk' ht
  · rw [view_put_off h₁ h₂]
    exact h

theorem Operation.After.allSourced {s : Store} (hS : PlainPlace S) (hc : o.Called S w)
    (ha : o.After env S w w') (h : AllSourced env s (view S w.root)) :
    AllSourced env s (view S w'.root) := by
  obtain ⟨w₁, d, m, v, hcalm, hloc, hv, hp⟩ := ha.placed
  have h₁ : AllSourced env s (view S w₁.root) := fun k n t hk ht =>
    h k n t hk (by rw [← hcalm.entries k n hk]; exact ht)
  obtain ⟨_, -, -, -, -, hdir⟩ := locate_eq_ok hloc
  rw [hp.view_eq]
  have entry {k : Kind} {n : Bytes} (hn : Plain n)
      (hpath : o.path (storeAt S) = pathOf (entryPlace S k n)) (hset : o.Sets k n) :
      AllSourced env s (view S (w₁.root.put (d ++ [m]) v)) := by
    rw [hpath] at hloc
    obtain ⟨rfl, rfl⟩ := locate_entry hS hcalm.layout hn hloc
    rw [show tablePlace S k ++ [m] = entryPlace S k m from rfl, view_put_entry (.inr hdir)]
    exact h₁.set o hv (.inr hset)
  have place (hleaf : v = none ∨ (∃ digest, v = some (.leaf (.file newFile digest))) ∧
      m = digestFile ∧ ∀ k, o.Sets k digestFile) :
      AllSourced env s (view S (w₁.root.put (d ++ [m]) v)) := by
    refine h₁.put o hv rfl (fun k hk => hleaf.resolve_right ?_)
      (hleaf.imp_right fun hd => ⟨hd.1, hd.2.1, hd.2.2, fun k n he => ?_⟩)
    · -- no file stands where the store has its directories
      rintro ⟨⟨digest, rfl⟩, -⟩
      have hget : w'.root.find (d ++ [m]) = some (.inl (.file newFile digest)) := by
        rw [(hp.agree _ (temporary_off_le_table hk)).1, find, get_put_append hdir _ []]
        rfl
      rcases ha.layout.table k _ hk with hg | hg
      · rw [find_eq_none_iff.mpr hg] at hget
        cases hget
      · obtain ⟨_, hm⟩ := dirAt_iff_find.mp hg
        rw [hm] at hget
        cases hget
    · obtain ⟨rfl, -⟩ := List.append_inj' he rfl
      exact hdir
  cases o with
  | writeManifest _ _ => exact entry hc.2 (manifestPath_storeAt hc.2 S) ⟨rfl, rfl⟩
  | writeContainerManifestDigest _ digest =>
    obtain ⟨ps, hps, -⟩ := locate_eq_ok hloc
    rw [Operation.path, join_plain plain_digestFile] at hps
    obtain ⟨-, hm⟩ := List.append_inj' hps rfl
    exact place (.inr ⟨⟨digest, hv⟩, (List.singleton_inj.mp hm).symm, fun _ => rfl⟩)
  | writeContainer _ _ _ => exact entry hc.2 (containerPath_storeAt hc.2 S) ⟨rfl, rfl⟩
  | writeLayer digest _ _ =>
    obtain ⟨t, -, hd, -⟩ := id hv
    exact entry (plain_of_wellFormed hd) (layerPath_storeAt (plain_of_wellFormed hd) S) ⟨rfl, rfl⟩
  | removeContainer _ => exact place (.inl hv)
  | removeManifest _ => exact place (.inl hv)
  | removeLayer _ => exact place (.inl hv)

/-- Whatever has been left in `temporary`, none of it is in the store. -/
theorem Ran.allSourced (hS : PlainPlace S) (h : Ran env S w w') :
    AllSourced env (view S w.root) (view S w'.root) := by
  induction h with
  | refl => exact fun _ _ _ _ ht => .initial ht
  | calm _ hc ih => exact fun k n t hk ht => ih k n t hk (hc.entries k n hk ▸ ht)
  | operation o _ hc ha ih => exact ha.allSourced hS hc ih

end Pakstak
