/-
  Publishing and removing: one rename each, with all else below `temporary`.

  `Placed S c o w w'`: the place `c` has been set to `o`, and nothing else has changed but
  what is below `temporary`.

  Proved, for any answers of the environment, and for every state seen on the way:
  * `ends_writeAndRename`, `ensures_publish`: the file or directory is not there, or is there
    complete.
  * `ends_moveAndDrop`: it is still there, or gone.
-/
import Pakstak.View

namespace Pakstak

open Posix Prog FileTree

variable {env : Env} {I : World → Prop} {S : Place}

/-! ## Paths of the store -/

/-- The store at `S`. -/
def storeAt (S : Place) : Storage := .ofPath (pathOf S)

theorem plain_containers : Plain (utf8 "containers") := by decide +kernel
theorem plain_manifests : Plain (utf8 "manifests") := by decide +kernel
theorem plain_layers : Plain (utf8 "layers") := by decide +kernel
theorem plain_locks : Plain (utf8 "locks") := by decide +kernel
theorem plain_storage : Plain (utf8 "storage") := by decide +kernel
theorem plain_temporary : Plain (utf8 "temporary") := by decide +kernel

theorem plain_tablePlace (hS : PlainPlace S) (k : Kind) : PlainPlace (tablePlace S k) := by
  refine hS.append fun n hn => ?_
  cases k with
  | containers => exact List.mem_singleton.mp hn ▸ plain_containers
  | manifests => exact List.mem_singleton.mp hn ▸ plain_manifests
  | layers => exact List.mem_singleton.mp hn ▸ plain_layers
  | locks =>
    rcases List.mem_cons.mp hn with rfl | hn
    · exact plain_locks
    · exact List.mem_singleton.mp hn ▸ plain_layers

theorem plain_temporaryPlace (hS : PlainPlace S) : PlainPlace (temporaryPlace S) :=
  hS.snoc plain_temporary

theorem temporaryPath_storeAt (S : Place) :
    (storeAt S).temporaryPath = pathOf (temporaryPlace S) := join_plain plain_temporary _

theorem containersPath_storeAt (S : Place) :
    (storeAt S).containersPath = pathOf (tablePlace S .containers) := join_plain plain_containers _

theorem manifestsPath_storeAt (S : Place) :
    (storeAt S).manifestsPath = pathOf (tablePlace S .manifests) := join_plain plain_manifests _

theorem layersPath_storeAt (S : Place) :
    (storeAt S).layersPath = pathOf (tablePlace S .layers) := join_plain plain_layers _

theorem layerLocksPath_storeAt (S : Place) :
    (storeAt S).layerLocksPath = pathOf (tablePlace S .locks) := by
  have h : (storeAt S).locksPath = pathOf (S ++ [utf8 "locks"]) := join_plain plain_locks _
  rw [Storage.layerLocksPath, h, join_plain plain_layers]
  simp [pathOf, tablePlace, Kind.head, Kind.tail]

theorem containerPath_storeAt {n : Bytes} (hn : Plain n) (S : Place) :
    (storeAt S).containerPath n = pathOf (entryPlace S .containers n) := by
  rw [Storage.containerPath, containersPath_storeAt]
  exact join_plain hn _

theorem manifestPath_storeAt {d : Bytes} (hd : Plain (d ++ utf8 ".json")) (S : Place) :
    (storeAt S).manifestPath d = pathOf (entryPlace S .manifests (d ++ utf8 ".json")) := by
  rw [Storage.manifestPath, manifestsPath_storeAt]
  exact join_plain hd _

theorem layerPath_storeAt {n : Bytes} (hn : Plain n) (S : Place) :
    (storeAt S).layerPath n = pathOf (entryPlace S .layers n) := by
  rw [Storage.layerPath, layersPath_storeAt]
  exact join_plain hn _

theorem layerLockPath_storeAt {n : Bytes} (hn : Plain n) (S : Place) :
    (storeAt S).layerLockPath n = pathOf (entryPlace S .locks n) := by
  rw [Storage.layerLockPath, layerLocksPath_storeAt]
  exact join_plain hn _

/-! ## File names -/

/-- The components of a path have no slash and are not empty. -/
def ProperPath (p : PathBuf) : Prop := ∀ n ∈ p.comps, n ≠ [] ∧ slashByte ∉ n

theorem properPath_pathOf {c : Place} (hc : PlainPlace c) : ProperPath (pathOf c) :=
  fun n hn => ⟨(hc n hn).ne_nil, (hc n hn).no_slash⟩

theorem ProperPath.join {p : PathBuf} (h : ProperPath p) (s : Bytes) : ProperPath (p.join s) := by
  intro n hn
  rw [PathBuf.join] at hn
  split at hn
  · exact proper_of_mem_pieces hn
  · rcases List.mem_append.mp hn with hn | hn
    · exact h n hn
    · exact proper_of_mem_pieces hn

theorem properPath_containerPath (hS : PlainPlace S) (container : Bytes) :
    ProperPath ((storeAt S).containerPath container) := by
  rw [Storage.containerPath, containersPath_storeAt]
  exact (properPath_pathOf (plain_tablePlace hS _)).join _

theorem properPath_manifestPath (hS : PlainPlace S) (digest : Bytes) :
    ProperPath ((storeAt S).manifestPath digest) := by
  rw [Storage.manifestPath, manifestsPath_storeAt]
  exact (properPath_pathOf (plain_tablePlace hS _)).join _

theorem properPath_layerPath (hS : PlainPlace S) (digest : Bytes) :
    ProperPath ((storeAt S).layerPath digest) := by
  rw [Storage.layerPath, layersPath_storeAt]
  exact (properPath_pathOf (plain_tablePlace hS _)).join _

theorem plain_of_fileName {p : PathBuf} (hp : ProperPath p) {n : Bytes}
    (h : p.fileName = some n) : Plain n := by
  rw [PathBuf.fileName, Option.filter_eq_some_iff] at h
  obtain ⟨hl, hdd⟩ := h
  have hmem : n ∈ p.comps := by
    have := List.mem_of_getLast? hl
    rw [PathBuf.normal, List.mem_reverse] at this
    exact List.mem_reverse.mp ((List.dropWhile_sublist _).subset this)
  obtain ⟨hne, hs⟩ := hp n hmem
  refine ⟨hne, hs, ?_, by simpa using hdd⟩
  rintro rfl
  rw [PathBuf.normal, List.getLast?_reverse] at hl
  have := List.head?_dropWhile_not (fun a => decide (a = dot)) p.comps.reverse
  simp [hl] at this

/-- The temporary path for an output path. -/
theorem ensures_temporaryPathFor {p : PathBuf} {w : World} (hp : ProperPath p) (hI : I w) :
    Ensures (machine env) I
      (fun q w' => w' = w ∧ ∃ n, p.fileName = some n ∧ Plain n ∧
        q = pathOf (temporaryPlace S ++ [n]))
      ((storeAt S).temporaryPathFor p) w := by
  rw [Storage.temporaryPathFor]
  split
  · rename_i n hn
    have hpl := plain_of_fileName hp hn
    refine ensures_ok hI ⟨rfl, n, hn, hpl, ?_⟩
    rw [temporaryPath_storeAt]
    exact join_plain hpl _
  · exact ensures_bail hI

/-! ## A store that can be changed -/

/-- The layout stands, and `temporary` is a directory. -/
structure Ready (S : Place) (w : World) : Prop where
  layout : Layout S w.root
  temporary : w.root.DirAt (temporaryPlace S)

/-- Nothing is in `temporary`. -/
def Cleared (S : Place) (w : World) : Prop := ∀ n, w.root.get (temporaryPlace S ++ [n]) = none

theorem Ready.still {w w' : World} (h : Ready S w) (hk : Keeps (temporaryPlace S) w w') :
    Still S w w' := still_of_keeps h.layout h.temporary hk

theorem Ready.keeps {w w' : World} (h : Ready S w) (hk : Keeps (temporaryPlace S) w w') :
    Ready S w' := ⟨(h.still hk).layout, hk.dirs _ h.temporary⟩

/-- The place `c` has been set to `o`, whatever is below `temporary` now. -/
structure Placed (S : Place) (c : Place) (o : Option Node) (w w' : World) : Prop where
  agree : AgreeOff (temporaryPlace S) (w.root.put c o) w'.root
  temporary : w'.root.DirAt (temporaryPlace S)
  aside : w'.aside = w.aside

theorem Placed.within {c : Place} {o : Option Node} {w w' w'' : World} (h : Placed S c o w w')
    (hw : Within (temporaryPlace S) w' w'') (hd : w''.root.DirAt (temporaryPlace S)) :
    Placed S c o w w'' := ⟨h.agree.trans hw.agree, hd, hw.aside.trans h.aside⟩

theorem Placed.of_within {c : Place} {o : Option Node} {w w' w'' : World}
    (hw : Within (temporaryPlace S) w w') (h : Placed S c o w' w'')
    (hc : ¬ temporaryPlace S <+: c) : Placed S c o w w'' :=
  ⟨(hw.agree.put hc o).trans h.agree, h.temporary, h.aside.trans hw.aside⟩

/-- A rename out of `temporary` sets its destination. -/
theorem placed_of_rename_out {x y : Node} {p : PathBuf} {c : Place} {n m : Bytes}
    (hS : PlainPlace S) (hn : Plain n) (ht : x.DirAt (temporaryPlace S))
    (hc : ¬ temporaryPlace S <+: c ++ [m]) (hl : locate x p = .ok (c, m)) {s : Node}
    (hs : x.get (temporaryPlace S ++ [n]) = some s)
    (hr : rename x (pathOf (temporaryPlace S ++ [n])) p = .ok y) :
    AgreeOff (temporaryPlace S ++ [n]) (x.put (c ++ [m]) (some s)) y ∧
      y.get (temporaryPlace S ++ [n]) = none ∧ Free x (c ++ [m]) s ∧
      ¬ c ++ [m] <+: temporaryPlace S ++ [n] := by
  obtain ⟨d, n', d', m', s', h₁, h₂, h₃, -, h₄⟩ := rename_eq_ok_iff.mp hr
  rw [pathOf, locate_child ht (plain_temporaryPlace hS) hn, Except.ok.injEq, Prod.mk.injEq] at h₁
  obtain ⟨rfl, rfl⟩ := h₁
  rw [hl, Except.ok.injEq, Prod.mk.injEq] at h₂
  obtain ⟨rfl, rfl⟩ := h₂
  rw [hs, Option.some.injEq] at h₃
  subst h₃
  have hT : temporaryPlace S <+: temporaryPlace S ++ [n] := List.prefix_append _ _
  rcases renameInto_eq_ok_iff.mp h₄ with ⟨h, -⟩ | ⟨h₅, h₆, hf, rfl⟩
  · exact absurd (h ▸ hT) hc
  refine ⟨?_, ?_, hf, h₆⟩
  · exact AgreeOff.put (agreeOff_put List.prefix_rfl x none) h₅ _
  · rw [get_put_of_disjoint h₆ h₅]
    exact get_put_none _ _ _ []

/-- A rename into `temporary` removes its source. -/
theorem placed_of_rename_in {x y : Node} {p : PathBuf} {n : Bytes} (hS : PlainPlace S)
    (hn : Plain n) (ht : x.DirAt (temporaryPlace S))
    (hr : rename x p (pathOf (temporaryPlace S ++ [n])) = .ok y) :
    ∃ d m s, locate x p = .ok (d, m) ∧ x.get (d ++ [m]) = some s ∧
      AgreeOff (temporaryPlace S) (x.put (d ++ [m]) none) y ∧
      y.DirAt (temporaryPlace S) ∧ ¬ d ++ [m] <+: temporaryPlace S ∧
      ∀ a, a ≠ n → x.get (temporaryPlace S ++ [a]) = none →
        y.get (temporaryPlace S ++ [a]) = none := by
  obtain ⟨d, m, d', n', s, h₁, h₂, h₃, -, h₄⟩ := rename_eq_ok_iff.mp hr
  rw [pathOf, locate_child ht (plain_temporaryPlace hS) hn, Except.ok.injEq, Prod.mk.injEq] at h₂
  obtain ⟨rfl, rfl⟩ := h₂
  have hT : temporaryPlace S <+: temporaryPlace S ++ [n] := List.prefix_append _ _
  refine ⟨d, m, s, h₁, h₃, ?_⟩
  rcases renameInto_eq_ok_iff.mp h₄ with ⟨h, rfl⟩ | ⟨h₅, h₆, -, rfl⟩
  · rw [h]
    exact ⟨(agreeOff_put hT y none).symm, ht, entry_not_above _ _, fun _ _ => id⟩
  · have hdT : ¬ d ++ [m] <+: temporaryPlace S := fun h' => h₅ (h'.trans hT)
    refine ⟨agreeOff_put hT _ _, ?_, hdT, fun a ha hx => ?_⟩
    · rw [dirAt_put_off (entry_not_above _ _), dirAt_put_off hdT]
      exact ht
    · rw [get_put_of_disjoint (snoc_off_snoc fun h => ha h.symm) (snoc_off_snoc ha)]
      exact get_put_none_of_none hx

/-! ## Files and directories that appear complete -/

theorem isOk_stat_child {x : Node} {d : Place} {n : Bytes} (hd : x.DirAt d) (hp : PlainPlace d)
    (hn : Plain n) (hf : x.find (d ++ [n]) = none) : existsPath x (pathOf (d ++ [n])) = false := by
  rw [existsPath, stat_child (clear_of_dirAt hd) hp hn (fun t ht => by rw [hf] at ht; cases ht), hf]
  rfl

/-- Making `temporary` again changes nothing. -/
theorem ensures_createTemporary {w : World} (hS : PlainPlace S)
    (hd : w.root.DirAt (temporaryPlace S)) (hI : I w) :
    Ensures (machine env) I (fun _ w' => w' = w) (createDirAll (storeAt S).temporaryPath) w := by
  rw [temporaryPath_storeAt]
  exact ensures_createDirAll_present (isDirPath_of_dirAt hd (plain_temporaryPlace hS)) hI

/-- `data` is written to a fresh file of `temporary`. -/
theorem ensures_writeTemporary {d : Place} {n data : Bytes} {w : World} (hp : PlainPlace (d ++ [n]))
    (hd : w.root.DirAt d) (hf : w.root.find (d ++ [n]) = none)
    (hI : ∀ w', Keeps (d ++ [n]) w w' → I w') :
    Ensures (machine env) I
      (fun r w' => Keeps (d ++ [n]) w w' ∧
        (r = .ok () → w'.root.get (d ++ [n]) = some (.leaf (.file newFile data))))
      (Fs.write (pathOf (d ++ [n])) data) w := by
  have hl : NotLink w.root (d ++ [n]) := fun t ht => by rw [hf] at ht; cases ht
  have target {c : Place} (hc : openTarget w.root (pathOf (d ++ [n])) = .ok c) : c = d ++ [n] := by
    rw [openTarget_child hd (hp.up (List.prefix_append _ _)) (hp n (by simp)) hl, hf] at hc
    cases hc
    rfl
  have written (data : Bytes) : withData w.root (d ++ [n]) data =
      w.root.put (d ++ [n]) (some (.leaf (.file newFile data))) := by
    rw [withData, hf]
  have keeps (data : Bytes) :=
    keeps_put_missing List.prefix_rfl hf (some (.leaf (.file newFile data)))
  refine ensures_write (hI w (.refl _ w)) (fun x hx => ?_) (fun c hc => ?_)
    fun e => ⟨.refl _ w, by simp⟩
  · obtain ⟨c, data', hc, -, rfl⟩ := hx
    rw [target hc, written]
    exact ⟨hI _ (keeps _), fun code => ⟨keeps _, by simp⟩⟩
  · rw [target hc, written]
    exact ⟨hI _ (keeps _), keeps _, fun _ => get_put_append hd _ []⟩

/-- Nothing but the entry `n` is in `temporary`. -/
def ClearedBut (S : Place) (n : Bytes) (w : World) : Prop :=
  ∀ m, m ≠ n → w.root.get (temporaryPlace S ++ [m]) = none

theorem Keeps.inside {w w' : World} {n : Bytes} (h : Keeps (temporaryPlace S ++ [n]) w w') :
    Keeps (temporaryPlace S) w w' := h.shut.toKeeps

/-- The path `p` is for the name `m` in the directory `c`, off `temporary`. -/
structure Output (S : Place) (w : World) (p : PathBuf) (c : Place) (m : Bytes) : Prop where
  locate : locate w.root p = .ok (c, m)
  proper : ProperPath p
  off : ¬ temporaryPlace S <+: c ++ [m]

theorem fileName_of_locate {x : Node} {p : PathBuf} {c : Place} {m : Bytes}
    (h : Posix.locate x p = .ok (c, m)) : p.fileName = some m := by
  rw [Posix.locate] at h
  split at h
  · cases h
  rename_i n hn
  split at h
  · cases h
  rename_i hdots
  rw [not_or] at hdots
  obtain ⟨ps, hps⟩ := List.getLast?_eq_some_iff.mp hn
  have hm : n = m := by
    split at h
    · cases h
    · split at h <;> cases h
      rfl
  rw [PathBuf.fileName, PathBuf.normal, hps, ← hm]
  simp [hdots.1, Option.filter, hdots.2]

/-- The new entry has been moved from `n` in `temporary` to its destination. -/
structure Published (S c : Place) (m n : Bytes) (s : Node) (w w' : World) : Prop where
  placed : Placed S (c ++ [m]) (some s) w w'
  free : Free w.root (c ++ [m]) s
  off : ¬ temporaryPlace S <+: c ++ [m]
  above : ¬ c ++ [m] <+: temporaryPlace S
  cleared : ClearedBut S n w → Cleared S w'

theorem Published.of_keeps {c : Place} {m n : Bytes} {s : Node} {w w' w'' : World}
    (hk : Keeps (temporaryPlace S ++ [n]) w w') (h : Published S c m n s w' w'') :
    Published S c m n s w w'' := by
  have hin := hk.inside.within
  refine ⟨h.placed.of_within hin h.off, ?_, h.off, h.above, fun hw => h.cleared fun a ha => ?_⟩
  · have hf := h.free
    rw [Free, (hin.agree _ h.off).2 h.above] at hf
    exact hf
  · rw [(hk.within.agree _ (snoc_off_snoc ha.symm)).2 (snoc_off_snoc ha)]
    exact hw a ha

/-- The rename that publishes what is at `n` in `temporary`. -/
theorem ensures_publish {w : World} {p : PathBuf} {c : Place} {m n : Bytes} {s : Node}
    (hS : PlainPlace S) (ht : w.root.DirAt (temporaryPlace S)) (hn : Plain n)
    (ho : Output S w p c m) (hs : w.root.get (temporaryPlace S ++ [n]) = some s) (hI : I w)
    (hpub : ∀ w', Published S c m n s w w' → I w') :
    Ensures (machine env) I
      (fun r w' => (r = .ok () → Published S c m n s w w') ∧ ∀ e, r = .error e → w' = w)
      (Fs.rename (pathOf (temporaryPlace S ++ [n])) p) w := by
  refine ensures_rename hI (fun y hy => ?_) fun e _ => ⟨fun h => (by cases h), fun _ _ => rfl⟩
  obtain ⟨ha, hg, hf, habove⟩ := placed_of_rename_out hS hn ht ho.off ho.locate hs hy
  have hT : temporaryPlace S <+: temporaryPlace S ++ [n] := List.prefix_append _ _
  have habove' : ¬ c ++ [m] <+: temporaryPlace S := fun h => habove (h.trans hT)
  have hpub' : Published S c m n s w (w.withRoot y) := by
    refine ⟨⟨ha.mono hT, ?_, rfl⟩, hf, ho.off, habove', fun hw a => ?_⟩
    · rw [withRoot_root, ha.dirAt (entry_not_above _ _), dirAt_put_off habove']
      exact ht
    · rw [withRoot_root]
      by_cases han : a = n
      · rw [han]
        exact hg
      have hdst : ¬ c ++ [m] <+: temporaryPlace S ++ [a] := fun h => by
        rcases List.prefix_concat_iff.mp h with h | h
        · exact ho.off (h ▸ List.prefix_append _ _)
        · exact habove' h
      rw [(ha _ (snoc_off_snoc fun h => han h.symm)).2 (snoc_off_snoc han),
        get_put_of_disjoint hdst fun h => ho.off ((List.prefix_append _ _).trans h)]
      exact hw a han
  exact ⟨hpub _ hpub', fun _ => hpub', fun _ h => by cases h⟩

/-- A file written under `temporary` and renamed to its path. After an error nothing has
    changed but in `temporary`. -/
theorem ends_writeAndRename {w : World} {p : PathBuf} {c : Place} {m data : Bytes}
    (hS : PlainPlace S) (hr : Ready S w) (hcl : Cleared S w) (ho : Output S w p c m)
    (hk : ∀ w', Keeps (temporaryPlace S) w w' → I w')
    (hpub : ∀ w', Published S c m m (.leaf (.file newFile data)) w w' → I w') :
    Ends (machine env) I (fun _ w' => Published S c m m (.leaf (.file newFile data)) w w')
      (fun _ w' => Keeps (temporaryPlace S) w w')
      (do
        orContext ⟨"failed to create temporary directory {}", [(storeAt S).temporaryPath.display]⟩
          (← createDirAll (storeAt S).temporaryPath)
        let temporaryPath ← (storeAt S).temporaryPathFor p
        orContext ⟨"failed to write temporary file {}", [temporaryPath.display]⟩
          (← Fs.write temporaryPath data)
        orContext ⟨"failed to rename temporary file {} to {}", [temporaryPath.display, p.display]⟩
          (← Fs.rename temporaryPath p)) w := by
  have hfile := fileName_of_locate ho.locate
  have hm : Plain m := plain_of_fileName ho.proper hfile
  have hp : PlainPlace (temporaryPlace S ++ [m]) := (plain_temporaryPlace hS).snoc hm
  have hI := hk w (.refl _ w)
  refine ends_step (P := fun _ w' => w' = w)
    (ends_of_noError (noError_createDirAll _) (ensures_mono
      (ensures_createTemporary hS hr.temporary hI) (fun _ h => h)
      fun _ w' _ h => ⟨fun _ _ => h, fun _ _ => by rw [h]; exact .refl _ w⟩)) ?_
  rintro - w₁ - rfl
  refine ends_bind (ends_of_ensures_and (ensures_temporaryPathFor ho.proper ⟨hI, .refl _ w₁⟩)) ?_
  rintro q w₁ - ⟨rfl, m', hm', -, rfl⟩
  obtain rfl : m = m' := by
    rw [hfile] at hm'
    exact Option.some.inj hm'
  refine ends_step (P := fun _ w' => Keeps (temporaryPlace S ++ [m]) w₁ w' ∧
      w'.root.get (temporaryPlace S ++ [m]) = some (.leaf (.file newFile data)))
    (ends_call (ensures_mono (ensures_writeTemporary hp hr.temporary (find_eq_none_iff.mpr (hcl m))
      fun w' h => hk w' h.inside) (fun _ h => h)
      fun r w' _ h => ⟨fun a ha => ⟨h.1, h.2 ha⟩, fun _ _ => h.1.inside⟩)) ?_
  rintro - w₂ h₂ ⟨hk₂, hg₂⟩
  have hlocate := locate_mono hk₂.dirs (hk₂.links (hcl m)) ho.locate
  exact ends_last (ends_call (ensures_mono (ensures_publish hS (hk₂.dirs _ hr.temporary) hm
    ⟨hlocate, ho.proper, ho.off⟩ hg₂ h₂ fun w' h => hpub w' (h.of_keeps hk₂)) (fun _ h => h)
      fun r w' _ h => ⟨fun a ha => (h.1 ha).of_keeps hk₂,
        fun e he => by rw [h.2 e he]; exact hk₂.inside⟩))

/-! ## Files and directories that go at once -/

/-- What the path named has been moved into `temporary`, after something there was cleared. -/
def Removed (S : Place) (p : PathBuf) (w w' : World) : Prop :=
  ∃ w₁ d m s, Within (temporaryPlace S) w w₁ ∧ w₁.root.DirAt (temporaryPlace S) ∧
    (Cleared S w → w₁ = w) ∧ locate w₁.root p = .ok (d, m) ∧ w₁.root.get (d ++ [m]) = some s ∧
    ¬ d ++ [m] <+: temporaryPlace S ∧ Placed S (d ++ [m]) none w₁ w'

theorem Removed.within {p : PathBuf} {w w' w'' : World} (h : Removed S p w w')
    (hw : Within (temporaryPlace S) w' w'') (hd : w''.root.DirAt (temporaryPlace S)) :
    Removed S p w w'' := by
  obtain ⟨w₁, d, m, s, h₁, h₂, h₃, h₄, h₅, h₆, h₇⟩ := h
  exact ⟨w₁, d, m, s, h₁, h₂, h₃, h₄, h₅, h₆, h₇.within hw hd⟩

theorem Removed.temporary {p : PathBuf} {w w' : World} (h : Removed S p w w') :
    w'.root.DirAt (temporaryPlace S) := by
  obtain ⟨_, _, _, _, _, _, _, _, _, _, h⟩ := h
  exact h.temporary

theorem Removing.inside {w w' : World} {n : Bytes} (h : Removing (temporaryPlace S ++ [n]) w w') :
    Within (temporaryPlace S) w w' := h.within.mono (List.prefix_append _ _)

theorem Within.temporary {w w' : World} {n : Bytes} (h : Within (temporaryPlace S ++ [n]) w w')
    (hd : w.root.DirAt (temporaryPlace S)) : w'.root.DirAt (temporaryPlace S) :=
  (h.agree.dirAt (entry_not_above _ _)).mpr hd

/-- `drop` removes the entry `n` of `temporary`, or fails with an error that satisfies `H`. -/
def Drops (env : Env) (S : Place) (n : Bytes) (H : Err → Prop) (drop : M Unit) : Prop :=
  ∀ (I : World → Prop) w, w.root.DirAt (temporaryPlace S) →
    (∀ w', Removing (temporaryPlace S ++ [n]) w w' → I w') →
    Ends (machine env) I
      (fun _ w' => Within (temporaryPlace S ++ [n]) w w' ∧
        w'.root.get (temporaryPlace S ++ [n]) = none) (fun e _ => H e) drop w

theorem drops_removeDirAllWritable (hS : PlainPlace S) {n : Bytes} {H : Err → Prop}
    (hn : Plain n) (m : Msg) (hH : ∀ e, H (.context m e)) : Drops env S n H
      (withContext m (removeDirAllWritable env (pathOf (temporaryPlace S ++ [n])))) :=
  fun _ _ hd hI => ends_mapError.mpr (ends_of_ensures
    (ensures_removeDirAllWritable ((plain_temporaryPlace hS).snoc hn) hd hI) fun e _ _ => hH e)

theorem drops_removeFile (hS : PlainPlace S) {n : Bytes} (hn : Plain n) (m : Msg) :
    Drops env S n (fun _ => True)
      (do orContext m (← Fs.removeFile (pathOf (temporaryPlace S ++ [n])))) := by
  intro I w hd hI
  refine ends_of_ensures (ensures_last (ensures_removeFile (hI w ⟨.refl _ w, .inr⟩)
    (fun x hx => ?_) fun e _ a ha => by cases ha)) fun _ _ _ => trivial
  rw [unlink_child hd (plain_temporaryPlace hS) hn] at hx
  split at hx <;> cases hx
  have hg := get_put_none w.root (temporaryPlace S) n []
  exact ⟨hI _ ⟨within_put List.prefix_rfl _ _, fun _ => .inl hg⟩,
    fun _ _ => ⟨within_put List.prefix_rfl _ _, hg⟩⟩

/-- Move what the path names into `temporary`, and remove it there. -/
def moveAndDrop (st : Storage) (clear drop : PathBuf → M Unit) (moved : PathBuf → Msg)
    (p : PathBuf) : M Unit := do
  let temporaryPath ← st.temporaryPathFor p
  if ← pathExists temporaryPath then clear temporaryPath
  orContext (moved temporaryPath) (← Fs.rename p temporaryPath)
  drop temporaryPath

theorem removeFile_eq (st : Storage) (p : PathBuf) (kind : Bytes) :
    st.removeFile p kind = moveAndDrop st
      (fun q => do
        orContext ⟨"failed to clear temporary {} file {}", [kind, q.display]⟩ (← Fs.removeFile q))
      (fun q => do
        orContext ⟨"failed to remove temporary {} file {}", [kind, q.display]⟩ (← Fs.removeFile q))
      (fun q => ⟨"failed to move {} file {} to temporary path {}", [kind, p.display, q.display]⟩)
      p := rfl

theorem removeDirectory_eq (st : Storage) (p : PathBuf) (kind : Bytes) :
    st.removeDirectory env p kind = moveAndDrop st
      (fun q => withContext ⟨"failed to clear temporary {} directory {}", [kind, q.display]⟩
        (removeDirAllWritable env q))
      (fun q => withContext ⟨"failed to remove temporary {} directory {}", [kind, q.display]⟩
        (removeDirAllWritable env q))
      (fun q => ⟨"failed to move {} directory {} to temporary path {}",
        [kind, p.display, q.display]⟩)
      p := rfl

/-- An error is `Early`, and nothing has changed off `temporary`, or it is `Late`, and the
    entry is gone. -/
theorem ends_moveAndDrop {w : World} {p : PathBuf} {clear drop : PathBuf → M Unit}
    {moved : PathBuf → Msg} {Early Late : Err → Prop}
    (hS : PlainPlace S) (hp : ProperPath p) (hT : w.root.DirAt (temporaryPlace S))
    (hbail : ∀ m, Early (.text m)) (hmoved : ∀ q e, Early (.context (moved q) e))
    (hclear : ∀ n, Plain n → Drops env S n Early (clear (pathOf (temporaryPlace S ++ [n]))))
    (hdrop : ∀ n, Plain n → Drops env S n Late (drop (pathOf (temporaryPlace S ++ [n]))))
    (hI : ∀ w', Within (temporaryPlace S) w w' → w'.root.DirAt (temporaryPlace S) → I w')
    (hI' : ∀ w', Removed S p w w' → I w') :
    Ends (machine env) I
      (fun _ w' => Removed S p w w' ∧ (Cleared S w → Cleared S w'))
      (fun e w' => (Early e ∧ Within (temporaryPlace S) w w' ∧
        w'.root.DirAt (temporaryPlace S)) ∨ (Late e ∧ Removed S p w w'))
      (moveAndDrop (storeAt S) clear drop moved p) w := by
  have h₀ := hI w (.refl _ w) hT
  rw [moveAndDrop]
  refine ends_bind (P := fun q w' => w' = w ∧ ∃ n, Plain n ∧ q = pathOf (temporaryPlace S ++ [n]))
    ?_ ?_
  · rw [Storage.temporaryPathFor]
    split
    · rename_i n hn
      have hpl := plain_of_fileName hp hn
      refine ends_ok h₀ ⟨rfl, n, hpl, ?_⟩
      rw [temporaryPath_storeAt]
      exact join_plain hpl _
    · exact ends_error h₀ (.inl ⟨hbail _, .refl _ w, hT⟩)
  rintro q w' - ⟨rfl, n, hn, rfl⟩
  have inside := List.prefix_append (temporaryPlace S) [n]
  refine ends_bind (P := fun b w₁ => w₁ = w' ∧
      (b = true → existsPath w'.root (pathOf (temporaryPlace S ++ [n])) = true))
    (ends_of_noError (noError_pathExists _)
      (ensures_pathExists h₀ ⟨rfl, id⟩ fun _ => ⟨rfl, by simp⟩)) ?_
  rintro b w₁ - ⟨rfl, hb⟩
  -- the rename and the removal, after something was cleared or not
  have rest {w₂ : World} (h₂ : I w₂) (hw₂ : Within (temporaryPlace S ++ [n]) w₁ w₂)
      (hcl₂ : Cleared S w₁ → w₂ = w₁) : Ends (machine env) I
      (fun _ w' => Removed S p w₁ w' ∧ (Cleared S w₁ → Cleared S w'))
      (fun e w' => (Early e ∧ Within (temporaryPlace S) w₁ w' ∧
        w'.root.DirAt (temporaryPlace S)) ∨ (Late e ∧ Removed S p w₁ w'))
      (do
        orContext (moved (pathOf (temporaryPlace S ++ [n])))
          (← Fs.rename p (pathOf (temporaryPlace S ++ [n])))
        drop (pathOf (temporaryPlace S ++ [n]))) w₂ := by
    have hT₂ := hw₂.temporary hT
    refine ends_bind (ends_call (ensures_rename (P := fun r w₃ => (∃ e, r = .error e ∧ w₃ = w₂) ∨
        (r = .ok () ∧ Removed S p w₁ w₃ ∧
          ∀ a, a ≠ n → Cleared S w₁ → w₃.root.get (temporaryPlace S ++ [a]) = none))
      h₂ (fun y hy => ?_) fun e _ => .inl ⟨e, rfl, rfl⟩)) ?_
    · obtain ⟨d, m, s, hl, hs, ha, hd, hoff, hrest⟩ := placed_of_rename_in hS hn hT₂ hy
      have hrem : Removed S p w₁ (w₂.withRoot y) :=
        ⟨w₂, d, m, s, hw₂.mono inside, hT₂, hcl₂, hl, hs, hoff, ha, hd, rfl⟩
      exact ⟨hI' _ hrem, .inr ⟨rfl, hrem, fun a ha hcl => hrest a ha (hcl₂ hcl ▸ hcl a)⟩⟩
    rintro r w₃ h₃ (⟨e, rfl, rfl⟩ | ⟨rfl, hrem, hcl₃⟩)
    · exact ends_error h₃ (.inl ⟨hmoved _ _, hw₂.mono inside, hT₂⟩)
    have hT₃ := hrem.temporary
    have drops {w' : World} (h : Within (temporaryPlace S ++ [n]) w₃ w') : Removed S p w₁ w' :=
      hrem.within (h.mono inside) (h.temporary hT₃)
    refine ends_mono (hdrop n hn (fun w' => I w' ∧ Removed S p w₁ w') w₃ hT₃ fun w' h =>
      ⟨hI' w' (drops h.within), drops h.within⟩) (fun _ h => h.1) ?_
      fun e w' h he => .inr ⟨he, h.2⟩
    rintro - w₄ - ⟨hw₄, hg₄⟩
    refine ⟨drops hw₄, fun hcl a => ?_⟩
    by_cases ha : a = n
    · rw [ha]
      exact hg₄
    · rw [(hw₄.agree _ (snoc_off_snoc fun h => ha h.symm)).2 (snoc_off_snoc ha)]
      exact hcl₃ a ha hcl
  dsimp only
  split
  · rename_i hbt
    refine ends_bind (ends_mono (hclear n hn (fun w' => I w' ∧
      Within (temporaryPlace S) w₁ w' ∧ w'.root.DirAt (temporaryPlace S)) w₁ hT fun w' h =>
        ⟨hI w' h.inside (h.within.temporary hT), h.inside, h.within.temporary hT⟩) (fun _ h => h.1)
        (fun _ _ _ h => h) fun e w' h he => .inl ⟨he, h.2⟩)
      fun _ w₂ h₂ h => rest h₂ h.1 fun hcl => ?_
    have hfree : existsPath w₁.root (pathOf (temporaryPlace S ++ [n])) = false :=
      isOk_stat_child hT (plain_temporaryPlace hS) hn (find_eq_none_iff.mpr (hcl n))
    rw [hb hbt] at hfree
    cases hfree
  · exact rest h₀ (.refl _ _) fun _ => rfl

theorem ensures_moveAndDrop {w : World} {p : PathBuf} {clear drop : PathBuf → M Unit}
    {moved : PathBuf → Msg} (hS : PlainPlace S) (hp : ProperPath p)
    (hT : w.root.DirAt (temporaryPlace S))
    (hclear : ∀ n, Plain n →
      Drops env S n (fun _ => True) (clear (pathOf (temporaryPlace S ++ [n]))))
    (hdrop : ∀ n, Plain n →
      Drops env S n (fun _ => True) (drop (pathOf (temporaryPlace S ++ [n]))))
    (hI : ∀ w', Within (temporaryPlace S) w w' → w'.root.DirAt (temporaryPlace S) → I w')
    (hI' : ∀ w', Removed S p w w' → I w') :
    Ensures (machine env) I
      (fun _ w' => Removed S p w w' ∧ (Cleared S w → Cleared S w'))
      (moveAndDrop (storeAt S) clear drop moved p) w :=
  ensures_of_ends (ends_moveAndDrop hS hp hT (fun _ => trivial) (fun _ _ => trivial) hclear hdrop
    hI hI')

/-! ## What a change of one place means for the store -/

theorem Placed.view_eq {c : Place} {o : Option Node} {w w' : World} (h : Placed S c o w w') :
    view S w'.root = view S (w.root.put c o) :=
  view_of_agreeOff h.agree (fun k n => temporary_off_table k [n]) entry_off_temporary

theorem Placed.layout {c : Place} {o : Option Node} {w w' : World} (h : Placed S c o w w')
    (hl : Layout S (w.root.put c o)) : Layout S w'.root := hl.of_agreeOff h.agree (.inr h.temporary)

/-- One entry has been set or removed. -/
theorem Placed.becomes {k : Kind} {n : Bytes} {o : Option Node} {w w' : World}
    (h : Placed S (entryPlace S k n) o w w') (hl : Layout S w.root)
    (ho : ∀ t, o ≠ some (.leaf (.symlink t)))
    (hd : o = none ∨ w.root.DirAt (tablePlace S k) ∧ Plain n) :
    Becomes S ((view S w.root).set k n o) w w' := by
  refine ⟨h.layout (layout_put_entry hl ho (hd.imp_right And.right)), ?_, h.aside⟩
  rw [h.view_eq, view_put_entry (hd.imp_right And.left)]

end Pakstak
