/-
  The arguments that `run` hands to bwrap.

  `BwrapOption` is an option of bwrap with its values. The command that is built is a list of
  options, and after them the command of the user.

  Proved:
  * `firstOccurrences_dedup`: removing the repetitions from the right keeps the first occurrences.
  * `ensures_buildBwrapCommand`: what the options are.
  * `buildBwrapCommand_mounts`: the layers of the containers are mounted in order, each once, and
    for each of them one lock file, which bwrap locks.
-/
import Pakstak.Offline
import Pakstak.Stacking

namespace Pakstak

open Posix Prog Text

/-! ## First occurrences -/

/-- `kept` has the entries of `l`, each at the place of its first occurrence. -/
structure FirstOccurrences {α : Type} [DecidableEq α] (l kept : List α) : Prop where
  mem : ∀ a, a ∈ kept ↔ a ∈ l
  order : kept.Pairwise fun a b => l.idxOf a < l.idxOf b

theorem FirstOccurrences.nodup {α : Type} [DecidableEq α] {l kept : List α}
    (h : FirstOccurrences l kept) : kept.Nodup :=
  h.order.imp fun hlt heq => by rw [heq] at hlt; exact Nat.lt_irrefl _ hlt

theorem firstOccurrences_dedup {α : Type} [DecidableEq α] (l : List α) :
    FirstOccurrences l l.reverse.dedup.reverse := by
  refine ⟨fun a => by simp, ?_⟩
  induction l using List.reverseRecOn with
  | nil => simp
  | append_singleton l a ih =>
    have idx {b : α} (hb : b ∈ l) : (l ++ [a]).idxOf b = l.idxOf b := List.idxOf_append_of_mem hb
    have old : l.reverse.dedup.reverse.Pairwise fun b c =>
        (l ++ [a]).idxOf b < (l ++ [a]).idxOf c := by
      refine ih.imp_of_mem fun {b c} hb hc hlt => ?_
      rwa [idx (by simpa using hb), idx (by simpa using hc)]
    rw [List.reverse_append, List.reverse_singleton, List.singleton_append]
    by_cases ha : a ∈ l
    · rwa [List.dedup_cons_of_mem (by simpa using ha)]
    · rw [List.dedup_cons_of_notMem (by simpa using ha), List.reverse_cons, List.pairwise_append]
      refine ⟨old, List.pairwise_singleton _ _, fun b hb c hc => ?_⟩
      obtain rfl := List.mem_singleton.mp hc
      have hb : b ∈ l := by simpa using hb
      rw [idx hb, List.idxOf_append_of_notMem ha]
      exact Nat.lt_of_lt_of_le (List.idxOf_lt_length_of_mem hb) (Nat.le_add_right _ _)

/-! ## Options -/

inductive BwrapOption where
  | clearenv
  | unshareAll
  | roBind (source : PathBuf) (dest : Bytes)
  | overlaySrc (source : PathBuf)
  | roOverlay (dest : Bytes)
  | proc (dest : Bytes)
  | dev (dest : Bytes)
  | tmpfs (dest : Bytes)
  | dir (dest : Bytes)
  | lockFile (file : Bytes)
  deriving DecidableEq

namespace BwrapOption

def args : BwrapOption → List Arg
  | clearenv => [.text (utf8 "--clearenv")]
  | unshareAll => [.text (utf8 "--unshare-all")]
  | roBind source dest => [.text (utf8 "--ro-bind"), .path source, .text dest]
  | overlaySrc source => [.text (utf8 "--overlay-src"), .path source]
  | roOverlay dest => [.text (utf8 "--ro-overlay"), .text dest]
  | proc dest => [.text (utf8 "--proc"), .text dest]
  | dev dest => [.text (utf8 "--dev"), .text dest]
  | tmpfs dest => [.text (utf8 "--tmpfs"), .text dest]
  | dir dest => [.text (utf8 "--dir"), .text dest]
  | lockFile file => [.text (utf8 "--lock-file"), .text file]

/-- What the option mounts as the root, or as a part of it. -/
def rootSource : BwrapOption → Option PathBuf
  | overlaySrc source => some source
  | roBind source dest => if dest = utf8 "/" then some source else none
  | _ => none

/-- A mount below the root. -/
def fileMount : BwrapOption → Option (PathBuf × Bytes)
  | roBind source dest => if dest = utf8 "/" then none else some (source, dest)
  | _ => none

end BwrapOption

def sandboxPath (i : Nat) : Bytes := layerLocksDir ++ [slashByte] ++ utf8 (toString i)

theorem sandboxPath_injective : Function.Injective sandboxPath := by
  intro i j h
  have hutf : utf8 (toString i) = utf8 (toString j) := List.append_cancel_left h
  have hstr : toString i = toString j := by
    rw [← String.toByteArray_inj]
    simpa [utf8, ByteArray.ext_iff, Array.ext_iff] using hutf
  have hdigits : Nat.toDigits 10 i = Nat.toDigits 10 j := by
    rw [← Nat.toList_repr, ← Nat.toList_repr]
    exact congrArg String.toList hstr
  rw [← Nat.ofDigitChars_ten_toDigits (n := i), hdigits, Nat.ofDigitChars_ten_toDigits]

theorem sandboxPath_ne_root (i : Nat) : sandboxPath i ≠ utf8 "/" := by
  intro h
  have hlen := congrArg List.length h
  have hdir : layerLocksDir.length = 17 := by decide +kernel
  have hroot : (utf8 "/").length = 1 := by decide +kernel
  rw [sandboxPath, List.append_assoc, List.length_append, hdir, hroot] at hlen
  omega

/-! ## The command that is built -/

variable (S : Place)

/-- The options that mount the root. -/
def rootOptions : List Bytes → List BwrapOption
  | [digest] => [.roBind ((storeAt S).layerPath digest) (utf8 "/")]
  | digests => digests.map (fun digest => .overlaySrc ((storeAt S).layerPath digest)) ++
    [.roOverlay (utf8 "/")]

/-- The options for one lock file. -/
def lockOptions (lock : Bytes × Nat) : List BwrapOption :=
  [.roBind ((storeAt S).layerLockPath lock.1) (sandboxPath lock.2), .lockFile (sandboxPath lock.2)]

def bwrapOptions (digests : List Bytes) : List BwrapOption :=
  [.clearenv, .unshareAll] ++ rootOptions S digests ++
    [.proc (utf8 "/proc"), .dev (utf8 "/dev"), .tmpfs (utf8 "/tmp"), .dir layerLocksDir] ++
    digests.zipIdx.flatMap (lockOptions S)

variable {S} {env : Env} {w w' : World}

theorem ensures_layerArgs (layers : List Descriptor) :
    Ensures (machine env) (fun _ => True)
      (fun args _ => args = (rootOptions S (layers.map Descriptor.digest)).flatMap BwrapOption.args)
      (layerArgs (storeAt S) layers) w := by
  match layers with
  | [] => exact ensures_bail trivial
  | [layer] =>
    refine ensures_bind (ensures_layerPathOrMissing trivial) ?_
    rintro path w' - ⟨-, rfl⟩
    exact ensures_ok trivial rfl
  | first :: second :: rest =>
    let K : List Arg → List Descriptor → World → Prop := fun args todo _ =>
      ∃ done, first :: second :: rest = done ++ todo ∧ args = done.flatMap fun layer =>
        [Arg.text (utf8 "--overlay-src"), .path ((storeAt S).layerPath layer.digest)]
    refine ensures_bind (P := fun args w' => K args [] w') ?_ ?_
    · refine ensures_fold (K := K) (fun _ _ _ _ => trivial) ?_ _ _ _ ⟨[], rfl, rfl⟩
      rintro args layer todo w' ⟨done, hdone, rfl⟩
      refine ensures_bind (ensures_layerPathOrMissing trivial) ?_
      rintro path w' - ⟨-, rfl⟩
      exact ensures_ok trivial ⟨done ++ [layer], by simp [hdone], by simp⟩
    · rintro args w' - ⟨done, hdone, rfl⟩
      obtain rfl : first :: second :: rest = done := by simpa using hdone
      refine ensures_ok trivial ?_
      simp [rootOptions, BwrapOption.args, List.flatMap_map]

/-- The calls that look, and those that make what is missing. -/
def Makes : Op → Prop
  | .stat _ => True
  | .mkdir _ => True
  | .openCreate _ => True
  | _ => False

theorem Writes.extends {a : Except Errno Node} {r : Except Errno Unit} (h : Writes a w r w')
    (hx : ∀ x, a = .ok x → Extends w.root x) : Extends w.root w'.root := by
  rcases h with ⟨x, ha, -, rfl⟩ | ⟨e, -, -, rfl⟩ | ⟨-, rfl⟩
  · exact hx x ha
  · exact .refl _
  · exact .refl _

theorem extends_of_makes {o : Op} {r : Reply o} (ho : Makes o) (h : Step env o w r w') :
    Extends w.root w'.root := by
  cases o with
  | stat p => rw [h.2]; exact .refl _
  | mkdir p => exact Writes.extends h fun _ => extends_mkdir
  | openCreate p => exact Writes.extends h fun _ hx => (extends_openCreate hx).1
  | _ => exact ho.elim

theorem ensures_makes {α : Type} {p : M α} {P : α → Prop} (h : p.AsksOnly Makes P) :
    Ensures (machine env) (fun w' => Extends w.root w'.root) (fun a _ => P a) p w := by
  refine ensures_asksOnly (fun o _ r _ ho hs hw => hw.trans (extends_of_makes ho hs))
    (fun o _ _ ho hm _ => ?_) h (.refl _)
  cases o with
  | stat p => exact hm.elim
  | mkdir p => exact hm.elim
  | openCreate p => exact hm.elim
  | _ => exact ho.elim

/-- A lock file that has been opened is there. -/
theorem ensures_openLockFile {path : PathBuf} :
    Ensures (machine env) (fun w' => Extends w.root w'.root)
      (fun _ w' => w.root.DirAt [] → Present w'.root path) (openLockFile path) w := by
  rw [openLockFile]
  refine ensures_bind (ensures_makes (asksOnly_ensureParentDir (fun _ => trivial)
    (fun _ => trivial) path)) ?_
  rintro - w₁ hext -
  refine ensures_last (ensures_openCreate hext (fun x hx => ?_) fun e a ha => by cases ha)
  obtain ⟨hx, hpresent⟩ := extends_openCreate hx
  exact ⟨hext.trans hx, fun _ _ hr => hpresent (hext.dirAt hr)⟩

/-- Where the root is a directory, the lock files are there. -/
def LocksPresent (S : Place) (digests : List Bytes) (w w' : World) : Prop :=
  w.root.DirAt [] → ∀ digest ∈ digests, Present w'.root ((storeAt S).layerLockPath digest)

theorem LocksPresent.extends {digests : List Bytes} {w'' : World}
    (h : LocksPresent S digests w w') (h' : Extends w'.root w''.root) :
    LocksPresent S digests w w'' := fun hr digest hd => (h hr digest hd).extends h'

theorem ensures_createLayerLockFiles (layers : List Descriptor) :
    Ensures (machine env) (fun w' => Extends w.root w'.root)
      (fun paths w' => (paths = (layers.map Descriptor.digest).zipIdx.map fun lock =>
        ((storeAt S).layerLockPath lock.1, sandboxPath lock.2)) ∧
        LocksPresent S (layers.map Descriptor.digest) w w')
      (createLayerLockFiles (storeAt S) layers) w := by
  let K : List (PathBuf × Bytes) → List Descriptor → World → Prop := fun paths todo w' =>
    Extends w.root w'.root ∧ ∃ done, layers = done ++ todo ∧
      (paths = (done.map Descriptor.digest).zipIdx.map fun lock =>
        ((storeAt S).layerLockPath lock.1, sandboxPath lock.2)) ∧
      LocksPresent S (done.map Descriptor.digest) w w'
  refine ensures_mono (ensures_fold (K := K) (fun _ _ _ h => h.1) ?_ layers [] w
    ⟨.refl _, [], rfl, rfl, fun _ _ h => by cases h⟩) (fun _ h => h) ?_
  · rintro paths layer todo w₁ ⟨hext, done, rfl, rfl, hthere⟩
    refine ensures_bind (P := fun path w₂ => Extends w₁.root w₂.root ∧
      path = (storeAt S).layerLockPath layer.digest ∧
        (w.root.DirAt [] → Present w₂.root path)) ?_ ?_
    · refine ensures_mono (ensures_bind ensures_openLockFile ?_) (fun _ h => hext.trans h)
        fun _ _ _ h => h
      rintro - w₂ h₂ hpresent
      exact ensures_ok h₂ ⟨h₂, rfl, fun hr => hpresent (hext.dirAt hr)⟩
    · rintro path w₂ h₂ ⟨h₁₂, rfl, hpresent⟩
      refine ensures_ok h₂ ⟨h₂, done ++ [layer], by simp, ?_, fun hr digest hd => ?_⟩
      · simp [List.zipIdx_append, sandboxPath]
      · rw [List.map_append, List.mem_append] at hd
        rcases hd with hd | hd
        · exact (hthere.extends h₁₂) hr digest hd
        · rw [List.mem_singleton.mp hd]
          exact hpresent hr
  · rintro paths w' - ⟨-, done, hdone, rfl, hthere⟩
    obtain rfl : layers = done := by simpa using hdone
    exact ⟨rfl, hthere⟩

theorem makes_layerArgs (layers : List Descriptor) :
    (layerArgs (storeAt S) layers).AsksOnly Makes fun _ => True := by
  have found (layer : Descriptor) :
      (layerPathOrMissing (storeAt S) layer).AsksOnly Makes fun _ => True := by
    refine asksOnly_bind (P := fun _ => True) (asksOnly_bind (P := fun _ => True)
      (asksOnly_bind (P := fun _ => True) (asksOnly_call trivial fun _ => trivial)
        fun r _ => by cases r <;> trivial) fun b _ => by cases b <;> trivial)
      fun o _ => by cases o <;> trivial
  match layers with
  | [] => trivial
  | [layer] => exact asksOnly_bind (found layer) fun _ _ => trivial
  | first :: second :: rest =>
    refine asksOnly_bind (asksOnly_fold (Q := fun _ => True) (fun args layer _ => ?_) _ _ trivial)
      fun _ _ => trivial
    exact asksOnly_bind (found layer) fun _ _ => trivial

/-- The manifests read, in the order of the containers, and their layers stacked. -/
theorem ensures_stackedLayers (containers : List Bytes) :
    Ensures (machine env) (fun _ => True)
      (fun layers w' => w' = w ∧ ∃ manifests,
        List.Forall₂ (ManifestOf env S w.root) containers manifests ∧
        layers = stackLayers [] (manifests.flatMap ImageManifest.layers))
      (readStackedLayers env (storeAt S) containers) w := by
  let K : List Descriptor → List Bytes → World → Prop := fun layers todo w' =>
    w' = w ∧ ∃ done manifests, containers = done ++ todo ∧
      List.Forall₂ (ManifestOf env S w.root) done manifests ∧
        layers = stackLayers [] (manifests.flatMap ImageManifest.layers)
  refine ensures_mono (ensures_fold (K := K) (fun _ _ _ _ => trivial) ?_ containers [] w
    ⟨rfl, [], [], rfl, .nil, rfl⟩) (fun _ _ => trivial) ?_
  · rintro layers container todo w' ⟨rfl, done, manifests, hdone, hall, rfl⟩
    refine ensures_bind (ensures_ensureContainerInstalled trivial) ?_
    rintro - w' - ⟨rfl, -⟩
    refine ensures_bind (ensures_readContainerManifestDigest trivial) ?_
    rintro digest w' - ⟨rfl, hd⟩
    refine ensures_bind (ensures_readManifest trivial) ?_
    rintro manifest w' - ⟨rfl, bytes, hb, hm⟩
    refine ensures_ok trivial ⟨rfl, done ++ [container], manifests ++ [manifest],
      by simp [hdone], List.rel_append hall (.cons ⟨digest, bytes, hd, hb, hm⟩ .nil), ?_⟩
    simp [stackLayers, List.foldl_append]
  · rintro layers w' - ⟨rfl, done, manifests, hdone, hall, rfl⟩
    obtain rfl : containers = done := by simpa using hdone
    exact ⟨rfl, manifests, hall, rfl⟩

theorem ensures_buildBwrapCommand (containers command : List Bytes) :
    Ensures (machine env) (fun _ => True)
      (fun args w' => ∃ manifests digests,
        List.Forall₂ (ManifestOf env S w.root) containers manifests ∧
        digests = (stackLayers [] (manifests.flatMap ImageManifest.layers)).map
          Descriptor.digest ∧ LocksPresent S digests w w' ∧
        args = (bwrapOptions S digests).flatMap BwrapOption.args ++ command.map .text)
      (buildBwrapCommand env (storeAt S) containers command) w := by
  rw [buildBwrapCommand]
  split
  · exact ensures_bail trivial
  · split
    · exact ensures_bail trivial
    · refine ensures_bind (ensures_stackedLayers containers) ?_
      rintro layers w₁ - ⟨rfl, manifests, hall, rfl⟩
      refine ensures_bind (ensures_mono (ensures_createLayerLockFiles _) (fun _ _ => trivial)
        fun _ _ _ h => h) ?_
      rintro paths w₂ - ⟨rfl, hlocks⟩
      refine ensures_bind (P := fun args w₃ => Extends w₂.root w₃.root ∧ args = _)
        (ensures_mono (ensures_and (ensures_makes (makes_layerArgs _)) (ensures_layerArgs _))
          (fun _ _ => trivial) fun _ _ h₃ h => ⟨h₃, h.2⟩) ?_
      rintro args w₃ - ⟨hext, rfl⟩
      refine ensures_ok trivial ⟨manifests, _, hall, rfl, hlocks.extends hext, ?_⟩
      simp [bwrapOptions, lockOptions, BwrapOption.args, List.flatMap_map, List.flatMap_assoc]

/-! ## What is mounted -/

/-- The root is made of the layers in order, and each layer has a lock file of its own, mounted
    after `/tmp` and locked. -/
structure Mounts (S : Place) (digests : List Bytes) (options : List BwrapOption) : Prop where
  root : options.filterMap BwrapOption.rootSource = digests.map (storeAt S).layerPath
  locks : (options.filterMap BwrapOption.fileMount).map Prod.fst =
    digests.map (storeAt S).layerLockPath
  distinct : ((options.filterMap BwrapOption.fileMount).map Prod.snd).Nodup
  locked : ∀ before mount after, options = before ++ mount :: after →
    ∀ file dest, mount.fileMount = some (file, dest) →
      .tmpfs (utf8 "/tmp") ∈ before ∧ ∃ rest, after = .lockFile dest :: rest

theorem rootSource_rootOptions (digests : List Bytes) :
    (rootOptions S digests).filterMap BwrapOption.rootSource =
      digests.map (storeAt S).layerPath := by
  match digests with
  | [] => rfl
  | [digest] => simp [rootOptions, BwrapOption.rootSource]
  | a :: b :: rest =>
    simp [rootOptions, BwrapOption.rootSource, List.filterMap_map, Function.comp_def]

theorem fileMount_rootOptions (digests : List Bytes) :
    ∀ o ∈ rootOptions S digests, o.fileMount = none := by
  match digests with
  | [] => simp [rootOptions, BwrapOption.fileMount]
  | [digest] => simp [rootOptions, BwrapOption.fileMount]
  | a :: b :: rest =>
    intro o ho
    rw [rootOptions, List.mem_append, List.mem_map, List.mem_singleton] at ho
    · rcases ho with ⟨d, -, rfl⟩ | rfl <;> rfl
    · simp

theorem fileMount_lockOptions (locks : List (Bytes × Nat)) :
    (locks.flatMap (lockOptions S)).filterMap BwrapOption.fileMount =
      locks.map fun lock => ((storeAt S).layerLockPath lock.1, sandboxPath lock.2) := by
  induction locks with
  | nil => rfl
  | cons lock locks ih =>
    rw [List.flatMap_cons, List.filterMap_append, ih]
    simp [lockOptions, BwrapOption.fileMount, sandboxPath_ne_root]

theorem rootSource_lockOptions (locks : List (Bytes × Nat)) :
    (locks.flatMap (lockOptions S)).filterMap BwrapOption.rootSource = [] := by
  induction locks with
  | nil => rfl
  | cons lock locks ih =>
    rw [List.flatMap_cons, List.filterMap_append, ih]
    simp [lockOptions, BwrapOption.rootSource, sandboxPath_ne_root]

/-- A mount among the lock options is followed by the lock on it. -/
theorem locked_lockOptions (locks : List (Bytes × Nat)) {before after : List BwrapOption}
    {mount : BwrapOption} {file : PathBuf} {dest : Bytes}
    (h : locks.flatMap (lockOptions S) = before ++ mount :: after)
    (hm : mount.fileMount = some (file, dest)) : ∃ rest, after = .lockFile dest :: rest := by
  induction locks generalizing before with
  | nil => simp at h
  | cons lock locks ih =>
    rw [List.flatMap_cons, lockOptions] at h
    match before with
    | [] =>
      obtain ⟨rfl, rfl⟩ := List.cons.inj h
      rw [BwrapOption.fileMount, if_neg (sandboxPath_ne_root lock.2)] at hm
      obtain ⟨-, rfl⟩ := Prod.mk.inj (Option.some.inj hm)
      exact ⟨_, rfl⟩
    | [o] =>
      obtain ⟨-, h⟩ := List.cons.inj h
      obtain ⟨rfl, -⟩ := List.cons.inj h
      cases hm
    | o :: o' :: before =>
      obtain ⟨-, h⟩ := List.cons.inj h
      obtain ⟨-, h⟩ := List.cons.inj h
      exact ih h

theorem mounts_bwrapOptions (digests : List Bytes) : Mounts S digests (bwrapOptions S digests) := by
  obtain ⟨base, hbase⟩ : ∃ base, base = [.clearenv, .unshareAll] ++ rootOptions S digests ++
    [.proc (utf8 "/proc"), .dev (utf8 "/dev"), .tmpfs (utf8 "/tmp"), .dir layerLocksDir] :=
    ⟨_, rfl⟩
  have hoptions : bwrapOptions S digests = base ++ digests.zipIdx.flatMap (lockOptions S) := by
    rw [hbase]
    rfl
  have hnone : ∀ o ∈ base, o.fileMount = none := by
    intro o ho
    simp only [hbase, List.mem_append, List.mem_cons, List.not_mem_nil, or_false] at ho
    rcases ho with ((rfl | rfl) | ho) | rfl | rfl | rfl | rfl
    · rfl
    · rfl
    · exact fileMount_rootOptions digests o ho
    · rfl
    · rfl
    · rfl
    · rfl
  have hfiles : (bwrapOptions S digests).filterMap BwrapOption.fileMount =
      digests.zipIdx.map fun lock => ((storeAt S).layerLockPath lock.1, sandboxPath lock.2) := by
    rw [hoptions, List.filterMap_append, fileMount_lockOptions,
      List.filterMap_eq_nil_iff.mpr hnone, List.nil_append]
  refine ⟨?_, ?_, ?_, ?_⟩
  · rw [hoptions, List.filterMap_append, rootSource_lockOptions, hbase, List.filterMap_append,
      List.filterMap_append, rootSource_rootOptions]
    show ([] ++ digests.map (storeAt S).layerPath ++ []) ++ [] = _
    simp
  · rw [hfiles, List.map_map]
    show digests.zipIdx.map ((storeAt S).layerLockPath ∘ Prod.fst) = _
    rw [← List.map_map, List.zipIdx_map_fst]
  · rw [hfiles, List.map_map]
    show (digests.zipIdx.map (sandboxPath ∘ Prod.snd)).Nodup
    rw [← List.map_map, List.zipIdx_map_snd]
    exact List.Nodup.map sandboxPath_injective List.nodup_range'
  · intro before mount after h file dest hm
    rw [hoptions] at h
    rcases List.append_eq_append_iff.mp h with ⟨more, rfl, hlocks⟩ | ⟨more, hbefore, hlocks⟩
    · refine ⟨List.mem_append_left _ (by simp [hbase]), ?_⟩
      exact locked_lockOptions digests.zipIdx hlocks hm
    · cases more with
      | nil =>
        have hfirst : digests.zipIdx.flatMap (lockOptions S) = [] ++ mount :: after := hlocks.symm
        refine ⟨?_, locked_lockOptions digests.zipIdx hfirst hm⟩
        rw [List.append_nil] at hbefore
        simp [← hbefore, hbase]
      | cons o more =>
        obtain ⟨rfl, -⟩ := List.cons.inj hlocks
        rw [hnone mount (by simp [hbefore])] at hm
        cases hm

/-- What `run` mounts, for the manifests its containers have. -/
theorem buildBwrapCommand_mounts {containers command : List Bytes} {args : List Arg}
    (hx : Exec (machine env) (buildBwrapCommand env (storeAt S) containers command) w
      (some (.ok args)) w') :
    ∃ manifests digests options, List.Forall₂ (ManifestOf env S w.root) containers manifests ∧
      FirstOccurrences (manifests.flatMap fun manifest => manifest.layers.map Descriptor.digest)
        digests ∧
      Mounts S digests options ∧ LocksPresent S digests w w' ∧
      args = options.flatMap BwrapOption.args ++ command.map .text := by
  obtain ⟨manifests, digests, hall, rfl, hlocks, rfl⟩ :=
    (ensures_exec (ensures_buildBwrapCommand containers command) hx).2 args rfl
  refine ⟨manifests, _, _, hall, ?_, mounts_bwrapOptions _, hlocks, rfl⟩
  rw [digests_stackLayers, List.map_flatMap]
  exact firstOccurrences_dedup _

namespace Restored

def bwrapArgs : List Arg :=
  (bwrapOptions place [fileDigest, removalDigest]).flatMap BwrapOption.args ++ [.text (utf8 "sh")]

def bwrapRun : Option (Except Err (List Arg)) × World :=
  calm.replay host (buildBwrapCommand host (storeAt place) [utf8 "c"] [utf8 "sh"]) world

theorem exec_bwrap : Exec (machine host)
    (buildBwrapCommand host (storeAt place) [utf8 "c"] [utf8 "sh"]) world (some (.ok bwrapArgs))
    bwrapRun.2 :=
  exec_of_fst_eq (calm.exec_replay _ _ _) (by decide +kernel)

end Restored

/-- A manifest that lists its first layer twice. -/
theorem buildBwrapCommand_mounts_restored : ∃ manifests digests options,
    List.Forall₂ (ManifestOf Restored.host Restored.place Restored.world.root) [utf8 "c"]
      manifests ∧
      FirstOccurrences (manifests.flatMap fun manifest => manifest.layers.map Descriptor.digest)
        digests ∧
      Mounts Restored.place digests options ∧
      LocksPresent Restored.place digests Restored.world Restored.bwrapRun.2 ∧
      Restored.bwrapArgs = options.flatMap BwrapOption.args ++ [utf8 "sh"].map .text :=
  buildBwrapCommand_mounts Restored.exec_bwrap

end Pakstak
