/-
  What the readers of the store answer, in terms of its contents.

  Proved, where the layout stands:
  * `isDirPath_entry`, `isFilePath_entry`, `read_entry`: the answers at an entry.
  * `ensures_readDirEntries`: a listing that does not break off has every entry.
  * `ensures_tryFold`: a fold over an iterator goes through all the names listed, and ends
    well only if the listing did not break off.
-/
import Pakstak.Contents
import Pakstak.Opened

namespace Pakstak

open Posix Prog FileTree

variable {env : Env} {I : World → Prop} {S : Place}

/-! ## Entries -/

theorem stat_entry {x : Node} {k : Kind} {n : Bytes} (hS : PlainPlace S) (hl : Layout S x)
    (hn : Plain n) : stat x (pathOf (entryPlace S k n)) =
      match x.find (entryPlace S k n) with
      | none => .error .noent
      | some i => .ok i :=
  stat_child (hl.table k) (plain_tablePlace hS k) hn (hl.entry k n)

theorem isDirPath_entry {x : Node} {k : Kind} {n : Bytes} (hS : PlainPlace S) (hl : Layout S x)
    (hn : Plain n) : isDirPath x (pathOf (entryPlace S k n)) = true ↔
      ∃ m kids, view S x k n = some (.dir m kids) := by
  rw [isDirPath, stat_entry hS hl hn, view]
  cases hg : x.get (entryPlace S k n) with
  | none => simp [find, hg]
  | some t => cases t <;> simp [find, hg, label, Posix.isDir]

theorem isFilePath_entry {x : Node} {k : Kind} {n : Bytes} (hS : PlainPlace S) (hl : Layout S x)
    (hn : Plain n) : isFilePath x (pathOf (entryPlace S k n)) = true ↔
      ∃ m data, view S x k n = some (.leaf (.file m data)) := by
  rw [isFilePath, stat_entry hS hl hn, view]
  cases hg : x.get (entryPlace S k n) with
  | none => simp [find, hg]
  | some t =>
    cases t with
    | leaf f => cases f <;> simp [find, hg, label, isFile]
    | dir m kids => simp [find, hg, label, isFile]

theorem read_entry {x : Node} {k : Kind} {n data : Bytes} (hS : PlainPlace S) (hl : Layout S x)
    (hn : Plain n) : Posix.read x (pathOf (entryPlace S k n)) = .ok data ↔
      (view S x k n).bind fileData = some data := by
  rw [show entryPlace S k n = tablePlace S k ++ [n] from rfl,
    read_child (hl.table k) (plain_tablePlace hS k) hn (hl.entry k n), view]
  cases hg : x.get (entryPlace S k n) with
  | none => simp [find, show x.get (tablePlace S k ++ [n]) = none from hg]
  | some t =>
    have hf : x.find (tablePlace S k ++ [n]) = some t.label := by
      rw [find, show x.get (tablePlace S k ++ [n]) = some t from hg]
      rfl
    rw [hf]
    cases t with
    | leaf f => cases f <;> simp [label, fileData]
    | dir m kids => simp [label, fileData]

theorem hasLayer_iff {x : Node} {n : Bytes} (hS : PlainPlace S) (hl : Layout S x) (hn : Plain n) :
    isDirPath x ((storeAt S).layerPath n) = true ↔ (view S x).HasLayer n := by
  rw [layerPath_storeAt hn]
  exact isDirPath_entry hS hl hn

/-! ## Listings -/

/-- The names listed are entries; all of them, if the listing does not break off. -/
structure Listed (S : Place) (k : Kind) (x : Node) (l : Listing) : Prop where
  nodup : l.names.Nodup
  sound : ∀ n ∈ l.names, (view S x k n).isSome ∧ Plain n
  whole : l.broken = none → ∀ n, (view S x k n).isSome → n ∈ l.names

theorem tablePlace_eq_snoc (S : Place) (k : Kind) : ∃ d n, tablePlace S k = d ++ [n] := by
  rcases List.eq_nil_or_concat (tablePlace S k) with h | ⟨d, n, h⟩
  · simp [tablePlace] at h
  · exact ⟨d, n, by rw [h, List.concat_eq_append]⟩

theorem listed_of_dir {x : Node} {k : Kind} {m : Meta} {kids : List (Bytes × Node)} {l : Listing}
    (hl : Layout S x) (hg : x.get (tablePlace S k) = some (.dir m kids))
    (h : Lists (entries (.dir m kids)) l) : Listed S k x l := by
  have hview (n : Bytes) : view S x k n = (FileTree.dir m kids).kid n := by
    rw [view, entryPlace, get_append_of_some hg, get_cons]
    cases (FileTree.dir m kids).kid n <;> simp
  have hnodup : (entries (.dir m kids)).Nodup := (names_nodup _).filter _
  refine ⟨?_, fun n hn => ?_, fun hb n hn => ?_⟩
  · rcases h with ⟨-, h⟩ | ⟨-, -, h, -⟩
    · exact h.nodup_iff.mpr hnodup
    · exact h
  · obtain ⟨hk, hp⟩ := mem_entries.mp (mem_names_of_lists h hn)
    exact ⟨by rw [hview]; exact hk, hp⟩
  · rcases h with ⟨-, h⟩ | ⟨code, h, -, -⟩
    · refine h.mem_iff.mpr (mem_entries.mpr ⟨by rw [← hview]; exact hn, hl.name k n ?_⟩)
      intro hf
      rw [view, find_eq_none_iff.mp hf] at hn
      cases hn
    · rw [hb] at h
      cases h

theorem listed_nil {x : Node} {k : Kind} (hg : x.get (tablePlace S k) = none) :
    Listed S k x ⟨[], none⟩ := by
  refine ⟨List.nodup_nil, by simp, fun _ n hn => ?_⟩
  rw [view, entryPlace, get_append_of_none hg] at hn
  cases hn

theorem ensures_readDirEntries {k : Kind} {kind : Bytes} {w : World} (hS : PlainPlace S)
    (hl : Layout S w.root) (hI : I w) :
    Ensures (machine env) I (fun l w' => w' = w ∧ Listed S k w.root l)
      (readDirEntries (pathOf (tablePlace S k)) kind) w := by
  obtain ⟨d, n, hdn⟩ := tablePlace_eq_snoc S k
  have hp := plain_tablePlace hS k
  rw [readDirEntries]
  refine ensures_bind (P := fun r w' => w' = w ∧ (∀ l, r = .ok l → Listed S k w.root l) ∧
      (r = .error .noent → w.root.get (tablePlace S k) = none))
    (ensures_readDir hI (fun names l hnames hlist => ⟨rfl, ?_, by simp⟩)
      (fun e he => ⟨rfl, by simp, fun h => ?_⟩) fun code => ⟨rfl, by simp, by simp⟩) ?_
  · rintro _ ⟨⟩
    rcases hl.table k _ List.prefix_rfl with hg | ⟨m, kids, hg⟩
    · have hmiss := listDir_missing (n := n) ((hl.table k).up (hdn ▸ List.prefix_append _ _))
        (hp.up (hdn ▸ List.prefix_append _ _)) (hp n (by simp [hdn])) (hdn ▸ hg)
      rw [hdn, hmiss] at hnames
      cases hnames
    · rw [listDir_dirAt hg rfl hp] at hnames
      cases hnames
      exact listed_of_dir hl hg hlist
  · cases h
    rcases hl.table k _ List.prefix_rfl with hg | ⟨m, kids, hg⟩
    · exact hg
    · rw [listDir_dirAt hg rfl hp] at he
      cases he
  rintro r w' hI' ⟨rfl, hok, hnoent⟩
  split
  · exact ensures_ok hI' ⟨rfl, hok _ rfl⟩
  · exact ensures_ok hI' ⟨rfl, listed_nil (hnoent rfl)⟩
  · exact ensures_fail hI'

theorem ensures_finish {α : Type} {mach : Machine Op Reply World} {it : Iter α} {m : Msg}
    {w : World} (hI : I w) : Ensures mach I (fun _ w' => w' = w ∧ it.listing.broken = none)
      (it.finish m) w := by
  rw [Iter.finish]
  split
  · rename_i h
    exact ensures_ok hI ⟨rfl, h⟩
  · exact ensures_error hI

/-- A fold over an iterator. `K acc rest` is what holds while the names `rest` are still to be
    done. -/
theorem ensures_tryFold {α β : Type} {mach : Machine Op Reply World} {it : Iter α} {m : Msg}
    {body : β → α → M β} {K : β → List Bytes → World → Prop} {init : β} {w : World}
    (hI : ∀ acc names w, K acc names w → I w)
    (hstep : ∀ acc name names w, K acc (name :: names) w → Ensures mach I
      (fun acc' => K acc' names) (do
        match ← withContext m (it.item name) with
        | none => return acc
        | some a => body acc a) w)
    (h : K init it.listing.names w) :
    Ensures mach I (fun acc w' => K acc [] w' ∧ it.listing.broken = none)
      (it.tryFold m init body) w := by
  refine ensures_bind (ensures_fold hI hstep it.listing.names init w h) ?_
  rintro acc w₁ h₁ hk₁
  refine ensures_bind (ensures_finish h₁) ?_
  rintro - w₂ h₂ ⟨rfl, hb⟩
  exact ensures_ok h₂ ⟨hk₁, hb⟩

/-- The same, with what holds after an error. -/
theorem ends_tryFold {α β : Type} {it : Iter α} {m : Msg} {body : β → α → M β}
    {K : β → List Bytes → World → Prop} {H : Err → World → Prop} {init : β} {w : World}
    (hI : ∀ acc names w, K acc names w → I w)
    (hstep : ∀ acc name names w, K acc (name :: names) w → Ends (machine env) I
      (fun acc' => K acc' names) H (do
        match ← withContext m (it.item name) with
        | none => return acc
        | some a => body acc a) w)
    (hH : ∀ acc e w, K acc [] w → H e w) (h : K init it.listing.names w) :
    Ends (machine env) I (fun acc w' => K acc [] w' ∧ it.listing.broken = none) H
      (it.tryFold m init body) w := by
  refine ends_bind (ends_fold hI hstep it.listing.names init w h) ?_
  rintro acc w₁ h₁ hk₁
  refine ends_bind (ends_mono (ends_of_ensures (H := H)
    (ensures_finish (I := fun w' => I w' ∧ w' = w₁) ⟨h₁, rfl⟩)
    fun e w₂ h => h.2 ▸ hH acc e w₁ hk₁) (fun _ h => h.1) (fun _ _ _ h => h) fun _ _ _ h => h) ?_
  rintro - w₂ h₂ ⟨rfl, hb⟩
  exact ends_ok h₂ ⟨hk₁, hb⟩

/-- `f` on every item of an iterator. -/
theorem ensures_iterEach {α : Type} {it : Iter α} {m : Msg} {body : α → M Unit}
    {K : List Bytes → World → Prop} {w : World} (hI : ∀ names w, K names w → I w)
    (hstep : ∀ name names w, K (name :: names) w → Ensures (machine env) I
      (fun _ => K names) (do
        match ← withContext m (it.item name) with
        | none => return
        | some a => body a) w)
    (h : K it.listing.names w) :
    Ensures (machine env) I (fun _ w' => K [] w' ∧ it.listing.broken = none)
      (it.each m body) w := by
  refine ensures_bind (ensures_each hI hstep it.listing.names w h) ?_
  rintro - w₁ h₁ hk₁
  exact ensures_mono (ensures_finish h₁) (fun _ h => h) fun _ w₂ _ h => ⟨h.1 ▸ hk₁, h.2⟩

/-! ## Items -/

/-- The item of an iterator over directories. -/
def dirItem (S : Place) (k : Kind) (what : String) (name : Bytes) : M (Option Bytes) := do
  if ← pathIsDir (entryPath (pathOf (tablePlace S k)) name) then
    return some (← intoString what name)
  else return none

/-- The item of an iterator over files. -/
def fileItem (S : Place) (k : Kind) (read : Bytes → M (Option Bytes)) (name : Bytes) :
    M (Option Bytes) := do
  if ← pathIsFile (entryPath (pathOf (tablePlace S k)) name) then read name else return none

theorem ensures_intoString {what : String} {name : Bytes} {w : World} (hI : I w) :
    Ensures (machine env) I (fun a w' => w' = w ∧ a = name) (intoString what name) w := by
  rw [intoString]
  split
  · exact ensures_ok hI ⟨rfl, rfl⟩
  · exact ensures_bail hI

theorem ensures_dirItem {k : Kind} {what : String} {name : Bytes} {w : World} (hS : PlainPlace S)
    (hl : Layout S w.root) (hn : Plain name) (hI : I w) :
    Ensures (machine env) I
      (fun o w' => w' = w ∧
        ((o = some name ∧ ∃ m kids, view S w.root k name = some (.dir m kids)) ∨
          (o = none ∧ (StatAnswers env → ¬ ∃ m kids, view S w.root k name = some (.dir m kids)))))
      (dirItem S k what name) w := by
  have hiff := isDirPath_entry hS hl hn (k := k)
  refine ensures_bind (P := fun b w' => w' = w ∧
      (b = isDirPath w.root (pathOf (entryPlace S k name)) ∨ b = false ∧ ¬ StatAnswers env))
    (ensures_pathIsDir hI ⟨rfl, .inl rfl⟩ fun hs => ⟨rfl, .inr ⟨rfl, not_answers hs⟩⟩) ?_
  rintro b w' hI' ⟨rfl, hb⟩
  split
  · rename_i hbt
    rw [hbt] at hb
    refine ensures_bind (ensures_intoString hI') ?_
    rintro a w'' hI'' ⟨rfl, rfl⟩
    exact ensures_ok hI'' ⟨rfl, .inl ⟨rfl, hiff.mp (hb.resolve_right (by simp)).symm⟩⟩
  · rename_i hbf
    exact ensures_ok hI' ⟨rfl, .inr ⟨rfl, fun hs h => hb.elim
      (fun hb => hbf (hb.trans (hiff.mpr h))) fun hb => hb.2 hs⟩⟩

theorem ensures_fileItem {k : Kind} {read : Bytes → M (Option Bytes)} {R : Bytes → Prop}
    {name : Bytes} {w : World} (hS : PlainPlace S) (hl : Layout S w.root) (hn : Plain name)
    (hI : I w)
    (hread : Ensures (machine env) I (fun o w' => w' = w ∧ ∃ a, o = some a ∧ R a) (read name) w) :
    Ensures (machine env) I
      (fun o w' => w' = w ∧
        ((∃ a, o = some a ∧ R a ∧ ∃ m data, view S w.root k name = some (.leaf (.file m data))) ∨
          (o = none ∧
            (StatAnswers env → ¬ ∃ m data, view S w.root k name = some (.leaf (.file m data))))))
      (fileItem S k read name) w := by
  have hiff := isFilePath_entry hS hl hn (k := k)
  refine ensures_bind (P := fun b w' => w' = w ∧
      (b = isFilePath w.root (pathOf (entryPlace S k name)) ∨ b = false ∧ ¬ StatAnswers env))
    (ensures_pathIsFile hI ⟨rfl, .inl rfl⟩ fun hs => ⟨rfl, .inr ⟨rfl, not_answers hs⟩⟩) ?_
  rintro b w' hI' ⟨rfl, hb⟩
  split
  · rename_i hbt
    rw [hbt] at hb
    refine ensures_mono hread (fun _ h => h) fun o w'' _ h => ?_
    obtain ⟨rfl, a, rfl, ha⟩ := h
    exact ⟨rfl, .inl ⟨a, rfl, ha, hiff.mp (hb.resolve_right (by simp)).symm⟩⟩
  · rename_i hbf
    exact ensures_ok hI' ⟨rfl, .inr ⟨rfl, fun hs h => hb.elim
      (fun hb => hbf (hb.trans (hiff.mpr h))) fun hb => hb.2 hs⟩⟩

/-! ## Iterators -/

theorem ensures_readContainers {w : World} (hS : PlainPlace S) (hl : Layout S w.root) (hI : I w) :
    Ensures (machine env) I
      (fun it w' => w' = w ∧ Listed S .containers w.root it.listing ∧
        it.item = dirItem S .containers "container name {:?} is not valid UTF-8")
      (storeAt S).readContainers w := by
  rw [Storage.readContainers, containersPath_storeAt]
  refine ensures_bind (ensures_readDirEntries hS hl hI) ?_
  rintro l w' hI' ⟨rfl, hlist⟩
  exact ensures_ok hI' ⟨rfl, hlist, rfl⟩

theorem ensures_readLayerDigests {w : World} (hS : PlainPlace S) (hl : Layout S w.root)
    (hI : I w) :
    Ensures (machine env) I
      (fun it w' => w' = w ∧ Listed S .layers w.root it.listing ∧
        it.item = dirItem S .layers "layer name {:?} is not valid UTF-8")
      (storeAt S).readLayerDigests w := by
  rw [Storage.readLayerDigests, layersPath_storeAt]
  refine ensures_bind (ensures_readDirEntries hS hl hI) ?_
  rintro l w' hI' ⟨rfl, hlist⟩
  exact ensures_ok hI' ⟨rfl, hlist, rfl⟩

/-- The digest a manifest file is named after. -/
def readManifestName (S : Place) (name : Bytes) : M (Option Bytes) := do
  let fileName ← intoString "manifest file name {:?} is not valid UTF-8" name
  if utf8 ".json" <:+ fileName then
    return some (fileName.take (fileName.length - (utf8 ".json").length))
  else
    bail ⟨"manifest file {} does not end with .json",
      [(entryPath (pathOf (tablePlace S .manifests)) name).display]⟩

theorem ensures_readManifestName {name : Bytes} {w : World} (hI : I w) :
    Ensures (machine env) I (fun o w' => w' = w ∧ ∃ a, o = some a ∧ name = manifestName a)
      (readManifestName S name) w := by
  rw [readManifestName]
  refine ensures_bind (ensures_intoString hI) ?_
  rintro a w' hI' ⟨rfl, rfl⟩
  split
  · rename_i h
    obtain ⟨d, rfl⟩ := h
    refine ensures_ok hI' ⟨rfl, d, ?_, rfl⟩
    rw [List.length_append, Nat.add_sub_cancel, List.take_left]
  · exact ensures_bail hI'

theorem ensures_readManifestDigests {w : World} (hS : PlainPlace S) (hl : Layout S w.root)
    (hI : I w) :
    Ensures (machine env) I
      (fun it w' => w' = w ∧ Listed S .manifests w.root it.listing ∧
        it.item = fileItem S .manifests (readManifestName S))
      (storeAt S).readManifestDigests w := by
  rw [Storage.readManifestDigests, manifestsPath_storeAt]
  refine ensures_bind (ensures_readDirEntries hS hl hI) ?_
  rintro l w' hI' ⟨rfl, hlist⟩
  exact ensures_ok hI' ⟨rfl, hlist, rfl⟩

theorem ensures_readLayerLockDigests {w : World} (hS : PlainPlace S) (hl : Layout S w.root)
    (hI : I w) :
    Ensures (machine env) I
      (fun it w' => w' = w ∧ Listed S .locks w.root it.listing ∧
        it.item = fileItem S .locks fun name => do
          return some (← intoString "layer lock name {:?} is not valid UTF-8" name))
      (storeAt S).readLayerLockDigests w := by
  rw [Storage.readLayerLockDigests, layerLocksPath_storeAt]
  refine ensures_bind (ensures_readDirEntries hS hl hI) ?_
  rintro l w' hI' ⟨rfl, hlist⟩
  exact ensures_ok hI' ⟨rfl, hlist, rfl⟩

/-! ## One container, one manifest, one layer -/

/-- The digest in `manifest_digest` of a container, as it is read. -/
def ReadsDigest (S : Place) (x : Node) (container digest : Bytes) : Prop :=
  ∃ text, Posix.read x (((storeAt S).containerPath container).join (utf8 "manifest_digest")) =
    .ok text ∧ Text.validUtf8 text = true ∧ Text.trim text ≠ [] ∧ digest = Text.trim text

theorem ensures_readContainerManifestDigest {container : Bytes} {w : World} (hI : I w) :
    Ensures (machine env) I (fun d w' => w' = w ∧ ReadsDigest S w.root container d)
      ((storeAt S).readContainerManifestDigest container) w := by
  rw [Storage.readContainerManifestDigest]
  refine ensures_step (P := fun text w' => w' = w ∧ Posix.read w.root _ = .ok text)
    (ensures_read hI (fun text ht => ⟨rfl, ht⟩) fun code a ha => by cases ha) ?_
  rintro text w' hI' ⟨rfl, ht⟩
  split
  · exact ensures_fail hI'
  · rename_i hv
    split
    · exact ensures_bail hI'
    · rename_i hne
      exact ensures_ok hI' ⟨rfl, text, ht, not_not.mp hv, hne, rfl⟩

theorem ensures_readContainerReference {container : Bytes} {w : World} (hI : I w) :
    Ensures (machine env) I
      (fun reference w' => w' = w ∧ ∃ bytes,
        Posix.read w.root (((storeAt S).containerPath container).join (utf8 "reference.json")) =
          .ok bytes ∧ (env.fromSlice bytes).bind Reference.deserialize = some reference)
      ((storeAt S).readContainerReference env container) w := by
  rw [Storage.readContainerReference]
  refine ensures_step (P := fun bytes w' => w' = w ∧ Posix.read w.root _ = .ok bytes)
    (ensures_read hI (fun text ht => ⟨rfl, ht⟩) fun code a ha => by cases ha) ?_
  rintro bytes w' hI' ⟨rfl, hb⟩
  split
  · rename_i reference hr
    exact ensures_ok hI' ⟨rfl, bytes, hb, hr⟩
  · exact ensures_fail hI'

theorem ensures_readManifestBytes {digest : Bytes} {w : World} (hI : I w) :
    Ensures (machine env) I
      (fun bytes w' => w' = w ∧ Posix.read w.root ((storeAt S).manifestPath digest) = .ok bytes)
      ((storeAt S).readManifestBytes digest) w :=
  ensures_last (ensures_read hI (fun text ht => ⟨rfl, ht⟩) fun code a ha => by cases ha)

theorem ensures_readManifest {digest : Bytes} {w : World} (hI : I w) :
    Ensures (machine env) I
      (fun manifest w' => w' = w ∧ ∃ bytes,
        Posix.read w.root ((storeAt S).manifestPath digest) = .ok bytes ∧
          parseManifest env bytes = some manifest)
      ((storeAt S).readManifest env digest) w := by
  rw [Storage.readManifest]
  refine ensures_bind (ensures_readManifestBytes hI) ?_
  rintro bytes w' hI' ⟨rfl, hb⟩
  split
  · rename_i manifest hm
    exact ensures_ok hI' ⟨rfl, bytes, hb, hm⟩
  · exact ensures_fail hI'

theorem ensures_getLayerPath {digest : Bytes} {w : World} (hI : I w) :
    Ensures (machine env) I
      (fun o w' => w' = w ∧
        (o = some ((storeAt S).layerPath digest) ∧
            isDirPath w.root ((storeAt S).layerPath digest) = true ∨
          o = none ∧ (StatAnswers env → isDirPath w.root ((storeAt S).layerPath digest) = false)))
      ((storeAt S).getLayerPath digest) w := by
  refine ensures_bind (P := fun b w' => w' = w ∧
      (b = isDirPath w.root ((storeAt S).layerPath digest) ∨ b = false ∧ ¬ StatAnswers env))
    (ensures_pathIsDir hI ⟨rfl, .inl rfl⟩ fun hs => ⟨rfl, .inr ⟨rfl, not_answers hs⟩⟩) ?_
  rintro b w' hI' ⟨rfl, hb⟩
  split
  · rename_i hbt
    rw [hbt] at hb
    exact ensures_ok hI' ⟨rfl, .inl ⟨rfl, (hb.resolve_right (by simp)).symm⟩⟩
  · rename_i hbf
    rw [Bool.not_eq_true] at hbf
    exact ensures_ok hI' ⟨rfl, .inr ⟨rfl, fun hs =>
      hb.elim (fun hb => hb ▸ hbf) fun hb => absurd hs hb.2⟩⟩

theorem ensures_ensureContainerInstalled {container : Bytes} {w : World} (hI : I w) :
    Ensures (machine env) I
      (fun _ w' => w' = w ∧ isDirPath w.root ((storeAt S).containerPath container) = true)
      ((storeAt S).ensureContainerInstalled container) w := by
  refine ensures_bind (P := fun b w' => w' = w ∧
      (b = true → isDirPath w.root ((storeAt S).containerPath container) = true))
    (ensures_pathIsDir hI ⟨rfl, id⟩ fun _ => ⟨rfl, by simp⟩) ?_
  rintro b w' hI' ⟨rfl, hb⟩
  split
  · rename_i h
    exact ensures_ok hI' ⟨rfl, hb h⟩
  · exact ensures_bail hI'

/-- The bytes of a manifest saved under a well-formed digest. -/
theorem read_manifestPath {x : Node} {digest bytes : Bytes} (hS : PlainPlace S) (hl : Layout S x)
    (hd : Plain (manifestName digest)) :
    Posix.read x ((storeAt S).manifestPath digest) = .ok bytes ↔
      (view S x).manifestBytes digest = some bytes := by
  rw [manifestPath_storeAt hd]
  exact read_entry hS hl hd

/-- What `isManifestSaved` finds: a file, and one that verifies if that is asked for. -/
theorem ensures_isManifestSaved {digest : Bytes} {verify : Bool} {w : World} (hS : PlainPlace S)
    (hl : Layout S w.root) (hd : Plain (manifestName digest)) (hI : ∀ w', Same w w' → I w') :
    Ensures (machine env) I
      (fun b w' => Same w w' ∧ w'.net = w.net ∧ (b = true → ∃ bytes,
        (view S w.root).manifestBytes digest = some bytes ∧
          (verify = true → Verifies env.hash bytes digest)) ∧
        (StatAnswers env → b = false → verify = false →
          (view S w.root).manifestBytes digest = none))
      ((storeAt S).isManifestSaved env digest verify) w := by
  have h₀ := hI w (.refl w)
  have hpath : (storeAt S).manifestPath digest =
      pathOf (entryPlace S .manifests (manifestName digest)) := manifestPath_storeAt hd S
  rw [Storage.isManifestSaved]
  refine ensures_bind (P := fun b w' => w' = w ∧
      (b = isFilePath w.root (pathOf (entryPlace S .manifests (manifestName digest))) ∨
        b = false ∧ ¬ StatAnswers env))
    (ensures_pathIsFile h₀ ⟨rfl, .inl (by rw [hpath])⟩
      fun hs => ⟨rfl, .inr ⟨rfl, not_answers hs⟩⟩) ?_
  rintro b w' - ⟨rfl, hb⟩
  split
  · rename_i hbf
    refine ensures_ok h₀ ⟨.refl _, rfl, by simp, fun hs _ _ => ?_⟩
    have hb := hb.resolve_right fun hb => hb.2 hs
    rw [Store.manifestBytes, Option.bind_eq_none_iff]
    intro t ht
    cases t with
    | dir m kids => rfl
    | leaf f =>
      cases f with
      | file m bytes => exact absurd (hb ▸ (isFilePath_entry hS hl hd).mpr ⟨m, bytes, ht⟩) hbf
      | symlink t => rfl
  rename_i hbt
  rw [not_not.mp hbt] at hb
  obtain ⟨m, bytes, hv⟩ := (isFilePath_entry hS hl hd).mp (hb.resolve_right (by simp)).symm
  have hbytes : (view S w'.root).manifestBytes digest = some bytes := by
    rw [Store.manifestBytes, hv]
    rfl
  split
  · rename_i hver
    exact ensures_ok h₀ ⟨.refl _, rfl, fun _ => ⟨bytes, hbytes, fun h => absurd h hver⟩, by simp⟩
  rename_i hver
  refine ensures_step (P := fun a w'' => w'' = w' ∧ a = bytes)
    (ensures_read h₀ (fun a ha => ?_) fun code a ha => by cases ha) ?_
  · rw [read_manifestPath hS hl hd, hbytes] at ha
    exact ⟨rfl, (Option.some.inj ha).symm⟩
  rintro a w'' - ⟨rfl, rfl⟩
  split
  · rename_i hok
    exact ensures_ok h₀ ⟨.refl _, rfl, fun _ => ⟨a, hbytes, fun _ => hok⟩, by simp⟩
  · refine ensures_bind (P := fun _ w' => Same w'' w' ∧ w'.net = w''.net)
      (ensures_eprintln h₀ fun w' hs hn => ⟨hI w' hs, hs, hn⟩) ?_
    rintro - w₁ h₁ ⟨hs, hn⟩
    exact ensures_ok h₁ ⟨hs, hn, by simp, by simp [not_not.mp hver]⟩

end Pakstak
