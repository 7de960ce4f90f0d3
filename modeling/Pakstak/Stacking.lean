/-
  What `run` mounts as the root, and what the image means.

  `rootView` is what bwrap shows for the layer arguments: the tree itself for one layer, a
  union of the trees for more, the last one on top. `readStackedLayers` keeps the first
  occurrence of a digest; the rules for changesets let the last one count.

  Proved:
  * `one_layer_iff`: the mount of one layer shows what a union with that layer alone would, if
    and only if the layer has no whiteout.
  * `stacked_layers_iff`: a union of the layers kept shows what the layers of the manifest are
    applied in order to, if and only if the order of the first occurrences and that of the
    last ones say the same at every path.
-/
import Pakstak.Changeset
import Pakstak.Readers

namespace Pakstak

open Posix Prog FileTree

/-! ## The root -/

/-- The tree at a path. -/
def treeAt (x : Node) (p : PathBuf) : Labels :=
  match walk x p with
  | .ok c => under c x
  | .error _ => fun _ => none

/-- The sources of a union, the lowest in front. -/
def overlaySources : List Arg → Option (List PathBuf)
  | [.text a, .text b] => if a = utf8 "--ro-overlay" ∧ b = utf8 "/" then some [] else none
  | .text a :: .path p :: args =>
    if a = utf8 "--overlay-src" then (overlaySources args).map (p :: ·) else none
  | _ => none

/-- What bwrap shows at `/` for the layer arguments. -/
def rootView (x : Node) (args : List Arg) : Option Labels :=
  match args with
  | [.text a, .path p, .text b] =>
    if a = utf8 "--ro-bind" ∧ b = utf8 "/" then some (treeAt x p) else none
  | args =>
    (overlaySources args).map fun ps => Overlay.lookup overlayfs (ps.map (treeAt x)).reverse

variable {S : Place} {env : Env} {I : World → Prop} {w w' : World}

theorem ensures_layerPathOrMissing {layer : Descriptor} (hI : I w) :
    Ensures (machine env) I (fun path w' => w' = w ∧ path = (storeAt S).layerPath layer.digest)
      (layerPathOrMissing (storeAt S) layer) w := by
  refine ensures_bind (ensures_getLayerPath hI) ?_
  rintro o w' hI' ⟨rfl, ⟨rfl, -⟩ | ⟨rfl, -⟩⟩
  · exact ensures_ok hI' ⟨rfl, rfl⟩
  · exact ensures_bail hI'

/-! ## One layer -/

theorem lookup_alone {t : Node} {below : List Labels} {p : Place}
    (hb : ∀ g ∈ below, Overlay.IsTree overlayfs g ∧ ∀ n q, g (n :: q) = none) :
    Overlay.lookup overlayfs (t.find :: below) p =
      (t.find p).bind fun i => if IsWhiteout i then none else some i := by
  rw [Overlay.lookup_cons (isTree_find t) fun g hg => (hb g hg).1, Overlay.answer]
  cases hf : t.find p with
  | some i => by_cases hw : IsWhiteout i <;> simp [overlayfs, hw]
  | none =>
    cases p with
    | nil => cases hf
    | cons n q =>
      have hnone : Overlay.lookup overlayfs below (n :: q) = none := by
        rw [Overlay.lookup_eq_findSome fun g hg => (hb g hg).1]
        cases hs : below.findSome? fun f => Overlay.answer overlayfs f (n :: q) with
        | none => rfl
        | some a =>
          obtain ⟨g, hg, ha⟩ := List.exists_of_findSome?_eq_some hs
          rw [Overlay.answer, (hb g hg).2] at ha
          dsimp only at ha
          split at ha <;> cases ha
          rfl
      rw [hnone]
      cases Overlay.covers overlayfs t.find (n :: q) <;> rfl

/-- The plain mount of one layer, and the union of that layer with nothing below it. -/
theorem one_layer_iff {layer : Descriptor} {t : Node} {args : List Arg} {below : List Labels}
    (ht : treeAt w.root ((storeAt S).layerPath layer.digest) = t.find)
    (hb : ∀ g ∈ below, Overlay.IsTree overlayfs g ∧ ∀ n q, g (n :: q) = none)
    (hx : Exec (machine env) (layerArgs (storeAt S) [layer]) w (some (.ok args)) w') :
    ∃ shown, rootView w.root args = some shown ∧
      ((∀ p, PlainPlace p →
        (shown p).map bare = (Overlay.lookup overlayfs (t.find :: below) p).map bare) ↔
      ∀ p i, PlainPlace p → t.find p = some i → ¬ IsWhiteout i) := by
  have h : Ensures (machine env) (fun _ => True) (fun args _ =>
      args = [.text (utf8 "--ro-bind"), .path ((storeAt S).layerPath layer.digest),
        .text (utf8 "/")]) (layerArgs (storeAt S) [layer]) w := by
    refine ensures_bind (ensures_layerPathOrMissing trivial) ?_
    rintro path w' - ⟨rfl, rfl⟩
    exact ensures_ok trivial rfl
  obtain rfl := (ensures_exec h hx).2 args rfl
  refine ⟨t.find, by simp [rootView, ht], ?_⟩
  simp only [lookup_alone hb]
  constructor
  · intro heq p i hp hi hw
    have := heq p hp
    simp [hi, hw] at this
  · intro hno p hp
    cases hi : t.find p with
    | none => rfl
    | some i => simp [hno p i hp hi]

/-! ## Many layers -/

/-- The manifest that an installed container stands for. -/
def ManifestOf (env : Env) (S : Place) (x : Node) (container : Bytes) (manifest : ImageManifest) :
    Prop :=
  ∃ digest bytes, ReadsDigest S x container digest ∧
    Posix.read x ((storeAt S).manifestPath digest) = .ok bytes ∧
    parseManifest env bytes = some manifest

theorem ManifestOf.unique {x : Node} {container : Bytes} {m m' : ImageManifest}
    (h : ManifestOf env S x container m) (h' : ManifestOf env S x container m') : m = m' := by
  obtain ⟨d, b, ⟨text, ht, -, -, rfl⟩, hb, hm⟩ := h
  obtain ⟨d', b', ⟨text', ht', -, -, rfl⟩, hb', hm'⟩ := h'
  rw [ht] at ht'
  cases ht'
  rw [hb] at hb'
  cases hb'
  rw [hm] at hm'
  cases hm'
  rfl

theorem ensures_readStackedLayers {container : Bytes} (hI : I w) :
    Ensures (machine env) I
      (fun layers w' => w' = w ∧ ∃ manifest, ManifestOf env S w.root container manifest ∧
        layers = stackLayers [] manifest.layers)
      (readStackedLayers env (storeAt S) [container]) w := by
  refine ensures_bind (P := fun layers w' => w' = w ∧ ∃ manifest,
    ManifestOf env S w.root container manifest ∧ layers = stackLayers [] manifest.layers) ?_
    fun layers w' hI' h => ensures_ok hI' h
  refine ensures_bind (ensures_ensureContainerInstalled hI) ?_
  rintro - w' hI' ⟨rfl, -⟩
  refine ensures_bind (ensures_readContainerManifestDigest hI') ?_
  rintro digest w' hI' ⟨rfl, hd⟩
  refine ensures_bind (ensures_readManifest hI') ?_
  rintro manifest w' hI' ⟨rfl, bytes, hb, hm⟩
  exact ensures_ok hI' ⟨rfl, manifest, ⟨digest, bytes, hd, hb, hm⟩, rfl⟩

/-- The digests kept are the first occurrences. -/
theorem digests_stackLayers (ls : List Descriptor) :
    (stackLayers [] ls).map Descriptor.digest =
      (ls.map Descriptor.digest).reverse.dedup.reverse := by
  induction ls using List.reverseRecOn with
  | nil => rfl
  | append_singleton ls l ih =>
    rw [stackLayers] at ih ⊢
    rw [List.foldl_append, List.foldl_cons, List.foldl_nil, List.map_append, List.map_singleton,
      List.reverse_append, List.reverse_singleton, List.singleton_append]
    set acc := ls.foldl (fun layers layer =>
      if layers.all fun old => layer.digest ≠ old.digest then layers ++ [layer] else layers) []
    have hmem : (acc.all fun old => l.digest ≠ old.digest) = true ↔
        l.digest ∉ (ls.map Descriptor.digest).reverse := by
      rw [← List.mem_dedup, ← List.mem_reverse, ← ih, List.mem_map, List.all_eq_true]
      constructor
      · rintro h ⟨old, ho, heq⟩
        exact of_decide_eq_true (h old ho) heq.symm
      · exact fun h old ho => decide_eq_true fun heq => h ⟨old, ho, heq.symm⟩
    by_cases h : l.digest ∈ (ls.map Descriptor.digest).reverse
    · rw [if_neg fun h' => hmem.mp h' h, List.dedup_cons_of_mem h, ih]
    · rw [if_pos (hmem.mpr h), List.dedup_cons_of_notMem h, List.map_append, ih,
        List.reverse_cons, List.map_singleton]

/-- The layer is stored, as the conversion of its archive. -/
def StoredFrom (env : Env) (S : Place) (x : Node) (archive : Bytes → Node) (digest : Bytes) :
    Prop :=
  Fresh (archive digest).find ∧ ∃ y, treeAt x ((storeAt S).layerPath digest) = y.find ∧
    ExtractedFrom env digest (archive digest) y

/-- At every path, the topmost of the layers that decide it is to show the same, whether the
    order is that of the first or that of the last occurrences. -/
def SameOnTop (archive : Bytes → Node) (digests : List Bytes) : Prop :=
  ∀ p, PlainPlace p → Unmarked p →
    ((digests.reverse.dedup.findSome? fun d => shown (archive d).find p).join).map bare =
      ((digests.dedup.reverse.findSome? fun d => change (archive d).find p).join).map bare

/-- The union of the layers that are kept, and the layers of the manifest in order. -/
theorem stacked_layers_iff {container : Bytes} {manifest : ImageManifest}
    {layers : List Descriptor} {archive : Bytes → Node}
    (hm : ManifestOf env S w.root container manifest)
    (hs : ∀ layer ∈ manifest.layers, StoredFrom env S w.root archive layer.digest)
    (hx : Exec (machine env) (readStackedLayers env (storeAt S) [container]) w
      (some (.ok layers)) w') :
    (∀ p, PlainPlace p →
      (Overlay.lookup overlayfs (layers.map fun layer =>
        treeAt w.root ((storeAt S).layerPath layer.digest)).reverse p).map bare =
      (applyLayers (manifest.layers.map fun layer => (archive layer.digest).find) p).map bare) ↔
    SameOnTop archive (manifest.layers.map Descriptor.digest) := by
  obtain ⟨-, manifest', hm', rfl⟩ := (ensures_exec (ensures_readStackedLayers
    (I := fun _ => True) trivial) hx).2 layers rfl
  obtain rfl := hm.unique hm'
  obtain ⟨digests, hd⟩ : ∃ ds, ds = manifest.layers.map Descriptor.digest := ⟨_, rfl⟩
  rw [← hd]
  have stored {d : Bytes} (h : d ∈ digests) : StoredFrom env S w.root archive d := by
    obtain ⟨layer, hl, rfl⟩ := List.mem_map.mp (hd ▸ h)
    exact hs layer hl
  -- the tree stored for a digest
  obtain ⟨Y, hY⟩ : ∃ Y : Bytes → Node, ∀ d ∈ digests,
      treeAt w.root ((storeAt S).layerPath d) = (Y d).find ∧
        ExtractedFrom env d (archive d) (Y d) := by
    refine ⟨fun d => if h : d ∈ digests then (stored h).2.choose else archive d, fun d h => ?_⟩
    simp only [h, dif_pos]
    exact (stored h).2.choose_spec
  -- the digests kept, the topmost in front
  have kept {d : Bytes} (h : d ∈ digests.reverse.dedup.reverse) : d ∈ digests := by
    simpa using h
  have hlayers : ((stackLayers [] manifest.layers).map fun layer =>
      treeAt w.root ((storeAt S).layerPath layer.digest)) =
      (digests.reverse.dedup.reverse.map fun d => (archive d, Y d)).map fun l => l.2.find := by
    rw [hd, ← digests_stackLayers, List.map_map, List.map_map]
    refine List.map_congr_left fun layer hl => ?_
    have hin : layer.digest ∈ (stackLayers [] manifest.layers).map Descriptor.digest :=
      List.mem_map_of_mem hl
    rw [digests_stackLayers, ← hd] at hin
    exact (hY _ (kept hin)).1
  have himage : (manifest.layers.map fun layer => (archive layer.digest).find) =
      digests.map fun d => (archive d).find := by
    rw [hd, List.map_map]
    rfl
  have hunion (p : Place) (hp : PlainPlace p) := @lookup_converted
    (digests.reverse.dedup.reverse.map fun d => (archive d, Y d)) p (fun l hl => by
      obtain ⟨d, hd, rfl⟩ := List.mem_map.mp hl
      exact ⟨⟨env, (hY d (kept hd)).2.2⟩, (stored (kept hd)).1⟩) hp
  rw [hlayers, himage]
  refine forall_congr' fun p => forall_congr' fun hp => ?_
  rw [hunion p hp]
  by_cases hu : Unmarked p
  · have hkept : ((digests.reverse.dedup.reverse.map fun d => (archive d, Y d)).reverse.findSome?
        fun l => shown l.1.find p) =
        digests.reverse.dedup.findSome? fun d => shown (archive d).find p := by
      rw [← List.map_reverse, List.reverse_reverse, List.findSome?_map]
      rfl
    have hlast : ((digests.map fun d => (archive d).find).reverse.findSome? fun f => change f p) =
        digests.dedup.reverse.findSome? fun d => change (archive d).find p := by
      rw [← List.map_reverse, List.findSome?_map, Overlay.findSome_dedup]
      rfl
    rw [if_pos hu, applyLayers_eq hu, hkept, hlast]
    exact ⟨fun h _ => h, fun h => h hu⟩
  · rw [if_neg hu, applyLayers_marked hu]
    exact ⟨fun _ h => absurd h hu, fun _ => rfl⟩

/-! ## An image whose first layer comes again on top -/

namespace Restored

def zeros (n : Nat) : Bytes := List.replicate n 0

def padded (n : Nat) (s : String) : Bytes := utf8 s ++ zeros (n - (utf8 s).length)

/-- The header of a regular file of mode 0644 in an archive. -/
def header (name size checksum : String) : Bytes :=
  padded 100 name ++ padded 8 "0000644" ++ padded 8 "0000000" ++ padded 8 "0000000" ++
    padded 12 size ++ padded 12 "00000000000" ++ padded 7 checksum ++ utf8 " 0" ++ zeros 100 ++
    padded 6 "ustar" ++ utf8 "00" ++ zeros 247

/-- The archive of the file `x` with the data `1`. -/
def file : Document where
  text := header "x" "00000000001" "006126" ++ padded 512 "1" ++ zeros 1024
  sha256 := fromHex "412695263b26ee356da4dd49e9cf8ebdae13db1571911bf9603454f0a268a056"
  json := none

def fileDigest : Bytes :=
  utf8 "sha256:412695263b26ee356da4dd49e9cf8ebdae13db1571911bf9603454f0a268a056"

/-- The archive of the empty file `.wh.x`. -/
def removal : Document where
  text := header ".wh.x" "00000000000" "006620" ++ zeros 1024
  sha256 := fromHex "a42ca0315d9246a345b93a0766a5c61eeb5677103abb04cfc6e04abf8ad958bf"
  json := none

def removalDigest : Bytes :=
  utf8 "sha256:a42ca0315d9246a345b93a0766a5c61eeb5677103abb04cfc6e04abf8ad958bf"

def tarType : Bytes := utf8 "application/vnd.oci.image.layer.v1.tar"

def layerText (digest size : Bytes) : Bytes :=
  utf8 "\x7b\"mediaType\":\"" ++ tarType ++ utf8 "\",\"digest\":\"" ++ digest ++
    utf8 "\",\"size\":" ++ size ++ utf8 "\x7d"

def layerJson (digest : Bytes) (size : Nat) : Json :=
  .obj [(utf8 "mediaType", .str tarType), (utf8 "digest", .str digest), (utf8 "size", .int size)]

/-- The manifest of an image: the file, its removal, and the file again. -/
def manifest : Document where
  text := utf8 "\x7b\"schemaVersion\":2,\"layers\":[" ++ layerText fileDigest (utf8 "2048") ++
    utf8 "," ++ layerText removalDigest (utf8 "1536") ++ utf8 "," ++
    layerText fileDigest (utf8 "2048") ++ utf8 "]\x7d"
  sha256 := fromHex "9070984b299d56bf537c04e7d23e3e3ef5657146c1b156e78c4d431926462d4e"
  json := some (.obj [(utf8 "schemaVersion", .int 2), (utf8 "layers",
    .arr [layerJson fileDigest 2048, layerJson removalDigest 1536, layerJson fileDigest 2048])])

def manifestDigest : Bytes :=
  utf8 "sha256:9070984b299d56bf537c04e7d23e3e3ef5657146c1b156e78c4d431926462d4e"

/-- The tree of an archive. -/
def archive (digest : Bytes) : Node :=
  if digest = fileDigest then OneFile.layer (utf8 "x") (utf8 "1")
  else OneFile.layer (utf8 ".wh.x") []

def unpackArchive (data : Bytes) : Option Node :=
  if data = file.text then some (archive fileDigest)
  else if data = removal.text then some (archive removalDigest)
  else none

def host : Env :=
  { smallEnv [file, removal, manifest] with unpack := fun _ body _ => unpackArchive body.data }

instance : StatAnswers host := ⟨fun _ _ h => h⟩

def place : Place := [utf8 "s"]

def leaf (data : Bytes) : Node := .leaf (.file newFile data)

/-- The store with the image installed as `c`. -/
def world : World :=
  ⟨.dir newDir [(utf8 "s", .dir newDir
    [(utf8 "containers", .dir newDir [(utf8 "c", .dir newDir
        [(utf8 "manifest_digest", leaf manifestDigest)])]),
      (utf8 "manifests", .dir newDir [(manifestDigest ++ utf8 ".json", leaf manifest.text)]),
      (utf8 "layers", .dir newDir
        [(fileDigest, OneFile.result host (archive fileDigest)),
          (removalDigest, OneFile.result host (archive removalDigest))])])], [], [], []⟩

def fileLayer : Descriptor := ⟨fileDigest, tarType, 2048, none⟩

def removalLayer : Descriptor := ⟨removalDigest, tarType, 1536, none⟩

def stack : Option (Except Err (List Descriptor)) × World :=
  calm.replay host (readStackedLayers host (storeAt place) [utf8 "c"]) world

def mount : Option (Except Err (List Arg)) × World :=
  calm.replay host (layerArgs (storeAt place) [removalLayer]) world

/-- What the small store computes. -/
structure Computed : Prop where
  stacked : stack.1 = some (.ok [fileLayer, removalLayer])
  mounted : mount.1 = some (.ok [.text (utf8 "--ro-bind"),
    .path ((storeAt place).layerPath removalDigest), .text (utf8 "/")])
  digest : Posix.read world.root (((storeAt place).containerPath (utf8 "c")).join
    (utf8 "manifest_digest")) = .ok manifestDigest
  trimmed : Text.validUtf8 manifestDigest = true ∧ Text.trim manifestDigest ≠ [] ∧
    manifestDigest = Text.trim manifestDigest
  saved : Posix.read world.root ((storeAt place).manifestPath manifestDigest) = .ok manifest.text
  parsed : parseManifest host manifest.text = some ⟨2, [fileLayer, removalLayer, fileLayer]⟩
  fileSound : Verifies host.hash file.text fileDigest
  removalSound : Verifies host.hash removal.text removalDigest
  differ : removal.text ≠ file.text
  fileAt : walk world.root ((storeAt place).layerPath fileDigest) =
    .ok (entryPlace place .layers fileDigest)
  removalAt : walk world.root ((storeAt place).layerPath removalDigest) =
    .ok (entryPlace place .layers removalDigest)
  fileRun : (OneFile.run host (archive fileDigest)).1 = some (.ok ()) ∧
    ((OneFile.run host (archive fileDigest)).2.root.get OneMarker.place).isSome = true
  removalRun : (OneFile.run host (archive removalDigest)).1 = some (.ok ()) ∧
    ((OneFile.run host (archive removalDigest)).2.root.get OneMarker.place).isSome = true
  plain : PlainPlace [utf8 "x"]
  lost : ¬ (Overlay.lookup overlayfs ([fileLayer, removalLayer].map fun layer =>
      treeAt world.root ((storeAt place).layerPath layer.digest)).reverse [utf8 "x"]).map bare =
    (applyLayers ([fileLayer, removalLayer, fileLayer].map fun layer =>
      (archive layer.digest).find) [utf8 "x"]).map bare
  whiteout : (OneFile.result host (archive removalDigest)).find [utf8 "x"] = some whiteout
  shown : ¬ ((OneFile.result host (archive removalDigest)).find [utf8 "x"]).map bare =
    (Overlay.lookup overlayfs [(OneFile.result host (archive removalDigest)).find,
      (FileTree.dir newDir [] : Node).find] [utf8 "x"]).map bare

theorem computed : Computed := by constructor <;> decide +kernel

theorem exec_stack : Exec (machine host) (readStackedLayers host (storeAt place) [utf8 "c"]) world
    (some (.ok [fileLayer, removalLayer])) stack.2 :=
  exec_of_fst_eq (calm.exec_replay _ _ _) (Computed.stacked computed)

theorem exec_mount : Exec (machine host) (layerArgs (storeAt place) [removalLayer]) world
    (some (.ok [.text (utf8 "--ro-bind"), .path ((storeAt place).layerPath removalDigest),
      .text (utf8 "/")])) mount.2 :=
  exec_of_fst_eq (calm.exec_replay _ _ _) (Computed.mounted computed)

theorem manifestOf : ManifestOf host place world.root (utf8 "c")
    ⟨2, [fileLayer, removalLayer, fileLayer]⟩ :=
  have hc := computed
  ⟨manifestDigest, manifest.text, ⟨manifestDigest, hc.digest, hc.trimmed⟩, hc.saved, hc.parsed⟩

theorem fresh_archive (digest : Bytes) : Fresh (archive digest).find := by
  rw [archive]
  split
  · exact OneFile.fresh_layer _ _
  · exact OneFile.fresh_layer _ _

theorem unpackArchive_file : unpackArchive file.text = some (archive fileDigest) := by
  rw [unpackArchive, if_pos rfl]

theorem unpackArchive_removal : unpackArchive removal.text = some (archive removalDigest) := by
  have hc := computed
  rw [unpackArchive, if_neg hc.differ, if_pos rfl]

theorem converted_archive {digest : Bytes} (h : digest = fileDigest ∨ digest = removalDigest) :
    ConvertedTo host (archive digest) (OneFile.result host (archive digest)) := by
  have hc := computed
  rcases h with rfl | rfl
  · exact OneFile.convertedTo_result rfl hc.fileRun.1 hc.fileRun.2
  · exact OneFile.convertedTo_result rfl hc.removalRun.1 hc.removalRun.2

theorem host_unpack (format : LayerFormat) (data : Bytes) (broken : Bool) (x : Node) :
    host.unpack format ⟨data, broken⟩ x = unpackArchive data := rfl

theorem extractedFrom_file :
    ExtractedFrom host fileDigest (archive fileDigest) (OneFile.result host (archive fileDigest)) :=
  ⟨⟨_, .tar, Computed.fileSound computed, by rw [host_unpack, unpackArchive_file]⟩,
    converted_archive (.inl rfl)⟩

theorem extractedFrom_removal : ExtractedFrom host removalDigest (archive removalDigest)
    (OneFile.result host (archive removalDigest)) :=
  ⟨⟨_, .tar, Computed.removalSound computed, by rw [host_unpack, unpackArchive_removal]⟩,
    converted_archive (.inr rfl)⟩

/-- A layer stands where `run` looks for it. -/
theorem treeAt_layer {digest : Bytes} (h : digest = fileDigest ∨ digest = removalDigest) :
    treeAt world.root ((storeAt place).layerPath digest) =
      (OneFile.result host (archive digest)).find := by
  have hwalk : walk world.root ((storeAt place).layerPath digest) =
      .ok (entryPlace place .layers digest) := by
    rcases h with rfl | rfl
    · exact Computed.fileAt computed
    · exact Computed.removalAt computed
  rw [treeAt, hwalk]
  refine under_of_get ?_
  rcases h with rfl | rfl
  · rfl
  · rfl

theorem stored {layer : Descriptor} (h : layer ∈ [fileLayer, removalLayer, fileLayer]) :
    StoredFrom host place world.root archive layer.digest := by
  have hd : layer.digest = fileDigest ∨ layer.digest = removalDigest := by
    simp only [List.mem_cons, List.not_mem_nil, or_false] at h
    rcases h with rfl | rfl | rfl
    · exact .inl rfl
    · exact .inr rfl
    · exact .inl rfl
  refine ⟨fresh_archive _, _, treeAt_layer hd, ?_⟩
  rcases hd with hd | hd <;> rw [hd]
  · exact extractedFrom_file
  · exact extractedFrom_removal

/-- The file is there by the rules for changesets, and not in the union. -/
theorem differs : ¬ ∀ p, PlainPlace p →
    (Overlay.lookup overlayfs ([fileLayer, removalLayer].map fun layer =>
      treeAt world.root ((storeAt place).layerPath layer.digest)).reverse p).map bare =
    (applyLayers ([fileLayer, removalLayer, fileLayer].map fun layer =>
      (archive layer.digest).find) p).map bare :=
  fun h => Computed.lost computed (h [utf8 "x"] (Computed.plain computed))

end Restored

theorem stacked_layers_iff_restored : ¬ SameOnTop Restored.archive
    [Restored.fileDigest, Restored.removalDigest, Restored.fileDigest] := fun h =>
  Restored.differs ((stacked_layers_iff Restored.manifestOf (fun _ => Restored.stored)
    Restored.exec_stack).mpr h)

/-- The layer that comes last is left out, and what it restores is missing. -/
theorem stacked_layers_lose_last :
    ¬ ∀ (env : Env) (S : Place) (w w' : World) (container : Bytes) (manifest : ImageManifest)
      (layers : List Descriptor) (archive : Bytes → Node),
      ManifestOf env S w.root container manifest →
      (∀ layer ∈ manifest.layers, StoredFrom env S w.root archive layer.digest) →
      Exec (machine env) (readStackedLayers env (storeAt S) [container]) w (some (.ok layers)) w' →
      ∀ p, PlainPlace p →
        (Overlay.lookup overlayfs (layers.map fun layer =>
          treeAt w.root ((storeAt S).layerPath layer.digest)).reverse p).map bare =
        (applyLayers (manifest.layers.map fun layer => (archive layer.digest).find) p).map bare :=
  fun h => Restored.differs (h _ _ _ _ _ _ _ _ Restored.manifestOf (fun _ => Restored.stored)
    Restored.exec_stack)

theorem empty_layer {g : Labels} (h : g ∈ [(FileTree.dir newDir [] : Node).find]) :
    Overlay.IsTree overlayfs g ∧ ∀ n q, g (n :: q) = none := by
  rw [List.mem_singleton.mp h]
  exact ⟨isTree_find _, fun n q => by rw [find, get_cons]; rfl⟩

/-- The whiteout of a layer mounted alone is a file. -/
theorem one_layer_iff_whiteout : ∃ shown, rootView Restored.world.root
    [.text (utf8 "--ro-bind"), .path ((storeAt Restored.place).layerPath Restored.removalDigest),
      .text (utf8 "/")] = some shown ∧
    ¬ ∀ p, PlainPlace p → (shown p).map bare = (Overlay.lookup overlayfs
      ((OneFile.result Restored.host (Restored.archive Restored.removalDigest)).find ::
        [(FileTree.dir newDir [] : Node).find]) p).map bare := by
  obtain ⟨shown, hs, hiff⟩ := one_layer_iff (Restored.treeAt_layer (.inr rfl))
    (fun _ => empty_layer) Restored.exec_mount
  have hc := Restored.computed
  exact ⟨shown, hs, fun h => hiff.mp h [utf8 "x"] whiteout hc.plain hc.whiteout
    isWhiteout_whiteout⟩

/-- A layer stored by an installation, mounted alone, may show what a union would hide. -/
theorem one_layer_shows_whiteout :
    ¬ ∀ (env : Env) (S : Place) (w w' : World) (layer : Descriptor) (t : Node) (args : List Arg),
      Extracted env layer.digest t →
      treeAt w.root ((storeAt S).layerPath layer.digest) = t.find →
      Exec (machine env) (layerArgs (storeAt S) [layer]) w (some (.ok args)) w' →
      ∃ shown, rootView w.root args = some shown ∧ ∀ p, PlainPlace p → (shown p).map bare =
        (Overlay.lookup overlayfs [t.find, (FileTree.dir newDir [] : Node).find] p).map bare := by
  intro h
  obtain ⟨shown, hs, heq⟩ := h _ _ _ _ Restored.removalLayer _ _
    ⟨_, Restored.extractedFrom_removal⟩ (Restored.treeAt_layer (.inr rfl)) Restored.exec_mount
  have hc := Restored.computed
  have hx := heq [utf8 "x"] hc.plain
  have hshown : shown = (OneFile.result Restored.host
      (Restored.archive Restored.removalDigest)).find := by
    rw [← Restored.treeAt_layer (.inr rfl)]
    have hview : rootView Restored.world.root [.text (utf8 "--ro-bind"),
        .path ((storeAt Restored.place).layerPath Restored.removalDigest), .text (utf8 "/")] =
        some (treeAt Restored.world.root
          ((storeAt Restored.place).layerPath Restored.removalDigest)) := by simp [rootView]
    exact Option.some.inj (hs.symm.trans hview)
  rw [hshown] at hx
  exact hc.shown hx

end Pakstak
