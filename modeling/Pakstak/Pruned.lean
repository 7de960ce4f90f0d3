/-
  Prune as a whole: what it leaves, and that it does nothing where it cannot read what is in
  use.

  Proved, for any answers of the environment (its `stat` answering), and for every state seen
  on the way:
  * `ensures_prune`: what is left after a run that ends well (`Pruned`), and that the steps
    are moves of the contents.
  * `ensures_prune_unreadable`: without every digest and manifest in use, nothing happens.
  * `Pruned.agreeing`, `ensures_prune_again`: what prune has left it finds the same, and it
    removes nothing more if no error was reported.
-/
import Pakstak.Installing
import Pakstak.Pruning
import Pakstak.Replay

namespace Pakstak

open Posix Prog FileTree

variable {env : Env} {I : World → Prop} {S : Place} {slack : Slack} {w w' w'' : World}
  {used usedLayers : List Bytes} {taken : Prop} {n d : Bytes} {x : Node}
  {out : List (Msg × Option Err)}

/-! ## What is in use, in a tidy store -/

theorem digestText_of_reads (hS : PlainPlace S) (hl : Layout S x) (ht : Tidy env (view S x))
    (hc : (view S x).HasContainer n) (h : ReadsDigest S x n d) :
    ∃ text, (view S x).digestText n = some text ∧ d = Text.trim text := by
  obtain ⟨m, kids, hv⟩ := hc
  obtain ⟨text, hread, -, -, rfl⟩ := h
  have hdir : x.DirAt (entryPlace S .containers n) := ⟨m, kids, hv⟩
  have hn : Plain n := hl.name .containers n fun hf => by
    have hg : x.get (entryPlace S .containers n) = none := find_eq_none_iff.mp hf
    rw [view, hg] at hv
    cases hv
  have hw : walk x ((storeAt S).containerPath n) = .ok (entryPlace S .containers n) := by
    rw [containerPath_storeAt hn]
    exact walk_dirAt hdir ((plain_tablePlace hS _).snoc hn) _
  exact ⟨text, kid_of_read plain_digestFile ht.files hw hdir hread, rfl⟩

/-- The digest of a container is in use. -/
theorem Survey.mem_used (h : Survey env S x used usedLayers) (hS : PlainPlace S)
    (hl : Layout S x) (ht : Tidy env (view S x)) {text : Bytes}
    (hd : (view S x).digestText n = some text) : Text.trim text ∈ used := by
  obtain ⟨t, hv, hdir⟩ := isDir_of_digestText hd
  have hc : (view S x).HasContainer n := by
    cases t with
    | leaf f => cases hdir
    | dir m kids => exact ⟨m, kids, hv⟩
  obtain ⟨d, hread⟩ := h.readable.digest n hc
  obtain ⟨text', htext, rfl⟩ := digestText_of_reads hS hl ht hc hread
  rw [hd, Option.some.injEq] at htext
  exact htext ▸ (h.used _).mpr ⟨n, hc, hread⟩

/-- The layers of a saved manifest in use are in use. -/
theorem Survey.mem_layers (h : Survey env S x used usedLayers) (hS : PlainPlace S)
    (hl : Layout S x) {bytes : Bytes} {manifest : ImageManifest} (hd : d ∈ used)
    (hb : (view S x).manifestBytes d = some bytes) (hm : parseManifest env bytes = some manifest)
    {layer : Descriptor} (hlayer : layer ∈ manifest.layers) : layer.digest ∈ usedLayers := by
  have hn : Plain (manifestName d) := hl.name .manifests _ fun hf => by
    have hg : x.get (entryPlace S .manifests (manifestName d)) = none := find_eq_none_iff.mp hf
    rw [Store.manifestBytes, view, hg] at hb
    cases hb
  exact (h.layers _).mpr ⟨d, manifest, (h.used d).mp hd,
    ⟨bytes, (read_manifestPath hS hl hn).mpr hb, hm⟩, layer, hlayer, rfl⟩

/-! ## Turns as moves -/

/-- What holds of the contents while manifests are removed. -/
structure Dropping (env : Env) (slack : Slack) (s₀ s : Store) : Prop where
  containers : ∀ a, s .containers a = s₀ .containers a
  moves : Tidy env s₀ → Moves env slack s₀ s

theorem Dropping.removeManifest {s₀ s : Store} (h : Dropping env slack s₀ s)
    (hd : Tidy env s₀ → ∀ a text, s₀.digestText a = some text → Text.trim text ≠ d) :
    Dropping env slack s₀ (s.set .manifests (manifestName d) none) := by
  refine ⟨fun a => (Store.set_of_ne_kind (by simp)).trans (h.containers a), fun ht => ?_⟩
  refine (h.moves ht).tail (.removeManifest fun a text ha => hd ht a text ?_)
  rw [← ha]
  exact (digestText_of_eq (h.containers a)).symm

/-- What holds of the contents while layers are removed: no saved manifest lists another layer
    than those in use. -/
structure Sweeping (env : Env) (slack : Slack) (used : List Bytes) (s₀ s₁ s : Store) : Prop
    extends Dropping env slack s₀ s where
  manifests : ∀ a, s .manifests a = s₁ .manifests a
  listed : Tidy env s₀ → ∀ digest bytes manifest, s₁.manifestBytes digest = some bytes →
    parseManifest env bytes = some manifest → ∀ layer ∈ manifest.layers, layer.digest ∈ used

theorem Sweeping.turn {s₀ s₁ s s' : Store} (h : Sweeping env slack used s₀ s₁ s)
    (ht : StoreTurn used taken n s s') : Sweeping env slack used s₀ s₁ s' := by
  refine ⟨⟨fun a => (ht.containers a).trans (h.containers a), fun htidy => ?_⟩,
    fun a => (ht.manifests a).trans (h.manifests a), h.listed⟩
  -- first the lock file, then the layer
  let s₂ : Store := fun k a => if k = .layers then s k a else s' k a
  have other : Move env slack s s₂ := .other (fun a => .inl (ht.manifests a))
    (fun a => .inl (ht.containers a)) (.inr fun a => rfl)
  have moves₂ := (h.moves htidy).tail other
  by_cases hn : ∃ a, s' .layers a ≠ s .layers a
  · obtain ⟨a, ha⟩ := hn
    obtain ⟨rfl, hu, -, -, hnone⟩ := (ht.layers a).resolve_left ha
    have hs' : s' = s₂.set .layers a none := by
      funext k b
      by_cases hk : k = .layers
      · subst hk
        by_cases hb : b = a
        · rw [hb, Store.set_same, hnone]
        · rw [Store.set_of_ne fun h => hb h.2]
          exact (ht.layers b).resolve_right fun h => hb h.1
      · rw [Store.set_of_ne_kind hk]
        exact (if_neg hk).symm
    rw [hs']
    refine moves₂.tail (.removeLayer fun digest bytes manifest hb hm layer hlayer he => hu ?_)
    rw [← he]
    refine h.listed htidy digest bytes manifest ?_ hm layer hlayer
    rw [← hb]
    exact (manifestBytes_of_eq ((ht.manifests _).trans (h.manifests _))).symm
  · push Not at hn
    have hs' : s' = s₂ := by
      funext k b
      by_cases hk : k = .layers
      · subst hk
        exact hn b
      · exact (if_neg hk).symm
    rw [hs']
    exact moves₂

/-! ## The whole command -/

/-- The store after prune; `out` are the lines printed. -/
structure Pruned (env : Env) (S : Place) (out : List (Msg × Option Err)) (w w' : World) :
    Prop where
  readable : Readable env S w.root
  ready : Ready S w'
  held : w'.held = w.held
  lines : w'.lines = w.lines ++ out
  thins : Thins S w.root w'.root
  lock : ∀ n, LockOr (view S w.root) (view S w'.root) n
  containers : ∀ n, view S w'.root .containers n = view S w.root .containers n
  /-- A manifest file stays if its digest is in use, and goes otherwise. -/
  manifests : ∀ d m data,
    view S w.root .manifests (manifestName d) = some (.leaf (.file m data)) →
    (view S w'.root .manifests (manifestName d) = view S w.root .manifests (manifestName d) ∧
      Uses S w.root d) ∨
    (view S w'.root .manifests (manifestName d) = none ∧ ¬ Uses S w.root d)
  saved : ∀ n, view S w'.root .manifests n ≠ none →
    view S w'.root .manifests n = view S w.root .manifests n
  /-- A layer stays if it is in use, if its lock is held, or if locking it or moving it away
      reported an error, and goes otherwise. -/
  layers : ∀ n, (view S w.root).HasLayer n →
    (view S w'.root .layers n = view S w.root .layers n ∧
      (UsesLayer env S w.root n ∨ entryPlace S .locks n ∈ w.held ∨ Refused n out)) ∨
    (view S w'.root .layers n = none ∧ ¬ UsesLayer env S w.root n ∧
      entryPlace S .locks n ∉ w.held ∧ ¬ Refused n out)
  others : ∀ n, ¬ (view S w.root).HasLayer n →
    view S w'.root .layers n = view S w.root .layers n
  /-- A lock file stays only beside its layer, if it is held, or after an error. -/
  locks : ∀ n m data, view S w'.root .locks n = some (.leaf (.file m data)) →
    (view S w'.root).HasLayer n ∨ entryPlace S .locks n ∈ w.held ∨ Stale n out

theorem refused_of_fmt {l : List (Msg × Option Err)}
    (h : ∀ line ∈ l, line.1.fmt ≠ "failed to prune layer {}: {}") : ¬ Refused n l :=
  fun ⟨_, he, _⟩ => h _ he rfl

theorem LockSweep.lockOr {names : List Bytes} (h : LockSweep S names [] out w w') (n : Bytes) :
    view S w'.root .locks n = none ∨ view S w'.root .locks n = view S w.root .locks n := by
  by_cases hn : n ∈ names
  · exact (h.fate n hn (by simp)).imp_right And.left
  · exact .inr (h.kept n (.inr hn))

theorem ensures_prune [StatAnswers env] (hS : PlainPlace S) (hr : Ready S w)
    (hI : ∀ w', Layout S w'.root → w'.held = w.held →
      Dropping env slack (view S w.root) (view S w'.root) → I w') :
    Ensures (machine env) I (fun _ w' => ∃ out, Pruned env S out w w')
      (prune env (storeAt S)) w := by
  have h₀ : I w := hI w hr.layout rfl ⟨fun _ => rfl, fun _ => .refl⟩
  rw [prune]
  refine ensures_bind (ensures_readUsedManifests hS hr.layout h₀) ?_
  rintro used w' - ⟨rfl, hused⟩
  refine ensures_bind (ensures_readUsedLayers hused h₀) ?_
  rintro usedLayers w₀ - ⟨rfl, hsurvey⟩
  have hsurvey := hsurvey inferInstance
  refine ensures_bind (ensures_pruneManifests hS hr
    (J := Dropping env slack (view S w₀.root)) ⟨fun _ => rfl, fun _ => .refl⟩ hI
    fun s d _ _ h hd _ => h.removeManifest fun ht a text ha he =>
      hd (he ▸ hsurvey.mem_used hS hr.layout ht ha)) ?_
  rintro removedManifests w₁ h₁ ⟨⟨names₁, hsweep₁, hall₁⟩, hdrop₁⟩
  have held₁ : w₁.held = w₀.held := congrArg Prod.fst hsweep₁.aside
  -- the manifests that are left are in use
  have listed : Tidy env (view S w₀.root) → ∀ digest bytes manifest,
      (view S w₁.root).manifestBytes digest = some bytes →
      parseManifest env bytes = some manifest →
      ∀ layer ∈ manifest.layers, layer.digest ∈ usedLayers := by
    intro ht digest bytes manifest hb hm layer hlayer
    have hkeep : ¬ Unused used (view S w₀.root) (manifestName digest) := fun hu => by
      rw [Store.manifestBytes, hsweep₁.gone _ (hall₁ _ hu) (by simp) hu] at hb
      cases hb
    have same := hsweep₁.kept _ (.inr (.inr hkeep))
    rw [manifestBytes_of_eq same] at hb
    refine hsurvey.mem_layers hS hr.layout ?_ hb hm hlayer
    obtain ⟨t, ht', -⟩ := Option.bind_eq_some_iff.mp hb
    obtain ⟨d, b, m, _, hn, rfl, -, -⟩ := ht.manifest _ _ ht'
    cases manifestName_inj.mp hn
    by_contra hd
    exact hkeep ⟨_, m, b, rfl, hd, ht'⟩
  have hsw₁ : Sweeping env slack usedLayers (view S w₀.root) (view S w₁.root) (view S w₁.root) :=
    ⟨hdrop₁, fun _ => rfl, listed⟩
  refine ensures_bind (ensures_pruneLayers hS hsweep₁.ready hsw₁
    (fun s s' n h (ht : StoreTurn usedLayers _ n s s') => h.turn ht) fun w' hl hh hs => hI w' hl
      (hh.trans held₁)
      hs.toDropping) ?_
  rintro removedLayers w₂ h₂ ⟨⟨names₂, out₂, hsweep₂, hall₂⟩, hsw₂⟩
  have held₂ := hsweep₂.held.trans held₁
  refine ensures_bind (ensures_cleanupLayerLocks hS hsweep₂.ready hsw₂
    (fun s s' n h (ht : StoreTurn usedLayers _ n s s') => h.turn ht) fun w' hl hh hs => hI w' hl
      (hh.trans held₂)
      hs.toDropping) ?_
  rintro - w₃ h₃ ⟨⟨names₃, out₃, hsweep₃, hall₃⟩, hsw₃⟩
  have held₃ := hsweep₃.held.trans held₂
  refine ensures_mono (ensures_printed (I := I) (P := fun _ w₄ => w₄ = w₃.print _ _) h₃
    ⟨hI _ hsweep₃.ready.layout held₃ hsw₃.toDropping, rfl⟩) (fun _ h => h) ?_
  rintro - w₄ - rfl
  have layers₁ (a : Bytes) : view S w₁.root .layers a = view S w₀.root .layers a :=
    hsweep₁.others _ (by simp) a
  have locks₁ (a : Bytes) : view S w₁.root .locks a = view S w₀.root .locks a :=
    hsweep₁.others _ (by simp) a
  have layers₃ (a : Bytes) : view S w₃.root .layers a = view S w₂.root .layers a :=
    hsweep₃.others _ (by simp) a
  have manifests₃ (a : Bytes) : view S w₃.root .manifests a = view S w₁.root .manifests a :=
    (hsweep₃.others _ (by simp) a).trans (hsweep₂.manifests a)
  have hasLayer₁ (a : Bytes) : (view S w₁.root).HasLayer a ↔ (view S w₀.root).HasLayer a := by
    rw [Store.HasLayer, layers₁, Store.HasLayer]
  have hasLayer₃ (a : Bytes) : (view S w₃.root).HasLayer a ↔ (view S w₂.root).HasLayer a := by
    rw [Store.HasLayer, layers₃, Store.HasLayer]
  -- what is said about a layer is said in the second sweep
  have refused (a : Bytes) {line : Msg × Option Err} (hl : line.1.fmt ≠
      "failed to prune layer {}: {}") : Refused a (out₂ ++ (out₃ ++ [line])) ↔ Refused a out₂ := by
    rw [refused_append]
    refine or_iff_left (refused_of_fmt fun line' h => ?_)
    rcases List.mem_append.mp h with h | h
    · rw [hsweep₃.about line' h]
      decide
    · rwa [List.mem_singleton.mp h]
  refine ⟨out₂ ++ (out₃ ++ [(⟨"pruned {} manifests and {} layers",
    [utf8 (toString removedManifests), utf8 (toString removedLayers)]⟩, none)]), hsurvey.readable,
    ⟨hsweep₃.ready.layout, hsweep₃.ready.temporary⟩, held₃, ?_,
    (hsweep₁.thins.trans hsweep₂.thins).trans hsweep₃.thins, fun a => ?_, hsw₃.containers,
    fun d m data hd => ?_, fun a ha => ?_, fun a ha => ?_, fun a ha => ?_, fun a m data ha => ?_⟩
  · rw [World.print, hsweep₃.lines, hsweep₂.lines,
      show w₁.lines = w₀.lines from congrArg (fun a => a.2.2) hsweep₁.aside]
    simp
  · have hl := hsweep₂.lock a
    rw [LockOr, locks₁] at hl
    rcases hsweep₃.lockOr a with h | h
    · exact .inr (.inl h)
    · rw [LockOr]
      show view S w₃.root .locks a = _ ∨ view S w₃.root .locks a = _ ∨ _
      rwa [h]
  · show (view S w₃.root .manifests _ = _ ∧ _) ∨ (view S w₃.root .manifests _ = _ ∧ _)
    rw [manifests₃, ← hsurvey.used]
    by_cases hu : d ∈ used
    · refine .inl ⟨hsweep₁.kept _ (.inr (.inr ?_)), hu⟩
      rintro ⟨d', _, _, hd', hu', -⟩
      exact hu' (manifestName_inj.mp hd' ▸ hu)
    · have hun : Unused used (view S w₀.root) (manifestName d) := ⟨d, m, data, rfl, hu, hd⟩
      exact .inr ⟨hsweep₁.gone _ (hall₁ _ hun) (by simp) hun, hu⟩
  · change view S w₃.root .manifests a ≠ none at ha
    show view S w₃.root .manifests a = _
    rw [manifests₃] at ha ⊢
    refine hsweep₁.kept a (.inr (.inr fun hun => ha (hsweep₁.gone _ (hall₁ _ hun) (by simp) hun)))
  · show (view S w₃.root .layers a = _ ∧ _) ∨ (view S w₃.root .layers a = _ ∧ _)
    rw [layers₃, refused a (by simp), ← hsurvey.layers]
    have hf := hsweep₂.fate a (hall₂ a ((hasLayer₁ a).mpr ha)) (by simp) ((hasLayer₁ a).mpr ha)
    rwa [LayerFate, layers₁, held₁] at hf
  · show view S w₃.root .layers a = _
    rw [layers₃, hsweep₂.kept a (.inr (.inr fun h => ha ((hasLayer₁ a).mp h))), layers₁]
  · change view S w₃.root .locks a = some _ at ha
    show (view S w₃.root).HasLayer a ∨ _
    have hsome : (view S w₂.root .locks a) = some (.leaf (.file m data)) :=
      ((hsweep₃.lockOr a).resolve_left (by rw [ha]; simp)).symm.trans ha
    rcases hsweep₃.fate a (hall₃ a (by rw [hsome]; rfl)) (by simp) with h | ⟨-, h⟩
    · rw [h] at ha
      cases ha
    · rw [hasLayer₃, ← held₂]
      rcases h ⟨m, data, hsome⟩ with h | h | ⟨e, he⟩
      · exact .inl h
      · exact .inr (.inl h)
      · exact .inr (.inr ⟨e, by simp [he]⟩)

/-- Where something in use cannot be read, nothing happens, and the run ends. -/
theorem ensures_prune_unreadable [StatAnswers env] (hS : PlainPlace S) (hl : Layout S w.root)
    (h : ¬ Readable env S w.root) :
    Ensures (machine env) (fun w' => w' = w) (fun _ _ => False) (prune env (storeAt S)) w ∧
      Halts (machine env) (prune env (storeAt S)) w := by
  rw [prune]
  constructor
  · refine ensures_bind (ensures_readUsedManifests hS hl rfl) ?_
    rintro used w' - ⟨rfl, hused⟩
    refine ensures_bind (ensures_readUsedLayers hused rfl) ?_
    rintro usedLayers w₀ - ⟨rfl, hsurvey⟩
    exact absurd (hsurvey inferInstance).readable h
  · refine halts_bind (halts_of_noSpin noSpin_readUsedManifests)
      (ensures_readUsedManifests (I := fun _ => True) hS hl trivial) ?_
    rintro used w' - ⟨rfl, hused⟩
    refine halts_bind (halts_of_noSpin (noSpin_readUsedLayers _))
      (ensures_readUsedLayers (I := fun _ => True) hused trivial) ?_
    rintro usedLayers w₀ - ⟨rfl, hsurvey⟩
    exact absurd (hsurvey inferInstance).readable h

/-! ## Prune again -/

theorem Pruned.agreeing (h : Pruned env S out w w') (hr : AtRest S w) :
    Agreeing w.root w'.root := by
  -- a directory of the store is a directory in both trees
  have dirs {c q : Place} {i j : Inode} (hx : Clear w.root c) (hy : Clear w'.root c)
      (hq : q <+: c) (hi : w.root.find q = some i) (hj : w'.root.find q = some j) :
      isDir i = true ∧ isDir j = true := by
    have dir {y : Node} {k : Inode} (hy : Clear y c) (hk : y.find q = some k) :
        isDir k = true := by
      rcases hy q hq with hn | hd
      · rw [find_eq_none_iff.mpr hn] at hk
        cases hk
      · obtain ⟨m, hm⟩ := dirAt_iff_find.mp hd
        rw [hm] at hk
        cases hk
        rfl
    exact ⟨dir hx hi, dir hy hj⟩
  intro q i j hi hj
  by_cases hT : temporaryPlace S <+: q
  · obtain ⟨r, rfl⟩ := hT
    cases r with
    | nil =>
      rw [List.append_nil] at hi hj
      exact .inr (dirs hr.layout.temporary h.ready.layout.temporary List.prefix_rfl hi hj)
    | cons a r =>
      rw [show temporaryPlace S ++ a :: r = temporaryPlace S ++ [a] ++ r by simp,
        find_eq_none_iff.mpr (get_append_of_none (hr.cleared a) r)] at hi
      cases hi
  by_cases htab : q <+: tablePlace S .locks
  · exact .inr (dirs (hr.layout.table _) (h.ready.layout.table _) htab hi hj)
  by_cases hlock : ∃ n, q = entryPlace S .locks n
  · obtain ⟨n, rfl⟩ := hlock
    have hl := h.lock n
    rw [LockOr, view, view] at hl
    rcases hl with hl | hl | hl
    · rw [find, hl, ← find, hi] at hj
      exact .inl (Option.some.inj hj)
    · rw [find_eq_none_iff.mpr hl] at hj
      cases hj
    · rw [find_eq_none_iff.mpr hl] at hi
      cases hi
  · rw [h.thins q hT htab (fun n he => hlock ⟨n, he⟩) j hj] at hi
    exact .inl (Option.some.inj hi).symm

/-- What prune has found in use is still in use. -/
theorem Pruned.uses (h : Pruned env S out w w') (hr : AtRest S w)
    (h' : Readable env S w'.root) {d : Bytes} (hd : Uses S w.root d) : Uses S w'.root d := by
  obtain ⟨n, ⟨m, kids, hv⟩, text, hread, -, -, rfl⟩ := hd
  have hc : (view S w'.root).HasContainer n := ⟨m, kids, (h.containers n).trans hv⟩
  obtain ⟨d', hd'⟩ := h'.digest n hc
  obtain ⟨text', hread', hvalid, hne, rfl⟩ := hd'
  cases read_agree (h.agreeing hr) hread hread'
  exact ⟨n, hc, text, hread', hvalid, hne, rfl⟩

theorem Pruned.usesLayer (h : Pruned env S out w w') (hr : AtRest S w)
    (h' : Readable env S w'.root) {n : Bytes} (hn : UsesLayer env S w.root n) :
    UsesLayer env S w'.root n := by
  obtain ⟨d, manifest, hd, ⟨bytes, hread, hm⟩, layer, hlayer, rfl⟩ := hn
  have hd' := h.uses hr h' hd
  obtain ⟨manifest', bytes', hread', hm'⟩ := h'.manifest d hd'
  cases read_agree (h.agreeing hr) hread hread'
  exact ⟨d, manifest, hd', ⟨bytes, hread', hm⟩, layer, hlayer, rfl⟩

/-- No entry is gone or changed. -/
def Store.Keeps (s s' : Store) : Prop := ∀ k n, s k n ≠ none → s' k n = s k n

theorem Store.Keeps.set_none {s s' : Store} (h : s.Keeps s') {k : Kind} (hn : s k n = none) :
    s.Keeps (s'.set k n none) := by
  intro k' a ha
  by_cases he : k' = k ∧ a = n
  · obtain ⟨rfl, rfl⟩ := he
    exact absurd hn ha
  · rw [Store.set_of_ne he]
    exact h k' a ha

theorem Store.Keeps.turn {s s₁ s₂ : Store} (h : s.Keeps s₁) (ht : StoreTurn used taken n s₁ s₂)
    (hlayer : n ∉ used → ¬ taken → ¬ s.HasLayer n)
    (hlock : ∀ m data, s .locks n = some (.leaf (.file m data)) → ¬ taken → s.HasLayer n) :
    s.Keeps s₂ := by
  have hasLayer₁ : s₁.HasLayer n → s .layers n ≠ none → s.HasLayer n := by
    rintro ⟨m, kids, hv⟩ hne
    exact ⟨m, kids, (h _ _ hne).symm.trans hv⟩
  have layers (a : Bytes) (ha : s .layers a ≠ none) : s₂ .layers a = s .layers a := by
    rcases ht.layers a with he | ⟨rfl, hu, hh, hd, -⟩
    · rw [he, h _ _ ha]
    · exact absurd (hasLayer₁ hd ha) (hlayer hu hh)
  intro k a ha
  cases k with
  | containers => rw [ht.containers, h _ _ ha]
  | manifests => rw [ht.manifests, h _ _ ha]
  | layers => exact layers a ha
  | locks =>
    by_cases hn : a = n
    · subst hn
      rcases ht.lock with he | he | ⟨⟨m, data, hf⟩, hh, hd⟩
      · rw [h _ _ ha] at he
        exact absurd he ha
      · rw [he, h _ _ ha]
      · -- the layer beside the lock is still there
        obtain ⟨m', kids, hv⟩ := hlock m data ((h _ _ ha).symm.trans hf) hh
        exact absurd ⟨m', kids, (layers a (by rw [hv]; simp)).trans hv⟩ hd
    · rw [ht.locks a hn, h _ _ ha]

/-- After a run without errors there is nothing left to remove. -/
theorem ensures_prune_again [StatAnswers env] (hS : PlainPlace S) (hr : AtRest S w)
    (h : Pruned env S out w w') (hout : ∀ line ∈ out, line.2 = none) :
    Ensures (machine env) (fun w'' => (view S w'.root).Keeps (view S w''.root))
      (fun _ _ => True) (prune env (storeAt S)) w' := by
  have h₀ : (view S w'.root).Keeps (view S w'.root) := fun _ _ _ => rfl
  have notRefused (n : Bytes) : ¬ Refused n out := fun ⟨e, he, _⟩ => by cases hout _ he
  have notStale (n : Bytes) : ¬ Stale n out := fun ⟨e, he⟩ => by cases hout _ he
  rw [prune]
  refine ensures_bind (ensures_readUsedManifests hS h.ready.layout h₀) ?_
  rintro used w₀ - ⟨rfl, hused⟩
  refine ensures_bind (ensures_readUsedLayers hused h₀) ?_
  rintro usedLayers w' - ⟨rfl, hsurvey⟩
  have hsurvey := hsurvey inferInstance
  refine ensures_bind (ensures_pruneManifests hS h.ready
    (J := (view S w'.root).Keeps) h₀ (fun _ _ _ h => h) fun s d m data hk hd hf =>
      hk.set_none ?_) ?_
  · by_contra hne
    have hv : view S w'.root .manifests (manifestName d) = some (.leaf (.file m data)) :=
      (hk _ _ hne).symm.trans hf
    rcases h.manifests d m data ((h.saved _ hne).symm.trans hv) with ⟨-, hu⟩ | ⟨hnone, -⟩
    · exact hd ((hsurvey.used d).mpr (h.uses hr hsurvey.readable hu))
    · exact hne hnone
  rintro - w₁ h₁ ⟨⟨names₁, hsweep₁, -⟩, hk₁⟩
  have held₁ : w₁.held = w.held := (congrArg Prod.fst hsweep₁.aside).trans h.held
  -- a layer that is neither in use nor locked is gone, and so is a lock file without a layer
  have turn (s s' : Store) (n : Bytes) {w₂ : World} (hheld : w₂.held = w.held)
      (hk : (view S w'.root).Keeps s)
      (ht : StoreTurn usedLayers (entryPlace S .locks n ∈ w₂.held) n s s') :
      (view S w'.root).Keeps s' := by
    rw [hheld] at ht
    refine hk.turn ht (fun hu hh hd => ?_) fun m data hf hh =>
      (h.locks n m data hf).resolve_right fun h' => h'.elim hh (notStale n)
    have hd₀ : (view S w.root).HasLayer n := by
      by_contra hd₀
      obtain ⟨m, kids, hv⟩ := hd
      exact hd₀ ⟨m, kids, (h.others n hd₀).symm.trans hv⟩
    rcases h.layers n hd₀ with ⟨-, hl | hl | hl⟩ | ⟨hnone, -⟩
    · exact hu ((hsurvey.layers n).mpr (h.usesLayer hr hsurvey.readable hl))
    · exact hh hl
    · exact notRefused n hl
    · obtain ⟨m, kids, hv⟩ := hd
      rw [hnone] at hv
      cases hv
  refine ensures_bind (ensures_pruneLayers hS hsweep₁.ready hk₁
    (fun s s' n => turn s s' n held₁) fun _ _ _ h => h) ?_
  rintro - w₂ h₂ ⟨⟨names₂, out₂, hsweep₂, -⟩, hk₂⟩
  refine ensures_bind (ensures_cleanupLayerLocks hS hsweep₂.ready hk₂
    (fun s s' n => turn s s' n (hsweep₂.held.trans held₁)) fun _ _ _ h => h) ?_
  rintro - w₃ h₃ ⟨-, hk₃⟩
  exact ensures_printed hk₃ ⟨hk₃, trivial⟩

/-! ## What prune leaves -/

/-- Prune on any store, with any lock files held, in any order and with any failures. -/
theorem prune_leaves [StatAnswers env] {res : Option (Except Err Unit)} (hS : PlainPlace S)
    (hr : AtRest S w) (hx : Exec (machine env) (prune env (storeAt S)) w res w') :
    (¬ Readable env S w.root → w' = w ∧ res ≠ some (.ok ()) ∧
      Halts (machine env) (prune env (storeAt S)) w) ∧
    (res = some (.ok ()) → ∃ out, Pruned env S out w w' ∧
      ((∀ line ∈ out, line.2 = none) → ∀ res' w'',
        Exec (machine env) (prune env (storeAt S)) w' res' w'' →
          (view S w'.root).Keeps (view S w''.root))) := by
  refine ⟨fun hn => ?_, fun hok => ?_⟩
  · obtain ⟨h, hhalts⟩ := @ensures_prune_unreadable env _ _ _ hS hr.layout hn
    obtain ⟨hw, hend⟩ := ensures_exec h hx
    exact ⟨hw, hend (), hhalts⟩
  · have hrun := @ensures_prune env (fun _ => True) _ ⟨True, True, True⟩ _ _ hS hr.toReady
      fun _ _ _ _ => trivial
    obtain ⟨out, hp⟩ := (ensures_exec hrun hx).2 () hok
    exact ⟨out, hp, fun hout res' w'' hx' =>
      (ensures_exec (ensures_prune_again hS hr hp hout) hx').1⟩

namespace LateError

/-- The store at `/s`. -/
def place : Place := [utf8 "s"]

def layer : Bytes := utf8 "sha256:ab"

/-- A store at rest, with one layer that no container uses. -/
def store : World :=
  ⟨.dir newDir [(utf8 "s", .dir newDir [
    (utf8 "layers", .dir newDir [(layer, .dir newDir [])]),
    (utf8 "temporary", .dir newDir [])])], [], [], []⟩

/-- A run of prune in which recursive removal works, or not. -/
def pruneRun (works : Bool) : Option (Except Err Unit) × World :=
  Script.replay (smallEnv []) ⟨fun _ => .error .other, fun
    | .removeDirAll _ => !works
    | _ => false⟩ (prune (smallEnv []) (storeAt place)) store

theorem exec_pruneRun (works : Bool) : Exec (machine (smallEnv []))
    (prune (smallEnv []) (storeAt place)) store (pruneRun works).1 (pruneRun works).2 :=
  Script.exec_replay _ _ _ _

theorem plain_place : PlainPlace place := by
  intro n hn
  rw [List.mem_singleton.mp hn]
  decide +kernel

theorem atRest : AtRest place store :=
  ⟨⟨layout_of_isLayout (by decide +kernel), _, _, rfl⟩, cleared_of_get rfl⟩

end LateError

namespace PartlyUsed

open TwoLayers
open FirstFetch (place)

/-- A layer that no manifest lists, and one more of which another process holds the lock. -/
def unused : Bytes := utf8 "sha256:ab"
def running : Bytes := utf8 "sha256:cd"

/-- One container, the manifest it names, one that none names, and four layers. -/
def store : World :=
  ⟨.dir newDir [(utf8 "s", .dir newDir [(utf8 "temporary", .dir newDir []),
    (utf8 "containers", .dir newDir [(utf8 "web", .dir newDir
      [(digestFile, .leaf (.file newFile manifestDigest)),
        (referenceFile, .leaf (.file newFile (prettyReference reference.serialize)))])]),
    (utf8 "manifests", .dir newDir
      [(manifestName manifestDigest, .leaf (.file newFile manifest.text)),
        (manifestName emptyManifestDigest, .leaf (.file newFile emptyManifest.text))]),
    (utf8 "layers", .dir newDir ([firstDigest, secondDigest, unused, running].map
      fun digest => (digest, .dir newDir []))),
    (utf8 "locks", .dir newDir ([unused, running].map
      fun digest => (digest, .leaf (.file newFile []))))])],
    [entryPlace place .locks running], [], []⟩

theorem atRest : AtRest place store :=
  ⟨⟨layout_of_isLayout (by decide +kernel), _, _, rfl⟩, cleared_of_get rfl⟩

def pruneRun : Option (Except Err Unit) × World :=
  (script second.text).replay twoLayers (prune twoLayers (storeAt place)) store

theorem exec_pruneRun : Exec (machine twoLayers) (prune twoLayers (storeAt place)) store
    pruneRun.1 pruneRun.2 := Script.exec_replay _ _ _ _

/-- The entries of a table that are there. -/
def left (kind : Kind) (names : List Bytes) : List Bytes :=
  names.filter fun n => (view place pruneRun.2.root kind n).isSome

/-- What the run computes. -/
structure Evaluated : Prop where
  succeeds : pruneRun.1 = some (.ok ())
  manifests : left .manifests [manifestName manifestDigest, manifestName emptyManifestDigest] =
    [manifestName manifestDigest]
  layers : left .layers [firstDigest, secondDigest, unused, running] =
    [firstDigest, secondDigest, running]
  locks : left .locks [unused, running] = [running]

theorem evaluated : Evaluated := by constructor <;> decide +kernel

end PartlyUsed

open PartlyUsed TwoLayers in
/-- What is used, and what is held, stays. -/
theorem prune_leaves_used :
    (∃ out, Pruned twoLayers FirstFetch.place out PartlyUsed.store PartlyUsed.pruneRun.2) ∧
    left .manifests [manifestName manifestDigest, manifestName emptyManifestDigest] =
      [manifestName manifestDigest] ∧
    left .layers [firstDigest, secondDigest, unused, running] =
      [firstDigest, secondDigest, running] ∧
    left .locks [unused, running] = [running] := by
  obtain ⟨out, hp, -⟩ := (prune_leaves FirstFetch.plain_place PartlyUsed.atRest
    PartlyUsed.exec_pruneRun).2
    evaluated.succeeds
  exact ⟨⟨out, hp⟩, evaluated.manifests, evaluated.layers, evaluated.locks⟩

open LateError in
/-- Removing the layer reports an error, and the layer is gone all the same. -/
theorem prune_error_after_move : ∃ w' out,
    Exec (machine (smallEnv [])) (prune (smallEnv []) (storeAt place)) store (some (.ok ())) w' ∧
    w'.lines = store.lines ++ out ∧ (view place store.root).HasLayer layer ∧
    ¬ ((view place w'.root).HasLayer layer ↔
      UsesLayer (smallEnv []) place store.root layer ∨
      entryPlace place .locks layer ∈ store.held ∨
      ∃ e, (⟨"failed to prune layer {}: {}", [layer]⟩, some e) ∈ out) := by
  have hok : (pruneRun false).1 = some (.ok ()) := by decide +kernel
  have hgone : (view place (pruneRun false).2.root .layers layer).isNone = true := by
    decide +kernel
  have herr : ((pruneRun false).2.lines.any fun line =>
      line.1 == ⟨"failed to prune layer {}: {}", [layer]⟩ && line.2.isSome) = true := by
    decide +kernel
  refine ⟨(pruneRun false).2, (pruneRun false).2.lines, hok ▸ exec_pruneRun false, rfl,
    ⟨_, _, rfl⟩, fun h => ?_⟩
  obtain ⟨⟨m, e⟩, hmem, hline⟩ := List.any_eq_true.mp herr
  rw [Bool.and_eq_true, beq_iff_eq] at hline
  obtain ⟨rfl, he⟩ := hline
  obtain ⟨e, rfl⟩ := Option.isSome_iff_exists.mp he
  obtain ⟨_, _, hv⟩ := h.mpr (.inr (.inr ⟨e, hmem⟩))
  rw [hv] at hgone
  cases hgone

end Pakstak
