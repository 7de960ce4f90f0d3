/-
  Prune: what its three sweeps leave of the store.

  A turn of the second and the third sweep is about one name: its lock file may be made or
  removed, and its layer removed if it is unused (`StoreTurn`). What is reported about the
  name says what has become of it (`LayerFate`, `LockFate`).

  Proved, for any answers of the environment (its `stat` answering), and for every state seen
  on the way:
  * `ensures_pruneManifests`: the unused manifest files go, and nothing else.
  * `ensures_pruneLayers`: a layer stays if it is used, if its lock is held, or if an error
    from before its removal was reported, and goes otherwise.
  * `ensures_cleanupLayerLocks`: no lock file of a missing layer stays unless it is held or
    an error was reported.
-/
import Pakstak.Fetching
import Pakstak.Removals
import Pakstak.Surveying

namespace Pakstak

open Posix Prog FileTree

variable {env : Env} {I : World → Prop} {S : Place} {slack : Slack} {w w' w'' : World}
  {used : List Bytes} {taken : Prop} {n : Bytes} {s s' s'' : Store}

/-! ## One turn -/

/-- What the turn of `n` may change; `taken`: another process holds its lock. -/
structure StoreTurn (used : List Bytes) (taken : Prop) (n : Bytes) (s s' : Store) : Prop where
  containers : ∀ a, s' .containers a = s .containers a
  manifests : ∀ a, s' .manifests a = s .manifests a
  layers : ∀ a, s' .layers a = s .layers a ∨
    (a = n ∧ n ∉ used ∧ ¬ taken ∧ s.HasLayer n ∧ s' .layers a = none)
  locks : ∀ a, a ≠ n → s' .locks a = s .locks a
  lock : s .locks n = none ∨ s' .locks n = s .locks n ∨
    ((∃ m data, s .locks n = some (.leaf (.file m data))) ∧ ¬ taken ∧ ¬ s'.HasLayer n)

theorem StoreTurn.refl (used : List Bytes) (taken : Prop) (n : Bytes) (s : Store) :
    StoreTurn used taken n s s :=
  ⟨fun _ => rfl, fun _ => rfl, fun _ => .inl rfl, fun _ _ => rfl, .inr (.inl rfl)⟩

theorem StoreTurn.hasLayer (h : StoreTurn used taken n s s') (hd : s'.HasLayer n) :
    s.HasLayer n := by
  obtain ⟨m, kids, hv⟩ := hd
  rcases h.layers n with he | ⟨-, -, -, hd, -⟩
  · exact ⟨m, kids, he.symm.trans hv⟩
  · exact hd

theorem StoreTurn.trans (h : StoreTurn used taken n s s') (h' : StoreTurn used taken n s' s'') :
    StoreTurn used taken n s s'' := by
  refine ⟨fun a => (h'.containers a).trans (h.containers a),
    fun a => (h'.manifests a).trans (h.manifests a), fun a => ?_,
    fun a ha => (h'.locks a ha).trans (h.locks a ha), ?_⟩
  · rcases h'.layers a with he | ⟨ha, hu, hh, hd, hnone⟩
    · rw [he]
      exact h.layers a
    · exact .inr ⟨ha, hu, hh, h.hasLayer hd, hnone⟩
  · rcases h.lock with hl | hl | ⟨hf, hh, hd⟩
    · exact .inl hl
    · have hl' := h'.lock
      rw [hl] at hl'
      exact hl'
    · exact .inr (.inr ⟨hf, hh, fun hd' => hd (h'.hasLayer hd')⟩)

theorem storeTurn_lockMade (used : List Bytes) (taken : Prop) {o : Option Node}
    (hn : s .locks n = none) : StoreTurn used taken n s (s.set .locks n o) :=
  ⟨fun _ => Store.set_of_ne_kind (by simp), fun _ => Store.set_of_ne_kind (by simp),
    fun _ => .inl (Store.set_of_ne_kind (by simp)), fun _ ha => Store.set_of_ne fun h => ha h.2,
    .inl hn⟩

theorem storeTurn_lockGone (used : List Bytes) {m : Meta} {data : Bytes}
    (hf : s .locks n = some (.leaf (.file m data))) (hh : ¬ taken) (hd : ¬ s.HasLayer n) :
    StoreTurn used taken n s (s.set .locks n none) :=
  ⟨fun _ => Store.set_of_ne_kind (by simp), fun _ => Store.set_of_ne_kind (by simp),
    fun _ => .inl (Store.set_of_ne_kind (by simp)), fun _ ha => Store.set_of_ne fun h => ha h.2,
    .inr (.inr ⟨⟨m, data, hf⟩, hh, fun ⟨m, kids, hv⟩ =>
      hd ⟨m, kids, (Store.set_of_ne_kind (by simp)).symm.trans hv⟩⟩)⟩

theorem storeTurn_layer (hn : n ∉ used) (hh : ¬ taken) (hd : s.HasLayer n) :
    StoreTurn used taken n s (s.set .layers n none) := by
  refine ⟨fun _ => Store.set_of_ne_kind (by simp), fun _ => Store.set_of_ne_kind (by simp),
    fun a => ?_, fun _ _ => Store.set_of_ne_kind (by simp),
    .inr (.inl (Store.set_of_ne_kind (by simp)))⟩
  by_cases ha : a = n
  · exact .inr ⟨ha, hn, hh, hd, ha ▸ Store.set_same ..⟩
  · exact .inl (Store.set_of_ne fun h => ha h.2)

/-- The world after a turn, before anything is printed. -/
structure Turn (S : Place) (used : List Bytes) (taken : Prop) (n : Bytes) (w w' : World) :
    Prop where
  turn : StoreTurn used taken n (view S w.root) (view S w'.root)
  ready : Ready S w'
  aside : w'.aside = w.aside
  thins : Thins S w.root w'.root

theorem Turn.refl (hr : Ready S w) : Turn S used taken n w w := ⟨.refl .., hr, rfl, .refl _ _⟩

theorem Turn.trans (h : Turn S used taken n w w') (h' : Turn S used taken n w' w'') :
    Turn S used taken n w w'' :=
  ⟨h.turn.trans h'.turn, h'.ready, h'.aside.trans h.aside, h.thins.trans h'.thins⟩

theorem Turn.held (h : Turn S used taken n w w') : w'.held = w.held := congrArg Prod.fst h.aside

theorem Turn.lines (h : Turn S used taken n w w') : w'.lines = w.lines :=
  congrArg (fun a => a.2.2) h.aside

theorem LockKept.turn (h : LockKept S n w w') (hr : Ready S w) : Turn S used taken n w w' := by
  refine ⟨?_, h.ready hr, h.aside, h.thins⟩
  rcases h.contents with h | ⟨hn, h⟩
  · rw [h.view]
    exact .refl ..
  · rw [h.view]
    exact storeTurn_lockMade used taken hn

theorem Idle.turn (h : Idle S w w') : Turn S used taken n w w' :=
  ⟨by rw [h.still.view]; exact .refl .., h.ready, h.still.aside, h.thins⟩

theorem Gone.turn_layer (hn : n ∉ used) (hh : ¬ taken) (hd : (view S w.root).HasLayer n)
    (h : Gone S .layers n w w') : Turn S used taken n w w' :=
  ⟨by rw [h.becomes.view]; exact storeTurn_layer hn hh hd, h.ready, h.becomes.aside, h.thins⟩

theorem Gone.turn_lock {l : Leaf} (hr : Ready S w)
    (hf : w.root.find (entryPlace S .locks n) = some (.inl l)) (hh : ¬ taken)
    (hd : ¬ (view S w.root).HasLayer n) (h : Gone S .locks n w w') : Turn S used taken n w w' := by
  obtain ⟨m, data, hv⟩ : ∃ m data, view S w.root .locks n = some (.leaf (.file m data)) := by
    obtain ⟨u, hu, hl⟩ := find_eq_some_iff.mp hf
    match u, l with
    | .leaf (.file m data), _ => exact ⟨m, data, hu⟩
    | .leaf (.symlink t), _ =>
      cases hl
      exact absurd hf (hr.layout.entry .locks n t)
    | .dir m kids, _ => cases hl
  exact ⟨by rw [h.becomes.view]; exact storeTurn_lockGone used hv hh hd, h.ready,
    h.becomes.aside, h.thins⟩

/-- A lock file is as it was, or gone, or new. -/
def LockOr (s s' : Store) (n : Bytes) : Prop :=
  s' .locks n = s .locks n ∨ s' .locks n = none ∨ s .locks n = none

theorem LockKept.lock (h : LockKept S n w w') : LockOr (view S w.root) (view S w'.root) n := by
  rcases h.contents with h | ⟨hn, -⟩
  · exact .inl (by rw [h.view])
  · exact .inr (.inr hn)

/-! ## Reports -/

/-- An error of removing the layer `n` that comes after it has been moved away. -/
def Late (n : Bytes) (e : Err) : Prop :=
  (∃ args e', e = .context ⟨"failed to remove layer lock file {}", args⟩ e') ∨
  ∃ e', e = .context ⟨"failed to prune layer {}", [n]⟩
    (.context ⟨"failed to remove layer {}", [n]⟩ e') ∧ FromTemporary e'

/-- Locking the layer `n`, or making room for it and moving it there, reported an error. -/
def Refused (n : Bytes) (lines : List (Msg × Option Err)) : Prop :=
  ∃ e, (⟨"failed to prune layer {}: {}", [n]⟩, some e) ∈ lines ∧ ¬ Late n e

/-- Removing the lock of a missing layer `n` reported an error. -/
def Stale (n : Bytes) (lines : List (Msg × Option Err)) : Prop :=
  ∃ e, (⟨"failed to remove stale layer lock {}: {}", [n]⟩, some e) ∈ lines

theorem not_late_of_fromLock {e : Err} (h : FromLock e) : ¬ Late n e := by
  obtain ⟨m, e', rfl, hm⟩ := h
  rintro (⟨_, _, h⟩ | ⟨_, h, -⟩) <;> cases h <;> simp at hm

/-- What has become of a layer in its turn, given the lines printed. -/
def LayerFate (S : Place) (used : List Bytes) (n : Bytes) (lines : List (Msg × Option Err))
    (w w' : World) : Prop :=
  (view S w'.root .layers n = view S w.root .layers n ∧
    (n ∈ used ∨ entryPlace S .locks n ∈ w.held ∨ Refused n lines)) ∨
  (view S w'.root .layers n = none ∧ n ∉ used ∧ entryPlace S .locks n ∉ w.held ∧
    ¬ Refused n lines)

/-- A turn on `n`, and the lines printed about it. -/
structure Turned (S : Place) (used : List Bytes) (n : Bytes) (out : List (Msg × Option Err))
    (w w' : World) : Prop where
  turn : StoreTurn used (entryPlace S .locks n ∈ w.held) n (view S w.root) (view S w'.root)
  ready : Ready S w'
  held : w'.held = w.held
  thins : Thins S w.root w'.root
  lock : LockOr (view S w.root) (view S w'.root) n
  lines : w'.lines = w.lines ++ out
  about : ∀ line ∈ out, line.1.args = [n]

theorem Turn.turned (h : Turn S used (entryPlace S .locks n ∈ w.held) n w w')
    (hl : LockOr (view S w.root) (view S w'.root) n) :
    Turned S used n [] w w' :=
  ⟨h.turn, h.ready, h.held, h.thins, hl, by rw [h.lines, List.append_nil], by simp⟩

theorem Turn.printed {m : Msg} {e : Option Err}
    (h : Turn S used (entryPlace S .locks n ∈ w.held) n w w')
    (hl : LockOr (view S w.root) (view S w'.root) n) (hm : m.args = [n]) :
    Turned S used n [(m, e)] w (w'.print m e) :=
  ⟨h.turn, ⟨h.ready.layout, h.ready.temporary⟩, h.held, h.thins, hl,
    by rw [World.print, h.lines], by simp [hm]⟩

/-! ## The turn of a layer -/

section

variable (hS : PlainPlace S) (hr : Ready S w) (hn : Plain n)
  (hI : ∀ w', Layout S w'.root → w'.held = w.held →
    StoreTurn used (entryPlace S .locks n ∈ w.held) n (view S w.root) (view S w'.root) → I w')
include hS hr hn hI

theorem ensures_pruneLayer {removed : Nat} (hdir : (view S w.root).HasLayer n) :
    Ensures (machine env) I
      (fun _ w' => ∃ l, Turned S used n l w w' ∧ LayerFate S used n l w w')
      (pruneLayer env (storeAt S) used removed n) w := by
  have seen {w' : World} (h : Turn S used (entryPlace S .locks n ∈ w.held) n w w') : I w' :=
    hI w' h.ready.layout h.held h.turn
  have print {w₁ : World} {m : Msg} {e : Option Err} (h₁ : I w₁)
      (hp : Turned S used n [(m, e)] w (w₁.print m e))
      (hf : LayerFate S used n [(m, e)] w (w₁.print m e)) :
      Ensures (machine env) I
        (fun _ w' => ∃ l, Turned S used n l w w' ∧ LayerFate S used n l w w')
        (do let _ ← (Prog.call (Op.eprintln m e) : M Unit); return removed) w₁ :=
    ensures_bind (P := fun _ w₂ => w₂ = w₁.print m e)
      (ensures_printed h₁ ⟨hI _ hp.ready.layout hp.held hp.turn, rfl⟩)
      fun _ w₂ h₂ h => ensures_ok h₂ ⟨_, h ▸ hp, h ▸ hf⟩
  rw [pruneLayer]
  split
  · rename_i hu
    exact ensures_ok (seen (.refl hr))
      ⟨[], (Turn.refl hr).turned (.inl rfl), .inl ⟨rfl, .inl (List.contains_iff_mem.mp hu)⟩⟩
  rename_i hu
  have hu : n ∉ used := fun h => hu (List.contains_iff_mem.mpr h)
  refine ensures_bind (ensures_lockLayerForPrune hS hn hr.layout fun w' h => seen (h.turn hr)) ?_
  rintro r w₁ h₁ ⟨hk₁, hlock⟩
  have ht₁ : Turn S used (entryPlace S .locks n ∈ w.held) n w w₁ := hk₁.turn hr
  have same₁ : view S w₁.root .layers n = view S w.root .layers n := by
    rcases hk₁.contents with h | ⟨-, h⟩ <;> rw [h.view]
    exact Store.set_of_ne_kind (by simp)
  split
  · -- the lock is ours
    obtain ⟨rfl, hheld, hd₁, l, hf₁⟩ := hlock
    have hdir₁ : (view S w₁.root).HasLayer n := by
      obtain ⟨m, kids, hv⟩ := hdir
      exact ⟨m, kids, same₁.trans hv⟩
    have layerGone {w₂ : World} (h : Gone S .layers n w₁ w₂) :
        Turn S used (entryPlace S .locks n ∈ w.held) n w w₂ :=
      ht₁.trans (h.turn_layer hu hheld hdir₁)
    have lockGone {w₂ w₃ : World} (h : Gone S .layers n w₁ w₂) (h' : Gone S .locks n w₂ w₃) :
        Turn S used (entryPlace S .locks n ∈ w.held) n w w₃ := by
      have hnone : view S w₂.root .layers n = none := by rw [h.becomes.view, Store.set_same]
      refine (layerGone h).trans (h'.turn_lock (l := l) h.ready ?_ hheld fun hlayer => ?_)
      · have hv : view S w₂.root .locks n = view S w₁.root .locks n := by
          rw [h.becomes.view, Store.set_of_ne_kind (by simp)]
        rw [view, view] at hv
        rw [find, hv]
        exact hf₁
      · obtain ⟨_, _, hv⟩ := hlayer
        rw [hnone] at hv
        cases hv
    refine ensures_bind (ensures_attempt_onOk
      (P := fun _ w' => ∃ w₂, Gone S .layers n w₁ w₂ ∧ Gone S .locks n w₂ w')
      (H := fun e w' => (¬ Late n e ∧ Idle S w₁ w') ∨ (Late n e ∧ Gone S .layers n w₁ w')) ?_) ?_
    · refine ends_bind (P := fun _ w₂ => Gone S .layers n w₁ w₂) (ends_mapError.mpr
        (ends_mono (ends_removeLayer hS ht₁.ready hn (fun w' h => seen (ht₁.trans h.turn))
          fun w' h => seen (layerGone h)) (fun _ h => h) (fun _ _ _ h => h.1) ?_)) ?_
      · rintro e w₂ - ⟨e', rfl, ⟨he, h⟩ | ⟨he, h⟩⟩
        · refine .inl ⟨?_, h⟩
          rintro (⟨_, _, h⟩ | ⟨_, h, h'⟩)
          · simp at h
          · cases h
            exact he h'
        · exact .inr ⟨.inr ⟨e', rfl, he⟩, h⟩
      · rintro - w₂ h₂ hg₂
        refine ends_mono (ends_removeLockFile hS hn hg₂.ready h₂ fun w' h =>
          seen (lockGone hg₂ h)) (fun _ h => h)
          (fun _ w' _ h => ⟨w₂, hg₂, h.1⟩) ?_
        rintro e w' - ⟨he, rfl⟩
        exact .inr ⟨.inl he, hg₂⟩
    rintro r w₂ h₂ hout
    have gone {w₃ : World} (h : Gone S .layers n w₁ w₃) : view S w₃.root .layers n = none := by
      rw [h.becomes.view, Store.set_same]
    have lock₃ {w₃ : World} (h : view S w₃.root .locks n = view S w₁.root .locks n) :
        LockOr (view S w.root) (view S w₃.root) n := by
      rw [LockOr, h]
      exact hk₁.lock
    split
    · rename_i e
      rcases hout with ⟨he, h⟩ | ⟨he, h⟩
      · have ht₂ : Turn S used (entryPlace S .locks n ∈ w.held) n w w₂ := ht₁.trans h.turn
        have hp := ht₂.printed (m := ⟨"failed to prune layer {}: {}", [n]⟩) (e := some e)
          (lock₃ (by rw [h.still.view])) rfl
        exact print h₂ hp (.inl ⟨(congrFun (congrFun h.still.view _) _).trans same₁,
          .inr (.inr ⟨e, by simp, he⟩)⟩)
      · have ht₂ := layerGone h
        have hp := ht₂.printed (m := ⟨"failed to prune layer {}: {}", [n]⟩) (e := some e)
          (lock₃ (by rw [h.becomes.view, Store.set_of_ne_kind (by simp)])) rfl
        refine print h₂ hp (.inr ⟨show view S w₂.root .layers n = none from gone h, hu, hheld, ?_⟩)
        rintro ⟨e', hmem, he'⟩
        cases List.mem_singleton.mp hmem
        exact he' he
    · obtain ⟨w₃, h₃, h₄⟩ := hout
      have ht₂ := lockGone h₃ h₄
      refine ensures_ok h₂ ⟨[], ht₂.turned (.inr (.inl (by rw [h₄.becomes.view, Store.set_same]))),
        .inr ⟨?_, hu, hheld, by rintro ⟨_, h, -⟩; cases h⟩⟩
      rw [h₄.becomes.view, Store.set_of_ne_kind (by simp), gone h₃]
  · -- another process holds the lock
    have hp := ht₁.printed (m := ⟨"failed to prune layer {}: layer is locked", [n]⟩) (e := none)
      hk₁.lock rfl
    exact print h₁ hp (.inl ⟨same₁, .inr (.inl hlock)⟩)
  · rename_i e
    have hp := ht₁.printed (m := ⟨"failed to prune layer {}: {}", [n]⟩) (e := some e) hk₁.lock rfl
    exact print h₁ hp (.inl ⟨same₁, .inr (.inr ⟨e, by simp, not_late_of_fromLock hlock⟩)⟩)

/-- The turn of a lock file. -/
theorem ensures_cleanupLayerLock [StatAnswers env] (hsome : (view S w.root .locks n).isSome) :
    Ensures (machine env) I
      (fun _ w' => ∃ l, Turned S used n l w w' ∧
        (∀ a, view S w'.root .layers a = view S w.root .layers a) ∧
        (∀ line ∈ l, line.1.fmt = "failed to remove stale layer lock {}: {}") ∧
        ((view S w'.root .locks n = view S w.root .locks n ∧ ((view S w.root).HasLayer n ∨
          entryPlace S .locks n ∈ w.held ∨ Stale n l)) ∨ view S w'.root .locks n = none))
      (cleanupLayerLock (storeAt S) n) w := by
  have seen {w' : World} (h : Turn S used (entryPlace S .locks n ∈ w.held) n w w') : I w' :=
    hI w' h.ready.layout h.held h.turn
  rw [cleanupLayerLock]
  refine ensures_bind (ensures_getLayerPath (seen (.refl hr))) ?_
  rintro o w' - ⟨rfl, ⟨rfl, hl⟩ | ⟨rfl, hno⟩⟩
  · exact ensures_ok (seen (.refl hr)) ⟨[], (Turn.refl hr).turned (.inl rfl), fun _ => rfl, by simp,
      .inl ⟨rfl, .inl ((hasLayer_iff hS hr.layout hn).mp hl)⟩⟩
  have hmissing : ¬ (view S w'.root).HasLayer n := fun h => by
    have hd := hno inferInstance
    rw [(hasLayer_iff hS hr.layout hn).mpr h] at hd
    cases hd
  refine ensures_bind (ensures_lockLayerForPrune hS hn hr.layout fun w' h => seen (h.turn hr)) ?_
  rintro r w₁ h₁ ⟨hk₁, hlock⟩
  have ht₁ : Turn S used (entryPlace S .locks n ∈ w'.held) n w' w₁ := hk₁.turn hr
  -- the file was there, so nothing has been made
  have same₁ : view S w₁.root = view S w'.root := by
    rcases hk₁.contents with h | ⟨h, -⟩
    · exact h.view
    · rw [h] at hsome
      cases hsome
  have layers₁ (a : Bytes) : view S w₁.root .layers a = view S w'.root .layers a := by rw [same₁]
  split
  · obtain ⟨rfl, hheld, hd₁, l, hf₁⟩ := hlock
    have lockGone {w₂ : World} (h : Gone S .locks n w₁ w₂) :
        Turn S used (entryPlace S .locks n ∈ w'.held) n w' w₂ :=
      ht₁.trans (h.turn_lock ht₁.ready hf₁ hheld (same₁ ▸ hmissing))
    refine ensures_bind (ensures_attempt_onOk (P := fun _ w₂ => Gone S .locks n w₁ w₂)
      (H := fun _ w₂ => w₂ = w₁) (ends_mapError.mpr (ends_mono
        (ends_removeLockFile hS hn ht₁.ready h₁ fun w₂ h => seen (lockGone h)) (fun _ h => h)
        (fun _ _ _ h => h.1) fun _ _ _ h => h.2))) ?_
    rintro r w₂ h₂ hout
    split
    · rename_i e
      obtain rfl := hout
      have hp := ht₁.printed (m := ⟨"failed to remove stale layer lock {}: {}", [n]⟩)
        (e := some e) hk₁.lock rfl
      refine ensures_mono (ensures_printed (I := I) (P := fun _ w₃ => w₃ = w₂.print _ _) h₂
        ⟨hI _ hp.ready.layout hp.held hp.turn, rfl⟩) (fun _ h => h) ?_
      rintro - w₃ - rfl
      exact ⟨_, hp, layers₁, by simp, .inl ⟨congrFun (congrFun same₁ _) _,
        .inr (.inr ⟨e, by simp⟩)⟩⟩
    · have hg : Gone S .locks n w₁ w₂ := hout
      have hnone : view S w₂.root .locks n = none := by rw [hg.becomes.view, Store.set_same]
      refine ensures_ok h₂ ⟨[], (lockGone hg).turned (.inr (.inl hnone)), fun a => ?_,
        by simp, .inr hnone⟩
      rw [hg.becomes.view, Store.set_of_ne_kind (by simp), layers₁]
  · exact ensures_ok h₁ ⟨[], ht₁.turned hk₁.lock, layers₁, by simp,
      .inl ⟨congrFun (congrFun same₁ _) _, .inr (.inl hlock)⟩⟩
  · rename_i e
    have hp := ht₁.printed (m := ⟨"failed to remove stale layer lock {}: {}", [n]⟩)
      (e := some e) hk₁.lock rfl
    refine ensures_mono (ensures_printed (I := I) (P := fun _ w₃ => w₃ = w₁.print _ _) h₁
      ⟨hI _ hp.ready.layout hp.held hp.turn, rfl⟩) (fun _ h => h) ?_
    rintro - w₃ - rfl
    exact ⟨_, hp, layers₁, by simp, .inl ⟨congrFun (congrFun same₁ _) _, .inr (.inr ⟨e, by simp⟩)⟩⟩

end

/-! ## The sweep of the manifests -/

/-- A manifest file whose digest is not in use. -/
def Unused (used : List Bytes) (s : Store) (a : Bytes) : Prop :=
  ∃ d m data, a = manifestName d ∧ d ∉ used ∧ s .manifests a = some (.leaf (.file m data))

/-- The names `rest` are still to be done. -/
structure ManifestSweep (S : Place) (used names rest : List Bytes) (w w' : World) : Prop where
  ready : Ready S w'
  aside : w'.aside = w.aside
  thins : Thins S w.root w'.root
  others : ∀ k, k ≠ .manifests → ∀ a, view S w'.root k a = view S w.root k a
  gone : ∀ a ∈ names, a ∉ rest → Unused used (view S w.root) a → view S w'.root .manifests a = none
  kept : ∀ a, a ∈ rest ∨ a ∉ names ∨ ¬ Unused used (view S w.root) a →
    view S w'.root .manifests a = view S w.root .manifests a

theorem ManifestSweep.skip {names rest : List Bytes} {a : Bytes}
    (h : ManifestSweep S used names (a :: rest) w w') (ha : ¬ Unused used (view S w.root) a) :
    ManifestSweep S used names rest w w' := by
  refine ⟨h.ready, h.aside, h.thins, h.others, fun b hb hr hu => ?_, fun b hb => h.kept b ?_⟩
  · refine h.gone b hb (fun hm => ?_) hu
    rcases List.mem_cons.mp hm with rfl | hm
    · exact ha hu
    · exact hr hm
  · exact hb.imp_left (List.mem_cons_of_mem a)

theorem ManifestSweep.drop {names rest : List Bytes} {a : Bytes}
    (h : ManifestSweep S used names (a :: rest) w w') (hn : (a :: rest).Nodup) (ha : a ∈ names)
    (hu : Unused used (view S w.root) a) (hg : Gone S .manifests a w' w'') :
    ManifestSweep S used names rest w w'' := by
  refine ⟨hg.ready, hg.becomes.aside.trans h.aside, h.thins.trans hg.thins, fun k hk b => ?_,
    fun b hb hr hub => ?_, fun b hb => ?_⟩
  · rw [hg.becomes.view, Store.set_of_ne_kind hk, h.others k hk b]
  · rw [hg.becomes.view]
    by_cases hba : b = a
    · rw [hba, Store.set_same]
    · rw [Store.set_of_ne fun h => hba h.2]
      exact h.gone b hb (by simp [hba, hr]) hub
  · have hba : b ≠ a := by
      rintro rfl
      rcases hb with hb | hb | hb
      · exact (List.nodup_cons.mp hn).1 hb
      · exact hb ha
      · exact hb hu
    rw [hg.becomes.view, Store.set_of_ne fun h => hba h.2]
    exact h.kept b (hb.imp_left (List.mem_cons_of_mem a))

section

variable {J : Store → Prop} (hS : PlainPlace S) (hr : Ready S w) (hJ : J (view S w.root))
  (hI : ∀ w', Layout S w'.root → w'.held = w.held → J (view S w'.root) → I w')
include hS hr hJ hI

/-- The invariant `J` of the contents is that of the caller. -/
theorem ensures_pruneManifests [StatAnswers env]
    (hJ' : ∀ s d m data, J s → d ∉ used →
      s .manifests (manifestName d) = some (.leaf (.file m data)) →
      J (s.set .manifests (manifestName d) none)) :
    Ensures (machine env) I
      (fun _ w' => (∃ names, ManifestSweep S used names [] w w' ∧
        ∀ a, Unused used (view S w.root) a → a ∈ names) ∧ J (view S w'.root))
      (pruneManifests (storeAt S) used) w := by
  have h₀ := hI w hr.layout rfl hJ
  rw [pruneManifests]
  refine ensures_bind (ensures_readManifestDigests hS hr.layout h₀) ?_
  rintro it w' - ⟨rfl, hlist, hitem⟩
  refine ensures_mono (ensures_tryFold (K := fun _ rest w₁ =>
      ManifestSweep S used it.listing.names rest w' w₁ ∧ J (view S w₁.root) ∧ rest.Nodup ∧
      ∀ a ∈ rest, a ∈ it.listing.names)
    (fun _ _ w₁ h => hI w₁ h.1.ready.layout (congrArg Prod.fst h.1.aside) h.2.1) ?_
    ⟨⟨hr, rfl, .refl _ _, fun _ _ _ => rfl, fun a h h' => absurd h h', fun _ _ => rfl⟩, hJ,
      hlist.nodup, fun _ h => h⟩) (fun _ h => h) ?_
  · rintro removed name rest w₁ ⟨hk, hJ₁, hnodup, hmem⟩
    have h₁ := hI w₁ hk.ready.layout (congrArg Prod.fst hk.aside) hJ₁
    have hname := hmem name (by simp)
    have hplain := (hlist.sound name hname).2
    have hmem' : ∀ a ∈ rest, a ∈ it.listing.names := fun a ha => hmem a (by simp [ha])
    have same := hk.kept name (.inl (by simp))
    rw [hitem]
    refine ensures_bind (ensures_withContext.mpr (ensures_fileItem hS hk.ready.layout hplain h₁
      (ensures_readManifestName h₁))) ?_
    rintro o w₂ - ⟨rfl, ⟨d, rfl, hd, m, data, hv⟩ | ⟨rfl, hv⟩⟩
    · dsimp only
      split
      · rename_i hu
        refine ensures_ok h₁ ⟨hk.skip ?_, hJ₁, (List.nodup_cons.mp hnodup).2, hmem'⟩
        rintro ⟨d', _, _, hd', hu', -⟩
        rw [hd, manifestName_inj] at hd'
        exact hu' (hd' ▸ List.contains_iff_mem.mp hu)
      · rename_i hu
        have hu : d ∉ used := fun h => hu (List.contains_iff_mem.mpr h)
        have gone {w' : World} (h : Gone S .manifests (manifestName d) w₂ w') :
            J (view S w'.root) := h.becomes.view ▸ hJ' _ d m data hJ₁ hu (hd ▸ hv)
        refine ensures_bind (ensures_withContext.mpr (ensures_removeManifest hS hk.ready
          (hd ▸ hplain) (fun w' h => hI w' h.still.layout
            ((congrArg Prod.fst h.still.aside).trans (congrArg Prod.fst hk.aside))
            (h.still.view ▸ hJ₁)) fun w' h => hI w' h.becomes.layout
            ((congrArg Prod.fst h.becomes.aside).trans (congrArg Prod.fst hk.aside)) (gone h))) ?_
        rintro - w₃ h₃ ⟨hg, -⟩
        exact ensures_ok h₃ ⟨hk.drop hnodup hname ⟨d, m, data, hd, hu, same ▸ hv⟩ (hd ▸ hg),
          gone hg, (List.nodup_cons.mp hnodup).2, hmem'⟩
    · refine ensures_ok h₁ ⟨hk.skip ?_, hJ₁, (List.nodup_cons.mp hnodup).2, hmem'⟩
      rintro ⟨_, m, data, -, -, hf⟩
      exact hv inferInstance ⟨m, data, same.trans hf⟩
  · rintro removed w₁ - ⟨⟨hk, hJ₁, -, -⟩, hb⟩
    refine ⟨⟨_, hk, fun a ha => ?_⟩, hJ₁⟩
    obtain ⟨_, _, _, -, -, hv⟩ := ha
    exact hlist.whole hb a (by rw [hv]; rfl)

end

/-! ## The sweep of the layers -/

theorem refused_append {n : Bytes} {l l' : List (Msg × Option Err)} :
    Refused n (l ++ l') ↔ Refused n l ∨ Refused n l' := by
  constructor
  · rintro ⟨e, he, hl⟩
    rcases List.mem_append.mp he with he | he
    · exact .inl ⟨e, he, hl⟩
    · exact .inr ⟨e, he, hl⟩
  · rintro (⟨e, he, hl⟩ | ⟨e, he, hl⟩)
    · exact ⟨e, List.mem_append_left _ he, hl⟩
    · exact ⟨e, List.mem_append_right _ he, hl⟩

theorem not_refused {n : Bytes} {l : List (Msg × Option Err)}
    (h : ∀ line ∈ l, line.1.args ≠ [n]) : ¬ Refused n l :=
  fun ⟨_, he, _⟩ => h _ he rfl

/-- The names `rest` are still to be done. -/
structure LayerSweep (S : Place) (used names rest : List Bytes) (out : List (Msg × Option Err))
    (w w' : World) : Prop where
  ready : Ready S w'
  held : w'.held = w.held
  thins : Thins S w.root w'.root
  lines : w'.lines = w.lines ++ out
  about : ∀ line ∈ out, ∃ a ∈ names, a ∉ rest ∧ line.1.args = [a]
  containers : ∀ a, view S w'.root .containers a = view S w.root .containers a
  manifests : ∀ a, view S w'.root .manifests a = view S w.root .manifests a
  kept : ∀ a, a ∈ rest ∨ a ∉ names ∨ ¬ (view S w.root).HasLayer a →
    view S w'.root .layers a = view S w.root .layers a
  fate : ∀ a ∈ names, a ∉ rest → (view S w.root).HasLayer a → LayerFate S used a out w w'
  locks : ∀ a ∈ rest, view S w'.root .locks a = view S w.root .locks a
  lock : ∀ a, LockOr (view S w.root) (view S w'.root) a

theorem LayerSweep.skip {names rest : List Bytes} {out : List (Msg × Option Err)} {a : Bytes}
    (h : LayerSweep S used names (a :: rest) out w w') (ha : ¬ (view S w.root).HasLayer a) :
    LayerSweep S used names rest out w w' := by
  refine ⟨h.ready, h.held, h.thins, h.lines, fun line hl => ?_, h.containers, h.manifests,
    fun b hb => h.kept b (hb.imp_left (List.mem_cons_of_mem a)), fun b hb hr hd => ?_,
    fun b hb => h.locks b (List.mem_cons_of_mem a hb), h.lock⟩
  · obtain ⟨b, hb, hr, he⟩ := h.about line hl
    exact ⟨b, hb, fun hm => hr (List.mem_cons_of_mem a hm), he⟩
  · refine h.fate b hb (fun hm => ?_) hd
    rcases List.mem_cons.mp hm with rfl | hm
    · exact ha hd
    · exact hr hm

theorem LayerSweep.turned {names rest : List Bytes} {out l : List (Msg × Option Err)} {a : Bytes}
    (h : LayerSweep S used names (a :: rest) out w w') (hn : (a :: rest).Nodup) (ha : a ∈ names)
    (hd : (view S w.root).HasLayer a) (ht : Turned S used a l w' w'')
    (hf : LayerFate S used a l w' w'') : LayerSweep S used names rest (out ++ l) w w'' := by
  have hrest := (List.nodup_cons.mp hn).1
  have layer {b : Bytes} (hb : b ≠ a) :
      view S w''.root .layers b = view S w'.root .layers b :=
    (ht.turn.layers b).resolve_right fun h => hb h.1
  have same := h.kept a (.inl (by simp))
  -- nothing has been printed about `a` before, and nothing about another name now
  have before : ¬ Refused a out := not_refused fun line hl => by
    obtain ⟨b, -, hr, he⟩ := h.about line hl
    rw [he]
    rintro hba
    exact hr (by simp [List.cons.inj hba])
  have after {b : Bytes} (hb : b ≠ a) : ¬ Refused b l := not_refused fun line hl => by
    rw [ht.about line hl]
    rintro hba
    exact hb (List.cons.inj hba).1.symm
  refine ⟨ht.ready, ht.held.trans h.held, h.thins.trans ht.thins,
    by rw [ht.lines, h.lines, List.append_assoc], fun line hl => ?_,
    fun b => (ht.turn.containers b).trans (h.containers b),
    fun b => (ht.turn.manifests b).trans (h.manifests b), fun b hb => ?_, fun b hb hr hd' => ?_,
    fun b hb => ?_, fun b => ?_⟩
  · rcases List.mem_append.mp hl with hl | hl
    · obtain ⟨b, hb, hr, he⟩ := h.about line hl
      exact ⟨b, hb, fun hm => hr (List.mem_cons_of_mem a hm), he⟩
    · exact ⟨a, ha, hrest, ht.about line hl⟩
  · have hba : b ≠ a := by
      rintro rfl
      rcases hb with hb | hb | hb
      · exact hrest hb
      · exact hb ha
      · exact hb hd
    rw [layer hba]
    exact h.kept b (hb.imp_left (List.mem_cons_of_mem a))
  · by_cases hba : b = a
    · subst hba
      rw [LayerFate] at hf ⊢
      rw [refused_append, ← same, ← h.held]
      simpa [before] using hf
    · have hfate := h.fate b hb (by simp [hba, hr]) hd'
      rw [LayerFate] at hfate ⊢
      rw [layer hba, refused_append]
      simpa [after hba] using hfate
  · have hba : b ≠ a := fun he => hrest (he ▸ hb)
    rw [ht.turn.locks b hba]
    exact h.locks b (List.mem_cons_of_mem a hb)
  · by_cases hba : b = a
    · have hl := ht.lock
      rw [← hba, LockOr, h.locks b (by simp [hba])] at hl
      exact hl
    · rw [LockOr, ht.turn.locks b hba]
      exact h.lock b

section

variable {J : Store → Prop} (hS : PlainPlace S) (hr : Ready S w) (hJ : J (view S w.root))
  (hJ' : ∀ s s' n, J s → StoreTurn used (entryPlace S .locks n ∈ w.held) n s s' → J s')
  (hI : ∀ w', Layout S w'.root → w'.held = w.held → J (view S w'.root) → I w')
include hS hr hJ hJ' hI

theorem ensures_pruneLayers [StatAnswers env] :
    Ensures (machine env) I
      (fun _ w' => (∃ names out, LayerSweep S used names [] out w w' ∧
        ∀ a, (view S w.root).HasLayer a → a ∈ names) ∧ J (view S w'.root))
      (pruneLayers env (storeAt S) used) w := by
  have h₀ := hI w hr.layout rfl hJ
  rw [pruneLayers]
  refine ensures_bind (ensures_readLayerDigests hS hr.layout h₀) ?_
  rintro it w' - ⟨rfl, hlist, hitem⟩
  refine ensures_mono (ensures_tryFold (K := fun _ rest w₁ =>
      (∃ out, LayerSweep S used it.listing.names rest out w' w₁) ∧ J (view S w₁.root) ∧
      rest.Nodup ∧ ∀ a ∈ rest, a ∈ it.listing.names)
    (fun _ _ w₁ h => by
      obtain ⟨out, h'⟩ := h.1
      exact hI w₁ h'.ready.layout h'.held h.2.1) ?_
    ⟨⟨[], hr, rfl, .refl _ _, by simp, by simp, fun _ => rfl, fun _ => rfl, fun _ _ => rfl,
      fun a h h' => absurd h h', fun _ _ => rfl, fun _ => .inl rfl⟩, hJ, hlist.nodup,
      fun _ h => h⟩) (fun _ h => h) ?_
  · rintro removed name rest w₁ ⟨⟨out, hk⟩, hJ₁, hnodup, hmem⟩
    have h₁ := hI w₁ hk.ready.layout hk.held hJ₁
    have hname := hmem name (by simp)
    have hplain := (hlist.sound name hname).2
    have hmem' : ∀ a ∈ rest, a ∈ it.listing.names := fun a ha => hmem a (by simp [ha])
    have same := hk.kept name (.inl (by simp))
    rw [hitem]
    refine ensures_bind (ensures_withContext.mpr
      (ensures_dirItem hS hk.ready.layout hplain h₁)) ?_
    rintro o w₂ - ⟨rfl, ⟨rfl, m, kids, hv⟩ | ⟨rfl, hv⟩⟩
    · refine ensures_mono (ensures_pruneLayer hS hk.ready hplain (fun w' hl hheld ht =>
        hI w' hl (hheld.trans hk.held) (hJ' _ _ _ hJ₁ (hk.held ▸ ht))) ⟨m, kids, hv⟩)
        (fun _ h => h) ?_
      rintro - w₃ - ⟨l, ht, hf⟩
      exact ⟨⟨_, hk.turned hnodup hname ⟨m, kids, same ▸ hv⟩ ht hf⟩,
        hJ' _ _ _ hJ₁ (hk.held ▸ ht.turn),
        (List.nodup_cons.mp hnodup).2, hmem'⟩
    · refine ensures_ok h₁ ⟨⟨out, hk.skip ?_⟩, hJ₁, (List.nodup_cons.mp hnodup).2, hmem'⟩
      rintro ⟨m, kids, h⟩
      exact hv inferInstance ⟨m, kids, same.trans h⟩
  · rintro removed w₁ - ⟨⟨⟨out, hk⟩, hJ₁, -, -⟩, hb⟩
    refine ⟨⟨_, out, hk, ?_⟩, hJ₁⟩
    rintro a ⟨m, kids, hv⟩
    exact hlist.whole hb a (by rw [hv]; rfl)

end

/-! ## The sweep of the lock files -/

/-- The names `rest` are still to be done. -/
structure LockSweep (S : Place) (names rest : List Bytes) (out : List (Msg × Option Err))
    (w w' : World) : Prop where
  ready : Ready S w'
  held : w'.held = w.held
  thins : Thins S w.root w'.root
  lines : w'.lines = w.lines ++ out
  about : ∀ line ∈ out, line.1.fmt = "failed to remove stale layer lock {}: {}"
  others : ∀ k, k ≠ .locks → ∀ a, view S w'.root k a = view S w.root k a
  kept : ∀ a, a ∈ rest ∨ a ∉ names → view S w'.root .locks a = view S w.root .locks a
  fate : ∀ a ∈ names, a ∉ rest → view S w'.root .locks a = none ∨
    (view S w'.root .locks a = view S w.root .locks a ∧
      ((∃ m data, view S w.root .locks a = some (.leaf (.file m data))) →
        (view S w.root).HasLayer a ∨ entryPlace S .locks a ∈ w.held ∨ Stale a out))

theorem Stale.append {n : Bytes} {l : List (Msg × Option Err)} (h : Stale n l)
    (l' : List (Msg × Option Err)) : Stale n (l ++ l') := by
  obtain ⟨e, he⟩ := h
  exact ⟨e, List.mem_append_left _ he⟩

theorem LockSweep.skip {names rest : List Bytes} {out : List (Msg × Option Err)} {a : Bytes}
    (h : LockSweep S names (a :: rest) out w w')
    (ha : ¬ ∃ m data, view S w.root .locks a = some (.leaf (.file m data))) :
    LockSweep S names rest out w w' := by
  refine ⟨h.ready, h.held, h.thins, h.lines, h.about, h.others,
    fun b hb => h.kept b (hb.imp_left (List.mem_cons_of_mem a)), fun b hb hr => ?_⟩
  by_cases hba : b = a
  · subst hba
    exact .inr ⟨h.kept b (.inl (by simp)), fun hf => absurd hf ha⟩
  · exact h.fate b hb (by simp [hba, hr])

theorem LockSweep.turned {names rest : List Bytes} {out l : List (Msg × Option Err)} {a : Bytes}
    (h : LockSweep S names (a :: rest) out w w') (hn : (a :: rest).Nodup) (ha : a ∈ names)
    (ht : Turned S used a l w' w'')
    (hlayers : ∀ b, view S w''.root .layers b = view S w'.root .layers b)
    (hl : ∀ line ∈ l, line.1.fmt = "failed to remove stale layer lock {}: {}")
    (hf : (view S w''.root .locks a = view S w'.root .locks a ∧ ((view S w'.root).HasLayer a ∨
      entryPlace S .locks a ∈ w'.held ∨ Stale a l)) ∨ view S w''.root .locks a = none) :
    LockSweep S names rest (out ++ l) w w'' := by
  have hrest := (List.nodup_cons.mp hn).1
  have same := h.kept a (.inl (by simp))
  refine ⟨ht.ready, ht.held.trans h.held, h.thins.trans ht.thins,
    by rw [ht.lines, h.lines, List.append_assoc], fun line hm => ?_, fun k hk b => ?_,
    fun b hb => ?_, fun b hb hr => ?_⟩
  · exact (List.mem_append.mp hm).elim (h.about line) (hl line)
  · cases k with
    | containers => exact (ht.turn.containers b).trans (h.others _ hk b)
    | manifests => exact (ht.turn.manifests b).trans (h.others _ hk b)
    | layers => exact (hlayers b).trans (h.others _ hk b)
    | locks => exact absurd rfl hk
  · have hba : b ≠ a := by
      rintro rfl
      exact hb.elim hrest fun hb => hb ha
    rw [ht.turn.locks b hba]
    exact h.kept b (hb.imp_left (List.mem_cons_of_mem a))
  · by_cases hba : b = a
    · subst hba
      rcases hf with ⟨hs, hf⟩ | hf
      · refine .inr ⟨hs.trans same, fun _ => ?_⟩
        have hlayer : (view S w'.root).HasLayer b ↔ (view S w.root).HasLayer b := by
          rw [Store.HasLayer, h.others .layers (by simp) b, Store.HasLayer]
        rw [hlayer, h.held] at hf
        refine hf.imp_right fun hf => hf.imp_right fun ⟨e, he⟩ => ?_
        exact ⟨e, List.mem_append_right _ he⟩
      · exact .inl hf
    · rw [ht.turn.locks b hba]
      rcases h.fate b hb (by simp [hba, hr]) with hfate | ⟨hs, hfate⟩
      · exact .inl hfate
      · exact .inr ⟨hs, fun hfile => (hfate hfile).imp_right fun hf => hf.imp_right fun hs =>
          hs.append l⟩

section

variable {J : Store → Prop} (hS : PlainPlace S) (hr : Ready S w) (hJ : J (view S w.root))
  (hJ' : ∀ s s' n, J s → StoreTurn used (entryPlace S .locks n ∈ w.held) n s s' → J s')
  (hI : ∀ w', Layout S w'.root → w'.held = w.held → J (view S w'.root) → I w')
include hS hr hJ hJ' hI

theorem ensures_cleanupLayerLocks [StatAnswers env] :
    Ensures (machine env) I
      (fun _ w' => (∃ names out, LockSweep S names [] out w w' ∧
        ∀ a, (view S w.root .locks a).isSome → a ∈ names) ∧ J (view S w'.root))
      (cleanupLayerLocks (storeAt S)) w := by
  have h₀ := hI w hr.layout rfl hJ
  rw [cleanupLayerLocks]
  refine ensures_bind (ensures_readLayerLockDigests hS hr.layout h₀) ?_
  rintro it w' - ⟨rfl, hlist, hitem⟩
  refine ensures_mono (ensures_iterEach (K := fun rest w₁ =>
      (∃ out, LockSweep S it.listing.names rest out w' w₁) ∧ J (view S w₁.root) ∧
      rest.Nodup ∧ ∀ a ∈ rest, a ∈ it.listing.names)
    (fun _ w₁ h => by
      obtain ⟨out, h'⟩ := h.1
      exact hI w₁ h'.ready.layout h'.held h.2.1) ?_
    ⟨⟨[], hr, rfl, .refl _ _, by simp, by simp, fun _ _ _ => rfl, fun _ _ => rfl,
      fun a h h' => absurd h h'⟩, hJ, hlist.nodup, fun _ h => h⟩) (fun _ h => h) ?_
  · rintro name rest w₁ ⟨⟨out, hk⟩, hJ₁, hnodup, hmem⟩
    have h₁ := hI w₁ hk.ready.layout hk.held hJ₁
    have hname := hmem name (by simp)
    have hplain := (hlist.sound name hname).2
    have hmem' : ∀ a ∈ rest, a ∈ it.listing.names := fun a ha => hmem a (by simp [ha])
    have same := hk.kept name (.inl (by simp))
    rw [hitem]
    refine ensures_bind (ensures_withContext.mpr (ensures_fileItem (R := fun a => a = name) hS
      hk.ready.layout hplain h₁ (ensures_bind (ensures_intoString h₁) fun a w₂ h₂ h =>
        ensures_ok h₂ ⟨h.1, a, rfl, h.2⟩))) ?_
    rintro o w₂ - ⟨rfl, ⟨d, rfl, rfl, m, data, hv⟩ | ⟨rfl, hv⟩⟩
    · refine ensures_mono (ensures_cleanupLayerLock hS hk.ready hplain
        (fun w' hl hheld (ht : StoreTurn used _ _ _ _) =>
          hI w' hl (hheld.trans hk.held) (hJ' _ _ _ hJ₁ (hk.held ▸ ht)))
        (by rw [hv]; rfl)) (fun _ h => h) ?_
      rintro - w₃ - ⟨l, ht, hlayers, hl, hf⟩
      exact ⟨⟨_, hk.turned hnodup hname ht hlayers hl hf⟩, hJ' _ _ _ hJ₁ (hk.held ▸ ht.turn),
        (List.nodup_cons.mp hnodup).2, hmem'⟩
    · refine ensures_ok h₁ ⟨⟨out, hk.skip ?_⟩, hJ₁, (List.nodup_cons.mp hnodup).2, hmem'⟩
      rintro ⟨m, data, h⟩
      exact hv inferInstance ⟨m, data, same.trans h⟩
  · rintro - w₁ - ⟨⟨⟨out, hk⟩, hJ₁, -, -⟩, hb⟩
    exact ⟨⟨_, out, hk, hlist.whole hb⟩, hJ₁⟩

end

end Pakstak
