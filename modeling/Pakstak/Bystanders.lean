/-
  What a command does to the containers it is not about.

  Proved, however a command ends: it changes no container but those it names
  (`ends_others`); and a run of another container mounts the layers of a manifest that verifies
  under the digest the container named before (`undisturbed_run`).
-/
import Pakstak.EndToEnd
import Pakstak.Repairing

namespace Pakstak

open Posix Prog FileTree

variable {env : Env} {S : Place} {c : Command} {n : Bytes} {w w' w₁ w₂ : World}

/-- The containers a command is about. -/
def Command.Aims : Command → Bytes → Prop
  | .install container _, n => n = container
  | .uninstall container, n => n = container
  | .update containers, n => containers = [] ∨ n ∈ containers
  | .switch container _, n => n = container
  | .prune, _ | .repair, _ => False

/-- Containers are given by name. -/
def Command.Named : Command → Prop
  | .install _ _ | .prune | .repair => True
  | .uninstall container | .switch container _ => Plain container
  | .update containers => ∀ n ∈ containers, Plain n

/-- No container has changed but those the command is about. -/
def Others (S : Place) (c : Command) (w w' : World) : Prop :=
  ∀ n, ¬ c.Aims n → view S w'.root .containers n = view S w.root .containers n

/-! ## Uninstall -/

/-- The container has gone, and nothing else but locks has changed. -/
structure Removal (S : Place) (n : Bytes) (w w' : World) : Prop where
  gone : view S w'.root .containers n = none
  entries : ∀ k m, k ≠ .locks → (k = .containers → m ≠ n) →
    view S w'.root k m = view S w.root k m

theorem Removal.others (h : Removal S n w w') : Others S (.uninstall n) w w' :=
  fun m hm => h.entries .containers m (by simp) fun _ => hm

theorem Removal.same (h : Removal S n w w₁) (hs : Same w₁ w') : Removal S n w w' := by
  refine ⟨?_, ?_⟩
  · rw [hs.root]
    exact h.gone
  · rw [hs.root]
    exact h.entries

theorem removal_of_after (hS : PlainPlace S) (hn : Plain n)
    (h : (Operation.removeContainer n).After env S w w') : Removal S n w w' := by
  obtain ⟨-, w₁, d, m, v, hcalm, hloc, rfl, hplaced⟩ := h
  have hpath : (Operation.removeContainer n).path (storeAt S) =
      pathOf (tablePlace S .containers ++ [n]) := containerPath_storeAt hn S
  rw [hpath] at hloc
  rcases hcalm.layout.table .containers _ List.prefix_rfl with hg | hd
  · rw [pathOf, locate_missing (hcalm.layout.table .containers) hg (plain_tablePlace hS _) hn]
      at hloc
    cases hloc
  · rw [pathOf, locate_child hd (plain_tablePlace hS _) hn, Except.ok.injEq] at hloc
    cases hloc
    have hb := Placed.becomes (k := .containers) (n := n) hplaced hcalm.layout (by simp) (.inl rfl)
    refine ⟨by rw [hb.view, Store.set_same], fun k m hk hm => ?_⟩
    rw [hb.view, Store.set_of_ne fun h => hm h.1 h.2]
    exact hcalm.entries k m hk

theorem ends_removal (hS : PlainPlace S) (hr : AtRest S w) (hn : Plain n) :
    Ends (machine env) (fun _ => True) (fun _ w' => Removal S n w w')
      (fun _ w' => Others S (.uninstall n) w w') (uninstall env (storeAt S) n) w := by
  have hperform : Ensures (machine env) (fun w' => True ∧ Others S (.uninstall n) w w')
      (fun _ w' => Removal S n w w') ((storeAt S).removeContainer env n) w := by
    refine ensures_mono (Operation.ensures_performRemoval (o := .removeContainer n) hS
      hr.toReady trivial) ?_ fun _ _ _ ha => removal_of_after hS hn ha
    rintro w' ⟨hcalm | ha, -⟩
    · exact ⟨trivial, fun m _ => hcalm.entries .containers m (by simp)⟩
    · exact ⟨trivial, (removal_of_after hS hn ha).others⟩
  rw [uninstall]
  refine ends_bind (ends_mapError.mpr (ends_of_ensures_and hperform)) ?_
  intro _ w₁ _ h₁
  exact ends_of_noError (noError_call _) (ensures_eprintln trivial fun w₂ hs _ =>
    ⟨trivial, h₁.same hs⟩)

/-! ## Every command -/

theorem ends_others [StatAnswers env] (hS : PlainPlace S) (hr : AtRest S w)
    (hf : (view S w.root).FileContainers)
    (hc : c.Named) : Ends (machine env) (fun _ => True) (fun _ w' => Others S c w w')
      (fun _ w' => Others S c w w') (c.body env (storeAt S)) w := by
  cases c with
  | install container image =>
    exact ends_mono (ends_install hS hr) (fun _ h => h) (fun _ _ _ h n hn => h.others n hn)
      fun _ _ _ h n _ => h.containers n
  | uninstall container =>
    exact ends_mono (ends_removal hS hr hc) (fun _ h => h) (fun _ _ _ h => h.others)
      fun _ _ _ h => h
  | update containers =>
    have updated {w' : World} (h : Updated env S (Command.update containers).Aims w w') :
        Others S (.update containers) w w' :=
      fun n hn => (h.containers n).resolve_right fun h => hn h.1
    have named (w₁ : World) (hl : Layout S w₁.root) (a : Bytes) (ha : a ∈ containers) (n : Bytes)
        (hw : walk w₁.root ((storeAt S).containerPath a) = .ok (entryPlace S .containers n)) :
        (Command.update containers).Aims n := by
      obtain rfl : n = a := by simpa [entryPlace] using walk_container hS hl (hc a ha) hw
      exact .inr ha
    have hupdate := @endsUnder_update env (fun _ => True) S w (Command.update containers).Aims
      _ containers hS hr hf (fun h _ => .inl h) fun w₁ _ hl => named w₁ hl
    exact ends_mono (endsUnder_true.mp hupdate) (fun _ h => h) (fun _ _ _ h => updated h.1)
      fun _ _ _ h => updated h
  | switch container digest =>
    refine ends_mono (ends_switch hS hr hf) (fun _ h => h) (fun _ w' _ h n hn => ?_)
      fun _ _ _ h n _ => h.containers n
    rcases h.containers n with h | ⟨hw, -⟩
    · exact h
    · have he : n = container := by simpa [entryPlace] using walk_container hS hr.layout hc hw
      exact absurd he hn
  | prune =>
    have hprune := @ensures_prune env (Others S .prune w) S ⟨True, True, True⟩ w _ hS hr.toReady
      fun w' _ _ hd n _ => hd.containers n
    exact ends_mono (ends_of_ensures hprune fun _ _ hI => hI) (fun _ _ => trivial)
      (fun _ _ hI _ => hI) fun _ _ _ h => h
  | repair =>
    exact ends_mono (ends_repair hS hr hf) (fun _ h => h)
      (fun _ _ _ h n _ => h.mended.containers n) fun _ _ _ h n _ => h.containers n

/-- What the body of a command leaves of the contents, however it ends, the command leaves. -/
theorem relation_of_exec [StatAnswers env] {res : Except Err Unit} {P : Store → Store → Prop}
    (hS : PlainPlace S) (henv : env.storagePath = pathOf S) (hl : Layout S w.root) (hP : ∀ s, P s s)
    (h : ∀ w₁, AtRest S w₁ → view S w₁.root = view S w.root → Ends (machine env) (fun _ => True)
      (fun _ w' => P (view S w₁.root) (view S w'.root))
      (fun _ w' => P (view S w₁.root) (view S w'.root)) (c.body env (storeAt S)) w₁)
    (hx : Exec (machine env) (main env c) w (some res) w') :
    P (view S w.root) (view S w'.root) := by
  have hmain : Ends (machine env) (fun _ => True)
      (fun _ w' => P (view S w.root) (view S w'.root))
      (fun _ w' => P (view S w.root) (view S w'.root)) (main env c) w := by
    rw [main]
    refine ends_bind (ends_mapError.mpr (ends_of_ensures_and
      (J := fun w' => P (view S w.root) (view S w'.root))
      (ensures_newMutable henv hS hl fun w' hq => ⟨trivial, hq.still.view ▸ hP _⟩))) ?_
    rintro st w₁ - ⟨rfl, hq, htemp, hcleared⟩
    have hbody := h w₁ ⟨⟨hq.still.layout, htemp⟩, hcleared⟩ hq.still.view
    rwa [hq.still.view] at hbody
  cases res with
  | ok u => exact (wp_exec hmain hx).2 _ rfl
  | error e => exact (wp_exec hmain hx).2 _ rfl

/-- However a command ends, it has changed no container but those it names. -/
theorem others_of_exec [StatAnswers env] {res : Except Err Unit} (hS : PlainPlace S)
    (henv : env.storagePath = pathOf S) (hl : Layout S w.root)
    (hf : (view S w.root).FileContainers) (hc : c.Named)
    (hx : Exec (machine env) (main env c) w (some res) w') : Others S c w w' :=
  relation_of_exec (P := fun s s' => ∀ n, ¬ c.Aims n → s' .containers n = s .containers n) hS henv
    hl (fun _ _ _ => rfl) (fun _ hr hv => ends_others hS hr (hv ▸ hf) hc) hx

/-- A command about others, however it ends, leaves a container as it is; and a run of it then
    mounts the layers of a manifest that verifies under the digest the container named before. -/
theorem undisturbed_run [StatAnswers env] {res : Except Err Unit} (hS : PlainPlace S)
    (henv : env.storagePath = pathOf S) (hl : Layout S w.root)
    (hp : Promised env (view S w.root)) (hc : c.Named)
    (hx : Exec ((machine env).under (c.Asks env ⟨False, False, False⟩ S)) (main env c) w
      (some res) w') (hother : ¬ c.Aims n) :
    view S w'.root .containers n = view S w.root .containers n ∧
    ∀ digest command args w₁ w₂, Plain n → (view S w.root).digestText n = some digest →
      w₁.root = w'.root → Exec (machine env) (mainRun env [n] command) w₁ (some (.ok args)) w₂ →
      ∃ bytes manifest, (view S w'.root).manifestBytes digest = some bytes ∧
        Verifies env.hash bytes digest ∧ parseManifest env bytes = some manifest ∧
        MountsManifest env S (view S w'.root) manifest command args := by
  have hsame := others_of_exec hS henv hl hp.tidy.files hc (exec_of_under hx) n hother
  refine ⟨hsame, fun digest command args w₁ w₂ hn hd hroot hr => ?_⟩
  exact run_after hS henv hl hp hx hroot hn ((digestText_of_eq hsame).trans hd) hr

open Restored in
theorem undisturbed_run_pruned :
    view place pruned.root .containers (utf8 "c") = view place world.root .containers (utf8 "c") ∧
    ∃ bytes m, (view place pruned.root).manifestBytes manifestDigest = some bytes ∧
      Verifies host.hash bytes manifestDigest ∧ parseManifest host bytes = some m ∧
      MountsManifest host place (view place pruned.root) m [utf8 "sh"] bwrapArgs := by
  have h : (calm.replay host (main host .prune) world).1 = some (.ok ()) := by decide +kernel
  have hx : Exec ((machine host).under (Command.prune.Asks host ⟨False, False, False⟩ place))
      (main host .prune) world (some (.ok ())) pruned :=
    exec_under (exec_of_fst_eq (calm.exec_replay _ _ _) h) fun _ _ => trivial
  obtain ⟨hsame, hrun⟩ := undisturbed_run (c := .prune) (n := utf8 "c") plain_place rfl layout_world
    promised trivial hx id
  exact ⟨hsame, hrun _ _ _ _ _ (by decide +kernel) rfl rfl exec_run⟩

end Pakstak
