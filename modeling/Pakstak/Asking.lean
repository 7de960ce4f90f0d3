/-
  Whose registries an update or a switch asks.

  The client may ask about any image (`Allowed`), but it is given a reference that was read in one
  of the containers the command is about, and no turn of the loop changes what is stored there.

  Proved, for containers given by name: `asks_stored`.
-/
import Pakstak.Following
import Pakstak.Traffic

namespace Pakstak

open Posix Prog FileTree RegistryClient

variable {env : Env} {S : Place} {c : Command} {n : Bytes} {w w' : World} {client : RegistryClient}
  {A : Bytes → Bytes → Prop} {reference : Reference} {T : Bytes → Prop}

/-- Requests about an image that one of the containers is stored with. -/
def AboutStored (env : Env) (T : Bytes → Prop) (s : Store) (registry path : Bytes) : Prop :=
  ∃ n reference, T n ∧ s.storedReference env n = some reference ∧ About reference registry path

/-- What is read in a container given by name is what it is stored with. -/
theorem stored_of_read {bytes : Bytes} (hS : PlainPlace S) (hl : Layout S w.root)
    (hf : (view S w.root).FileContainers) (hn : Plain n)
    (hd : isDirPath w.root ((storeAt S).containerPath n) = true)
    (href : Posix.read w.root (((storeAt S).containerPath n).join referenceFile) = .ok bytes)
    (hparse : (env.fromSlice bytes).bind Reference.deserialize = some reference) :
    (view S w.root).storedReference env n = some reference := by
  obtain ⟨c, hw, hc⟩ := isDirPath_iff_walk.mp hd
  obtain rfl := walk_container hS hl hn hw
  have hdata := kid_of_read plain_referenceFile hf hw hc href
  rw [← Option.bind_assoc] at hdata
  rw [Store.storedReference, hdata]
  exact hparse

/-! ## One container -/

/-- What comes first in an update and in a switch. -/
theorem ensures_stored {α : Type} {P : α → World → Prop} {f : Reference → M α} (hS : PlainPlace S)
    (hr : AtRest S w) (hf : (view S w.root).FileContainers) (hn : Plain n)
    {I : World → Prop} (hI : I w)
    (h : ∀ reference, (view S w.root).storedReference env n = some reference →
      Ensures (machine env) I P (f reference) w) :
    Ensures (machine env) I P ((storeAt S).ensureContainerInstalled n |>.bind fun _ =>
      ((storeAt S).readContainerReference env n).bind f) w := by
  refine ensures_bind (ensures_ensureContainerInstalled hI) ?_
  rintro - w' - ⟨rfl, hd⟩
  refine ensures_bind (ensures_readContainerReference hI) ?_
  rintro reference w₁ - ⟨rfl, bytes, href, hparse⟩
  exact h reference (stored_of_read hS hr.layout hf hn hd href hparse)

theorem Discreet.ensures {α : Type} {p : M α} {g : α → RegistryClient}
    (h : Discreet env A client p g) (hp : Proper env A w.net) (ho : Owns env client w.net) :
    Ensures (machine env) (fun w' => Proper env A w'.net) (fun a w' => Owns env (g a) w'.net) p w :=
  h w hp ho

theorem ensures_updateContainer_asks (hS : PlainPlace S) (hr : AtRest S w)
    (hf : (view S w.root).FileContainers) (hn : Plain n)
    (hA : ∀ reference, (view S w.root).storedReference env n = some reference →
      ∀ registry path, About reference registry path → A registry path)
    (hp : Proper env A w.net) (ho : Owns env client w.net) :
    Ensures (machine env) (fun w' => Proper env A w'.net)
      (fun client' w' => Owns env client' w'.net)
      (updateContainer env (storeAt S) client n) w := by
  rw [updateContainer]
  refine ensures_stored hS hr hf hn hp fun reference hstored => ?_
  refine Discreet.ensures (g := id) ?_ hp ho
  refine discreet_bind (discreet_withContext (discreet_fetchImage _ (hA reference hstored))) ?_
  rintro ⟨fetched, client'⟩
  refine discreet_then (offline_readContainerManifestDigest _ n) fun d => ?_
  split
  · exact discreet_then (offline_call trivial) fun _ => discreet_ret rfl
  · exact discreet_then (offline_withContext (offline_writeContainerManifestDigest _ _ _))
      fun _ => discreet_then (offline_call trivial) fun _ => discreet_ret rfl

theorem ensures_switch_asks {digest : Bytes} (hS : PlainPlace S) (hr : AtRest S w)
    (hf : (view S w.root).FileContainers) (hn : Plain n)
    (hA : ∀ reference, (view S w.root).storedReference env n = some reference →
      ∀ registry path, About reference registry path → A registry path)
    (hp : Proper env A w.net) :
    Ensures (machine env) (fun w' => Proper env A w'.net) (fun _ _ => True)
      (switch env (storeAt S) n digest) w := by
  rw [switch]
  refine ensures_bind (ensures_ensureContainerInstalled hp) ?_
  rintro - w' - ⟨rfl, hd⟩
  refine ensures_bind (ensures_withContext.mpr (ensures_readContainerReference hp)) ?_
  rintro reference w₁ - ⟨rfl, bytes, href, hparse⟩
  have hstored := stored_of_read hS hr.layout hf hn hd href hparse
  -- the digest asked for is in place of the specifier, the image is the same
  have hpinned : ∀ registry path, About { reference with specifier := .digest digest } registry
    path → A registry path := hA reference hstored
  have hfetch : Polite env A (RegistryClient.new.fetchImage env (storeAt S)
      { reference with specifier := .digest digest } false) :=
    (discreet_fetchImage _ hpinned).polite
  refine polite_bind (polite_withContext hfetch) (fun _ => ?_) w₁ hp
  exact polite_bind (polite_offline (offline_withContext
    (offline_writeContainerManifestDigest _ _ _))) fun _ => polite_offline (offline_call trivial)

/-! ## All of them -/

theorem ensures_updateAll_asks [StatAnswers env] {names : List Bytes} (hS : PlainPlace S)
    (hr : AtRest S w) (hf : (view S w.root).FileContainers) (h : ∀ n ∈ names, Plain n ∧ T n)
    (hp : Proper env (AboutStored env T (view S w.root)) w.net) :
    Ensures (machine env) (fun w' => Proper env (AboutStored env T (view S w.root)) w'.net)
      (fun _ _ => True)
      (do
        let _ ← Prog.fold (updateContainer env (storeAt S)) RegistryClient.new
          (← hashOrder names)) w := by
  refine ensures_bind (ensures_hashOrder (P := fun order w' => w' = w ∧ ∀ a ∈ order, a ∈ names) hp
    fun order ho => ⟨rfl, fun a ha => List.mem_dedup.mp (ho.mem_iff.mp ha)⟩) ?_
  rintro order w' - ⟨rfl, horder⟩
  refine ensures_bind (ensures_fold (K := fun client rest w₁ =>
    Proper env (AboutStored env T (view S w'.root)) w₁.net ∧ Owns env client w₁.net ∧
    AtRest S w₁ ∧ Updated env S (fun _ => True) w' w₁ ∧ ∀ a ∈ rest, a ∈ names)
    (fun _ _ _ h => h.1) ?_ order _ w' ⟨hp, owns_new, hr, .refl w', horder⟩)
    fun _ _ h _ => ensures_ok h trivial
  rintro client name rest w₁ ⟨hp₁, ho₁, hr₁, hu₁, hrest⟩
  obtain ⟨hn, hT⟩ := h name (hrest name (by simp))
  have hasks := ensures_updateContainer_asks hS hr₁ (hu₁.files hf) hn
    (fun reference hstored _ _ habout => ⟨name, reference, hT,
      (hu₁.storedReference name).symm.trans hstored, habout⟩) hp₁ ho₁
  have hturn := @endsUnder_updateContainer env (fun _ => True) S w₁ (fun _ => True) _ client name hS
    hr₁ (hu₁.files hf) fun _ _ => trivial
  refine ensures_mono (ensures_and hasks (ensures_of_ends (endsUnder_true.mp hturn)))
    (fun _ h => h) ?_
  rintro client' w₂ hp₂ ⟨ho₂, hturn⟩
  exact ⟨hp₂, ho₂, hturn.rest, hu₁.trans hturn.updated, fun a ha => hrest a (by simp [ha])⟩

theorem ensures_update_asks [StatAnswers env] {containers : List Bytes} (hS : PlainPlace S)
    (hr : AtRest S w) (hf : (view S w.root).FileContainers) (hn : ∀ n ∈ containers, Plain n)
    (hp : Proper env (AboutStored env (Command.update containers).Aims (view S w.root)) w.net) :
    Ensures (machine env)
      (fun w' => Proper env
        (AboutStored env (Command.update containers).Aims (view S w.root)) w'.net)
      (fun _ _ => True) (update env (storeAt S) containers) w := by
  rw [update]
  split
  · rename_i hnil
    refine ensures_bind (ensures_readContainers hS hr.layout hp) ?_
    rintro it w' - ⟨rfl, hlist, hitem⟩
    refine ensures_bind (ensures_collectContainers hS hr.layout hlist hitem hp) ?_
    rintro names w₁ - ⟨rfl, hnames, -⟩
    exact ensures_updateAll_asks hS hr hf (fun n h => ⟨hnames n h, .inl hnil⟩) hp
  · exact ensures_updateAll_asks hS hr hf (fun n h => ⟨hn n h, .inr h⟩) hp

/-- An update or a switch of containers given by name. -/
def Command.Refetches : Command → Prop
  | .update containers => ∀ n ∈ containers, Plain n
  | .switch container _ => Plain container
  | .install _ _ | .uninstall _ | .prune | .repair => False

/-- At every point of an update or a switch, the registries have been asked only about images
    that the containers it is about are stored with. -/
theorem asks_stored [StatAnswers env] {res : Option (Except Err Unit)} (hS : PlainPlace S)
    (henv : env.storagePath = pathOf S) (hl : Layout S w.root)
    (hf : (view S w.root).FileContainers) (hc : c.Refetches) (hw : w.net = [])
    (hx : Exec (machine env) (main env c) w res w') :
    Proper env (AboutStored env c.Aims (view S w.root)) w'.net := by
  have h : Ensures (machine env)
      (fun w' => Proper env (AboutStored env c.Aims (view S w.root)) w'.net) (fun _ _ => True)
      (main env c) w := by
    rw [main]
    have quiet {w₁ : World} (hq : Quiet S w w₁) :
        Proper env (AboutStored env c.Aims (view S w.root)) w₁.net := by
      have hnet : w₁.net = w.net := congrArg (fun a => a.2.1) hq.still.aside
      rw [hnet, hw]
      exact proper_nil
    refine ensures_bind (ensures_withContext.mpr (ensures_newMutable henv hS hl
      fun w₁ hq => quiet hq)) ?_
    rintro st w₁ - ⟨rfl, hq, htemp, hcleared⟩
    have hr : AtRest S w₁ := ⟨⟨hq.still.layout, htemp⟩, hcleared⟩
    have hp := quiet hq
    rw [← hq.still.view] at hf hp ⊢
    cases c with
    | update containers => exact ensures_update_asks hS hr hf hc hp
    | switch container digest =>
      exact ensures_switch_asks hS hr hf hc
        (fun reference hstored _ _ habout => ⟨container, reference, rfl, hstored, habout⟩) hp
    | install container image => exact hc.elim
    | uninstall container => exact hc.elim
    | prune => exact hc.elim
    | repair => exact hc.elim
  exact (ensures_exec h hx).1

namespace OneContainer

/-- The container updated, in the store that has lost its manifest. -/
def refetched : Option (Except Err Unit) × World :=
  pages.replay oneContainer (main oneContainer (.update [utf8 "web"])) store

end OneContainer

open OneContainer in
theorem asks_stored_web : Proper oneContainer
      (AboutStored oneContainer (Command.update [utf8 "web"]).Aims
        (view FirstFetch.place store.root)) refetched.2.net ∧ refetched.2.net ≠ [] := by
  refine ⟨asks_stored FirstFetch.plain_place rfl atRest.layout files (fun n hn => ?_) rfl
    (pages.exec_replay _ _ _), ?_⟩
  · rw [List.mem_singleton.mp hn]
    decide +kernel
  · have h : 0 < refetched.2.net.length := by decide +kernel
    exact List.ne_nil_of_length_pos h

end Pakstak
