/-
  Programs that ask nothing of the network: everything the store does, `uninstall`, `prune` and
  the parts of the other commands between their requests.
-/
import Pakstak.Calls
import Pakstak.Run

namespace Pakstak

open Posix Prog

variable {env : Env} {α β : Type}

def Silent : Op → Prop
  | .get _ => False
  | _ => True

abbrev Offline (p : M α) : Prop := p.AsksOnly Silent fun _ => True

theorem net_of_silent {o : Op} {w w' : World} {r : Reply o} (ho : Silent o)
    (h : Step env o w r w') : w'.net = w.net := by
  cases o with
  | stat p => rw [h.2]
  | lstat p => rw [h.2]
  | read p => rw [h.2]
  | readDir p => rw [h.2]
  | mkdir p => exact Writes.net h
  | write p data => exact WritesSlowly.net h
  | rename p q => exact Writes.net h
  | removeFile p => exact Writes.net h
  | removeDirAll p => exact WritesSlowly.net h
  | setPermissions p mode => exact Writes.net h
  | openCreate p => exact Writes.net h
  | createNew p => exact Writes.net h
  | setXattr p name value => exact Writes.net h
  | tryLock p mode => rw [h.2]
  | setlk p => rw [h.2]
  | unpack format body p => exact WritesSlowly.net h
  | get request => exact ho.elim
  | hashOrder items => rw [h.2]
  | eprintln m e => rw [show w' = { w with lines := w.lines ++ [(m, e)] } from h]

/-- An offline program keeps what is said of the log of requests alone. -/
theorem ensures_offline {I : List (Request × Except HttpError Response) → Prop} {P : α → Prop}
    {p : M α} {w : World} (h : p.AsksOnly Silent P) (hI : I w.net) :
    Ensures (machine env) (fun w' => I w'.net) (fun a w' => w'.net = w.net ∧ P a) p w := by
  have hsame : Ensures (machine env) (fun w' => w'.net = w.net) (fun a _ => P a) p w :=
    ensures_asksOnly (fun o _ r _ ho hs hw => (net_of_silent ho hs).trans hw)
      (fun _ _ _ _ hm hw => (net_of_mid hm).trans hw) h rfl
  exact ensures_mono hsame (fun _ hw => hw ▸ hI) fun _ _ hw ha => ⟨hw, ha⟩

theorem offline_bind {p : M α} {f : α → M β} (h : Offline p) (hf : ∀ a, Offline (f a)) :
    Offline (p.bind f) := asksOnly_bind h fun a _ => hf a

theorem offline_call {o : Op} (h : Silent o) : Offline (Prog.call o : M (Reply o)) :=
  asksOnly_call h fun _ => trivial

theorem offline_lift (r : Except Err α) : Offline (.lift r) := by cases r <;> trivial

theorem offline_orContext (m : Msg) (r : Except Errno α) : Offline (orContext m r) := offline_lift _

theorem offline_withContext {m : Msg} {p : M α} (h : Offline p) : Offline (withContext m p) :=
  asksOnly_mapError h

theorem offline_step {p : M (Except Errno α)} {m : Msg} {f : α → M β} (h : Offline p)
    (hf : ∀ a, Offline (f a)) : Offline (p.bind fun r => (orContext m r).bind f) :=
  offline_bind h fun r => offline_bind (offline_orContext m r) hf

theorem offline_last {p : M (Except Errno α)} {m : Msg} (h : Offline p) :
    Offline (p.bind fun r => orContext m r) := offline_bind h fun r => offline_orContext m r

theorem offline_fold {f : β → α → M β} (hf : ∀ b a, Offline (f b a)) (b : β) (l : List α) :
    Offline (Prog.fold f b l) := asksOnly_fold (fun b a _ => hf b a) l b trivial

theorem offline_loop {σ : Type} {body : σ → M (σ ⊕ α)} (h : ∀ x, Offline (body x)) (n : Nat)
    (x : σ) : Offline (Prog.loop body n x) :=
  asksOnly_loop (fun x => asksOnly_mono (h x) fun _ _ _ _ => trivial) n x

/-! ## Calls -/

theorem offline_pathIsDir (p : PathBuf) : Offline (pathIsDir p) :=
  offline_bind (offline_call trivial) fun r => by cases r <;> trivial

theorem offline_pathIsFile (p : PathBuf) : Offline (pathIsFile p) :=
  offline_bind (offline_call trivial) fun r => by cases r <;> trivial

theorem offline_pathExists (p : PathBuf) : Offline (pathExists p) :=
  offline_bind (offline_call trivial) fun r => by cases r <;> trivial

section

variable {A : Op → Prop} (hm : ∀ p, A (.mkdir p)) (hs : ∀ p, A (.stat p))

include hm hs

theorem asksOnly_createDirAllUpTo (depth : Nat) (p : PathBuf) :
    (createDirAllUpTo depth p).AsksOnly A fun _ => True := by
  have made (p : PathBuf) : (Fs.createDir p).AsksOnly A fun _ => True :=
    asksOnly_call (hm p) fun _ => trivial
  have check (p : PathBuf) (e : Errno) : (do
      if ← pathIsDir p then return .ok () else return .error e : M (Except Errno Unit)).AsksOnly A
        fun _ => True :=
    asksOnly_bind (P := fun _ => True) (asksOnly_bind (P := fun _ => True)
      (asksOnly_call (hs p) fun _ => trivial) fun r _ => by cases r <;> trivial)
      fun b _ => by cases b <;> trivial
  induction depth generalizing p with
  | zero => trivial
  | succ depth ih =>
    rw [createDirAllUpTo]
    refine asksOnly_bind (made p) fun r _ => ?_
    split
    · trivial
    · split
      · trivial
      · refine asksOnly_bind (ih _) fun r _ => ?_
        split
        · trivial
        · refine asksOnly_bind (made p) fun r _ => ?_
          split
          · trivial
          · exact check p _
    · exact check p _

theorem asksOnly_ensureParentDir (p : PathBuf) :
    (ensureParentDir p).AsksOnly A fun _ => True := by
  unfold ensureParentDir
  split
  · trivial
  · exact asksOnly_bind (asksOnly_createDirAllUpTo hm hs _ _) fun r _ => by cases r <;> trivial

end

theorem offline_createDirAll (p : PathBuf) : Offline (createDirAll p) :=
  asksOnly_createDirAllUpTo (fun _ => trivial) (fun _ => trivial) _ p

theorem offline_ensureParentDir (p : PathBuf) : Offline (ensureParentDir p) :=
  asksOnly_ensureParentDir (fun _ => trivial) (fun _ => trivial) p

theorem offline_openLockFile (p : PathBuf) : Offline (openLockFile p) :=
  offline_bind (offline_ensureParentDir p) fun _ => offline_last (offline_call trivial)

theorem offline_acquireLock (p : PathBuf) (mode : LockMode) : Offline (acquireLock p mode) :=
  offline_step (offline_createDirAll p) fun _ =>
    offline_bind (offline_openLockFile _) fun _ => offline_last (offline_call trivial)

/-! ## Reading -/

theorem offline_readDirEntries (p : PathBuf) (kind : Bytes) : Offline (readDirEntries p kind) := by
  refine offline_bind (offline_call trivial) fun r => ?_
  split <;> trivial

/-- The items of an iterator are read without the network. -/
def Iter.Offline (it : Iter α) : Prop := ∀ name, Pakstak.Offline (it.item name)

theorem offline_finish (it : Iter α) (m : Msg) : Offline (it.finish m) := by
  unfold Iter.finish
  split <;> trivial

theorem offline_tryFold {it : Iter α} (h : it.Offline) (m : Msg) (init : β) {body : β → α → M β}
    (hbody : ∀ b a, Offline (body b a)) : Offline (it.tryFold m init body) := by
  refine offline_bind (offline_fold (fun b name => ?_) init _) fun b =>
    offline_bind (offline_finish it m) fun _ => trivial
  refine offline_bind (offline_withContext (h name)) fun o => ?_
  cases o with
  | none => trivial
  | some a => exact hbody b a

theorem offline_intoString (what : String) (name : Bytes) : Offline (intoString what name) := by
  unfold intoString
  split <;> trivial

theorem offline_someString (what : String) (name : Bytes) :
    Offline (do return some (← intoString what name)) :=
  offline_bind (offline_intoString what name) fun _ => trivial

theorem offline_read {p : PathBuf} {m : Msg} {f : Bytes → M α} (hf : ∀ bytes, Offline (f bytes)) :
    Offline ((Fs.read p).bind fun r => (orContext m r).bind f) :=
  offline_step (offline_call trivial) hf

variable (st : Storage)

theorem offline_readContainerManifestDigest (n : Bytes) :
    Offline (st.readContainerManifestDigest n) := by
  refine offline_read fun text => ?_
  split
  · trivial
  · split <;> trivial

theorem offline_readManifestBytes (d : Bytes) : Offline (st.readManifestBytes d) :=
  offline_last (offline_call trivial)

theorem offline_readManifest (d : Bytes) : Offline (st.readManifest env d) := by
  refine offline_bind (offline_readManifestBytes st d) fun bytes => ?_
  split <;> trivial

theorem offline_readContainerReference (n : Bytes) : Offline (st.readContainerReference env n) := by
  refine offline_read fun bytes => ?_
  split <;> trivial

theorem offline_getLayerPath (d : Bytes) : Offline (st.getLayerPath d) :=
  offline_bind (offline_pathIsDir _) fun b => by cases b <;> trivial

theorem offline_ensureContainerInstalled (n : Bytes) : Offline (st.ensureContainerInstalled n) :=
  offline_bind (offline_pathIsDir _) fun b => by cases b <;> trivial

theorem offline_isManifestSaved (d : Bytes) (verify : Bool) :
    Offline (st.isManifestSaved env d verify) := by
  refine offline_bind (offline_pathIsFile _) fun b => ?_
  split
  · trivial
  · split
    · trivial
    · refine offline_read fun bytes => ?_
      split
      · trivial
      · exact offline_bind (offline_call trivial) fun _ => trivial

/-- A directory iterator whose items are names of directories or files. -/
theorem offline_entries {p : PathBuf} {kind : Bytes} {item : Bytes → M (Option Bytes)}
    (h : ∀ name, Offline (item name)) :
    ((readDirEntries p kind).bind fun listing =>
      .ret (.ok (⟨p, kind, listing, item⟩ : Iter Bytes)) :
      M (Iter Bytes)).AsksOnly Silent Iter.Offline :=
  asksOnly_bind (offline_readDirEntries p kind) fun _ _ => h

theorem offline_readContainers : st.readContainers.AsksOnly Silent Iter.Offline :=
  offline_entries fun _ => offline_bind (offline_pathIsDir _) fun b => by
    cases b
    · trivial
    · exact offline_someString _ _

theorem offline_readLayerDigests : st.readLayerDigests.AsksOnly Silent Iter.Offline :=
  offline_entries fun _ => offline_bind (offline_pathIsDir _) fun b => by
    cases b
    · trivial
    · exact offline_someString _ _

theorem offline_readLayerLockDigests : st.readLayerLockDigests.AsksOnly Silent Iter.Offline :=
  offline_entries fun _ => offline_bind (offline_pathIsFile _) fun b => by
    cases b
    · trivial
    · exact offline_someString _ _

theorem offline_readManifestDigests : st.readManifestDigests.AsksOnly Silent Iter.Offline := by
  refine offline_entries fun _ => offline_bind (offline_pathIsFile _) fun b => ?_
  cases b
  · trivial
  · refine offline_bind (offline_intoString _ _) fun fileName => ?_
    split <;> trivial

/-! ## Writing -/

theorem offline_makePathWritable (p : PathBuf) (i : Inode) : Offline (makePathWritable p i) := by
  unfold makePathWritable
  split
  · trivial
  · extract_lets mode writableMode
    split
    · exact offline_last (offline_call trivial)
    · trivial

theorem offline_makeTreeWritable (p : PathBuf) : Offline (makeTreeWritable env p) := by
  refine offline_loop (fun pending => ?_) _ _
  cases pending with
  | nil => trivial
  | cons path pending =>
    refine offline_step (offline_call trivial) fun metadata =>
      offline_bind (offline_makePathWritable _ _) fun _ => ?_
    split
    · trivial
    · refine offline_step (offline_call trivial) fun listing => ?_
      split <;> trivial

theorem offline_removeDirAllWritable (p : PathBuf) : Offline (removeDirAllWritable env p) :=
  offline_bind (offline_makeTreeWritable p) fun _ => offline_last (offline_call trivial)

theorem offline_setOverlayXattr (p : PathBuf) (name : String) (value : Bytes) :
    Offline (setOverlayXattr p name value) := offline_last (offline_call trivial)

theorem offline_removeOciWhiteoutMarker (p : PathBuf) : Offline (removeOciWhiteoutMarker p) :=
  offline_step (offline_call trivial) fun _ => offline_bind (offline_makePathWritable _ _) fun _ =>
    offline_last (offline_call trivial)

theorem offline_convertOciWhiteoutMarker (p q : PathBuf) :
    Offline (convertOciWhiteoutMarker p q) := by
  unfold convertOciWhiteoutMarker
  refine offline_bind (offline_call trivial) fun r => ?_
  split
  · dsimp only
    split
    · exact offline_bind (offline_setOverlayXattr _ _ _) fun _ => offline_removeOciWhiteoutMarker p
    · exact offline_removeOciWhiteoutMarker p
  · exact offline_step (offline_call trivial) fun _ =>
      offline_bind (offline_setOverlayXattr _ _ _) fun _ => offline_removeOciWhiteoutMarker p
  · trivial

theorem offline_convertEntry (directory : PathBuf) (isOpaque : Bool) (pending : List PathBuf)
    (name : Bytes) : Offline (convertEntry directory isOpaque pending name) := by
  unfold convertEntry
  extract_lets path
  split
  · exact offline_bind (offline_removeOciWhiteoutMarker _) fun _ => trivial
  · split
    · split
      · exact offline_bind (offline_removeOciWhiteoutMarker _) fun _ => trivial
      · exact offline_bind (offline_convertOciWhiteoutMarker _ _) fun _ => trivial
    · refine offline_step (offline_call trivial) fun metadata => ?_
      split <;> trivial

theorem offline_convertOciWhiteoutsToOverlayfs (p : PathBuf) :
    Offline (convertOciWhiteoutsToOverlayfs env p) := by
  refine offline_loop (fun pending => ?_) _ _
  cases pending with
  | nil => trivial
  | cons directory pending =>
    refine offline_step (offline_call trivial) fun listing => ?_
    split
    · trivial
    · have rest : Offline (do
          let pending ← Prog.fold (convertEntry directory (opaqueMarker ∈ listing.names)) pending
            listing.names
          return .inl pending : M (List PathBuf ⊕ Unit)) :=
        offline_bind (offline_fold (fun _ _ => offline_convertEntry _ _ _ _) _ _) fun _ => trivial
      extract_lets isOpaque
      split
      · exact offline_bind (offline_setOverlayXattr _ _ _) fun _ => rest
      · exact rest

theorem offline_extractLayer (reader : Body) (digest : Bytes) (format : LayerFormat)
    (p : PathBuf) : Offline (extractLayer env reader digest format p) := by
  refine offline_bind (offline_withContext (offline_lift _)) fun verifier =>
    offline_step (offline_call trivial) fun _ =>
      offline_bind (offline_withContext (offline_convertOciWhiteoutsToOverlayfs p)) fun _ => ?_
  split
  · trivial
  · exact offline_withContext (offline_lift _)

theorem offline_temporaryPathFor (p : PathBuf) : Offline (st.temporaryPathFor p) := by
  unfold Storage.temporaryPathFor
  split <;> trivial

theorem offline_atomicWrite (p : PathBuf) (data : Bytes) : Offline (st.atomicWrite p data) :=
  offline_bind (offline_ensureParentDir p) fun _ => offline_step (offline_createDirAll _) fun _ =>
    offline_bind (offline_temporaryPathFor st p) fun _ =>
      offline_step (offline_call trivial) fun _ => offline_last (offline_call trivial)

theorem offline_publishDirectory (p q : PathBuf) : Offline (Storage.publishDirectory p q) :=
  offline_bind (offline_ensureParentDir q) fun _ => offline_last (offline_call trivial)

theorem offline_removeFile (p : PathBuf) (kind : Bytes) : Offline (st.removeFile p kind) := by
  refine offline_bind (offline_temporaryPathFor st p) fun t =>
    offline_bind (offline_pathExists t) fun b => ?_
  have rest : Offline (do
      orContext ⟨"failed to move {} file {} to temporary path {}",
        [kind, p.display, t.display]⟩ (← Fs.rename p t)
      orContext ⟨"failed to remove temporary {} file {}", [kind, t.display]⟩
        (← Fs.removeFile t) : M Unit) :=
    offline_step (offline_call trivial) fun _ => offline_last (offline_call trivial)
  cases b
  · exact rest
  · exact offline_step (offline_call trivial) fun _ => rest

theorem offline_removeDirectory (p : PathBuf) (kind : Bytes) :
    Offline (st.removeDirectory env p kind) := by
  refine offline_bind (offline_temporaryPathFor st p) fun t =>
    offline_bind (offline_pathExists t) fun b => ?_
  have clear (m : Msg) : Offline (withContext m (removeDirAllWritable env t)) :=
    offline_withContext (offline_removeDirAllWritable t)
  have rest : Offline (do
      orContext ⟨"failed to move {} directory {} to temporary path {}",
        [kind, p.display, t.display]⟩ (← Fs.rename p t)
      withContext ⟨"failed to remove temporary {} directory {}", [kind, t.display]⟩
        (removeDirAllWritable env t) : M Unit) :=
    offline_step (offline_call trivial) fun _ => clear _
  cases b
  · exact rest
  · exact offline_bind (clear _) fun _ => rest

theorem offline_writeManifest (d data : Bytes) : Offline (st.writeManifest d data) :=
  offline_withContext (offline_atomicWrite st _ _)

theorem offline_writeContainerManifestDigest (n d : Bytes) :
    Offline (st.writeContainerManifestDigest n d) :=
  offline_withContext (offline_atomicWrite st _ _)

theorem offline_writeContainer (n d : Bytes) (r : Reference) :
    Offline (st.writeContainer env n d r) :=
  offline_bind (offline_temporaryPathFor st _) fun _ =>
    offline_step (offline_createDirAll _) fun _ => offline_step (offline_call trivial) fun _ =>
      offline_step (offline_call trivial) fun _ => offline_publishDirectory _ _

theorem offline_writeLayer (d : Bytes) (format : LayerFormat) (reader : Body) :
    Offline (st.writeLayer env d format reader) := by
  refine offline_bind (offline_temporaryPathFor st _) fun t =>
    offline_step (offline_createDirAll t) fun _ =>
      offline_bind (asksOnly_mono (asksOnly_attempt (offline_extractLayer reader d format t))
        fun _ _ => trivial) fun r => ?_
  split
  · exact offline_bind (asksOnly_mono (asksOnly_attempt (offline_removeDirAllWritable t))
      fun _ _ => trivial) fun _ => trivial
  · exact offline_withContext (offline_publishDirectory _ _)

theorem offline_newMutable : Offline (Storage.newMutable env) := by
  refine offline_bind (offline_bind (offline_acquireLock _ _) fun _ => trivial) fun st =>
    offline_bind (offline_pathExists _) fun b => ?_
  have rest : Offline (do
      orContext ⟨"failed to create temporary directory {}", [st.temporaryPath.display]⟩
        (← createDirAll st.temporaryPath)
      return st : M Storage) := offline_step (offline_createDirAll _) fun _ => trivial
  cases b
  · exact rest
  · exact offline_bind (offline_withContext (offline_removeDirAllWritable _)) fun _ => rest

/-! ## Commands that stay offline -/

theorem offline_attempt {p : M α} (h : Offline p) : Offline p.attempt :=
  asksOnly_mono (asksOnly_attempt h) fun _ _ => trivial

theorem offline_lockLayerForPrune (d : Bytes) : Offline (st.lockLayerForPrune d) := by
  refine offline_bind (offline_attempt (offline_openLockFile _)) fun r => ?_
  split
  · trivial
  · refine offline_bind (offline_call trivial) fun r => ?_
    split <;> trivial

theorem offline_removeLockFile (p : PathBuf) : Offline (Storage.removeLockFile p) :=
  offline_last (offline_call trivial)

theorem offline_pruneLayer (used : List Bytes) (removed : Nat) (d : Bytes) :
    Offline (pruneLayer env st used removed d) := by
  unfold pruneLayer
  split
  · trivial
  · refine offline_bind (offline_lockLayerForPrune st d) fun r => ?_
    split
    · refine offline_bind (offline_attempt (offline_bind (offline_withContext
        (offline_withContext (offline_removeDirectory st _ _))) fun _ =>
          offline_removeLockFile _)) fun r => ?_
      split
      · exact offline_bind (offline_call trivial) fun _ => trivial
      · trivial
    · exact offline_bind (offline_call trivial) fun _ => trivial
    · exact offline_bind (offline_call trivial) fun _ => trivial

theorem offline_cleanupLayerLock (d : Bytes) : Offline (cleanupLayerLock st d) := by
  refine offline_bind (offline_getLayerPath st d) fun o => ?_
  split
  · trivial
  · refine offline_bind (offline_lockLayerForPrune st d) fun r => ?_
    split
    · refine offline_bind (offline_attempt (offline_withContext (offline_removeLockFile _)))
        fun r => ?_
      split
      · exact offline_call trivial
      · trivial
    · trivial
    · exact offline_call trivial

/-- What is read of a directory iterator, where nothing asks the network. -/
theorem offline_over {p : M (Iter α)} {f : Iter α → M β} (h : p.AsksOnly Silent Iter.Offline)
    (hf : ∀ it : Iter α, it.Offline → Offline (f it)) : Offline (p.bind f) := asksOnly_bind h hf

theorem offline_turns {β : Type} {body : β → M Unit} (h : ∀ b, Offline (body b)) (l : List β) :
    Offline (Prog.each body l) := by
  induction l with
  | nil => trivial
  | cons b l ih => exact offline_bind (h b) fun _ => ih

theorem offline_each {it : Iter α} (h : it.Offline) (m : Msg) {body : α → M Unit}
    (hbody : ∀ a, Offline (body a)) : Offline (it.each m body) := by
  refine offline_bind (offline_turns (fun name => ?_) _) fun _ => offline_finish it m
  refine offline_bind (offline_withContext (h name)) fun o => ?_
  cases o with
  | none => trivial
  | some a => exact hbody a

theorem offline_readUsedManifests : Offline (readUsedManifests st) :=
  offline_over (offline_readContainers st) fun _ hit => offline_tryFold hit _ _ fun _ n =>
    offline_bind (offline_withContext (offline_readContainerManifestDigest st n)) fun _ => trivial

theorem offline_readUsedLayers (used : List Bytes) : Offline (readUsedLayers env st used) := by
  refine offline_bind (offline_call trivial) fun l => offline_fold (fun _ d => ?_) _ _
  exact offline_bind (offline_withContext (offline_readManifest st d)) fun _ => trivial

theorem offline_pruneManifests (used : List Bytes) : Offline (pruneManifests st used) := by
  refine offline_over (offline_readManifestDigests st) fun _ hit =>
    offline_tryFold hit _ _ fun removed d => ?_
  split
  · trivial
  · exact offline_bind (offline_withContext (offline_withContext (offline_removeFile st _ _)))
      fun _ => trivial

theorem offline_pruneLayers (used : List Bytes) : Offline (pruneLayers env st used) :=
  offline_over (offline_readLayerDigests st) fun _ hit => offline_tryFold hit _ _ fun _ _ =>
    offline_pruneLayer st _ _ _

theorem offline_cleanupLayerLocks : Offline (cleanupLayerLocks st) :=
  offline_over (offline_readLayerLockDigests st) fun _ hit => offline_each hit _ fun d =>
    offline_cleanupLayerLock st d

theorem offline_prune : Offline (prune env st) :=
  offline_bind (offline_readUsedManifests st) fun _ =>
    offline_bind (offline_readUsedLayers st _) fun _ =>
      offline_bind (offline_pruneManifests st _) fun _ =>
        offline_bind (offline_pruneLayers st _) fun _ =>
          offline_bind (offline_cleanupLayerLocks st) fun _ => offline_call trivial

theorem offline_uninstall (n : Bytes) : Offline (uninstall env st n) :=
  offline_bind (offline_withContext (offline_bind (offline_ensureContainerInstalled st n) fun _ =>
    offline_removeDirectory st _ _)) fun _ => offline_call trivial

theorem offline_countMissing (d : Bytes) (missing : Nat) (layer : Descriptor) :
    Offline (countMissing st d missing layer) := by
  refine offline_bind (offline_getLayerPath st _) fun o => ?_
  split
  · trivial
  · exact offline_bind (offline_call trivial) fun _ => trivial

theorem offline_checkManifest (counts : Nat × Nat) (d : Bytes) :
    Offline (checkManifest env st counts d) := by
  refine offline_bind (offline_withContext (offline_readManifestBytes st d)) fun bytes => ?_
  split
  · exact offline_bind (offline_call trivial) fun _ => trivial
  · split
    · exact offline_bind (offline_call trivial) fun _ => trivial
    · exact offline_bind (offline_fold (fun _ _ => offline_countMissing st _ _ _) _ _)
        fun _ => trivial

end Pakstak
