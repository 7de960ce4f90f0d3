/-
  The rules of the questions: what a program may rely on after one call.

  Each rule has the states the call can be seen in, then what holds when it has answered.
  A call that fails for a reason outside the tree leaves the tree as it was; `ensures_write`,
  `ensures_removeDirAll` and `ensures_unpack` have the trees on the way as well.
-/
import Pakstak.Lib.Places
import Pakstak.Run

namespace Pakstak

open Posix Prog

variable {env : Env} {I : World → Prop}

/-- Nothing but the log of requests and messages has changed. -/
structure Same (w w' : World) : Prop where
  root : w'.root = w.root
  held : w'.held = w.held

theorem Same.refl (w : World) : Same w w := ⟨rfl, rfl⟩

theorem Same.trans {w w' w'' : World} (h : Same w w') (h' : Same w' w'') : Same w w'' :=
  ⟨h'.root.trans h.root, h'.held.trans h.held⟩

/-! ## Messages and requests -/

theorem ensures_eprintln {P : Unit → World → Prop} {w : World} {m : Msg} (hI : I w)
    (h : ∀ w', Same w w' → w'.net = w.net → I w' ∧ P () w') :
    Ensures (machine env) I P (eprintln m) w :=
  ensures_call hI (fun _ h => h.elim) fun _ w' hw =>
    h w' (hw ▸ ⟨rfl, rfl⟩) (hw ▸ rfl)

theorem ensures_eprintError {P : Unit → World → Prop} {w : World} {m : Msg} {e : Err} (hI : I w)
    (h : ∀ w', Same w w' → w'.net = w.net → I w' ∧ P () w') :
    Ensures (machine env) I P (eprintError m e) w :=
  ensures_call hI (fun _ h => h.elim) fun _ w' hw =>
    h w' (hw ▸ ⟨rfl, rfl⟩) (hw ▸ rfl)

/-- The world with one more line on standard error. -/
def World.print (w : World) (m : Msg) (e : Option Err) : World :=
  { w with lines := w.lines ++ [(m, e)] }

theorem same_print (w : World) (m : Msg) (e : Option Err) : Same w (w.print m e) := ⟨rfl, rfl⟩

/-- The line printed, for a message or an error. -/
theorem ensures_printed {P : Unit → World → Prop} {w : World} {m : Msg} {e : Option Err} (hI : I w)
    (h : I (w.print m e) ∧ P () (w.print m e)) :
    Ensures (machine env) I P (Prog.call (Op.eprintln m e) : M Unit) w :=
  ensures_call hI (fun _ h => h.elim) fun _ _ hw => hw ▸ h

theorem ensures_get {request : Request} {P : Except HttpError Response → World → Prop} {w : World}
    (hI : I w)
    (h : ∀ r w', Same w w' → w'.net = w.net ++ [(request, r)] → I w' ∧ P r w') :
    Ensures (machine env) I P (get request) w :=
  ensures_call hI (fun _ h => h.elim) fun r w' hw =>
    h r w' (hw ▸ ⟨rfl, rfl⟩) (hw ▸ rfl)

theorem ensures_hashOrder {items : List Bytes} {P : List Bytes → World → Prop} {w : World}
    (hI : I w) (h : ∀ order, order.Perm items.dedup → P order w) :
    Ensures (machine env) I P (hashOrder items) w :=
  ensures_call hI (fun _ h => h.elim) fun r _ hw => hw.2 ▸ ⟨hI, h r hw.1⟩

/-! ## The log of requests -/

theorem Writes.net {a : Except Errno Node} {r : Except Errno Unit} {w w' : World}
    (h : Writes a w r w') : w'.net = w.net := by
  rcases h with ⟨_, _, _, rfl⟩ | ⟨_, _, _, rfl⟩ | ⟨_, rfl⟩ <;> rfl

theorem WritesSlowly.net {a : Except Errno Node} {part : Node → Prop} {r : Except Errno Unit}
    {w w' : World} (h : WritesSlowly a part w r w') : w'.net = w.net := by
  rcases h with h | ⟨_, _, _, rfl⟩
  · exact h.net
  · rfl

/-- Nothing is taken from the log of requests. -/
theorem net_of_step {o : Op} {w w' : World} {r : Reply o} (h : Step env o w r w') :
    w.net <+: w'.net := by
  have same (he : w'.net = w.net) : w.net <+: w'.net := he ▸ List.prefix_rfl
  cases o with
  | stat p => exact same (by rw [h.2])
  | lstat p => exact same (by rw [h.2])
  | read p => exact same (by rw [h.2])
  | readDir p => exact same (by rw [h.2])
  | mkdir p => exact same (Writes.net h)
  | write p data => exact same (WritesSlowly.net h)
  | rename p q => exact same (Writes.net h)
  | removeFile p => exact same (Writes.net h)
  | removeDirAll p => exact same (WritesSlowly.net h)
  | setPermissions p mode => exact same (Writes.net h)
  | openCreate p => exact same (Writes.net h)
  | createNew p => exact same (Writes.net h)
  | setXattr p name value => exact same (Writes.net h)
  | tryLock p mode => exact same (by rw [h.2])
  | setlk p => exact same (by rw [h.2])
  | unpack format body p => exact same (WritesSlowly.net h)
  | get request => exact ⟨[(request, r)], (congrArg World.net h).symm⟩
  | hashOrder items => exact same (by rw [h.2])
  | eprintln m e =>
    exact same (by rw [show w' = { w with lines := w.lines ++ [(m, e)] } from h])

theorem net_of_mid {o : Op} {w w' : World} (h : Mid o w w') : w'.net = w.net := by
  cases o with
  | write p data => obtain ⟨x, -, rfl⟩ := h; rfl
  | removeDirAll p => obtain ⟨x, -, rfl⟩ := h; rfl
  | unpack format body p => obtain ⟨x, -, rfl⟩ := h; rfl
  | _ => exact h.elim

theorem ensures_logged {α : Type} {P : α → World → Prop} {p : M α} {w : World}
    (h : Ensures (machine env) I P p w) :
    Ensures (machine env) (fun w' => I w' ∧ w.net <+: w'.net) P p w :=
  ensures_and_stable (fun _ _ _ _ hs hw => hw.trans (net_of_step hs))
    (fun _ _ _ hm hw => by rw [net_of_mid hm]; exact hw) h List.prefix_rfl

theorem endsUnder_logged {α : Type} {C : World → Prop} {P : α → World → Prop}
    {H : Err → World → Prop} {p : M α} {w : World} (h : EndsUnder (machine env) C I P H p w) :
    EndsUnder (machine env) C I P (fun e w' => H e w' ∧ w.net <+: w'.net) p w := by
  have hnet : Ensures ((machine env).under C) (fun w' => True ∧ w.net <+: w'.net)
      (fun _ _ => True) p w :=
    ensures_and_stable (fun _ _ _ _ hs hw => hw.trans (net_of_step hs.2))
      (fun _ _ _ hm hw => by rw [net_of_mid hm.2]; exact hw) ensures_true List.prefix_rfl
  refine wp_mono (wp_and h hnet) (fun _ hI => hI.1) fun r w' hI hr => ?_
  cases r with
  | ok a => exact hr.1
  | error e => exact fun hC => ⟨hr.1 hC, hI.2.2⟩

theorem ends_logged {α : Type} {P : α → World → Prop} {H : Err → World → Prop} {p : M α}
    {w : World} (h : Ends (machine env) I P H p w) :
    Ends (machine env) I (fun a w' => P a w' ∧ w.net <+: w'.net)
      (fun e w' => H e w' ∧ w.net <+: w'.net) p w := by
  refine wp_mono (wp_and h (ensures_logged ensures_true)) (fun _ hI => hI.1) fun r w' hI hr => ?_
  cases r with
  | ok a => exact ⟨hr.1, hI.2.2⟩
  | error e => exact ⟨hr.1, hI.2.2⟩

/-! ## Contexts -/

section

variable {K : Machine Op Reply World}

theorem ensures_withContext {α : Type} {P : α → World → Prop} {m : Msg} {p : M α} {w : World} :
    Ensures K I P (withContext m p) w ↔ Ensures K I P p w :=
  ensures_mapError

theorem ensures_orContext {α : Type} {P : α → World → Prop} {m : Msg} {r : Except Errno α}
    {w : World} (hI : I w) (h : ∀ a, r = .ok a → P a w) :
    Ensures K I P (orContext m r) w := by
  cases r with
  | ok a => exact ensures_ok hI (h a rfl)
  | error e => exact ensures_error hI

theorem ensures_bail {α : Type} {P : α → World → Prop} {m : Msg} {w : World} (hI : I w) :
    Ensures K I P (bail m) w := ensures_error hI

theorem ensures_fail {α : Type} {P : α → World → Prop} {e : Err} {w : World} (hI : I w) :
    Ensures K I P (Prog.fail e : M α) w := ensures_error hI

/-- A call, its context, and the rest. -/
theorem ensures_step {α β : Type} {p : M (Except Errno α)} {m : Msg} {f : α → M β}
    {P : α → World → Prop} {R : β → World → Prop} {w : World}
    (h : Ensures K I (fun r w' => ∀ a, r = .ok a → P a w') p w)
    (hf : ∀ a w', I w' → P a w' → Ensures K I R (f a) w') :
    Ensures K I R (p.bind fun r => (orContext m r).bind f) w :=
  ensures_bind h fun _ _ hI hr => ensures_bind (ensures_orContext hI hr) fun a w'' hI hP =>
    hf a w'' hI hP

/-- A call and its context, at the end. -/
theorem ensures_last {α : Type} {p : M (Except Errno α)} {m : Msg} {P : α → World → Prop}
    {w : World} (h : Ensures K I (fun r w' => ∀ a, r = .ok a → P a w') p w) :
    Ensures K I P (p.bind fun r => orContext m r) w :=
  ensures_bind h fun _ _ hI hr => ensures_orContext hI hr

theorem ends_orContext {α : Type} {P : α → World → Prop} {H : Err → World → Prop} {m : Msg}
    {r : Except Errno α} {w : World} (hI : I w) (h : ∀ a, r = .ok a → P a w)
    (hH : ∀ e, r = .error e → H (.context m (.io e)) w) :
    Ends K I P H (orContext m r) w := by
  cases r with
  | ok a => exact ends_ok hI (h a rfl)
  | error e => exact ends_error hI (hH e rfl)

/-- A call, its context, and the rest, with what holds after an error. -/
theorem ends_step {α β : Type} {p : M (Except Errno α)} {m : Msg} {f : α → M β}
    {P : α → World → Prop} {R : β → World → Prop} {H : Err → World → Prop} {w : World}
    (h : Ends K I (fun r w' => (∀ a, r = .ok a → P a w') ∧
      ∀ e, r = .error e → H (.context m (.io e)) w') H p w)
    (hf : ∀ a w', I w' → P a w' → Ends K I R H (f a) w') :
    Ends K I R H (p.bind fun r => (orContext m r).bind f) w :=
  ends_bind h fun _ _ hI hr => ends_bind (ends_orContext hI hr.1 hr.2) fun a w'' hI hP =>
    hf a w'' hI hP

theorem ends_last {α : Type} {p : M (Except Errno α)} {m : Msg} {P : α → World → Prop}
    {H : Err → World → Prop} {w : World}
    (h : Ends K I (fun r w' => (∀ a, r = .ok a → P a w') ∧
      ∀ e, r = .error e → H (.context m (.io e)) w') H p w) :
    Ends K I P H (p.bind fun r => orContext m r) w :=
  ends_bind h fun _ _ hI hr => ends_orContext hI hr.1 hr.2

end

theorem noSpin_orContext {α : Type} (m : Msg) (r : Except Errno α) : (orContext m r).NoSpin :=
  trivial

/-! ## Calls that read -/

theorem ensures_metadata {p : PathBuf} {P : Except Errno Inode → World → Prop} {w : World}
    (hI : I w) (h : P (stat w.root p) w)
    (hf : env.statFails p w.root → ∀ code, P (.error (.other code)) w) :
    Ensures (machine env) I P (Fs.metadata p) w :=
  ensures_call hI (fun _ h => h.elim) fun r w' hw => by
    obtain ⟨rfl | ⟨hs, code, rfl⟩, rfl⟩ := hw
    · exact ⟨hI, h⟩
    · exact ⟨hI, hf hs code⟩

theorem ensures_reads {α : Type} {a r : Except Errno α} {P : Except Errno α → World → Prop}
    {w w' : World} (hr : Reads a w r w') (hI : I w) (h : P a w)
    (hf : ∀ code, P (.error (.other code)) w) : I w' ∧ P r w' := by
  obtain ⟨rfl | ⟨code, rfl⟩, rfl⟩ := hr
  · exact ⟨hI, h⟩
  · exact ⟨hI, hf code⟩

theorem ensures_symlinkMetadata {p : PathBuf} {P : Except Errno Inode → World → Prop} {w : World}
    (hI : I w) (h : P (lstat w.root p) w) (hf : ∀ code, P (.error (.other code)) w) :
    Ensures (machine env) I P (Fs.symlinkMetadata p) w :=
  ensures_call hI (fun _ h => h.elim) fun _ _ hr => ensures_reads hr hI h hf

theorem ensures_read {p : PathBuf} {P : Except Errno Bytes → World → Prop} {w : World}
    (hI : I w) (h : P (Posix.read w.root p) w) (hf : ∀ code, P (.error (.other code)) w) :
    Ensures (machine env) I P (Fs.read p) w :=
  ensures_call hI (fun _ h => h.elim) fun _ _ hr => ensures_reads hr hI h hf

theorem ensures_readDir {p : PathBuf} {P : Except Errno Listing → World → Prop} {w : World}
    (hI : I w) (hok : ∀ names l, listDir w.root p = .ok names → Lists names l → P (.ok l) w)
    (herr : ∀ e, listDir w.root p = .error e → P (.error e) w)
    (hf : ∀ code, P (.error (.other code)) w) :
    Ensures (machine env) I P (Fs.readDir p) w :=
  ensures_call hI (fun _ h => h.elim) fun r w' hr => by
    obtain ⟨hr, rfl⟩ := hr
    refine ⟨hI, ?_⟩
    rcases hr with hr | ⟨code, rfl⟩
    · cases hl : listDir w'.root p with
      | error e =>
        simp only [hl] at hr
        exact hr ▸ herr e hl
      | ok names =>
        simp only [hl] at hr
        obtain ⟨l, rfl, hl'⟩ := hr
        exact hok names l hl hl'
    · exact hf code

/-- What `Path::is_dir` answers. -/
def isDirPath (x : Node) (p : PathBuf) : Bool :=
  match stat x p with
  | .ok i => isDir i
  | .error _ => false

/-- What `Path::is_file` answers. -/
def isFilePath (x : Node) (p : PathBuf) : Bool :=
  match stat x p with
  | .ok i => isFile i
  | .error _ => false

/-- What `Path::exists` answers. -/
def existsPath (x : Node) (p : PathBuf) : Bool := (stat x p).isOk

theorem ensures_metadata_bind {α : Type} {p : PathBuf} {f : Except Errno Inode → M α}
    {P : α → World → Prop} {w : World} (hI : I w)
    (h : Ensures (machine env) I P (f (stat w.root p)) w)
    (hf : env.statFails p w.root → ∀ code,
      Ensures (machine env) I P (f (.error (.other code))) w) :
    Ensures (machine env) I P ((Fs.metadata p).bind f) w := by
  refine ensures_bind
    (P := fun r w' => w' = w ∧ Ensures (machine env) I P (f r) w)
    (ensures_metadata hI ⟨rfl, h⟩ fun hs code => ⟨rfl, hf hs code⟩) ?_
  rintro r w' - ⟨rfl, hr⟩
  exact hr

theorem ensures_pathIsDir {p : PathBuf} {P : Bool → World → Prop} {w : World} (hI : I w)
    (h : P (isDirPath w.root p) w) (hf : env.statFails p w.root → P false w) :
    Ensures (machine env) I P (pathIsDir p) w := by
  refine ensures_metadata_bind hI ?_ fun hs _ => ensures_ok hI (hf hs)
  rw [isDirPath] at h
  cases hs : stat w.root p with
  | ok i =>
    rw [hs] at h
    exact ensures_ok hI h
  | error e =>
    rw [hs] at h
    exact ensures_ok hI h

theorem ensures_pathIsFile {p : PathBuf} {P : Bool → World → Prop} {w : World} (hI : I w)
    (h : P (isFilePath w.root p) w) (hf : env.statFails p w.root → P false w) :
    Ensures (machine env) I P (pathIsFile p) w := by
  refine ensures_metadata_bind hI ?_ fun hs _ => ensures_ok hI (hf hs)
  rw [isFilePath] at h
  cases hs : stat w.root p with
  | ok i =>
    rw [hs] at h
    exact ensures_ok hI h
  | error e =>
    rw [hs] at h
    exact ensures_ok hI h

theorem ensures_pathExists {p : PathBuf} {P : Bool → World → Prop} {w : World} (hI : I w)
    (h : P (existsPath w.root p) w) (hf : env.statFails p w.root → P false w) :
    Ensures (machine env) I P (pathExists p) w := by
  refine ensures_metadata_bind hI ?_ fun hs _ => ensures_ok hI (hf hs)
  rw [existsPath] at h
  cases hs : stat w.root p with
  | ok i =>
    rw [hs] at h
    exact ensures_ok hI h
  | error e =>
    rw [hs] at h
    exact ensures_ok hI h

theorem noError_pathIsDir (p : PathBuf) : (pathIsDir p).NoError :=
  noError_bind (noError_call _) fun r => by cases r <;> trivial

theorem noError_pathExists (p : PathBuf) : (pathExists p).NoError :=
  noError_bind (noError_call _) fun r => by cases r <;> trivial

theorem noError_createDirAllUpTo (depth : Nat) (p : PathBuf) :
    (createDirAllUpTo depth p).NoError := by
  induction depth generalizing p with
  | zero => trivial
  | succ depth ih =>
    have check (e : Errno) : NoError (do
        if ← pathIsDir p then return .ok () else return .error e : M (Except Errno Unit)) :=
      noError_bind (noError_pathIsDir p) fun b => by cases b <;> trivial
    rw [createDirAllUpTo]
    refine noError_bind (noError_call _) fun r => ?_
    split
    · trivial
    · split
      · trivial
      · refine noError_bind (ih _) fun r => ?_
        split
        · trivial
        · refine noError_bind (noError_call _) fun r => ?_
          split
          · trivial
          · exact check _
    · exact check _

theorem noError_createDirAll (p : PathBuf) : (createDirAll p).NoError :=
  noError_createDirAllUpTo _ p

/-! ## Calls that change the tree -/

/-- The same world with another tree. -/
def World.withRoot (w : World) (x : Node) : World := { w with root := x }

/-- What the calls on the tree leave alone. -/
def World.aside (w : World) :
    List Place × List (Request × Except HttpError Response) × List (Msg × Option Err) :=
  (w.held, w.net, w.lines)

@[simp] theorem withRoot_root (w : World) (x : Node) : (w.withRoot x).root = x := rfl

@[simp] theorem withRoot_held (w : World) (x : Node) : (w.withRoot x).held = w.held := rfl

@[simp] theorem withRoot_net (w : World) (x : Node) : (w.withRoot x).net = w.net := rfl

theorem ensures_writes {a : Except Errno Node} {r : Except Errno Unit}
    {P : Except Errno Unit → World → Prop} {w w' : World} (hr : Writes a w r w') (hI : I w)
    (hok : ∀ x, a = .ok x → I (w.withRoot x) ∧ P (.ok ()) (w.withRoot x))
    (herr : ∀ e, a = .error e ∨ (∃ code, e = .other code) → P (.error e) w) : I w' ∧ P r w' := by
  rcases hr with ⟨x, ha, rfl, rfl⟩ | ⟨e, ha, rfl, rfl⟩ | ⟨⟨code, rfl⟩, rfl⟩
  · exact hok x ha
  · exact ⟨hI, herr e (.inl ha)⟩
  · exact ⟨hI, herr _ (.inr ⟨code, rfl⟩)⟩

section

variable {P : Except Errno Unit → World → Prop} {w : World} {p q : PathBuf}

theorem ensures_createDir (hI : I w)
    (hok : ∀ x, mkdir w.root p = .ok x → I (w.withRoot x) ∧ P (.ok ()) (w.withRoot x))
    (herr : ∀ e, mkdir w.root p = .error e ∨ (∃ code, e = .other code) → P (.error e) w) :
    Ensures (machine env) I P (Fs.createDir p) w :=
  ensures_call hI (fun _ h => h.elim) fun _ _ hr => ensures_writes hr hI hok herr

theorem ensures_rename (hI : I w)
    (hok : ∀ x, Posix.rename w.root p q = .ok x → I (w.withRoot x) ∧ P (.ok ()) (w.withRoot x))
    (herr : ∀ e, Posix.rename w.root p q = .error e ∨ (∃ code, e = .other code) →
      P (.error e) w) :
    Ensures (machine env) I P (Fs.rename p q) w :=
  ensures_call hI (fun _ h => h.elim) fun _ _ hr => ensures_writes hr hI hok herr

theorem ensures_removeFile (hI : I w)
    (hok : ∀ x, unlink w.root p = .ok x → I (w.withRoot x) ∧ P (.ok ()) (w.withRoot x))
    (herr : ∀ e, unlink w.root p = .error e ∨ (∃ code, e = .other code) → P (.error e) w) :
    Ensures (machine env) I P (Fs.removeFile p) w :=
  ensures_call hI (fun _ h => h.elim) fun _ _ hr => ensures_writes hr hI hok herr

theorem ensures_setPermissions {mode : Nat} (hI : I w)
    (hok : ∀ x, changeMeta (fun m => { m with mode }) w.root p = .ok x →
      I (w.withRoot x) ∧ P (.ok ()) (w.withRoot x))
    (herr : ∀ e, P (.error e) w) :
    Ensures (machine env) I P (Fs.setPermissions p mode) w :=
  ensures_call hI (fun _ h => h.elim) fun _ _ hr => ensures_writes hr hI hok fun e _ => herr e

theorem ensures_setxattr {name value : Bytes} (hI : I w)
    (hok : ∀ x, changeMeta (Meta.setXattr name value) w.root p = .ok x →
      I (w.withRoot x) ∧ P (.ok ()) (w.withRoot x))
    (herr : ∀ e, P (.error e) w) :
    Ensures (machine env) I P (Fs.setxattr p name value) w :=
  ensures_call hI (fun _ h => h.elim) fun _ _ hr => ensures_writes hr hI hok fun e _ => herr e

theorem ensures_openCreate (hI : I w)
    (hok : ∀ x, Posix.openCreate w.root p = .ok x → I (w.withRoot x) ∧ P (.ok ()) (w.withRoot x))
    (herr : ∀ e, P (.error e) w) :
    Ensures (machine env) I P (Fs.openCreate p) w :=
  ensures_call hI (fun _ h => h.elim) fun _ _ hr => ensures_writes hr hI hok fun e _ => herr e

theorem ensures_createNew (hI : I w)
    (hok : ∀ x, Posix.createNew w.root p = .ok x → I (w.withRoot x) ∧ P (.ok ()) (w.withRoot x))
    (herr : ∀ e, P (.error e) w) :
    Ensures (machine env) I P (Fs.createNew p) w :=
  ensures_call hI (fun _ h => h.elim) fun _ _ hr => ensures_writes hr hI hok fun e _ => herr e

/-- A call that can be seen half done: `part` are the trees on the way. -/
theorem ensures_writesSlowly {a : Except Errno Node} {part : Node → Prop} {r : Except Errno Unit}
    {w' : World} (hr : WritesSlowly a part w r w') (hI : I w)
    (hpart : ∀ x, part x → I (w.withRoot x) ∧ ∀ code, P (.error (.other code)) (w.withRoot x))
    (hok : ∀ x, a = .ok x → I (w.withRoot x) ∧ P (.ok ()) (w.withRoot x))
    (herr : ∀ e, P (.error e) w) : I w' ∧ P r w' := by
  rcases hr with hr | ⟨⟨code, rfl⟩, x, hx, rfl⟩
  · exact ensures_writes hr hI hok fun e _ => herr e
  · exact ⟨(hpart x hx).1, (hpart x hx).2 code⟩

theorem ensures_write {data : Bytes} (hI : I w)
    (hpart : ∀ x, PartWritten w.root p data x →
      I (w.withRoot x) ∧ ∀ code, P (.error (.other code)) (w.withRoot x))
    (hok : ∀ c, openTarget w.root p = .ok c → I (w.withRoot (withData w.root c data)) ∧
      P (.ok ()) (w.withRoot (withData w.root c data)))
    (herr : ∀ e, P (.error e) w) :
    Ensures (machine env) I P (Fs.write p data) w := by
  refine ensures_call hI (fun _ ⟨x, hx, hw⟩ => hw ▸ (hpart x hx).1) fun r w' hr =>
    ensures_writesSlowly hr hI hpart (fun x hx => ?_) herr
  cases ho : openTarget w.root p with
  | error e => rw [ho] at hx; cases hx
  | ok c => rw [ho] at hx; cases hx; exact hok c ho

theorem ensures_removeDirAll (hI : I w)
    (hpart : ∀ x, PartRemoved w.root p x →
      I (w.withRoot x) ∧ ∀ code, P (.error (.other code)) (w.withRoot x))
    (hok : ∀ c, removalTarget w.root p = .ok c → I (w.withRoot (w.root.put c none)) ∧
      P (.ok ()) (w.withRoot (w.root.put c none)))
    (herr : ∀ e, P (.error e) w) :
    Ensures (machine env) I P (Fs.removeDirAll p) w := by
  refine ensures_call hI (fun _ ⟨x, hx, hw⟩ => hw ▸ (hpart x hx).1) fun r w' hr =>
    ensures_writesSlowly hr hI hpart (fun x hx => ?_) herr
  cases ho : removalTarget w.root p with
  | error e => rw [ho] at hx; cases hx
  | ok c => rw [ho] at hx; cases hx; exact hok c ho

theorem ensures_unpack {format : LayerFormat} {body : Body} (hI : I w)
    (hpart : ∀ x, PartUnpacked w.root p x →
      I (w.withRoot x) ∧ ∀ code, P (.error (.other code)) (w.withRoot x))
    (hok : ∀ x, unpacked env format body w.root p = .ok x →
      I (w.withRoot x) ∧ P (.ok ()) (w.withRoot x))
    (herr : ∀ e, P (.error e) w) :
    Ensures (machine env) I P (Fs.unpack format body p) w :=
  ensures_call hI (fun _ ⟨x, hx, hw⟩ => hw ▸ (hpart x hx).1) fun _ _ hr =>
    ensures_writesSlowly hr hI hpart hok herr

end

/-! ## Locks -/

theorem ensures_tryLock {p : PathBuf} {mode : LockMode} {P : Except Errno Unit → World → Prop}
    {w : World} (hI : I w) (h : ∀ r, P r w) :
    Ensures (machine env) I P (Fs.tryLock p mode) w :=
  ensures_call hI (fun _ h => h.elim) fun r _ hw => hw.2 ▸ ⟨hI, h r⟩

theorem ensures_setlk {p : PathBuf} {P : Except Errno Unit → World → Prop} {w : World}
    (hI : I w) (h : ∀ r, Locks w p r → P r w) :
    Ensures (machine env) I P (Fs.setlk p) w :=
  ensures_call hI (fun _ h => h.elim) fun r _ hw => hw.2 ▸ ⟨hI, h r hw.1⟩

end Pakstak
