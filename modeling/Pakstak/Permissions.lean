/-
  The conversion of whiteouts by the owner of a tree, whatever the modes of its directories.

  `Obeys may L` are the answers of a file system that lets a call through exactly as the modes
  grant it (`Grants`), and otherwise fails for no reason outside the tree. No mode is changed on the
  way but those of the markers, and a marker is removed from its directory: the bits that count
  are those of the directories.

  Proved:
  * `ends_convert`: the conversion succeeds if every directory is `Workable`, and fails if one is
    not; `halts_convert`: it comes to an end.
  * `convert_returns_iff`: with both, for the owner of the tree.
  * `convert_fails_readOnly`: a marker in a directory of mode 0555.
-/
import Pakstak.Footprint
import Pakstak.Lib.Access

namespace Pakstak

open Posix Prog FileTree

/-! ## Answers by permission -/

/-- What a call reports when the tree alone decides. -/
def told (a : Except Errno Node) : Except Errno Unit := a.map fun _ => ()

/-- The calls of the conversion that are let through. -/
def Grants (may : Access → Nat → Prop) : Op → World → Prop
  | .lstat p, w => Enters may w.root p
  | .readDir p, w => Touches may w.root p .read
  | .setPermissions p _, w => Follows may w.root p
  | .createNew p, w => Alters may w.root p
  | .removeFile p, w => Alters may w.root p
  | .setXattr p _ _, w => Touches may w.root p .write
  | _, _ => True

/-- The answer is that of the tree. A directory is listed whole, if that can be done in an
    order that `L` allows. -/
def Works (L : Place → List Bytes → Prop) : (o : Op) → World → Reply o → Prop
  | .lstat p, w, r => r = lstat w.root p
  | .readDir p, w, r => ∀ names c l, listDir w.root p = .ok names → walk w.root p = .ok c →
      l.Perm names → L c l → ∃ l', r = .ok l' ∧ l'.broken = none
  | .setPermissions p mode, w, r =>
    r = told (changeMeta (fun m => { m with mode }) w.root p)
  | .createNew p, w, r => r = told (createNew w.root p)
  | .removeFile p, w, r => r = told (unlink w.root p)
  | .setXattr p name value, w, r =>
    r = told (changeMeta (Meta.setXattr name value) w.root p)
  | _, _, _ => True

/-- The call fails. -/
def Denied : (o : Op) → Reply o → Prop
  | .lstat _, r => ∃ e, r = .error e
  | .readDir _, r => ∃ e, r = .error e
  | .setPermissions _ _, r => ∃ e, r = .error e
  | .createNew _, r => ∃ e, r = .error e
  | .removeFile _, r => ∃ e, r = .error e
  | .setXattr _ _ _, r => ∃ e, r = .error e
  | _, _ => True

/-- The answer is as the modes say, and a listing in an order that `L` allows. -/
def Obeys (may : Access → Nat → Prop) (L : Place → List Bytes → Prop) (o : Op) (w : World)
    (r : Reply o) : Prop :=
  InOrder L o w r ∧ (Grants may o w → Works L o w r) ∧ (¬ Grants may o w → Denied o r)

/-- The machine whose file system goes by the modes. -/
abbrev obeying (env : Env) (may : Access → Nat → Prop) (L : Place → List Bytes → Prop) :
    Machine Op Reply World := (machine env).only (Obeys may L)

variable {env : Env} {may : Access → Nat → Prop} {L : Place → List Bytes → Prop}

theorem told_effect (w : World) (a : Except Errno Node) :
    (Script.effect w a).1 = told a := by
  cases a <;> rfl

/-- Every question has an answer. -/
theorem obeying_total (o : Op) (w : World) : ∃ r w', (obeying env may L).step o w r w' := by
  by_cases hg : Grants may o w
  · by_cases hd : ∃ p, o = .readDir p
    · obtain ⟨p, rfl⟩ := hd
      cases hn : listDir w.root p with
      | error e =>
        refine ⟨.error e, w, ⟨.inl ?_, rfl⟩, (fun l _ hl => by cases hl), fun _ => ?_,
          fun h => absurd hg h⟩
        · rw [hn]
        · intro names c l hnames
          rw [hn] at hnames
          cases hnames
      | ok names =>
        by_cases hl : ∃ l c, walk w.root p = .ok c ∧ l.Perm names ∧ L c l
        · obtain ⟨l, c, hc, hperm, hL⟩ := hl
          refine ⟨.ok ⟨l, none⟩, w, ⟨.inl ?_, rfl⟩, fun l' c' hl' _ hc' => ?_,
            fun _ _ _ _ _ _ _ _ => ⟨_, rfl, rfl⟩, fun h => absurd hg h⟩
          · rw [hn]
            exact ⟨_, rfl, .inl ⟨rfl, hperm⟩⟩
          · rw [hc] at hc'
            cases hc'
            cases hl'
            exact hL
        · -- no order is allowed: the listing breaks off
          refine ⟨.ok ⟨[], some (.other 5)⟩, w, ⟨.inl ?_, rfl⟩, fun l' c' hl' hb => ?_,
            fun _ names' c l hnames hc hperm hL => ?_, fun h => absurd hg h⟩
          · rw [hn]
            exact ⟨_, rfl, .inr ⟨5, rfl, List.nodup_nil, List.nil_subset _⟩⟩
          · cases hl'
            cases hb
          · rw [hn] at hnames
            cases hnames
            exact absurd ⟨l, c, hc, hperm, hL⟩ hl
    · refine ⟨_, _, calm.reply_step env o w, ?_, fun _ => ?_, fun h => absurd hg h⟩
      · cases o with
        | readDir p => exact absurd ⟨p, rfl⟩ hd
        | _ => trivial
      · cases o with
        | readDir p => exact absurd ⟨p, rfl⟩ hd
        | lstat p => rfl
        | setPermissions p mode => exact told_effect _ _
        | createNew p => exact told_effect _ _
        | removeFile p => exact told_effect _ _
        | setXattr p name value => exact told_effect _ _
        | _ => trivial
  · -- the call is denied
    have denied {o : Op} {r : Reply o} (hs : Step env o w r w) (hi : InOrder L o w r)
        (hg : ¬ Grants may o w) (hr : Denied o r) :
        ∃ r w', (obeying env may L).step o w r w' :=
      ⟨r, w, hs, hi, fun h => absurd h hg, fun _ => hr⟩
    cases o with
    | lstat p => exact denied (o := .lstat p) ⟨.inr ⟨13, rfl⟩, rfl⟩ trivial hg ⟨_, rfl⟩
    | readDir p =>
      exact denied (o := .readDir p) ⟨.inr ⟨13, rfl⟩, rfl⟩ (fun _ _ h => by cases h) hg ⟨_, rfl⟩
    | setPermissions p mode =>
      exact denied (o := .setPermissions p mode) (.inr (.inr ⟨⟨13, rfl⟩, rfl⟩)) trivial hg ⟨_, rfl⟩
    | createNew p =>
      exact denied (o := .createNew p) (.inr (.inr ⟨⟨13, rfl⟩, rfl⟩)) trivial hg ⟨_, rfl⟩
    | removeFile p =>
      exact denied (o := .removeFile p) (.inr (.inr ⟨⟨13, rfl⟩, rfl⟩)) trivial hg ⟨_, rfl⟩
    | setXattr p name value =>
      exact denied (o := .setXattr p name value) (.inr (.inr ⟨⟨13, rfl⟩, rfl⟩)) trivial hg
        ⟨_, rfl⟩
    | _ => exact absurd trivial hg

/-! ## Calls -/

section

variable {w : World} {p : PathBuf} {H : Err → World → Prop}

theorem ends_obeying {o : Op} {P : Reply o → World → Prop} (hmid : ∀ w', ¬ Mid o w w')
    (h : ∀ r w', Step env o w r w' → InOrder L o w r → (Grants may o w → Works L o w r) →
      (¬ Grants may o w → Denied o r) → P r w') :
    Ends (obeying env may L) (fun _ => True) P H (Prog.call o : M (Reply o)) w :=
  ends_call (ensures_call trivial (fun w' hw => absurd hw (hmid w'))
    fun r w' hs => ⟨trivial, h r w' hs.1 hs.2.1 hs.2.2.1 hs.2.2.2⟩)

theorem ends_symlinkMetadata {P : Except Errno Inode → World → Prop}
    (hok : Enters may w.root p → P (lstat w.root p) w)
    (hno : ¬ Enters may w.root p → ∀ e, P (.error e) w) :
    Ends (obeying env may L) (fun _ => True) P H (Fs.symlinkMetadata p) w :=
  ends_obeying (fun _ h => h) fun r w' hs _ hg hn => by
    obtain ⟨-, rfl⟩ := hs
    by_cases h : Enters may w'.root p
    · obtain rfl := hg h
      exact hok h
    · obtain ⟨e, rfl⟩ := hn h
      exact hno h e

/-- A call that changes the tree: it does, or reports the error of the tree, or is refused. -/
theorem writes_told {G : Prop} {a : Except Errno Node} {r : Except Errno Unit} {w' : World}
    {P : Except Errno Unit → World → Prop} (hs : Writes a w r w') (hg : G → r = told a)
    (hn : ¬ G → ∃ e, r = .error e) (hok : G → ∀ x, a = .ok x → P (.ok ()) (w.withRoot x))
    (herr : ∀ e, (G → a = .error e) → P (.error e) w) : P r w' := by
  by_cases h : G
  · obtain rfl := hg h
    rcases hs with ⟨x, rfl, -, rfl⟩ | ⟨e, rfl, -, rfl⟩ | ⟨⟨code, hr⟩, rfl⟩
    · exact hok h x rfl
    · exact herr e fun _ => rfl
    · cases a with
      | ok x => cases hr
      | error e => exact herr e fun _ => rfl
  · obtain ⟨e, rfl⟩ := hn h
    rcases hs with ⟨x, -, hr, -⟩ | ⟨e', -, -, rfl⟩ | ⟨-, rfl⟩
    · cases hr
    · exact herr e fun h' => absurd h' h
    · exact herr e fun h' => absurd h' h

variable {P : Except Errno Unit → World → Prop}

theorem ends_setPermissions {mode : Nat}
    (hok : Follows may w.root p → ∀ x, changeMeta (fun m => { m with mode }) w.root p = .ok x →
      P (.ok ()) (w.withRoot x))
    (herr : ∀ e, (Follows may w.root p →
      changeMeta (fun m => { m with mode }) w.root p = .error e) → P (.error e) w) :
    Ends (obeying env may L) (fun _ => True) P H (Fs.setPermissions p mode) w :=
  ends_obeying (fun _ h => h) fun _ _ hs _ hg hn => writes_told hs hg hn hok herr

theorem ends_createNew
    (hok : Alters may w.root p → ∀ x, createNew w.root p = .ok x → P (.ok ()) (w.withRoot x))
    (herr : ∀ e, (Alters may w.root p → createNew w.root p = .error e) → P (.error e) w) :
    Ends (obeying env may L) (fun _ => True) P H (Fs.createNew p) w :=
  ends_obeying (fun _ h => h) fun _ _ hs _ hg hn => writes_told hs hg hn hok herr

theorem ends_removeFile
    (hok : Alters may w.root p → ∀ x, unlink w.root p = .ok x → P (.ok ()) (w.withRoot x))
    (herr : ∀ e, (Alters may w.root p → unlink w.root p = .error e) → P (.error e) w) :
    Ends (obeying env may L) (fun _ => True) P H (Fs.removeFile p) w :=
  ends_obeying (fun _ h => h) fun _ _ hs _ hg hn => writes_told hs hg hn hok herr

theorem ends_setxattr {name value : Bytes}
    (hok : Touches may w.root p .write →
      ∀ x, changeMeta (Meta.setXattr name value) w.root p = .ok x → P (.ok ()) (w.withRoot x))
    (herr : ∀ e, (Touches may w.root p .write →
      changeMeta (Meta.setXattr name value) w.root p = .error e) → P (.error e) w) :
    Ends (obeying env may L) (fun _ => True) P H (Fs.setxattr p name value) w :=
  ends_obeying (fun _ h => h) fun _ _ hs _ hg hn => writes_told hs hg hn hok herr

/-- A directory that can be listed in an allowed order is, and in such an order. -/
theorem ends_readDir {P : Except Errno Listing → World → Prop} {c : Place} {names l₀ : List Bytes}
    (hw : walk w.root p = .ok c) (hl : listDir w.root p = .ok names) (hperm : l₀.Perm names)
    (hL : L c l₀)
    (hok : Touches may w.root p .read → ∀ l, l.Perm names → L c l → P (.ok ⟨l, none⟩) w)
    (hno : ¬ Touches may w.root p .read → ∀ e, P (.error e) w) :
    Ends (obeying env may L) (fun _ => True) P H (Fs.readDir p) w :=
  ends_obeying (fun _ h => h) fun r w' hs ho hg hn => by
    obtain ⟨hs, rfl⟩ := hs
    by_cases h : Touches may w'.root p .read
    · obtain ⟨⟨l, broken⟩, rfl, rfl⟩ := hg h names c l₀ hl hw hperm hL
      refine hok h l ?_ (ho _ c rfl rfl hw)
      rcases hs with hs | ⟨code, hs⟩
      · rw [hl] at hs
        obtain ⟨l', hl', ⟨-, hp⟩ | ⟨code, hb, -⟩⟩ := hs
        · cases hl'
          exact hp
        · cases hl'
          cases hb
      · cases hs
    · obtain ⟨e, rfl⟩ := hn h
      exact hno h e

end

/-! ## The modes of the directories -/

/-- The mode of a directory. -/
def dirMode (f : Labels) (q : Place) : Option Nat :=
  match f q with
  | some (.inr m) => some m.mode
  | _ => none

/-- What stands there is no directory, or grants the access. -/
def May (may : Access → Nat → Prop) (a : Access) (f : Labels) (q : Place) : Prop :=
  ∀ mode, dirMode f q = some mode → may a mode

/-- The directory that a marker in `e` may change, if it is one. -/
def targetOf (e : Place) (t : Bytes) : Place :=
  if t = dot then e else if t = dotdot then e.dropLast else e ++ [t]

/-- A directory that the conversion can handle. It is listed; if it has entries, they are looked
    up; if there are markers, they are removed, and without the opaque marker the directories
    they mean get their attribute. -/
structure Workable (may : Access → Nat → Prop) (f : Labels) (e : Place) : Prop where
  list : May may .read f e
  enter : ∀ n, Plain n → f (e ++ [n]) ≠ none → May may .search f e
  clear : ∀ n, Plain n → IsMarker n → f (e ++ [n]) ≠ none → May may .write f e
  mark : ∀ t, t ≠ [] → Plain (markerOf t) → f (e ++ [markerOf t]) ≠ none →
    f (e ++ [opaqueMarker]) = none → May may .write f (targetOf e t)

section

variable {f g : Labels} {e q : Place} {n t : Bytes} {l : List Bytes} {a : Access}

theorem dirMode_eq_some {mode : Nat} :
    dirMode f q = some mode ↔ ∃ m, f q = some (.inr m) ∧ m.mode = mode := by
  rw [dirMode]
  split
  · rename_i m hm
    simp [hm]
  · rename_i hno
    refine iff_of_false (by simp) ?_
    rintro ⟨m, hm, -⟩
    exact hno m hm

theorem dirIn_iff_dirMode : DirIn f q ↔ ∃ mode, dirMode f q = some mode := by
  constructor
  · rintro ⟨m, hm⟩
    exact ⟨m.mode, dirMode_eq_some.mpr ⟨m, hm, rfl⟩⟩
  · rintro ⟨mode, hmode⟩
    obtain ⟨m, hm, -⟩ := dirMode_eq_some.mp hmode
    exact ⟨m, hm⟩

theorem dirIn_congr (h : dirMode g = dirMode f) (q : Place) : DirIn g q ↔ DirIn f q := by
  rw [dirIn_iff_dirMode, dirIn_iff_dirMode, h]

theorem may_congr (h : dirMode g = dirMode f) : May may a g q ↔ May may a f q := by
  rw [May, May, h]

theorem may_of_not_dirIn (h : ¬ DirIn f q) : May may a f q := fun mode hm =>
  absurd (dirIn_iff_dirMode.mpr ⟨mode, hm⟩) h

theorem dirMode_map_opaqueInode (h : g q = f q ∨ g q = (f q).map opaqueInode) :
    dirMode g q = dirMode f q := by
  rw [dirMode, dirMode]
  rcases h with h | h
  · rw [h]
  · rw [h]
    cases f q with
    | none => rfl
    | some i => cases i <;> rfl

theorem dirMode_makeOpaque (q : Place) (f : Labels) : dirMode (makeOpaque q f) = dirMode f := by
  funext r
  refine dirMode_map_opaqueInode ?_
  by_cases hr : r = q
  · subst hr
    exact .inr (makeOpaque_self r f)
  · exact .inl (makeOpaque_of_ne hr f)

/-- Where there was no directory, and comes none, the directories are the same. -/
theorem dirMode_update {o : Option Inode} (hf : ¬ DirIn f q) (ho : ∀ m, o ≠ some (.inr m)) :
    dirMode (Function.update f q o) = dirMode f := by
  funext r
  by_cases hr : r = q
  · subst hr
    have none {g : Labels} (hg : ¬ DirIn g r) : dirMode g r = none :=
      Option.eq_none_iff_forall_not_mem.mpr fun mode hm => hg (dirIn_iff_dirMode.mpr ⟨mode, hm⟩)
    rw [none hf, none]
    rintro ⟨m, hm⟩
    rw [Function.update_self] at hm
    exact ho m hm
  · rw [dirMode, Function.update_of_ne hr, dirMode]

theorem dirMode_settle (e : Place) (t : Bytes) (f : Labels) :
    dirMode (settle e t f) = dirMode f := by
  rw [settle]
  split
  · exact dirMode_makeOpaque e f
  split
  · exact dirMode_makeOpaque _ f
  cases hf : f (e ++ [t]) with
  | none =>
    refine dirMode_update ?_ fun m hm => by cases hm
    rintro ⟨m, hm⟩
    rw [hf] at hm
    cases hm
  | some i =>
    have h := dirMode_makeOpaque (e ++ [t]) f
    rwa [makeOpaque, hf] at h

theorem dirMode_handleEntry (isOpaque : Bool) (h : IsMarker n → ¬ DirIn f (e ++ [n])) :
    dirMode (handleEntry e isOpaque f n) = dirMode f := by
  by_cases hm : IsMarker n
  · obtain ⟨t, rfl, ht⟩ := isMarker_iff.mp hm
    cases isOpaque with
    | true =>
      rw [handleEntry_true ht]
      exact dirMode_update (h hm) (by simp)
    | false =>
      rw [handleEntry_false ht, dirMode_update _ (by simp)]
      · exact dirMode_settle e t f
      · rw [dirIn_congr (dirMode_settle e t f)]
        exact h hm
  · rw [handleEntry_ordinary hm]

theorem dirMode_foldl_handleEntry (isOpaque : Bool)
    (h : ∀ n ∈ l, IsMarker n → ¬ DirIn f (e ++ [n])) :
    dirMode (l.foldl (handleEntry e isOpaque) f) = dirMode f := by
  induction l generalizing f with
  | nil => rfl
  | cons n l ih =>
    have hn := dirMode_handleEntry isOpaque (h n (by simp))
    rw [List.foldl_cons, ih, hn]
    intro m hm hmark
    rw [dirIn_congr hn]
    exact h m (by simp [hm]) hmark

theorem dirMode_processDir (h : ∀ n ∈ l, IsMarker n → ¬ DirIn f (e ++ [n])) :
    dirMode (processDir e l f) = dirMode f := by
  have ho : dirMode (if opaqueMarker ∈ l then makeOpaque e f else f) = dirMode f := by
    split
    · exact dirMode_makeOpaque e f
    · rfl
  rw [processDir, dirMode_foldl_handleEntry, ho]
  intro n hn hm
  rw [dirIn_congr ho]
  exact h n hn hm

end

/-! ## Markers -/

/-- The directories above can be searched. -/
def Above (may : Access → Nat → Prop) (f : Labels) (e : Place) : Prop :=
  ∀ q, q <+: e → q ≠ e → May may .search f q

theorem lets_iff {x : Node} {q : Place} {a : Access} (hd : x.DirAt q) :
    Lets may x a q ↔ May may a x.find q := by
  obtain ⟨m, hm⟩ := dirAt_iff_find.mp hd
  have hmode : dirMode x.find q = some m.mode := dirMode_eq_some.mpr ⟨m, hm, rfl⟩
  simp [Lets, May, hm, hmode, metaOf]

theorem Above.reaches {x : Node} {e : Place} (h : Above may x.find e) (hd : x.DirAt e) :
    Reaches may x e := fun q hq hne => (lets_iff (dirAt_above hd hq)).mpr (h q hq hne)

theorem Above.congr {f g : Labels} {e : Place} (h : Above may f e) (hm : dirMode g = dirMode f) :
    Above may g e := fun q hq hne => (may_congr hm).mpr (h q hq hne)

theorem changeMeta_of_walk {x t : Node} {c : Place} {F : Meta → Meta} {p : PathBuf}
    (hw : walk x p = .ok c) (hg : x.get c = some t) (hs : p.slash = false) :
    changeMeta F x p = .ok (x.put c (some (mapMeta F t))) := by
  rw [changeMeta, hw]
  simp [hg, hs]

theorem dirAt_congr {x y : Node} (h : dirMode y.find = dirMode x.find) (q : Place) :
    y.DirAt q ↔ x.DirAt q := by
  rw [← dirIn_find, dirIn_congr h, dirIn_find]

/-- A directory is made opaque if its attribute can be set. -/
theorem ends_makeOpaque {w : World} {p : PathBuf} {c : Place} {B : Prop}
    (hw : walk w.root p = .ok c) (hc : w.root.DirAt c) (hs : p.slash = false)
    (hg : Touches may w.root p .write ↔ B) :
    Ends (obeying env may L) (fun _ => True)
      (fun _ w' => B ∧ w'.root.find = makeOpaque c w.root.find) (fun _ _ => ¬ B)
      (setOverlayXattr p "user.overlay.opaque" (utf8 "y")) w := by
  refine ends_and (ends_last (ends_setxattr (fun h y _ => ⟨fun _ _ => hg.mp h, by simp⟩)
    fun err herr => ⟨by simp, fun _ _ hB => ?_⟩)) (ensures_makeOpaque hw hc)
  obtain ⟨m, kids, hm⟩ := hc
  have := herr (hg.mpr hB)
  rw [changeMeta_of_walk hw hm hs] at this
  cases this

section

variable {w : World} {e : Place} {n t : Bytes} (he : w.root.DirAt e) (hp : PlainPlace e)
  (ha : Above may w.root.find e)

include he hp ha

/-- A marker is removed if its directory can be searched and written. -/
theorem ends_removeMarker (hn : Plain n) (hleaf : LeafIn w.root.find (e ++ [n])) :
    Ends (obeying env may L) (fun _ => True)
      (fun _ _ => May may .search w.root.find e ∧ May may .write w.root.find e)
      (fun _ _ => ¬ (May may .search w.root.find e ∧ May may .write w.root.find e))
      (removeOciWhiteoutMarker (pathOf (e ++ [n]))) w := by
  have hr := ha.reaches he
  obtain ⟨i, hi⟩ := hleaf
  have hlstat : lstat w.root (pathOf (e ++ [n])) = .ok (.inl i) := by
    rw [lstat_child (clear_of_dirAt he) hp hn, hi]
  rw [removeOciWhiteoutMarker]
  refine ends_step
    (P := fun j w' => w' = w ∧ j = .inl i ∧ May may .search w.root.find e)
    (ends_symlinkMetadata (fun h => ?_) fun h err => ⟨by simp, fun _ _ hB => ?_⟩) ?_
  · rw [hlstat]
    refine ⟨fun j hj => ?_, fun _ hj => by cases hj⟩
    cases hj
    exact ⟨rfl, rfl, (lets_iff he).mp ((enters_child he hp hr).mp h)⟩
  · exact h ((enters_child he hp hr).mpr ((lets_iff he).mpr hB.1))
  rintro _ w' - ⟨rfl, rfl, hsearch⟩
  -- the mode of the marker changes, and no directory
  refine ends_bind (P := fun _ w₁ => dirMode w₁.root.find = dirMode w'.root.find ∧
    LeafIn w₁.root.find (e ++ [n])) ?_ ?_
  · rw [makePathWritable]
    split
    · exact ends_ok trivial ⟨rfl, i, hi⟩
    rename_i hlink
    extract_lets mode writableMode
    split
    · have hl : NotLink w'.root (e ++ [n]) := fun t ht => by
        rw [hi, Option.some.injEq] at ht
        exact hlink (by rw [ht]; rfl)
      have hw : walk w'.root (pathOf (e ++ [n])) = .ok (e ++ [n]) := walk_child he hp hn hl false
      refine ends_last (ends_setPermissions (fun _ y hy => ⟨fun _ _ => ?_, by simp⟩)
        fun err herr => ⟨by simp, fun _ _ => ?_⟩)
      · obtain ⟨u, hu, hy⟩ := find_changeMeta hw hy
        rw [withRoot_root, hy]
        rw [find, hu, Option.map_some, Option.some.injEq] at hi
        cases u with
        | dir m kids => cases hi
        | leaf l =>
          have hleaf : ∃ l', (mapMeta (fun m : Meta => { m with mode := writableMode })
              (.leaf l)).label = .inl l' := by
            cases l <;> exact ⟨_, rfl⟩
          obtain ⟨l', hl'⟩ := hleaf
          rw [hl']
          refine ⟨dirMode_update ?_ (by simp), l', ?_⟩
          · rintro ⟨m, hm⟩
            rw [find, hu] at hm
            cases hm
          · rw [Function.update_self]
      · obtain ⟨u, hu, -⟩ := find_eq_some_iff.mp hi
        have hgrant := (follows_child he hp hr fun _ _ => hl).mpr ((lets_iff he).mpr hsearch)
        have := herr hgrant
        rw [changeMeta_of_walk hw hu rfl] at this
        cases this
    · exact ends_ok trivial ⟨rfl, i, hi⟩
  rintro - w₁ - ⟨hmode, j, hj⟩
  have he₁ : w₁.root.DirAt e := (dirAt_congr hmode e).mpr he
  have hgrant : Alters may w₁.root (pathOf (e ++ [n])) ↔
      May may .search w'.root.find e ∧ May may .write w'.root.find e := by
    rw [alters_child he₁ hp ((ha.congr hmode).reaches he₁), lets_iff he₁, lets_iff he₁,
      may_congr hmode, may_congr hmode]
  refine ends_last (ends_removeFile (fun h y _ => ⟨fun _ _ => hgrant.mp h, by simp⟩)
    fun err herr => ⟨by simp, fun _ _ h => ?_⟩)
  have := herr (hgrant.mpr h)
  rw [unlink_child he₁ hp hn, hj] at this
  cases this

/-- A whiteout is made if its directory can be searched and written: the new file can be. -/
theorem ends_makeWhiteout {B : Prop} {m : Msg} {k : M Unit} (hpt : Plain t)
    (hf : w.root.find (e ++ [t]) = none) (hnew : may .write newFile.mode)
    (hB : B → May may .search w.root.find e ∧ May may .write w.root.find e)
    (hk : ∀ w₂, dirMode w₂.root.find = dirMode w.root.find →
      (∀ q, q ≠ e ++ [t] → w₂.root.find q = w.root.find q) →
        Ends (obeying env may L) (fun _ => True) (fun _ _ => B) (fun _ _ => ¬ B) k w₂) :
    Ends (obeying env may L) (fun _ => True) (fun _ _ => B) (fun _ _ => ¬ B)
      (do
        orContext m (← Fs.createNew (pathOf (e ++ [t])))
        setOverlayXattr (pathOf (e ++ [t])) "user.overlay.whiteout" (utf8 "y")
        k) w := by
  have hr := ha.reaches he
  have hnot : ¬ DirIn w.root.find (e ++ [t]) := by
    rw [DirIn, hf]
    simp
  have hgrant : Alters may w.root (pathOf (e ++ [t])) ↔
      May may .search w.root.find e ∧ May may .write w.root.find e := by
    rw [alters_child he hp hr, lets_iff he, lets_iff he]
  refine ends_step (P := fun _ w₁ => May may .search w.root.find e ∧
      w₁.root.find = Function.update w.root.find (e ++ [t]) (some (.inl (.file newFile []))))
    (ends_createNew (fun h y hy => ⟨fun _ _ => ⟨(hgrant.mp h).1, ?_⟩, by simp⟩)
      fun err herr => ⟨by simp, fun _ _ h => ?_⟩) ?_
  · rw [createNew_child he hp hpt, hf] at hy
    cases hy
    exact find_put_flat he (fun h => hnot (dirIn_find.mpr h)) (by
      rintro _ ⟨⟩
      rfl)
  · have := herr (hgrant.mpr (hB h))
    rw [createNew_child he hp hpt, hf] at this
    cases this
  rintro - w₁ - ⟨hsearch, hw₁⟩
  have hmode : dirMode w₁.root.find = dirMode w.root.find := by
    rw [hw₁]
    exact dirMode_update hnot (by simp)
  have hf₁ : w₁.root.find (e ++ [t]) = some (.inl (.file newFile [])) := by
    rw [hw₁, Function.update_self]
  have he₁ : w₁.root.DirAt e := (dirAt_congr hmode e).mpr he
  have hl₁ : NotLink w₁.root (e ++ [t]) := fun s hs => by
    rw [hf₁] at hs
    cases hs
  have hw : walk w₁.root (pathOf (e ++ [t])) = .ok (e ++ [t]) := walk_child he₁ hp hpt hl₁ false
  obtain ⟨u, hu, hlabel⟩ := find_eq_some_iff.mp hf₁
  have hattr : Touches may w₁.root (pathOf (e ++ [t])) .write := by
    refine (touches_child he₁ hp ((ha.congr hmode).reaches he₁) (fun _ _ => hl₁) hw).mpr
      ⟨(lets_iff he₁).mpr ((may_congr hmode).mpr hsearch), fun m hm => ?_⟩
    rw [hf₁] at hm
    cases hm
    exact hnew
  refine ends_bind (P := fun _ w₂ => dirMode w₂.root.find = dirMode w₁.root.find ∧
      ∀ q, q ≠ e ++ [t] → w₂.root.find q = w₁.root.find q)
    (ends_last (ends_setxattr (fun _ y hy => ⟨fun _ _ => ?_, by simp⟩)
      fun err herr => ⟨by simp, fun _ _ _ => ?_⟩)) fun _ w₂ _ h => hk w₂ (h.1.trans hmode)
        fun q hq => by rw [h.2 q hq, hw₁, Function.update_of_ne hq]
  · obtain ⟨v, hv, hy⟩ := find_changeMeta hw hy
    rw [hu, Option.some.injEq] at hv
    subst hv
    rw [withRoot_root, hy]
    refine ⟨dirMode_update ?_ fun m hm => ?_, fun q hq => Function.update_of_ne hq _ _⟩
    · rintro ⟨m, hm⟩
      rw [hf₁] at hm
      cases hm
    · cases u with
      | leaf l => cases l <;> cases hm
      | dir m kids => cases hlabel
  · have := herr hattr
    rw [changeMeta_of_walk hw hu rfl] at this
    cases this

/-- A marker with a target is handled if its directory can be searched and written, and the
    target written if it is a directory. -/
theorem ends_settle (hn : Plain (markerOf t)) (ht : t ≠ [])
    (hleaf : LeafIn w.root.find (e ++ [markerOf t])) (hnew : may .write newFile.mode) :
    Ends (obeying env may L) (fun _ => True)
      (fun _ _ => May may .search w.root.find e ∧ May may .write w.root.find e ∧
        May may .write w.root.find (targetOf e t))
      (fun _ _ => ¬ (May may .search w.root.find e ∧ May may .write w.root.find e ∧
        May may .write w.root.find (targetOf e t)))
      (convertOciWhiteoutMarker (pathOf (e ++ [markerOf t])) (pathOf (e ++ [t]))) w := by
  have hr := ha.reaches he
  have hsearch (h : Alters may w.root (pathOf (e ++ [t]))) : May may .search w.root.find e :=
    (lets_iff he).mp ((alters_child he hp hr).mp h).1
  -- the marker goes last
  have rest {w₁ : World} (hmode : dirMode w₁.root.find = dirMode w.root.find)
      (hleaf₁ : LeafIn w₁.root.find (e ++ [markerOf t]))
      (htarget : May may .write w.root.find (targetOf e t)) :
      Ends (obeying env may L) (fun _ => True)
        (fun _ _ => May may .search w.root.find e ∧ May may .write w.root.find e ∧
          May may .write w.root.find (targetOf e t))
        (fun _ _ => ¬ (May may .search w.root.find e ∧ May may .write w.root.find e ∧
          May may .write w.root.find (targetOf e t)))
        (removeOciWhiteoutMarker (pathOf (e ++ [markerOf t]))) w₁ := by
    refine ends_mono (ends_removeMarker ((dirAt_congr hmode e).mpr he) hp (ha.congr hmode) hn
      hleaf₁)
      (fun _ h => h) (fun _ _ _ h => ?_) fun _ _ _ h h' => h ?_
    · rw [may_congr hmode, may_congr hmode] at h
      exact ⟨h.1, h.2, htarget⟩
    · rw [may_congr hmode, may_congr hmode]
      exact ⟨h'.1, h'.2.1⟩
  -- a target that is a directory
  have mark {c : Place} (hw : walk w.root (pathOf (e ++ [t])) = .ok c) (hc : w.root.DirAt c)
      (hl : NoLink w.root e t) (htarget : targetOf e t = c)
      (hne : e ++ [markerOf t] ≠ c) : Ends (obeying env may L) (fun _ => True)
        (fun _ _ => May may .search w.root.find e ∧ May may .write w.root.find e ∧
          May may .write w.root.find (targetOf e t))
        (fun _ _ => ¬ (May may .search w.root.find e ∧ May may .write w.root.find e ∧
          May may .write w.root.find (targetOf e t)))
        (do
          setOverlayXattr (pathOf (e ++ [t])) "user.overlay.opaque" (utf8 "y")
          removeOciWhiteoutMarker (pathOf (e ++ [markerOf t]))) w := by
    refine ends_bind (ends_mono (ends_makeOpaque hw hc rfl (touches_child he hp hr hl hw))
      (fun _ h => h) (fun _ _ _ h => h) fun _ _ _ h h' => h ?_) fun _ w₁ _ h => rest ?_ ?_ ?_
    · rw [lets_iff he, lets_iff hc, ← htarget]
      exact ⟨h'.1, h'.2.2⟩
    · rw [h.2, dirMode_makeOpaque]
    · rw [h.2, LeafIn, makeOpaque_of_ne hne]
      exact hleaf
    · rw [htarget, ← lets_iff hc]
      exact h.1.2
  rw [convertOciWhiteoutMarker]
  refine ends_bind (P := fun r w' => w' = w ∧ (May may .search w.root.find e ∧
      r = lstat w.root (pathOf (e ++ [t])) ∨ ¬ May may .search w.root.find e ∧
        ∃ err, r = .error err))
    (ends_symlinkMetadata (fun h => ⟨rfl, .inl ⟨?_, rfl⟩⟩) fun h err =>
      ⟨rfl, .inr ⟨?_, err, rfl⟩⟩) ?_
  · exact (lets_iff he).mp ((enters_child he hp hr).mp h)
  · exact fun h' => h ((enters_child he hp hr).mpr ((lets_iff he).mpr h'))
  rintro r w' - ⟨rfl, ⟨hok, rfl⟩ | ⟨hno, err, rfl⟩⟩
  · by_cases hd : t = dot
    · subst hd
      obtain ⟨m, hm⟩ := lstat_dots he hp (.inl rfl)
      rw [hm]
      exact mark (walk_dot he hp) he (fun h => absurd rfl h) rfl (snoc_ne_self e _)
    by_cases hdd : t = dotdot
    · subst hdd
      obtain ⟨m, hm⟩ := lstat_dots he hp (.inr rfl)
      rw [hm]
      exact mark (walk_dotdot he hp) (dirAt_above he (List.dropLast_prefix e))
        (fun _ h => absurd rfl h) rfl
        (snoc_ne_dropLast e _)
    have hpt : Plain t := plain_of_target hn ht hd hdd
    have htarget : targetOf e t = e ++ [t] := by rw [targetOf, if_neg hd, if_neg hdd]
    rw [lstat_child (clear_of_dirAt he) hp hpt]
    cases hf : w'.root.find (e ++ [t]) with
    | none =>
      have htop : May may .write w'.root.find (targetOf e t) := may_of_not_dirIn (by
        rw [htarget, DirIn, hf]
        simp)
      refine ends_makeWhiteout he hp ha hpt hf hnew (fun h => ⟨h.1, h.2.1⟩) fun w₂ hmode hsame =>
        rest hmode ?_ htop
      rw [LeafIn, hsame _ (by simpa using markerOf_ne t)]
      exact hleaf
    | some i =>
      cases i with
      | inl l =>
        refine rest rfl hleaf (may_of_not_dirIn ?_)
        rw [htarget]
        rintro ⟨m, hm⟩
        rw [hf] at hm
        cases hm
      | inr m =>
        have hdir : w'.root.DirAt (e ++ [t]) := dirAt_iff_find.mpr ⟨m, hf⟩
        refine mark (walk_dirAt hdir (hp.snoc hpt) false) hdir (fun _ _ u hu => ?_) htarget ?_
        · rw [hf] at hu
          cases hu
        · simpa using markerOf_ne t
  · -- the target cannot be looked up, and no entry made
    by_cases hne : err = .noent
    · subst hne
      exact ends_step (P := fun _ _ => False) (ends_createNew (fun h => absurd (hsearch h) hno)
        fun err _ => ⟨by simp, fun _ _ h => hno h.1⟩) fun _ _ _ h => h.elim
    · split
      · rename_i h
        cases h
      · rename_i h
        cases h
        exact absurd rfl hne
      · exact ends_bind (ends_error (P := fun _ _ => False) trivial fun h => hno h.1)
          fun _ _ _ h => h.elim

end

/-! ## Directories -/

/-- What an entry asks of the modes. -/
structure EntryWorks (may : Access → Nat → Prop) (f : Labels) (e : Place) (isOpaque : Bool)
    (n : Bytes) : Prop where
  enter : May may .search f e
  clear : IsMarker n → May may .write f e
  mark : isOpaque = false → ∀ t, t ≠ [] → n = markerOf t → May may .write f (targetOf e t)

theorem entryWorks_congr {f g : Labels} {e : Place} {isOpaque : Bool} {n : Bytes}
    (h : dirMode g = dirMode f) :
    EntryWorks may g e isOpaque n ↔ EntryWorks may f e isOpaque n := by
  have key {f g : Labels} (h : dirMode g = dirMode f) (hw : EntryWorks may g e isOpaque n) :
      EntryWorks may f e isOpaque n :=
    ⟨(may_congr h).mp hw.enter, fun hm => (may_congr h).mp (hw.clear hm),
      fun ho t ht hn => (may_congr h).mp (hw.mark ho t ht hn)⟩
  exact ⟨key h, key h.symm⟩

section

variable {w : World} {e : Place} {n : Bytes} {isOpaque : Bool} {pending : List PathBuf}
  (hnew : may .write newFile.mode) (he : w.root.DirAt e) (hp : PlainPlace e)
  (ha : Above may w.root.find e)

include hnew he hp ha

theorem ends_convertEntry (hn : Plain n) (hf : w.root.find (e ++ [n]) ≠ none)
    (hleaf : IsMarker n → LeafIn w.root.find (e ++ [n])) (ho : n = opaqueMarker → isOpaque = true) :
    Ends (obeying env may L) (fun _ => True)
      (fun _ _ => EntryWorks may w.root.find e isOpaque n)
      (fun _ _ => ¬ EntryWorks may w.root.find e isOpaque n)
      (convertEntry (pathOf e) isOpaque pending n) w := by
  -- a marker that is only removed
  have removed (hm : IsMarker n) (hop : isOpaque = true) : Ends (obeying env may L)
      (fun _ => True) (fun _ _ => EntryWorks may w.root.find e isOpaque n)
      (fun _ _ => ¬ EntryWorks may w.root.find e isOpaque n)
      ((removeOciWhiteoutMarker (pathOf (e ++ [n]))).bind fun _ => .ret (.ok pending)) w := by
    refine ends_bind (ends_mono (ends_removeMarker he hp ha hn (hleaf hm)) (fun _ h => h)
      (fun _ _ _ h => h) fun _ _ _ h h' => h ⟨h'.enter, h'.clear hm⟩) fun _ w' _ h => ?_
    exact ends_ok trivial ⟨h.1, fun _ => h.2, fun hno => absurd hop (by simp [hno])⟩
  rw [convertEntry]
  extract_lets next
  by_cases hno : n = opaqueMarker
  · rw [if_pos hno]
    exact removed (hno ▸ isMarker_opaqueMarker) (ho hno)
  rw [if_neg hno]
  split
  · rename_i t htarget
    obtain ⟨rfl, ht⟩ := ociWhiteoutTargetName_eq_some.mp htarget
    have hm := isMarker_markerOf ht
    split
    · rename_i hop
      exact removed hm hop
    · rename_i hop
      have hs : slashByte ∉ t := fun hs => hn.no_slash (List.mem_append_right _ hs)
      rw [join_noSlash ht hs]
      refine ends_bind (ends_mono (ends_settle he hp ha hn ht (hleaf hm) hnew) (fun _ h => h)
        (fun _ _ _ h => h) fun _ _ _ h h' => h ?_) fun _ w' _ h => ends_ok trivial ?_
      · exact ⟨h'.enter, h'.clear hm, h'.mark (Bool.eq_false_iff.mpr hop) t ht rfl⟩
      · exact ⟨h.1, fun _ => h.2.1, fun _ t' _ ht' => markerOf_inj.mp ht' ▸ h.2.2⟩
  · rename_i htarget
    have hm : ¬ IsMarker n := by
      rw [IsMarker, htarget]
      simp
    have hr := ha.reaches he
    have hpath : entryPath (pathOf e) n = pathOf (e ++ [n]) := rfl
    have hgrant : Enters may w.root (entryPath (pathOf e) n) ↔ May may .search w.root.find e := by
      rw [hpath, enters_child he hp hr, lets_iff he]
    refine ends_step (P := fun _ w' => EntryWorks may w.root.find e isOpaque n)
      (ends_symlinkMetadata (fun h => ⟨fun _ _ => ?_, fun err herr => ?_⟩)
        fun h err => ⟨by simp, fun _ _ h' => h (hgrant.mpr h'.enter)⟩) fun i w' _ h => ?_
    · refine ⟨hgrant.mp h, fun h => absurd h hm, fun _ t ht hnt => ?_⟩
      exact absurd (hnt ▸ isMarker_markerOf ht) hm
    · rw [hpath, lstat_child (clear_of_dirAt he) hp hn] at herr
      cases hi : w.root.find (e ++ [n]) with
      | none => exact absurd hi hf
      | some i =>
        rw [hi] at herr
        cases herr
    · split <;> exact ends_ok trivial h

/-- The entries of a directory. -/
theorem ends_convertEntries {l : List Bytes} (hnodup : l.Nodup) (hplain : ∀ n ∈ l, Plain n)
    (hex : ∀ n ∈ l, w.root.find (e ++ [n]) ≠ none)
    (hleaf : ∀ n ∈ l, IsMarker n → LeafIn w.root.find (e ++ [n]))
    (ho : opaqueMarker ∈ l → isOpaque = true) :
    Ends (obeying env may L) (fun _ => True)
      (fun _ _ => ∀ n ∈ l, EntryWorks may w.root.find e isOpaque n)
      (fun _ _ => ¬ ∀ n ∈ l, EntryWorks may w.root.find e isOpaque n)
      (fold (convertEntry (pathOf e) isOpaque) pending l) w := by
  have hnotdir : ∀ n ∈ l, IsMarker n → ¬ DirIn w.root.find (e ++ [n]) := fun n hn hm ⟨m, h⟩ => by
    obtain ⟨i, hi⟩ := hleaf n hn hm
    rw [h] at hi
    cases hi
  -- `l₁` are the entries handled
  refine wp_fold (K := fun _ names w₃ => ∃ l₁, l = l₁ ++ names ∧
      w₃.root.find = l₁.foldl (handleEntry e isOpaque) w.root.find ∧
      ∀ n ∈ l₁, EntryWorks may w.root.find e isOpaque n) ?_ (fun _ _ _ => trivial) ?_ l pending w
      ⟨[], rfl, rfl, by simp⟩
  · rintro ps n names w₃ ⟨l₁, rfl, hw₃, hworks⟩
    obtain ⟨hnodup₁, -, hdisj⟩ := List.nodup_append.mp hnodup
    have hn : Plain n := hplain n (by simp)
    have hn₁ : n ∉ l₁ := fun h => hdisj n h n (by simp) rfl
    have hlater := foldl_handleEntry_later (e := e) hnodup₁ (fun m hm => hplain m (by simp [hm])) hn
      hn₁ (hex n (by simp)) isOpaque
    have hmode : dirMode w₃.root.find = dirMode w.root.find := by
      rw [hw₃]
      exact dirMode_foldl_handleEntry isOpaque fun m hm => hnotdir m (by simp [hm])
    rw [← hw₃] at hlater
    have hf₃ : w₃.root.find (e ++ [n]) ≠ none := by
      rw [Ne, none_of_map hlater]
      exact hex n (by simp)
    have hleaf₃ (hm : IsMarker n) : LeafIn w₃.root.find (e ++ [n]) := by
      obtain ⟨i, hi⟩ := hleaf n (by simp) hm
      rw [hi] at hlater
      rcases hlater with h | h <;> exact ⟨i, h⟩
    have he₃ := (dirAt_congr hmode e).mpr he
    refine wp_mono (ends_and (ends_convertEntry hnew he₃ hp (ha.congr hmode) hn hf₃ hleaf₃ fun h =>
      ho (by simp [h])) (ensures_convertEntry_effect he₃ hp hn fun h => ho (by simp [h])))
      (fun _ h => h) fun r w₄ _ hr => ?_
    cases r with
    | ok ps' =>
      obtain ⟨hw, hw₄, -, -⟩ := hr
      refine ⟨l₁ ++ [n], by simp, ?_, fun m hm => ?_⟩
      · rw [hw₄, hw₃, List.foldl_append]
        rfl
      · rcases List.mem_append.mp hm with hm | hm
        · exact hworks m hm
        · rw [List.mem_singleton.mp hm]
          exact (entryWorks_congr hmode).mp hw
    | error err => exact fun hall => hr ((entryWorks_congr hmode).mpr (hall n (by simp)))
  · rintro ps w' ⟨l₁, hl₁, -, hworks⟩
    rw [List.append_nil] at hl₁
    subst hl₁
    exact hworks

end

/-- The directory can be listed in an order that `L` allows. -/
def Listable (L : Place → List Bytes → Prop) (f : Labels) (e : Place) : Prop :=
  ∃ l, L e l ∧ l.Nodup ∧ ∀ n, n ∈ l ↔ Plain n ∧ f (e ++ [n]) ≠ none

/-- The markers in a directory are files or symlinks. -/
def FlatMarkers (f : Labels) (e : Place) : Prop :=
  ∀ n, Plain n → IsMarker n → f (e ++ [n]) ≠ none → LeafIn f (e ++ [n])

theorem workable_iff (may : Access → Nat → Prop) {f : Labels} {e : Place} {l : List Bytes}
    (hmem : ∀ n, n ∈ l ↔ Plain n ∧ f (e ++ [n]) ≠ none) :
    Workable may f e ↔ May may .read f e ∧ (opaqueMarker ∈ l → May may .write f e) ∧
      ∀ n ∈ l, EntryWorks may f e (opaqueMarker ∈ l) n := by
  have hopq : opaqueMarker ∈ l ↔ f (e ++ [opaqueMarker]) ≠ none := by
    rw [hmem]
    exact and_iff_right plain_opaqueMarker
  constructor
  · intro h
    refine ⟨h.list, fun ho => h.clear _ plain_opaqueMarker isMarker_opaqueMarker (hopq.mp ho),
      fun n hn => ?_⟩
    obtain ⟨hp, hf⟩ := (hmem n).mp hn
    refine ⟨h.enter n hp hf, fun hm => h.clear n hp hm hf, fun ho t ht hnt => ?_⟩
    subst hnt
    exact h.mark t ht hp hf (not_not.mp fun h' => of_decide_eq_false ho (hopq.mpr h'))
  · rintro ⟨hread, -, hall⟩
    refine ⟨hread, fun n hp hf => (hall n ((hmem n).mpr ⟨hp, hf⟩)).enter,
      fun n hp hm hf => (hall n ((hmem n).mpr ⟨hp, hf⟩)).clear hm, fun t ht hp hf ho => ?_⟩
    refine (hall _ ((hmem _).mpr ⟨hp, hf⟩)).mark (decide_eq_false fun h' => ?_) t ht rfl
    exact hopq.mp h' ho

section

variable {w : World} {e : Place}

/-- One turn of the loop handles a directory if it is workable. -/
theorem ends_convertStep {pending : List Place} (hnew : may .write newFile.mode)
    (he : w.root.DirAt e) (hp : PlainPlace e) (ha : Above may w.root.find e)
    (hlist : Listable L w.root.find e) (hflat : FlatMarkers w.root.find e) :
    Ends (obeying env may L) (fun _ => True) (fun _ _ => Workable may w.root.find e)
      (fun _ _ => ¬ Workable may w.root.find e)
      (convertStep (pathOf e :: pending.map pathOf)) w := by
  obtain ⟨m, kids, hg⟩ := id he
  obtain ⟨l₀, hL, hnodup₀, hmem₀⟩ := hlist
  have hr := ha.reaches he
  have hnames : listDir w.root (pathOf e) = .ok (Posix.entries (.dir m kids)) :=
    listDir_dirAt hg rfl hp
  have hentries (n : Bytes) : n ∈ Posix.entries (.dir m kids) ↔
      Plain n ∧ w.root.find (e ++ [n]) ≠ none := by
    rw [mem_entries, find_ne_none_of_kid hg, and_comm]
  have hnodup : (Posix.entries (.dir m kids)).Nodup := (names_nodup _).filter _
  have hperm₀ : l₀.Perm (Posix.entries (.dir m kids)) :=
    (List.perm_ext_iff_of_nodup hnodup₀ hnodup).mpr fun n => by rw [hmem₀, hentries]
  have hread : Touches may w.root (pathOf e) .read ↔ May may .read w.root.find e := by
    rw [touches_dirAt he hp hr, lets_iff he]
  rw [convertStep]
  refine ends_step (P := fun l w' => w' = w ∧ May may .read w.root.find e ∧ l.broken = none ∧
      l.names.Perm (Posix.entries (.dir m kids)))
    (ends_readDir (walk_dirAt he hp false) hnames hperm₀ hL (fun h l hperm _ => ⟨?_, by simp⟩)
      fun h err => ⟨by simp, fun _ _ h' => h (hread.mpr h'.list)⟩) ?_
  · rintro _ ⟨⟩
    exact ⟨rfl, hread.mp h, rfl, hperm⟩
  rintro ⟨l, broken⟩ w' - ⟨rfl, hmay, rfl, hperm⟩
  replace hnodup : l.Nodup := hperm.nodup_iff.mpr hnodup
  have hmem (n : Bytes) : n ∈ l ↔ Plain n ∧ w'.root.find (e ++ [n]) ≠ none := by
    rw [hperm.mem_iff, hentries]
  have hiff := workable_iff may hmem
  -- the entries are handled, in the directory made opaque or not
  have entries {w₂ : World} (hw₂ : w₂.root.find =
      if opaqueMarker ∈ l then makeOpaque e w'.root.find else w'.root.find)
      (hwrite : opaqueMarker ∈ l → May may .write w'.root.find e) :
      Ends (obeying env may L) (fun _ => True) (fun _ _ => Workable may w'.root.find e)
        (fun _ _ => ¬ Workable may w'.root.find e)
        ((fold (convertEntry (pathOf e) (opaqueMarker ∈ l)) (pending.map pathOf) l).bind
          fun ps => (ret (.ok (Sum.inl ps)) : M (List PathBuf ⊕ Unit))) w₂ := by
    have hmode : dirMode w₂.root.find = dirMode w'.root.find := by
      rw [hw₂]
      split
      · exact dirMode_makeOpaque e _
      · rfl
    have hchild (n : Bytes) : w₂.root.find (e ++ [n]) = w'.root.find (e ++ [n]) := by
      rw [hw₂]
      split
      · exact makeOpaque_of_ne (snoc_ne_self e n) _
      · rfl
    refine ends_bind (ends_mono (ends_convertEntries hnew ((dirAt_congr hmode e).mpr he) hp
      (ha.congr hmode) hnodup (fun n hn => ((hmem n).mp hn).1)
      (fun n hn => hchild n ▸ ((hmem n).mp hn).2) (fun n hn hm => ?_) fun h => decide_eq_true h)
      (fun _ h => h) (fun _ _ _ h => h) fun _ _ _ h h' => h fun n hn => ?_)
      fun _ w₃ _ h => ends_ok trivial (hiff.mpr ⟨hmay, hwrite, fun n hn => ?_⟩)
    · obtain ⟨i, hi⟩ := hflat n ((hmem n).mp hn).1 hm ((hmem n).mp hn).2
      exact ⟨i, (hchild n).trans hi⟩
    · exact (entryWorks_congr hmode).mpr ((hiff.mp h').2.2 n hn)
    · exact (entryWorks_congr hmode).mp (h n hn)
  dsimp only
  split
  · rename_i hin
    have hgrant : Touches may w'.root (pathOf e) .write ↔ May may .write w'.root.find e := by
      rw [touches_dirAt he hp hr, lets_iff he]
    exact ends_bind (ends_mono (ends_makeOpaque (walk_dirAt he hp false) he rfl hgrant)
      (fun _ h => h) (fun _ _ _ h => h) fun _ _ _ h h' => h ((hiff.mp h').2.1 hin))
      fun _ w₂ _ h => entries (by rw [h.2, if_pos hin]) fun _ => h.1
  · rename_i hin
    exact entries (by rw [if_neg hin]) fun h => absurd h hin

end

/-! ## The whole tree -/

theorem workable_congr {f g : Labels} {q : Place} (hm : dirMode g = dirMode f)
    (hn : ∀ n, g (q ++ [n]) = none ↔ f (q ++ [n]) = none) :
    Workable may g q ↔ Workable may f q := by
  have key {f g : Labels} (hm : dirMode g = dirMode f)
      (hn : ∀ n, g (q ++ [n]) = none ↔ f (q ++ [n]) = none) (h : Workable may g q) :
      Workable may f q :=
    ⟨(may_congr hm).mp h.list, fun n hp hf => (may_congr hm).mp (h.enter n hp (mt (hn n).mp hf)),
      fun n hp hmark hf => (may_congr hm).mp (h.clear n hp hmark (mt (hn n).mp hf)),
      fun t ht hp hf ho => (may_congr hm).mp
        (h.mark t ht hp (mt (hn _).mp hf) ((hn _).mpr ho))⟩
  exact ⟨key hm hn, key hm.symm fun n => (hn n).symm⟩

/-- In `y` the directories visited from `P` on are still to be handled, and those of `x` can be
    handled if and only if these can. -/
structure ToDo (may : Access → Nat → Prop) (L : Place → List Bytes → Prop) (x : Node) (c : Place)
    (P : List Place) (y : Node) : Prop where
  apart : P.Pairwise Apart
  dirs : ∀ p ∈ P, y.DirAt p ∧ PlainPlace p
  above : ∀ p ∈ P, Above may y.find p
  listable : ∀ q, Visited y P q → Listable L y.find q
  flat : ∀ q, Visited y P q → FlatMarkers y.find q
  rest : (∀ q, DirUnder x c q → Workable may x.find q) ↔
    ∀ q, Visited y P q → Workable may y.find q

/-- One turn leaves less to do. -/
theorem ToDo.turn {x y y₁ : Node} {c e : Place} {l : List Bytes} {pending ps : List Place}
    (h : ToDo may L x c (e :: pending) y) (hw : Workable may y.find e)
    (hh : Handled e l ps y y₁) : ToDo may L x c (ps ++ pending) y₁ := by
  obtain ⟨he, hpe⟩ := h.dirs e (by simp)
  have hape := (List.pairwise_cons.mp h.apart).1
  have hvis := visited_cons hpe he hape hh.later hh.dirAt_iff
  have hnot : ¬ Visited y₁ (ps ++ pending) e := not_visited_later hape hh.later
  have hmode : dirMode y₁.find = dirMode y.find := by
    rw [hh.effect]
    refine dirMode_processDir fun n hn hm ⟨m, hd⟩ => ?_
    obtain ⟨i, hi⟩ := hh.listed.leaf e rfl n hn hm
    rw [hd] at hi
    cases hi
  -- the entries of the directories still to be visited
  have beside {q : Place} (hq : Visited y₁ (ps ++ pending) q) (n : Bytes) :=
    hh.converted.beside (fun h : q = e => hnot (h ▸ hq)) n
  have before {q : Place} (hq : Visited y₁ (ps ++ pending) q) : Visited y (e :: pending) q :=
    (hvis q).mpr (.inr hq)
  have hwork {q : Place} (hq : Visited y₁ (ps ++ pending) q) :
      Workable may y₁.find q ↔ Workable may y.find q :=
    workable_congr hmode fun n => none_of_map (beside hq n)
  refine ⟨hh.apart h.apart, hh.pending_dirAt hpe fun p hp => h.dirs p (by simp [hp]),
    fun p hp => ?_, fun q hq => ?_, fun q hq n hn hm hf => ?_, h.rest.trans ?_⟩
  · rcases List.mem_append.mp hp with hp | hp
    · obtain ⟨n, hn, rfl, hd⟩ := (hh.later p).mp hp
      intro q hq hne
      refine (may_congr hmode).mpr ?_
      rcases List.prefix_concat_iff.mp hq with hq | hq
      · exact absurd hq hne
      by_cases hqe : q = e
      · obtain ⟨m, hm⟩ := dirAt_iff_find.mp hd
        exact hqe ▸ hw.enter n hn (by simp [hm])
      · exact h.above e (by simp) q hq hqe
    · exact (h.above p (by simp [hp])).congr hmode
  · obtain ⟨l, hL, hnodup, hmem⟩ := h.listable q (before hq)
    exact ⟨l, hL, hnodup, fun n => by rw [hmem, Ne, Ne, none_of_map (beside hq n)]⟩
  · have hf' : y.find (q ++ [n]) ≠ none := by rwa [Ne, ← none_of_map (beside hq n)]
    obtain ⟨i, hi⟩ := h.flat q (before hq) n hn hm hf'
    rcases beside hq n with hb | hb
    · exact ⟨i, hb.trans hi⟩
    · rw [hi] at hb
      exact ⟨i, hb⟩
  · constructor
    · exact fun hall q hq => (hwork hq).mpr (hall q (before hq))
    · intro hall q hq
      rcases (hvis q).mp hq with rfl | hq
      · exact hw
      · exact (hwork hq).mp (hall q hq)

variable {w : World} {c : Place}

/-- A conversion succeeds if all directories are workable, and fails if one is not. -/
theorem ends_convert (hnew : may .write newFile.mode) (hp : PlainPlace c) (hd : w.root.DirAt c)
    (ha : Above may w.root.find c)
    (hlist : ∀ e, DirUnder w.root c e → Listable L w.root.find e)
    (hflat : ∀ e, DirUnder w.root c e → FlatMarkers w.root.find e) :
    Ends (obeying env may L) (fun _ => True)
      (fun _ _ => ∀ e, DirUnder w.root c e → Workable may w.root.find e)
      (fun _ _ => ¬ ∀ e, DirUnder w.root c e → Workable may w.root.find e)
      (convertOciWhiteoutsToOverlayfs env (pathOf c)) w := by
  refine wp_loop (K := fun pending w₁ => ∃ P : List Place, pending = P.map pathOf ∧
      ToDo may L w.root c P w₁.root) ?_ (fun _ _ _ => trivial) env.fuel [pathOf c] w
      ⟨[c], rfl, List.pairwise_singleton _ _, by simpa using ⟨hd, hp⟩, by simpa using ha, ?_, ?_,
        ?_⟩
  · rintro pending w₁ ⟨P, rfl, h⟩
    cases P with
    | nil =>
      refine ends_ok trivial (h.rest.mpr ?_)
      rintro q ⟨_, _, p, hp, _⟩
      cases hp
    | cons e P =>
      obtain ⟨he, hpe⟩ := h.dirs e (by simp)
      have hvis : Visited w₁.root (e :: P) e := ⟨hpe, he, e, by simp, List.prefix_rfl⟩
      refine wp_mono (ends_and (ends_convertStep hnew he hpe (h.above e (by simp))
        (h.listable e hvis) (h.flat e hvis)) (ensures_only_mono (fun _ _ _ h => h.1)
          (ensures_convertStep he hpe))) (fun _ h => h) fun r w₂ _ hr => ?_
      cases r with
      | ok r =>
        obtain ⟨hw, ps, l, rfl, -, hh⟩ := hr
        exact ⟨ps ++ P, rfl, h.turn hw hh⟩
      | error err => exact fun hall => hr (h.rest.mp hall e hvis)
  · rw [visited_single]
    exact hlist
  · rw [visited_single]
    exact hflat
  · rw [visited_single]

theorem noSpin_makePathWritable (path : PathBuf) (i : Inode) :
    (makePathWritable path i).NoSpin := by
  rw [makePathWritable]
  split
  · trivial
  extract_lets mode writableMode
  split
  · exact noSpin_bind (noSpin_call _) fun r => noSpin_orContext _ _
  · trivial

theorem noSpin_removeMarker (path : PathBuf) : (removeOciWhiteoutMarker path).NoSpin :=
  noSpin_bind (noSpin_call _) fun _ => noSpin_bind (noSpin_orContext _ _) fun _ =>
    noSpin_bind (noSpin_makePathWritable _ _) fun _ => noSpin_bind (noSpin_call _) fun _ =>
      noSpin_orContext _ _

theorem noSpin_setOverlayXattr (path : PathBuf) (name : String) (value : Bytes) :
    (setOverlayXattr path name value).NoSpin :=
  noSpin_bind (noSpin_call _) fun _ => noSpin_orContext _ _

theorem noSpin_convertMarker (path target : PathBuf) :
    (convertOciWhiteoutMarker path target).NoSpin := by
  refine noSpin_bind (noSpin_call _) fun r => ?_
  split
  · split
    · exact noSpin_bind (noSpin_setOverlayXattr _ _ _) fun _ => noSpin_removeMarker _
    · exact noSpin_removeMarker _
  · exact noSpin_bind (noSpin_call _) fun _ => noSpin_bind (noSpin_orContext _ _) fun _ =>
      noSpin_bind (noSpin_setOverlayXattr _ _ _) fun _ => noSpin_removeMarker _
  · trivial

theorem noSpin_convertEntry (directory : PathBuf) (isOpaque : Bool) (pending : List PathBuf)
    (n : Bytes) : (convertEntry directory isOpaque pending n).NoSpin := by
  rw [convertEntry]
  extract_lets next
  split
  · exact noSpin_bind (noSpin_removeMarker _) fun _ => trivial
  split
  · split
    · exact noSpin_bind (noSpin_removeMarker _) fun _ => trivial
    · exact noSpin_bind (noSpin_convertMarker _ _) fun _ => trivial
  · refine noSpin_bind (noSpin_call _) fun _ => noSpin_bind (noSpin_orContext _ _) fun i => ?_
    split <;> trivial

theorem noSpin_convertStep : ∀ pending, (convertStep pending).NoSpin
  | [] => trivial
  | directory :: pending => by
    rw [convertStep]
    refine noSpin_bind (noSpin_call _) fun _ => noSpin_bind (noSpin_orContext _ _) fun l => ?_
    have entries (isOpaque : Bool) : ((fold (convertEntry directory isOpaque) pending
        l.names).bind fun ps => (ret (.ok (.inl ps)) : M (List PathBuf ⊕ Unit))).NoSpin :=
      noSpin_bind (noSpin_fold (noSpin_convertEntry directory isOpaque) _ _) fun _ => trivial
    split
    · trivial
    dsimp only
    split
    · exact noSpin_bind (noSpin_setOverlayXattr _ _ _) fun _ => entries _
    · exact entries _

/-- The fuel suffices for every directory at or below `c`. -/
def Enough (env : Env) (x : Node) (c : Place) : Prop :=
  ∃ dirs : List Place, (∀ e, DirUnder x c e → e ∈ dirs) ∧ dirs.length < env.fuel

/-- The conversion comes to an end, given the fuel for every directory. -/
theorem halts_convert (hp : PlainPlace c) (hd : w.root.DirAt c) (henough : Enough env w.root c) :
    Halts (machine env) (convertOciWhiteoutsToOverlayfs env (pathOf c)) w := by
  obtain ⟨dirs, hdirs, hfuel⟩ := henough
  refine halts_loop (K := fun n pending w₁ => ∃ P dirs : List Place, pending = P.map pathOf ∧
      P.Pairwise Apart ∧ (∀ p ∈ P, w₁.root.DirAt p ∧ PlainPlace p) ∧
      (∀ q, Visited w₁.root P q → q ∈ dirs) ∧ dirs.length = n)
    (fun pending s => halts_of_noSpin (noSpin_convertStep pending)) ?_ env.fuel dirs.length _ w
    ⟨[c], dirs, rfl, List.pairwise_singleton _ _, by simpa using ⟨hd, hp⟩, ?_, rfl⟩ hfuel
  · rintro n pending w₁ ⟨P, dirs, rfl, hap, hP, hdirs, rfl⟩
    cases P with
    | nil => exact ensures_ok trivial trivial
    | cons e P =>
      obtain ⟨he, hpe⟩ := hP e (by simp)
      rw [← only_inOrder_true]
      refine ensures_mono (ensures_convertStep he hpe) (fun _ h => h) ?_
      rintro _ w₂ - ⟨ps, l, rfl, -, hh⟩
      have hape := (List.pairwise_cons.mp hap).1
      have hvis := visited_cons hpe he hape hh.later hh.dirAt_iff
      have hnot : ¬ Visited w₂.root (ps ++ P) e := not_visited_later hape hh.later
      have hin : e ∈ dirs := hdirs e ((hvis e).mpr (.inl rfl))
      -- one directory less
      refine ⟨(dirs.erase e).length, ?_, ps ++ P, dirs.erase e, rfl, hh.apart hap,
        hh.pending_dirAt hpe fun p hp => hP p (by simp [hp]), fun q hq => ?_, rfl⟩
      · rw [List.length_erase_of_mem hin]
        have := List.length_pos_of_mem hin
        omega
      · refine (List.mem_erase_of_ne fun h : q = e => hnot (h ▸ hq)).mpr ?_
        exact hdirs q ((hvis q).mpr (.inr hq))
  · rw [visited_single]
    exact hdirs

theorem workable_privileged (f : Labels) (e : Place) : Workable privileged f e :=
  ⟨fun _ _ => trivial, fun _ _ _ _ _ => trivial, fun _ _ _ _ _ _ => trivial,
    fun _ _ _ _ _ _ _ => trivial⟩

/-- What the conversion may leave, it can leave: there is a run for every order of the
    listings. -/
theorem exec_convert {ord : Place → List Bytes} {g : Labels} (hp : PlainPlace c)
    (hd : w.root.DirAt c) (henough : Enough env w.root c)
    (hl : Listings w.root.find (DirUnder w.root c) ord)
    (h : Converted w.root.find (DirUnder w.root c) ord g) :
    ∃ w', Exec (machine env) (convertOciWhiteoutsToOverlayfs env (pathOf c)) w (some (.ok ())) w' ∧
      w'.root.find = g := by
  -- nothing fails, and every directory is listed in the order given
  have hlist : ∀ e, DirUnder w.root c e → Listable (fun e l => l = ord e) w.root.find e :=
    fun e he => ⟨ord e, rfl, hl.nodup e he, hl.mem e he⟩
  have hflat : ∀ e, DirUnder w.root c e → FlatMarkers w.root.find e := fun e he n hn hm hf =>
    hl.leaf e he n ((hl.mem e he n).mpr ⟨hn, hf⟩) hm
  have hret : Returns (obeying env privileged fun e l => l = ord e)
      (convertOciWhiteoutsToOverlayfs env (pathOf c)) w :=
    (returns_iff obeying_total (halts_only (halts_convert hp hd henough))
      (ends_convert trivial hp hd (fun _ _ _ _ _ => trivial) hlist hflat)).mpr fun _ _ =>
        workable_privileged _ _
  obtain ⟨-, -, ⟨⟩, w', hx⟩ := hret
  obtain ⟨ord', -, ho, hc⟩ := (ensures_exec (ensures_only_mono (fun _ _ _ h => h.1)
    (ensures_convert hd hp)) hx).2 () rfl
  exact ⟨w', exec_only hx, (hc.congr ho).unique h⟩

/-! ## The owner -/

/-- A listing may have any order. -/
def anyOrder (_ : Place) (_ : List Bytes) : Prop := True

/-- Every name that starts with `.wh.` belongs to a regular file. -/
def MarkersAreFiles (x : Node) (c : Place) : Prop :=
  ∀ e n i, DirUnder x c e → whiteoutPrefix <+: n → x.find (e ++ [n]) = some i → isFile i

theorem listable_anyOrder {x : Node} {e : Place} (he : x.DirAt e) : Listable anyOrder x.find e := by
  obtain ⟨m, kids, hg⟩ := he
  refine ⟨Posix.entries (.dir m kids), trivial, (names_nodup _).filter _, fun n => ?_⟩
  rw [mem_entries, find_ne_none_of_kid hg, and_comm]

theorem MarkersAreFiles.flat {x : Node} {c e : Place} (h : MarkersAreFiles x c)
    (he : DirUnder x c e) : FlatMarkers x.find e := by
  intro n _ hm hf
  obtain ⟨i, hi⟩ := Option.ne_none_iff_exists'.mp hf
  obtain ⟨t, rfl, -⟩ := isMarker_iff.mp hm
  have hfile := h e _ i he (List.prefix_append _ _) hi
  cases i with
  | inl l => exact ⟨l, hi⟩
  | inr m => cases hfile

/-- The conversion by the owner of everything, under modes that let the tree be reached, returns
    `Ok` if and only if every directory is workable. -/
theorem convert_returns_iff {env : Env} {c : Place} {w : World} (hp : PlainPlace c)
    (hd : w.root.DirAt c) (hr : Reaches owner w.root c) (hfiles : MarkersAreFiles w.root c)
    (henough : Enough env w.root c) :
    Returns (obeying env owner anyOrder) (convertOciWhiteoutsToOverlayfs env (pathOf c)) w ↔
      ∀ e, DirUnder w.root c e → Workable owner w.root.find e := by
  have ha : Above owner w.root.find c := fun q hq hne =>
    (lets_iff (dirAt_above hd hq)).mp (hr q hq hne)
  exact returns_iff obeying_total (halts_only (halts_convert hp hd henough))
    (ends_convert (by decide) hp hd ha (fun e he => listable_anyOrder he.2.1)
      fun e he => hfiles.flat he)

namespace ReadOnly

/-- The directory `/d`, with the given mode, and a marker in it. -/
def world (mode : Nat) : World :=
  ⟨.dir newDir [(utf8 "d", .dir ⟨mode, []⟩ [(utf8 ".wh.x", .leaf (.file newFile []))])], [], [], []⟩

theorem dirAt_place (mode : Nat) : (world mode).root.DirAt OneMarker.place :=
  ⟨⟨mode, []⟩, [(utf8 ".wh.x", .leaf (.file newFile []))], rfl⟩

/-- All that can be found there. -/
theorem find_world {mode : Nat} {q : Place} {i : Inode} (h : (world mode).root.find q = some i) :
    q = [] ∧ i = .inr newDir ∨ q = OneMarker.place ∧ i = .inr ⟨mode, []⟩ ∨
      q = OneMarker.place ++ [utf8 ".wh.x"] ∧ i = .inl (.file newFile []) := by
  obtain ⟨t, ht, rfl⟩ := find_eq_some_iff.mp h
  cases q with
  | nil =>
    cases ht
    exact .inl ⟨rfl, rfl⟩
  | cons a q =>
    rw [get_cons] at ht
    obtain ⟨t₁, h₁, ht⟩ := Option.bind_eq_some_iff.mp ht
    obtain ⟨rfl, rfl⟩ := Prod.mk.inj (List.mem_singleton.mp (mem_of_kid h₁))
    cases q with
    | nil =>
      cases ht
      exact .inr (.inl ⟨rfl, rfl⟩)
    | cons b q =>
      rw [get_cons] at ht
      obtain ⟨t₂, h₂, ht⟩ := Option.bind_eq_some_iff.mp ht
      obtain ⟨rfl, rfl⟩ := Prod.mk.inj (List.mem_singleton.mp (mem_of_kid h₂))
      cases q with
      | nil =>
        cases ht
        exact .inr (.inr ⟨rfl, rfl⟩)
      | cons n q => cases ht

theorem reaches_place (mode : Nat) : Reaches owner (world mode).root OneMarker.place := by
  intro q hq hne m hm
  obtain ⟨i, hi, hm⟩ := Option.bind_eq_some_iff.mp hm
  rcases find_world hi with ⟨-, rfl⟩ | ⟨h, -⟩ | ⟨rfl, -⟩
  · cases hm
    decide
  · exact absurd h hne
  · exact absurd hq (entry_not_above _ _)

theorem eq_place {mode : Nat} {e : Place} (he : DirUnder (world mode).root OneMarker.place e) :
    e = OneMarker.place := by
  obtain ⟨-, hd, hle⟩ := he
  obtain ⟨m, hm⟩ := dirAt_iff_find.mp hd
  rcases find_world hm with ⟨rfl, -⟩ | ⟨h, -⟩ | ⟨-, hi⟩
  · exact absurd hle (entry_not_above [] _)
  · exact h
  · cases hi

theorem markersAreFiles (mode : Nat) : MarkersAreFiles (world mode).root OneMarker.place := by
  intro e n i he _ hi
  rw [eq_place he] at hi
  rcases find_world hi with ⟨h, -⟩ | ⟨h, -⟩ | ⟨-, rfl⟩
  · cases h
  · exact absurd h (snoc_ne_self _ n)
  · rfl

theorem enough (mode : Nat) : Enough (smallEnv []) (world mode).root OneMarker.place :=
  ⟨[OneMarker.place], fun _ he => List.mem_singleton.mpr (eq_place he), by decide⟩

end ReadOnly

theorem convert_returns_iff_writable : Returns (obeying (smallEnv []) owner anyOrder)
    (convertOciWhiteoutsToOverlayfs (smallEnv []) (pathOf OneMarker.place))
      (ReadOnly.world 0o755) := by
  refine (convert_returns_iff OneMarker.plain_place (ReadOnly.dirAt_place _)
    (ReadOnly.reaches_place _) (ReadOnly.markersAreFiles _) (ReadOnly.enough _)).mpr fun e _ => ?_
  have all (a : Access) (q : Place) : May owner a (ReadOnly.world 0o755).root.find q := by
    intro mode hmode
    obtain ⟨m, hm, rfl⟩ := dirMode_eq_some.mp hmode
    rcases ReadOnly.find_world hm with ⟨-, h⟩ | ⟨-, h⟩ | ⟨-, h⟩
    · cases h
      cases a <;> decide
    · cases h
      cases a <;> decide
    · cases h
  exact ⟨all _ _, fun _ _ _ => all _ _, fun _ _ _ _ => all _ _, fun _ _ _ _ _ => all _ _⟩

/-- A marker cannot be removed from a directory that its owner may not write. -/
theorem convert_fails_readOnly :
    ¬ ∀ (env : Env) (c : Place) (w : World), PlainPlace c → w.root.DirAt c →
      Reaches owner w.root c → MarkersAreFiles w.root c → Enough env w.root c →
      Returns (obeying env owner anyOrder) (convertOciWhiteoutsToOverlayfs env (pathOf c)) w := by
  intro h
  obtain ⟨-, -, _, _, hx⟩ := h (smallEnv []) OneMarker.place (ReadOnly.world 0o555)
    OneMarker.plain_place (ReadOnly.dirAt_place _) (ReadOnly.reaches_place _)
    (ReadOnly.markersAreFiles _) (ReadOnly.enough _)
  have ha : Above owner (ReadOnly.world 0o555).root.find OneMarker.place := fun q hq hne =>
    (lets_iff (dirAt_above (ReadOnly.dirAt_place _) hq)).mp (ReadOnly.reaches_place _ q hq hne)
  have hall := (wp_exec (ends_convert (by decide) OneMarker.plain_place (ReadOnly.dirAt_place _) ha
    (fun e he => listable_anyOrder he.2.1) fun e he => (ReadOnly.markersAreFiles _).flat he) hx).2 _
      rfl
  have hwrite := (hall OneMarker.place ⟨OneMarker.plain_place, ReadOnly.dirAt_place _,
    List.prefix_rfl⟩).clear (utf8 ".wh.x") (by decide +kernel) (by decide +kernel)
      (by decide +kernel) 0o555 rfl
  revert hwrite
  decide

end Pakstak
