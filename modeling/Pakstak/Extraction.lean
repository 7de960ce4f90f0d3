/-
  Extracting a layer changes nothing outside the store's `temporary`.

  A whiteout marker may name `.` or `..` as its target, so the conversion of a tree at
  `c ++ [n]` can mark directories up to `c`; no marker leads further up.

  Proved, for any tree the archive leaves and any answers of the environment:
  * `ensures_convertOciWhiteoutsToOverlayfs`: the conversion stays within `c`.
  * `ensures_extractLayer`: so does the extraction, and a tree it returns `Ok` on is
    `Extracted`: the conversion of an archive whose bytes pass the check.
-/
import Pakstak.Registry
import Pakstak.Temporary

namespace Pakstak

open Posix Prog FileTree

variable {env : Env} {I : World → Prop}

/-! ## Targets of markers -/

theorem join_noSlash {n : Bytes} (hn : n ≠ []) (hs : slashByte ∉ n) (e : Place) :
    (pathOf e).join n = pathOf (e ++ [n]) := by
  have habs : isAbsolute n = false :=
    beq_eq_false_iff_ne.mpr fun h => hs (List.mem_of_mem_head? h)
  have hend : endsInSlash n = false :=
    beq_eq_false_iff_ne.mpr fun h => hs (List.mem_of_getLast? h)
  simp [PathBuf.join, habs, hend, hn, pieces_of_noSlash hn hs, pathOf]

theorem target_of_ociWhiteoutTargetName {fileName t : Bytes} (hf : Plain fileName)
    (h : ociWhiteoutTargetName fileName = some t) : t ≠ [] ∧ slashByte ∉ t := by
  rw [ociWhiteoutTargetName] at h
  split at h
  · rename_i hp
    obtain ⟨r, rfl⟩ := hp
    rw [List.drop_left, Option.filter_eq_some_iff, Option.some.injEq] at h
    obtain ⟨rfl, hr⟩ := h
    refine ⟨by simpa using hr, fun hs => hf.no_slash (List.mem_append_right _ hs)⟩
  · cases h

theorem walk_dot {x : Node} {e : Place} (hd : x.DirAt e) (hp : PlainPlace e) :
    walk x (pathOf (e ++ [dot])) = .ok e := by
  rw [walk, pathOf, walkLinks_dirAt hd hp, maxLinks, walkLinks, walkWith, if_pos rfl]
  rfl

theorem walk_dotdot {x : Node} {e : Place} (hd : x.DirAt e) (hp : PlainPlace e) :
    walk x (pathOf (e ++ [dotdot])) = .ok e.dropLast := by
  rw [walk, pathOf, walkLinks_dirAt hd hp, maxLinks, walkLinks, walkWith,
    if_neg (by decide), if_pos rfl]
  rfl

/-- A path through which metadata can be changed only at `c` and within its entry `a`. -/
def Marks (c : Place) (a : Bytes) (w : World) (p : PathBuf) : Prop :=
  ∀ f x, changeMeta f w.root p = .ok x → Shut c a w (w.withRoot x)

/-- The place `c`, or one at or below its entry `a`. -/
def Around (c : Place) (a : Bytes) (e : Place) : Prop := e = c ∨ c ++ [a] <+: e

theorem marks_of_walk {c e : Place} {a : Bytes} {w : World} {p : PathBuf}
    (hw : walk w.root p = .ok e) (hc : Around c a e) (hne : c ≠ []) (hd : w.root.DirAt e) :
    Marks c a w p := by
  intro f x hx
  obtain ⟨m, kids, hg⟩ := hd
  rw [changeMeta, hw] at hx
  simp only [hg, FileTree.isDir, not_true_eq_false, and_false, if_false] at hx
  cases hx
  have hne' : e ≠ [] := by
    rintro rfl
    rcases hc with h | h
    · exact hne h.symm
    · simp at h
  obtain ⟨d, n, rfl⟩ : ∃ d n, e = d ++ [n] := by
    rcases List.eq_nil_or_concat e with h | ⟨d, n, h⟩
    · exact absurd h hne'
    · exact ⟨d, n, by rw [h, List.concat_eq_append]⟩
  have hdir := dirAt_of_get_append hg (by simp)
  have hdirs (q : Place) := (dirAt_put_mapMeta (f := f) hdir hg q).mpr
  rcases hc with rfl | hc
  · refine ⟨⟨within_put List.prefix_rfl _ _, hdirs⟩, fun b _ => ?_⟩
    rw [withRoot_root, List.append_assoc, List.singleton_append, get_put_append hdir,
      get_mapMeta (by simp), ← get_append_of_some hg, List.append_assoc, List.singleton_append]
  · exact Keeps.shut ⟨within_put hc _ _, hdirs⟩

theorem marks_child {c d : Place} {a n : Bytes} {w : World} (hc : c ++ [a] <+: d ++ [n])
    (hp : PlainPlace (d ++ [n])) (hd : w.root.DirAt d) (hl : NotLink w.root (d ++ [n])) :
    Marks c a w (pathOf (d ++ [n])) := by
  intro f x hx
  exact (keeps_changeMeta hc hp hd hl hx).shut

theorem lstat_dots {x : Node} {e : Place} {t : Bytes} (hd : x.DirAt e) (hp : PlainPlace e)
    (ht : t = dot ∨ t = dotdot) : ∃ m, lstat x (pathOf (e ++ [t])) = .ok (.inr m) := by
  have resolved {g : Place} (hw : walk x (pathOf (e ++ [t])) = .ok g) (hg : x.DirAt g) :
      ∃ m, lstat x (pathOf (e ++ [t])) = .ok (.inr m) := by
    obtain ⟨m, hm⟩ := dirAt_iff_find.mp hg
    have hcond : (pathOf (e ++ [t])).comps.getLast? = some dot ∨
        (pathOf (e ++ [t])).comps.getLast? = some dotdot := by
      simpa [pathOf] using ht
    refine ⟨m, ?_⟩
    rw [lstat, if_pos (.inr (.inr hcond)), stat, hw]
    simp [hm, pathOf]
  rcases ht with rfl | rfl
  · exact resolved (walk_dot hd hp) hd
  · exact resolved (walk_dotdot hd hp) (dirAt_above hd (List.dropLast_prefix e))

theorem keeps_put_missing {c e : Place} {w : World} (hc : c <+: e) (hf : w.root.find e = none)
    (o : Option Node) : Keeps c w (w.withRoot (w.root.put e o)) :=
  ⟨within_put hc w o, fun _ => dirAt_put_of_not fun hd => by
    obtain ⟨m, hm⟩ := dirAt_iff_find.mp hd
    rw [hf] at hm
    cases hm⟩

theorem around_dropLast {c e : Place} {a : Bytes} (h : c ++ [a] <+: e) : Around c a e.dropLast := by
  obtain ⟨r, rfl⟩ := h
  rcases List.eq_nil_or_concat r with rfl | ⟨r, b, rfl⟩
  · exact .inl (by simp)
  · refine .inr ?_
    rw [List.concat_eq_append, ← List.append_assoc, List.dropLast_concat]
    exact List.prefix_append _ _

/-- The target of a marker in `e` that is a directory is around the entry `a` of `c`. -/
theorem marks_target {c e : Place} {a t : Bytes} {w : World} (hc : c ++ [a] <+: e) (hne : c ≠ [])
    (hp : PlainPlace e) (hd : w.root.DirAt e) (ht : t ≠ []) (hs : slashByte ∉ t) {m : Meta}
    (hl : lstat w.root (pathOf (e ++ [t])) = .ok (.inr m)) : Marks c a w (pathOf (e ++ [t])) := by
  by_cases hdot : t = dot
  · subst hdot
    exact marks_of_walk (walk_dot hd hp) (.inr hc) hne hd
  by_cases hdd : t = dotdot
  · subst hdd
    exact marks_of_walk (walk_dotdot hd hp) (around_dropLast hc) hne
      (dirAt_above hd (List.dropLast_prefix e))
  have hpt : Plain t := ⟨ht, hs, hdot, hdd⟩
  refine marks_child (hc.trans (List.prefix_append _ _)) (hp.snoc hpt) hd fun s hf => ?_
  rw [lstat_child (clear_of_dirAt hd) hp hpt, hf] at hl
  cases hl

/-! ## The conversion -/

theorem ensures_setOverlayXattr {c : Place} {a : Bytes} {w : World} {p : PathBuf} {name : String}
    {value : Bytes} (hm : Marks c a w p) (hI : ∀ w', Shut c a w w' → I w') :
    Ensures (machine env) I (fun _ w' => Shut c a w w') (setOverlayXattr p name value) w :=
  ensures_last (ensures_setxattr (hI w (Shut.refl c a w))
    (fun x hx => ⟨hI _ (hm _ x hx), fun _ _ => hm _ x hx⟩) fun e _ ha => by cases ha)

theorem ensures_removeOciWhiteoutMarker {c e : Place} {a n : Bytes} {w : World}
    (hc : c ++ [a] <+: e)
    (hp : PlainPlace (e ++ [n])) (hd : w.root.DirAt e) (hI : ∀ w', Shut c a w w' → I w') :
    Ensures (machine env) I (fun _ w' => Shut c a w w')
      (removeOciWhiteoutMarker (pathOf (e ++ [n]))) w := by
  have hpe : PlainPlace e := hp.up (List.prefix_append _ _)
  have hn : Plain n := hp n (by simp)
  have hcn : c ++ [a] <+: e ++ [n] := hc.trans (List.prefix_append _ _)
  have h₀ := hI w (Shut.refl c a w)
  refine ensures_step (P := fun i w' => w' = w ∧ w.root.find (e ++ [n]) = some i)
    (ensures_symlinkMetadata h₀ ?_ fun code _ ha => by cases ha) ?_
  · rw [lstat_child (clear_of_dirAt hd) hpe hn]
    intro i hi
    cases hf : w.root.find (e ++ [n]) with
    | none => rw [hf] at hi; cases hi
    | some j => rw [hf] at hi; cases hi; exact ⟨rfl, rfl⟩
  rintro i w' hI' ⟨rfl, hi⟩
  refine ensures_bind (ensures_makePathWritable hcn hp hd hi fun w₁ h => hI w₁ h.shut) ?_
  rintro - w₁ h₁ hk₁
  replace hk₁ := hk₁.shut (a := a)
  refine ensures_last (ensures_removeFile h₁ (fun x hx => ?_) fun e _ _ ha => by cases ha)
  rw [unlink_child (hk₁.dirs e hd) hpe hn] at hx
  split at hx <;> cases hx
  rename_i l hf
  have hnd : ¬ w₁.root.DirAt (e ++ [n]) := by
    rintro hdir
    obtain ⟨m, hm⟩ := dirAt_iff_find.mp hdir
    rw [hf] at hm
    cases hm
  have hk₂ : Shut c a w₁ (w₁.withRoot (w₁.root.put (e ++ [n]) none)) :=
    Keeps.shut ⟨within_put hcn _ _, fun q => dirAt_put_of_not hnd⟩
  exact ⟨hI _ (hk₁.trans hk₂), fun _ _ => hk₁.trans hk₂⟩

/-- A directory where a conversion of the entry `a` of `c` can go. -/
structure Below (c : Place) (a : Bytes) (e : Place) (x : Node) : Prop where
  le : c ++ [a] <+: e
  plain : PlainPlace e
  dir : x.DirAt e

theorem Below.mono {c e : Place} {a : Bytes} {x y : Node} (h : Below c a e x)
    (hd : ∀ q, x.DirAt q → y.DirAt q) : Below c a e y := ⟨h.le, h.plain, hd e h.dir⟩

theorem Below.child {c e : Place} {a n : Bytes} {x : Node} (h : Below c a e x) (hn : Plain n)
    (hd : x.DirAt (e ++ [n])) : Below c a (e ++ [n]) x :=
  ⟨h.le.trans (List.prefix_append _ _), h.plain.snoc hn, hd⟩

theorem ensures_convertOciWhiteoutMarker {c e : Place} {a n t : Bytes} {w : World} (hne : c ≠ [])
    (he : Below c a e w.root) (hn : Plain n) (ht : t ≠ []) (hs : slashByte ∉ t)
    (hI : ∀ w', Shut c a w w' → I w') :
    Ensures (machine env) I (fun _ w' => Shut c a w w')
      (convertOciWhiteoutMarker (pathOf (e ++ [n])) (pathOf (e ++ [t]))) w := by
  have h₀ := hI w (Shut.refl c a w)
  have remove {w₁ : World} (hk : Shut c a w w₁) :
      Ensures (machine env) I (fun _ w' => Shut c a w w')
        (removeOciWhiteoutMarker (pathOf (e ++ [n]))) w₁ :=
    ensures_mono (ensures_removeOciWhiteoutMarker he.le (he.plain.snoc hn) (hk.dirs e he.dir)
      fun w' h => hI w' (hk.trans h)) (fun _ h => h) fun _ _ _ h => hk.trans h
  rw [convertOciWhiteoutMarker]
  refine ensures_bind
    (P := fun r w' => w' = w ∧ (r = lstat w.root (pathOf (e ++ [t])) ∨ ∃ k, r = .error (.other k)))
    (ensures_symlinkMetadata h₀ ⟨rfl, .inl rfl⟩ fun code => ⟨rfl, .inr ⟨code, rfl⟩⟩) ?_
  rintro r w' hI' ⟨rfl, hr⟩
  dsimp only
  split
  · rename_i i
    have hl : lstat w'.root (pathOf (e ++ [t])) = .ok i := by
      rcases hr with hr | ⟨code, hr⟩
      · exact hr.symm
      · cases hr
    split
    · rename_i hi
      obtain ⟨m, rfl⟩ : ∃ m, i = .inr m := by
        match i, hi with
        | .inr m, _ => exact ⟨m, rfl⟩
      refine ensures_bind (ensures_setOverlayXattr
        (marks_target he.le hne he.plain he.dir ht hs hl) hI) ?_
      exact fun _ _ _ hk => remove hk
    · exact remove (Shut.refl c a w')
  · -- the target is missing, so its name is plain
    have hl : lstat w'.root (pathOf (e ++ [t])) = .error .noent := by
      rcases hr with hr | ⟨code, hr⟩
      · exact hr.symm
      · cases hr
    have hpt : Plain t := by
      have notDots (hd : t = dot ∨ t = dotdot) : False := by
        obtain ⟨m, hm⟩ := lstat_dots he.dir he.plain hd
        rw [hm] at hl
        cases hl
      exact ⟨ht, hs, fun h => notDots (.inl h), fun h => notDots (.inr h)⟩
    have hf : w'.root.find (e ++ [t]) = none := by
      rw [lstat_child (clear_of_dirAt he.dir) he.plain hpt] at hl
      cases hf : w'.root.find (e ++ [t]) with
      | none => rfl
      | some i => rw [hf] at hl; cases hl
    have hct : c ++ [a] <+: e ++ [t] := he.le.trans (List.prefix_append _ _)
    refine ensures_step
      (P := fun _ w₁ => w₁ = w'.withRoot (w'.root.put (e ++ [t]) (some (.leaf (.file newFile [])))))
      (ensures_createNew h₀ (fun x hx => ?_) fun e _ ha => by cases ha) ?_
    · rw [createNew_child he.dir he.plain hpt, hf] at hx
      cases hx
      exact ⟨hI _ (keeps_put_missing hct hf _).shut, fun _ _ => rfl⟩
    rintro - w₁ h₁ rfl
    have hk₁ := (keeps_put_missing hct hf (some (.leaf (.file newFile [])))).shut
    have hm : Marks c a (w'.withRoot (w'.root.put (e ++ [t]) (some (.leaf (.file newFile [])))))
        (pathOf (e ++ [t])) := by
      refine marks_child hct (he.plain.snoc hpt) (hk₁.dirs e he.dir) fun s hs => ?_
      rw [withRoot_root, find, get_put_append he.dir] at hs
      cases hs
    refine ensures_bind (ensures_setOverlayXattr hm fun w₂ hk => hI w₂ (hk₁.trans hk)) ?_
    exact fun _ _ _ hk => remove (hk₁.trans hk)
  · exact ensures_bind (ensures_fail (P := fun _ w₁ => Shut c a w' w₁) h₀) fun _ _ _ hk => remove hk

theorem ensures_convertEntry {c e : Place} {a n : Bytes} {w : World} {isOpaque : Bool}
    {pending : List PathBuf} (hne : c ≠ []) (he : Below c a e w.root) (hn : Plain n)
    (hI : ∀ w', Shut c a w w' → I w') :
    Ensures (machine env) I
      (fun ps w' => Shut c a w w' ∧ ∀ p ∈ ps, p ∈ pending ∨ ∃ g, p = pathOf g ∧ Below c a g w'.root)
      (convertEntry (pathOf e) isOpaque pending n) w := by
  have h₀ := hI w (Shut.refl c a w)
  have same {w' : World} (hk : Shut c a w w') : Ensures (machine env) I
      (fun ps w' => Shut c a w w' ∧ ∀ p ∈ ps, p ∈ pending ∨ ∃ g, p = pathOf g ∧ Below c a g w'.root)
      (ret (.ok pending) : M _) w' := ensures_ok (hI w' hk) ⟨hk, fun p hp => .inl hp⟩
  have hmarker : Ensures (machine env) I (fun _ w' => Shut c a w w')
      (removeOciWhiteoutMarker (pathOf (e ++ [n]))) w :=
    ensures_removeOciWhiteoutMarker he.le (he.plain.snoc hn) he.dir hI
  rw [convertEntry]
  extract_lets next
  split
  · exact ensures_bind hmarker fun _ _ _ hk => same hk
  split
  · rename_i t ht
    obtain ⟨ht', hs⟩ := target_of_ociWhiteoutTargetName hn ht
    split
    · exact ensures_bind hmarker fun _ _ _ hk => same hk
    · rw [join_noSlash ht' hs]
      exact ensures_bind (ensures_convertOciWhiteoutMarker hne he hn ht' hs hI)
        fun _ _ _ hk => same hk
  · refine ensures_step (P := fun i w' => w' = w ∧ w.root.find (e ++ [n]) = some i)
      (ensures_symlinkMetadata h₀ ?_ fun code _ ha => by cases ha) ?_
    · rw [show entryPath (pathOf e) n = pathOf (e ++ [n]) from rfl,
        lstat_child (clear_of_dirAt he.dir) he.plain hn]
      intro i hi
      cases hf : w.root.find (e ++ [n]) with
      | none => rw [hf] at hi; cases hi
      | some j => rw [hf] at hi; cases hi; exact ⟨rfl, rfl⟩
    rintro i w' hI' ⟨rfl, hi⟩
    split
    · rename_i hdir
      refine ensures_ok hI' ⟨Shut.refl c a w', fun p hp => ?_⟩
      rcases List.mem_cons.mp hp with rfl | hp
      · refine .inr ⟨e ++ [n], rfl, he.child hn (dirAt_iff_find.mpr ?_)⟩
        match i, hdir with
        | .inr m, _ => exact ⟨m, hi⟩
      · exact .inl hp
    · exact same (Shut.refl c a w')

/-- The conversion of a directory below `c` stays within `c`. -/
theorem ensures_convertOciWhiteoutsToOverlayfs {c e : Place} {a : Bytes} {w : World} (hne : c ≠ [])
    (he : Below c a e w.root) (hI : ∀ w', Shut c a w w' → I w') :
    Ensures (machine env) I (fun _ w' => Shut c a w w')
      (convertOciWhiteoutsToOverlayfs env (pathOf e)) w := by
  refine ensures_loop
    (K := fun pending w' => Shut c a w w' ∧ ∀ p ∈ pending, ∃ g, p = pathOf g ∧ Below c a g w'.root)
    (fun _ w' h => hI w' h.1) ?_ _ [pathOf e] w
    ⟨Shut.refl c a w, fun p hp => ⟨e, List.mem_singleton.mp hp, he⟩⟩
  rintro pending w₁ ⟨hk₁, hp₁⟩
  have h₁ := hI w₁ hk₁
  rw [convertStep.eq_def]
  split
  · exact ensures_ok h₁ hk₁
  rename_i directory pending
  obtain ⟨g, rfl, hg⟩ := hp₁ directory List.mem_cons_self
  refine ensures_step (P := fun l w' => w' = w₁ ∧ ∀ m ∈ l.names, Plain m)
    (ensures_readDir h₁ (fun names l hn hl a ha => ?_) (fun e _ _ ha => by cases ha)
      fun code _ ha => by cases ha) ?_
  · cases ha
    obtain ⟨m, kids, hx⟩ := hg.dir
    rw [listDir_dirAt hx rfl hg.plain] at hn
    cases hn
    exact ⟨rfl, fun m hm => (mem_entries.mp (mem_names_of_lists hl hm)).2⟩
  rintro l w' hI' ⟨rfl, hl⟩
  split
  · exact ensures_fail hI'
  extract_lets isOpaque
  -- the entries, in the order of the listing
  have entries {w₂ : World} (hk₂ : Shut c a w' w₂) : Ensures (machine env) I
      (Sum.elim (fun pending w' => Shut c a w w' ∧
        ∀ p ∈ pending, ∃ g, p = pathOf g ∧ Below c a g w'.root) fun _ w' => Shut c a w w')
      ((fold (convertEntry (pathOf g) isOpaque) pending l.names).bind
        fun ps => (ret (.ok (Sum.inl ps)) : M (List PathBuf ⊕ Unit))) w₂ := by
    refine ensures_bind (ensures_fold
      (K := fun ps names w₃ => Shut c a w w₃ ∧ Below c a g w₃.root ∧ (∀ m ∈ names, Plain m) ∧
        ∀ p ∈ ps, ∃ g, p = pathOf g ∧ Below c a g w₃.root)
      (fun _ _ w₃ h => hI w₃ h.1) ?_ l.names pending w₂
      ⟨hk₁.trans hk₂, hg.mono hk₂.dirs, hl, fun p hp => ?_⟩) ?_
    · rintro ps m names w₃ ⟨hk₃, hg₃, hn₃, hp₃⟩
      refine ensures_mono (ensures_convertEntry hne hg₃ (hn₃ m List.mem_cons_self)
        fun w' hk => hI w' (hk₃.trans hk)) (fun _ h => h) ?_
      rintro ps' w₄ - ⟨hk₄, hp₄⟩
      refine ⟨hk₃.trans hk₄, hg₃.mono hk₄.dirs, fun a ha => hn₃ a (List.mem_cons_of_mem _ ha), ?_⟩
      intro p hp
      rcases hp₄ p hp with hp | hp
      · obtain ⟨g', rfl, hg'⟩ := hp₃ p hp
        exact ⟨g', rfl, hg'.mono hk₄.dirs⟩
      · exact hp
    · obtain ⟨g', rfl, hg'⟩ := hp₁ p (List.mem_cons_of_mem _ hp)
      exact ⟨g', rfl, hg'.mono hk₂.dirs⟩
    · rintro ps w₃ h₃ ⟨hk₃, -, -, hp₃⟩
      exact ensures_ok h₃ ⟨hk₃, hp₃⟩
  split
  · exact ensures_bind (ensures_setOverlayXattr (marks_of_walk (walk_dirAt hg.dir hg.plain false)
      (.inr hg.le) hne hg.dir) fun w₂ hk => hI w₂ (hk₁.trans hk)) fun _ _ _ hk => entries hk
  · exact entries (Shut.refl c a w')

/-! ## Extraction -/

/-- `y` is what a conversion that returned `Ok` made of the tree `x`. -/
def ConvertedTo (env : Env) (x y : Node) : Prop :=
  ∃ c w w', PlainPlace c ∧ c ≠ [] ∧ x.isDir ∧ w.root.get c = some x ∧
    Exec (machine env) (convertOciWhiteoutsToOverlayfs env (pathOf c)) w (some (.ok ())) w' ∧
    w'.root.get c = some y

/-- `y` is the tree `x` of an archive, converted, and the bytes of the archive pass the check
    under `digest`. -/
def ExtractedFrom (env : Env) (digest : Bytes) (x y : Node) : Prop :=
  (∃ bytes format, Verifies env.hash bytes digest ∧
    env.unpack format ⟨bytes, false⟩ (.dir newDir []) = some x) ∧ ConvertedTo env x y

/-- A tree that some archive was extracted to. -/
def Extracted (env : Env) (digest : Bytes) (t : Node) : Prop := ∃ x, ExtractedFrom env digest x t

/-- Anything may be put in an empty directory. -/
theorem keeps_put_empty {c d : Place} {n : Bytes} {w : World} {m m' : Meta}
    {kids : List (Bytes × Node)} (hc : c <+: d ++ [n])
    (hg : w.root.get (d ++ [n]) = some (.dir m [])) :
    Keeps c w (w.withRoot (w.root.put (d ++ [n]) (some (.dir m' kids)))) := by
  have hd : w.root.DirAt d := dirAt_of_get_append hg (by simp)
  refine ⟨within_put hc _ _, fun q hq => ?_⟩
  by_cases h : d ++ [n] <+: q
  · obtain ⟨r, rfl⟩ := h
    have hr : r = [] := by
      cases r with
      | nil => rfl
      | cons a r =>
        obtain ⟨_, _, hx⟩ := hq
        rw [get_append_of_some hg] at hx
        cases hx
    subst hr
    rw [List.append_nil]
    exact ⟨m', kids, get_put_append hd _ []⟩
  · exact (dirAt_put_off h _).mpr hq

theorem ensures_extractLayer {c : Place} {n digest : Bytes} {reader : Body} {format : LayerFormat}
    {w : World} (hne : c ≠ []) (hp : PlainPlace (c ++ [n]))
    (hg : w.root.get (c ++ [n]) = some (.dir newDir [])) (hI : ∀ w', Shut c n w w' → I w') :
    Ensures (machine env) I
      (fun _ w' => Shut c n w w' ∧ WellFormed digest ∧
        ∃ t, w'.root.get (c ++ [n]) = some t ∧ t.isDir ∧ Extracted env digest t)
      (extractLayer env reader digest format (pathOf (c ++ [n]))) w := by
  have h₀ := hI w (Shut.refl c n w)
  have hdir : w.root.DirAt (c ++ [n]) := ⟨_, _, hg⟩
  have hwalk : walk w.root (pathOf (c ++ [n])) = .ok (c ++ [n]) := walk_dirAt hdir hp false
  rw [extractLayer]
  refine ensures_bind (P := fun v w' => w' = w ∧ DigestVerifier.new digest = .ok v)
    (ensures_withContext.mpr (ensures_lift h₀ fun v hv => ⟨rfl, ok_of_mapError hv⟩)) ?_
  rintro v w' - ⟨rfl, hv⟩
  refine ensures_step
    (P := fun _ w₁ => ∃ m kids, env.unpack format reader (.dir newDir []) = some (.dir m kids) ∧
      w₁ = w'.withRoot (w'.root.put (c ++ [n]) (some (.dir m kids))))
    (ensures_unpack h₀ (fun x hx => ?_) (fun x hx => ?_) fun e _ ha => by cases ha) ?_
  · obtain ⟨c', m, kids, hc', -, rfl⟩ := hx
    rw [hwalk] at hc'
    cases hc'
    exact ⟨hI _ ((keeps_put_empty List.prefix_rfl hg).shut), fun code _ ha => by cases ha⟩
  · rw [unpacked, hwalk] at hx
    simp only [hg] at hx
    split at hx <;> cases hx
    rename_i m kids hu
    exact ⟨hI _ ((keeps_put_empty List.prefix_rfl hg).shut), fun _ _ => ⟨m, kids, hu, rfl⟩⟩
  rintro - w₁ h₁ ⟨m, kids, hu, rfl⟩
  have hk₁ : Shut c n w' (w'.withRoot (w'.root.put (c ++ [n]) (some (.dir m kids)))) :=
    (keeps_put_empty List.prefix_rfl hg).shut
  have hg₁ : (w'.root.put (c ++ [n]) (some (.dir m kids))).get (c ++ [n]) = some (.dir m kids) :=
    get_put_append (dirAt_of_get_append hg (by simp)) _ []
  have he : Below c n (c ++ [n]) (w'.root.put (c ++ [n]) (some (.dir m kids))) :=
    ⟨List.prefix_rfl, hp, m, kids, hg₁⟩
  refine ensures_bind (ensures_withContext.mpr (ensures_exec_self
    (ensures_convertOciWhiteoutsToOverlayfs hne he fun w₂ hk => hI w₂ (hk₁.trans hk)))) ?_
  rintro ⟨⟩ w₂ h₂ ⟨hk₂, hx₂⟩
  split
  · exact ensures_fail h₂
  rename_i hb
  refine ensures_withContext.mpr (ensures_lift h₂ fun _ hver => ?_)
  have hver' : Verifies env.hash reader.data digest := by
    rw [Verifies, verifyBytes, hv]
    exact ok_of_mapError hver
  obtain ⟨m₂, kids₂, hg₂⟩ := hk₂.dirs _ ⟨m, kids, hg₁⟩
  have hreader : reader = ⟨reader.data, false⟩ := by
    obtain ⟨data, broken⟩ := reader
    simp only [Bool.not_eq_true] at hb
    rw [hb]
  refine ⟨hk₁.trans hk₂, ⟨v, hv⟩, _, hg₂, rfl, .dir m kids, ⟨reader.data, format, hver', ?_⟩,
    c ++ [n], w'.withRoot (w'.root.put (c ++ [n]) (some (.dir m kids))), w₂, hp, by simp, rfl,
    hg₁, hx₂, hg₂⟩
  rw [← hreader]
  exact hu

end Pakstak
