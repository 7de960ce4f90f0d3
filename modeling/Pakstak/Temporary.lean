/-
  Making directories, and removing trees whatever their modes.

  `Within c w w'`: only the subtree at `c` has changed. Everything under the store's
  `temporary` is used in this way, so nothing that happens there can be seen in the store.

  Proved, for any answers of the environment:
  * `ensures_createDirAll`: only missing directories on the way are made.
  * `ensures_removeDirAllWritable`: no symlink is followed out of the tree to remove.
-/
import Pakstak.Calls

namespace Pakstak

open Posix Prog FileTree

variable {env : Env} {I : World → Prop}

/-! ## Changes in one subtree -/

/-- Only the subtree at `c` has changed. -/
structure Within (c : Place) (w w' : World) : Prop where
  agree : AgreeOff c w.root w'.root
  aside : w'.aside = w.aside

theorem Within.refl (c : Place) (w : World) : Within c w w := ⟨.refl c _, rfl⟩

theorem Within.trans {c : Place} {w w' w'' : World} (h : Within c w w') (h' : Within c w' w'') :
    Within c w w'' := ⟨h.agree.trans h'.agree, h'.aside.trans h.aside⟩

theorem Within.mono {c c' : Place} {w w' : World} (h : Within c' w w') (hc : c <+: c') :
    Within c w w' := ⟨h.agree.mono hc, h.aside⟩

theorem within_put {c c' : Place} (hc : c <+: c') (w : World) (o : Option Node) :
    Within c w (w.withRoot (w.root.put c' o)) := ⟨agreeOff_put hc _ _, rfl⟩

/-- Only the subtree at `c` has changed, and no directory is gone. -/
structure Keeps (c : Place) (w w' : World) : Prop where
  within : Within c w w'
  dirs : ∀ q, w.root.DirAt q → w'.root.DirAt q

theorem Keeps.refl (c : Place) (w : World) : Keeps c w w := ⟨.refl c w, fun _ => id⟩

theorem Keeps.trans {c : Place} {w w' w'' : World} (h : Keeps c w w') (h' : Keeps c w' w'') :
    Keeps c w w'' := ⟨h.within.trans h'.within, fun q hq => h'.dirs q (h.dirs q hq)⟩

/-- Of the entries of `c`, only `a` has changed; `c` itself may have other metadata. -/
structure Shut (c : Place) (a : Bytes) (w w' : World) : Prop extends Keeps c w w' where
  beside : ∀ m, m ≠ a → w'.root.get (c ++ [m]) = w.root.get (c ++ [m])

theorem Shut.refl (c : Place) (a : Bytes) (w : World) : Shut c a w w :=
  ⟨.refl c w, fun _ _ => rfl⟩

theorem Shut.trans {c : Place} {a : Bytes} {w w' w'' : World} (h : Shut c a w w')
    (h' : Shut c a w' w'') : Shut c a w w'' :=
  ⟨h.toKeeps.trans h'.toKeeps, fun m hm => (h'.beside m hm).trans (h.beside m hm)⟩

theorem Keeps.shut {c : Place} {a : Bytes} {w w' : World} (h : Keeps (c ++ [a]) w w') :
    Shut c a w w' :=
  ⟨⟨h.within.mono (List.prefix_append _ _), h.dirs⟩, fun _ hm =>
    (h.within.agree _ (snoc_off_snoc hm.symm)).2 (snoc_off_snoc hm)⟩

/-- Nothing was at `c`, so every symlink is still there. -/
theorem Keeps.links {c : Place} {w w' : World} (h : Keeps c w w') (hc : w.root.get c = none)
    (q : Place) (t : Bytes) (hq : w.root.find q = some (.inl (.symlink t))) :
    w'.root.find q = some (.inl (.symlink t)) := by
  by_cases hcq : c <+: q
  · obtain ⟨r, rfl⟩ := hcq
    rw [find_eq_none_iff.mpr (get_append_of_none hc r)] at hq
    cases hq
  · exact (h.within.agree q hcq).1.trans hq

/-! ## Making directories -/

theorem isDirPath_of_dirAt {x : Node} {c : Place} (h : x.DirAt c) (hp : PlainPlace c) :
    isDirPath x (pathOf c) = true := by
  obtain ⟨m, hm⟩ := dirAt_iff_find.mp h
  simp [isDirPath, stat, pathOf, walk_dirAt h hp, hm, Posix.isDir]

theorem isDirPath_iff {x : Node} {c : Place} (h : Clear x c) (hp : PlainPlace c) :
    isDirPath x (pathOf c) = true ↔ x.DirAt c := by
  refine ⟨fun hd => ?_, fun hd => isDirPath_of_dirAt hd hp⟩
  rcases h c List.prefix_rfl with hn | hd'
  · rcases List.eq_nil_or_concat c with rfl | ⟨d, n, rfl⟩
    · simp at hn
    · rw [List.concat_eq_append] at *
      have hf := find_eq_none_iff.mpr hn
      rw [isDirPath, stat_child (h.up (List.prefix_append _ _)) (hp.up (List.prefix_append _ _))
        (hp n (by simp)) (fun t ht => by simp [hf] at ht), hf] at hd
      cases hd
  · exact hd'

/-- Only missing directories on the way to `c` have been made. -/
structure Made (c : Place) (w w' : World) : Prop where
  mkdirs : Mkdirs c w.root w'.root
  aside : w'.aside = w.aside

theorem Made.refl (c : Place) (w : World) : Made c w w := ⟨.refl c _, rfl⟩

theorem Made.trans {c : Place} {w w' w'' : World} (h : Made c w w') (h' : Made c w' w'') :
    Made c w w'' := ⟨h.mkdirs.trans h'.mkdirs, h'.aside.trans h.aside⟩

theorem Made.mono {c c' : Place} {w w' : World} (h : Made c w w') (hc : c <+: c') :
    Made c' w w' := ⟨h.mkdirs.mono hc, h.aside⟩

/-- One `mkdir` whose parent is there, with the check that follows a failure. -/
theorem ensures_createDir_or {d : Place} {n : Bytes} {w : World} (hd : w.root.DirAt d)
    (hp : PlainPlace (d ++ [n]))
    (hI : ∀ w', Made (d ++ [n]) w w' → I w') :
    Ensures (machine env) I
      (fun r w' => Made (d ++ [n]) w w' ∧ (r = .ok () → w'.root.DirAt (d ++ [n])) ∧
        r ≠ .error .noent)
      (Fs.createDir (pathOf (d ++ [n]))) w := by
  have hpd : PlainPlace d := hp.up (List.prefix_append _ _)
  have h₀ := hI w (.refl _ w)
  refine ensures_createDir h₀ (fun x hx => ?_) fun e he => ?_
  · rw [mkdir_child hd hpd (hp n (by simp))] at hx
    cases hf : w.root.find (d ++ [n]) with
    | some i => rw [hf] at hx; cases hx
    | none =>
      rw [hf] at hx
      cases hx
      have hm : Made (d ++ [n]) w (w.withRoot (w.root.put (d ++ [n]) (some (.dir newDir [])))) :=
        ⟨mkdirs_put hd hf, rfl⟩
      refine ⟨hI _ hm, hm, fun _ => ?_, by simp⟩
      exact ⟨newDir, [], by rw [withRoot_root, get_put_append hd]; rfl⟩
  · refine ⟨.refl _ w, by simp, ?_⟩
    rintro he'
    cases he'
    rcases he with he | ⟨code, he⟩
    · rw [mkdir_child hd hpd (hp n (by simp))] at he
      cases hf : w.root.find (d ++ [n]) <;> rw [hf] at he <;> cases he
    · cases he

theorem ensures_createDirAllUpTo {w : World} (depth : Nat) {c : Place} (hp : PlainPlace c)
    (hc : Clear w.root c) (hI : ∀ w', Made c w w' → I w') :
    Ensures (machine env) I (fun r w' => Made c w w' ∧ (r = .ok () → w'.root.DirAt c))
      (createDirAllUpTo depth (pathOf c)) w := by
  induction depth generalizing c with
  | zero => exact ensures_ok (hI w (.refl c w)) ⟨.refl c w, by simp⟩
  | succ depth ih =>
    -- after a failed `mkdir` the directory counts if it is there
    have check {w' : World} (e : Errno) (hm : Made c w w') : Ensures (machine env) I
        (fun r w'' => Made c w w'' ∧ (r = .ok () → w''.root.DirAt c))
        ((pathIsDir (pathOf c)).bind fun b =>
          if b = true then (ret (.ok (Except.ok ())) : M (Except Errno Unit))
          else ret (.ok (Except.error e))) w' := by
      refine ensures_bind
        (P := fun b w'' => w'' = w' ∧ (b = true → isDirPath w'.root (pathOf c) = true))
        (ensures_pathIsDir (hI w' hm) ⟨rfl, id⟩ fun _ => ⟨rfl, by simp⟩) ?_
      rintro b w'' hI' ⟨rfl, hb⟩
      split
      · rename_i hbt
        exact ensures_ok hI' ⟨hm, fun _ => (isDirPath_iff (hm.mkdirs.clear hc) hp).mp (hb hbt)⟩
      · exact ensures_ok hI' ⟨hm, by simp⟩
    rcases List.eq_nil_or_concat c with rfl | ⟨d, n, rfl⟩
    · -- the root is there
      rw [createDirAllUpTo]
      refine ensures_bind (P := fun r w' => w' = w ∧ r ≠ .ok () ∧ r ≠ .error .noent)
        (ensures_createDir (hI w (.refl _ w)) (fun x hx => ?_) fun e he => ⟨rfl, by simp, ?_⟩) ?_
      · cases hx
      · rcases he with he | ⟨code, rfl⟩
        · cases he; simp
        · simp
      rintro r w' hI' ⟨rfl, hr, hr'⟩
      split
      · exact absurd rfl hr
      · exact absurd rfl hr'
      · exact check _ (.refl _ _)
    · rw [List.concat_eq_append] at *
      have hpd : PlainPlace d := hp.up (List.prefix_append _ _)
      have hn : Plain n := hp n (by simp)
      rw [createDirAllUpTo]
      by_cases hd : w.root.DirAt d
      · refine ensures_bind (ensures_createDir_or hd hp hI) ?_
        rintro r w' hI' ⟨hm, hr, hr'⟩
        split
        · exact ensures_ok hI' ⟨hm, fun _ => hr rfl⟩
        · exact absurd rfl hr'
        · exact check _ hm
      · have hnone : w.root.get d = none :=
          (hc d (List.prefix_append _ _)).resolve_right hd
        refine ensures_bind (P := fun r w' => w' = w ∧ r ≠ .ok ())
          (ensures_createDir (hI w (.refl _ w)) (fun x hx => ?_) fun e _ => ⟨rfl, by simp⟩) ?_
        · rw [mkdir_missing (hc.up (List.prefix_append _ _)) hnone hpd hn] at hx
          cases hx
        rintro r w' hI' ⟨rfl, hr⟩
        split
        · exact absurd rfl hr
        · rw [parent_pathOf hn.ne_dot]
          refine ensures_bind (ih hpd (hc.up (List.prefix_append _ _)) fun w' hm =>
            hI w' (hm.mono (List.prefix_append _ _))) ?_
          rintro r w₁ h₁ ⟨hm₁, hr₁⟩
          have hm₁' := hm₁.mono (List.prefix_append d [n])
          split
          · exact ensures_ok h₁ ⟨hm₁', by simp⟩
          · refine ensures_bind (ensures_createDir_or (hr₁ rfl) hp
              fun w' hm => hI w' (hm₁'.trans hm)) ?_
            rintro r w₂ h₂ ⟨hm₂, hr₂, -⟩
            split
            · exact ensures_ok h₂ ⟨hm₁'.trans hm₂, fun _ => hr₂ rfl⟩
            · exact check _ (hm₁'.trans hm₂)
        · exact check _ (.refl _ _)

/-- `create_dir_all` makes the directories missing on the way, and no more. -/
theorem ensures_createDirAll {w : World} {c : Place} (hp : PlainPlace c) (hc : Clear w.root c)
    (hI : ∀ w', Made c w w' → I w') :
    Ensures (machine env) I (fun r w' => Made c w w' ∧ (r = .ok () → w'.root.DirAt c))
      (createDirAll (pathOf c)) w :=
  ensures_createDirAllUpTo _ hp hc hI

/-- Where the path names a directory, nothing is made. -/
theorem ensures_createDirAll_present {w : World} {p : PathBuf} (hd : isDirPath w.root p = true)
    (hI : I w) : Ensures (machine env) I (fun _ w' => w' = w) (createDirAll p) w := by
  obtain ⟨m, hm⟩ : ∃ m, stat w.root p = .ok (.inr m) := by
    rw [isDirPath] at hd
    split at hd
    · rename_i i hi
      obtain ⟨m, rfl⟩ := isDir_eq_true.mp hd
      exact ⟨m, hi⟩
    · cases hd
  obtain ⟨e, he, hne⟩ := mkdir_of_dir hm
  have check (e : Errno) : Ensures (machine env) I (fun _ w' => w' = w)
      ((pathIsDir p).bind fun b =>
        if b = true then (ret (.ok (Except.ok ())) : M (Except Errno Unit))
        else ret (.ok (Except.error e))) w := by
    refine ensures_bind (P := fun _ w' => w' = w) (ensures_pathIsDir hI rfl fun _ => rfl) ?_
    rintro b w' hI' rfl
    split <;> exact ensures_ok hI' rfl
  rw [createDirAll, createDirAllUpTo]
  refine ensures_bind (P := fun r w' => w' = w ∧ r ≠ .error .noent)
    (ensures_createDir hI (fun x hx => ?_) fun e' he' => ⟨rfl, ?_⟩) ?_
  · rw [he] at hx
    cases hx
  · rcases he' with h | ⟨code, rfl⟩
    · rw [he] at h
      cases h
      simpa using hne
    · simp
  rintro r w' hI' ⟨rfl, hr⟩
  split
  · exact ensures_ok hI' rfl
  · exact absurd rfl hr
  · exact check _

/-! ## Removing trees -/

/-- `p` is spelled like a place at or below `c`, in a directory that is there. -/
def Reached (c : Place) (x : Node) (p : PathBuf) : Prop :=
  ∃ d n, p = pathOf (d ++ [n]) ∧ c <+: d ++ [n] ∧ PlainPlace (d ++ [n]) ∧ x.DirAt d

theorem Reached.mono {c : Place} {x y : Node} {p : PathBuf} (h : Reached c x p)
    (hd : ∀ q, x.DirAt q → y.DirAt q) : Reached c y p := by
  obtain ⟨d, n, hp, hc, hpl, hx⟩ := h
  exact ⟨d, n, hp, hc, hpl, hd d hx⟩

theorem mem_names_of_lists {names : List Bytes} {l : Listing} (h : Lists names l) {n : Bytes}
    (hn : n ∈ l.names) : n ∈ names := by
  rcases h with ⟨-, h⟩ | ⟨-, -, -, h⟩
  · exact h.subset hn
  · exact h hn

/-- Changing the metadata of a place within `c`. -/
theorem keeps_changeMeta {c d : Place} {n : Bytes} {f : Meta → Meta} {w : World} {x : Node}
    (hc : c <+: d ++ [n]) (hp : PlainPlace (d ++ [n])) (hd : w.root.DirAt d)
    (hl : NotLink w.root (d ++ [n])) (hx : changeMeta f w.root (pathOf (d ++ [n])) = .ok x) :
    Keeps c w (w.withRoot x) := by
  rw [changeMeta_child hd (hp.up (List.prefix_append _ _)) (hp n (by simp)) hl] at hx
  cases hg : w.root.get (d ++ [n]) with
  | none => rw [hg] at hx; cases hx
  | some t =>
    rw [hg] at hx
    cases hx
    exact ⟨within_put hc _ _, fun q => (dirAt_put_mapMeta hd hg q).mpr⟩

/-- No symlink is followed: what is seen is an entry of the directory the path is in. -/
theorem ensures_makePathWritable {c d : Place} {n : Bytes} {i : Inode} {w : World}
    (hc : c <+: d ++ [n]) (hp : PlainPlace (d ++ [n])) (hd : w.root.DirAt d)
    (hf : w.root.find (d ++ [n]) = some i) (hI : ∀ w', Keeps c w w' → I w') :
    Ensures (machine env) I (fun _ w' => Keeps c w w') (makePathWritable (pathOf (d ++ [n])) i)
      w := by
  have h₀ := hI w (.refl c w)
  rw [makePathWritable]
  split
  · exact ensures_ok h₀ (.refl c w)
  rename_i hi
  have hl : NotLink w.root (d ++ [n]) := by
    rintro t ht
    rw [hf, Option.some.injEq] at ht
    exact hi (by rw [ht]; rfl)
  extract_lets mode writableMode
  split
  · refine ensures_last (ensures_setPermissions h₀ (fun x hx => ?_) fun e a ha => by cases ha)
    have hk := keeps_changeMeta hc hp hd hl hx
    exact ⟨hI _ hk, fun _ _ => hk⟩
  · exact ensures_ok h₀ (.refl c w)

theorem ensures_makeTreeWritable {c : Place} {w : World} {p : PathBuf} (hp : Reached c w.root p)
    (hI : ∀ w', Keeps c w w' → I w') :
    Ensures (machine env) I (fun _ w' => Keeps c w w') (makeTreeWritable env p) w := by
  -- every pending path is in a directory, and no directory goes
  refine ensures_loop
    (K := fun pending w' => Keeps c w w' ∧ ∀ p ∈ pending, Reached c w'.root p)
    (fun _ w' h => hI w' h.1) ?_ _ [p] w
    ⟨.refl c w, fun p' hp' => List.mem_singleton.mp hp' ▸ hp⟩
  rintro pending w₁ ⟨hk₁, hr₁⟩
  have h₁ := hI w₁ hk₁
  rw [makeTreeWritableStep.eq_def]
  split
  · exact ensures_ok h₁ hk₁
  rename_i path pending
  obtain ⟨d, n, rfl, hc, hpl, hd⟩ := hr₁ path List.mem_cons_self
  have hpd : PlainPlace d := hpl.up (List.prefix_append _ _)
  refine ensures_step (P := fun i w' => w' = w₁ ∧ w₁.root.find (d ++ [n]) = some i)
    (ensures_symlinkMetadata h₁ ?_ fun code a ha => by cases ha) ?_
  · rw [lstat_child (clear_of_dirAt hd) hpd (hpl n (by simp))]
    intro i hi
    cases hf : w₁.root.find (d ++ [n]) with
    | none => rw [hf] at hi; cases hi
    | some j => rw [hf] at hi; cases hi; exact ⟨rfl, rfl⟩
  rintro i w' hI' ⟨rfl, hi⟩
  refine ensures_bind (ensures_makePathWritable hc hpl hd hi fun w' hk =>
    hI w' (hk₁.trans hk)) ?_
  rintro - w₂ h₂ hk₂
  have rest : ∀ p ∈ pending, Reached c w₂.root p := fun p hp =>
    (hr₁ p (List.mem_cons_of_mem _ hp)).mono hk₂.dirs
  split
  · exact ensures_ok h₂ ⟨hk₁.trans hk₂, rest⟩
  rename_i hdir
  have hdn : w₂.root.DirAt (d ++ [n]) := by
    refine hk₂.dirs _ (dirAt_iff_find.mpr ?_)
    match i, not_not.mp hdir with
    | .inr m, _ => exact ⟨m, hi⟩
  refine ensures_step (P := fun l w' => w' = w₂ ∧ ∀ m ∈ l.names, Plain m)
    (ensures_readDir h₂ (fun names l hn hl a ha => ?_) (fun e _ a ha => by cases ha)
      fun code a ha => by cases ha) ?_
  · cases ha
    obtain ⟨m, kids, hg⟩ := hdn
    rw [listDir_dirAt hg rfl hpl] at hn
    cases hn
    exact ⟨rfl, fun m hm => (mem_entries.mp (mem_names_of_lists hl hm)).2⟩
  rintro l w' hI'' ⟨rfl, hl⟩
  split
  · exact ensures_fail hI''
  · refine ensures_ok hI'' ⟨hk₁.trans hk₂, fun p hp => ?_⟩
    rcases List.mem_append.mp hp with hp | hp
    · obtain ⟨m, hm, rfl⟩ := List.mem_map.mp (List.mem_reverse.mp hp)
      exact ⟨d ++ [n], m, rfl, hc.trans (List.prefix_append _ _), hpl.snoc (hl m hm), hdn⟩
    · exact rest p hp

/-- Some of the tree at `c` is gone: a directory there is still one, or is gone as well. -/
structure Removing (c : Place) (w w' : World) : Prop where
  within : Within c w w'
  left : w.root.DirAt c → w'.root.get c = none ∨ w'.root.DirAt c

theorem Keeps.removing {c : Place} {w w' : World} (h : Keeps c w w') : Removing c w w' :=
  ⟨h.within, fun hd => .inr (h.dirs c hd)⟩

theorem dirAt_of_remnant {t t' : Node} (h : Remnant t' t) (ht : t.DirAt []) : t'.DirAt [] := by
  obtain ⟨m, kids, hg⟩ := ht
  rw [get_nil, Option.some.injEq] at hg
  subst hg
  have := h [] t'.label (by rw [find, get_nil]; rfl)
  rw [find, get_nil] at this
  cases t' with
  | leaf f => cases this
  | dir m' kids' => exact ⟨m', kids', get_nil _⟩

/-- A recursive removal touches nothing outside the tree it removes. -/
theorem ensures_removeDirAllWritable {d : Place} {n : Bytes} {w : World}
    (hp : PlainPlace (d ++ [n])) (hd : w.root.DirAt d)
    (hI : ∀ w', Removing (d ++ [n]) w w' → I w') :
    Ensures (machine env) I
      (fun _ w' => Within (d ++ [n]) w w' ∧ w'.root.get (d ++ [n]) = none)
      (removeDirAllWritable env (pathOf (d ++ [n]))) w := by
  have hpd : PlainPlace d := hp.up (List.prefix_append _ _)
  refine ensures_bind (ensures_makeTreeWritable ⟨d, n, rfl, List.prefix_rfl, hp, hd⟩
    fun w' hk => hI w' hk.removing) ?_
  rintro - w₁ h₁ hk₁
  have target {c : Place} (hc : removalTarget w₁.root (pathOf (d ++ [n])) = .ok c) :
      c = d ++ [n] := by
    rw [removalTarget_child (hk₁.dirs d hd) hpd (hp n (by simp))] at hc
    split at hc <;> cases hc
    rfl
  have gone (o : Option Node) := hk₁.within.trans (within_put List.prefix_rfl w₁ o)
  refine ensures_last (ensures_removeDirAll h₁ (fun x hx => ?_) (fun c hc => ?_)
    fun e a ha => by cases ha)
  · obtain ⟨c, t, t', hc, ht, hr, rfl⟩ := hx
    rw [target hc] at ht ⊢
    refine ⟨hI _ ⟨gone _, fun hdir => .inr ?_⟩, fun code a ha => by cases ha⟩
    obtain ⟨m, kids, hg⟩ := hk₁.dirs _ hdir
    rw [ht, Option.some.injEq] at hg
    obtain ⟨m', kids', hg'⟩ := dirAt_of_remnant hr ⟨m, kids, by rw [get_nil, hg]⟩
    exact ⟨m', kids', by rw [withRoot_root, get_put_append (hk₁.dirs d hd)]; exact hg'⟩
  · rw [target hc]
    have hnone : (w₁.root.put (d ++ [n]) none).get (d ++ [n]) = none := get_put_none _ _ _ []
    exact ⟨hI _ ⟨gone _, fun _ => .inl hnone⟩, fun _ _ => ⟨gone _, hnone⟩⟩

end Pakstak
