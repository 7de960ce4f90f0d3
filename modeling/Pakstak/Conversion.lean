/-
  The conversion of whiteouts, as one pass over a tree.

  `Pass L P x y`: from the tree `x`, with the directories `P` pending and each listed in an
  order that `L` allows, the pass ends with `y`.

  Proved:
  * `Pass.converted`: what a pass leaves at every place, by `Converted`.
  * `ensures_convert_pass`: a run of `convertOciWhiteoutsToOverlayfs` that returns `Ok` is
    such a pass.
-/
import Pakstak.Whiteouts
import Pakstak.Extraction

namespace Pakstak

open Posix Prog FileTree

/-! ## The pass -/

/-- The pass over the directories pending. -/
inductive Pass (L : Place → List Bytes → Prop) : List Place → Node → Node → Prop
  | done (y : Node) : Pass L [] y y
  | dir {e : Place} {pending ps : List Place} {l : List Bytes} {y y₁ y' : Node} (hL : L e l)
      (hl : Listings y.find (· = e) fun _ => l)
      (hps : ∀ p, p ∈ ps ↔ ∃ n, Plain n ∧ p = e ++ [n] ∧ y.DirAt p) (hnodup : ps.Nodup)
      (h₁ : y₁.find = processDir e l y.find) (h : Pass L (ps ++ pending) y₁ y') :
      Pass L (e :: pending) y y'

/-- A directory at or below one of those pending. -/
def Visited (x : Node) (P : List Place) (e : Place) : Prop :=
  PlainPlace e ∧ x.DirAt e ∧ ∃ p ∈ P, p <+: e

/-- Neither place is at or below the other. -/
def Apart (p q : Place) : Prop := ¬ p <+: q ∧ ¬ q <+: p

section

variable {f g : Labels} {V : Place → Prop} {ord ord' : Place → List Bytes} {q : Place}

theorem erased_congr (h : ∀ e, V e → ord e = ord' e) : Erased V ord q ↔ Erased V ord' q := by
  refine exists_congr fun e => exists_congr fun n => and_congr_right fun _ => ?_
  exact and_congr_right fun he => by rw [h e he]

theorem whited_congr (h : ∀ e, V e → ord e = ord' e) : Whited f V ord q ↔ Whited f V ord' q := by
  refine exists_congr fun e => exists_congr fun t => and_congr_right fun _ => ?_
  exact and_congr_right fun he => by rw [h e he]

theorem marked_congr (h : ∀ e, V e → ord e = ord' e) :
    Marked f V ord q ↔ Marked f V ord' q := by
  refine or_congr (and_congr_right fun hq => by rw [h q hq]) (or_congr ?_ ?_)
  · refine exists_congr fun e => exists_congr fun t => and_congr_right fun _ => ?_
    exact and_congr_right fun he => by rw [h e he]
  · refine exists_congr fun e => and_congr_right fun _ => ?_
    exact and_congr_right fun he => by rw [h e he]

theorem Converted.congr (h : Converted f V ord g) (ho : ∀ e, V e → ord e = ord' e) :
    Converted f V ord' g := by
  have hm (q : Place) := whited_congr (f := f) (q := q) ho
  have hg (q : Place) := erased_congr (q := q) ho
  have hk (q : Place) := marked_congr (f := f) (q := q) ho
  exact ⟨fun q hq => h.made q ((hm q).mpr hq),
    fun q hq hn => h.gone q ((hg q).mpr hq) fun h' => hn ((hm q).mp h'),
    fun q hq hn hn' => h.marked q ((hk q).mpr hq) (fun h' => hn ((hg q).mp h'))
      fun h' => hn' ((hm q).mp h'),
    fun q hq hn hn' => h.same q (fun h' => hq ((hm q).mp h')) (fun h' => hn ((hg q).mp h'))
      fun h' => hn' ((hk q).mp h')⟩

theorem Listings.congr (h : Listings f V ord) (ho : ∀ e, V e → ord e = ord' e) :
    Listings f V ord' :=
  ⟨h.dir, h.above, fun e he => ho e he ▸ h.nodup e he, fun e he => ho e he ▸ h.mem e he,
    fun e he => ho e he ▸ h.leaf e he⟩

/-- The listings of the directories that come later are those of the tree at the start. -/
theorem Listings.before {V₁ : Place → Prop} (h : Listings g V ord) (h₁ : Converted f V₁ ord' g)
    (hl₁ : Listings f V₁ ord') (hd : ∀ e, V e → ¬ V₁ e) : Listings f V ord := by
  have beside {e : Place} (he : V e) := h₁.beside (hd e he)
  refine ⟨fun e he => (h₁.dirIn_iff hl₁ e).mp (h.dir e he),
    fun e he => (h₁.dirIn_iff hl₁ _).mp (h.above e he), h.nodup, fun e he n => ?_,
    fun e he n hn hm => ?_⟩
  · rw [h.mem e he, Ne, none_of_map (beside he n)]
  · obtain ⟨i, hi⟩ := h.leaf e he n hn hm
    rcases beside he n with hb | hb
    · exact ⟨i, hb ▸ hi⟩
    · rw [hb] at hi
      cases hf : f (e ++ [n]) with
      | none => rw [hf] at hi; cases hi
      | some j =>
        rw [hf] at hi
        cases j with
        | inl j => exact ⟨j, hf⟩
        | inr m => cases hi

end

theorem dirIn_find {x : Node} {q : Place} : DirIn x.find q ↔ x.DirAt q := dirAt_iff_find.symm

variable {L : Place → List Bytes → Prop} {P : List Place} {x y : Node}

/-- The directories visited from `e` on are `e` and those visited from its subdirectories. -/
theorem visited_cons {e : Place} {pending ps : List Place} {y₁ : Node} (he : PlainPlace e)
    (hd : y.DirAt e) (hap : ∀ p ∈ pending, Apart e p)
    (hps : ∀ p, p ∈ ps ↔ ∃ n, Plain n ∧ p = e ++ [n] ∧ y.DirAt p)
    (hdir : ∀ q, y₁.DirAt q ↔ y.DirAt q) (q : Place) :
    Visited y (e :: pending) q ↔ q = e ∨ Visited y₁ (ps ++ pending) q := by
  constructor
  · rintro ⟨hq, hqd, p, hp, hle⟩
    by_cases hqe : q = e
    · exact .inl hqe
    refine .inr ⟨hq, (hdir q).mpr hqd, ?_⟩
    rcases List.mem_cons.mp hp with rfl | hp
    · obtain ⟨r, rfl⟩ := hle
      cases r with
      | nil => exact absurd (List.append_nil _) hqe
      | cons n r =>
        refine ⟨p ++ [n], ?_, ⟨r, by simp⟩⟩
        rw [List.mem_append, hps]
        exact .inl ⟨n, hq n (by simp), rfl, dirAt_above hqd ⟨r, by simp⟩⟩
    · exact ⟨p, by simp [hp], hle⟩
  · rintro (rfl | ⟨hq, hqd, p, hp, hle⟩)
    · exact ⟨he, hd, q, by simp, List.prefix_rfl⟩
    · refine ⟨hq, (hdir q).mp hqd, ?_⟩
      rcases List.mem_append.mp hp with hp | hp
      · obtain ⟨n, -, rfl, -⟩ := (hps p).mp hp
        exact ⟨e, by simp, (List.prefix_append _ _).trans hle⟩
      · exact ⟨p, by simp [hp], hle⟩

theorem not_visited_later {e : Place} {pending ps : List Place} {y₁ : Node}
    (hap : ∀ p ∈ pending, Apart e p)
    (hps : ∀ p, p ∈ ps ↔ ∃ n, Plain n ∧ p = e ++ [n] ∧ y.DirAt p) :
    ¬ Visited y₁ (ps ++ pending) e := by
  rintro ⟨-, -, p, hp, hle⟩
  rcases List.mem_append.mp hp with hp | hp
  · obtain ⟨n, -, rfl, -⟩ := (hps p).mp hp
    exact entry_not_above e n hle
  · exact (hap p hp).2 hle

/-- Entries of the place in front are apart, and apart from what is pending. -/
theorem apart_later {e : Place} {pending ps : List Place} (hps : ∀ p ∈ ps, ∃ n, p = e ++ [n])
    (hnodup : ps.Nodup) (hap : (e :: pending).Pairwise Apart) : (ps ++ pending).Pairwise Apart := by
  obtain ⟨hape, hap⟩ := List.pairwise_cons.mp hap
  refine List.pairwise_append.mpr ⟨hnodup.imp_of_mem ?_, hap, fun p hp p' hp' => ?_⟩
  · intro p p' hp hp' hpp
    obtain ⟨n, rfl⟩ := hps p hp
    obtain ⟨n', rfl⟩ := hps p' hp'
    have hnn : n ≠ n' := fun h => hpp (by rw [h])
    exact ⟨snoc_off_snoc hnn, snoc_off_snoc hnn.symm⟩
  · obtain ⟨n, rfl⟩ := hps p hp
    obtain ⟨h₁, h₂⟩ := hape p' hp'
    refine ⟨fun h => h₁ ((List.prefix_append _ _).trans h), fun h => ?_⟩
    rcases List.prefix_concat_iff.mp h with h | h
    · exact h₁ (h ▸ List.prefix_append _ _)
    · exact h₂ h

/-- One turn of the loop: `e` is listed as `l`, its entries are handled, and `ps` come to be
    pending. -/
structure Handled (e : Place) (l : List Bytes) (ps : List Place) (y y₁ : Node) : Prop where
  listed : Listings y.find (· = e) fun _ => l
  later : ∀ p, p ∈ ps ↔ ∃ n, Plain n ∧ p = e ++ [n] ∧ y.DirAt p
  nodup : ps.Nodup
  effect : y₁.find = processDir e l y.find

section

variable {e : Place} {l : List Bytes} {pending ps : List Place} {y₁ : Node}
  (h : Handled e l ps y y₁)

include h

theorem Handled.converted : Converted y.find (· = e) (fun _ => l) y₁.find := by
  rw [h.effect]
  exact converted_processDir h.listed

theorem Handled.dirAt_iff (q : Place) : y₁.DirAt q ↔ y.DirAt q := by
  rw [← dirIn_find, h.converted.dirIn_iff h.listed, dirIn_find]

theorem Handled.apart (hap : (e :: pending).Pairwise Apart) : (ps ++ pending).Pairwise Apart :=
  apart_later (fun p hp => ((h.later p).mp hp).imp fun _ hn => hn.2.1) h.nodup hap

theorem Handled.pending_dirAt (hp : PlainPlace e)
    (hP : ∀ p ∈ pending, y.DirAt p ∧ PlainPlace p) :
    ∀ p ∈ ps ++ pending, y₁.DirAt p ∧ PlainPlace p := by
  intro p hp'
  rcases List.mem_append.mp hp' with hp' | hp'
  · obtain ⟨n, hn, rfl, hd⟩ := (h.later p).mp hp'
    exact ⟨(h.dirAt_iff _).mpr hd, hp.snoc hn⟩
  · exact ⟨(h.dirAt_iff _).mpr (hP p hp').1, (hP p hp').2⟩

theorem Handled.pass {y' : Node} (hL : L e l) (h' : Pass L (ps ++ pending) y₁ y') :
    Pass L (e :: pending) y y' := .dir hL h.listed h.later h.nodup h.effect h'

end

/-- What a pass leaves at every place. -/
theorem Pass.converted (h : Pass L P x y) (hap : P.Pairwise Apart)
    (hP : ∀ p ∈ P, x.DirAt p ∧ PlainPlace p) :
    ∃ ord, Listings x.find (Visited x P) ord ∧ (∀ e, Visited x P e → L e (ord e)) ∧
      Converted x.find (Visited x P) ord y.find := by
  induction h with
  | done y =>
    have none (e : Place) : ¬ Visited y [] e := fun ⟨_, _, _, hp, _⟩ => by cases hp
    refine ⟨fun _ => [], ⟨fun e he => absurd he (none e), fun e he => absurd he (none e),
      fun e he => absurd he (none e), fun e he => absurd he (none e),
      fun e he => absurd he (none e)⟩, fun e he => absurd he (none e),
      ⟨fun q ⟨e, _, _, he, _⟩ => absurd he (none e), fun q ⟨e, _, _, he, _⟩ => absurd he (none e),
        fun q hq => ?_, fun _ _ _ _ => rfl⟩⟩
    rcases hq with ⟨he, -⟩ | ⟨e, _, _, he, -⟩ | ⟨e, _, he, -⟩ <;> exact absurd he (none _)
  | @dir e pending ps l y y₁ y' hL hl hps hnodup h₁ h ih =>
    have hh : Handled e l ps y y₁ := ⟨hl, hps, hnodup, h₁⟩
    have hape := (List.pairwise_cons.mp hap).1
    obtain ⟨hd, hplain⟩ := hP e (by simp)
    have hc := hh.converted
    have hvis := visited_cons hplain hd hape hps hh.dirAt_iff
    have hnot : ¬ Visited y₁ (ps ++ pending) e := not_visited_later hape hps
    obtain ⟨ord₁, hl₁, hL₁, hc₁⟩ := ih (hh.apart hap)
      (hh.pending_dirAt hplain fun p hp => hP p (by simp [hp]))
    -- the listing of `e`, and those of the rest
    obtain ⟨ord, horde, hord⟩ : ∃ ord : Place → List Bytes, (∀ q, q = e → l = ord q) ∧
        ∀ q, Visited y₁ (ps ++ pending) q → ord₁ q = ord q :=
      ⟨fun q => if q = e then l else ord₁ q, fun q hq => (if_pos hq).symm,
        fun q hq => (if_neg fun hqe : q = e => hnot (hqe ▸ hq)).symm⟩
    have hl' := hl.congr horde
    have hc' := hc.congr horde
    have hdisj : ∀ q, Visited y₁ (ps ++ pending) q → ¬ q = e := fun q hq h => hnot (h ▸ hq)
    have hl₂ := (hl₁.congr hord).before hc' hl' hdisj
    have hV : Visited y (e :: pending) = fun q => q = e ∨ Visited y₁ (ps ++ pending) q :=
      funext fun q => propext (hvis q)
    refine ⟨ord, ?_, fun q hq => ?_, ?_⟩
    · rw [hV]
      refine ⟨fun q hq => hq.elim (hl'.dir q) (hl₂.dir q),
        fun q hq => hq.elim (hl'.above q) (hl₂.above q),
        fun q hq => hq.elim (hl'.nodup q) (hl₂.nodup q),
        fun q hq => hq.elim (hl'.mem q) (hl₂.mem q),
        fun q hq => hq.elim (hl'.leaf q) (hl₂.leaf q)⟩
    · rcases (hvis q).mp hq with rfl | hq
      · rw [← horde q rfl]
        exact hL
      · rw [← hord q hq]
        exact hL₁ q hq
    · rw [hV]
      exact hc'.comp (hc₁.congr hord) hl' hl₂ hdisj

/-! ## Steps of the program -/

/-- A file, a symlink or nothing is put where no directory is. -/
theorem find_put_flat {e : Place} {n : Bytes} {o : Option Node} (hd : x.DirAt e)
    (hx : ¬ x.DirAt (e ++ [n])) (ho : ∀ t, o = some t → t.isDir = false) :
    (x.put (e ++ [n]) o).find = Function.update x.find (e ++ [n]) (o.map label) := by
  funext q
  by_cases hq : q = e ++ [n]
  · subst hq
    rw [Function.update_self, find]
    cases o with
    | none => rw [get_put_none]
    | some t => rw [get_put_append hd, get_nil]
  rw [Function.update_of_ne hq]
  by_cases hle : e ++ [n] <+: q
  · -- nothing is below
    obtain ⟨r, rfl⟩ := hle
    obtain ⟨a, r, rfl⟩ : ∃ a r', r = a :: r' :=
      List.exists_cons_of_ne_nil fun h => hq (by rw [h, List.append_nil])
    have none {y : Node} (hy : ¬ y.DirAt (e ++ [n])) : y.find (e ++ [n] ++ a :: r) = none := by
      rw [find_eq_none_iff]
      cases hg : y.get (e ++ [n] ++ a :: r) with
      | none => rfl
      | some t => exact absurd (dirAt_of_get_append hg (by simp)) hy
    rw [none hx, none]
    rintro ⟨m, kids, hg⟩
    cases o with
    | none => rw [get_put_none] at hg; cases hg
    | some t =>
      rw [get_put_append hd, get_nil, Option.some.injEq] at hg
      have := ho t rfl
      rw [hg] at this
      cases this
  · exact find_put_off hle o

theorem find_changeMeta {c : Place} {p : PathBuf} {F : Meta → Meta} (hw : walk x p = .ok c)
    (h : changeMeta F x p = .ok y) :
    ∃ t, x.get c = some t ∧ y.find = Function.update x.find c (some (mapMeta F t).label) := by
  rw [changeMeta, hw] at h
  cases hg : x.get c with
  | none => simp [hg] at h
  | some t =>
    simp only [hg] at h
    split at h <;> cases h
    refine ⟨t, rfl, funext fun q => ?_⟩
    by_cases hq : q = c
    · subst hq
      rw [Function.update_self, find]
      rcases List.eq_nil_or_concat q with rfl | ⟨d, n, rfl⟩
      · simp
      · rw [List.concat_eq_append] at hg ⊢
        rw [get_put_append (dirAt_of_get_append hg (by simp)), get_nil]
        rfl
    rw [Function.update_of_ne hq]
    by_cases hle : c <+: q
    · obtain ⟨r, rfl⟩ := hle
      have hr : r ≠ [] := fun h => hq (by rw [h, List.append_nil])
      rw [find, find, get_append_of_some hg]
      rcases List.eq_nil_or_concat c with rfl | ⟨d, n, rfl⟩
      · rw [List.nil_append, put_nil, Option.getD_some, get_mapMeta hr]
      · rw [List.concat_eq_append] at hg ⊢
        rw [List.append_assoc, List.singleton_append,
          get_put_append (dirAt_of_get_append hg (by simp)), get_mapMeta hr]
    · exact find_put_off hle _

variable {env : Env} {R : (o : Op) → World → Reply o → Prop} {e : Place} {n t : Bytes}
  {w : World}

/-- A directory is made opaque. -/
theorem ensures_makeOpaque {p : PathBuf} {c : Place} (hw : walk w.root p = .ok c)
    (hd : w.root.DirAt c) : Ensures ((machine env).only R) (fun _ => True)
      (fun _ w' => w'.root.find = makeOpaque c w.root.find)
      (setOverlayXattr p "user.overlay.opaque" (utf8 "y")) w := by
  refine ensures_only (ensures_last (ensures_setxattr trivial (fun y hy => ⟨trivial, fun _ _ => ?_⟩)
    fun e _ ha => by cases ha))
  obtain ⟨t, ht, hy⟩ := find_changeMeta hw hy
  obtain ⟨m, kids, hm⟩ := hd
  rw [hm, Option.some.injEq] at ht
  subst ht
  rw [withRoot_root, hy, makeOpaque, find, hm]
  rfl

/-- A marker is removed: it was a file or a symlink. -/
theorem ensures_removeMarker (hp : PlainPlace (e ++ [n])) (hd : w.root.DirAt e) :
    Ensures ((machine env).only R) (fun _ => True)
      (fun _ w' => LeafIn w.root.find (e ++ [n]) ∧
        w'.root.find = Function.update w.root.find (e ++ [n]) none)
      (removeOciWhiteoutMarker (pathOf (e ++ [n]))) w := by
  have hpe : PlainPlace e := hp.up (List.prefix_append _ _)
  have hn : Plain n := hp n (by simp)
  refine ensures_only (ensures_step (P := fun i w' => w' = w ∧ w.root.find (e ++ [n]) = some i)
    (ensures_symlinkMetadata trivial ?_ fun code _ ha => by cases ha) ?_)
  · rw [lstat_child (clear_of_dirAt hd) hpe hn]
    intro i hi
    cases hf : w.root.find (e ++ [n]) with
    | none => rw [hf] at hi; cases hi
    | some j => rw [hf] at hi; cases hi; exact ⟨rfl, rfl⟩
  rintro i w' - ⟨rfl, hi⟩
  -- its mode may change first
  refine ensures_bind (P := fun _ w₁ => w₁.root.DirAt e ∧ ∃ j, Posix.isDir j = Posix.isDir i ∧
    w₁.root.find = Function.update w'.root.find (e ++ [n]) (some j)) ?_ ?_
  · rw [makePathWritable]
    have same : Function.update w'.root.find (e ++ [n]) (some i) = w'.root.find := by
      rw [← hi, Function.update_eq_self]
    split
    · exact ensures_ok trivial ⟨hd, i, rfl, same.symm⟩
    rename_i hlink
    extract_lets mode writableMode
    split
    · refine ensures_last (ensures_setPermissions trivial (fun y hy => ⟨trivial, fun _ _ => ?_⟩)
        fun e a ha => by cases ha)
      have hl : NotLink w'.root (e ++ [n]) := fun t ht => by
        rw [hi, Option.some.injEq] at ht
        exact hlink (by rw [ht]; rfl)
      obtain ⟨t, ht, hy⟩ := find_changeMeta (walk_child hd hpe hn hl false) hy
      refine ⟨?_, _, ?_, hy⟩
      · obtain ⟨m, hm⟩ := dirAt_iff_find.mp hd
        refine dirAt_iff_find.mpr ⟨m, ?_⟩
        rw [withRoot_root, hy, Function.update_of_ne (snoc_ne_self e n).symm, hm]
      · rw [find, ht, Option.map_some, Option.some.injEq] at hi
        rw [← hi]
        cases t with
        | leaf f => cases f <;> rfl
        | dir m kids => rfl
    · exact ensures_ok trivial ⟨hd, i, rfl, same.symm⟩
  rintro - w₁ - ⟨hd₁, j, hj, hw₁⟩
  refine ensures_last (ensures_removeFile trivial (fun y hy => ⟨trivial, fun _ _ => ?_⟩)
    fun e _ _ ha => by cases ha)
  have hfj : w₁.root.find (e ++ [n]) = some j := by rw [hw₁, Function.update_self]
  rw [unlink_child hd₁ hpe hn, hfj] at hy
  cases j with
  | inr m => cases hy
  | inl j =>
    cases hy
    refine ⟨?_, ?_⟩
    · cases i with
      | inl i => exact ⟨i, hi⟩
      | inr m => cases hj
    · rw [withRoot_root, find_put_flat hd₁ (fun hdir => ?_) (by simp), hw₁, Function.update_idem]
      · rfl
      · obtain ⟨m, hm⟩ := dirAt_iff_find.mp hdir
        rw [hfj] at hm
        cases hm

/-- The target of a marker is made opaque, or left alone, or hidden. -/
theorem ensures_settle (he : w.root.DirAt e) (hp : PlainPlace e) (ht : t ≠ [])
    (hs : slashByte ∉ t) (marker : PathBuf) {Q : Unit → World → Prop}
    (hrest : ∀ w₁, w₁.root.find = settle e t w.root.find →
      Ensures ((machine env).only R) (fun _ => True) Q (removeOciWhiteoutMarker marker) w₁) :
    Ensures ((machine env).only R) (fun _ => True) Q
      (convertOciWhiteoutMarker marker (pathOf (e ++ [t]))) w := by
  rw [convertOciWhiteoutMarker]
  refine ensures_bind
    (P := fun r w' => w' = w ∧ (r = lstat w.root (pathOf (e ++ [t])) ∨ ∃ k, r = .error (.other k)))
    (ensures_only (ensures_symlinkMetadata trivial ⟨rfl, .inl rfl⟩
      fun code => ⟨rfl, .inr ⟨code, rfl⟩⟩)) ?_
  rintro r w' - ⟨rfl, hr⟩
  -- `.` and `..` are directories
  have dots {c : Place} (hd : t = dot ∨ t = dotdot) (hw : walk w'.root (pathOf (e ++ [t])) = .ok c)
      (hc : w'.root.DirAt c) (hset : settle e t w'.root.find = makeOpaque c w'.root.find) {m : Meta}
      (hm : lstat w'.root (pathOf (e ++ [t])) = .ok (.inr m)) : Ensures ((machine env).only R)
        (fun _ => True) Q
        (do
          setOverlayXattr (pathOf (e ++ [t])) "user.overlay.opaque" (utf8 "y")
          removeOciWhiteoutMarker marker) w' :=
    ensures_bind (ensures_makeOpaque hw hc) fun _ w₁ _ h => hrest w₁ (by rw [h, hset])
  dsimp only
  split
  · rename_i i
    have hl : lstat w'.root (pathOf (e ++ [t])) = .ok i := by
      rcases hr with hr | ⟨code, hr⟩
      · exact hr.symm
      · cases hr
    by_cases hd : t = dot
    · subst hd
      obtain ⟨m, hm⟩ := lstat_dots he hp (.inl rfl)
      rw [hm] at hl
      cases hl
      exact dots (.inl rfl) (walk_dot he hp) he (settle_dot e _) hm
    by_cases hdd : t = dotdot
    · subst hdd
      obtain ⟨m, hm⟩ := lstat_dots he hp (.inr rfl)
      rw [hm] at hl
      cases hl
      exact dots (.inr rfl) (walk_dotdot he hp) (dirAt_above he (List.dropLast_prefix e))
        (settle_dotdot e _) hm
    have hpt : Plain t := ⟨ht, hs, hd, hdd⟩
    have hf : w'.root.find (e ++ [t]) = some i := by
      rw [lstat_child (clear_of_dirAt he) hp hpt] at hl
      cases hf : w'.root.find (e ++ [t]) with
      | none => rw [hf] at hl; cases hl
      | some j => rw [hf] at hl; cases hl; rfl
    split
    · rename_i hi
      obtain ⟨m, rfl⟩ := isDir_eq_true.mp hi
      have hdir : w'.root.DirAt (e ++ [t]) := dirAt_iff_find.mpr ⟨m, hf⟩
      refine ensures_bind (ensures_makeOpaque (walk_dirAt hdir (hp.snoc hpt) false) hdir)
        fun _ w₁ _ h => hrest w₁ ?_
      rw [h, settle_plain hpt, makeOpaque, hf]
      rfl
    · rename_i hi
      refine hrest w' ?_
      rw [settle_plain hpt, hf, settled, opaqueInode_of_not_isDir (by simpa using hi), ← hf,
        Function.update_eq_self]
  · have hl : lstat w'.root (pathOf (e ++ [t])) = .error .noent := by
      rcases hr with hr | ⟨code, hr⟩
      · exact hr.symm
      · cases hr
    have hpt : Plain t := by
      have notDots (hd : t = dot ∨ t = dotdot) : False := by
        obtain ⟨m, hm⟩ := lstat_dots he hp hd
        rw [hm] at hl
        cases hl
      exact ⟨ht, hs, fun h => notDots (.inl h), fun h => notDots (.inr h)⟩
    have hf : w'.root.find (e ++ [t]) = none := by
      rw [lstat_child (clear_of_dirAt he) hp hpt] at hl
      cases hf : w'.root.find (e ++ [t]) with
      | none => rfl
      | some i => rw [hf] at hl; cases hl
    have hnot : ¬ w'.root.DirAt (e ++ [t]) := fun hd => by
      obtain ⟨m, hm⟩ := dirAt_iff_find.mp hd
      rw [hf] at hm
      cases hm
    -- an empty file is made, and its attribute set
    refine ensures_step (P := fun _ w₁ => w₁.root.DirAt e ∧
        w₁.root.find = Function.update w'.root.find (e ++ [t]) (some (.inl (.file newFile []))))
      (ensures_only (ensures_createNew trivial (fun y hy => ⟨trivial, fun _ _ => ?_⟩)
        fun e _ ha => by cases ha)) ?_
    · rw [createNew_child he hp hpt, hf] at hy
      cases hy
      exact ⟨(dirAt_put_off (entry_not_above e t) _).mpr he, find_put_flat he hnot (by
        rintro _ ⟨⟩
        rfl)⟩
    rintro - w₁ - ⟨he₁, hw₁⟩
    refine ensures_bind (P := fun _ w₂ => w₂.root.find = settle e t w'.root.find)
      (ensures_only (ensures_last (ensures_setxattr trivial
        (fun y hy => ⟨trivial, fun _ _ => ?_⟩) fun e _ ha => by cases ha)))
      fun _ w₂ _ h => hrest w₂ h
    have hf₁ : w₁.root.find (e ++ [t]) = some (.inl (.file newFile [])) := by
      rw [hw₁, Function.update_self]
    obtain ⟨u, hu, hy⟩ := find_changeMeta
      (walk_child he₁ hp hpt (fun s hs => by rw [hf₁] at hs; cases hs) false) hy
    rw [withRoot_root, hy, hw₁, Function.update_idem, settle_plain hpt, hf]
    rw [find, hu, Option.map_some, Option.some.injEq] at hf₁
    cases u with
    | leaf f => cases hf₁; rfl
    | dir m kids => cases hf₁
  · exact ensures_bind (ensures_fail (P := fun _ _ => False) trivial) fun _ _ _ h => h.elim

/-- The entry is a directory to visit. -/
def subdir (f : Labels) (e : Place) (n : Bytes) : Bool :=
  !decide (IsMarker n) && (f (e ++ [n])).any Posix.isDir

theorem subdir_iff {f : Labels} : subdir f e n = true ↔ ¬ IsMarker n ∧ DirIn f (e ++ [n]) := by
  rw [subdir, Bool.and_eq_true, Bool.not_eq_true', decide_eq_false_iff_not, DirIn]
  refine and_congr_right fun _ => ?_
  cases f (e ++ [n]) with
  | none => simp
  | some i => cases i <;> simp [Posix.isDir]

/-- The directories among the names listed, the last one first. -/
def toVisit (f : Labels) (e : Place) (l : List Bytes) : List Place :=
  ((l.filter (subdir f e)).map fun n => e ++ [n]).reverse

theorem toVisit_append (f : Labels) (e : Place) (l l' : List Bytes) :
    toVisit f e (l ++ l') = toVisit f e l' ++ toVisit f e l := by
  simp [toVisit]

theorem toVisit_dir {f : Labels} (h : subdir f e n = true) : toVisit f e [n] = [e ++ [n]] := by
  simp [toVisit, h]

theorem toVisit_other {f : Labels} (h : ¬ subdir f e n = true) : toVisit f e [n] = [] := by
  simp [toVisit, h]

/-- One entry: its effect, and whether it is a directory to visit. -/
theorem ensures_convertEntry_effect {isOpaque : Bool} {pending : List PathBuf}
    (he : w.root.DirAt e) (hp : PlainPlace e) (hn : Plain n)
    (ho : n = opaqueMarker → isOpaque = true) :
    Ensures ((machine env).only R) (fun _ => True)
      (fun ps w' => w'.root.find = handleEntry e isOpaque w.root.find n ∧
        (IsMarker n → LeafIn w.root.find (e ++ [n])) ∧
        ps = (toVisit w.root.find e [n]).map pathOf ++ pending)
      (convertEntry (pathOf e) isOpaque pending n) w := by
  -- the marker is removed last
  have removed {f : Labels} (hm : IsMarker n) {w₁ : World} (hf : w₁.root.find = f)
      (hd : w₁.root.DirAt e) (hsame : f (e ++ [n]) = w.root.find (e ++ [n])) :
      Ensures ((machine env).only R) (fun _ => True)
        (fun _ w' => w'.root.find = Function.update f (e ++ [n]) none ∧
          LeafIn w.root.find (e ++ [n])) (removeOciWhiteoutMarker (pathOf (e ++ [n]))) w₁ := by
    refine ensures_mono (ensures_removeMarker (hp.snoc hn) hd) (fun _ h => h) ?_
    rintro - w₂ - ⟨⟨i, hi⟩, hw₂⟩
    exact ⟨hf ▸ hw₂, i, by rw [← hsame, ← hf, hi]⟩
  rw [convertEntry]
  extract_lets next
  by_cases hno : n = opaqueMarker
  · have hm : IsMarker n := hno ▸ isMarker_opaqueMarker
    obtain ⟨t, rfl, ht⟩ := isMarker_iff.mp hm
    rw [if_pos hno, ho hno]
    refine ensures_bind (removed hm rfl he rfl) fun _ w' _ h => ensures_ok trivial
      ⟨?_, fun _ => h.2, by
        rw [toVisit_other fun h' => (subdir_iff.mp h').1 hm]; rfl⟩
    rw [h.1, handleEntry_true ht]
  rw [if_neg hno]
  split
  · rename_i t htarget
    obtain ⟨rfl, ht⟩ := ociWhiteoutTargetName_eq_some.mp htarget
    have hm := isMarker_markerOf ht
    split
    · rename_i hop
      refine ensures_bind (removed hm rfl he rfl) fun _ w' _ h => ensures_ok trivial
        ⟨?_, fun _ => h.2, by
        rw [toVisit_other fun h' => (subdir_iff.mp h').1 hm]; rfl⟩
      rw [h.1, hop, handleEntry_true ht]
    · rename_i hop
      have hs : slashByte ∉ t := fun hs => hn.no_slash (List.mem_append_right _ hs)
      rw [join_noSlash ht hs]
      have hkeep : settle e t w.root.find (e ++ [markerOf t]) =
          w.root.find (e ++ [markerOf t]) := by
        by_cases hd : t = dot
        · rw [hd, settle_dot, makeOpaque_of_ne (snoc_ne_self e _)]
        by_cases hdd : t = dotdot
        · rw [hdd, settle_dotdot, makeOpaque_of_ne (snoc_ne_dropLast e _)]
        rw [settle_plain ⟨ht, hs, hd, hdd⟩, Function.update_of_ne
          (by simpa using markerOf_ne t)]
      have hdir : DirIn (settle e t w.root.find) e := by
        rw [@dirIn_of_map _ _ w.root.find, dirIn_find]
        · exact he
        by_cases hd : t = dot
        · rw [hd, settle_dot, makeOpaque_self]
          exact .inr rfl
        by_cases hdd : t = dotdot
        · rw [hdd, settle_dotdot, makeOpaque]
          by_cases hee : e = e.dropLast
          · rw [← hee, Function.update_self]
            exact .inr rfl
          · exact .inl (Function.update_of_ne hee _ _)
        rw [settle_plain ⟨ht, hs, hd, hdd⟩, Function.update_of_ne (snoc_ne_self e t).symm]
        exact .inl rfl
      refine ensures_bind (ensures_settle he hp ht hs _ fun w₁ h₁ => removed hm h₁
        (dirIn_find.mp (h₁ ▸ hdir)) hkeep) fun _ w' _ h => ensures_ok trivial
          ⟨?_, fun _ => h.2, by
        rw [toVisit_other fun h' => (subdir_iff.mp h').1 hm]; rfl⟩
      rw [h.1, Bool.eq_false_iff.mpr hop, handleEntry_false ht]
  · rename_i htarget
    have hm : ¬ IsMarker n := by
      rw [IsMarker, htarget]
      simp
    refine ensures_step (P := fun i w' => w' = w ∧ w.root.find (e ++ [n]) = some i)
      (ensures_only (ensures_symlinkMetadata trivial ?_ fun code _ ha => by cases ha)) ?_
    · rw [show entryPath (pathOf e) n = pathOf (e ++ [n]) from rfl,
        lstat_child (clear_of_dirAt he) hp hn]
      intro i hi
      cases hf : w.root.find (e ++ [n]) with
      | none => rw [hf] at hi; cases hi
      | some j => rw [hf] at hi; cases hi; exact ⟨rfl, rfl⟩
    rintro i w' - ⟨rfl, hi⟩
    have hdir : w'.root.DirAt (e ++ [n]) ↔ Posix.isDir i = true := by
      rw [dirAt_iff_find, hi]
      cases i <;> simp [Posix.isDir]
    rw [handleEntry_ordinary hm]
    split
    · rename_i hd
      exact ensures_ok trivial ⟨rfl, fun h => absurd h hm,  by
        rw [toVisit_dir (subdir_iff.mpr ⟨hm, dirIn_find.mpr (hdir.mpr hd)⟩)]; rfl⟩
    · rename_i hd
      exact ensures_ok trivial ⟨rfl, fun h => absurd h hm, by
        rw [toVisit_other fun h => hd (hdir.mp (dirIn_find.mp (subdir_iff.mp h).2))]; rfl⟩

theorem toVisit_congr {f g : Labels} (h : subdir g e n = subdir f e n) :
    toVisit g e [n] = toVisit f e [n] := by
  rw [toVisit, toVisit, List.filter_singleton, List.filter_singleton, h]

/-- The entries of a directory, in the order listed. -/
theorem ensures_convertEntries {isOpaque : Bool} {l : List Bytes} {pending : List PathBuf}
    (he : w.root.DirAt e) (hp : PlainPlace e) (hnodup : l.Nodup) (hplain : ∀ n ∈ l, Plain n)
    (hex : ∀ n ∈ l, w.root.find (e ++ [n]) ≠ none) (ho : opaqueMarker ∈ l → isOpaque = true) :
    Ensures ((machine env).only R) (fun _ => True)
      (fun ps w' => w'.root.find = l.foldl (handleEntry e isOpaque) w.root.find ∧
        (∀ n ∈ l, IsMarker n → LeafIn w.root.find (e ++ [n])) ∧
        ps = (toVisit w.root.find e l).map pathOf ++ pending)
      (fold (convertEntry (pathOf e) isOpaque) pending l) w := by
  -- `l₁` are the entries handled
  refine ensures_mono (ensures_fold (K := fun ps names w₃ => ∃ l₁, l = l₁ ++ names ∧
      w₃.root.find = l₁.foldl (handleEntry e isOpaque) w.root.find ∧
      (∀ n ∈ l₁, IsMarker n → LeafIn w.root.find (e ++ [n])) ∧
      ps = (toVisit w.root.find e l₁).map pathOf ++ pending) (fun _ _ _ _ => trivial) ?_ l pending w
      ⟨[], rfl, rfl, by simp, rfl⟩) (fun _ h => h) ?_
  · rintro ps n names w₃ ⟨l₁, rfl, hw₃, hleaf, rfl⟩
    obtain ⟨hnodup₁, -, hdisj⟩ := List.nodup_append.mp hnodup
    have hplain₁ : ∀ m ∈ l₁, Plain m := fun m hm => hplain m (by simp [hm])
    have hn : Plain n := hplain n (by simp)
    have hn₁ : n ∉ l₁ := fun h => hdisj n h n (by simp) rfl
    have hself := foldl_handleEntry_self (e := e) (f := w.root.find) hplain₁ isOpaque
    have hlater := foldl_handleEntry_later (e := e) hnodup₁ hplain₁ hn hn₁ (hex n (by simp))
      isOpaque
    rw [← hw₃] at hself hlater
    have he₃ : w₃.root.DirAt e := dirIn_find.mp ((dirIn_of_map hself).mpr (dirIn_find.mpr he))
    have hdir := dirIn_of_map hlater
    have hsub : subdir w₃.root.find e n = subdir w.root.find e n :=
      Bool.eq_iff_iff.mpr (by rw [subdir_iff, subdir_iff, hdir])
    refine ensures_mono (ensures_convertEntry_effect he₃ hp hn fun h => ho (by simp [h]))
      (fun _ h => h) ?_
    rintro ps w₄ - ⟨hw₄, hl₄, rfl⟩
    refine ⟨l₁ ++ [n], by simp, ?_, fun m hm hmark => ?_, ?_⟩
    · rw [hw₄, hw₃, List.foldl_append]
      rfl
    · rcases List.mem_append.mp hm with hm | hm
      · exact hleaf m hm hmark
      · rw [List.mem_singleton] at hm
        subst hm
        obtain ⟨i, hi⟩ := hl₄ hmark
        rcases hlater with h | h
        · exact ⟨i, h ▸ hi⟩
        · rw [hi] at h
          cases hf : w.root.find (e ++ [m]) with
          | none => rw [hf] at h; cases h
          | some j =>
            rw [hf] at h
            cases j with
            | inl j => exact ⟨j, hf⟩
            | inr j => cases h
    · rw [toVisit_congr hsub, toVisit_append, List.map_append, List.append_assoc]
  · rintro ps w' - ⟨l₁, hl₁, hw', hleaf, hps⟩
    rw [List.append_nil] at hl₁
    subst hl₁
    exact ⟨hw', hleaf, hps⟩

/-! ## The whole pass -/

/-- An answer that lists the whole of a directory lists it in an order that `L` allows. -/
def InOrder (L : Place → List Bytes → Prop) : (o : Op) → World → Reply o → Prop
  | .readDir p, w, r => ∀ l c, r = .ok l → l.broken = none → walk w.root p = .ok c → L c l.names
  | _, _, _ => True

theorem nodup_toVisit {f : Labels} {l : List Bytes} (h : l.Nodup) : (toVisit f e l).Nodup := by
  refine List.nodup_reverse.mpr ((h.filter _).map fun a b hab => ?_)
  obtain ⟨-, h⟩ := List.append_inj' hab rfl
  simpa using h

theorem mem_toVisit {f : Labels} {l : List Bytes} {p : Place} :
    p ∈ toVisit f e l ↔ ∃ n ∈ l, (¬ IsMarker n ∧ DirIn f (e ++ [n])) ∧ p = e ++ [n] := by
  simp only [toVisit, List.mem_reverse, List.mem_map, List.mem_filter, subdir_iff]
  constructor
  · rintro ⟨n, ⟨hn, h⟩, rfl⟩
    exact ⟨n, hn, h, rfl⟩
  · rintro ⟨n, hn, h, rfl⟩
    exact ⟨n, ⟨hn, h⟩, rfl⟩

theorem find_ne_none_of_kid {e : Place} {n : Bytes} {x t : Node} (h : x.get e = some t) :
    x.find (e ++ [n]) ≠ none ↔ (t.kid n).isSome := by
  rw [find, get_append_of_some h, get_cons]
  cases hk : t.kid n with
  | none => simp
  | some t' => simp

/-- One turn of the loop handles one directory. -/
theorem ensures_convertStep {pending : List Place} (he : w.root.DirAt e) (hp : PlainPlace e) :
    Ensures ((machine env).only (InOrder L)) (fun _ => True)
      (fun r w' => ∃ ps l, r = .inl ((ps ++ pending).map pathOf) ∧ L e l ∧
        Handled e l ps w.root w'.root)
      (convertStep (pathOf e :: pending.map pathOf)) w := by
  obtain ⟨m, kids, hg⟩ := he
  have he : w.root.DirAt e := ⟨m, kids, hg⟩
  rw [convertStep]
  refine ensures_step (P := fun l w' => w' = w ∧ (l.broken = none →
      l.names.Perm (Posix.entries (.dir m kids)) ∧ L e l.names)) ?_ ?_
  · refine ensures_mono (ensures_call_only (P := fun r w' => w' = w ∧ ∀ l, r = .ok l →
      l.broken = none → l.names.Perm (Posix.entries (.dir m kids))) (ensures_readDir trivial
        (fun names l hnames hl => ⟨rfl, fun l' hl' hb => ?_⟩)
        (fun e _ => ⟨rfl, fun l hl => by cases hl⟩)
        fun code => ⟨rfl, fun l hl => by cases hl⟩)) (fun _ h => h) ?_
    · cases hl'
      rw [listDir_dirAt hg rfl hp] at hnames
      cases hnames
      rcases hl with ⟨-, hperm⟩ | ⟨code, hb', -⟩
      · exact hperm
      · rw [hb] at hb'
        cases hb'
    · rintro r w' - ⟨⟨rfl, hr⟩, hL⟩ l rfl
      exact ⟨rfl, fun hb => ⟨hr l rfl hb, hL l e rfl hb (walk_dirAt he hp false)⟩⟩
  rintro l w' - ⟨rfl, hl⟩
  split
  · exact ensures_fail trivial
  rename_i hb
  obtain ⟨hperm, hLe⟩ := hl hb
  have hnodup : l.names.Nodup := hperm.nodup_iff.mpr ((names_nodup _).filter _)
  have hmem (n : Bytes) : n ∈ l.names ↔ Plain n ∧ w'.root.find (e ++ [n]) ≠ none := by
    rw [hperm.mem_iff, mem_entries, find_ne_none_of_kid hg, and_comm]
  -- the entries are handled, in the directory made opaque or not
  have entries {w₂ : World} (hw₂ : w₂.root.find =
      if opaqueMarker ∈ l.names then makeOpaque e w'.root.find else w'.root.find) :
      Ensures ((machine env).only (InOrder L)) (fun _ => True)
        (fun r w'' => ∃ ps l, r = .inl ((ps ++ pending).map pathOf) ∧ L e l ∧
          Handled e l ps w'.root w''.root)
        ((fold (convertEntry (pathOf e) (opaqueMarker ∈ l.names)) (pending.map pathOf) l.names).bind
          fun ps => (ret (.ok (Sum.inl ps)) : M (List PathBuf ⊕ Unit))) w₂ := by
    have hchild (n : Bytes) : w₂.root.find (e ++ [n]) = w'.root.find (e ++ [n]) := by
      rw [hw₂]
      split
      · exact makeOpaque_of_ne (snoc_ne_self e n) _
      · rfl
    have hself : w₂.root.find e = w'.root.find e ∨
        w₂.root.find e = (w'.root.find e).map opaqueInode := by
      rw [hw₂]
      split
      · exact .inr (makeOpaque_self e _)
      · exact .inl rfl
    have he₂ : w₂.root.DirAt e := dirIn_find.mp ((dirIn_of_map hself).mpr (dirIn_find.mpr he))
    refine ensures_bind (ensures_convertEntries he₂ hp hnodup (fun n hn => ((hmem n).mp hn).1)
      (fun n hn => hchild n ▸ ((hmem n).mp hn).2) fun h => decide_eq_true h) ?_
    rintro ps w₃ - ⟨hw₃, hleaf, rfl⟩
    have hproc : w₃.root.find = processDir e l.names w'.root.find := by
      rw [hw₃, processDir, hw₂]
    have hlist : Listings w'.root.find (· = e) fun _ => l.names := by
      refine ⟨fun q hq => hq ▸ dirIn_find.mpr he, fun q hq => hq ▸ dirIn_find.mpr
        (dirAt_above he (List.dropLast_prefix e)), fun _ _ => hnodup, fun q hq => hq ▸ hmem,
        fun q hq n hn hm => ?_⟩
      obtain ⟨i, hi⟩ := hleaf n hn hm
      exact ⟨i, by rw [hq, ← hchild, hi]⟩
    have hps (p : Place) : p ∈ toVisit w₂.root.find e l.names ↔
        ∃ n, Plain n ∧ p = e ++ [n] ∧ w'.root.DirAt p := by
      rw [mem_toVisit]
      constructor
      · rintro ⟨n, hn, ⟨-, hd⟩, rfl⟩
        refine ⟨n, ((hmem n).mp hn).1, rfl, ?_⟩
        rw [DirIn, hchild] at hd
        exact dirIn_find.mp hd
      · rintro ⟨n, hn, rfl, hd⟩
        have hin : n ∈ l.names := by
          obtain ⟨m, hm⟩ := dirAt_iff_find.mp hd
          exact (hmem n).mpr ⟨hn, by rw [hm]; simp⟩
        refine ⟨n, hin, ⟨fun hmark => ?_, ?_⟩, rfl⟩
        · obtain ⟨i, hi⟩ := hleaf n hin hmark
          obtain ⟨m, hm⟩ := dirAt_iff_find.mp hd
          rw [hchild, hm] at hi
          cases hi
        · rw [DirIn, hchild]
          exact dirIn_find.mpr hd
    exact ensures_ok trivial ⟨_, _, by rw [List.map_append], hLe, hlist, hps,
      nodup_toVisit hnodup, hproc⟩
  dsimp only
  split
  · rename_i hin
    refine ensures_bind (ensures_makeOpaque (walk_dirAt he hp false) he) fun _ w₂ _ h =>
      entries (by rw [h, if_pos hin])
  · rename_i hin
    exact entries (by rw [if_neg hin])

/-- A conversion that returns `Ok` is a pass. -/
theorem ensures_convert_pass {c : Place} (hd : w.root.DirAt c) (hp : PlainPlace c) :
    Ensures ((machine env).only (InOrder L)) (fun _ => True)
      (fun _ w' => Pass L [c] w.root w'.root)
      (convertOciWhiteoutsToOverlayfs env (pathOf c)) w := by
  refine ensures_loop (K := fun pending w' => ∃ P : List Place, pending = P.map pathOf ∧
      (∀ p ∈ P, w'.root.DirAt p ∧ PlainPlace p) ∧
      ∀ y, Pass L P w'.root y → Pass L [c] w.root y) (fun _ _ _ => trivial) ?_ env.fuel
    [pathOf c] w ⟨[c], rfl, by simpa using ⟨hd, hp⟩, fun y hy => hy⟩
  rintro pending w₁ ⟨P, rfl, hP, hpass⟩
  cases P with
  | nil => exact ensures_ok trivial (hpass _ (.done _))
  | cons e P =>
    obtain ⟨he, hpe⟩ := hP e (by simp)
    refine ensures_mono (ensures_convertStep he hpe) (fun _ h => h) ?_
    rintro r w₂ - ⟨ps, l, rfl, hL, hh⟩
    exact ⟨ps ++ P, rfl, hh.pending_dirAt hpe fun p hp' => hP p (by simp [hp']), fun y hy =>
      hpass y (hh.pass hL hy)⟩

/-- A directory at or below `c`. -/
def DirUnder (x : Node) (c e : Place) : Prop := PlainPlace e ∧ x.DirAt e ∧ c <+: e

theorem visited_single {c : Place} : Visited x [c] = DirUnder x c := by
  funext e
  simp [Visited, DirUnder]

/-- What a conversion that returns `Ok` leaves at every place. -/
theorem ensures_convert {c : Place} (hd : w.root.DirAt c) (hp : PlainPlace c) :
    Ensures ((machine env).only (InOrder L)) (fun _ => True)
      (fun _ w' => ∃ ord, Listings w.root.find (DirUnder w.root c) ord ∧
        (∀ e, DirUnder w.root c e → L e (ord e)) ∧
        Converted w.root.find (DirUnder w.root c) ord w'.root.find)
      (convertOciWhiteoutsToOverlayfs env (pathOf c)) w := by
  refine ensures_mono (ensures_convert_pass hd hp) (fun _ h => h) fun _ w' _ h => ?_
  rw [← visited_single]
  exact h.converted (List.pairwise_singleton _ _) (by simpa using ⟨hd, hp⟩)

theorem only_inOrder_true : (machine env).only (InOrder fun _ _ => True) = machine env := by
  have h : (InOrder fun _ _ => True) = fun _ _ _ => True := by
    funext o w r
    cases o <;> simp [InOrder]
  rw [h, Machine.only_true]

/-- The same, whatever the order of the listings. -/
theorem ensures_convert_any {c : Place} (hd : w.root.DirAt c) (hp : PlainPlace c) :
    Ensures (machine env) (fun _ => True)
      (fun _ w' => ∃ ord, Listings w.root.find (DirUnder w.root c) ord ∧
        Converted w.root.find (DirUnder w.root c) ord w'.root.find)
      (convertOciWhiteoutsToOverlayfs env (pathOf c)) w := by
  rw [← only_inOrder_true]
  exact ensures_mono (ensures_convert hd hp) (fun _ h => h) fun _ _ _ ⟨ord, hl, _, hc⟩ =>
    ⟨ord, hl, hc⟩

end Pakstak
