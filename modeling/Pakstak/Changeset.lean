/-
  Layers as changesets, and what becomes of them in a stack of overlayfs.

  `applyLayers` applies the layers of an image in order, by the rules for changesets: a
  marker `.wh.t` removes `t` of the layers below, `.wh..wh..opq` all that the layers below
  have in its directory, and what the layer itself has stays. `change` is what one layer says
  about a path by these rules, `shown` what it says once converted: the same, but for the
  markers whose targets would be `.` or `..`.

  Proved, for the trees that conversions leave, in any order of the listings:
  * `answer_converted`: a converted layer answers as `shown` says.
  * `lookup_converted`: what a stack of them shows.
  * `overlay_refines_changesets`: without markers for `.` and `..`, the same as the layers
    applied in order.
-/
import Pakstak.Footprint
import Pakstak.Lib.Overlay

namespace Pakstak

open Posix Prog FileTree

/-! ## The rules -/

instance : DecidablePred IsWhiteout
  | .inl (.file m []) => decidable_of_iff ((m.xattrs.lookup (utf8 "user.overlay.whiteout")) ≠ none)
      ⟨fun h => ⟨m, rfl, h⟩, fun ⟨_, _, h⟩ => h⟩
  | .inl (.file _ (_ :: _)) => isFalse fun ⟨_, h, _⟩ => by cases h
  | .inl (.symlink _) => isFalse fun ⟨_, h, _⟩ => by cases h
  | .inr _ => isFalse fun ⟨_, h, _⟩ => by cases h

/-- Overlayfs, with the attributes of users. -/
def overlayfs : Overlay.Rules Inode where
  isDir := Posix.isDir
  isOpaque i := decide (OpaqueY i)
  isWhite i := decide (IsWhiteout i)
  not_dir_of_white i h := by
    obtain ⟨m, rfl, -⟩ := of_decide_eq_true h
    rfl

/-- The layer removes, or hides, what the layers below have at a path. -/
def hides (f : Labels) : Place → Bool
  | [] => false
  | t :: p => (f [markerOf t]).isSome || (f [opaqueMarker]).isSome ||
      (f [t]).any (fun i => !Posix.isDir i) || hides (fun q => f (t :: q)) p

/-- What a layer says about a path. -/
def change (f : Labels) (p : Place) : Option (Option Inode) :=
  match f p with
  | some i => some (some i)
  | none => if hides f p then some none else none

/-- No name on the path is a marker. -/
def Unmarked (p : Place) : Prop := ∀ n ∈ p, ¬ IsMarker n

instance (p : Place) : Decidable (Unmarked p) := inferInstanceAs (Decidable (∀ n ∈ p, _))

/-- One layer, applied to what is there. Markers are no entries. -/
def applyLayer (below f : Labels) : Labels := fun p =>
  if Unmarked p then (change f p).getD (below p) else none

/-- The layers of an image, the lowest in front. -/
def applyLayers (layers : List Labels) : Labels := layers.foldl applyLayer fun _ => none

/-- The topmost layer that says something decides. -/
theorem applyLayers_eq {p : Place} (hp : Unmarked p) (layers : List Labels) :
    applyLayers layers p = (layers.reverse.findSome? fun f => change f p).join := by
  induction layers using List.reverseRecOn with
  | nil => rfl
  | append_singleton layers f ih =>
    rw [applyLayers, List.foldl_append, List.foldl_cons, List.foldl_nil, applyLayer, if_pos hp,
      List.reverse_append, List.reverse_singleton, List.singleton_append, List.findSome?_cons]
    rw [applyLayers] at ih
    cases change f p with
    | some o => rfl
    | none => exact ih

theorem applyLayers_marked {p : Place} (hp : ¬ Unmarked p) (layers : List Labels) :
    applyLayers layers p = none := by
  induction layers using List.reverseRecOn with
  | nil => rfl
  | append_singleton layers f ih =>
    rw [applyLayers, List.foldl_append, List.foldl_cons, List.foldl_nil, applyLayer, if_neg hp]

theorem any_not_isDir_iff {i : Option Inode} :
    i.any (fun i => !Posix.isDir i) ↔ ∃ l, i = some (.inl l) := by
  cases i with
  | none => simp
  | some i => cases i <;> simp [Posix.isDir]

theorem hides_iff {f : Labels} {p : Place} : hides f p ↔ ∃ e t r, p = e ++ t :: r ∧
    (f (e ++ [markerOf t]) ≠ none ∨ f (e ++ [opaqueMarker]) ≠ none ∨ LeafIn f (e ++ [t])) := by
  induction p generalizing f with
  | nil => simp [hides]
  | cons t p ih =>
    rw [hides, Bool.or_eq_true, Bool.or_eq_true, Bool.or_eq_true, any_not_isDir_iff,
      @ih fun q => f (t :: q)]
    constructor
    · rintro (((h | h) | h) | ⟨e, t', r, rfl, h⟩)
      · exact ⟨[], t, p, rfl, .inl (Option.isSome_iff_ne_none.mp h)⟩
      · exact ⟨[], t, p, rfl, .inr (.inl (Option.isSome_iff_ne_none.mp h))⟩
      · exact ⟨[], t, p, rfl, .inr (.inr h)⟩
      · exact ⟨t :: e, t', r, rfl, h⟩
    · rintro ⟨e, t', r, he, h⟩
      cases e with
      | nil =>
        cases he
        rcases h with h | h | h
        · exact .inl (.inl (.inl (Option.isSome_iff_ne_none.mpr h)))
        · exact .inl (.inl (.inr (Option.isSome_iff_ne_none.mpr h)))
        · exact .inl (.inr h)
      | cons a e =>
        cases he
        exact .inr ⟨e, t', r, rfl, h⟩

/-! ## One layer, converted -/

/-- A marker for `.` or `..` has the directory made opaque. -/
def Strays (f : Labels) (q : Place) : Prop :=
  (f (q ++ [markerOf dot]) ≠ none ∧ f (q ++ [opaqueMarker]) = none) ∨
  ∃ a, Plain a ∧ f (q ++ [a] ++ [markerOf dotdot]) ≠ none ∧
    f (q ++ [a] ++ [opaqueMarker]) = none

/-- What the layers below have at the path is hidden by the layer, once converted. -/
def CutsOff (f : Labels) (p : Place) : Prop := hides f p ∨ ∃ q, q <+: p ∧ Strays f q

open Classical in
/-- What a layer, once converted, says about a path. -/
noncomputable def shown (f : Labels) (p : Place) : Option (Option Inode) :=
  match f p with
  | some i => some (some i)
  | none => if CutsOff f p then some none else none

/-- No entry is a whiteout or an opaque directory yet. -/
def Fresh (f : Labels) : Prop := ∀ q i, f q = some i → ¬ IsWhiteout i ∧ ¬ OpaqueY i

/-- There are no markers for `.` and `..`. -/
def NoDots (f : Labels) : Prop :=
  ∀ e, PlainPlace e → f (e ++ [markerOf dot]) = none ∧ f (e ++ [markerOf dotdot]) = none

theorem shown_eq_change {f : Labels} {p : Place} (h : NoDots f) (hp : PlainPlace p) :
    shown f p = change f p := by
  have hno : ¬ ∃ q, q <+: p ∧ Strays f q := by
    rintro ⟨q, hq, ⟨hm, -⟩ | ⟨a, ha, hm, -⟩⟩
    · exact hm (h q (hp.up hq)).1
    · exact hm (h _ ((hp.up hq).snoc ha)).2
  simp [shown, change, CutsOff, hno]

/-- A tree seen from the place `c`. -/
def under (c : Place) (x : Node) : Labels := fun q => x.find (c ++ q)

theorem under_of_get {c : Place} {x t : Node} (h : x.get c = some t) : under c x = t.find := by
  funext q
  rw [under, find, get_append_of_some h, find]

section

variable {x y : Node} {c e p q : Place} {ord : Place → List Bytes} {i : Inode} {n t : Bytes}

theorem under_concat (h : c ++ q = e ++ [n]) (hc : c <+: e) : ∃ r, q = r ++ [n] ∧ e = c ++ r := by
  obtain ⟨r, rfl⟩ := hc
  rw [List.append_assoc] at h
  exact ⟨r, List.append_cancel_left h, rfl⟩

/-- The directory of an entry is one that is converted. -/
theorem listed_under (hl : Listings x.find (DirUnder x c) ord) (hc : PlainPlace c)
    (hp : PlainPlace e) (hn : Plain n) (hf : under c x (e ++ [n]) ≠ none) :
    DirUnder x c (c ++ e) ∧ n ∈ ord (c ++ e) := by
  rw [under, ← List.append_assoc] at hf
  have hd : x.DirAt (c ++ e) := by
    obtain ⟨i, hi⟩ := Option.ne_none_iff_exists'.mp hf
    obtain ⟨t, ht, -⟩ := find_eq_some_iff.mp hi
    exact dirAt_of_get_append ht (by simp)
  have hv : DirUnder x c (c ++ e) := ⟨hc.append hp, hd, List.prefix_append _ _⟩
  exact ⟨hv, (hl.mem _ hv n).mpr ⟨hn, hf⟩⟩

theorem under_of_listed (hl : Listings x.find (DirUnder x c) ord) (he : DirUnder x c (c ++ e))
    (hn : n ∈ ord (c ++ e)) : under c x (e ++ [n]) ≠ none := by
  rw [under, ← List.append_assoc]
  exact ((hl.mem _ he n).mp hn).2

theorem opaqueMarker_notMem_iff (hl : Listings x.find (DirUnder x c) ord)
    (he : DirUnder x c (c ++ e)) :
    opaqueMarker ∉ ord (c ++ e) ↔ under c x (e ++ [opaqueMarker]) = none := by
  rw [under, ← List.append_assoc, hl.mem _ he, not_and, not_not]
  exact ⟨fun h => h plain_opaqueMarker, fun h _ => h⟩

variable (hc : PlainPlace c) (hl : Listings x.find (DirUnder x c) ord)

include hc hl

/-- The directories made opaque. -/
theorem marked_under_iff (hne : c ≠ []) (hq : PlainPlace q) (hd : DirIn (under c x) q) :
    Marked x.find (DirUnder x c) ord (c ++ q) ↔ under c x (q ++ [opaqueMarker]) ≠ none ∨
      (∃ e t, q = e ++ [t] ∧ under c x (e ++ [markerOf t]) ≠ none ∧
        under c x (e ++ [opaqueMarker]) = none) ∨ Strays (under c x) q := by
  have hv : DirUnder x c (c ++ q) := ⟨hc.append hq, dirIn_find.mp hd, List.prefix_append _ _⟩
  have hopq := opaqueMarker_notMem_iff hl hv
  constructor
  · rintro (⟨-, hm⟩ | ⟨e, t, he, hve, ho, -, hm, -⟩ | ⟨e, he, hve, ho, hm⟩)
    · by_cases ho : under c x (q ++ [opaqueMarker]) = none
      · refine .inr (.inr (.inl ⟨under_of_listed hl hv (hm.resolve_left (hopq.mpr ho)), ho⟩))
      · exact .inl ho
    · obtain ⟨r, rfl, rfl⟩ := under_concat he hve.2.2
      exact .inr (.inl ⟨r, t, rfl, under_of_listed hl hve hm,
        (opaqueMarker_notMem_iff hl hve).mp ho⟩)
    · obtain ⟨r, rfl⟩ := hve.2.2
      rcases List.eq_nil_or_concat r with rfl | ⟨r, a, rfl⟩
      · -- the directory above the tree is not in it
        have := congrArg List.length he
        rw [List.append_nil, List.length_append, List.length_dropLast] at this
        exact absurd (List.eq_nil_of_length_eq_zero (by omega)) hne
      · rw [List.concat_eq_append, ← List.append_assoc, List.dropLast_concat] at he
        obtain rfl := List.append_cancel_left he
        rw [List.concat_eq_append] at hve hm ho
        exact .inr (.inr (.inr ⟨a, hve.1 a (by simp), under_of_listed hl hve hm,
          (opaqueMarker_notMem_iff hl hve).mp ho⟩))
  · rintro (ho | ⟨e, t, rfl, hm, ho⟩ | ⟨hm, ho⟩ | ⟨a, ha, hm, ho⟩)
    · exact .inl ⟨hv, .inl (not_not.mp fun h => ho (hopq.mp h))⟩
    · have ht : Plain t := hq t (by simp)
      obtain ⟨hve, hin⟩ := listed_under hl hc (hq.up (List.prefix_append _ _))
        (plain_markerOf ht.no_slash) hm
      refine .inr (.inl ⟨c ++ e, t, by simp, hve, (opaqueMarker_notMem_iff hl hve).mpr ho, ht, hin,
        hd⟩)
    · obtain ⟨-, hin⟩ := listed_under hl hc hq (plain_markerOf (by decide)) hm
      exact .inl ⟨hv, .inr hin⟩
    · obtain ⟨hve, hin⟩ := listed_under hl hc (hq.snoc ha) (plain_markerOf (by decide)) hm
      refine .inr (.inr ⟨c ++ (q ++ [a]), ?_, hve, (opaqueMarker_notMem_iff hl hve).mpr ho, hin⟩)
      rw [← List.append_assoc, List.dropLast_concat]

variable (h : Converted x.find (DirUnder x c) ord y.find)

include h

omit hc hl in
/-- What is kept of an entry that is no marker. -/
theorem kept_under (hu : Unmarked q) (hi : under c x q = some i) :
    (Marked x.find (DirUnder x c) ord (c ++ q) → under c y q = some (opaqueInode i)) ∧
    (¬ Marked x.find (DirUnder x c) ord (c ++ q) → under c y q = some i) := by
  have hgone : ¬ Erased (DirUnder x c) ord (c ++ q) := by
    rintro ⟨e, n, he, hve, -, hm⟩
    obtain ⟨r, rfl, -⟩ := under_concat he hve.2.2
    exact hu n (by simp) hm
  have hmade : ¬ Whited x.find (DirUnder x c) ord (c ++ q) := by
    rintro ⟨e, t, he, hve, -, -, -, hnone | ⟨-, hm, -⟩⟩
    · rw [under, hnone] at hi
      cases hi
    · obtain ⟨r, rfl, -⟩ := under_concat he hve.2.2
      exact hu t (by simp) hm
  rw [under] at hi
  refine ⟨fun hm => ?_, fun hm => ?_⟩
  · rw [under, h.marked _ hm hgone hmade, hi]
    rfl
  · rw [under, h.same _ hmade hgone hm, hi]

omit hc in
/-- Where there was nothing, there is a whiteout, or nothing. -/
theorem missing_under (hu : under c x q = none) :
    (Whited x.find (DirUnder x c) ord (c ++ q) → under c y q = some whiteout) ∧
    (¬ Whited x.find (DirUnder x c) ord (c ++ q) → under c y q = none) := by
  refine ⟨fun hm => h.made _ hm, fun hmade => ?_⟩
  by_cases hgone : Erased (DirUnder x c) ord (c ++ q)
  · exact h.gone _ hgone hmade
  have hmark : ¬ Marked x.find (DirUnder x c) ord (c ++ q) := fun hm => by
    obtain ⟨m, hm⟩ := hm.dirIn hl
    rw [under, hm] at hu
    cases hu
  rw [under, h.same _ hmade hgone hmark]
  exact hu

omit h in
/-- A whiteout is made for a marker whose target is not there. -/
theorem whited_under_iff (hp : PlainPlace (e ++ [t])) (hu : under c x (e ++ [t]) = none) :
    Whited x.find (DirUnder x c) ord (c ++ (e ++ [t])) ↔
      under c x (e ++ [markerOf t]) ≠ none ∧ under c x (e ++ [opaqueMarker]) = none := by
  have ht : Plain t := hp t (by simp)
  constructor
  · rintro ⟨e', t', he, hve, ho, -, hm, -⟩
    obtain ⟨r, hr, rfl⟩ := under_concat he hve.2.2
    obtain ⟨rfl, ht'⟩ := List.append_inj' hr rfl
    cases ht'
    exact ⟨under_of_listed hl hve hm, (opaqueMarker_notMem_iff hl hve).mp ho⟩
  · rintro ⟨hm, ho⟩
    obtain ⟨hve, hin⟩ := listed_under hl hc (hp.up (List.prefix_append _ _))
      (plain_markerOf ht.no_slash) hm
    exact ⟨c ++ e, t, by simp, hve, (opaqueMarker_notMem_iff hl hve).mpr ho, ht, hin, .inl hu⟩

variable (hne : c ≠ []) (hd : x.DirAt c) (hx : Fresh (under c x))

include hne hd hx

/-- The converted layer cuts off a path that it neither has nor hides by a whiteout of its
    own. -/
theorem covers_under_iff (hp : PlainPlace p) (hu : Unmarked p) (hf : under c x p = none)
    (hw : ¬ Whited x.find (DirUnder x c) ord (c ++ p)) :
    Overlay.covers overlayfs (under c y) p ↔ CutsOff (under c x) p := by
  have up {q : Place} (hq : q <+: p) : PlainPlace q ∧ Unmarked q :=
    ⟨hp.up hq, fun n hn => hu n (hq.subset hn)⟩
  have opaque' {i : Inode} (hd : Posix.isDir i) : OpaqueY (opaqueInode i) := by
    rw [OpaqueY, xattr_opaqueInode, if_pos ⟨hd, rfl⟩]
  -- a directory made opaque, on the way
  have marked {q : Place} (hq : q <+: p) (hd : DirIn (under c x) q)
      (hm : Marked x.find (DirUnder x c) ord (c ++ q)) :
      Overlay.covers overlayfs (under c y) p := by
    obtain ⟨m, hm'⟩ := hd
    refine Overlay.covers_iff.mpr ⟨q, hq, _, (kept_under h (up hq).2 hm').1 hm, .inr ?_⟩
    exact decide_eq_true (opaque' (i := .inr m) rfl)
  -- a file on the way
  have leaf {q : Place} (hq : q <+: p) (hd : LeafIn (under c x) q) :
      Overlay.covers overlayfs (under c y) p := by
    obtain ⟨l, hl'⟩ := hd
    obtain ⟨hm, hs⟩ := kept_under h (up hq).2 hl'
    refine Overlay.covers_iff.mpr ⟨q, hq, .inl l, ?_, .inl rfl⟩
    by_cases hmark : Marked x.find (DirUnder x c) ord (c ++ q)
    · exact hm hmark
    · exact hs hmark
  have dirIn {q : Place} {n : Bytes} (hq : PlainPlace q) (hn : Plain n)
      (hf : under c x (q ++ [n]) ≠ none) : DirIn (under c x) q :=
    dirIn_find.mpr (listed_under hl hc hq hn hf).1.2.1
  constructor
  · intro hcov
    obtain ⟨q, hq, i, hi, hcut⟩ := Overlay.covers_iff.mp hcov
    obtain ⟨hpq, huq⟩ := up hq
    -- what is below `q` on the path
    have next {k : Inode} (hk : under c x q = some k) : ∃ t r, p = q ++ t :: r := by
      obtain ⟨r, rfl⟩ := hq
      cases r with
      | nil =>
        rw [List.append_nil, hk] at hf
        cases hf
      | cons t r => exact ⟨t, r, rfl⟩
    cases hk : under c x q with
    | none =>
      -- a whiteout on the way
      have hwq : Whited x.find (DirUnder x c) ord (c ++ q) := by
        by_contra hno
        rw [(missing_under hl h hk).2 hno] at hi
        cases hi
      obtain ⟨e, t, he, hve, -⟩ := id hwq
      obtain ⟨r, rfl, rfl⟩ := under_concat he hve.2.2
      obtain ⟨s, rfl⟩ := hq
      have hm := ((whited_under_iff hc hl hpq hk).mp hwq).1
      exact .inl (hides_iff.mpr ⟨r, t, s, by simp, .inl hm⟩)
    | some k =>
      obtain ⟨hm, hs⟩ := kept_under h huq hk
      cases k with
      | inl l =>
        rcases List.eq_nil_or_concat q with rfl | ⟨e, t, rfl⟩
        · obtain ⟨m, hm⟩ := dirAt_iff_find.mp hd
          rw [under, List.append_nil, hm] at hk
          cases hk
        · rw [List.concat_eq_append] at hk hq
          obtain ⟨s, rfl⟩ := hq
          exact .inl (hides_iff.mpr ⟨e, t, s, by simp, .inr (.inr ⟨l, hk⟩)⟩)
      | inr m =>
        have hmark : Marked x.find (DirUnder x c) ord (c ++ q) := by
          by_contra hno
          rw [hs hno] at hi
          cases hi
          rcases hcut with hcut | hcut
          · cases hcut
          · exact (hx q _ hk).2 (of_decide_eq_true hcut)
        obtain ⟨t, r, rfl⟩ := next hk
        rcases (marked_under_iff hc hl hne hpq ⟨m, hk⟩).mp hmark with ho | ⟨e, t', rfl, hm, -⟩ | hst
        · exact .inl (hides_iff.mpr ⟨q, t, r, rfl, .inr (.inl ho)⟩)
        · exact .inl (hides_iff.mpr ⟨e, t', t :: r, by simp, .inl hm⟩)
        · exact .inr ⟨q, hq, hst⟩
  · rintro (hh | ⟨q, hq, hst⟩)
    · obtain ⟨e, t, r, rfl, hcase⟩ := hides_iff.mp hh
      have hle : e <+: e ++ t :: r := List.prefix_append _ _
      have hlet : e ++ [t] <+: e ++ t :: r := ⟨r, by simp⟩
      have hpe : PlainPlace e := (up hle).1
      have ht : Plain t := hp t (by simp)
      have ofOpaque (ho : under c x (e ++ [opaqueMarker]) ≠ none) :
          Overlay.covers overlayfs (under c y) (e ++ t :: r) := by
        have hd := dirIn hpe plain_opaqueMarker ho
        exact marked hle hd ((marked_under_iff hc hl hne hpe hd).mpr (.inl ho))
      rcases hcase with hm | ho | hleaf
      · by_cases ho : under c x (e ++ [opaqueMarker]) = none
        swap
        · exact ofOpaque ho
        cases hk : under c x (e ++ [t]) with
        | none =>
          have hwt := (whited_under_iff hc hl (up hlet).1 hk).mpr ⟨hm, ho⟩
          exact Overlay.covers_iff.mpr ⟨e ++ [t], hlet, _, (missing_under hl h hk).1 hwt, .inl rfl⟩
        | some k =>
          cases k with
          | inl l => exact leaf hlet ⟨l, hk⟩
          | inr m => exact marked hlet ⟨m, hk⟩ ((marked_under_iff hc hl hne (up hlet).1
              ⟨m, hk⟩).mpr (.inr (.inl ⟨e, t, rfl, hm, ho⟩)))
      · exact ofOpaque ho
      · exact leaf hlet hleaf
    · have hd : DirIn (under c x) q := by
        rcases hst with ⟨hm, -⟩ | ⟨a, ha, hm, -⟩
        · exact dirIn (up hq).1 (plain_markerOf (by decide)) hm
        · refine dirIn_find.mpr (dirAt_above (dirIn_find.mp (dirIn ((up hq).1.snoc ha)
            (plain_markerOf (by decide)) hm)) ?_)
          exact ⟨[a], by simp⟩
      exact marked hq hd ((marked_under_iff hc hl hne (up hq).1 hd).mpr (.inr (.inr hst)))

/-- What a converted layer says about a path. -/
theorem answer_converted (hp : PlainPlace p) (hu : Unmarked p) :
    (Overlay.answer overlayfs (under c y) p).map (Option.map bare) =
      (shown (under c x) p).map (Option.map bare) := by
  have white : overlayfs.isWhite whiteout = true := decide_eq_true isWhiteout_whiteout
  rw [Overlay.answer, shown]
  cases hf : under c x p with
  | some i =>
    obtain ⟨hm, hs⟩ := kept_under h hu hf
    have hi' : ¬ IsWhiteout (opaqueInode i) := by
      cases i with
      | inl l => exact (hx p _ hf).1
      | inr m =>
        rintro ⟨_, h, _⟩
        cases h
    by_cases hmark : Marked x.find (DirUnder x c) ord (c ++ p)
    · simp [hm hmark, overlayfs, hi', bare_opaqueInode]
    · simp [hs hmark, overlayfs, (hx p i hf).1]
  | none =>
    by_cases hw : Whited x.find (DirUnder x c) ord (c ++ p)
    · have hcut : CutsOff (under c x) p := by
        obtain ⟨e, t, he, hve, -⟩ := id hw
        obtain ⟨r, rfl, rfl⟩ := under_concat he hve.2.2
        exact .inl (hides_iff.mpr ⟨r, t, [], rfl, .inl ((whited_under_iff hc hl hp hf).mp hw).1⟩)
      simp [(missing_under hl h hf).1 hw, white, hcut]
    · have hcov := covers_under_iff hc hl h hne hd hx hp hu hf hw
      rw [(missing_under hl h hf).2 hw]
      by_cases hcut : CutsOff (under c x) p
      · simp [hcov.mpr hcut, hcut]
      · simp [Bool.eq_false_iff.mpr fun h' => hcut (hcov.mp h'), hcut]

omit hne hd hx in
/-- A marker is gone, or has become a whiteout. -/
theorem marker_under (hp : PlainPlace (e ++ [n])) (hm : IsMarker n) :
    under c y (e ++ [n]) = none ∨ under c y (e ++ [n]) = some whiteout := by
  by_cases hw : Whited x.find (DirUnder x c) ord (c ++ (e ++ [n]))
  · exact .inr (h.made _ hw)
  cases hf : under c x (e ++ [n]) with
  | none => exact .inl ((missing_under hl h hf).2 hw)
  | some i =>
    obtain ⟨hve, hin⟩ := listed_under hl hc (hp.up (List.prefix_append _ _)) (hp n (by simp))
      (by rw [hf]; simp)
    exact .inl (h.gone _ ⟨c ++ e, n, by simp, hve, hin, hm⟩ hw)

omit hne hd hx in
/-- A path with a marker leads nowhere. -/
theorem answer_marked (hp : PlainPlace p) (hu : ¬ Unmarked p) :
    Overlay.answer overlayfs (under c y) p = none ∨
      Overlay.answer overlayfs (under c y) p = some none := by
  have white : overlayfs.isWhite whiteout = true := decide_eq_true isWhiteout_whiteout
  obtain ⟨n, hn, hm⟩ : ∃ n ∈ p, IsMarker n := by
    simpa [Unmarked] using hu
  obtain ⟨e, r, rfl⟩ := List.append_of_mem hn
  have hle : e ++ [n] <+: e ++ n :: r := ⟨r, by simp⟩
  have hg := marker_under hc hl h (hp.up hle) hm
  have hwhite : under c y (e ++ n :: r) = none ∨ under c y (e ++ n :: r) = some whiteout := by
    cases r with
    | nil => exact hg
    | cons a r =>
      -- it is no directory
      refine .inl (by_contra fun hne => ?_)
      obtain ⟨i, hi⟩ := Option.ne_none_iff_exists'.mp hne
      have hsplit : c ++ (e ++ n :: a :: r) = (c ++ (e ++ [n])) ++ a :: r := by simp
      rw [under, hsplit] at hi
      obtain ⟨t, ht, -⟩ := find_eq_some_iff.mp hi
      obtain ⟨m, hm⟩ := dirAt_iff_find.mp (dirAt_of_get_append ht (by simp))
      rcases hg with hg | hg
      · rw [under, hm] at hg
        cases hg
      · rw [under, hm] at hg
        cases hg
  rw [Overlay.answer]
  rcases hwhite with hwhite | hwhite
  · rw [hwhite]
    cases Overlay.covers overlayfs (under c y) (e ++ n :: r)
    · exact .inl rfl
    · exact .inr rfl
  · rw [hwhite]
    exact .inr (by simp [white])

end

/-! ## A stack of layers -/

theorem isTree_find (x : Node) : Overlay.IsTree overlayfs x.find := by
  intro p n h
  obtain ⟨i, hi⟩ := Option.ne_none_iff_exists'.mp h
  obtain ⟨t, ht, -⟩ := find_eq_some_iff.mp hi
  obtain ⟨m, hm⟩ := dirAt_iff_find.mp (dirAt_of_get_append ht (by simp))
  exact ⟨_, hm, rfl⟩

/-- What the tree that a conversion left says about a path. -/
theorem ConvertedTo.answer {env : Env} {x y : Node} {p : Place} (h : ConvertedTo env x y)
    (hx : Fresh x.find) (hp : PlainPlace p) :
    (Unmarked p → (Overlay.answer overlayfs y.find p).map (Option.map bare) =
      (shown x.find p).map (Option.map bare)) ∧
    (¬ Unmarked p → Overlay.answer overlayfs y.find p = none ∨
      Overlay.answer overlayfs y.find p = some none) := by
  obtain ⟨c, w, w', hc, hne, hdir, hget, hexec, hget'⟩ := h
  have hd : w.root.DirAt c := by
    cases x with
    | leaf l => cases hdir
    | dir m kids => exact ⟨m, kids, hget⟩
  obtain ⟨ord, hl, h⟩ := (ensures_exec (ensures_convert_any hd hc) hexec).2 () rfl
  rw [← under_of_get hget, ← under_of_get hget'] at *
  exact ⟨answer_converted hc hl h hne hd hx hp, answer_marked hc hl h hp⟩

/-- What a stack of converted layers shows, the lowest layer in front. -/
theorem lookup_converted {layers : List (Node × Node)} {p : Place}
    (h : ∀ l ∈ layers, (∃ env, ConvertedTo env l.1 l.2) ∧ Fresh l.1.find) (hp : PlainPlace p) :
    (Overlay.lookup overlayfs (layers.map fun l => l.2.find).reverse p).map bare =
      if Unmarked p then ((layers.reverse.findSome? fun l => shown l.1.find p).join).map bare
      else none := by
  have trees : ∀ g ∈ (layers.map fun l => l.2.find).reverse, Overlay.IsTree overlayfs g := by
    intro g hg
    obtain ⟨l, -, rfl⟩ := List.mem_map.mp (List.mem_reverse.mp hg)
    exact isTree_find l.2
  rw [Overlay.lookup_eq_findSome trees, ← List.map_reverse, List.findSome?_map,
    ← Option.join_map_eq_map_join, List.map_findSome?]
  have mem {l : Node × Node} (hl : l ∈ layers.reverse) := h l (List.mem_reverse.mp hl)
  by_cases hu : Unmarked p
  · rw [if_pos hu, ← Option.join_map_eq_map_join, List.map_findSome?]
    refine congrArg Option.join (Overlay.findSome_congr fun l hl => ?_)
    obtain ⟨⟨env, hc⟩, hx⟩ := mem hl
    exact (hc.answer hx hp).1 hu
  · rw [if_neg hu]
    cases hf : layers.reverse.findSome? (Option.map (Option.map bare) ∘
        ((fun f => Overlay.answer overlayfs f p) ∘ fun l => l.2.find)) with
    | none => rfl
    | some a =>
      obtain ⟨l, hl, ha⟩ := List.exists_of_findSome?_eq_some hf
      obtain ⟨⟨env, hc⟩, hx⟩ := mem hl
      rcases (hc.answer hx hp).2 hu with hno | hno
      · simp [hno] at ha
      · simp [hno] at ha
        rw [← ha]
        rfl

/-- A stack of converted layers shows what the layers are applied in order to. -/
theorem overlay_refines_changesets {layers : List (Node × Node)} {p : Place}
    (h : ∀ l ∈ layers, (∃ env, ConvertedTo env l.1 l.2) ∧ Fresh l.1.find ∧ NoDots l.1.find)
    (hp : PlainPlace p) :
    (Overlay.lookup overlayfs (layers.map fun l => l.2.find).reverse p).map bare =
      (applyLayers (layers.map fun l => l.1.find) p).map bare := by
  rw [lookup_converted (fun l hl => ⟨(h l hl).1, (h l hl).2.1⟩) hp]
  by_cases hu : Unmarked p
  · rw [if_pos hu, applyLayers_eq hu, ← List.map_reverse, List.findSome?_map]
    refine congrArg (Option.map bare ∘ Option.join) (Overlay.findSome_congr fun l hl => ?_)
    exact shown_eq_change (h l (List.mem_reverse.mp hl)).2.2 hp
  · rw [if_neg hu, applyLayers_marked hu]
    rfl

namespace OneFile

/-- A layer of one file. -/
def layer (n data : Bytes) : Node := .dir newDir [(n, .leaf (.file newFile data))]

theorem find_layer (n data : Bytes) (q : Place) : (layer n data).find q =
    if q = [] then some (.inr newDir)
    else if q = [n] then some (.inl (.file newFile data)) else none := by
  have hkid (m : Bytes) : (layer n data).kid m =
      if m = n then some (.leaf (.file newFile data)) else none :=
    kid_setKid (FileTree.dir newDir []) rfl n m (some (.leaf (Leaf.file newFile data)))
  cases q with
  | nil => rfl
  | cons m r =>
    rw [find, get_cons, hkid]
    by_cases hm : m = n
    · subst hm
      cases r with
      | nil => simp [label]
      | cons a r => simp [get_cons, kid]
    · simp [hm]

theorem fresh_layer (n data : Bytes) : Fresh (layer n data).find := by
  intro q i hi
  rw [find_layer] at hi
  have file : ¬ IsWhiteout (.inl (.file newFile data)) := fun ⟨_, _, h⟩ => h rfl
  split at hi
  · cases hi
    exact ⟨by decide +kernel, by decide +kernel⟩
  · split at hi <;> cases hi
    exact ⟨file, fun h => by cases h⟩

theorem noDots_layer {n : Bytes} (hd : markerOf dot ≠ n) (hdd : markerOf dotdot ≠ n)
    (data : Bytes) : NoDots (layer n data).find := by
  have hno {e : Place} {m : Bytes} (hm : m ≠ n) : (layer n data).find (e ++ [m]) = none := by
    rw [find_layer, if_neg (by simp), if_neg]
    intro h
    obtain ⟨-, h⟩ := List.append_inj' (show e ++ [m] = [] ++ [n] from h) rfl
    cases h
    exact hm rfl
  exact fun e _ => ⟨hno hd, hno hdd⟩

/-- The conversion of a tree at `/d`. -/
def run (env : Env) (x : Node) : Option (Except Err Unit) × World :=
  calm.replay env (convertOciWhiteoutsToOverlayfs env (pathOf OneMarker.place))
    ⟨.dir newDir [(utf8 "d", x)], [], [], []⟩

/-- What the conversion leaves. -/
def result (env : Env) (x : Node) : Node := ((run env x).2.root.get OneMarker.place).getD x

/-- A layer of one file, and what its conversion leaves. -/
def pair (n data : Bytes) : Node × Node :=
  (layer n data, result (smallEnv []) (layer n data))

theorem convertedTo_result {env : Env} {x : Node} (hx : x.isDir)
    (h : (run env x).1 = some (.ok ()))
    (hg : ((run env x).2.root.get OneMarker.place).isSome) :
    ConvertedTo env x (result env x) := by
  refine ⟨OneMarker.place, _, (run env x).2, OneMarker.plain_place, by decide +kernel, hx, ?_,
    exec_of_fst_eq (calm.exec_replay _ _ _) h, ?_⟩
  · rfl
  · obtain ⟨t, ht⟩ := Option.isSome_iff_exists.mp hg
    rw [result, ht]
    rfl

/-- What the layers of `x` and `.wh.x` compute. -/
structure Computed : Prop where
  fileRun : (run (smallEnv []) (layer (utf8 "x") (utf8 "1"))).1 = some (.ok ()) ∧
    ((run (smallEnv []) (layer (utf8 "x") (utf8 "1"))).2.root.get OneMarker.place).isSome = true
  removalRun : (run (smallEnv []) (layer (utf8 ".wh.x") [])).1 = some (.ok ()) ∧
    ((run (smallEnv []) (layer (utf8 ".wh.x") [])).2.root.get OneMarker.place).isSome = true
  file : markerOf dot ≠ utf8 "x" ∧ markerOf dotdot ≠ utf8 "x"
  removal : markerOf dot ≠ utf8 ".wh.x" ∧ markerOf dotdot ≠ utf8 ".wh.x"
  plain : PlainPlace [utf8 "x"]
  removed : applyLayers [(layer (utf8 "x") (utf8 "1")).find, (layer (utf8 ".wh.x") []).find]
    [utf8 "x"] = none

theorem computed : Computed := by constructor <;> decide +kernel

end OneFile

theorem overlay_refines_changesets_removed :
    Overlay.lookup overlayfs
      [(OneFile.result (smallEnv []) (OneFile.layer (utf8 ".wh.x") [])).find,
        (OneFile.result (smallEnv []) (OneFile.layer (utf8 "x") (utf8 "1"))).find] [utf8 "x"] =
      none := by
  have hc := OneFile.computed
  have h := @overlay_refines_changesets
    [OneFile.pair (utf8 "x") (utf8 "1"), OneFile.pair (utf8 ".wh.x") []] [utf8 "x"]
    (fun l hl => ?_) hc.plain
  · exact Option.map_eq_none_iff.mp (h.trans (congrArg (Option.map bare) hc.removed))
  · simp only [List.mem_cons, List.not_mem_nil, or_false] at hl
    rcases hl with rfl | rfl
    · exact ⟨⟨smallEnv [], OneFile.convertedTo_result rfl hc.fileRun.1 hc.fileRun.2⟩,
        OneFile.fresh_layer _ _, OneFile.noDots_layer hc.file.1 hc.file.2 _⟩
    · exact ⟨⟨smallEnv [], OneFile.convertedTo_result rfl hc.removalRun.1 hc.removalRun.2⟩,
        OneFile.fresh_layer _ _, OneFile.noDots_layer hc.removal.1 hc.removal.2 _⟩

end Pakstak
