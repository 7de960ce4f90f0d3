/-
  What a conversion changes, and what it leaves alone.

  `Footprint` is the whole of it: outside the directory nothing changes, inside the markers
  go, whiteouts come for the targets that are not there, and `user.overlay.opaque` is set on
  the directories that are `Due`.

  Three kinds of markers break it, all for lack of a check on the target of a marker: `.wh..`
  and `.wh...`, whose targets are the directory itself and the one above (above the tree
  converted, at its top), and `.wh..wh.x`, whose target is a marker: it is left as a whiteout
  unless `.wh.x` is there as well and is listed later.

  Proved:
  * `convert_footprint_iff`: these are the only ones, for every tree and every order of the
    listings.
  * `convert_marks_above`: `.wh...` at the top of a tree.
-/
import Pakstak.Conversion
import Pakstak.Replay

namespace Pakstak

open Posix Prog FileTree

/-! ## The footprint -/

/-- The same inode, extended attributes included. -/
def Alike (i j : Option Inode) : Prop :=
  i.map bare = j.map bare ∧ ∀ a, i.bind (xattr a) = j.bind (xattr a)

/-- The directory is to hide what lies below: it has the opaque marker, or a marker beside it
    in a directory that does not have it. -/
def Due (c : Place) (f : Labels) (q : Place) : Prop :=
  f (q ++ [opaqueMarker]) ≠ none ∨
  ∃ e t, q = e ++ [t] ∧ c <+: e ∧ f (e ++ [markerOf t]) ≠ none ∧ f (e ++ [opaqueMarker]) = none

/-- What the conversion of `c` may do to `f`. -/
structure Footprint (c : Place) (f g : Labels) : Prop where
  outside : ∀ q, ¬ c <+: q → Alike (g q) (f q)
  kept : ∀ q, PlainPlace q → c <+: q → f q ≠ none →
    (∀ e n, q = e ++ [n] → c <+: e → ¬ IsMarker n) → (g q).map bare = (f q).map bare
  removed : ∀ e n, PlainPlace (e ++ [n]) → c <+: e → IsMarker n → g (e ++ [n]) = none
  new : ∀ e t i, PlainPlace (e ++ [t]) → c <+: e → f (e ++ [t]) = none → g (e ++ [t]) = some i →
    i = whiteout ∧ f (e ++ [markerOf t]) ≠ none ∧ f (e ++ [opaqueMarker]) = none
  opaque_due : ∀ q i j, PlainPlace q → c <+: q → f q = some i → g q = some j →
    Posix.isDir i → Due c f q → OpaqueY j
  opaque_same : ∀ q i j, PlainPlace q → c <+: q → f q = some i → g q = some j →
    ¬ (Posix.isDir i ∧ Due c f q) →
      xattr (utf8 "user.overlay.opaque") j = xattr (utf8 "user.overlay.opaque") i

/-- The directory has the attribute from the start. -/
def AlreadyOpaque (f : Labels) (q : Place) : Prop := ∃ i, f q = some i ∧ OpaqueY i

/-- In a directory without the opaque marker: no marker for `.` or `..`, unless the directory
    they mean is to be opaque anyway, and a marker for a marker only if that one is there, and
    is listed later. -/
structure Targeted (c : Place) (f : Labels) (ord : Place → List Bytes) (e : Place) : Prop where
  self : markerOf dot ∈ ord e → Due c f e ∨ AlreadyOpaque f e
  above : markerOf dotdot ∈ ord e →
    c <+: e.dropLast ∧ Due c f e.dropLast ∨ AlreadyOpaque f e.dropLast
  nested : ∀ t, IsMarker t → markerOf t ∈ ord e → t ∈ ord e ∧ ¬ [t, markerOf t].Sublist (ord e)

/-! ## One tree -/

section

variable {x : Node} {c e q : Place} {g : Labels} {ord : Place → List Bytes}

theorem plain_of_marker {t : Bytes} (ht : IsMarker t) (h : Plain (markerOf t)) : Plain t := by
  obtain ⟨r, rfl, -⟩ := isMarker_iff.mp ht
  exact plain_markerOf fun hs => h.no_slash (List.mem_append_right _ (List.mem_append_right _ hs))

/-- The listing of a directory of the tree has its entries. -/
theorem mem_listing (hl : Listings x.find (DirUnder x c) ord) {n : Bytes}
    (hp : PlainPlace (e ++ [n]))
    (hc : c <+: e) (hf : x.find (e ++ [n]) ≠ none) : DirUnder x c e ∧ n ∈ ord e := by
  have hd : x.DirAt e := by
    obtain ⟨i, hi⟩ := Option.ne_none_iff_exists'.mp hf
    obtain ⟨t, ht, -⟩ := find_eq_some_iff.mp hi
    exact dirAt_of_get_append ht (by simp)
  have hv : DirUnder x c e := ⟨hp.up (List.prefix_append _ _), hd, hc⟩
  exact ⟨hv, (hl.mem e hv n).mpr ⟨hp n (by simp), hf⟩⟩

theorem find_of_mem_listing (hl : Listings x.find (DirUnder x c) ord) (he : DirUnder x c e)
    {n : Bytes} (hn : n ∈ ord e) : x.find (e ++ [n]) ≠ none := ((hl.mem e he n).mp hn).2

theorem opaqueMarker_mem_iff (hl : Listings x.find (DirUnder x c) ord) (he : DirUnder x c e) :
    opaqueMarker ∈ ord e ↔ x.find (e ++ [opaqueMarker]) ≠ none := by
  rw [hl.mem e he]
  exact and_iff_right plain_opaqueMarker

theorem alike_map_opaqueInode_iff {i : Inode} (h : Posix.isDir i) :
    Alike (some (opaqueInode i)) (some i) ↔ OpaqueY i := by
  constructor
  · intro ⟨_, ha⟩
    have := ha (utf8 "user.overlay.opaque")
    simp only [Option.bind_some, xattr_opaqueInode, h] at this
    exact this.symm
  · intro ho
    refine ⟨by simp [bare_opaqueInode], fun a => ?_⟩
    simp only [Option.bind_some, xattr_opaqueInode, h, true_and]
    split
    · rename_i ha
      rw [ha]
      exact ho.symm
    · rfl

/-- With targeted markers only, a whiteout is made where nothing was, and is no marker. -/
theorem Whited.fresh (hl : Listings x.find (DirUnder x c) ord)
    (ht : ∀ e, DirUnder x c e → opaqueMarker ∉ ord e → Targeted c x.find ord e)
    (hq : Whited x.find (DirUnder x c) ord q) : ∃ e t, q = e ++ [t] ∧ c <+: e ∧ ¬ IsMarker t ∧
      x.find q = none ∧ x.find (e ++ [markerOf t]) ≠ none ∧
        x.find (e ++ [opaqueMarker]) = none := by
  obtain ⟨e, t, rfl, he, ho, -, hm, hcase⟩ := hq
  have hno : ¬ IsMarker t := fun hmark => by
    obtain ⟨hin, hsub⟩ := (ht e he ho).nested t hmark hm
    rcases hcase with hnone | ⟨-, -, h⟩
    · exact find_of_mem_listing hl he hin hnone
    · exact hsub h
  refine ⟨e, t, rfl, he.2.2, hno, ?_, find_of_mem_listing hl he hm, ?_⟩
  · exact hcase.resolve_right fun h => hno h.2.1
  · exact not_not.mp fun h => ho ((opaqueMarker_mem_iff hl he).mpr h)

/-- With targeted markers only, a directory is made opaque if it is due, or was opaque. -/
theorem Marked.due (hl : Listings x.find (DirUnder x c) ord)
    (ht : ∀ e, DirUnder x c e → opaqueMarker ∉ ord e → Targeted c x.find ord e)
    (hq : Marked x.find (DirUnder x c) ord q) :
    c <+: q ∧ Due c x.find q ∨ AlreadyOpaque x.find q := by
  rcases hq with ⟨he, h⟩ | ⟨e, t, rfl, he, ho, -, hm, -⟩ | ⟨e, rfl, he, ho, hm⟩
  · by_cases ho : opaqueMarker ∈ ord q
    · exact .inl ⟨he.2.2, .inl ((opaqueMarker_mem_iff hl he).mp ho)⟩
    · exact ((ht q he ho).self (h.resolve_left ho)).imp_left fun hd => ⟨he.2.2, hd⟩
  · refine .inl ⟨he.2.2.trans (List.prefix_append _ _), .inr ⟨e, t, rfl, he.2.2,
      find_of_mem_listing hl he hm, ?_⟩⟩
    exact not_not.mp fun h => ho ((opaqueMarker_mem_iff hl he).mpr h)
  · exact (ht e he ho).above hm

/-- A directory that is due is made opaque. -/
theorem Due.marked (hl : Listings x.find (DirUnder x c) ord) (hp : PlainPlace q) (hc : c <+: q)
    (hd : DirIn x.find q) (h : Due c x.find q) : Marked x.find (DirUnder x c) ord q := by
  rcases h with h | ⟨e, t, rfl, he, hm, ho⟩
  · have hdir : DirUnder x c q := ⟨hp, dirIn_find.mp hd, hc⟩
    exact .inl ⟨hdir, .inl ((opaqueMarker_mem_iff hl hdir).mpr h)⟩
  · have ht : Plain t := hp t (by simp)
    have hpe : PlainPlace e := hp.up (List.prefix_append _ _)
    obtain ⟨hv, hin⟩ := mem_listing hl (hpe.snoc (plain_markerOf ht.no_slash)) he hm
    exact .inr (.inl ⟨e, t, rfl, hv, fun h => (opaqueMarker_mem_iff hl hv).mp h ho, ht, hin, hd⟩)

variable (hl : Listings x.find (DirUnder x c) ord)
  (h : Converted x.find (DirUnder x c) ord g)

include hl h

theorem footprint_of_targeted
    (ht : ∀ e, DirUnder x c e → opaqueMarker ∉ ord e → Targeted c x.find ord e) :
    Footprint c x.find g := by
  have fresh {q : Place} := Whited.fresh (q := q) hl ht
  have due {q : Place} := Marked.due (q := q) hl ht
  have erased {q : Place} (hq : Erased (DirUnder x c) ord q) :
      ∃ e n, q = e ++ [n] ∧ c <+: e ∧ IsMarker n ∧ x.find q ≠ none := by
    obtain ⟨e, n, rfl, he, hn, hm⟩ := hq
    exact ⟨e, n, rfl, he.2.2, hm, find_of_mem_listing hl he hn⟩
  have parent {q e : Place} {n : Bytes} (hq : q = e ++ [n]) (hc : ¬ c <+: q) : ¬ c <+: e :=
    fun h => hc (hq ▸ h.trans (List.prefix_append _ _))
  refine ⟨fun q hq => ?_, fun q _ _ hf hn => ?_, fun e n hp hc hm => ?_,
    fun e t i hp hc hf hi => ?_, fun q i j hp hc hi hj hd hdue => ?_,
    fun q i j hp hc hi hj hnot => ?_⟩
  · have hmade : ¬ Whited x.find (DirUnder x c) ord q := fun hw => by
      obtain ⟨e, t, he, hc, -⟩ := fresh hw
      exact parent he hq hc
    have hgone : ¬ Erased (DirUnder x c) ord q := fun hw => by
      obtain ⟨e, n, he, hc, -⟩ := erased hw
      exact parent he hq hc
    by_cases hmark : Marked x.find (DirUnder x c) ord q
    · obtain ⟨m, hm⟩ := hmark.dirIn hl
      obtain ⟨i, hi, hopq⟩ := (due hmark).resolve_left fun h => hq h.1
      rw [hm] at hi
      cases hi
      rw [h.marked q hmark hgone hmade, hm]
      exact (alike_map_opaqueInode_iff rfl).mpr hopq
    · rw [h.same q hmade hgone hmark]
      exact ⟨rfl, fun _ => rfl⟩
  · have hmade : ¬ Whited x.find (DirUnder x c) ord q := fun hw => by
      obtain ⟨e, t, -, -, -, hnone, -⟩ := fresh hw
      exact hf hnone
    have hgone : ¬ Erased (DirUnder x c) ord q := fun hw => by
      obtain ⟨e, n, he, hc, hm, -⟩ := erased hw
      exact hn e n he hc hm
    by_cases hmark : Marked x.find (DirUnder x c) ord q
    · rw [h.marked q hmark hgone hmade, Option.map_map]
      exact congrFun (congrArg Option.map (funext bare_opaqueInode)) _
    · rw [h.same q hmade hgone hmark]
  · have hmade : ¬ Whited x.find (DirUnder x c) ord (e ++ [n]) := fun hw => by
      obtain ⟨e', t, he, -, hno, -⟩ := fresh hw
      obtain ⟨rfl, hn⟩ := List.append_inj' he rfl
      cases hn
      exact hno hm
    by_cases hf : x.find (e ++ [n]) = none
    · have hgone : ¬ Erased (DirUnder x c) ord (e ++ [n]) := fun hw => by
        obtain ⟨_, _, -, -, -, hne⟩ := erased hw
        exact hne hf
      have hmark : ¬ Marked x.find (DirUnder x c) ord (e ++ [n]) := fun hw => by
        obtain ⟨m, hm⟩ := hw.dirIn hl
        rw [hf] at hm
        cases hm
      rw [h.same _ hmade hgone hmark, hf]
    · obtain ⟨hv, hin⟩ := mem_listing hl hp hc hf
      exact h.gone _ ⟨e, n, rfl, hv, hin, hm⟩ hmade
  · by_cases hmade : Whited x.find (DirUnder x c) ord (e ++ [t])
    · rw [h.made _ hmade, Option.some.injEq] at hi
      obtain ⟨e', t', he, -, -, -, hm, ho⟩ := fresh hmade
      obtain ⟨rfl, ht'⟩ := List.append_inj' he rfl
      cases ht'
      exact ⟨hi.symm, hm, ho⟩
    · have hgone : ¬ Erased (DirUnder x c) ord (e ++ [t]) := fun hw => by
        obtain ⟨_, _, -, -, -, hne⟩ := erased hw
        exact hne hf
      have hmark : ¬ Marked x.find (DirUnder x c) ord (e ++ [t]) := fun hw => by
        obtain ⟨m, hm⟩ := hw.dirIn hl
        rw [hf] at hm
        cases hm
      rw [h.same _ hmade hgone hmark, hf] at hi
      cases hi
  · have hdir : DirIn x.find q := by
      cases i with
      | inl i => cases hd
      | inr m => exact ⟨m, hi⟩
    have hmark := hdue.marked hl hp hc hdir
    rw [h.marked q hmark (fun h' => h'.not_dirIn hl hdir) (fun h' =>
      h'.not_dirIn hl hdir), hi] at hj
    cases hj
    rw [OpaqueY, xattr_opaqueInode, if_pos ⟨hd, rfl⟩]
  · have hmade : ¬ Whited x.find (DirUnder x c) ord q := fun hw => by
      obtain ⟨e, t, -, -, -, hnone, -⟩ := fresh hw
      rw [hi] at hnone
      cases hnone
    have hgone : ¬ Erased (DirUnder x c) ord q := fun hw => by
      rw [h.gone q hw hmade] at hj
      cases hj
    by_cases hmark : Marked x.find (DirUnder x c) ord q
    · obtain ⟨m, hm⟩ := hmark.dirIn hl
      rw [h.marked q hmark hgone hmade, hi] at hj
      cases hj
      rw [hi] at hm
      cases hm
      obtain ⟨k, hk, hopq⟩ := (due hmark).resolve_left fun h' => hnot ⟨rfl, h'.2⟩
      rw [hi] at hk
      cases hk
      rw [xattr_opaqueInode, if_pos ⟨rfl, rfl⟩]
      exact hopq.symm
    · rw [h.same q hmade hgone hmark, hi] at hj
      cases hj
      rfl

theorem targeted_of_footprint (hf : Footprint c x.find g) (he : DirUnder x c e)
    (ho : opaqueMarker ∉ ord e) : Targeted c x.find ord e := by
  have marked {q : Place} (hq : Marked x.find (DirUnder x c) ord q) :
      ∃ m, x.find q = some (.inr m) ∧ g q = some (opaqueInode (.inr m)) := by
    obtain ⟨m, hm⟩ := hq.dirIn hl
    refine ⟨m, hm, ?_⟩
    rw [h.marked q hq (fun h' => h'.not_dirIn hl ⟨m, hm⟩) fun h' => h'.not_dirIn hl ⟨m, hm⟩, hm]
    rfl
  -- a directory marked in the tree is due, or was opaque
  have inside {q : Place} (hp : PlainPlace q) (hc : c <+: q)
      (hq : Marked x.find (DirUnder x c) ord q) : Due c x.find q ∨ AlreadyOpaque x.find q := by
    obtain ⟨m, hm, hg⟩ := marked hq
    refine or_iff_not_imp_left.mpr fun hnot => ⟨_, hm, ?_⟩
    rw [OpaqueY, ← hf.opaque_same q _ _ hp hc hm hg fun h' => hnot h'.2, xattr_opaqueInode,
      if_pos ⟨rfl, rfl⟩]
  refine ⟨fun hm => inside he.1 he.2.2 (.inl ⟨he, .inr hm⟩), fun hm => ?_, fun t ht hm => ?_⟩
  · have hq : Marked x.find (DirUnder x c) ord e.dropLast := .inr (.inr ⟨e, rfl, he, ho, hm⟩)
    by_cases hc : c <+: e.dropLast
    · exact (inside (he.1.up (List.dropLast_prefix e)) hc hq).imp_left fun hd => ⟨hc, hd⟩
    · obtain ⟨m, hm, hg⟩ := marked hq
      have hal := hf.outside _ hc
      rw [hm, hg, alike_map_opaqueInode_iff rfl] at hal
      exact .inr ⟨_, hm, hal⟩
  · have hpt : Plain t := plain_of_marker ht ((hl.mem e he _).mp hm).1
    have hgone := hf.removed e t (he.1.snoc hpt) he.2.2 ht
    have hnot : ¬ Whited x.find (DirUnder x c) ord (e ++ [t]) := fun hw => by
      rw [h.made _ hw] at hgone
      cases hgone
    have hin : t ∈ ord e := (hl.mem e he t).mpr
      ⟨hpt, fun hnone => hnot ⟨e, t, rfl, he, ho, hpt, hm, .inl hnone⟩⟩
    exact ⟨hin, fun hsub => hnot ⟨e, t, rfl, he, ho, hpt, hm, .inr ⟨hin, ht, hsub⟩⟩⟩

end

/-! ## Every run -/

/-- The conversion of `c` that lists every directory `e` as `ord e` keeps to its footprint if
    and only if the markers are targeted. -/
theorem convert_footprint_iff {env : Env} {c : Place} {ord : Place → List Bytes} {w w' : World}
    (hp : PlainPlace c) (hd : w.root.DirAt c)
    (hx : Exec ((machine env).only (InOrder fun e l => l = ord e))
      (convertOciWhiteoutsToOverlayfs env (pathOf c)) w (some (.ok ())) w') :
    Footprint c w.root.find w'.root.find ↔
      ∀ e, DirUnder w.root c e → opaqueMarker ∉ ord e → Targeted c w.root.find ord e := by
  obtain ⟨ord', hl, ho, h⟩ := (ensures_exec (ensures_convert hd hp) hx).2 () rfl
  replace hl := hl.congr ho
  replace h := h.congr ho
  exact ⟨fun hf e he hno => targeted_of_footprint hl h hf he hno, footprint_of_targeted hl h⟩

/-! ## The whiteouts left -/

/-- The directory is one whose listings are checked for whiteouts. -/
def OpaqueX (i : Inode) : Prop := xattr (utf8 "user.overlay.opaque") i = some (utf8 "x")

instance (i : Inode) : Decidable (OpaqueX i) := inferInstanceAs (Decidable (_ = _))

/-- Names are hidden from listings as well: the directories with a whiteout are those marked
    for it, and none that hides all of the layers below has one. -/
structure HidesNames (x : Node) (c : Place) : Prop where
  checked : ∀ e t i, DirUnder x c e → Plain t → x.find (e ++ [t]) = some i → IsWhiteout i →
    ∃ d, x.find e = some d ∧ OpaqueX d
  clear : ∀ e d, DirUnder x c e → x.find e = some d → OpaqueY d →
    ∀ t i, Plain t → x.find (e ++ [t]) = some i → ¬ IsWhiteout i

/-- A whiteout named `t` is left in the directory: for a marker, or it was there before. -/
def LeavesWhiteout (f : Labels) (ord : Place → List Bytes) (e : Place) (t : Bytes) : Prop :=
  opaqueMarker ∉ ord e ∧ markerOf t ∈ ord e ∧
    (f (e ++ [t]) = none ∨ t ∈ ord e ∧ IsMarker t ∧ [t, markerOf t].Sublist (ord e)) ∨
  ¬ IsMarker t ∧ ∃ i, f (e ++ [t]) = some i ∧ IsWhiteout i

section

variable {x y : Node} {c e : Place} {ord : Place → List Bytes}
  (hl : Listings x.find (DirUnder x c) ord) (h : Converted x.find (DirUnder x c) ord y.find)

include hl h

theorem whiteout_left_iff {t : Bytes} (he : DirUnder x c e) (ht : Plain t) :
    (∃ i, y.find (e ++ [t]) = some i ∧ IsWhiteout i) ↔ LeavesWhiteout x.find ord e t := by
  have whited : Whited x.find (DirUnder x c) ord (e ++ [t]) ↔ opaqueMarker ∉ ord e ∧
      markerOf t ∈ ord e ∧ (x.find (e ++ [t]) = none ∨
        t ∈ ord e ∧ IsMarker t ∧ [t, markerOf t].Sublist (ord e)) := by
    constructor
    · rintro ⟨e', t', hq, -, ho, -, hm⟩
      obtain ⟨rfl, ht'⟩ := List.append_inj' hq rfl
      cases ht'
      exact ⟨ho, hm⟩
    · exact fun ⟨ho, hm⟩ => ⟨e, t, rfl, he, ho, ht, hm⟩
  rw [LeavesWhiteout, ← whited]
  by_cases hmade : Whited x.find (DirUnder x c) ord (e ++ [t])
  · exact iff_of_true ⟨_, h.made _ hmade, isWhiteout_whiteout⟩ (.inl hmade)
  rw [or_iff_right hmade]
  by_cases hgone : Erased (DirUnder x c) ord (e ++ [t])
  · refine iff_of_false (fun ⟨i, hi, _⟩ => ?_) (fun hn => hn.1 ?_)
    · rw [h.gone _ hgone hmade] at hi
      cases hi
    · obtain ⟨e', n, hq, -, -, hm⟩ := hgone
      obtain ⟨-, hn⟩ := List.append_inj' hq rfl
      cases hn
      exact hm
  by_cases hmark : Marked x.find (DirUnder x c) ord (e ++ [t])
  · obtain ⟨m, hm⟩ := hmark.dirIn hl
    rw [h.marked _ hmark hgone hmade, hm]
    constructor
    · rintro ⟨_, hi, m', rfl, -⟩
      cases hi
    · rintro ⟨-, _, hi, m', rfl, -⟩
      cases hi
  · rw [h.same _ hmade hgone hmark, and_iff_right_of_imp]
    rintro ⟨i, hi, -⟩ hm
    exact hgone ⟨e, t, rfl, he, (hl.mem e he t).mpr ⟨ht, by rw [hi]; simp⟩, hm⟩

theorem hidesNames_iff : HidesNames y c ↔ ∀ e, DirUnder x c e →
    (∀ t, Plain t → ¬ LeavesWhiteout x.find ord e t) ∨
      (∃ d, x.find e = some d ∧ OpaqueX d) ∧ ¬ Marked x.find (DirUnder x c) ord e := by
  have dirs (e : Place) : DirUnder y c e ↔ DirUnder x c e := by
    rw [DirUnder, DirUnder, ← dirIn_find, ← dirIn_find, h.dirIn_iff hl]
  have notX {d : Inode} (hy : OpaqueY d) : ¬ OpaqueX d := fun hx => by
    rw [OpaqueY] at hy
    rw [OpaqueX, hy] at hx
    revert hx
    decide +kernel
  -- what is left of a directory
  have left {e : Place} (he : DirUnder x c e) : (∃ d, y.find e = some d ∧ OpaqueX d) ↔
      (∃ d, x.find e = some d ∧ OpaqueX d) ∧ ¬ Marked x.find (DirUnder x c) ord e := by
    obtain ⟨m, hm⟩ := hl.dir e he
    have hgone : ¬ Erased (DirUnder x c) ord e := fun h' => h'.not_dirIn hl ⟨m, hm⟩
    have hmade : ¬ Whited x.find (DirUnder x c) ord e := fun h' => h'.not_dirIn hl ⟨m, hm⟩
    by_cases hmark : Marked x.find (DirUnder x c) ord e
    · refine iff_of_false ?_ fun h' => h'.2 hmark
      rintro ⟨d, hd, hx⟩
      rw [h.marked e hmark hgone hmade, hm] at hd
      cases hd
      exact notX (by rw [OpaqueY, xattr_opaqueInode, if_pos ⟨rfl, rfl⟩]) hx
    · rw [h.same e hmade hgone hmark, and_iff_left hmark]
  constructor
  · intro hh e he
    refine or_iff_not_imp_left.mpr fun hno => (left he).mp ?_
    push Not at hno
    obtain ⟨t, ht, hleft⟩ := hno
    obtain ⟨i, hi, hw⟩ := (whiteout_left_iff hl h he ht).mpr hleft
    exact hh.checked e t i ((dirs e).mpr he) ht hi hw
  · intro hc
    have checked : ∀ e t i, DirUnder y c e → Plain t → y.find (e ++ [t]) = some i →
        IsWhiteout i → ∃ d, y.find e = some d ∧ OpaqueX d := by
      intro e t i he ht hi hw
      replace he := (dirs e).mp he
      refine (left he).mpr ((hc e he).resolve_left fun hno => hno t ht ?_)
      exact (whiteout_left_iff hl h he ht).mp ⟨i, hi, hw⟩
    refine ⟨checked, fun e d he hd hy t i ht hi hw => ?_⟩
    obtain ⟨d', hd', hx⟩ := checked e t i he ht hi hw
    rw [hd] at hd'
    cases hd'
    exact notX hy hx

end

/-- The conversion of `c` that lists every directory `e` as `ord e` hides the names deleted
    from listings if and only if it leaves no whiteout, but in directories marked before. -/
theorem convert_hidesNames_iff {env : Env} {c : Place} {ord : Place → List Bytes} {w w' : World}
    (hp : PlainPlace c) (hd : w.root.DirAt c)
    (hx : Exec ((machine env).only (InOrder fun e l => l = ord e))
      (convertOciWhiteoutsToOverlayfs env (pathOf c)) w (some (.ok ())) w') :
    HidesNames w'.root c ↔ ∀ e, DirUnder w.root c e →
      (∀ t, Plain t → ¬ LeavesWhiteout w.root.find ord e t) ∨
        (∃ d, w.root.find e = some d ∧ OpaqueX d) ∧
          ¬ Marked w.root.find (DirUnder w.root c) ord e := by
  obtain ⟨ord', hl, ho, h⟩ := (ensures_exec (ensures_convert hd hp) hx).2 () rfl
  exact hidesNames_iff (hl.congr ho) (h.congr ho)

/-! ## Runs with the listings given -/

section

variable (env : Env) (ord : Place → List Bytes)

/-- No registry answers, and no call fails. -/
def calm : Script := ⟨fun _ => .error .other, fun _ => false⟩

/-- A directory is listed as `ord` says; where that is no listing of it, the listing breaks
    off. -/
def listedAs : (o : Op) → World → Reply o × World
  | .readDir p, w =>
    match listDir w.root p, walk w.root p with
    | .ok names, .ok c =>
      (.ok (if (ord c).Perm names then ⟨ord c, none⟩ else ⟨[], some (.other 5)⟩), w)
    | .ok _, .error _ => (.ok ⟨[], some (.other 5)⟩, w)
    | .error e, _ => (.error e, w)
  | o, w => calm.reply env o w

theorem listedAs_step (o : Op) (w : World) :
    ((machine env).only (InOrder fun e l => l = ord e)).step o w (listedAs env ord o w).1
      (listedAs env ord o w).2 := by
  cases o with
  | readDir p =>
    rw [listedAs]
    split
    · rename_i names c hnames hc
      refine ⟨⟨.inl ?_, rfl⟩, fun l c' hl hb hc' => ?_⟩
      · rw [hnames]
        refine ⟨_, rfl, ?_⟩
        split
        · rename_i hperm
          exact .inl ⟨rfl, hperm⟩
        · exact .inr ⟨5, rfl, List.nodup_nil, List.nil_subset _⟩
      · rw [hc] at hc'
        cases hc'
        cases hl
        split at hb
        · rename_i hperm
          rw [if_pos hperm]
        · cases hb
    · rename_i names e hnames hc
      refine ⟨⟨.inl ?_, rfl⟩, fun l c' hl hb => ?_⟩
      · rw [hnames]
        exact ⟨_, rfl, .inr ⟨5, rfl, List.nodup_nil, List.nil_subset _⟩⟩
      · cases hl
        cases hb
    · rename_i e hnames
      refine ⟨⟨.inl ?_, rfl⟩, fun l c' hl => by cases hl⟩
      rw [hnames]
  | _ => exact ⟨calm.reply_step env _ _, trivial⟩

/-- The conversion of `c` with the listings `ord`. -/
def convertListed (c : Place) (w : World) : Option (Except Err Unit) × World :=
  (convertOciWhiteoutsToOverlayfs env (pathOf c)).run (listedAs env ord) w

theorem exec_convertListed (c : Place) (w : World) :
    Exec ((machine env).only (InOrder fun e l => l = ord e))
      (convertOciWhiteoutsToOverlayfs env (pathOf c)) w (convertListed env ord c w).1
      (convertListed env ord c w).2 := exec_run (listedAs_step env ord) _ w

end

namespace OneMarker

/-- The directory `/d`. -/
def place : Place := [utf8 "d"]

theorem plain_place : PlainPlace place := by decide +kernel

/-- There is one empty file in it. -/
def world (n : Bytes) : World :=
  ⟨.dir newDir [(utf8 "d", .dir newDir [(n, .leaf (.file newFile []))])], [], [], []⟩

theorem dirAt_place (n : Bytes) : (world n).root.DirAt place :=
  ⟨newDir, [(n, .leaf (.file newFile []))], rfl⟩

def converted (n : Bytes) : Option (Except Err Unit) × World :=
  convertListed (smallEnv []) (fun _ => [n]) place (world n)

theorem exec_converted {n : Bytes} (h : (converted n).1 = some (.ok ())) :
    Exec ((machine (smallEnv [])).only (InOrder fun _ l => l = [n]))
      (convertOciWhiteoutsToOverlayfs (smallEnv []) (pathOf place)) (world n) (some (.ok ()))
      (converted n).2 := h ▸ exec_convertListed _ _ _ _

/-- What the conversion of `.wh.x`, and of `.wh...`, computes. -/
structure Computed : Prop where
  ok : (converted (utf8 ".wh.x")).1 = some (.ok ())
  okAbove : (converted (utf8 ".wh...")).1 = some (.ok ())
  selfMarker : markerOf dot ∉ [utf8 ".wh.x"]
  aboveMarker : markerOf dotdot ∉ [utf8 ".wh.x"]
  name : markerOf (utf8 "x") = utf8 ".wh.x"
  ordinary : ¬ IsMarker (utf8 "x")
  plain : Plain (utf8 "x")
  listed : opaqueMarker ∉ [utf8 ".wh.x"] ∧ markerOf (utf8 "x") ∈ [utf8 ".wh.x"]
  missing : (world (utf8 ".wh.x")).root.find (place ++ [utf8 "x"]) = none
  unchecked : ¬ OpaqueX (.inr newDir)
  dir : (converted (utf8 ".wh.x")).2.root.find place = some (.inr newDir)
  white : (converted (utf8 ".wh.x")).2.root.find (place ++ [utf8 "x"]) = some whiteout
  outside : ¬ place <+: []
  above : ¬ ((converted (utf8 ".wh...")).2.root.find []).bind
      (xattr (utf8 "user.overlay.opaque")) =
    ((world (utf8 ".wh...")).root.find []).bind (xattr (utf8 "user.overlay.opaque"))

theorem computed : Computed := by constructor <;> decide +kernel

end OneMarker

theorem convert_footprint_iff_whiteout :
    Footprint OneMarker.place (OneMarker.world (utf8 ".wh.x")).root.find
      (OneMarker.converted (utf8 ".wh.x")).2.root.find := by
  have hc := OneMarker.computed
  refine (convert_footprint_iff OneMarker.plain_place (OneMarker.dirAt_place _)
    (OneMarker.exec_converted hc.ok)).mpr fun e _ _ => ⟨fun h => ?_, fun h => ?_,
      fun t ht h => ?_⟩
  · exact absurd h hc.selfMarker
  · exact absurd h hc.aboveMarker
  · have hname : markerOf t = markerOf (utf8 "x") :=
      (List.mem_singleton.mp h).trans hc.name.symm
    obtain rfl : t = utf8 "x" := markerOf_inj.mp hname
    exact absurd ht hc.ordinary

/-- The marker `.wh...` at the top of a tree marks the directory that holds the tree. -/
theorem convert_marks_above :
    ¬ ∀ (env : Env) (c : Place) (ord : Place → List Bytes) (w w' : World), PlainPlace c →
      w.root.DirAt c → Exec ((machine env).only (InOrder fun e l => l = ord e))
        (convertOciWhiteoutsToOverlayfs env (pathOf c)) w (some (.ok ())) w' →
      Footprint c w.root.find w'.root.find := by
  intro h
  have hc := OneMarker.computed
  have hf := h _ _ _ _ _ OneMarker.plain_place (OneMarker.dirAt_place (utf8 ".wh..."))
    (OneMarker.exec_converted hc.okAbove)
  exact hc.above ((hf.outside [] hc.outside).2 _)

theorem convert_hidesNames_iff_whiteout :
    ¬ HidesNames (OneMarker.converted (utf8 ".wh.x")).2.root OneMarker.place := by
  have hc := OneMarker.computed
  rw [convert_hidesNames_iff OneMarker.plain_place (OneMarker.dirAt_place _)
    (OneMarker.exec_converted hc.ok)]
  intro h
  have he : DirUnder (OneMarker.world (utf8 ".wh.x")).root OneMarker.place OneMarker.place :=
    ⟨OneMarker.plain_place, OneMarker.dirAt_place _, List.prefix_rfl⟩
  rcases h _ he with h | ⟨⟨d, hd, hx⟩, -⟩
  · exact h (utf8 "x") hc.plain (.inl ⟨hc.listed.1,
      hc.listed.2, .inl hc.missing⟩)
  · cases hd
    exact hc.unchecked hx

/-- A whiteout is left in a directory that is not marked for it. -/
theorem convert_lists_deleted :
    ¬ ∀ (env : Env) (c : Place) (ord : Place → List Bytes) (w w' : World), PlainPlace c →
      w.root.DirAt c → Exec ((machine env).only (InOrder fun e l => l = ord e))
        (convertOciWhiteoutsToOverlayfs env (pathOf c)) w (some (.ok ())) w' →
      HidesNames w'.root c := by
  intro h
  have hc := OneMarker.computed
  have hh := h _ _ _ _ _ OneMarker.plain_place (OneMarker.dirAt_place (utf8 ".wh.x"))
    (OneMarker.exec_converted hc.ok)
  obtain ⟨d, hd, hx⟩ := hh.checked OneMarker.place (utf8 "x") whiteout
    ⟨OneMarker.plain_place, dirAt_iff_find.mpr ⟨newDir, hc.dir⟩, List.prefix_rfl⟩
    hc.plain hc.white isWhiteout_whiteout
  obtain rfl : d = .inr newDir := Option.some.inj (hd.symm.trans hc.dir)
  exact hc.unchecked hx

end Pakstak
