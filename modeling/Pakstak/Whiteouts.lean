/-
  What the conversion of whiteouts does to a directory, place by place.

  `Labels` is a tree seen as what is found at each place. `handleEntry` and `processDir` are
  the effects of `convertEntry` and `convertStep` on it. Which whiteouts are left depends on
  the order of the listing: a marker `.wh.t` whose target `t` is itself a marker finds `t`
  there, or finds it removed already.

  Proved, for a listing without repetitions, in any order:
  * `foldl_handleEntry_child`, `_self`, `_parent`: what the pass leaves at an entry of the
    directory, at the directory and at its parent.
  * `converted_processDir`: all of it, as `Converted`; `Converted.comp` puts the passes over
    disjoint sets of directories together.
-/
import Mathlib.Logic.Function.Basic
import Pakstak.Layer

namespace Pakstak

open Posix FileTree

/-! ## Effects -/

/-- What is found at each place. -/
abbrev Labels : Type := Place → Option Inode

/-- The file that hides a name of the layers below. -/
def whiteout : Inode :=
  .inl (.file (newFile.setXattr (utf8 "user.overlay.whiteout") (utf8 "y")) [])

/-- A directory that hides all of the layers below. -/
def opaqueInode : Inode → Inode
  | .inl l => .inl l
  | .inr m => .inr (m.setXattr (utf8 "user.overlay.opaque") (utf8 "y"))

def makeOpaque (q : Place) (f : Labels) : Labels :=
  Function.update f q ((f q).map opaqueInode)

/-- What a marker leaves at its target. -/
def settled : Option Inode → Option Inode
  | none => some whiteout
  | some i => some (opaqueInode i)

/-- The effect of a marker in `e`, but for its own removal. -/
def settle (e : Place) (t : Bytes) (f : Labels) : Labels :=
  if t = dot then makeOpaque e f
  else if t = dotdot then makeOpaque e.dropLast f
  else Function.update f (e ++ [t]) (settled (f (e ++ [t])))

def handleEntry (e : Place) (isOpaque : Bool) (f : Labels) (n : Bytes) : Labels :=
  match ociWhiteoutTargetName n with
  | none => f
  | some t => Function.update (if isOpaque then f else settle e t f) (e ++ [n]) none

/-- The effect of one turn of the loop on the directory `e`, listed as `l`. -/
def processDir (e : Place) (l : List Bytes) (f : Labels) : Labels :=
  l.foldl (handleEntry e (opaqueMarker ∈ l)) (if opaqueMarker ∈ l then makeOpaque e f else f)

/-! ## Markers -/

/-- A name that starts with `.wh.` and does not end there. -/
def IsMarker (n : Bytes) : Prop := (ociWhiteoutTargetName n).isSome

instance (n : Bytes) : Decidable (IsMarker n) := inferInstanceAs (Decidable (_ = true))

/-- The marker for a target. -/
def markerOf (t : Bytes) : Bytes := whiteoutPrefix ++ t

theorem ociWhiteoutTargetName_eq_some {n t : Bytes} :
    ociWhiteoutTargetName n = some t ↔ n = markerOf t ∧ t ≠ [] := by
  rw [ociWhiteoutTargetName, markerOf]
  constructor
  · intro h
    split at h
    · rename_i hp
      obtain ⟨r, rfl⟩ := hp
      rw [List.drop_left, Option.filter_eq_some_iff, Option.some.injEq] at h
      obtain ⟨rfl, hr⟩ := h
      exact ⟨rfl, by simpa using hr⟩
    · cases h
  · rintro ⟨rfl, ht⟩
    rw [if_pos (List.prefix_append _ _), List.drop_left]
    simp [Option.filter, ht]

theorem isMarker_iff {n : Bytes} : IsMarker n ↔ ∃ t, n = markerOf t ∧ t ≠ [] := by
  rw [IsMarker, Option.isSome_iff_exists]
  exact exists_congr fun t => ociWhiteoutTargetName_eq_some

theorem isMarker_markerOf {t : Bytes} (ht : t ≠ []) : IsMarker (markerOf t) :=
  isMarker_iff.mpr ⟨t, rfl, ht⟩

theorem markerOf_inj {t t' : Bytes} : markerOf t = markerOf t' ↔ t = t' :=
  List.append_right_inj _

theorem markerOf_ne (t : Bytes) : markerOf t ≠ t := by
  intro h
  have := congrArg List.length h
  rw [markerOf, List.length_append] at this
  have hp : whiteoutPrefix.length = 4 := by decide +kernel
  omega

theorem isMarker_opaqueMarker : IsMarker opaqueMarker := by decide +kernel

theorem plain_opaqueMarker : Plain opaqueMarker := by decide +kernel

theorem plain_markerOf {t : Bytes} (h : slashByte ∉ t) : Plain (markerOf t) := by
  have hlen : (markerOf t).length = 4 + t.length := by
    rw [markerOf, List.length_append]
    rfl
  refine ⟨fun h' => ?_, fun hs => ?_, fun h' => ?_, fun h' => ?_⟩
  · rw [h'] at hlen
    simp at hlen
    omega
  · rcases List.mem_append.mp hs with hs | hs
    · revert hs
      decide +kernel
    · exact h hs
  · rw [h'] at hlen
    simp [dot] at hlen
    omega
  · rw [h'] at hlen
    simp [dotdot] at hlen
    omega

/-- The target of a marker that a directory can have. -/
theorem plain_of_target {t : Bytes} (h : Plain (markerOf t)) (ht : t ≠ []) (hd : t ≠ dot)
    (hdd : t ≠ dotdot) : Plain t :=
  ⟨ht, fun hs => h.no_slash (List.mem_append_right _ hs), hd, hdd⟩

/-! ## Inodes -/

@[simp] theorem opaqueInode_opaqueInode (i : Inode) :
    opaqueInode (opaqueInode i) = opaqueInode i := by
  cases i with
  | inl l => rfl
  | inr m => simp [opaqueInode, Meta.setXattr]

@[simp] theorem map_opaqueInode_idem (o : Option Inode) :
    (o.map opaqueInode).map opaqueInode = o.map opaqueInode := by
  cases o <;> simp

/-- The extended attributes of an inode. -/
def xattr (name : Bytes) : Inode → Option Bytes
  | .inl (.file m _) => m.xattrs.lookup name
  | .inl (.symlink _) => none
  | .inr m => m.xattrs.lookup name

/-- An inode without its extended attributes: type, contents and mode. -/
def bare : Inode → Inode
  | .inl (.file m data) => .inl (.file { m with xattrs := [] } data)
  | .inl (.symlink t) => .inl (.symlink t)
  | .inr m => .inr { m with xattrs := [] }

/-- The file hides its name: it has no data, and the attribute. -/
def IsWhiteout (i : Inode) : Prop :=
  ∃ m, i = .inl (.file m []) ∧ xattr (utf8 "user.overlay.whiteout") i ≠ none

theorem isWhiteout_whiteout : IsWhiteout whiteout := ⟨_, rfl, by decide +kernel⟩

/-- The directory hides all of the layers below. -/
def OpaqueY (i : Inode) : Prop := xattr (utf8 "user.overlay.opaque") i = some (utf8 "y")

instance (i : Inode) : Decidable (OpaqueY i) := inferInstanceAs (Decidable (_ = _))

theorem lookup_setXattr (name value a : Bytes) (m : Meta) :
    (m.setXattr name value).xattrs.lookup a =
      if a = name then some value else m.xattrs.lookup a := by
  rw [Meta.setXattr, List.lookup_cons]
  by_cases h : a = name
  · simp [h]
  · rw [if_neg h, beq_false_of_ne h]
    have hf := lookup_filter_ne m.xattrs name a
    rwa [if_neg h] at hf

theorem xattr_opaqueInode (a : Bytes) (i : Inode) : xattr a (opaqueInode i) =
    if Posix.isDir i ∧ a = utf8 "user.overlay.opaque" then some (utf8 "y") else xattr a i := by
  cases i with
  | inl l => simp [opaqueInode, Posix.isDir]
  | inr m => simp [opaqueInode, Posix.isDir, xattr, lookup_setXattr]

theorem bare_opaqueInode (i : Inode) : bare (opaqueInode i) = bare i := by
  cases i <;> rfl

theorem opaqueInode_of_not_isDir {i : Inode} (h : isDir i = false) : opaqueInode i = i := by
  cases i with
  | inl l => rfl
  | inr m => cases h

/-! ## One directory -/

variable {e q : Place} {l : List Bytes} {f g : Labels} {n t : Bytes}

theorem snoc_ne_self (e : Place) (n : Bytes) : e ++ [n] ≠ e := fun h => by
  simpa using congrArg List.length h

theorem snoc_ne_dropLast (e : Place) (n : Bytes) : e ++ [n] ≠ e.dropLast := fun h => by
  have := congrArg List.length h
  rw [List.length_append, List.length_dropLast, List.length_singleton] at this
  omega

theorem settle_dot (e : Place) (f : Labels) : settle e dot f = makeOpaque e f := if_pos rfl

theorem settle_dotdot (e : Place) (f : Labels) :
    settle e dotdot f = makeOpaque e.dropLast f := by
  rw [settle, if_neg (by decide), if_pos rfl]

theorem settle_plain (ht : Plain t) (e : Place) (f : Labels) :
    settle e t f = Function.update f (e ++ [t]) (settled (f (e ++ [t]))) := by
  rw [settle, if_neg ht.ne_dot, if_neg ht.ne_dotdot]

theorem makeOpaque_of_ne (h : q ≠ e) (f : Labels) : makeOpaque e f q = f q :=
  Function.update_of_ne h _ _

@[simp] theorem makeOpaque_self (e : Place) (f : Labels) :
    makeOpaque e f e = (f e).map opaqueInode := Function.update_self ..

theorem handleEntry_ordinary (hn : ¬ IsMarker n) (isOpaque : Bool) :
    handleEntry e isOpaque f n = f := by
  rw [handleEntry]
  rw [IsMarker, Option.not_isSome_iff_eq_none] at hn
  rw [hn]

theorem handleEntry_true (ht : t ≠ []) :
    handleEntry e true f (markerOf t) = Function.update f (e ++ [markerOf t]) none := by
  rw [handleEntry, ociWhiteoutTargetName_eq_some.mpr ⟨rfl, ht⟩]
  rfl

theorem handleEntry_false (ht : t ≠ []) :
    handleEntry e false f (markerOf t) =
      Function.update (settle e t f) (e ++ [markerOf t]) none := by
  rw [handleEntry, ociWhiteoutTargetName_eq_some.mpr ⟨rfl, ht⟩]
  rfl

/-- In an opaque directory the markers are removed, and that is all. -/
theorem foldl_handleEntry_hidden (l : List Bytes) (f : Labels) :
    l.foldl (handleEntry e true) f =
      fun q => if ∃ n ∈ l, IsMarker n ∧ q = e ++ [n] then none else f q := by
  induction l generalizing f with
  | nil => simp
  | cons a l ih =>
    rw [List.foldl_cons, ih]
    funext q
    by_cases ha : IsMarker a
    · obtain ⟨t, rfl, ht⟩ := isMarker_iff.mp ha
      rw [handleEntry_true ht]
      by_cases hq : q = e ++ [markerOf t]
      · subst hq
        simp [ha]
      · simp [hq]
    · simp [handleEntry_ordinary ha, ha]

/-- What a marker among the names handled leaves at an entry. -/
theorem foldl_handleEntry_child (hl : l.Nodup) (hp : ∀ n ∈ l, Plain n) (ht : Plain t) (e : Place)
    (f : Labels) : l.foldl (handleEntry e false) f (e ++ [t]) =
      if t ∈ l ∧ IsMarker t then
        if [t, markerOf t].Sublist l then some whiteout else none
      else if markerOf t ∈ l then settled (f (e ++ [t])) else f (e ++ [t]) := by
  induction l generalizing f with
  | nil => simp
  | cons a l ih =>
    obtain ⟨ha, hl⟩ := List.nodup_cons.mp hl
    rw [List.foldl_cons, ih hl fun n hn => hp n (by simp [hn])]
    -- a name in front matters only if it is `t` or the marker for `t`
    have front (hat : a ≠ t) : [t, markerOf t].Sublist (a :: l) ↔ [t, markerOf t].Sublist l := by
      rw [List.cons_sublist_cons']
      exact or_iff_left fun h => hat h.1.symm
    by_cases hm : IsMarker a
    swap
    · rw [handleEntry_ordinary hm]
      have hat : IsMarker t → a ≠ t := fun h h' => hm (h' ▸ h)
      have hamt : a ≠ markerOf t := fun h => hm (h ▸ isMarker_markerOf ht.ne_nil)
      by_cases htm : IsMarker t
      · simp [htm, front (hat htm), (hat htm).symm, hamt.symm]
      · simp [htm, hamt.symm]
    obtain ⟨t₀, rfl, ht₀⟩ := isMarker_iff.mp hm
    rw [handleEntry_false ht₀]
    by_cases hat : markerOf t₀ = t
    · -- `t` is the marker, removed now
      subst hat
      have hsub : [markerOf t₀, markerOf (markerOf t₀)].Sublist (markerOf t₀ :: l) ↔
          markerOf (markerOf t₀) ∈ l := by
        rw [List.cons_sublist_cons, List.singleton_sublist]
      have hin : markerOf t₀ ∈ markerOf t₀ :: l ∧ IsMarker (markerOf t₀) := ⟨by simp, hm⟩
      rw [if_neg fun h => ha h.1, if_pos hin, if_congr hsub rfl rfl, Function.update_self]
      rfl
    rw [Function.update_of_ne (by simpa using fun h => hat h.symm)]
    by_cases htt : t₀ = t
    · -- the marker for `t`
      subst htt
      rw [settle_plain ht, Function.update_self]
      have hno : ¬ [t₀, markerOf t₀].Sublist l := fun h => ha (h.subset (by simp))
      have hno' := fun h => hno ((front hat).mp h)
      by_cases htm : t₀ ∈ l ∧ IsMarker t₀
      · rw [if_pos htm, if_neg hno, if_pos ⟨by simp [htm.1], htm.2⟩, if_neg hno']
      · rw [if_neg htm, if_neg ha, if_neg, if_pos (by simp)]
        exact fun h => htm ⟨(List.mem_cons.mp h.1).resolve_left fun h' => hat h'.symm, h.2⟩
    · have hsame : settle e t₀ f (e ++ [t]) = f (e ++ [t]) := by
        by_cases hd : t₀ = dot
        · rw [hd, settle_dot, makeOpaque_of_ne (snoc_ne_self e t)]
        by_cases hdd : t₀ = dotdot
        · rw [hdd, settle_dotdot, makeOpaque_of_ne (snoc_ne_dropLast e t)]
        rw [settle_plain (plain_of_target (hp _ (by simp)) ht₀ hd hdd),
          Function.update_of_ne (by simpa using fun h => htt h.symm)]
      have hne : markerOf t ≠ markerOf t₀ := fun h => htt (markerOf_inj.mp h).symm
      have hmem : t ∈ markerOf t₀ :: l ↔ t ∈ l := by
        rw [List.mem_cons, or_iff_right fun h => hat h.symm]
      have hmem' : markerOf t ∈ markerOf t₀ :: l ↔ markerOf t ∈ l := by simp [hne]
      simp only [hsame, hmem, hmem', front hat]

/-- At the directory itself, and at its parent. -/
theorem foldl_handleEntry_up (hp : ∀ n ∈ l, Plain n) (f : Labels)
    (hq : ∀ t, Plain t → q ≠ e ++ [t]) : l.foldl (handleEntry e false) f q =
      if q = e ∧ markerOf dot ∈ l ∨ q = e.dropLast ∧ markerOf dotdot ∈ l then
        (f q).map opaqueInode
      else f q := by
  induction l generalizing f with
  | nil => simp
  | cons a l ih =>
    rw [List.foldl_cons, ih fun n hn => hp n (by simp [hn])]
    by_cases hm : IsMarker a
    swap
    · have hd : markerOf dot ≠ a := fun h => hm (h ▸ isMarker_markerOf (by decide))
      have hdd : markerOf dotdot ≠ a := fun h => hm (h ▸ isMarker_markerOf (by decide))
      simp [handleEntry_ordinary hm, hd, hdd]
    obtain ⟨t, rfl, ht⟩ := isMarker_iff.mp hm
    rw [handleEntry_false ht, Function.update_of_ne (hq _ (hp _ (by simp)))]
    by_cases hd : t = dot
    · subst hd
      have hdd : markerOf dotdot ≠ markerOf dot := fun h => by
        cases markerOf_inj.mp h
      by_cases hqe : q = e
      · subst hqe
        rw [settle_dot, makeOpaque_self, map_opaqueInode_idem, ite_self,
          if_pos (.inl ⟨rfl, by simp⟩)]
      · simp [settle_dot, makeOpaque_of_ne hqe, hqe, hdd]
    by_cases hdd : t = dotdot
    · subst hdd
      have hd' : markerOf dot ≠ markerOf dotdot := fun h => hd (markerOf_inj.mp h).symm
      by_cases hqe : q = e.dropLast
      · subst hqe
        rw [settle_dotdot, makeOpaque_self, map_opaqueInode_idem, ite_self,
          if_pos (.inr ⟨rfl, by simp⟩)]
      · simp [settle_dotdot, makeOpaque_of_ne hqe, hqe, hd']
    · have hd' : markerOf dot ≠ markerOf t := fun h => hd (markerOf_inj.mp h).symm
      have hdd' : markerOf dotdot ≠ markerOf t := fun h => hdd (markerOf_inj.mp h).symm
      have htp := plain_of_target (hp _ (by simp)) ht hd hdd
      rw [settle_plain htp, Function.update_of_ne (hq t htp)]
      simp [hd', hdd']

/-- What a name not yet handled finds is what was there, perhaps opaque by now. -/
theorem foldl_handleEntry_later (hl : l.Nodup) (hp : ∀ n ∈ l, Plain n) (hn : Plain n)
    (hnl : n ∉ l) (hf : f (e ++ [n]) ≠ none) (isOpaque : Bool) :
    l.foldl (handleEntry e isOpaque) f (e ++ [n]) = f (e ++ [n]) ∨
      l.foldl (handleEntry e isOpaque) f (e ++ [n]) = (f (e ++ [n])).map opaqueInode := by
  cases isOpaque with
  | true =>
    refine .inl ?_
    rw [foldl_handleEntry_hidden]
    refine if_neg ?_
    rintro ⟨m, hm, -, h⟩
    obtain ⟨-, h⟩ := List.append_inj' h rfl
    cases h
    exact hnl hm
  | false =>
    rw [foldl_handleEntry_child hl hp hn, if_neg fun h => hnl h.1]
    split
    · refine .inr ?_
      cases h : f (e ++ [n]) with
      | none => exact absurd h hf
      | some i => rfl
    · exact .inl rfl

/-- The directory stays one while its entries are handled. -/
theorem foldl_handleEntry_self (hp : ∀ n ∈ l, Plain n) (isOpaque : Bool) :
    l.foldl (handleEntry e isOpaque) f e = f e ∨
      l.foldl (handleEntry e isOpaque) f e = (f e).map opaqueInode := by
  cases isOpaque with
  | true =>
    refine .inl ?_
    rw [foldl_handleEntry_hidden]
    refine if_neg ?_
    rintro ⟨m, -, -, h⟩
    exact snoc_ne_self e m h.symm
  | false =>
    rw [foldl_handleEntry_up hp f fun t _ h => snoc_ne_self e t h.symm]
    split
    · exact .inr rfl
    · exact .inl rfl

/-! ## Many directories -/

section Many

/-- There is a directory. -/
def DirIn (f : Labels) (q : Place) : Prop := ∃ m, f q = some (.inr m)

/-- There is a file or a symlink. -/
def LeafIn (f : Labels) (q : Place) : Prop := ∃ i, f q = some (.inl i)

/-- What was at a place, in a tree `f` whose directories in `V` were listed as `ord` says:
    a marker. -/
def Erased (V : Place → Prop) (ord : Place → List Bytes) (q : Place) : Prop :=
  ∃ e n, q = e ++ [n] ∧ V e ∧ n ∈ ord e ∧ IsMarker n

/-- What is left at a place: a whiteout. -/
def Whited (f : Labels) (V : Place → Prop) (ord : Place → List Bytes) (q : Place) : Prop :=
  ∃ e t, q = e ++ [t] ∧ V e ∧ opaqueMarker ∉ ord e ∧ Plain t ∧ markerOf t ∈ ord e ∧
    (f q = none ∨ t ∈ ord e ∧ IsMarker t ∧ [t, markerOf t].Sublist (ord e))

/-- What happens to a directory: it is made opaque, for its own marker or for one beside it,
    or for one of the markers with the targets `.` and `..`. -/
def Marked (f : Labels) (V : Place → Prop) (ord : Place → List Bytes) (q : Place) : Prop :=
  (V q ∧ (opaqueMarker ∈ ord q ∨ markerOf dot ∈ ord q)) ∨
  (∃ e t, q = e ++ [t] ∧ V e ∧ opaqueMarker ∉ ord e ∧ Plain t ∧ markerOf t ∈ ord e ∧ DirIn f q) ∨
  ∃ e, q = e.dropLast ∧ V e ∧ opaqueMarker ∉ ord e ∧ markerOf dotdot ∈ ord e

/-- The directories in `V` have been converted: `g` is what is left of `f`. -/
structure Converted (f : Labels) (V : Place → Prop) (ord : Place → List Bytes) (g : Labels) :
    Prop where
  made : ∀ q, Whited f V ord q → g q = some whiteout
  gone : ∀ q, Erased V ord q → ¬ Whited f V ord q → g q = none
  marked : ∀ q, Marked f V ord q → ¬ Erased V ord q → ¬ Whited f V ord q →
    g q = (f q).map opaqueInode
  same : ∀ q, ¬ Whited f V ord q → ¬ Erased V ord q → ¬ Marked f V ord q → g q = f q

variable {V V₁ V₂ : Place → Prop} {ord ord' : Place → List Bytes} {k : Labels}

/-- The listings say what is left. -/
theorem Converted.unique (h : Converted f V ord g) (h' : Converted f V ord k) : g = k := by
  funext q
  by_cases hmade : Whited f V ord q
  · rw [h.made q hmade, h'.made q hmade]
  by_cases hgone : Erased V ord q
  · rw [h.gone q hgone hmade, h'.gone q hgone hmade]
  by_cases hmark : Marked f V ord q
  · rw [h.marked q hmark hgone hmade, h'.marked q hmark hgone hmade]
  · rw [h.same q hmade hgone hmark, h'.same q hmade hgone hmark]

/-- The listings are those of the directories in `V` of `f`, which can all be processed. -/
structure Listings (f : Labels) (V : Place → Prop) (ord : Place → List Bytes) : Prop where
  dir : ∀ e, V e → DirIn f e
  above : ∀ e, V e → DirIn f e.dropLast
  nodup : ∀ e, V e → (ord e).Nodup
  mem : ∀ e, V e → ∀ n, n ∈ ord e ↔ Plain n ∧ f (e ++ [n]) ≠ none
  leaf : ∀ e, V e → ∀ n ∈ ord e, IsMarker n → LeafIn f (e ++ [n])

theorem Whited.not_dirIn (h : Listings f V ord) (hq : Whited f V ord q) : ¬ DirIn f q := by
  rintro ⟨m, hm⟩
  obtain ⟨e, t, rfl, he, -, -, -, hnone | ⟨hin, hmark, -⟩⟩ := hq
  · rw [hnone] at hm
    cases hm
  · obtain ⟨i, hi⟩ := h.leaf e he t hin hmark
    rw [hi] at hm
    cases hm

theorem Erased.not_dirIn (h : Listings f V ord) (hq : Erased V ord q) : ¬ DirIn f q := by
  rintro ⟨m, hm⟩
  obtain ⟨e, n, rfl, he, hn, hmark⟩ := hq
  obtain ⟨i, hi⟩ := h.leaf e he n hn hmark
  rw [hi] at hm
  cases hm

theorem Marked.dirIn (h : Listings f V ord) (hq : Marked f V ord q) : DirIn f q := by
  rcases hq with ⟨hv, -⟩ | ⟨_, _, -, -, -, -, -, hd⟩ | ⟨e, rfl, hv, -⟩
  · exact h.dir q hv
  · exact hd
  · exact h.above e hv

/-- What happens to a place whose directory is none of those converted. -/
theorem Converted.beside (h : Converted f V ord g) (he : ¬ V e) (n : Bytes) :
    g (e ++ [n]) = f (e ++ [n]) ∨ g (e ++ [n]) = (f (e ++ [n])).map opaqueInode := by
  have parent {e' : Place} {n' : Bytes} (h' : e ++ [n] = e' ++ [n']) (hv : V e') : False := by
    obtain ⟨rfl, -⟩ := List.append_inj' h' rfl
    exact he hv
  have hmade : ¬ Whited f V ord (e ++ [n]) := fun ⟨_, _, h', hv, _⟩ => parent h' hv
  have hgone : ¬ Erased V ord (e ++ [n]) := fun ⟨_, _, h', hv, _⟩ => parent h' hv
  by_cases hmark : Marked f V ord (e ++ [n])
  · exact .inr (h.marked _ hmark hgone hmade)
  · exact .inl (h.same _ hmade hgone hmark)

theorem map_opaqueInode_eq_none {o : Option Inode} : o.map opaqueInode = none ↔ o = none := by
  cases o <;> simp

theorem dirIn_of_map {f' : Labels} (h : g q = f' q ∨ g q = (f' q).map opaqueInode) :
    DirIn g q ↔ DirIn f' q := by
  rcases h with h | h
  · rw [DirIn, h, DirIn]
  · rw [DirIn, h, DirIn]
    cases hf : f' q with
    | none => simp
    | some i => cases i <;> simp [opaqueInode]

theorem none_of_map {f' : Labels} (h : g q = f' q ∨ g q = (f' q).map opaqueInode) :
    g q = none ↔ f' q = none := by
  rcases h with h | h
  · rw [h]
  · rw [h, map_opaqueInode_eq_none]

/-- The directories stay. -/
theorem Converted.dirIn_iff (h : Converted f V ord g) (hl : Listings f V ord) (q : Place) :
    DirIn g q ↔ DirIn f q := by
  by_cases hmade : Whited f V ord q
  · refine iff_of_false ?_ (hmade.not_dirIn hl)
    rintro ⟨m, hm⟩
    rw [h.made q hmade] at hm
    cases hm
  by_cases hgone : Erased V ord q
  · refine iff_of_false ?_ (hgone.not_dirIn hl)
    rintro ⟨m, hm⟩
    rw [h.gone q hgone hmade] at hm
    cases hm
  by_cases hmark : Marked f V ord q
  · exact dirIn_of_map (.inr (h.marked q hmark hgone hmade))
  · exact dirIn_of_map (.inl (h.same q hmade hgone hmark))

/-- The rest of the directories see the same whiteouts to make after the first were
    converted. -/
theorem whited_iff_of_converted (h : Converted f V₁ ord g) (hd : ∀ e, V₂ e → ¬ V₁ e) (q : Place) :
    Whited g V₂ ord q ↔ Whited f V₂ ord q := by
  refine exists_congr fun e => exists_congr fun t => and_congr_right ?_
  rintro rfl
  refine and_congr_right fun he => ?_
  rw [none_of_map (h.beside (fun h' => hd e he h') t)]

theorem marked_iff_of_converted (h : Converted f V₁ ord g) (hl : Listings f V₁ ord) (q : Place) :
    Marked g V₂ ord q ↔ Marked f V₂ ord q := by
  simp only [Marked, h.dirIn_iff hl]

theorem erased_or : Erased (fun e => V₁ e ∨ V₂ e) ord q ↔ Erased V₁ ord q ∨ Erased V₂ ord q := by
  constructor
  · rintro ⟨e, n, rfl, he | he, h⟩
    · exact .inl ⟨e, n, rfl, he, h⟩
    · exact .inr ⟨e, n, rfl, he, h⟩
  · rintro (⟨e, n, rfl, he, h⟩ | ⟨e, n, rfl, he, h⟩)
    · exact ⟨e, n, rfl, .inl he, h⟩
    · exact ⟨e, n, rfl, .inr he, h⟩

theorem whited_or : Whited f (fun e => V₁ e ∨ V₂ e) ord q ↔
    Whited f V₁ ord q ∨ Whited f V₂ ord q := by
  constructor
  · rintro ⟨e, n, rfl, he | he, h⟩
    · exact .inl ⟨e, n, rfl, he, h⟩
    · exact .inr ⟨e, n, rfl, he, h⟩
  · rintro (⟨e, n, rfl, he, h⟩ | ⟨e, n, rfl, he, h⟩)
    · exact ⟨e, n, rfl, .inl he, h⟩
    · exact ⟨e, n, rfl, .inr he, h⟩

theorem marked_or :
    Marked f (fun e => V₁ e ∨ V₂ e) ord q ↔ Marked f V₁ ord q ∨ Marked f V₂ ord q := by
  constructor
  · rintro (⟨hv | hv, h⟩ | ⟨e, t, rfl, he | he, h⟩ | ⟨e, rfl, he | he, h⟩)
    · exact .inl (.inl ⟨hv, h⟩)
    · exact .inr (.inl ⟨hv, h⟩)
    · exact .inl (.inr (.inl ⟨e, t, rfl, he, h⟩))
    · exact .inr (.inr (.inl ⟨e, t, rfl, he, h⟩))
    · exact .inl (.inr (.inr ⟨e, rfl, he, h⟩))
    · exact .inr (.inr (.inr ⟨e, rfl, he, h⟩))
  · rintro ((⟨hv, h⟩ | ⟨e, t, rfl, he, h⟩ | ⟨e, rfl, he, h⟩) |
      (⟨hv, h⟩ | ⟨e, t, rfl, he, h⟩ | ⟨e, rfl, he, h⟩))
    · exact .inl ⟨.inl hv, h⟩
    · exact .inr (.inl ⟨e, t, rfl, .inl he, h⟩)
    · exact .inr (.inr ⟨e, rfl, .inl he, h⟩)
    · exact .inl ⟨.inr hv, h⟩
    · exact .inr (.inl ⟨e, t, rfl, .inr he, h⟩)
    · exact .inr (.inr ⟨e, rfl, .inr he, h⟩)

/-- A place has one parent: it is changed by the pass over that directory only. -/
theorem Erased.parent_disjoint (hd : ∀ e, V₂ e → ¬ V₁ e) (h : Erased V₁ ord q) :
    ¬ Erased V₂ ord q ∧ ¬ Whited g V₂ ord q := by
  obtain ⟨e, n, rfl, he, -⟩ := h
  refine ⟨fun ⟨e', n', h', hv, _⟩ => ?_, fun ⟨e', n', h', hv, _⟩ => ?_⟩ <;>
  · obtain ⟨rfl, -⟩ := List.append_inj' h' rfl
    exact hd _ hv he

theorem Whited.parent_disjoint (hd : ∀ e, V₂ e → ¬ V₁ e) (h : Whited f V₁ ord q) :
    ¬ Erased V₂ ord q ∧ ¬ Whited g V₂ ord q := by
  obtain ⟨e, n, rfl, he, -⟩ := h
  refine ⟨fun ⟨e', n', h', hv, _⟩ => ?_, fun ⟨e', n', h', hv, _⟩ => ?_⟩ <;>
  · obtain ⟨rfl, -⟩ := List.append_inj' h' rfl
    exact hd _ hv he

/-- Two passes, over different directories. -/
theorem Converted.comp (h₁ : Converted f V₁ ord g) (h₂ : Converted g V₂ ord k)
    (hl₁ : Listings f V₁ ord) (hl₂ : Listings f V₂ ord) (hd : ∀ e, V₂ e → ¬ V₁ e) :
    Converted f (fun e => V₁ e ∨ V₂ e) ord k := by
  have made₂ := whited_iff_of_converted h₁ hd
  have marked₂ (q : Place) : Marked g V₂ ord q ↔ Marked f V₂ ord q :=
    marked_iff_of_converted h₁ hl₁ q
  constructor
  · intro q hq
    rcases whited_or.mp hq with hq | hq
    · obtain ⟨hgone, hmade⟩ := hq.parent_disjoint (g := g) hd
      rw [h₂.same q hmade hgone fun hm =>
        hq.not_dirIn hl₁ (((marked₂ q).mp hm).dirIn hl₂), h₁.made q hq]
    · exact h₂.made q ((made₂ q).mpr hq)
  · intro q hq hnot
    rw [whited_or, not_or] at hnot
    rcases erased_or.mp hq with hq | hq
    · obtain ⟨hgone, hmade⟩ := hq.parent_disjoint (g := g) hd
      rw [h₂.same q hmade hgone fun hm =>
        hq.not_dirIn hl₁ (((marked₂ q).mp hm).dirIn hl₂), h₁.gone q hq hnot.1]
    · exact h₂.gone q hq fun h => hnot.2 ((made₂ q).mp h)
  · intro q hq hgone hmade
    rw [erased_or, not_or] at hgone
    rw [whited_or, not_or] at hmade
    have hmade₂ : ¬ Whited g V₂ ord q := fun h => hmade.2 ((made₂ q).mp h)
    by_cases hm₁ : Marked f V₁ ord q
    · have hg := h₁.marked q hm₁ hgone.1 hmade.1
      by_cases hm₂ : Marked g V₂ ord q
      · rw [h₂.marked q hm₂ hgone.2 hmade₂, hg, map_opaqueInode_idem]
      · rw [h₂.same q hmade₂ hgone.2 hm₂, hg]
    · have hm₂ := (marked₂ q).mpr ((marked_or.mp hq).resolve_left hm₁)
      rw [h₂.marked q hm₂ hgone.2 hmade₂, h₁.same q hmade.1 hgone.1 hm₁]
  · intro q hmade hgone hmark
    rw [erased_or, not_or] at hgone
    rw [whited_or, not_or] at hmade
    rw [marked_or, not_or] at hmark
    rw [h₂.same q (fun h => hmade.2 ((made₂ q).mp h)) hgone.2
      (fun h => hmark.2 ((marked₂ q).mp h)), h₁.same q hmade.1 hgone.1 hmark.1]

/-! ## One directory is converted -/

theorem erased_single : Erased (· = e) ord q ↔ ∃ n ∈ ord e, IsMarker n ∧ q = e ++ [n] := by
  constructor
  · rintro ⟨_, n, rfl, rfl, hn, hm⟩
    exact ⟨n, hn, hm, rfl⟩
  · rintro ⟨n, hn, hm, rfl⟩
    exact ⟨e, n, rfl, rfl, hn, hm⟩

theorem converted_processDir_hidden (hl : Listings f (· = e) ord) (ho : opaqueMarker ∈ ord e) :
    Converted f (· = e) ord (processDir e (ord e) f) := by
  have hfold (q : Place) : processDir e (ord e) f q =
      if ∃ n ∈ ord e, IsMarker n ∧ q = e ++ [n] then none else makeOpaque e f q := by
    rw [processDir, if_pos ho, decide_eq_true ho, foldl_handleEntry_hidden]
  refine ⟨fun q hq => ?_, fun q hq _ => ?_, fun q hq hgone _ => ?_, fun q _ hgone hmark => ?_⟩
  · obtain ⟨_, _, _, h, hno, _⟩ := hq
    exact absurd (h ▸ ho) hno
  · rw [hfold, if_pos (erased_single.mp hq)]
  · rw [hfold, if_neg fun h => hgone (erased_single.mpr h)]
    rcases hq with ⟨rfl, -⟩ | ⟨_, _, _, h, hno, _⟩ | ⟨_, _, h, hno, _⟩
    · exact makeOpaque_self ..
    · exact absurd (h ▸ ho) hno
    · exact absurd (h ▸ ho) hno
  · rw [hfold, if_neg fun h => hgone (erased_single.mpr h)]
    exact makeOpaque_of_ne (fun h => hmark (.inl ⟨h, .inl (h ▸ ho)⟩)) f

theorem converted_processDir_clear (hl : Listings f (· = e) ord)
    (ho : opaqueMarker ∉ ord e) : Converted f (· = e) ord (processDir e (ord e) f) := by
  have hplain (n : Bytes) (hn : n ∈ ord e) : Plain n := ((hl.mem e rfl n).mp hn).1
  have hrun : processDir e (ord e) f = (ord e).foldl (handleEntry e false) f := by
    rw [processDir, if_neg ho, decide_eq_false ho]
  have hchild {t : Bytes} (ht : Plain t) := foldl_handleEntry_child (hl.nodup e rfl) hplain ht e f
  rw [← hrun] at hchild
  have hup {q : Place} := foldl_handleEntry_up hplain f (e := e) (q := q)
  rw [← hrun] at hup
  -- at an entry, in terms of what it was
  have gone {t : Bytes} : Erased (· = e) ord (e ++ [t]) ↔ t ∈ ord e ∧ IsMarker t := by
    rw [erased_single]
    constructor
    · rintro ⟨n, hn, hm, h⟩
      obtain ⟨-, h⟩ := List.append_inj' h rfl
      cases h
      exact ⟨hn, hm⟩
    · rintro ⟨hn, hm⟩
      exact ⟨t, hn, hm, rfl⟩
  have made {t : Bytes} (ht : Plain t) : Whited f (· = e) ord (e ++ [t]) ↔
      markerOf t ∈ ord e ∧ (f (e ++ [t]) = none ∨
        t ∈ ord e ∧ IsMarker t ∧ [t, markerOf t].Sublist (ord e)) := by
    constructor
    · rintro ⟨_, _, h, rfl, -, -, hm⟩
      obtain ⟨-, h⟩ := List.append_inj' h rfl
      cases h
      exact hm
    · exact fun h => ⟨e, t, rfl, rfl, ho, ht, h⟩
  have present {t : Bytes} (ht : t ∈ ord e) : f (e ++ [t]) ≠ none := ((hl.mem e rfl t).mp ht).2
  have off {q : Place} (hq : ∀ t, Plain t → q ≠ e ++ [t]) : Marked f (· = e) ord q ↔
      q = e ∧ markerOf dot ∈ ord e ∨ q = e.dropLast ∧ markerOf dotdot ∈ ord e := by
    constructor
    · rintro (⟨rfl, h | h⟩ | ⟨_, t, rfl, rfl, -, ht, -⟩ | ⟨_, rfl, rfl, -, h⟩)
      · exact absurd h ho
      · exact .inl ⟨rfl, h⟩
      · exact absurd rfl (hq t ht)
      · exact .inr ⟨rfl, h⟩
    · rintro (⟨rfl, h⟩ | ⟨rfl, h⟩)
      · exact .inl ⟨rfl, .inr h⟩
      · exact .inr (.inr ⟨e, rfl, rfl, ho, h⟩)
  refine ⟨fun q hq => ?_, fun q hq hnot => ?_, fun q hq hgone hnot => ?_,
    fun q hnot hgone hmark => ?_⟩
  · obtain ⟨_, t, rfl, rfl, -, ht, hm⟩ := id hq
    rw [hchild ht]
    rcases hm with ⟨hm, hnone | ⟨hin, hmk, hsub⟩⟩
    · rw [if_neg fun h => present h.1 hnone, if_pos hm, hnone]
      rfl
    · rw [if_pos ⟨hin, hmk⟩, if_pos hsub]
  · obtain ⟨n, hn, hm, rfl⟩ := erased_single.mp hq
    rw [hchild (hplain n hn), if_pos ⟨hn, hm⟩, if_neg fun hsub => hnot ((made (hplain n hn)).mpr
      ⟨hsub.subset (by simp), .inr ⟨hn, hm, hsub⟩⟩)]
  · by_cases hc : ∃ t, Plain t ∧ q = e ++ [t]
    · obtain ⟨t, ht, rfl⟩ := hc
      obtain ⟨m, hm⟩ := hq.dirIn hl
      have hmk : markerOf t ∈ ord e := by
        rcases hq with ⟨h, -⟩ | ⟨_, _, h, rfl, -, -, hm, -⟩ | ⟨_, h, rfl, -⟩
        · exact absurd h (snoc_ne_self e t)
        · obtain ⟨-, h⟩ := List.append_inj' h rfl
          cases h
          exact hm
        · exact absurd h (snoc_ne_dropLast _ t)
      rw [hchild ht, if_neg fun h => hgone (gone.mpr h), if_pos hmk, hm]
      rfl
    · push Not at hc
      rw [hup hc, if_pos ((off hc).mp hq)]
  · by_cases hc : ∃ t, Plain t ∧ q = e ++ [t]
    · obtain ⟨t, ht, rfl⟩ := hc
      rw [hchild ht, if_neg fun h => hgone (gone.mpr h)]
      split
      · rename_i hmk
        -- the target is there, and is no directory
        cases hf : f (e ++ [t]) with
        | none => exact absurd ((made ht).mpr ⟨hmk, .inl hf⟩) hnot
        | some i =>
          cases i with
          | inl i => rfl
          | inr m => exact absurd (.inr (.inl ⟨e, t, rfl, rfl, ho, ht, hmk, m, hf⟩)) hmark
      · rfl
    · push Not at hc
      rw [hup hc, if_neg fun h => hmark ((off hc).mpr h)]

/-- The pass over one directory. -/
theorem converted_processDir (hl : Listings f (· = e) ord) :
    Converted f (· = e) ord (processDir e (ord e) f) := by
  by_cases ho : opaqueMarker ∈ ord e
  · exact converted_processDir_hidden hl ho
  · exact converted_processDir_clear hl ho

end Many

end Pakstak
