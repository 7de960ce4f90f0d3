/-
  Trees of named entries: leaves that carry a label in `F`, directories that carry a
  label in `D` and list their entries by name.

  `get x p` is the subtree at the path `p`, `put x p o` replaces it (`some`) or removes
  it (`none`), `find x p` is the label at `p` without what lies below.

  Proved:
  * `get_put_append`, `get_put_none`: what `put` leaves at and below its path.
  * `find_put_off`, `get_put_of_disjoint`: everything else is unchanged.
  * `AgreeOff p x y` (`y` is `x` outside the subtree at `p`) is a preorder that contains
    `put` (`agreeOff_put`).
-/
import Mathlib.Data.List.Dedup
import Mathlib.Data.List.Infix

/-- A leaf, or a directory with named entries. Of entries of one name the first counts. -/
inductive FileTree (N F D : Type) : Type
  | leaf (f : F)
  | dir (d : D) (kids : List (N × FileTree N F D))

namespace FileTree

variable {N F D : Type}

/-! ## One directory -/

/-- The label of the root. -/
def label : FileTree N F D → F ⊕ D
  | leaf f => .inl f
  | dir d _ => .inr d

def isDir : FileTree N F D → Bool
  | leaf _ => false
  | dir _ _ => true

variable [DecidableEq N]

/-- The entry called `n`. -/
def kid (n : N) : FileTree N F D → Option (FileTree N F D)
  | leaf _ => none
  | dir _ kids => kids.lookup n

/-- The names of the entries, each once. -/
def names : FileTree N F D → List N
  | leaf _ => []
  | dir _ kids => (kids.map Prod.fst).dedup

theorem mem_of_kid {d : D} {kids : List (N × FileTree N F D)} {n : N} {t : FileTree N F D}
    (h : (dir d kids).kid n = some t) : (n, t) ∈ kids := by
  obtain ⟨l₁, l₂, rfl, -⟩ := List.lookup_eq_some_iff.mp h
  simp

/-- Remove (`none`) or set (`some`) the entry called `n`. -/
def setKid (n : N) (o : Option (FileTree N F D)) : FileTree N F D → FileTree N F D
  | leaf f => leaf f
  | dir d kids =>
    dir d ((o.map fun t => (n, t)).toList ++ kids.filter fun e => e.1 ≠ n)

theorem lookup_filter_ne {K α : Type} [BEq K] [LawfulBEq K] [DecidableEq K] (kids : List (K × α))
    (n m : K) :
    (kids.filter fun e => e.1 ≠ n).lookup m = if m = n then none else kids.lookup m := by
  induction kids with
  | nil => simp
  | cons e kids ih =>
    obtain ⟨a, t⟩ := e
    by_cases ha : a = n
    · subst ha
      rw [List.filter_cons_of_neg (by simp), ih]
      by_cases hm : m = a
      · simp [hm]
      · simp [hm, List.lookup_cons, beq_eq_false_iff_ne.mpr hm]
    · rw [List.filter_cons_of_pos (by simpa using ha), List.lookup_cons, List.lookup_cons, ih]
      by_cases hm : m = a
      · subst hm; simp [ha]
      · simp [beq_eq_false_iff_ne.mpr hm]

theorem lookup_isSome_iff (kids : List (N × FileTree N F D)) (n : N) :
    (kids.lookup n).isSome ↔ n ∈ kids.map Prod.fst := by
  induction kids with
  | nil => simp
  | cons e kids ih =>
    obtain ⟨a, t⟩ := e
    rw [List.lookup_cons, List.map_cons, List.mem_cons, ← ih]
    by_cases ha : n = a
    · simp [ha]
    · simp [beq_eq_false_iff_ne.mpr ha, ha]

theorem mem_names (x : FileTree N F D) (n : N) : n ∈ x.names ↔ (x.kid n).isSome := by
  cases x with
  | leaf f => simp [names, kid]
  | dir d kids => rw [names, List.mem_dedup, kid, lookup_isSome_iff]

theorem names_nodup (x : FileTree N F D) : x.names.Nodup := by
  cases x with
  | leaf f => exact List.nodup_nil
  | dir d kids => exact List.nodup_dedup _

theorem kid_setKid (x : FileTree N F D) (hx : x.isDir) (n m : N) (o : Option (FileTree N F D)) :
    (x.setKid n o).kid m = if m = n then o else x.kid m := by
  cases x with
  | leaf f => simp [isDir] at hx
  | dir d kids =>
    simp only [setKid, kid]
    cases o with
    | none => simpa using lookup_filter_ne kids n m
    | some t =>
      simp only [Option.map_some, Option.toList_some, List.singleton_append, List.lookup_cons,
        lookup_filter_ne]
      by_cases hm : m = n
      · simp [hm]
      · simp [beq_eq_false_iff_ne.mpr hm, hm]

theorem kid_setKid_of_ne (x : FileTree N F D) {n m : N} (h : m ≠ n)
    (o : Option (FileTree N F D)) : (x.setKid n o).kid m = x.kid m := by
  cases x with
  | leaf f => rfl
  | dir d kids => rw [kid_setKid _ rfl, if_neg h]

@[simp] theorem setKid_setKid (x : FileTree N F D) (n : N) (o o' : Option (FileTree N F D)) :
    (x.setKid n o).setKid n o' = x.setKid n o' := by
  cases x with
  | leaf f => rfl
  | dir d kids => cases o <;> simp [setKid, List.filter_filter]

@[simp] theorem label_setKid (x : FileTree N F D) (n : N) (o : Option (FileTree N F D)) :
    (x.setKid n o).label = x.label := by
  cases x <;> rfl

@[simp] theorem isDir_setKid (x : FileTree N F D) (n : N) (o : Option (FileTree N F D)) :
    (x.setKid n o).isDir = x.isDir := by
  cases x <;> rfl

theorem isDir_of_kid {x c : FileTree N F D} {n : N} (h : x.kid n = some c) : x.isDir := by
  cases x with
  | leaf f => cases h
  | dir d kids => rfl

/-! ## Paths -/

/-- The subtree at `p`. -/
def get : FileTree N F D → List N → Option (FileTree N F D)
  | x, [] => some x
  | x, n :: p => (x.kid n).bind fun c => c.get p

/-- The label at `p`. -/
def find (x : FileTree N F D) (p : List N) : Option (F ⊕ D) := (x.get p).map label

/-- Replace or remove the subtree at `p`. Where the parent of `p` is no directory, nothing
    changes; the root is never removed. -/
def put : FileTree N F D → List N → Option (FileTree N F D) → FileTree N F D
  | x, [], o => o.getD x
  | x, [n], o => x.setKid n o
  | x, n :: m :: p, o =>
    match x.kid n with
    | none => x
    | some c => x.setKid n (some (c.put (m :: p) o))

/-- There is a directory at `p`. -/
def DirAt (x : FileTree N F D) (p : List N) : Prop := ∃ d kids, x.get p = some (dir d kids)

@[simp] theorem get_nil (x : FileTree N F D) : x.get [] = some x := by cases x <;> rfl

theorem get_cons (x : FileTree N F D) (n : N) (p : List N) :
    x.get (n :: p) = (x.kid n).bind fun c => c.get p := by cases x <;> rfl

@[simp] theorem put_nil (x : FileTree N F D) (o : Option (FileTree N F D)) :
    x.put [] o = o.getD x := by cases x <;> rfl

@[simp] theorem put_singleton (x : FileTree N F D) (n : N) (o : Option (FileTree N F D)) :
    x.put [n] o = x.setKid n o := by cases x <;> rfl

theorem put_cons_of_none {x : FileTree N F D} {n : N} {p : List N} (hp : p ≠ [])
    (h : x.kid n = none) (o : Option (FileTree N F D)) : x.put (n :: p) o = x := by
  cases p with
  | nil => exact absurd rfl hp
  | cons m p => cases x <;> simp [put, h]

theorem put_cons_of_some {x c : FileTree N F D} {n : N} {p : List N} (hp : p ≠ [])
    (h : x.kid n = some c) (o : Option (FileTree N F D)) :
    x.put (n :: p) o = x.setKid n (some (c.put p o)) := by
  cases p with
  | nil => exact absurd rfl hp
  | cons m p => cases x <;> simp [put, h]

theorem get_append (x : FileTree N F D) (p q : List N) :
    x.get (p ++ q) = (x.get p).bind fun c => c.get q := by
  induction p generalizing x with
  | nil => simp
  | cons n p ih =>
    rw [List.cons_append, get_cons, get_cons]
    cases x.kid n with
    | none => rfl
    | some c => exact ih c

theorem get_append_of_some {x t : FileTree N F D} {p : List N} (h : x.get p = some t)
    (q : List N) : x.get (p ++ q) = t.get q := by
  rw [get_append, h]; rfl

theorem get_append_of_none {x : FileTree N F D} {p : List N} (h : x.get p = none)
    (q : List N) : x.get (p ++ q) = none := by
  rw [get_append, h]; rfl

theorem find_eq_some_iff {x : FileTree N F D} {p : List N} {l : F ⊕ D} :
    x.find p = some l ↔ ∃ t, x.get p = some t ∧ t.label = l := by
  simp [find]

theorem find_eq_none_iff {x : FileTree N F D} {p : List N} : x.find p = none ↔ x.get p = none := by
  simp [find]

theorem dirAt_iff_find {x : FileTree N F D} {p : List N} :
    x.DirAt p ↔ ∃ d, x.find p = some (.inr d) := by
  constructor
  · rintro ⟨d, kids, h⟩
    exact ⟨d, find_eq_some_iff.mpr ⟨_, h, rfl⟩⟩
  · rintro ⟨d, h⟩
    obtain ⟨t, ht, hl⟩ := find_eq_some_iff.mp h
    cases t with
    | leaf f => cases hl
    | dir d' kids => exact ⟨d', kids, ht⟩

/-- What has an entry is a directory. -/
theorem dirAt_of_get_append {x t : FileTree N F D} {p q : List N} (h : x.get (p ++ q) = some t)
    (hq : q ≠ []) : x.DirAt p := by
  rw [get_append] at h
  cases hp : x.get p with
  | none => simp [hp] at h
  | some c =>
    cases q with
    | nil => exact absurd rfl hq
    | cons n q =>
      cases c with
      | leaf f => simp [hp, get_cons, kid] at h
      | dir d kids => exact ⟨d, kids, hp⟩

theorem dirAt_above {x : FileTree N F D} {p q : List N} (h : x.DirAt q) (hp : p <+: q) :
    x.DirAt p := by
  obtain ⟨r, rfl⟩ := hp
  obtain ⟨d, kids, hg⟩ := h
  by_cases hr : r = []
  · subst hr
    rw [List.append_nil] at hg
    exact ⟨d, kids, hg⟩
  · exact dirAt_of_get_append hg hr

/-! ## What `put` changes -/

/-- The subtree put at `p`, below a directory, is there. -/
theorem get_put_append {x : FileTree N F D} {p : List N} {n : N} (h : x.DirAt p)
    (t : FileTree N F D) (q : List N) :
    (x.put (p ++ [n]) (some t)).get (p ++ n :: q) = t.get q := by
  induction p generalizing x with
  | nil =>
    obtain ⟨d, kids, hx⟩ := h
    rw [get_nil, Option.some.injEq] at hx
    subst hx
    rw [List.nil_append, List.nil_append, put_singleton, get_cons, kid_setKid _ rfl, if_pos rfl]
    rfl
  | cons m p ih =>
    obtain ⟨d, kids, hx⟩ := h
    rw [get_cons] at hx
    cases hk : x.kid m with
    | none => simp [hk] at hx
    | some c =>
      rw [hk] at hx
      rw [List.cons_append, List.cons_append, put_cons_of_some (by simp) hk, get_cons,
        kid_setKid _ (isDir_of_kid hk), if_pos rfl]
      exact ih ⟨d, kids, hx⟩

/-- Nothing is left at or below a removed path. -/
theorem get_put_none (x : FileTree N F D) (p : List N) (n : N) (q : List N) :
    (x.put (p ++ [n]) none).get (p ++ n :: q) = none := by
  induction p generalizing x with
  | nil =>
    rw [List.nil_append, List.nil_append, put_singleton, get_cons]
    cases x with
    | leaf f => rfl
    | dir d kids => rw [kid_setKid _ rfl, if_pos rfl]; rfl
  | cons m p ih =>
    rw [List.cons_append, List.cons_append]
    cases hk : x.kid m with
    | none => rw [put_cons_of_none (by simp) hk, get_cons, hk]; rfl
    | some c =>
      rw [put_cons_of_some (by simp) hk, get_cons, kid_setKid _ (isDir_of_kid hk), if_pos rfl]
      exact ih c

/-- Away from `p`, subtrees are unchanged. -/
theorem get_put_of_disjoint {x : FileTree N F D} {p q : List N} (h₁ : ¬ p <+: q)
    (h₂ : ¬ q <+: p) (o : Option (FileTree N F D)) : (x.put p o).get q = x.get q := by
  induction p generalizing x q with
  | nil => exact absurd List.nil_prefix h₁
  | cons n p ih =>
    cases q with
    | nil => exact absurd List.nil_prefix h₂
    | cons m q =>
      rw [get_cons, get_cons]
      by_cases hp : p = []
      · subst hp
        have hm : m ≠ n := fun hm => h₁ ⟨q, by rw [hm]; rfl⟩
        rw [put_singleton, kid_setKid_of_ne _ hm]
      · cases hk : x.kid n with
        | none => rw [put_cons_of_none hp hk]
        | some c =>
          rw [put_cons_of_some hp hk]
          by_cases hm : m = n
          · subst hm
            rw [kid_setKid _ (isDir_of_kid hk), if_pos rfl, hk]
            exact ih (fun h => h₁ ((List.prefix_cons_inj m).mpr h))
              (fun h => h₂ ((List.prefix_cons_inj m).mpr h))
          · rw [kid_setKid_of_ne _ hm]

/-- What `put` leaves of a subtree that its path goes through. -/
theorem get_put_below (x : FileTree N F D) (p : List N) {q : List N} (hq : q ≠ [])
    (o : Option (FileTree N F D)) :
    (x.put (p ++ q) o).get p = (x.get p).map fun t => t.put q o := by
  induction p generalizing x with
  | nil => simp
  | cons n p ih =>
    have hpq : p ++ q ≠ [] := by simp [hq]
    rw [List.cons_append]
    cases hk : x.kid n with
    | none => rw [put_cons_of_none hpq hk, get_cons, hk]; rfl
    | some c =>
      rw [put_cons_of_some hpq hk, get_cons, kid_setKid _ (isDir_of_kid hk), if_pos rfl, get_cons,
        hk]
      exact ih c

/-- Where there is no directory, nothing can be put. -/
theorem get_put_of_not_dirAt {x : FileTree N F D} {p : List N} {n : N} (h : ¬ x.DirAt p)
    (o : Option (FileTree N F D)) (q : List N) : (x.put (p ++ [n]) o).get (p ++ n :: q) = none := by
  cases hg : (x.put (p ++ [n]) o).get (p ++ n :: q) with
  | none => rfl
  | some t =>
    have hd := dirAt_of_get_append hg (by simp)
    obtain ⟨d, kids, hp⟩ := hd
    rw [get_put_below x p (by simp)] at hp
    obtain ⟨t', ht', he⟩ := Option.map_eq_some_iff.mp hp
    cases t' with
    | leaf f => cases he
    | dir d' kids' => exact absurd ⟨d', kids', ht'⟩ h

/-- A removal makes nothing. -/
theorem get_put_none_of_none {x : FileTree N F D} {p q : List N} (h : x.get q = none) :
    (x.put p none).get q = none := by
  by_cases hpq : p <+: q
  · obtain ⟨r, rfl⟩ := hpq
    rcases List.eq_nil_or_concat p with rfl | ⟨d, n, rfl⟩
    · simpa using h
    · rw [List.concat_eq_append, List.append_assoc, List.singleton_append]
      exact get_put_none x d n r
  by_cases hqp : q <+: p
  · obtain ⟨r, rfl⟩ := hqp
    have hr : r ≠ [] := by
      rintro rfl
      exact hpq (by simp)
    rw [get_put_below x q hr, h]
    rfl
  · rw [get_put_of_disjoint hpq hqp, h]

@[simp] theorem label_put (x : FileTree N F D) (n : N) (p : List N)
    (o : Option (FileTree N F D)) : (x.put (n :: p) o).label = x.label := by
  by_cases hp : p = []
  · subst hp
    rw [put_singleton, label_setKid]
  · cases hk : x.kid n with
    | none => rw [put_cons_of_none hp hk]
    | some c => rw [put_cons_of_some hp hk, label_setKid]

/-- Below a directory it stays a directory. -/
theorem exists_put_dir (d : D) (kids : List (N × FileTree N F D)) {p : List N} (hp : p ≠ [])
    (o : Option (FileTree N F D)) : ∃ kids', (dir d kids).put p o = dir d kids' := by
  obtain ⟨n, q, rfl⟩ := List.exists_cons_of_ne_nil hp
  have hlabel := label_put (dir d kids) n q o
  cases hput : (dir d kids).put (n :: q) o with
  | leaf f => simp [hput, label] at hlabel
  | dir d' kids' =>
    obtain rfl : d' = d := by simpa [hput, label] using hlabel
    exact ⟨kids', rfl⟩

/-- Not at or below `p`, labels are unchanged. -/
theorem find_put_off {x : FileTree N F D} {p q : List N} (h : ¬ p <+: q)
    (o : Option (FileTree N F D)) : (x.put p o).find q = x.find q := by
  induction q generalizing x p with
  | nil =>
    cases p with
    | nil => exact absurd List.nil_prefix h
    | cons n p => simp [find]
  | cons m q ih =>
    by_cases hq : (m :: q) <+: p
    · obtain ⟨r, rfl⟩ := hq
      have hr : q ++ r ≠ [] := by
        rintro he
        obtain ⟨rfl, rfl⟩ := List.append_eq_nil_iff.mp he
        exact h (by simp)
      rw [List.cons_append]
      cases hk : x.kid m with
      | none => rw [put_cons_of_none hr hk]
      | some c =>
        have hc := ih (x := c) (p := q ++ r) fun hp => h ((List.prefix_cons_inj m).mpr hp)
        rw [put_cons_of_some hr hk, find, get_cons, kid_setKid _ (isDir_of_kid hk), if_pos rfl,
          find, get_cons, hk]
        exact hc
    · rw [find, find, get_put_of_disjoint h hq]

/-- A removal leaves what is at `q` as it is, or nothing. -/
theorem get_put_none_or (x : FileTree N F D) (p q : List N) :
    (x.put p none).find q = x.find q ∨ (x.put p none).get q = none := by
  by_cases hpq : p <+: q
  · obtain ⟨r, rfl⟩ := hpq
    rcases List.eq_nil_or_concat p with rfl | ⟨d, n, rfl⟩
    · exact .inl (by simp)
    · rw [List.concat_eq_append, List.append_assoc, List.singleton_append]
      exact .inr (get_put_none x d n r)
  · exact .inl (find_put_off hpq none)

theorem dirAt_put_off {x : FileTree N F D} {p q : List N} (h : ¬ p <+: q)
    (o : Option (FileTree N F D)) : (x.put p o).DirAt q ↔ x.DirAt q := by
  rw [dirAt_iff_find, dirAt_iff_find, find_put_off h]

/-! ## Agreement outside a subtree -/

/-- `y` is `x` outside the subtree at `p`. -/
def AgreeOff (p : List N) (x y : FileTree N F D) : Prop :=
  ∀ q, ¬ p <+: q → y.find q = x.find q ∧ (¬ q <+: p → y.get q = x.get q)

theorem AgreeOff.refl (p : List N) (x : FileTree N F D) : AgreeOff p x x :=
  fun _ _ => ⟨rfl, fun _ => rfl⟩

theorem AgreeOff.trans {p : List N} {x y z : FileTree N F D} (h : AgreeOff p x y)
    (h' : AgreeOff p y z) : AgreeOff p x z := fun q hq =>
  ⟨(h' q hq).1.trans (h q hq).1, fun hq' => ((h' q hq).2 hq').trans ((h q hq).2 hq')⟩

theorem AgreeOff.symm {p : List N} {x y : FileTree N F D} (h : AgreeOff p x y) :
    AgreeOff p y x := fun q hq => ⟨(h q hq).1.symm, fun hq' => ((h q hq).2 hq').symm⟩

/-- Agreement outside a subtree is agreement outside any larger one. -/
theorem AgreeOff.mono {p p' : List N} {x y : FileTree N F D} (h : AgreeOff p' x y)
    (hp : p <+: p') : AgreeOff p x y := by
  intro q hq
  have hq' : ¬ p' <+: q := fun hpq => hq (hp.trans hpq)
  refine ⟨(h q hq').1, fun hqp => (h q hq').2 fun hqp' => hqp ?_⟩
  rcases List.prefix_or_prefix_of_prefix hp hqp' with h | h
  · exact absurd h hq
  · exact h

theorem agreeOff_put {p p' : List N} (hp : p <+: p') (x : FileTree N F D)
    (o : Option (FileTree N F D)) : AgreeOff p x (x.put p' o) :=
  AgreeOff.mono (fun _ hq => ⟨find_put_off hq o, fun hq' =>
    get_put_of_disjoint hq hq' o⟩) hp

theorem AgreeOff.dirAt {p q : List N} {x y : FileTree N F D} (h : AgreeOff p x y)
    (hq : ¬ p <+: q) : y.DirAt q ↔ x.DirAt q := by
  rw [dirAt_iff_find, dirAt_iff_find, (h q hq).1]

/-- The same change to two trees that agree outside `p` keeps the agreement. -/
theorem AgreeOff.put {p c : List N} {x y : FileTree N F D} (h : AgreeOff p x y) (hc : ¬ p <+: c)
    (o : Option (FileTree N F D)) : AgreeOff p (x.put c o) (y.put c o) := by
  have at_or_below (r : List N) : (y.put c o).get (c ++ r) = (x.put c o).get (c ++ r) ∨
      (c = [] ∧ o = none) := by
    rcases List.eq_nil_or_concat c with rfl | ⟨d, n, rfl⟩
    · cases o with
      | none => exact .inr ⟨rfl, rfl⟩
      | some t => exact .inl (by simp)
    · rw [List.concat_eq_append] at *
      have hd : ¬ p <+: d := fun hpd => hc (hpd.trans (List.prefix_append _ _))
      rw [List.append_assoc, List.singleton_append]
      refine .inl ?_
      cases o with
      | none => rw [get_put_none, get_put_none]
      | some t =>
        by_cases hx : x.DirAt d
        · rw [get_put_append hx, get_put_append ((h.dirAt hd).mpr hx)]
        · rw [get_put_of_not_dirAt hx, get_put_of_not_dirAt fun hy => hx ((h.dirAt hd).mp hy)]
  intro q hq
  by_cases hcq : c <+: q
  · obtain ⟨r, rfl⟩ := hcq
    rcases at_or_below r with he | ⟨rfl, rfl⟩
    · exact ⟨by rw [find, find, he], fun _ => he⟩
    · simpa using h r hq
  · refine ⟨?_, fun hqp => ?_⟩
    · rw [find_put_off hcq, find_put_off hcq]
      exact (h q hq).1
    · by_cases hqc : q <+: c
      · obtain ⟨r, rfl⟩ := hqc
        have hr : r ≠ [] := by
          rintro rfl
          exact hcq (by simp)
        rw [get_put_below _ _ hr, get_put_below _ _ hr, (h q hq).2 hqp]
      · rw [get_put_of_disjoint hcq hqc, get_put_of_disjoint hcq hqc]
        exact (h q hq).2 hqp

end FileTree
