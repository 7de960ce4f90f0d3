/-
  A union of trees, looked up as a union mount does.

  A layer says what it has at each path; a stack has the topmost layer in front. A lookup
  goes down one name at a time: at each directory it keeps the layers that take part there.
  The topmost layer that has the name decides. A whiteout hides the name, and a directory
  merges with those of the layers below, down to a whiteout, a non-directory or an opaque
  directory.

  Proved:
  * `lookup_cons`: a lookup is decided by the topmost layer that has the path or cuts it off,
    and by no other.
  * `lookup_eq_findSome`: so it is the first answer of the layers, asked one by one.
  * `findSome_dedup`: of layers that occur more than once, the lower ones do not matter.
-/
import Mathlib.Data.List.Dedup
import Mathlib.Data.List.Infix

namespace Overlay

variable {N I : Type}

/-- What a lookup has to know of an entry. -/
structure Rules (I : Type) where
  isDir : I → Bool
  isOpaque : I → Bool
  isWhite : I → Bool
  not_dir_of_white : ∀ i, isWhite i → isDir i = false

/-- What a layer has at each path. -/
abbrev Layer (N I : Type) : Type := List N → Option I

/-- The layer below its entry `n`. -/
def sub (n : N) (f : Layer N I) : Layer N I := fun p => f (n :: p)

variable (R : Rules I)

/-- The layers that merge with a directory above them. -/
def merging : List (Layer N I) → List (Layer N I)
  | [] => []
  | f :: fs =>
    match f [] with
    | none => merging fs
    | some i => if R.isDir i then (if R.isOpaque i then [f] else f :: merging fs) else []

/-- The layers that take part in what the stack shows at its root. -/
def live : List (Layer N I) → List (Layer N I)
  | [] => []
  | f :: fs =>
    match f [] with
    | none => live fs
    | some i =>
      if R.isWhite i then []
      else if R.isDir i ∧ ¬ R.isOpaque i then f :: merging R fs
      else [f]

/-- What the stack shows at a path. -/
def lookup : List (Layer N I) → Layer N I
  | fs, [] => (live R fs).head?.bind fun f => f []
  | fs, n :: p => lookup ((live R fs).map (sub n)) p

/-! ## One layer at a time -/

/-- There is something only below directories. -/
def IsTree (f : Layer N I) : Prop :=
  ∀ p n, f (p ++ [n]) ≠ none → ∃ i, f p = some i ∧ R.isDir i

/-- The layer cuts off those below it at its root. -/
def cuts (f : Layer N I) : Bool := (f []).any fun i => !R.isDir i || R.isOpaque i

/-- The layer cuts off those below it somewhere on the path. -/
def covers (f : Layer N I) : List N → Bool
  | [] => cuts R f
  | n :: p => cuts R f || covers (sub n f) p

/-- What a layer says about a path: nothing, if the layers below are to be asked. -/
def answer (f : Layer N I) (p : List N) : Option (Option I) :=
  match f p with
  | some i => some (if R.isWhite i then none else some i)
  | none => if covers R f p then some none else none

variable {R} {f : Layer N I} {fs : List (Layer N I)} {p : List N}

theorem IsTree.sub (h : IsTree R f) (n : N) : IsTree R (sub n f) := fun p m hp =>
  h (n :: p) m hp

theorem IsTree.root {n : N} (h : IsTree R f) (hp : f (n :: p) ≠ none) :
    ∃ i, f [] = some i ∧ R.isDir i := by
  induction p using List.reverseRecOn with
  | nil => exact h [] n hp
  | append_singleton p m ih =>
    obtain ⟨i, hi, -⟩ := h (n :: p) m hp
    exact ih (by rw [hi]; simp)

theorem cuts_iff : cuts R f ↔ ∃ i, f [] = some i ∧ (R.isDir i = false ∨ R.isOpaque i) := by
  rw [cuts]
  cases f [] <;> simp

theorem covers_iff : covers R f p ↔
    ∃ q, q <+: p ∧ ∃ i, f q = some i ∧ (R.isDir i = false ∨ R.isOpaque i) := by
  induction p generalizing f with
  | nil => simp [covers, cuts_iff]
  | cons n p ih =>
    rw [covers, Bool.or_eq_true, cuts_iff, @ih (sub n f)]
    constructor
    · rintro (h | ⟨q, hq, h⟩)
      · exact ⟨[], List.nil_prefix, h⟩
      · exact ⟨n :: q, List.cons_prefix_cons.mpr ⟨rfl, hq⟩, h⟩
    · rintro ⟨q, hq, h⟩
      cases q with
      | nil => exact .inl h
      | cons m q =>
        obtain ⟨rfl, hle⟩ := List.cons_prefix_cons.mp hq
        exact .inr ⟨q, hle, h⟩

theorem lookup_nil_stack (p : List N) : lookup R ([] : List (Layer N I)) p = none := by
  induction p with
  | nil => rfl
  | cons n p ih => exact ih

/-- A layer that has nothing changes nothing. -/
theorem lookup_empty (h : ∀ q, f q = none) (fs : List (Layer N I)) (p : List N) :
    lookup R (f :: fs) p = lookup R fs p := by
  have hlive : live R (f :: fs) = live R fs := by
    simp only [live, h]
  cases p with
  | nil => rw [lookup, hlive, lookup]
  | cons n p => rw [lookup, hlive, lookup]

theorem mem_of_mem_merging {g : Layer N I} (h : g ∈ merging R fs) : g ∈ fs := by
  induction fs with
  | nil => cases h
  | cons f fs ih =>
    rw [merging] at h
    split at h
    · exact List.mem_cons_of_mem _ (ih h)
    · split at h
      · split at h
        · rw [List.mem_singleton.mp h]
          exact List.mem_cons_self
        · rcases List.mem_cons.mp h with rfl | h
          · exact List.mem_cons_self
          · exact List.mem_cons_of_mem _ (ih h)
      · cases h

/-- Below a directory it makes no difference that the first entry found there is no directory:
    nothing is below it. -/
theorem lookup_merging (hfs : ∀ g ∈ fs, IsTree R g) (n : N) (p : List N) :
    lookup R ((merging R fs).map (sub n)) p = lookup R ((live R fs).map (sub n)) p := by
  induction fs with
  | nil => rfl
  | cons f fs ih =>
    have hf : IsTree R f := hfs f (by simp)
    rw [merging, live]
    split
    · exact ih fun g hg => hfs g (by simp [hg])
    · rename_i i hi
      by_cases hd : R.isDir i
      · have hw : ¬ R.isWhite i := fun h => by
          rw [R.not_dir_of_white i h] at hd
          cases hd
        rw [if_pos hd, if_neg hw]
        by_cases ho : R.isOpaque i
        · rw [if_pos ho, if_neg fun h => h.2 ho]
        · rw [if_neg ho, if_pos ⟨hd, ho⟩]
      · rw [if_neg hd]
        split
        · rfl
        · rw [if_neg fun h => hd h.1, List.map_cons, List.map_nil, lookup_empty fun q => ?_]
          by_contra hq
          obtain ⟨j, hj, hdj⟩ := hf.root hq
          rw [hi] at hj
          cases hj
          exact hd hdj

/-- The topmost layer decides, or those below do. -/
theorem lookup_cons (hf : IsTree R f) (hfs : ∀ g ∈ fs, IsTree R g) (p : List N) :
    lookup R (f :: fs) p = (answer R f p).getD (lookup R fs p) := by
  induction p generalizing f fs with
  | nil =>
    rw [lookup, live, answer, covers, cuts]
    cases hi : f [] with
    | none => simp [lookup]
    | some i =>
      by_cases hw : R.isWhite i
      · simp [hw]
      · by_cases hd : R.isDir i ∧ ¬ R.isOpaque i
        · simp [hw, hd, hi]
        · simp only [hw, Bool.false_eq_true, if_false, if_neg hd]
          simp [hi]
  | cons n p ih =>
    have answer_sub (hcut : cuts R f = false) : answer R f (n :: p) = answer R (sub n f) p := by
      rw [answer, answer, covers, hcut, Bool.false_or]
      rfl
    have gone (h : ∀ i, f [] = some i → R.isDir i = false) : f (n :: p) = none := by
      by_contra hne
      obtain ⟨i, hi, hd⟩ := hf.root hne
      rw [h i hi] at hd
      cases hd
    have single : lookup R [sub n f] p = (answer R (sub n f) p).getD none := by
      rw [ih (hf.sub n) (by simp), lookup_nil_stack]
    rw [lookup, live]
    cases hi : f [] with
    | none =>
      have hcut : cuts R f = false := by simp [cuts, hi]
      have hnone : ∀ q, sub n f q = none := fun q => by
        by_contra hne
        obtain ⟨i, hj, -⟩ := hf.root hne
        rw [hi] at hj
        cases hj
      have hcov : covers R (sub n f) p = false := by
        rw [Bool.eq_false_iff, Ne, covers_iff]
        rintro ⟨q, -, i, hq, -⟩
        rw [hnone] at hq
        cases hq
      rw [answer_sub hcut, answer, hnone, hcov, lookup]
      rfl
    | some i =>
      by_cases hw : R.isWhite i
      · -- a whiteout: nothing is below it, and nothing is asked
        have hcut : cuts R f = true := by simp [cuts, hi, R.not_dir_of_white i hw]
        rw [answer, gone fun j hj => by rw [hi] at hj; cases hj; exact R.not_dir_of_white i hw,
          covers, hcut]
        simp [hw, lookup_nil_stack]
      by_cases hd : R.isDir i ∧ ¬ R.isOpaque i
      · have hcut : cuts R f = false := by
          simp [cuts, hi, hd]
        rw [answer_sub hcut]
        simp only [hw, hd, not_false_eq_true, and_self, if_true, if_false, List.map_cons,
          Bool.false_eq_true]
        rw [ih (hf.sub n) fun g hg => ?_, lookup_merging hfs, lookup]
        obtain ⟨g', hg', rfl⟩ := List.mem_map.mp hg
        exact (hfs g' (mem_of_mem_merging hg')).sub n
      · -- a file, or an opaque directory: no other layer is asked
        have hcut : cuts R f = true := by
          rw [cuts, hi]
          by_cases hdir : R.isDir i
          · simp [not_not.mp fun h => hd ⟨hdir, h⟩]
          · simp [hdir]
        simp only [hw, hd, if_false, List.map_cons, List.map_nil, Bool.false_eq_true]
        rw [single, answer, answer, covers, hcut, Bool.true_or, if_pos rfl, sub]
        cases f (n :: p) with
        | some j => rfl
        | none => cases covers R (sub n f) p <;> rfl

/-! ## All the layers -/

/-- The first answer counts. -/
theorem lookup_eq_findSome (hfs : ∀ g ∈ fs, IsTree R g) (p : List N) :
    lookup R fs p = (fs.findSome? fun f => answer R f p).join := by
  induction fs with
  | nil => exact lookup_nil_stack p
  | cons f fs ih =>
    rw [lookup_cons (hfs f (by simp)) (fun g hg => hfs g (by simp [hg])),
      ih fun g hg => hfs g (by simp [hg]), List.findSome?_cons]
    cases answer R f p <;> rfl

theorem findSome_congr {K A : Type} {say say' : K → Option A} {ks : List K}
    (h : ∀ k ∈ ks, say k = say' k) : ks.findSome? say = ks.findSome? say' := by
  induction ks with
  | nil => rfl
  | cons k ks ih =>
    rw [List.findSome?_cons, List.findSome?_cons, h k (by simp), ih fun k' hk =>
      h k' (by simp [hk])]

/-- Of layers that occur more than once, in a list with the lowest in front, the lower ones do
    not matter. -/
theorem findSome_dedup {K A : Type} [DecidableEq K] (say : K → Option A) (ks : List K) :
    ks.dedup.reverse.findSome? say = ks.reverse.findSome? say := by
  induction ks with
  | nil => rfl
  | cons k ks ih =>
    rw [List.reverse_cons, List.findSome?_append, ← ih]
    by_cases hk : k ∈ ks
    · rw [List.dedup_cons_of_mem hk, ih]
      cases hf : ks.reverse.findSome? say with
      | some a => rfl
      | none =>
        rw [List.findSome?_eq_none_iff] at hf
        simp [hf k (by simpa using hk)]
    · rw [List.dedup_cons_of_notMem hk, List.reverse_cons, List.findSome?_append]

end Overlay
