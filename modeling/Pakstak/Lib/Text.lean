/-
  Strings of the Rust standard library as lists of UTF-8 bytes.

  `validUtf8` is `str::from_utf8` (the table of well-formed byte sequences of the Unicode
  standard), `trim` is `str::trim` (the code points with property White_Space),
  `splitOnce` and `rsplitOnce` are the `str` methods for a one-byte separator.

  Proved: `trim_eq_self`, and where the splits are: `splitOnce_iff`, `rsplitOnce_iff`.
-/
import Pakstak.Lib.Posix

namespace Text

open Posix

/-! ## UTF-8 -/

/-- A continuation byte. -/
def cont (b : UInt8) : Bool := 0x80 ≤ b && b ≤ 0xBF

def validUtf8 : Bytes → Bool
  | [] => true
  | a :: rest =>
    if a < 0x80 then validUtf8 rest
    else if 0xC2 ≤ a && a ≤ 0xDF then
      match rest with
      | b :: rest => cont b && validUtf8 rest
      | _ => false
    else if 0xE0 ≤ a && a ≤ 0xEF then
      match rest with
      | b :: c :: rest =>
        cont b && (a != 0xE0 || 0xA0 ≤ b) && (a != 0xED || b ≤ 0x9F) && cont c && validUtf8 rest
      | _ => false
    else if 0xF0 ≤ a && a ≤ 0xF4 then
      match rest with
      | b :: c :: d :: rest =>
        cont b && (a != 0xF0 || 0x90 ≤ b) && (a != 0xF4 || b ≤ 0x8F) && cont c && cont d &&
          validUtf8 rest
      | _ => false
    else false

theorem validUtf8_of_ascii {s : Bytes} (h : ∀ b ∈ s, b < 0x80) : validUtf8 s = true := by
  induction s with
  | nil => rfl
  | cons b s ih =>
    unfold validUtf8
    rw [if_pos (h b (by simp))]
    exact ih fun c hc => h c (by simp [hc])

/-! ## White space -/

def asciiSpace (b : UInt8) : Bool := b == 32 || (9 ≤ b && b ≤ 13)

/-- The last byte of a White_Space code point that starts with `E2 80`. -/
def generalSpace (b : UInt8) : Bool :=
  (0x80 ≤ b && b ≤ 0x8A) || b == 0xA8 || b == 0xA9 || b == 0xAF

/-- Drop one white space character at the front. -/
def dropSpace : Bytes → Option Bytes
  | 0xC2 :: b :: rest => if b == 0x85 || b == 0xA0 then some rest else none
  | 0xE1 :: b :: c :: rest => if b == 0x9A && c == 0x80 then some rest else none
  | 0xE2 :: b :: c :: rest =>
    if (b == 0x80 && generalSpace c) || (b == 0x81 && c == 0x9F) then some rest else none
  | 0xE3 :: b :: c :: rest => if b == 0x80 && c == 0x80 then some rest else none
  | b :: rest => if asciiSpace b then some rest else none
  | [] => none

/-- Drop one white space character at the end, of the reversed bytes. -/
def dropSpaceRev : Bytes → Option Bytes
  | b :: 0xC2 :: rest => if b == 0x85 || b == 0xA0 then some rest else none
  | c :: b :: 0xE1 :: rest => if b == 0x9A && c == 0x80 then some rest else none
  | c :: b :: 0xE2 :: rest =>
    if (b == 0x80 && generalSpace c) || (b == 0x81 && c == 0x9F) then some rest else none
  | c :: b :: 0xE3 :: rest => if b == 0x80 && c == 0x80 then some rest else none
  | b :: rest => if asciiSpace b then some rest else none
  | [] => none

/-- Drop as long as `drop` finds something, at most `n` times. -/
def dropMany (drop : Bytes → Option Bytes) : Nat → Bytes → Bytes
  | 0, s => s
  | n + 1, s =>
    match drop s with
    | none => s
    | some rest => dropMany drop n rest

def trim (s : Bytes) : Bytes :=
  let front := dropMany dropSpace s.length s
  (dropMany dropSpaceRev front.length front.reverse).reverse

/-- A visible ASCII character. -/
def Graphic (b : UInt8) : Prop := 0x21 ≤ b ∧ b ≤ 0x7E

instance (b : UInt8) : Decidable (Graphic b) := inferInstanceAs (Decidable (_ ∧ _))

theorem dropMany_eq_self {drop : Bytes → Option Bytes} {s : Bytes} (h : drop s = none) (n : Nat) :
    dropMany drop n s = s := by
  cases n with
  | zero => rfl
  | succ n => rw [dropMany, h]

theorem Graphic.toNat {b : UInt8} (h : Graphic b) : 33 ≤ b.toNat ∧ b.toNat ≤ 126 :=
  ⟨UInt8.le_iff_toNat_le.mp h.1, UInt8.le_iff_toNat_le.mp h.2⟩

theorem Graphic.beq_false {b c : UInt8} (h : Graphic b) (hc : c.toNat < 33 ∨ 126 < c.toNat) :
    (b == c) = false := by
  refine beq_eq_false_iff_ne.mpr fun he => ?_
  have := h.toNat
  rw [he] at this
  omega

theorem Graphic.asciiSpace {b : UInt8} (h : Graphic b) : asciiSpace b = false := by
  have := h.toNat
  have h13 : ¬ b ≤ 13 := fun hb => by
    have := UInt8.le_iff_toNat_le.mp hb
    simp at this; omega
  rw [Text.asciiSpace, h.beq_false (by decide), Bool.false_or, decide_eq_false h13, Bool.and_false]

theorem Graphic.generalSpace {b : UInt8} (h : Graphic b) : generalSpace b = false := by
  have := h.toNat
  have h80 : ¬ 0x80 ≤ b := fun hb => by
    have := UInt8.le_iff_toNat_le.mp hb
    simp at this; omega
  rw [Text.generalSpace, decide_eq_false h80, h.beq_false (by decide), h.beq_false (by decide),
    h.beq_false (by decide)]
  rfl

theorem dropSpace_graphic {b : UInt8} (h : Graphic b) (rest : Bytes) :
    dropSpace (b :: rest) = none := by
  have hb := h.toNat
  unfold dropSpace
  split
  case h_5 _ _ _ _ _ _ he =>
    injection he with he _
    rw [← he, if_neg (by simp [h.asciiSpace])]
  case h_6 => contradiction
  all_goals
    rename_i he
    injection he with he _
    rw [he] at hb
    exact absurd hb (by decide)

theorem dropSpaceRev_graphic {b : UInt8} (h : Graphic b) (rest : Bytes) :
    dropSpaceRev (b :: rest) = none := by
  have hb := fun c hc => h.beq_false (c := c) hc
  unfold dropSpaceRev
  split
  case h_1 _ _ _ he =>
    injection he with he _
    rw [← he, hb _ (by decide), hb _ (by decide)]
    rfl
  case h_2 _ _ _ _ he =>
    injection he with he _
    rw [← he, hb _ (by decide), Bool.and_false]
    rfl
  case h_3 _ _ _ _ he =>
    injection he with he _
    rw [← he, h.generalSpace, hb _ (by decide), Bool.and_false, Bool.and_false]
    rfl
  case h_4 _ _ _ _ he =>
    injection he with he _
    rw [← he, hb _ (by decide), Bool.and_false]
    rfl
  case h_5 _ _ _ _ _ _ he =>
    injection he with he _
    rw [← he, if_neg (by simp [h.asciiSpace])]
  case h_6 => contradiction

/-- A string of visible ASCII has nothing to trim. -/
theorem trim_eq_self {s : Bytes} (h : ∀ b ∈ s, Graphic b) : trim s = s := by
  have hfront : dropMany dropSpace s.length s = s := by
    cases s with
    | nil => rfl
    | cons b rest => exact dropMany_eq_self (dropSpace_graphic (h b (by simp)) rest) _
  have hback : dropMany dropSpaceRev s.length s.reverse = s.reverse := by
    cases hr : s.reverse with
    | nil => exact dropMany_eq_self rfl _
    | cons b rest =>
      refine dropMany_eq_self (dropSpaceRev_graphic (h b ?_) rest) _
      rw [← List.mem_reverse, hr]
      exact List.mem_cons_self
  rw [trim, hfront, hback, List.reverse_reverse]

/-! ## Splitting at a separator -/

/-- `split_once`: the parts before and after the first `sep`. -/
def splitOnce (sep : UInt8) : Bytes → Option (Bytes × Bytes)
  | [] => none
  | b :: rest => if b = sep then some ([], rest) else (splitOnce sep rest).map fun r =>
    (b :: r.1, r.2)

/-- `rsplit_once`: the parts before and after the last `sep`. -/
def rsplitOnce (sep : UInt8) (s : Bytes) : Option (Bytes × Bytes) :=
  (splitOnce sep s.reverse).map fun r => (r.2.reverse, r.1.reverse)

theorem splitOnce_eq_some {sep : UInt8} {s a b : Bytes} (h : splitOnce sep s = some (a, b)) :
    s = a ++ sep :: b := by
  induction s generalizing a with
  | nil => cases h
  | cons c rest ih =>
    rw [splitOnce] at h
    split at h
    · rename_i hc
      cases h
      rw [hc]; rfl
    · obtain ⟨⟨a', b'⟩, hr, he⟩ := Option.map_eq_some_iff.mp h
      cases he
      rw [ih hr]; rfl

theorem splitOnce_append {sep : UInt8} {a : Bytes} (h : sep ∉ a) (b : Bytes) :
    splitOnce sep (a ++ sep :: b) = some (a, b) := by
  induction a with
  | nil => simp [splitOnce]
  | cons c a ih =>
    rw [List.mem_cons, not_or] at h
    rw [List.cons_append, splitOnce, if_neg (Ne.symm h.1), ih h.2]
    rfl

theorem splitOnce_eq_none {sep : UInt8} {s : Bytes} : splitOnce sep s = none ↔ sep ∉ s := by
  constructor
  · intro h hs
    obtain ⟨a, b, rfl, ha⟩ := List.eq_append_cons_of_mem hs
    rw [splitOnce_append ha] at h
    cases h
  · intro h
    cases hs : splitOnce sep s with
    | none => rfl
    | some r => exact absurd (splitOnce_eq_some (a := r.1) (b := r.2) hs ▸ by simp) h

theorem splitOnce_iff {sep : UInt8} {s a b : Bytes} :
    splitOnce sep s = some (a, b) ↔ s = a ++ sep :: b ∧ sep ∉ a := by
  constructor
  · intro h
    refine ⟨splitOnce_eq_some h, fun ha => ?_⟩
    -- the first separator would come earlier
    obtain ⟨a₁, a₂, rfl, ha₁⟩ := List.eq_append_cons_of_mem ha
    have hs := splitOnce_eq_some h
    rw [List.append_assoc, List.cons_append] at hs
    rw [hs, splitOnce_append ha₁, Option.some.injEq, Prod.mk.injEq] at h
    have := congrArg List.length h.1
    simp at this
  · rintro ⟨rfl, ha⟩
    exact splitOnce_append ha b

theorem rsplitOnce_iff {sep : UInt8} {s a b : Bytes} :
    rsplitOnce sep s = some (a, b) ↔ s = a ++ sep :: b ∧ sep ∉ b := by
  rw [rsplitOnce, Option.map_eq_some_iff]
  constructor
  · rintro ⟨⟨b', a'⟩, h, he⟩
    obtain ⟨rfl, rfl⟩ := Prod.mk.inj he
    obtain ⟨hs, hb⟩ := splitOnce_iff.mp h
    refine ⟨?_, by simpa using hb⟩
    rw [← List.reverse_reverse s, hs]
    simp
  · rintro ⟨rfl, hb⟩
    exact ⟨(b.reverse, a.reverse), splitOnce_iff.mpr ⟨by simp, by simpa using hb⟩, by simp⟩

theorem rsplitOnce_eq_none {sep : UInt8} {s : Bytes} : rsplitOnce sep s = none ↔ sep ∉ s := by
  rw [rsplitOnce, Option.map_eq_none_iff, splitOnce_eq_none, List.mem_reverse]

end Text
