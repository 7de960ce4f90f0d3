/-
  Which texts `Reference::parse` accepts, and how it takes them apart.

  `Parts` are the pieces of a reference before they are put together. `Parts.Splits` says
  that the separators between them are the ones the parser looks for: the last `@`, the last
  `:` before it, the first `/`.

  Proved:
  * `reference_parse_eq_ok_iff`: a text is accepted exactly if it is put together from such parts.
  * `reference_parse_iff`: where the last `:` does not stand before a `/`, these are the parts one
    would expect: a registry, a repository, and a tag and a digest if there are any.
  * `reference_roundTrips_iff`: when the text that is printed for a reference, with its own
    specifier or pinned to a digest, is parsed to it again.
  * `reference_parse_accepts_empty_digest`: the parts are not checked any further.
-/
import Pakstak.Digest
import Pakstak.Reference

namespace Pakstak

open Posix Text

/-! ## Parts -/

/-- A separator and what follows it, if there is something. -/
def tailText (sep : UInt8) (o : Option Bytes) : Bytes := o.elim [] (sep :: ·)

@[simp] theorem tailText_none (sep : UInt8) : tailText sep none = [] := rfl

@[simp] theorem tailText_some (sep : UInt8) (t : Bytes) : tailText sep (some t) = sep :: t := rfl

structure Parts where
  registry : Bytes
  repository : Bytes
  tag : Option Bytes
  digest : Option Bytes

namespace Parts

variable (p : Parts)

def name : Bytes := p.registry ++ slashByte :: p.repository

def text : Bytes := p.name ++ tailText 58 p.tag ++ tailText 64 p.digest

def specifier : Specifier :=
  match p.digest with
  | some digest => .digest digest
  | none => .tag (p.tag.getD (utf8 "latest"))

def reference : Reference := ⟨p.registry, p.repository, p.specifier⟩

/-- A registry is told by a dot, a colon, or its name. -/
def NamesRegistry (registry : Bytes) : Prop :=
  46 ∈ registry ∨ 58 ∈ registry ∨ registry = utf8 "localhost"

/-- The separators of the text are those between the parts. -/
structure Splits : Prop where
  digest : ∀ d, p.digest = some d → 64 ∉ d
  undigested : p.digest = none → 64 ∉ p.name ++ tailText 58 p.tag
  tag : ∀ t, p.tag = some t → 58 ∉ t
  untagged : p.tag = none → 58 ∉ p.name
  registry : slashByte ∉ p.registry
  explicit : NamesRegistry p.registry
  repository : p.repository ≠ []

/-- As `Splits`, with a tag that does not reach into the repository. -/
structure Separate : Prop extends p.Splits where
  within : ∀ t, p.tag = some t → slashByte ∉ t

end Parts

/-! ## Splits -/

theorem splitTail_eq_iff {sep : UInt8} {s a : Bytes} {o : Option Bytes} :
    splitTail sep s = (a, o) ↔
      s = a ++ tailText sep o ∧ (∀ t, o = some t → sep ∉ t) ∧ (o = none → sep ∉ a) := by
  rw [splitTail]
  cases hr : rsplitOnce sep s with
  | none =>
    have hs := rsplitOnce_eq_none.mp hr
    constructor
    · intro h
      obtain ⟨rfl, rfl⟩ := Prod.mk.inj h
      exact ⟨by simp, by simp, fun _ => hs⟩
    · rintro ⟨rfl, -, -⟩
      cases o with
      | none => simp [tailText]
      | some t => exact absurd (by simp) hs
  | some r =>
    obtain ⟨b, t⟩ := r
    obtain ⟨rfl, ht⟩ := rsplitOnce_iff.mp hr
    constructor
    · intro h
      obtain ⟨rfl, rfl⟩ := Prod.mk.inj h
      exact ⟨rfl, fun u hu => Option.some.inj hu ▸ ht, by simp⟩
    · rintro ⟨hs, hsome, hnone⟩
      cases o with
      | none => exact absurd (show sep ∈ a by simp at hs; simp [← hs]) (hnone rfl)
      | some u =>
        have hu := rsplitOnce_iff.mpr ⟨hs, hsome u rfl⟩
        rw [hr, Option.some.injEq, Prod.mk.injEq] at hu
        rw [hu.1, hu.2]

/-- The registry is what stands before the first slash, the repository what follows. -/
theorem splitOn_name {name registry repository : Bytes} :
    ((name.splitOn slashByte).headD [] = registry ∧
      [slashByte].intercalate (name.splitOn slashByte).tail = repository ∧ repository ≠ []) ↔
    (name = registry ++ slashByte :: repository ∧ slashByte ∉ registry ∧ repository ≠ []) := by
  have split (a b : Bytes) (ha : slashByte ∉ a) :
      (a ++ slashByte :: b).splitOn slashByte = a :: b.splitOn slashByte :=
    List.splitOn_append_cons_self_of_not_mem ha b
  constructor
  · rintro ⟨rfl, rfl, hne⟩
    by_cases hs : slashByte ∈ name
    · obtain ⟨a, b, rfl, ha⟩ := List.eq_append_cons_of_mem hs
      rw [split a b ha, List.headD_cons, List.tail_cons, List.intercalate_splitOn]
      rw [split a b ha, List.tail_cons, List.intercalate_splitOn] at hne
      exact ⟨rfl, ha, hne⟩
    · rw [List.splitOn_eq_singleton hs] at hne
      exact absurd rfl hne
  · rintro ⟨rfl, hr, hne⟩
    rw [split _ _ hr, List.headD_cons, List.tail_cons, List.intercalate_splitOn]
    exact ⟨rfl, rfl, hne⟩

/-! ## The parser -/

/-- The parser, once the digest and the tag are off. -/
theorem reference_parse_eq {s name₁ name : Bytes} {digest tag : Option Bytes}
    (hd : splitTail 64 s = (name₁, digest)) (ht : splitTail 58 name₁ = (name, tag)) :
    Reference.parse s =
      if 46 ∉ (name.splitOn slashByte).headD [] ∧ 58 ∉ (name.splitOn slashByte).headD [] ∧
          (name.splitOn slashByte).headD [] ≠ utf8 "localhost" then .error .noExplicitRegistry
      else if [slashByte].intercalate (name.splitOn slashByte).tail = [] then
        .error .repositoryMissing
      else .ok (Parts.reference ⟨(name.splitOn slashByte).headD [],
        [slashByte].intercalate (name.splitOn slashByte).tail, tag, digest⟩) := by
  rw [Reference.parse]
  simp only [hd, ht]
  rfl

theorem reference_parse_eq_ok_iff {s : Bytes} {r : Reference} :
    Reference.parse s = .ok r ↔ ∃ p : Parts, p.Splits ∧ p.text = s ∧ p.reference = r := by
  constructor
  · intro h
    rcases hd : splitTail 64 s with ⟨name₁, digest⟩
    rcases ht : splitTail 58 name₁ with ⟨name, tag⟩
    rw [reference_parse_eq hd ht] at h
    obtain ⟨rfl, hdigest, hundigested⟩ := splitTail_eq_iff.mp hd
    obtain ⟨rfl, htag, huntagged⟩ := splitTail_eq_iff.mp ht
    generalize hreg : (name.splitOn slashByte).headD [] = registry at h
    generalize hrep : [slashByte].intercalate (name.splitOn slashByte).tail = repository at h
    split at h
    · cases h
    rename_i hexplicit
    split at h
    · cases h
    rename_i hne
    cases h
    obtain ⟨rfl, hslash, -⟩ := splitOn_name.mp ⟨hreg, hrep, hne⟩
    refine ⟨⟨registry, repository, tag, digest⟩, ⟨hdigest, hundigested, htag, huntagged, hslash,
      ?_, hne⟩, rfl, rfl⟩
    rw [Parts.NamesRegistry]
    by_contra hno
    rw [not_or, not_or] at hno
    exact hexplicit hno
  · rintro ⟨p, hp, rfl, rfl⟩
    -- the splits find these parts
    have hd : splitTail 64 p.text = (p.name ++ tailText 58 p.tag, p.digest) :=
      splitTail_eq_iff.mpr ⟨rfl, hp.digest, hp.undigested⟩
    have ht : splitTail 58 (p.name ++ tailText 58 p.tag) = (p.name, p.tag) :=
      splitTail_eq_iff.mpr ⟨rfl, hp.tag, hp.untagged⟩
    obtain ⟨hreg, hrep, hne⟩ := splitOn_name.mpr
      ⟨show p.name = p.registry ++ slashByte :: p.repository from rfl, hp.registry, hp.repository⟩
    rw [reference_parse_eq hd ht, hreg, hrep, if_neg fun h => ?_, if_neg hne]
    rcases hp.explicit with h' | h' | h'
    · exact h.1 h'
    · exact h.2.1 h'
    · exact h.2.2 h'

/-- The last colon before the digest stands in front of a slash: it belongs to the port of a
    registry, and is taken for that of a tag. -/
def PortMistaken (s : Bytes) : Prop :=
  (splitTail 58 (splitTail 64 s).1).2.any (slashByte ∈ ·)

instance (s : Bytes) : Decidable (PortMistaken s) := inferInstanceAs (Decidable (_ = true))

theorem portMistaken_iff {p : Parts} (h : p.Splits) :
    PortMistaken p.text ↔ ∃ t, p.tag = some t ∧ slashByte ∈ t := by
  have hd : splitTail 64 p.text = (p.name ++ tailText 58 p.tag, p.digest) :=
    splitTail_eq_iff.mpr ⟨rfl, h.digest, h.undigested⟩
  have ht : splitTail 58 (p.name ++ tailText 58 p.tag) = (p.name, p.tag) :=
    splitTail_eq_iff.mpr ⟨rfl, h.tag, h.untagged⟩
  rw [PortMistaken, hd, ht]
  cases p.tag <;> simp

/-- What the parser accepts, and what it returns, where it takes no port for a tag. -/
theorem reference_parse_iff {s : Bytes} {r : Reference} (hs : ¬ PortMistaken s) :
    Reference.parse s = .ok r ↔ ∃ p : Parts, p.Separate ∧ p.text = s ∧ p.reference = r := by
  rw [reference_parse_eq_ok_iff]
  constructor
  · rintro ⟨p, hp, rfl, hr⟩
    refine ⟨p, ⟨hp, fun t ht hslash => ?_⟩, rfl, hr⟩
    exact hs ((portMistaken_iff hp).mpr ⟨t, ht, hslash⟩)
  · rintro ⟨p, hp, hs, hr⟩
    exact ⟨p, hp.toSplits, hs, hr⟩

theorem reference_parse_iff_tagged : Reference.parse (utf8 "a.b:5000/c/d:1@sha256:e") =
    .ok ⟨utf8 "a.b:5000", utf8 "c/d", .digest (utf8 "sha256:e")⟩ := by
  refine (reference_parse_iff (by decide +kernel)).mpr
    ⟨⟨utf8 "a.b:5000", utf8 "c/d", some (utf8 "1"), some (utf8 "sha256:e")⟩, ?_, by decide +kernel,
      rfl⟩
  refine ⟨⟨?_, by simp, ?_, by simp, by decide +kernel, .inl (by decide +kernel),
    by decide +kernel⟩, ?_⟩ <;>
    · rintro _ ⟨⟩
      decide +kernel

/-! ## Back from the printed text -/

/-- The printed text gives the reference back. -/
def Reparses (r : Reference) : Prop := Reference.parse r.display = .ok r

/-- `<algorithm>:<hex>`. -/
def SpelledDigest (d : Bytes) : Prop :=
  ∃ algorithm hex, d = algorithm ++ 58 :: hex ∧ 64 ∉ algorithm ∧ ∀ b ∈ hex, (toDigit b).isSome

/-- So does that of the reference with any digest in the place of its specifier. -/
structure RoundTrips (r : Reference) : Prop where
  itself : Reparses r
  pinned : ∀ d, SpelledDigest d → Reparses { r with specifier := .digest d }

theorem SpelledDigest.no_at {d : Bytes} (h : SpelledDigest d) : 64 ∉ d := by
  obtain ⟨algorithm, hex, rfl, ha, hhex⟩ := h
  rw [List.mem_append, List.mem_cons]
  rintro (h | h | h)
  · exact ha h
  · exact absurd h (by decide)
  · exact absurd (hhex 64 h) (by decide)

namespace Parts

variable {p : Parts}

/-- The tag goes with the digest that is printed, so no colon may be left to be taken for it. -/
theorem Splits.reparses_digest {d : Bytes} (hp : p.Splits) (hd : 64 ∉ d) :
    Reparses ⟨p.registry, p.repository, .digest d⟩ ↔ 58 ∉ p.name := by
  have hdisplay : Reference.display ⟨p.registry, p.repository, .digest d⟩ = p.name ++ 64 :: d := by
    simp [Reference.display, name]
  rw [Reparses, hdisplay, reference_parse_eq_ok_iff]
  constructor
  · rintro ⟨q, hq, htext, href⟩
    obtain ⟨hreg, hrep, hspec⟩ : q.registry = p.registry ∧ q.repository = p.repository ∧
        q.specifier = .digest d := by simpa [reference] using href
    have hname : q.name = p.name := by rw [name, name, hreg, hrep]
    cases hqd : q.digest with
    | none => simp [specifier, hqd] at hspec
    | some e =>
      obtain rfl : e = d := by simpa [specifier, hqd] using hspec
      rw [text, hname, hqd, List.append_assoc, List.append_cancel_left_eq, tailText_some] at htext
      cases hqt : q.tag with
      | none => exact hname ▸ hq.untagged hqt
      | some t => simp [hqt] at htext
  · intro hcolon
    exact ⟨⟨p.registry, p.repository, none, some d⟩,
      ⟨fun e he => Option.some.inj he ▸ hd, by simp, by simp, fun _ => hcolon, hp.registry,
        hp.explicit, hp.repository⟩, by simp [text, name], rfl⟩

theorem Splits.reparses_tag (hp : p.Splits) (hd : p.digest = none) : Reparses p.reference := by
  have hat := hp.undigested hd
  cases ht : p.tag with
  | some t =>
    refine reference_parse_eq_ok_iff.mpr ⟨p, hp, ?_, rfl⟩
    simp [Reference.display, reference, specifier, text, name, hd, ht]
  | none =>
    -- the tag printed is the default
    refine reference_parse_eq_ok_iff.mpr ⟨⟨p.registry, p.repository, some (utf8 "latest"), none⟩,
      ⟨by simp, fun _ h => ?_, fun t h => Option.some.inj h ▸ by decide +kernel, by simp,
        hp.registry,
        hp.explicit, hp.repository⟩, ?_, ?_⟩
    · rcases List.mem_append.mp h with h | h
      · exact hat (by simpa [ht] using show 64 ∈ p.name from h)
      · exact absurd (show 64 ∈ tailText 58 (some (utf8 "latest")) from h) (by decide +kernel)
    · simp [Reference.display, reference, specifier, text, name, hd, ht]
    · simp [reference, specifier, hd, ht]

theorem Splits.count_colon (hp : p.Splits) :
    (p.name ++ tailText 58 p.tag).count 58 ≤ 1 ↔ 58 ∉ p.name := by
  rw [List.count_append, ← List.count_eq_zero]
  cases ht : p.tag with
  | none => simp [List.count_eq_zero.mpr (hp.untagged ht)]
  | some t => simp [List.count_eq_zero.mpr (hp.tag t ht)]

end Parts

/-- A reference that has been parsed can be printed and parsed again, with its own specifier and
    with any digest, exactly if at most one colon stands before its digest. -/
theorem reference_roundTrips_iff {s : Bytes} {r : Reference} (h : Reference.parse s = .ok r) :
    RoundTrips r ↔ (splitTail 64 s).1.count 58 ≤ 1 := by
  obtain ⟨p, hp, rfl, rfl⟩ := reference_parse_eq_ok_iff.mp h
  have hd : splitTail 64 p.text = (p.name ++ tailText 58 p.tag, p.digest) :=
    splitTail_eq_iff.mpr ⟨rfl, hp.digest, hp.undigested⟩
  rw [hd, hp.count_colon]
  constructor
  · intro hr
    have hspelled : SpelledDigest (utf8 "sha256:ab") :=
      ⟨utf8 "sha256", utf8 "ab", by decide +kernel, by decide +kernel, by decide +kernel⟩
    exact (hp.reparses_digest hspelled.no_at).mp (hr.pinned _ hspelled)
  · intro hcolon
    refine ⟨?_, fun d hspelled => (hp.reparses_digest hspelled.no_at).mpr hcolon⟩
    cases hpd : p.digest with
    | none => exact hp.reparses_tag hpd
    | some d =>
      have := (hp.reparses_digest (hp.digest d hpd)).mpr hcolon
      rwa [Parts.reference, Parts.specifier, hpd]

theorem reference_roundTrips_iff_tagged :
    RoundTrips ⟨utf8 "a.b", utf8 "c/d", .tag (utf8 "1")⟩ :=
  (reference_roundTrips_iff (s := utf8 "a.b/c/d:1") (by decide +kernel)).mpr (by decide +kernel)

/-- With a port and a tag it can be parsed, and with the tag replaced by a digest it cannot. -/
theorem reference_roundTrips_port :
    ¬ ∀ s r, Reference.parse s = .ok r → RoundTrips r := by
  intro h
  have hparse : Reference.parse (utf8 "localhost:5000/app:1") =
      .ok ⟨utf8 "localhost:5000", utf8 "app", .tag (utf8 "1")⟩ := by decide +kernel
  have hpinned := (h _ _ hparse).pinned (utf8 "sha256:ab")
    ⟨utf8 "sha256", utf8 "ab", by decide +kernel, by decide +kernel, by decide +kernel⟩
  exact absurd hpinned (by rw [Reparses]; decide +kernel)

/-! ## What is not checked -/

/-- The pieces of a reference with nothing empty and nothing out of place. -/
structure Parts.WellFormed (p : Parts) : Prop where
  host : ∃ host port, p.registry = host ++ tailText 58 port ∧ host ≠ [] ∧ 58 ∉ host ∧
    ∀ n, port = some n → n ≠ [] ∧ 58 ∉ n
  registry : NamesRegistry p.registry ∧ slashByte ∉ p.registry ∧ 64 ∉ p.registry
  repository : ∀ c ∈ p.repository.splitOn slashByte, c ≠ [] ∧ 58 ∉ c ∧ 64 ∉ c
  tag : ∀ t, p.tag = some t → t ≠ [] ∧ slashByte ∉ t ∧ 58 ∉ t ∧ 64 ∉ t
  digest : ∀ d, p.digest = some d → d ≠ [] ∧ 64 ∉ d

theorem mem_component {b : UInt8} {cs : List Bytes} (hb : b ≠ slashByte)
    (h : b ∈ [slashByte].intercalate cs) : ∃ c ∈ cs, b ∈ c := by
  induction cs with
  | nil => cases h
  | cons c cs ih =>
    cases cs with
    | nil => exact ⟨c, by simp, by simpa using h⟩
    | cons d cs =>
      rw [List.intercalate_cons_cons, List.append_assoc, List.mem_append, List.mem_append,
        List.mem_singleton] at h
      rcases h with h | rfl | h
      · exact ⟨c, by simp, h⟩
      · exact absurd rfl hb
      · obtain ⟨e, he, hbe⟩ := ih h
        exact ⟨e, List.mem_cons_of_mem c he, hbe⟩

/-- A text that ends in `@` has no well-formed parts, and is accepted. -/
theorem reference_parse_accepts_empty_digest :
    ¬ ((∃ r, Reference.parse (utf8 "a.b/c@") = .ok r) ↔
      ∃ p : Parts, p.WellFormed ∧ p.text = utf8 "a.b/c@") := by
  intro h
  obtain ⟨p, hp, ht⟩ := h.mp ⟨⟨utf8 "a.b", utf8 "c", .digest []⟩, by decide +kernel⟩
  have hlast : p.text.getLast? = some 64 := by rw [ht]; decide +kernel
  cases hd : p.digest with
  | some d =>
    obtain ⟨hne, hat⟩ := hp.digest d hd
    obtain ⟨e, b, rfl⟩ := (List.eq_nil_or_concat d).resolve_left hne
    rw [Parts.text, hd, tailText_some, List.concat_eq_append, ← List.cons_append,
      ← List.append_assoc, List.getLast?_concat, Option.some.injEq] at hlast
    exact hat (by simp [hlast])
  | none =>
    have hmem : (64 : UInt8) ∈ p.text := List.mem_of_getLast? hlast
    rw [Parts.text, hd, tailText_none, List.append_nil, Parts.name] at hmem
    rcases List.mem_append.mp hmem with hmem | hmem
    · rcases List.mem_append.mp hmem with hmem | hmem
      · exact hp.registry.2.2 hmem
      · -- in the repository it would stand in one of the components
        have hmem := (List.mem_cons.mp hmem).resolve_left (by decide)
        rw [← @List.intercalate_splitOn _ p.repository _ _ slashByte] at hmem
        obtain ⟨c, hc, hc'⟩ := mem_component (by decide) hmem
        exact (hp.repository c hc).2.2 hc'
    · cases hg : p.tag with
      | none => simp [hg] at hmem
      | some t =>
        rw [hg, tailText_some] at hmem
        exact (hp.tag t hg).2.2.2 ((List.mem_cons.mp hmem).resolve_left (by decide))

end Pakstak
