/-
  Readers: a source that is asked for elements again and again, a buffer over a reader, a
  decoder behind the buffer, and the loop that reads on to the end.

  A source may answer a question with fewer elements than asked for, or with an error. Its
  `Log` keeps the questions and the answers; `delivered` are the elements handed over,
  `Ended` says that the last answer reported the end, `Serves data broken` that the log is
  one of a source of `data`.

  A decoder is any program that asks the buffer (`Ask`), and beside it any other
  environment; `through` runs it over a reader.

  Proved:
  * `Maintains` is what a reader keeps about the source whatever it is asked; `ensures_fillBuf`,
    `ensures_answer` and `ensures_through` carry it through the buffer and the decoder.
  * `ensures_copyToSink`: when the loop succeeds, the source has ended.
  * `serves_ended`: a source of `data` that has ended has delivered all of it.
-/
import Pakstak.Lib.Prog

/-! ## Two environments side by side -/

/-- Questions to either of two environments. -/
def Machine.beside {Op Op' : Type} {Reply : Op → Type} {Reply' : Op' → Type} {S S' : Type}
    (M : Machine Op Reply S) (N : Machine Op' Reply' S') :
    Machine (Op ⊕ Op') (Sum.elim Reply Reply') (S × S') where
  step
    | .inl o, s, r, s' => M.step o s.1 r s'.1 ∧ s'.2 = s.2
    | .inr o, s, r, s' => N.step o s.2 r s'.2 ∧ s'.1 = s.1
  mid
    | .inl o, s, s' => M.mid o s.1 s'.1 ∧ s'.2 = s.2
    | .inr o, s, s' => N.mid o s.2 s'.2 ∧ s'.1 = s.1

namespace Prog

variable {Op Op' : Type} {Reply : Op → Type} {Reply' : Op' → Type} {E S S' α : Type}

/-- A program of the second environment. -/
def right : Prog Op' Reply' E α → Prog (Op ⊕ Op') (Sum.elim Reply Reply') E α
  | ret r => ret r
  | ask o k => ask (.inr o) fun r => (k r).right
  | spin => spin

/-- What a program does in its own environment, it does beside another one. -/
theorem ensures_right {M : Machine Op Reply S} {N : Machine Op' Reply' S'} {I : S' → Prop}
    {P : α → S' → Prop} {p : Prog Op' Reply' E α} {s : S × S'} (h : Ensures N I P p s.2) :
    Ensures (M.beside N) (fun s' => s'.1 = s.1 ∧ I s'.2) (fun a s' => s'.1 = s.1 ∧ P a s'.2)
      p.right s := by
  rw [Ensures] at h
  generalize hx : s.1 = x
  induction p generalizing s with
  | ret r =>
    cases r with
    | ok a => exact ⟨⟨hx, h.1⟩, hx, h.2⟩
    | error e => exact ⟨⟨hx, h.1⟩, trivial⟩
  | ask o k ih =>
    exact ⟨⟨hx, h.1⟩, fun s' hm => ⟨hm.2.trans hx, h.2.1 _ hm.1⟩,
      fun r s' hs => ih r (h.2.2 r _ hs.1) (hs.2.trans hx)⟩
  | spin => exact ⟨hx, h⟩

end Prog

namespace Reader

open Prog

variable {β X : Type}

/-! ## Sources -/

/-- A question to a source: at most `n` elements. -/
inductive Source where
  | read (n : Nat)

abbrev SourceReply (β X : Type) : Source → Type := fun _ => Except X (List β)

/-- What a source was asked, and what it answered. -/
abbrev Log (β X : Type) : Type := List (Nat × Except X (List β))

def chunkOf : Except X (List β) → List β
  | .ok chunk => chunk
  | .error _ => []

def delivered (l : Log β X) : List β := l.flatMap fun a => chunkOf a.2

@[simp] theorem delivered_nil : delivered ([] : Log β X) = [] := rfl

@[simp] theorem delivered_concat (l : Log β X) (n : Nat) (r : Except X (List β)) :
    delivered (l ++ [(n, r)]) = delivered l ++ chunkOf r := by
  simp [delivered]

/-- The last answer reported the end: no elements, though some were asked for. -/
def Ended (l : Log β X) : Prop := ∃ l' n, n ≠ 0 ∧ l = l' ++ [(n, .ok [])]

/-- Any source: it hands over at most what it is asked for, or an error. -/
def source (β X : Type) : Machine Source (SourceReply β X) (Log β X) where
  step
    | .read n, l, r, l' => (chunkOf r).length ≤ n ∧ l' = l ++ [(n, r)]
  mid _ _ _ := False

/-- Ask the source. -/
def ask {Op : Type} {Reply : Op → Type} {E : Type} (n : Nat) :
    Prog (Source ⊕ Op) (Sum.elim (SourceReply β X) Reply) E (Except X (List β)) :=
  .ask (.inl (.read n)) fun r => .ret (.ok r)

theorem ensures_ask {Op S : Type} {Reply : Op → Type} {E : Type} {N : Machine Op Reply S} {n : Nat}
    {s : Log β X × S} :
    Ensures ((source β X).beside N) (fun _ => True)
      (fun r s' => s'.1 = s.1 ++ [(n, r)] ∧ s'.2 = s.2) (ask n : Prog _ _ E _) s :=
  ⟨trivial, fun _ _ => trivial, fun _ _ hs => ⟨trivial, hs.1.2, hs.2⟩⟩

/-- The log of a source of `data`: it delivers a first part of it, and reports the end only
    after all of it, and never if it breaks off. -/
structure Serves (data : List β) (broken : Bool) (l : Log β X) : Prop where
  part : delivered l <+: data
  complete : ∀ l' n, l' ++ [(n, .ok [])] <+: l → n ≠ 0 → broken = false ∧ delivered l' = data

theorem serves_ended {data : List β} {broken : Bool} {l : Log β X} (h : Serves data broken l)
    (he : Ended l) : broken = false ∧ delivered l = data := by
  obtain ⟨l', n, hn, rfl⟩ := he
  obtain ⟨hb, hd⟩ := h.complete l' n (List.prefix_refl _) hn
  exact ⟨hb, by simpa [chunkOf] using hd⟩

/-! ## The buffer -/

variable {Op : Type} {Reply : Op → Type} {E S ρ α : Type}

/-- A reader's `read`: the answer, and the reader after it. -/
abbrev Read (Op : Type) (Reply : Op → Type) (E β X ρ : Type) : Type :=
  ρ → Nat → Prog Op Reply E (Except X (List β) × ρ)

/-- A reader with the elements that were read from it in advance. -/
structure BufReader (ρ β : Type) where
  inner : ρ
  buffer : List β

namespace BufReader

variable (read : Read Op Reply E β X ρ) (capacity : Nat)

/-- Nothing is buffered yet. -/
def new (inner : ρ) : BufReader ρ β := ⟨inner, []⟩

/-- What is buffered; if nothing is, what one read of the whole capacity brings. -/
def fillBuf (b : BufReader ρ β) : Prog Op Reply E (Except X (List β) × BufReader ρ β) :=
  if b.buffer = [] then do
    match ← read b.inner capacity with
    | (.ok chunk, inner) => return (.ok chunk, ⟨inner, chunk⟩)
    | (.error e, inner) => return (.error e, ⟨inner, []⟩)
  else return (.ok b.buffer, b)

def consume (n : Nat) (b : BufReader ρ β) : BufReader ρ β := { b with buffer := b.buffer.drop n }

/-- A large read with nothing buffered goes past the buffer. -/
def readInto (n : Nat) (b : BufReader ρ β) :
    Prog Op Reply E (Except X (List β) × BufReader ρ β) :=
  if b.buffer = [] ∧ capacity ≤ n then do
    let (r, inner) ← read b.inner n
    return (r, ⟨inner, []⟩)
  else do
    match ← fillBuf read capacity b with
    | (.ok buffer, b) => return (.ok (buffer.take n), b.consume n)
    | (.error e, b) => return (.error e, b)

/-- One turn of the loop that reads to the end: interrupted reads are repeated. -/
def copyToSinkStep (retry : X → Bool) (b : BufReader ρ β) :
    Prog Op Reply E (BufReader ρ β ⊕ Except X Unit × BufReader ρ β) := do
  match ← fillBuf read capacity b with
  | (.ok [], b) => return .inr (.ok (), b)
  | (.ok buffer, b) => return .inl (b.consume buffer.length)
  | (.error e, b) => if retry e then return .inl b else return .inr (.error e, b)

def copyToSink (retry : X → Bool) (fuel : Nat) (b : BufReader ρ β) :
    Prog Op Reply E (Except X Unit × BufReader ρ β) :=
  Prog.loop (copyToSinkStep read capacity retry) fuel b

end BufReader

/-! ## Decoders -/

/-- A question to the buffer. -/
inductive Ask where
  | fillBuf
  | consume (n : Nat)
  | read (n : Nat)

@[reducible] def AskReply (β X : Type) : Ask → Type
  | .fillBuf | .read _ => Except X (List β)
  | .consume _ => Unit

/-- A program that reads through a buffer, and talks to another environment. -/
abbrev Decoder (β X : Type) (Op : Type) (Reply : Op → Type) (E α : Type) : Type :=
  Prog (Ask ⊕ Op) (Sum.elim (AskReply β X) Reply) E α

section Through

variable {Op' : Type} {Reply' : Op' → Type}
  (read : Read (Op' ⊕ Op) (Sum.elim Reply' Reply) E β X ρ) (capacity : Nat)

def BufReader.answer (b : BufReader ρ β) :
    (o : Ask) → Prog (Op' ⊕ Op) (Sum.elim Reply' Reply) E (AskReply β X o × BufReader ρ β)
  | .fillBuf => b.fillBuf read capacity
  | .consume n => return ((), b.consume n)
  | .read n => b.readInto read capacity n

/-- Run a decoder over a buffer. -/
def through : Decoder β X Op Reply E α → BufReader ρ β →
    Prog (Op' ⊕ Op) (Sum.elim Reply' Reply) E (α × BufReader ρ β)
  | .ret (.ok a), b => .ret (.ok (a, b))
  | .ret (.error e), _ => .ret (.error e)
  | .ask (.inl o) k, b => (b.answer read capacity o).bind fun (r, b) => through (k r) b
  | .ask (.inr o) k, b => .ask (.inr o) fun r => through (k r) b
  | .spin, _ => .spin

end Through

/-! ## What a reader keeps -/

/-- Whatever it is asked, the reader keeps `K`, and it reports the end only if `End` holds. -/
def Maintains (M : Machine Op Reply S) (K : ρ → S → Prop) (End : S → Prop)
    (read : Read Op Reply E β X ρ) : Prop :=
  ∀ r n s, K r s → Ensures M (fun _ => True)
    (fun a s' => K a.2 s' ∧ (n ≠ 0 → a.1 = .ok [] → End s')) (read r n) s

section Rules

variable {M : Machine Op Reply S} {K : ρ → S → Prop} {End : S → Prop}
  {read : Read Op Reply E β X ρ} {capacity : Nat} {b : BufReader ρ β} {s : S}

theorem ensures_fillBuf (h : Maintains M K End read) (hc : capacity ≠ 0) (hK : K b.inner s) :
    Ensures M (fun _ => True) (fun a s' => K a.2.inner s' ∧ (a.1 = .ok [] → End s'))
      (b.fillBuf read capacity) s := by
  rw [BufReader.fillBuf]
  split
  · refine ensures_bind (h b.inner capacity s hK) fun a s' _ ha => ?_
    obtain ⟨r, inner⟩ := a
    cases r with
    | ok chunk => exact ensures_ok trivial ⟨ha.1, ha.2 hc⟩
    | error e => exact ensures_ok trivial ⟨ha.1, fun he => by cases he⟩
  · rename_i hb
    exact ensures_ok trivial ⟨hK, fun he => absurd (Except.ok.inj he) hb⟩

theorem ensures_readInto (h : Maintains M K End read) (hc : capacity ≠ 0) {n : Nat}
    (hK : K b.inner s) :
    Ensures M (fun _ => True) (fun a s' => K a.2.inner s') (b.readInto read capacity n) s := by
  rw [BufReader.readInto]
  split
  · exact ensures_bind (h b.inner n s hK) fun a s' _ ha => ensures_ok trivial ha.1
  · refine ensures_bind (ensures_fillBuf h hc hK) fun a s' _ ha => ?_
    obtain ⟨r, b'⟩ := a
    cases r with
    | ok buffer => exact ensures_ok trivial ha.1
    | error e => exact ensures_ok trivial ha.1

/-- When the loop succeeds, the last read under the buffer reported the end: an empty buffer
    is never taken for it. -/
theorem ensures_copyToSink (h : Maintains M K End read) (hc : capacity ≠ 0) {retry : X → Bool}
    {fuel : Nat} (hK : K b.inner s) :
    Ensures M (fun _ => True) (fun a s' => K a.2.inner s' ∧ (a.1 = .ok () → End s'))
      (b.copyToSink read capacity retry fuel) s := by
  refine ensures_loop (K := fun b s => K b.inner s) (fun _ _ _ => trivial) (fun b s hK => ?_)
    fuel b s hK
  refine ensures_bind (ensures_fillBuf h hc hK) fun a s' _ ha => ?_
  obtain ⟨r, b'⟩ := a
  match r with
  | .ok [] => exact ensures_ok trivial ⟨ha.1, fun _ => ha.2 rfl⟩
  | .ok (x :: rest) => exact ensures_ok trivial ha.1
  | .error e =>
    dsimp only
    split
    · exact ensures_ok trivial ha.1
    · exact ensures_ok trivial ⟨ha.1, fun he => by cases he⟩

end Rules

section Through

variable {Op' S' : Type} {Reply' : Op' → Type} {M : Machine Op' Reply' S'}
  {N : Machine Op Reply S} {K : ρ → S' × S → Prop} {End : S' × S → Prop}
  {read : Read (Op' ⊕ Op) (Sum.elim Reply' Reply) E β X ρ} {capacity : Nat}

theorem ensures_answer (h : Maintains (M.beside N) K End read) (hc : capacity ≠ 0)
    {b : BufReader ρ β} {s : S' × S} (hK : K b.inner s) :
    ∀ o : Ask, Ensures (M.beside N) (fun _ => True) (fun a s' => K a.2.inner s')
      (b.answer read capacity o) s
  | .fillBuf => ensures_mono (ensures_fillBuf h hc hK) (fun _ h => h) fun _ _ _ ha => ha.1
  | .consume _ => ensures_ok trivial hK
  | .read _ => ensures_readInto h hc hK

/-- A decoder cannot do to the reader what reading does not do: whatever it asks for, the
    reader keeps what it keeps. -/
theorem ensures_through (h : Maintains (M.beside N) K End read) (hc : capacity ≠ 0)
    (hN : ∀ r s s', s'.1 = s.1 → K r s → K r s') (p : Decoder β X Op Reply E α)
    {b : BufReader ρ β} {s : S' × S} (hK : K b.inner s) :
    Ensures (M.beside N) (fun _ => True) (fun a s' => K a.2.inner s')
      (through read capacity p b) s := by
  induction p generalizing b s with
  | ret r =>
    cases r with
    | ok a => exact ensures_ok trivial hK
    | error e => exact ensures_error trivial
  | ask o k ih =>
    cases o with
    | inl o => exact ensures_bind (ensures_answer h hc hK o) fun a s' _ ha => ih a.1 ha
    | inr o => exact ⟨trivial, fun _ _ => trivial, fun r s' hs => ih r (hN _ s s' hs.2 hK)⟩
  | spin => exact trivial

end Through

end Reader
