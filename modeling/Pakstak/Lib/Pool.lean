/-
  Processes that share a state, and a lock for any number of readers or one writer.

  Each process runs a program of its own, on a state of its own that holds the shared one;
  the processes take turns, one question at a time, and any of them can stop or be killed
  between two questions or in the middle of one. Some answers give a process the lock.

  `Steady` is about one program while others take turns: from every state that satisfies `R`,
  each of its questions changes the state as `G` says, until it gets the lock (`L`) or ends.
  `Reach` is the part of a run up to some point.

  `HoldsSince P i P' x`: in turns from `P` to `P'`, the process `i` got the lock in a turn that
  left the shared state `x`, and has had it since.

  Proved: `orderly_turns`. Where no process changes the shared state without the lock, readers
  change it as `G` says, and a writer alone keeps `J`, it holds in every state of the pool; a
  writer's steps are those of a run of its own from the state in which it got the lock, and a
  reader ends as it would with no writer, by that state.
-/
import Pakstak.Lib.Prog
import Mathlib.Logic.Function.Basic

namespace Prog

variable {Op : Type} {Reply : Op → Type} {E S α β : Type}

/-! ## A run up to some point -/

inductive Reach (M : Machine Op Reply S) : Prog Op Reply E α → S → Prog Op Reply E α → S → Prop
  | refl (p : Prog Op Reply E α) (s : S) : Reach M p s p s
  | ask {o : Op} {k : Reply o → Prog Op Reply E α} {s s' s'' : S} {r : Reply o}
      {q : Prog Op Reply E α} (h : M.step o s r s') (t : Reach M (k r) s' q s'') :
      Reach M (ask o k) s q s''

variable {M : Machine Op Reply S} {p q : Prog Op Reply E α} {s s' s'' : S}

theorem Reach.trans {p' : Prog Op Reply E α} (h : Reach M p s q s') (h' : Reach M q s' p' s'') :
    Reach M p s p' s'' := by
  induction h with
  | refl p s => exact h'
  | ask hs _ ih => exact .ask hs (ih h')

theorem Reach.exec {res : Option (Except E α)} (h : Reach M p s q s')
    (h' : Exec M q s' res s'') : Exec M p s res s'' := by
  induction h with
  | refl p s => exact h'
  | ask hs _ ih => exact .ask hs (ih h')

theorem Reach.bind (h : Reach M p s q s') (f : α → Prog Op Reply E β) :
    Reach M (p.bind f) s (q.bind f) s' := by
  induction h with
  | refl p s => exact .refl _ s
  | ask hs _ ih => exact .ask hs ih

theorem Reach.attempt (h : Reach M p s q s') : Reach M p.attempt s q.attempt s' := by
  induction h with
  | refl p s => exact .refl _ s
  | ask hs _ ih => exact .ask hs ih

theorem Reach.mapError (h : Reach M p s q s') (f : E → E) :
    Reach M (p.mapError f) s (q.mapError f) s' := h.attempt.bind _

/-! ## Programs among others -/

/-- What a process can have of the lock. -/
inductive Hold where
  | reader | writer
  deriving DecidableEq

section Steady

variable (M : Machine Op Reply S) (lock : (o : Op) → Reply o → Option Hold) (R : S → Prop)
  (G : S → S → Prop)

/-- Whatever others do between the questions, as long as `R` holds where one is asked. -/
def Steady (L : Hold → S → Prog Op Reply E α → Prop) (P : α → Prop) (H : E → Prop) :
    Prog Op Reply E α → Prop
  | ret (.ok a) => P a
  | ret (.error e) => H e
  | ask o k => ∀ s, R s →
    (∀ r s', M.step o s r s' →
      G s s' ∧ (lock o r).elim (Steady L P H (k r)) fun h => L h s' (k r)) ∧
    ∀ s', M.mid o s s' → G s s'
  | spin => True

variable {M lock R G} {L : Hold → S → Prog Op Reply E α → Prop} {P P' : α → Prop} {H H' : E → Prop}

/-- The same question, with continuations that are as steady. -/
theorem steady_ask {o : Op} {k : Reply o → Prog Op Reply E α} {k' : Reply o → Prog Op Reply E β}
    {L' : Hold → S → Prog Op Reply E β → Prop} {Q : β → Prop}
    (h : Steady M lock R G L P H (ask o k))
    (hk : ∀ r, Steady M lock R G L P H (k r) → Steady M lock R G L' Q H' (k' r))
    (hL : ∀ m s r, L m s (k r) → L' m s (k' r)) : Steady M lock R G L' Q H' (ask o k') := by
  intro s hs
  refine ⟨fun r s' hstep => ?_, (h s hs).2⟩
  obtain ⟨hG, hcont⟩ := (h s hs).1 r s' hstep
  refine ⟨hG, ?_⟩
  cases hl : lock o r with
  | none =>
    rw [hl] at hcont
    exact hk r hcont
  | some m =>
    rw [hl] at hcont
    exact hL m s' r hcont

theorem steady_mono (h : Steady M lock R G L P H p) (hP : ∀ a, P a → P' a)
    (hH : ∀ e, H e → H' e) : Steady M lock R G L P' H' p := by
  induction p with
  | ret r =>
    cases r with
    | ok a => exact hP a h
    | error e => exact hH e h
  | ask o k ih => exact steady_ask h ih fun _ _ _ => id
  | spin => trivial

theorem steady_bind {f : α → Prog Op Reply E β} {L : Hold → S → Prog Op Reply E β → Prop}
    {P : α → Prop} {Q : β → Prop}
    (h : Steady M lock R G (fun m s q => L m s (q.bind f)) P H p)
    (hf : ∀ a, P a → Steady M lock R G L Q H (f a)) : Steady M lock R G L Q H (p.bind f) := by
  induction p with
  | ret r =>
    cases r with
    | ok a => exact hf a h
    | error e => exact h
  | ask o k ih => exact steady_ask h ih fun _ _ _ => id
  | spin => trivial

theorem steady_mapError {f : E → E} (h : Steady M lock R G (fun m s q => L m s (q.mapError f)) P
    (fun e => H (f e)) p) : Steady M lock R G L P H (p.mapError f) := by
  induction p with
  | ret r =>
    cases r with
    | ok a => exact h
    | error e => exact h
  | ask o k ih => exact steady_ask h ih fun _ _ _ => id
  | spin => trivial

/-- One question that does not give the lock. -/
theorem steady_call {C : S → Prop} {o : Op} {P : Reply o → Prop}
    {L : Hold → S → Prog Op Reply E (Reply o) → Prop} (hl : ∀ r, lock o r = none)
    (h : ∀ s, R s → C s → Ensures M (G s) (fun r _ => P r) (call o : Prog Op Reply E _) s) :
    Steady (M.under C) lock R G L P H (call o) := by
  refine fun s hs => ⟨fun r s' hstep => ?_, fun s' hmid => (h s hs hmid.1).2.1 s' hmid.2⟩
  have hr := (h s hs hstep.1).2.2 r s' hstep.2
  rw [hl]
  exact ⟨hr.1, hr.2⟩

/-- Where no answer gives the lock, what comes after it does not matter. -/
theorem steady_unlocked {L' : Hold → S → Prog Op Reply E α → Prop}
    (h : Steady M (fun _ _ => none) R G L P H p) :
    Steady M (fun _ _ => none) R G L' P H p := by
  induction p with
  | ret r =>
    cases r with
    | ok a => exact h
    | error e => exact h
  | ask o k ih =>
    exact fun s hs => ⟨fun r s' hstep => ⟨((h s hs).1 r s' hstep).1,
      ih r ((h s hs).1 r s' hstep).2⟩, (h s hs).2⟩
  | spin => trivial

/-- Just one question. -/
def Brief : Prog Op Reply E α → Prop
  | ask _ k => ∀ r, ∃ x, k r = ret x
  | _ => False

theorem brief_call (o : Op) : Brief (call o : Prog Op Reply E (Reply o)) := fun r => ⟨.ok r, rfl⟩

theorem Brief.bind {f : α → Prog Op Reply E β} (h : Brief p) (hf : ∀ a, ∃ x, f a = ret x) :
    Brief (p.bind f) := by
  cases p with
  | ret r => exact h.elim
  | ask o k =>
    intro r
    obtain ⟨x, hx⟩ := h r
    cases x with
    | ok a =>
      obtain ⟨y, hy⟩ := hf a
      exact ⟨y, by simp only [hx, Prog.bind, hy]⟩
    | error e => exact ⟨.error e, by simp only [hx, Prog.bind]⟩
  | spin => exact h.elim

theorem Brief.mapError {f : E → E} (h : Brief p) : Brief (p.mapError f) := by
  cases p with
  | ret r => exact h.elim
  | ask o k =>
    intro r
    obtain ⟨x, hx⟩ := h r
    exact ⟨x.mapError f, by simp only [attempt, hx, Prog.bind]⟩
  | spin => exact h.elim

/-- With one question there is nothing to come between. -/
theorem steady_of_ends {C : S → Prop} (hp : Brief p)
    (h : ∀ s, R s → C s → Ends M (G s) (fun a _ => P a) (fun e _ => H e) p s) :
    Steady (M.under C) (fun _ _ => none) R G L P H p := by
  cases p with
  | ret r => exact hp.elim
  | ask o k =>
    refine fun s hs => ⟨fun r s' hstep => ?_, fun s' hmid => (h s hs hmid.1).2.1 s' hmid.2⟩
    have hend := (h s hs hstep.1).2.2 r s' hstep.2
    refine ⟨wp_here hend, ?_⟩
    obtain ⟨x, hx⟩ := hp r
    rw [hx] at hend
    show Steady (M.under C) (fun _ _ => none) R G L P H (k r)
    rw [hx]
    cases x with
    | ok a => exact hend.2
    | error e => exact hend.2
  | spin => exact hp.elim

/-- A fold, by what is kept of the value and the elements left. -/
theorem steady_fold {f : α → β → Prog Op Reply E α} {K : α → List β → Prop}
    (h : ∀ a b bs, K a (b :: bs) →
      Steady M (fun _ _ => none) R G L (fun a' => K a' bs) H (f a b)) :
    ∀ bs a, K a bs → Steady M (fun _ _ => none) R G L (fun a' => K a' []) H (fold f a bs)
  | [], _, ha => ha
  | _ :: bs, _, ha => steady_bind (steady_unlocked (h _ _ bs ha)) fun a' ha' =>
    steady_fold h bs a' ha'

end Steady

/-! ## The pool -/

/-- A process: what it has still to do, its own state, and what it has of the lock. -/
structure Process (Op : Type) (Reply : Op → Type) (E α S : Type) where
  prog : Prog Op Reply E α
  state : S
  hold : Option Hold

/-- The shared state and the processes there are. -/
structure Pool (ι σ : Type) (Op : Type) (Reply : Op → Type) (E α S : Type) where
  shared : σ
  procs : ι → Option (Process Op Reply E α S)

/-- The shared part of the state of a process. -/
structure Share (S σ : Type) where
  get : S → σ
  put : S → σ → S
  get_put : ∀ s x, get (put s x) = x
  put_get : ∀ s, put s (get s) = s

section Pool

variable {ι σ : Type} [DecidableEq ι] (share : Share S σ)
  (M : ι → Machine Op Reply S) (lock : (o : Op) → Reply o → Option Hold)
  (jobs : ι → Prog Op Reply E α)

/-- What others have of the lock leaves it free for `i`. -/
def Pool.Admits (P : Pool ι σ Op Reply E α S) (i : ι) : Hold → Prop
  | .reader => ∀ j q, j ≠ i → P.procs j = some q → q.hold ≠ some .writer
  | .writer => ∀ j q, j ≠ i → P.procs j = some q → q.hold = none

/-- The pool with another process at `i`. -/
def Pool.set (P : Pool ι σ Op Reply E α S) (i : ι) (x : σ) (o : Option (Process Op Reply E α S)) :
    Pool ι σ Op Reply E α S := ⟨x, Function.update P.procs i o⟩

inductive Turn : Pool ι σ Op Reply E α S → Pool ι σ Op Reply E α S → Prop
  | start {P : Pool ι σ Op Reply E α S} {i : ι} (s : S) (h : P.procs i = none) :
      Turn P (P.set i P.shared (some ⟨jobs i, s, none⟩))
  | stop {P : Pool ι σ Op Reply E α S} (i : ι) : Turn P (P.set i P.shared none)
  | call {P : Pool ι σ Op Reply E α S} {i : ι} {o : Op} {k : Reply o → Prog Op Reply E α}
      {s s' : S} {h : Option Hold} {r : Reply o} (hp : P.procs i = some ⟨.ask o k, s, h⟩)
      (hstep : (M i).step o (share.put s P.shared) r s')
      (hfree : h = none → ∀ m, lock o r = some m → P.Admits i m) :
      Turn P (P.set i (share.get s') (some ⟨k r, s', h.or (lock o r)⟩))
  | killed {P : Pool ι σ Op Reply E α S} {i : ι} {o : Op} {k : Reply o → Prog Op Reply E α}
      {s s' : S} {h : Option Hold} (hp : P.procs i = some ⟨.ask o k, s, h⟩)
      (hmid : (M i).mid o (share.put s P.shared) s') : Turn P (P.set i (share.get s') none)

/-- Any number of turns. -/
inductive Turns (P : Pool ι σ Op Reply E α S) : Pool ι σ Op Reply E α S → Prop
  | refl : Turns P P
  | step {P' P'' : Pool ι σ Op Reply E α S} (h : Turns P P')
      (ht : Turn share M lock jobs P' P'') : Turns P P''

/-- `i` got the lock in a turn that left the shared state `x`, and has had it since. -/
inductive HoldsSince (P : Pool ι σ Op Reply E α S) (i : ι) :
    Pool ι σ Op Reply E α S → σ → Prop
  | got {P' P'' : Pool ι σ Op Reply E α S} {q : Process Op Reply E α S}
      (h : Turns share M lock jobs P P') (ht : Turn share M lock jobs P' P'')
      (hfree : ∀ q, P'.procs i = some q → q.hold = none) (hq : P''.procs i = some q)
      (hold : q.hold ≠ none) : HoldsSince P i P'' P''.shared
  | on {P' P'' : Pool ι σ Op Reply E α S} {q : Process Op Reply E α S} {x : σ}
      (h : HoldsSince P i P' x) (ht : Turn share M lock jobs P' P'') (hq : P''.procs i = some q)
      (hold : q.hold ≠ none) : HoldsSince P i P'' x

variable (J : σ → Prop) (G : σ → σ → Prop) (Q : ι → σ → Except E α → Prop)

/-- What a reader has before it, that got the lock when the shared state was `x`. -/
def Inside (i : ι) (x : σ) : Prog Op Reply E α → Prop :=
  Steady (M i) (fun _ _ => none) (fun s => J (share.get s) ∧ G x (share.get s))
    (fun s s' => G (share.get s) (share.get s')) (fun _ _ _ => True)
    (fun a => Q i x (.ok a)) (fun e => Q i x (.error e))

/-- What comes after the lock: a writer is where its own run can be from the state it starts
    in, and alone it keeps `J`. -/
def Entering (i : ι) : Hold → S → Prog Op Reply E α → Prop
  | .reader, s, q => Inside share M J G Q i (share.get s) q
  | .writer, s, q => Reach (M i) (jobs i) s q s ∧
      ∀ s s', J (share.get s) → Exec (M i) (jobs i) s none s' → J (share.get s')

/-- What a process has before it that does not have the lock. -/
def Outside (i : ι) : Prog Op Reply E α → Prop :=
  Steady (M i) lock (fun s => J (share.get s)) (fun s s' => share.get s' = share.get s)
    (Entering share M jobs J G Q i) (fun _ => True) (fun _ => True)

/-- Each process, by what it has of the lock since the shared state was `x₀`, where it is `x`. -/
def Conduct (i : ι) (x₀ x : σ) (q : Process Op Reply E α S) : Prop :=
  match q.hold with
  | none => Outside share M lock jobs J G Q i q.prog
  | some .reader => G x₀ x ∧ Inside share M J G Q i x₀ q.prog
  | some .writer => ∃ s, share.get s = x₀ ∧ J x₀ ∧
      Reach (M i) (jobs i) s q.prog (share.put q.state x) ∧
      ∀ s s', J (share.get s) → Exec (M i) (jobs i) s none s' → J (share.get s')

/-- The discipline of the lock. -/
structure Disciplined : Prop where
  refl : ∀ x, J x → G x x
  trans : ∀ x y z, G x y → G y z → G x z
  keeps : ∀ x y, J x → G x y → J y
  outside : ∀ i, Outside share M lock jobs J G Q i (jobs i)

/-- `since i` is the shared state in which `i` got the lock that it has. -/
structure Orderly (since : ι → σ) (P : Pool ι σ Op Reply E α S) : Prop where
  inv : J P.shared
  alone : ∀ i q, P.procs i = some q → q.hold = some .writer →
    ∀ j q', j ≠ i → P.procs j = some q' → q'.hold = none
  conduct : ∀ i q, P.procs i = some q → Conduct share M lock jobs J G Q i (since i) P.shared q

variable {share M lock jobs J G Q} {P P' : Pool ι σ Op Reply E α S} {i : ι} {since : ι → σ}

theorem set_same (x : σ) (o : Option (Process Op Reply E α S)) : (P.set i x o).procs i = o :=
  Function.update_self ..

theorem set_of_ne {j : ι} (h : j ≠ i) (x : σ) (o : Option (Process Op Reply E α S)) :
    (P.set i x o).procs j = P.procs j := Function.update_of_ne h ..

/-- A process goes on: `i` may be gone or changed, and the others keep their conduct if the
    shared state is the same, or no other writes, or no other has the lock. -/
theorem Orderly.set (hd : Disciplined share M lock jobs J G Q)
    (h : Orderly share M lock jobs J G Q since P) {x x₀ : σ}
    {o : Option (Process Op Reply E α S)} (hJ : J x)
    (hi : ∀ q, o = some q → Conduct share M lock jobs J G Q i x₀ x q)
    (hx : x = P.shared ∨ (P.Admits i .reader ∧ G P.shared x) ∨ P.Admits i .writer)
    (hfree : ∀ q m, o = some q → q.hold = some m → P.Admits i m) :
    Orderly share M lock jobs J G Q (Function.update since i x₀) (P.set i x o) := by
  refine ⟨hJ, fun j q hq hw l q' hl hq' => ?_, fun j q hq => ?_⟩
  · by_cases hj : j = i
    · subst hj
      rw [set_same] at hq
      rw [set_of_ne hl] at hq'
      exact hfree q _ hq hw l q' hl hq'
    · rw [set_of_ne hj] at hq
      by_cases hl' : l = i
      · subst hl'
        rw [set_same] at hq'
        cases hm : q'.hold with
        | none => rfl
        | some m =>
          have hadm := hfree q' m hq' hm
          cases m with
          | reader => exact absurd hw (hadm j q hj hq)
          | writer => exact absurd hw (by rw [hadm j q hj hq]; simp)
      · rw [set_of_ne hl'] at hq'
        exact h.alone j q hq hw l q' hl hq'
  · by_cases hj : j = i
    · subst hj
      rw [set_same] at hq
      rw [Function.update_self]
      exact hi q hq
    · rw [set_of_ne hj] at hq
      rw [Function.update_of_ne hj]
      have hc := h.conduct j q hq
      rcases hx with rfl | ⟨hr, hG⟩ | hw
      · exact hc
      · rw [Conduct] at hc ⊢
        cases hm : q.hold with
        | none =>
          rw [hm] at hc
          exact hc
        | some m =>
          rw [hm] at hc
          cases m with
          | reader => exact ⟨hd.trans _ _ _ hc.1 hG, hc.2⟩
          | writer => exact absurd hm (hr j q hj hq)
      · rw [Conduct, hw j q hj hq] at hc ⊢
        exact hc

omit [DecidableEq ι] in
/-- One question of a process, answered or cut off. -/
theorem Orderly.ask (h : Orderly share M lock jobs J G Q since P) {o : Op}
    (hd : Disciplined share M lock jobs J G Q)
    {k : Reply o → Prog Op Reply E α} {s : S} {m : Option Hold}
    (hp : P.procs i = some ⟨.ask o k, s, m⟩) :
    (∀ r s', (M i).step o (share.put s P.shared) r s' →
      J (share.get s') ∧ Conduct share M lock jobs J G Q i
        (m.elim (share.get s') fun _ => since i) (share.get s') ⟨k r, s', m.or (lock o r)⟩ ∧
      (share.get s' = P.shared ∨ P.Admits i .reader ∧ G P.shared (share.get s') ∨
        P.Admits i .writer)) ∧
    ∀ s', (M i).mid o (share.put s P.shared) s' →
      J (share.get s') ∧ (share.get s' = P.shared ∨
        P.Admits i .reader ∧ G P.shared (share.get s') ∨ P.Admits i .writer) := by
  have hc := h.conduct i _ hp
  have hget := share.get_put s P.shared
  have hJ : J (share.get (share.put s P.shared)) := hget.symm ▸ h.inv
  rw [Conduct] at hc
  cases m with
  | none =>
    obtain ⟨hstep, hmid⟩ := hc _ hJ
    simp only [hget] at hstep hmid
    refine ⟨fun r s' hs => ?_, fun s' hs => ⟨(hmid s' hs).symm ▸ h.inv, .inl (hmid s' hs)⟩⟩
    obtain ⟨hsame, hnext⟩ := hstep r s' hs
    have hJ' : J (share.get s') := hsame.symm ▸ h.inv
    refine ⟨hJ', ?_, .inl hsame⟩
    rw [Conduct, Option.none_or]
    cases hl : lock o r with
    | none =>
      rw [hl] at hnext
      exact hnext
    | some l =>
      rw [hl] at hnext
      cases l with
      | reader => exact ⟨hd.refl _ hJ', hnext⟩
      | writer => exact ⟨s', rfl, hJ', by rw [share.put_get]; exact hnext.1, hnext.2⟩
  | some l =>
    cases l with
    | reader =>
      obtain ⟨hx₀, hin⟩ := hc
      have hadm : P.Admits i .reader := fun j q hj hq hw => by
        have := h.alone j q hq hw i _ hj.symm hp
        cases this
      obtain ⟨hstep, hmid⟩ := hin _ ⟨hJ, hget.symm ▸ hx₀⟩
      simp only [hget] at hstep hmid
      refine ⟨fun r s' hs => ?_, fun s' hs => ⟨hd.keeps _ _ h.inv (hmid s' hs),
        .inr (.inl ⟨hadm, hmid s' hs⟩)⟩⟩
      obtain ⟨hG, hnext⟩ := hstep r s' hs
      exact ⟨hd.keeps _ _ h.inv hG, ⟨hd.trans _ _ _ hx₀ hG, hnext⟩, .inr (.inl ⟨hadm, hG⟩)⟩
    | writer =>
      obtain ⟨s₀, hs₀, hJ₀, hreach, hkeep⟩ := hc
      have hJs : J (share.get s₀) := hs₀ ▸ hJ₀
      have hadm : P.Admits i .writer := fun j q hj hq => h.alone i _ hp rfl j q hj hq
      refine ⟨fun r s' hs => ?_, fun s' hs =>
        ⟨hkeep _ _ hJs (hreach.exec (.mid hs)), .inr (.inr hadm)⟩⟩
      have hreach' : Reach (M i) (jobs i) s₀ (k r) s' := hreach.trans (.ask hs (.refl _ _))
      refine ⟨hkeep _ _ hJs (hreach'.exec (.here _ _)), ?_, .inr (.inr hadm)⟩
      exact ⟨s₀, hs₀, hJ₀, by rw [share.put_get]; exact hreach', hkeep⟩

/-- After a turn, a process that has the lock had it before, since the same state, or has got it
    in this turn. -/
theorem Orderly.turn (hd : Disciplined share M lock jobs J G Q)
    (h : Orderly share M lock jobs J G Q since P) (ht : Turn share M lock jobs P P') :
    ∃ since', Orderly share M lock jobs J G Q since' P' ∧ ∀ j q, P'.procs j = some q →
      q.hold ≠ none → (∃ q', P.procs j = some q' ∧ q'.hold ≠ none ∧ since' j = since j) ∨
        (∀ q', P.procs j = some q' → q'.hold = none) ∧ since' j = P'.shared := by
  -- the others have the lock since they had it
  have others {i : ι} {x x₀ : σ} {o : Option (Process Op Reply E α S)} {j : ι}
      {q : Process Op Reply E α S} (hj : j ≠ i) (hq : (P.set i x o).procs j = some q)
      (hold : q.hold ≠ none) : ∃ q', P.procs j = some q' ∧ q'.hold ≠ none ∧
        Function.update since i x₀ j = since j :=
    ⟨q, by rwa [set_of_ne hj] at hq, hold, Function.update_of_ne hj ..⟩
  have gone {i : ι} {x x₀ : σ} {j : ι} {q : Process Op Reply E α S}
      (hq : (P.set i x none).procs j = some q) (hold : q.hold ≠ none) :
      ∃ q', P.procs j = some q' ∧ q'.hold ≠ none ∧ Function.update since i x₀ j = since j := by
    refine others (fun hj => ?_) hq hold
    rw [hj, set_same] at hq
    cases hq
  cases ht with
  | @start i s hnone =>
    refine ⟨Function.update since i P.shared, h.set hd h.inv (fun q hq => ?_) (.inl rfl)
      fun q m hq hm => ?_, fun j q hq hold => ?_⟩
    · obtain rfl := Option.some.inj hq
      exact hd.outside _
    · obtain rfl := Option.some.inj hq
      cases hm
    · by_cases hj : j = i
      · subst hj
        rw [set_same] at hq
        obtain rfl := Option.some.inj hq
        exact absurd rfl hold
      · exact .inl (others hj hq hold)
  | stop i =>
    exact ⟨Function.update since i P.shared, h.set hd h.inv (fun _ hq => by cases hq) (.inl rfl)
      fun _ _ hq => (by cases hq), fun j q hq hold => .inl (gone hq hold)⟩
  | @call i o k s s' m r hp hstep hfree =>
    obtain ⟨hJ, hc, hx⟩ := (h.ask hd hp).1 r s' hstep
    refine ⟨_, h.set hd hJ (fun q hq => Option.some.inj hq ▸ hc) hx fun q l hq hl => ?_,
      fun j q hq hold => ?_⟩
    · obtain rfl := Option.some.inj hq
      cases m with
      | none => exact hfree rfl l (by simpa using hl)
      | some m =>
        obtain rfl : m = l := by simpa using hl
        cases m with
        | reader =>
          intro j q hj hq hw
          have := h.alone j q hq hw i _ hj.symm hp
          cases this
        | writer => exact fun j q hj hq => h.alone i _ hp rfl j q hj hq
    · by_cases hj : j = i
      · subst hj
        rw [Function.update_self]
        cases m with
        | none =>
          refine .inr ⟨fun q' hq' => ?_, rfl⟩
          obtain rfl := Option.some.inj (hp.symm.trans hq')
          rfl
        | some m => exact .inl ⟨_, hp, by simp, rfl⟩
      · exact .inl (others hj hq hold)
  | @killed i o k s s' m hp hmid =>
    obtain ⟨hJ, hx⟩ := (h.ask hd hp).2 _ hmid
    exact ⟨Function.update since i P.shared, h.set hd hJ (fun _ hq => by cases hq) hx
      fun _ _ hq => (by cases hq), fun j q hq hold => .inl (gone hq hold)⟩

/-- From a pool where nobody is yet, by what each process has the lock since. -/
theorem orderly_turns (hd : Disciplined share M lock jobs J G Q) (hJ : J P.shared)
    (hnobody : ∀ i, P.procs i = none) (ht : Turns share M lock jobs P P') :
    ∃ since, Orderly share M lock jobs J G Q since P' ∧ ∀ i q, P'.procs i = some q →
      q.hold ≠ none → HoldsSince share M lock jobs P i P' (since i) := by
  induction ht with
  | refl =>
    exact ⟨fun _ => P.shared, ⟨hJ, fun i q hq => absurd hq (by rw [hnobody i]; simp),
      fun i q hq => absurd hq (by rw [hnobody i]; simp)⟩,
      fun i q hq => absurd hq (by rw [hnobody i]; simp)⟩
  | step hts ht ih =>
    obtain ⟨since, ho, hs⟩ := ih
    obtain ⟨since', ho', hs'⟩ := ho.turn hd ht
    refine ⟨since', ho', fun i q hq hold => ?_⟩
    rcases hs' i q hq hold with ⟨q', hq', hold', he⟩ | ⟨hfree, he⟩
    · exact he ▸ .on (hs i q' hq' hold') ht hq hold
    · exact he ▸ .got hts ht hfree hq hold

omit [DecidableEq ι] in
/-- What a reader has done since it got the lock, and how it ends. -/
theorem Orderly.result {q : Process Op Reply E α S}
    (h : Orderly share M lock jobs J G Q since P) (hp : P.procs i = some q)
    (hq : q.hold = some .reader) :
    G (since i) P.shared ∧ ∀ r, q.prog = .ret r → Q i (since i) r := by
  have hc := h.conduct i q hp
  rw [Conduct, hq] at hc
  refine ⟨hc.1, fun r hr => ?_⟩
  have hin := hc.2
  rw [hr] at hin
  cases r with
  | ok a => exact hin
  | error e => exact hin

omit [DecidableEq ι] in
/-- A writer is where a run of its own would be from the state in which it got the lock. -/
theorem Orderly.serial {q : Process Op Reply E α S}
    (h : Orderly share M lock jobs J G Q since P) (hp : P.procs i = some q)
    (hq : q.hold = some .writer) :
    ∃ s, share.get s = since i ∧ J (since i) ∧
      Reach (M i) (jobs i) s q.prog (share.put q.state P.shared) := by
  have hc := h.conduct i q hp
  rw [Conduct, hq] at hc
  obtain ⟨s, hs, hJ, hreach, -⟩ := hc
  exact ⟨s, hs, hJ, hreach⟩

end Pool

end Prog
