/-
  Programs that talk to an environment, their executions with a kill at any point,
  and a weakest precondition with a crash condition.

  A program is a tree: it returns (`ret`), asks the environment one question and goes
  on with the reply (`ask`), or makes no further step (`spin`, a loop that has run out
  of fuel). A `Machine` says which replies and next states a question may have
  (`step`), and which states can be seen while it is being answered (`mid`).

  `Exec M p s res s'`: started in `s`, the program can be observed in `s'`; `res = none`
  is an observation in passing (the process may be killed there), `res = some r` is
  the end of the run.

  `wp M I Q p s`: every state observed in passing satisfies `I`, and every end of the
  run satisfies `Q`. `Ensures M I P p s` leaves open what holds after an error, `Ends` says
  it; `EnsuresUnder` is about runs whose steps all start from states that satisfy `C`.

  Proved:
  * `wp_iff_exec`: `wp` is exactly that, on `Exec`.
  * The rules: `wp_bind`, `wp_attempt`, `wp_mono`, `wp_and`, `wp_call`, `wp_each`,
    `wp_fold`, `wp_loop`, and the same for `Ensures`, `Ends` and `EnsuresUnder`.
  * `halts_loop`: a loop that has the fuel for its turns comes to an end; `returns_iff`: a
    program that succeeds or fails as a condition says returns if and only if it holds.
  * `ensures_asksOnly`: what no question of a kind breaks, a program of such questions keeps.
  * `exec_run`: a deterministic environment that respects the machine gives an execution.
  * `returns_iff_eval`: a program whose questions all have one answer does what it evaluates to.
-/
import Mathlib.Logic.Basic

/-- Programs over the questions `Op`, with errors in `E`. -/
inductive Prog (Op : Type) (Reply : Op → Type) (E : Type) (α : Type) : Type
  | ret (r : Except E α)
  | ask (o : Op) (k : Reply o → Prog Op Reply E α)
  | spin

/-- What the environment may do with a question. -/
structure Machine (Op : Type) (Reply : Op → Type) (S : Type) where
  step : (o : Op) → S → Reply o → S → Prop
  mid : Op → S → S → Prop

/-- The machine that goes on only from states that satisfy `C`. -/
def Machine.under {Op : Type} {Reply : Op → Type} {S : Type} (M : Machine Op Reply S)
    (C : S → Prop) : Machine Op Reply S :=
  ⟨fun o s r s' => C s ∧ M.step o s r s', fun o s s' => C s ∧ M.mid o s s'⟩

/-- The machine, where an answer must satisfy `R`. -/
def Machine.only {Op : Type} {Reply : Op → Type} {S : Type} (M : Machine Op Reply S)
    (R : (o : Op) → S → Reply o → Prop) : Machine Op Reply S :=
  ⟨fun o s r s' => M.step o s r s' ∧ R o s r, M.mid⟩

theorem Machine.only_true {Op : Type} {Reply : Op → Type} {S : Type} (M : Machine Op Reply S) :
    M.only (fun _ _ _ => True) = M := by
  simp [Machine.only]

theorem Machine.under_true {Op : Type} {Reply : Op → Type} {S : Type} (M : Machine Op Reply S) :
    M.under (fun _ => True) = M := by
  simp [Machine.under]

namespace Prog

variable {Op : Type} {Reply : Op → Type} {E S α β γ σ : Type}

/-! ## Composing programs -/

/-- Run `p`, then `f` on its value; an error of `p` ends the run. -/
def bind : Prog Op Reply E α → (α → Prog Op Reply E β) → Prog Op Reply E β
  | ret (.ok a), f => f a
  | ret (.error e), _ => ret (.error e)
  | ask o k, f => ask o fun r => (k r).bind f
  | spin, _ => spin

instance : Monad (Prog Op Reply E) where
  pure a := ret (.ok a)
  bind := bind

/-- End the run with an error. -/
def fail (e : E) : Prog Op Reply E α := ret (.error e)

/-- One question. -/
def call (o : Op) : Prog Op Reply E (Reply o) := ask o fun r => ret (.ok r)

/-- Run `p` and hand its outcome on as a value. -/
def attempt : Prog Op Reply E α → Prog Op Reply E (Except E α)
  | ret r => ret (.ok r)
  | ask o k => ask o fun r => (k r).attempt
  | spin => spin

/-- An outcome as a program. -/
def lift (r : Except E α) : Prog Op Reply E α := ret r

/-- Change the error of `p`. -/
def mapError (f : E → E) (p : Prog Op Reply E α) : Prog Op Reply E α :=
  p.attempt.bind fun r => ret (r.mapError f)

/-- `f` on every element, in order, up to the first error. -/
def each (f : β → Prog Op Reply E Unit) : List β → Prog Op Reply E Unit
  | [] => ret (.ok ())
  | b :: bs => (f b).bind fun _ => each f bs

/-- Fold over a list, in order, up to the first error. -/
def fold (f : α → β → Prog Op Reply E α) : α → List β → Prog Op Reply E α
  | a, [] => ret (.ok a)
  | a, b :: bs => (f a b).bind fun a' => fold f a' bs

/-- Repeat `body` until it leaves the loop, at most `fuel` times. -/
def loop (body : σ → Prog Op Reply E (σ ⊕ α)) : Nat → σ → Prog Op Reply E α
  | 0, _ => spin
  | n + 1, x => (body x).bind fun
    | .inl x' => loop body n x'
    | .inr a => ret (.ok a)

@[simp] theorem bind_eq (p : Prog Op Reply E α) (f : α → Prog Op Reply E β) :
    p >>= f = p.bind f := rfl

@[simp] theorem pure_eq (a : α) : (Pure.pure a : Prog Op Reply E α) = ret (.ok a) := rfl

@[simp] theorem fail_eq (e : E) : (fail e : Prog Op Reply E α) = ret (.error e) := rfl

theorem bind_assoc (p : Prog Op Reply E α) (f : α → Prog Op Reply E β)
    (g : β → Prog Op Reply E γ) : (p.bind f).bind g = p.bind fun a => (f a).bind g := by
  induction p with
  | ret r => cases r <;> rfl
  | ask o k ih => simp only [bind, ih]
  | spin => rfl

/-! ## Executions -/

variable (M : Machine Op Reply S)

/-- The states a run can be seen in: in passing (`none`) or at its end (`some r`). -/
inductive Exec : Prog Op Reply E α → S → Option (Except E α) → S → Prop
  | here (p : Prog Op Reply E α) (s : S) : Exec p s none s
  | done (r : Except E α) (s : S) : Exec (ret r) s (some r) s
  | mid {o : Op} {k : Reply o → Prog Op Reply E α} {s s' : S} (h : M.mid o s s') :
      Exec (ask o k) s none s'
  | ask {o : Op} {k : Reply o → Prog Op Reply E α} {s s' s'' : S} {r : Reply o}
      {res : Option (Except E α)} (h : M.step o s r s') (t : Exec (k r) s' res s'') :
      Exec (ask o k) s res s''

variable {M}

/-- The end of a run is one of the states it can be seen in. -/
theorem exec_seen {p : Prog Op Reply E α} {s s' : S} {res : Option (Except E α)}
    (h : Exec M p s res s') : Exec M p s none s' := by
  induction h with
  | here p s => exact .here p s
  | done r s => exact .here _ s
  | mid hm => exact .mid hm
  | ask hs _ ih => exact .ask hs ih

theorem exec_bind {p : Prog Op Reply E α} {f : α → Prog Op Reply E β} {a : α} {s s' s'' : S}
    {res : Option (Except E β)} (h : Exec M p s (some (.ok a)) s')
    (h' : Exec M (f a) s' res s'') : Exec M (p.bind f) s res s'' := by
  generalize hr : some (Except.ok a) = r at h
  induction h with
  | here p s => cases hr
  | done r s =>
    cases hr
    exact h'
  | mid hm => cases hr
  | ask hs _ ih => exact .ask hs (ih h' hr)

theorem exec_bind_error {p : Prog Op Reply E α} {f : α → Prog Op Reply E β} {e : E} {s s' : S}
    (h : Exec M p s (some (.error e)) s') : Exec M (p.bind f) s (some (.error e)) s' := by
  generalize hr : some (Except.error e) = r at h
  induction h with
  | here p s => cases hr
  | done r s =>
    cases hr
    exact .done _ s
  | mid hm => cases hr
  | ask hs _ ih => exact .ask hs (ih hr)

theorem exec_attempt {p : Prog Op Reply E α} {r : Except E α} {s s' : S}
    (h : Exec M p s (some r) s') : Exec M p.attempt s (some (.ok r)) s' := by
  generalize hr : some r = r' at h
  induction h with
  | here p s => cases hr
  | done r s =>
    cases hr
    exact .done _ s
  | mid hm => cases hr
  | ask hs _ ih => exact .ask hs (ih hr)

theorem exec_mapError {p : Prog Op Reply E α} {f : E → E} {a : α} {s s' : S}
    (h : Exec M p s (some (.ok a)) s') : Exec M (p.mapError f) s (some (.ok a)) s' :=
  exec_bind (exec_attempt h) (.done _ _)

theorem exec_mapError_error {p : Prog Op Reply E α} {f : E → E} {e : E} {s s' : S}
    (h : Exec M p s (some (.error e)) s') : Exec M (p.mapError f) s (some (.error (f e))) s' :=
  exec_bind (exec_attempt h) (.done _ _)

theorem exec_only {R : (o : Op) → S → Reply o → Prop} {p : Prog Op Reply E α} {s s' : S}
    {res : Option (Except E α)} (h : Exec (M.only R) p s res s') : Exec M p s res s' := by
  induction h with
  | here p s => exact .here p s
  | done r s => exact .done r s
  | mid hm => exact .mid hm
  | ask hs _ ih => exact .ask hs.1 ih

variable (M)

/-- Every state seen in passing satisfies `I`, every end of the run satisfies `Q`. -/
def wp (I : S → Prop) (Q : Except E α → S → Prop) : Prog Op Reply E α → S → Prop
  | ret r, s => I s ∧ Q r s
  | ask o k, s => I s ∧ (∀ s', M.mid o s s' → I s') ∧ ∀ r s', M.step o s r s' → wp I Q (k r) s'
  | spin, s => I s

variable {M} {I J : S → Prop} {Q R : Except E α → S → Prop}

theorem wp_here {p : Prog Op Reply E α} {s : S} (h : wp M I Q p s) : I s := by
  cases p with
  | ret r => exact h.1
  | ask o k => exact h.1
  | spin => exact h

theorem wp_exec {p : Prog Op Reply E α} {s s' : S} {res : Option (Except E α)}
    (h : wp M I Q p s) (hx : Exec M p s res s') : I s' ∧ ∀ r, res = some r → Q r s' := by
  induction hx with
  | here p s => exact ⟨wp_here h, fun r hr => by cases hr⟩
  | done r s => exact ⟨h.1, fun r' hr => by cases hr; exact h.2⟩
  | mid hm => exact ⟨h.2.1 _ hm, fun r hr => by cases hr⟩
  | ask hs _ ih => exact ih (h.2.2 _ _ hs)

/-- `wp` says of a program what its executions show. -/
theorem wp_iff_exec {p : Prog Op Reply E α} {s : S} :
    wp M I Q p s ↔
      ∀ res s', Exec M p s res s' → I s' ∧ ∀ r, res = some r → Q r s' := by
  constructor
  · intro h res s' hx
    exact wp_exec h hx
  · intro h
    induction p generalizing s with
    | ret r => exact ⟨(h _ _ (.here _ s)).1, (h _ _ (.done r s)).2 r rfl⟩
    | ask o k ih =>
      refine ⟨(h _ _ (.here _ s)).1, fun s' hm => (h _ _ (.mid hm)).1, fun r s' hs => ?_⟩
      exact ih r fun res s'' hx => h res s'' (.ask hs hx)
    | spin => exact (h _ _ (.here _ s)).1

/-! ## Rules -/

theorem wp_mono {p : Prog Op Reply E α} {s : S} (h : wp M I Q p s) (hI : ∀ s, I s → J s)
    (hQ : ∀ r s, I s → Q r s → R r s) : wp M J R p s := by
  induction p generalizing s with
  | ret r => exact ⟨hI _ h.1, hQ _ _ h.1 h.2⟩
  | ask o k ih =>
    exact ⟨hI _ h.1, fun s' hm => hI _ (h.2.1 s' hm), fun r s' hs => ih r (h.2.2 r s' hs)⟩
  | spin => exact hI _ h

theorem wp_and {p : Prog Op Reply E α} {s : S} (h : wp M I Q p s) (h' : wp M J R p s) :
    wp M (fun s => I s ∧ J s) (fun r s => Q r s ∧ R r s) p s := by
  induction p generalizing s with
  | ret r => exact ⟨⟨h.1, h'.1⟩, h.2, h'.2⟩
  | ask o k ih =>
    exact ⟨⟨h.1, h'.1⟩, fun s' hm => ⟨h.2.1 s' hm, h'.2.1 s' hm⟩,
      fun r s' hs => ih r (h.2.2 r s' hs) (h'.2.2 r s' hs)⟩
  | spin => exact ⟨h, h'⟩

@[simp] theorem wp_ret {r : Except E α} {s : S} : wp M I Q (ret r) s ↔ I s ∧ Q r s := Iff.rfl

@[simp] theorem wp_lift {r : Except E α} {s : S} : wp M I Q (lift r) s ↔ I s ∧ Q r s := Iff.rfl

@[simp] theorem wp_spin {s : S} : wp M I Q (spin : Prog Op Reply E α) s ↔ I s := Iff.rfl

/-- A postcondition given by cases: `P` of the value, `H` of the error. -/
def onOk (P : α → S → Prop) (H : E → S → Prop) : Except E α → S → Prop
  | .ok a, s => P a s
  | .error e, s => H e s

@[simp] theorem onOk_error {P : α → S → Prop} {H : E → S → Prop} {e : E} {s : S} :
    onOk P H (.error e) s ↔ H e s := Iff.rfl

theorem wp_bind {p : Prog Op Reply E α} {f : α → Prog Op Reply E β}
    {Q : Except E β → S → Prop} {s : S} :
    wp M I Q (p.bind f) s ↔
      wp M I (onOk (fun a => wp M I Q (f a)) fun e => Q (.error e)) p s := by
  induction p generalizing s with
  | ret r =>
    cases r with
    | ok a => exact ⟨fun h => ⟨wp_here h, h⟩, fun h => h.2⟩
    | error e => exact Iff.rfl
  | ask o k ih => simp only [bind, wp, ih]
  | spin => exact Iff.rfl

theorem wp_attempt {p : Prog Op Reply E α} {Q : Except E (Except E α) → S → Prop} {s : S} :
    wp M I Q p.attempt s ↔ wp M I (fun r s => Q (.ok r) s) p s := by
  induction p generalizing s with
  | ret r => exact Iff.rfl
  | ask o k ih => simp only [attempt, wp, ih]
  | spin => exact Iff.rfl

theorem wp_mapError {p : Prog Op Reply E α} {f : E → E} {s : S} :
    wp M I Q (p.mapError f) s ↔ wp M I (fun r s => Q (r.mapError f) s) p s := by
  rw [mapError, wp_bind, wp_attempt]
  constructor
  · intro h
    exact wp_mono h (fun _ h => h) fun r s _ h => h.2
  · intro h
    exact wp_mono h (fun _ h => h) fun r s hI h => ⟨hI, h⟩

/-- A loop over a list. `K rest` is what holds while `rest` is still to be done. -/
theorem wp_each {f : β → Prog Op Reply E Unit} {Q : Except E Unit → S → Prop}
    {K : List β → S → Prop}
    (hstep : ∀ b bs s, K (b :: bs) s →
      wp M I (onOk (fun _ => K bs) fun e => Q (.error e)) (f b) s)
    (hI : ∀ s, K [] s → I s) (hQ : ∀ s, K [] s → Q (.ok ()) s) :
    ∀ bs s, K bs s → wp M I Q (each f bs) s
  | [], s, h => ⟨hI s h, hQ s h⟩
  | b :: bs, s, h => by
    rw [each, wp_bind]
    refine wp_mono (hstep b bs s h) (fun _ h => h) fun r s' _ hr => ?_
    cases r with
    | ok _ => exact wp_each hstep hI hQ bs s' hr
    | error e => exact hr

/-- A fold over a list. `K a rest` is what holds of the accumulator `a` while `rest` is
    still to be done. -/
theorem wp_fold {f : α → β → Prog Op Reply E α} {K : α → List β → S → Prop}
    (hstep : ∀ a b bs s, K a (b :: bs) s →
      wp M I (onOk (fun a' => K a' bs) fun e => Q (.error e)) (f a b) s)
    (hI : ∀ a s, K a [] s → I s) (hQ : ∀ a s, K a [] s → Q (.ok a) s) :
    ∀ bs a s, K a bs s → wp M I Q (fold f a bs) s
  | [], a, s, h => ⟨hI a s h, hQ a s h⟩
  | b :: bs, a, s, h => by
    rw [fold, wp_bind]
    refine wp_mono (hstep a b bs s h) (fun _ h => h) fun r s' _ hr => ?_
    cases r with
    | ok a' => exact wp_fold hstep hI hQ bs a' s' hr
    | error e => exact hr

/-- A loop with an invariant `K` on the loop variable, for any fuel. -/
theorem wp_loop {body : σ → Prog Op Reply E (σ ⊕ α)} {K : σ → S → Prop}
    (hstep : ∀ x s, K x s → wp M I
      (onOk (Sum.elim K fun a => Q (.ok a)) fun e => Q (.error e)) (body x) s)
    (hI : ∀ x s, K x s → I s) :
    ∀ n x s, K x s → wp M I Q (loop body n x) s
  | 0, x, s, h => hI x s h
  | n + 1, x, s, h => by
    rw [loop, wp_bind]
    refine wp_mono (hstep x s h) (fun _ h => h) fun r s' hI' hr => ?_
    match r with
    | .ok (.inl x') => exact wp_loop hstep hI n x' s' hr
    | .ok (.inr a) => exact ⟨hI', hr⟩
    | .error e => exact hr

/-! ## Runs that may fail -/

/-- Every state seen satisfies `I`, and a run that succeeds ends in `P`. -/
def Ensures (M : Machine Op Reply S) (I : S → Prop) (P : α → S → Prop) (p : Prog Op Reply E α)
    (s : S) : Prop :=
  wp M I (onOk P fun _ _ => True) p s

variable {P : α → S → Prop}

theorem ensures_exec {p : Prog Op Reply E α} {s s' : S} {res : Option (Except E α)}
    (h : Ensures M I P p s) (hx : Exec M p s res s') :
    I s' ∧ ∀ a, res = some (.ok a) → P a s' :=
  ⟨(wp_exec h hx).1, fun _ ha => (wp_exec h hx).2 _ ha⟩

theorem ensures_mono {P' : α → S → Prop} {p : Prog Op Reply E α} {s : S}
    (h : Ensures M I P p s) (hI : ∀ s, I s → J s) (hP : ∀ a s, I s → P a s → P' a s) :
    Ensures M J P' p s :=
  wp_mono h hI fun r s hs hr => by
    cases r with
    | ok a => exact hP a s hs hr
    | error e => trivial

theorem ensures_ok {a : α} {s : S} (hI : I s) (hP : P a s) :
    Ensures M I P (ret (.ok a) : Prog Op Reply E α) s := ⟨hI, hP⟩

theorem ensures_error {e : E} {s : S} (hI : I s) :
    Ensures M I P (ret (.error e) : Prog Op Reply E α) s := ⟨hI, trivial⟩

theorem ensures_bind {P' : β → S → Prop} {p : Prog Op Reply E α} {f : α → Prog Op Reply E β}
    {s : S} (h : Ensures M I P p s)
    (hf : ∀ a s', I s' → P a s' → Ensures M I P' (f a) s') : Ensures M I P' (p.bind f) s := by
  rw [Ensures, wp_bind]
  refine wp_mono h (fun _ h => h) fun r s' hI hr => ?_
  cases r with
  | ok a => exact hf a s' hI hr
  | error e => trivial

theorem ensures_mapError {p : Prog Op Reply E α} {f : E → E} {s : S} :
    Ensures M I P (p.mapError f) s ↔ Ensures M I P p s := by
  rw [Ensures, wp_mapError, Ensures]
  have : (fun (r : Except E α) s => onOk P (fun _ _ => True) (r.mapError f) s) =
      onOk P fun _ _ => True := by
    funext r s
    cases r <;> rfl
  rw [this]

theorem ok_of_mapError {ε ε' : Type} {f : ε → ε'} {r : Except ε α} {a : α}
    (h : r.mapError f = .ok a) : r = .ok a := by
  cases r with
  | ok b => cases h; rfl
  | error e => cases h

theorem ensures_lift {r : Except E α} {s : S} (hI : I s) (hP : ∀ a, r = .ok a → P a s) :
    Ensures M I P (lift r) s := by
  cases r with
  | ok a => exact ⟨hI, hP a rfl⟩
  | error e => exact ⟨hI, trivial⟩

theorem ensures_call {o : Op} {P : Reply o → S → Prop} {s : S} (hI : I s)
    (hmid : ∀ s', M.mid o s s' → I s')
    (h : ∀ r s', M.step o s r s' → I s' ∧ P r s') :
    Ensures M I P (call o : Prog Op Reply E _) s :=
  ⟨hI, hmid, h⟩

theorem ensures_each {f : β → Prog Op Reply E Unit} {K : List β → S → Prop}
    (hI : ∀ bs s, K bs s → I s)
    (hstep : ∀ b bs s, K (b :: bs) s → Ensures M I (fun _ => K bs) (f b) s) (bs : List β) (s : S)
    (h : K bs s) : Ensures M I (fun _ => K []) (each f bs) s :=
  wp_each hstep (hI []) (fun _ h => h) bs s h

theorem ensures_fold {f : α → β → Prog Op Reply E α} {K : α → List β → S → Prop}
    (hI : ∀ a bs s, K a bs s → I s)
    (hstep : ∀ a b bs s, K a (b :: bs) s → Ensures M I (fun a' => K a' bs) (f a b) s)
    (bs : List β) (a : α) (s : S) (h : K a bs s) :
    Ensures M I (fun a' => K a' []) (fold f a bs) s :=
  wp_fold hstep (fun a => hI a []) (fun _ _ h => h) bs a s h

theorem ensures_loop {body : σ → Prog Op Reply E (σ ⊕ α)} {K : σ → S → Prop}
    (hI : ∀ x s, K x s → I s)
    (hstep : ∀ x s, K x s → Ensures M I (Sum.elim K P) (body x) s) (n : Nat) (x : σ) (s : S)
    (h : K x s) : Ensures M I P (loop body n x) s :=
  wp_loop hstep hI n x s h

theorem ensures_true {p : Prog Op Reply E α} {s : S} :
    Ensures M (fun _ => True) (fun _ _ => True) p s :=
  wp_iff_exec.mpr fun _ _ _ => ⟨trivial, fun r _ => by cases r <;> trivial⟩

/-- What a run ensures, it ensures of a run that is there. -/
theorem ensures_exec_self {p : Prog Op Reply E α} {s : S} (h : Ensures M I P p s) :
    Ensures M I (fun a s' => P a s' ∧ Exec M p s (some (.ok a)) s') p s := by
  refine wp_iff_exec.mpr fun res s' hx => ⟨(wp_exec h hx).1, fun r hr => ?_⟩
  subst hr
  cases r with
  | ok a => exact ⟨(wp_exec h hx).2 _ rfl, hx⟩
  | error e => trivial

theorem ensures_and {P' : α → S → Prop} {p : Prog Op Reply E α} {s : S}
    (h : Ensures M I P p s) (h' : Ensures M J P' p s) :
    Ensures M I (fun a s' => P a s' ∧ P' a s') p s :=
  wp_mono (wp_and h h') (fun _ h => h.1) fun r _ _ hr => by
    cases r with
    | ok a => exact hr
    | error e => trivial

/-- What every step keeps holds all the way. -/
theorem ensures_and_stable {p : Prog Op Reply E α} {s : S}
    (hstep : ∀ o s r s', M.step o s r s' → J s → J s')
    (hmid : ∀ o s s', M.mid o s s' → J s → J s') (h : Ensures M I P p s) (hs : J s) :
    Ensures M (fun s => I s ∧ J s) P p s := by
  rw [Ensures] at h ⊢
  induction p generalizing s with
  | ret r => exact ⟨⟨h.1, hs⟩, h.2⟩
  | ask o k ih =>
    exact ⟨⟨h.1, hs⟩, fun s' hm => ⟨h.2.1 s' hm, hmid o s s' hm hs⟩,
      fun r s' hr => ih r (h.2.2 r s' hr) (hstep o s r s' hr hs)⟩
  | spin => exact ⟨h, hs⟩

/-! ## Runs whose errors matter -/

/-- `Ensures`, with what holds after an error. -/
def Ends (M : Machine Op Reply S) (I : S → Prop) (P : α → S → Prop) (H : E → S → Prop)
    (p : Prog Op Reply E α) (s : S) : Prop :=
  wp M I (onOk P H) p s

variable {H : E → S → Prop}

theorem ensures_of_ends {p : Prog Op Reply E α} {s : S} (h : Ends M I P H p s) :
    Ensures M I P p s :=
  wp_mono h (fun _ h => h) fun r _ _ hr => by
    cases r with
    | ok a => exact hr
    | error e => trivial

theorem ends_mono {P' : α → S → Prop} {H' : E → S → Prop} {p : Prog Op Reply E α} {s : S}
    (h : Ends M I P H p s) (hI : ∀ s, I s → J s) (hP : ∀ a s, I s → P a s → P' a s)
    (hH : ∀ e s, I s → H e s → H' e s) : Ends M J P' H' p s :=
  wp_mono h hI fun r s hs hr => by
    cases r with
    | ok a => exact hP a s hs hr
    | error e => exact hH e s hs hr

theorem ends_of_ensures {p : Prog Op Reply E α} {s : S} (h : Ensures M I P p s)
    (hH : ∀ e s, I s → H e s) : Ends M I P H p s :=
  wp_mono h (fun _ h => h) fun r s hs hr => by
    cases r with
    | ok a => exact hr
    | error e => exact hH e s hs

/-- What every state seen satisfies holds after an error too. -/
theorem ends_of_ensures_and {p : Prog Op Reply E α} {s : S}
    (h : Ensures M (fun s => I s ∧ J s) P p s) : Ends M I P (fun _ => J) p s :=
  ends_mono (ends_of_ensures h fun _ _ hs => hs.2) (fun _ hs => hs.1) (fun _ _ _ hP => hP)
    fun _ _ _ hJ => hJ

theorem ends_and {P' : α → S → Prop} {p : Prog Op Reply E α} {s : S} (h : Ends M I P H p s)
    (h' : Ensures M J P' p s) : Ends M I (fun a s => P a s ∧ P' a s) H p s :=
  wp_mono (wp_and h h') (fun _ hI => hI.1) fun r _ _ hr => by
    cases r with
    | ok a => exact hr
    | error e => exact hr.1

theorem ends_ok {a : α} {s : S} (hI : I s) (hP : P a s) :
    Ends M I P H (ret (.ok a) : Prog Op Reply E α) s := ⟨hI, hP⟩

theorem ends_error {e : E} {s : S} (hI : I s) (hH : H e s) :
    Ends M I P H (ret (.error e) : Prog Op Reply E α) s := ⟨hI, hH⟩

theorem ends_bind {P' : β → S → Prop} {p : Prog Op Reply E α} {f : α → Prog Op Reply E β} {s : S}
    (h : Ends M I P H p s) (hf : ∀ a s', I s' → P a s' → Ends M I P' H (f a) s') :
    Ends M I P' H (p.bind f) s := by
  rw [Ends, wp_bind]
  refine wp_mono h (fun _ h => h) fun r s' hI hr => ?_
  cases r with
  | ok a => exact hf a s' hI hr
  | error e => exact hr

/-- A question has an answer, never an error. -/
theorem ends_call {o : Op} {P : Reply o → S → Prop} {s : S}
    (h : Ensures M I P (call o : Prog Op Reply E _) s) :
    Ends M I P H (call o : Prog Op Reply E _) s := h

/-- No error can come out of the program. -/
def NoError : Prog Op Reply E α → Prop
  | ret (.ok _) => True
  | ret (.error _) => False
  | ask _ k => ∀ r, (k r).NoError
  | spin => True

theorem noError_call (o : Op) : (call o : Prog Op Reply E (Reply o)).NoError := fun _ => trivial

theorem noError_bind {p : Prog Op Reply E α} {f : α → Prog Op Reply E β} (h : p.NoError)
    (hf : ∀ a, (f a).NoError) : (p.bind f).NoError := by
  induction p with
  | ret r =>
    cases r with
    | ok a => exact hf a
    | error e => exact h.elim
  | ask o k ih => exact fun r => ih r (h r)
  | spin => trivial

theorem ends_of_noError {p : Prog Op Reply E α} {s : S} (hp : p.NoError)
    (h : Ensures M I P p s) : Ends M I P H p s := by
  rw [Ensures] at h
  rw [Ends]
  induction p generalizing s with
  | ret r =>
    cases r with
    | ok a => exact h
    | error e => exact hp.elim
  | ask o k ih => exact ⟨h.1, h.2.1, fun r s' hs => ih r (hp r) (h.2.2 r s' hs)⟩
  | spin => exact h

theorem ends_mapError {p : Prog Op Reply E α} {f : E → E} {s : S} :
    Ends M I P H (p.mapError f) s ↔ Ends M I P (fun e => H (f e)) p s := by
  rw [Ends, wp_mapError, Ends]
  have : (fun (r : Except E α) s => onOk P H (r.mapError f) s) = onOk P fun e => H (f e) := by
    funext r s
    cases r <;> rfl
  rw [this]

theorem ends_attempt {P' : Except E α → S → Prop} {p : Prog Op Reply E α} {s : S}
    (h : Ends M I P H p s) (hok : ∀ a s', I s' → P a s' → P' (.ok a) s')
    (herr : ∀ e s', I s' → H e s' → P' (.error e) s') : Ensures M I P' p.attempt s := by
  rw [Ensures, wp_attempt]
  refine wp_mono h (fun _ h => h) fun r s' hI hr => ?_
  cases r with
  | ok a => exact hok a s' hI hr
  | error e => exact herr e s' hI hr

theorem ends_fold {f : α → β → Prog Op Reply E α} {K : α → List β → S → Prop}
    (hI : ∀ a bs s, K a bs s → I s)
    (hstep : ∀ a b bs s, K a (b :: bs) s → Ends M I (fun a' => K a' bs) H (f a b) s)
    (bs : List β) (a : α) (s : S) (h : K a bs s) :
    Ends M I (fun a' => K a' []) H (fold f a bs) s :=
  wp_fold hstep (fun a => hI a []) (fun _ _ h => h) bs a s h

theorem ensures_attempt_onOk {p : Prog Op Reply E α} {s : S} (h : Ends M I P H p s) :
    Ensures M I (onOk P H) p.attempt s :=
  ends_attempt h (fun _ _ _ h => h) fun _ _ _ h => h

theorem ensures_attempt {K : Except E α → S → Prop} {p : Prog Op Reply E α} {s : S}
    (h : Ensures M I P p s) (hok : ∀ a s', I s' → P a s' → K (.ok a) s')
    (herr : ∀ e s', I s' → K (.error e) s') : Ensures M I K p.attempt s :=
  ends_attempt (ends_of_ensures h (H := fun _ _ => True) fun _ _ _ => trivial) hok
    fun e s' hI _ => herr e s' hI

/-! ## Runs whose steps all meet a condition -/

variable {C : S → Prop}

theorem ensures_under {p : Prog Op Reply E α} {s : S} (h : Ensures M I P p s) :
    Ensures (M.under C) I P p s := by
  rw [Ensures] at h ⊢
  induction p generalizing s with
  | ret r => exact h
  | ask o k ih => exact ⟨h.1, fun s' hm => h.2.1 s' hm.2, fun r s' hs => ih r (h.2.2 r s' hs.2)⟩
  | spin => exact h

theorem ensures_only {R : (o : Op) → S → Reply o → Prop} {p : Prog Op Reply E α} {s : S}
    (h : Ensures M I P p s) : Ensures (M.only R) I P p s := by
  rw [Ensures] at h ⊢
  induction p generalizing s with
  | ret r => exact h
  | ask o k ih => exact ⟨h.1, h.2.1, fun r s' hs => ih r (h.2.2 r s' hs.1)⟩
  | spin => exact h

theorem ensures_only_mono {R R' : (o : Op) → S → Reply o → Prop} {p : Prog Op Reply E α} {s : S}
    (hR : ∀ o s r, R' o s r → R o s r) (h : Ensures (M.only R) I P p s) :
    Ensures (M.only R') I P p s := by
  rw [Ensures] at h ⊢
  induction p generalizing s with
  | ret r => exact h
  | ask o k ih =>
    exact ⟨h.1, h.2.1, fun r s' hs => ih r (h.2.2 r s' ⟨hs.1, hR o s r hs.2⟩)⟩
  | spin => exact h

/-- The answer to the question asked satisfies `R`. -/
theorem ensures_call_only {R : (o : Op) → S → Reply o → Prop} {o : Op} {P : Reply o → S → Prop}
    {s : S} (h : Ensures M I P (call o : Prog Op Reply E _) s) :
    Ensures (M.only R) I (fun r s' => P r s' ∧ R o s r) (call o : Prog Op Reply E _) s :=
  ⟨h.1, h.2.1, fun r s' hs => ⟨(h.2.2 r s' hs.1).1, (h.2.2 r s' hs.1).2, hs.2⟩⟩

/-- `Ensures` for a run whose steps all start from states that satisfy `C`. What holds at its
    end matters only if the run can go on from there. -/
def EnsuresUnder (M : Machine Op Reply S) (C I : S → Prop) (P : α → S → Prop)
    (p : Prog Op Reply E α) (s : S) : Prop :=
  Ensures (M.under C) I (fun a s' => C s' → P a s') p s

theorem ensuresUnder_of {p : Prog Op Reply E α} {s : S} (h : Ensures M I P p s) :
    EnsuresUnder M C I P p s :=
  ensures_mono (ensures_under h) (fun _ h => h) fun _ _ _ h _ => h

theorem ensuresUnder_mono {P' : α → S → Prop} {p : Prog Op Reply E α} {s : S}
    (h : EnsuresUnder M C I P p s) (hI : ∀ s, I s → J s)
    (hP : ∀ a s, I s → P a s → P' a s) : EnsuresUnder M C J P' p s :=
  ensures_mono h hI fun a s hs h hC => hP a s hs (h hC)

/-- From a state that does not satisfy `C` nothing more happens. -/
theorem ensuresUnder_blocked {p : Prog Op Reply E α} {s : S} (hI : I s) (hC : ¬ C s) :
    EnsuresUnder M C I P p s := by
  cases p with
  | ret r =>
    cases r with
    | ok a => exact ⟨hI, fun h => absurd h hC⟩
    | error e => exact ⟨hI, trivial⟩
  | ask o k => exact ⟨hI, fun _ h => absurd h.1 hC, fun _ _ h => absurd h.1 hC⟩
  | spin => exact hI

theorem ensuresUnder_bind {P' : β → S → Prop} {p : Prog Op Reply E α}
    {f : α → Prog Op Reply E β} {s : S} (h : EnsuresUnder M C I P p s)
    (hf : ∀ a s', I s' → C s' → P a s' → EnsuresUnder M C I P' (f a) s') :
    EnsuresUnder M C I P' (p.bind f) s := by
  refine ensures_bind h fun a s' hI hP => ?_
  by_cases hC : C s'
  · exact hf a s' hI hC (hP hC)
  · exact ensuresUnder_blocked hI hC

theorem ensuresUnder_ok {a : α} {s : S} (hI : I s) (hP : P a s) :
    EnsuresUnder M C I P (ret (.ok a) : Prog Op Reply E α) s := ⟨hI, fun _ => hP⟩

theorem ensuresUnder_mapError {p : Prog Op Reply E α} {f : E → E} {s : S} :
    EnsuresUnder M C I P (p.mapError f) s ↔ EnsuresUnder M C I P p s := ensures_mapError

theorem ensuresUnder_fold {f : α → β → Prog Op Reply E α} {K : α → List β → S → Prop}
    (hI : ∀ a bs s, K a bs s → I s)
    (hstep : ∀ a b bs s, C s → K a (b :: bs) s →
      EnsuresUnder M C I (fun a' => K a' bs) (f a b) s)
    (bs : List β) (a : α) (s : S) (h : K a bs s) :
    EnsuresUnder M C I (fun a' => K a' []) (fold f a bs) s := by
  refine ensures_mono (ensures_fold (K := fun a bs s => I s ∧ (C s → K a bs s)) (fun _ _ _ h => h.1)
    (fun a b bs s h => ?_) bs a s ⟨hI a bs s h, fun _ => h⟩) (fun _ h => h) fun _ _ _ h => h.2
  by_cases hC : C s
  · exact ensures_mono (hstep a b bs s hC (h.2 hC)) (fun _ h => h) fun _ _ hI h => ⟨hI, h⟩
  · exact ensures_mono (ensuresUnder_blocked (P := fun a' => K a' bs) h.1 hC) (fun _ h => h)
      fun _ _ hI h => ⟨hI, h⟩

/-- `Ends` for a run whose steps all start from states that satisfy `C`. -/
def EndsUnder (M : Machine Op Reply S) (C I : S → Prop) (P : α → S → Prop) (H : E → S → Prop)
    (p : Prog Op Reply E α) (s : S) : Prop :=
  Ends (M.under C) I (fun a s' => C s' → P a s') (fun e s' => C s' → H e s') p s

theorem ends_under {p : Prog Op Reply E α} {s : S} (h : Ends M I P H p s) :
    Ends (M.under C) I P H p s := by
  rw [Ends] at h ⊢
  induction p generalizing s with
  | ret r => exact h
  | ask o k ih => exact ⟨h.1, fun s' hm => h.2.1 s' hm.2, fun r s' hs => ih r (h.2.2 r s' hs.2)⟩
  | spin => exact h

theorem endsUnder_of {p : Prog Op Reply E α} {s : S} (h : Ends M I P H p s) :
    EndsUnder M C I P H p s :=
  ends_mono (ends_under h) (fun _ h => h) (fun _ _ _ h _ => h) fun _ _ _ h _ => h

theorem endsUnder_true {p : Prog Op Reply E α} {s : S} :
    EndsUnder M (fun _ => True) I P H p s ↔ Ends M I P H p s := by
  simp [EndsUnder, Machine.under_true]

theorem ensuresUnder_of_endsUnder {p : Prog Op Reply E α} {s : S}
    (h : EndsUnder M C I P H p s) : EnsuresUnder M C I P p s := ensures_of_ends h

theorem endsUnder_blocked {p : Prog Op Reply E α} {s : S} (hI : I s) (hC : ¬ C s) :
    EndsUnder M C I P H p s := by
  cases p with
  | ret r => cases r <;> exact ⟨hI, fun h => absurd h hC⟩
  | ask o k => exact ⟨hI, fun _ h => absurd h.1 hC, fun _ _ h => absurd h.1 hC⟩
  | spin => exact hI

theorem endsUnder_bind {P' : β → S → Prop} {p : Prog Op Reply E α} {f : α → Prog Op Reply E β}
    {s : S} (h : EndsUnder M C I P H p s)
    (hf : ∀ a s', I s' → C s' → P a s' → EndsUnder M C I P' H (f a) s') :
    EndsUnder M C I P' H (p.bind f) s := by
  refine ends_bind h fun a s' hI hP => ?_
  by_cases hC : C s'
  · exact hf a s' hI hC (hP hC)
  · exact endsUnder_blocked hI hC

theorem endsUnder_ok {a : α} {s : S} (hI : I s) (hP : P a s) :
    EndsUnder M C I P H (ret (.ok a) : Prog Op Reply E α) s := ⟨hI, fun _ => hP⟩

theorem endsUnder_mono {P' : α → S → Prop} {H' : E → S → Prop} {p : Prog Op Reply E α} {s : S}
    (h : EndsUnder M C I P H p s) (hI : ∀ s, I s → J s) (hP : ∀ a s, I s → P a s → P' a s)
    (hH : ∀ e s, I s → H e s → H' e s) : EndsUnder M C J P' H' p s :=
  ends_mono h hI (fun a s hs h hC => hP a s hs (h hC)) fun e s hs h hC => hH e s hs (h hC)

theorem endsUnder_mapError {p : Prog Op Reply E α} {f : E → E} {s : S} :
    EndsUnder M C I P H (p.mapError f) s ↔ EndsUnder M C I P (fun e => H (f e)) p s :=
  ends_mapError

theorem endsUnder_fold {f : α → β → Prog Op Reply E α} {K : α → List β → S → Prop}
    (hI : ∀ a bs s, K a bs s → I s)
    (hstep : ∀ a b bs s, C s → K a (b :: bs) s →
      EndsUnder M C I (fun a' => K a' bs) H (f a b) s) :
    ∀ (bs : List β) (a : α) (s : S), K a bs s →
      EndsUnder M C I (fun a' => K a' []) H (fold f a bs) s
  | [], a, s, h => endsUnder_ok (hI a [] s h) h
  | b :: bs, a, s, h => by
    by_cases hC : C s
    · exact endsUnder_bind (hstep a b bs s hC h) fun a' s' _ _ h' =>
        endsUnder_fold hI hstep bs a' s' h'
    · exact endsUnder_blocked (hI a (b :: bs) s h) hC

/-- A run whose states all satisfy `C` is one whose steps start from such states. -/
theorem exec_under {p : Prog Op Reply E α} {s s' : S} {res : Option (Except E α)}
    (h : Exec M p s res s') (hC : ∀ s', Exec M p s none s' → C s') :
    Exec (M.under C) p s res s' := by
  induction h with
  | here p s => exact .here p s
  | done r s => exact .done r s
  | mid hm => exact .mid ⟨hC _ (.here _ _), hm⟩
  | ask hs _ ih => exact .ask ⟨hC _ (.here _ _), hs⟩ (ih fun s' hx => hC s' (.ask hs hx))

theorem exec_under_mono {C C' : S → Prop} (hC : ∀ s, C s → C' s) {p : Prog Op Reply E α} {s s' : S}
    {res : Option (Except E α)} (h : Exec (M.under C) p s res s') :
    Exec (M.under C') p s res s' := by
  induction h with
  | here p s => exact .here p s
  | done r s => exact .done r s
  | mid hm => exact .mid ⟨hC _ hm.1, hm.2⟩
  | ask hs _ ih => exact .ask ⟨hC _ hs.1, hs.2⟩ ih

theorem exec_under_and {C C' : S → Prop} {p : Prog Op Reply E α} {s s' : S}
    {res : Option (Except E α)} (h : Exec (M.under C) p s res s')
    (hC : ∀ s', Exec M p s none s' → C' s') :
    Exec (M.under fun s => C s ∧ C' s) p s res s' := by
  induction h with
  | here p s => exact .here p s
  | done r s => exact .done r s
  | mid hm => exact .mid ⟨⟨hm.1, hC _ (.here _ _)⟩, hm.2⟩
  | ask hs _ ih =>
    exact .ask ⟨⟨hs.1, hC _ (.here _ _)⟩, hs.2⟩ (ih fun s' hx => hC s' (.ask hs.2 hx))

/-- What a conditional run ensures holds of its executions. -/
theorem ensuresUnder_exec {p : Prog Op Reply E α} {s s' : S} {res : Option (Except E α)}
    (h : EnsuresUnder M C I P p s) (hx : Exec (M.under C) p s res s') : I s' :=
  (ensures_exec h hx).1

/-! ## Runs that come to an end -/

/-- Every run from `s` comes to an end: no loop runs out of fuel on the way. -/
def Halts (M : Machine Op Reply S) : Prog Op Reply E α → S → Prop
  | ret _, _ => True
  | ask o k, s => ∀ r s', M.step o s r s' → Halts M (k r) s'
  | spin, _ => False

/-- No loop of the program can run out of fuel. -/
def NoSpin : Prog Op Reply E α → Prop
  | ret _ => True
  | ask _ k => ∀ r, (k r).NoSpin
  | spin => False

theorem noSpin_call (o : Op) : (call o : Prog Op Reply E (Reply o)).NoSpin := fun _ => trivial

theorem noSpin_bind {p : Prog Op Reply E α} {f : α → Prog Op Reply E β} (h : p.NoSpin)
    (hf : ∀ a, (f a).NoSpin) : (p.bind f).NoSpin := by
  induction p with
  | ret r =>
    cases r with
    | ok a => exact hf a
    | error e => trivial
  | ask o k ih => exact fun r => ih r (h r)
  | spin => exact h

theorem noSpin_attempt {p : Prog Op Reply E α} (h : p.NoSpin) : p.attempt.NoSpin := by
  induction p with
  | ret r => trivial
  | ask o k ih => exact fun r => ih r (h r)
  | spin => exact h

theorem noSpin_mapError {p : Prog Op Reply E α} {f : E → E} (h : p.NoSpin) :
    (p.mapError f).NoSpin := noSpin_bind (noSpin_attempt h) fun _ => trivial

theorem noSpin_fold {f : α → β → Prog Op Reply E α} (hf : ∀ a b, (f a b).NoSpin) :
    ∀ (bs : List β) (a : α), (fold f a bs).NoSpin
  | [], _ => trivial
  | b :: bs, a => noSpin_bind (hf a b) fun a' => noSpin_fold hf bs a'

theorem halts_of_noSpin {p : Prog Op Reply E α} {s : S} (h : p.NoSpin) : Halts M p s := by
  induction p generalizing s with
  | ret r => trivial
  | ask o k ih => exact fun r s' _ => ih r (h r)
  | spin => exact h

theorem halts_bind {p : Prog Op Reply E α} {f : α → Prog Op Reply E β} {s : S} (hp : Halts M p s)
    (h : Ensures M I P p s) (hf : ∀ a s', I s' → P a s' → Halts M (f a) s') :
    Halts M (p.bind f) s := by
  induction p generalizing s with
  | ret r =>
    cases r with
    | ok a => exact hf a s h.1 h.2
    | error e => trivial
  | ask o k ih => exact fun r s' hs => ih r (hp r s' hs) (h.2.2 r s' hs)
  | spin => exact hp

theorem halts_only {R : (o : Op) → S → Reply o → Prop} {p : Prog Op Reply E α} {s : S}
    (h : Halts M p s) : Halts (M.only R) p s := by
  induction p generalizing s with
  | ret r => trivial
  | ask o k ih => exact fun r s' hs => ih r (h r s' hs.1)
  | spin => exact h

/-- A loop with the fuel for its turns. `K n x` is what holds while at most `n` turns are
    left. -/
theorem halts_loop {body : σ → Prog Op Reply E (σ ⊕ α)} {K : Nat → σ → S → Prop}
    (hbody : ∀ x s, Halts M (body x) s)
    (hstep : ∀ n x s, K n x s → Ensures M (fun _ => True)
      (Sum.elim (fun x' s' => ∃ m, m < n ∧ K m x' s') fun _ _ => True) (body x) s) :
    ∀ fuel n x s, K n x s → n < fuel → Halts M (loop body fuel x) s
  | 0, n, x, s, _, hn => absurd hn (Nat.not_lt_zero n)
  | fuel + 1, n, x, s, h, hn => by
    rw [loop]
    refine halts_bind (hbody x s) (hstep n x s h) fun r s' _ hr => ?_
    match r with
    | .inl x' =>
      obtain ⟨m, hm, hK⟩ := hr
      exact halts_loop hbody hstep fuel m x' s' hK (by omega)
    | .inr a => trivial

/-- Where every question has an answer, a program that halts has a run to its end. -/
theorem exec_of_halts (hM : ∀ o s, ∃ r s', M.step o s r s') {p : Prog Op Reply E α} {s : S}
    (h : Halts M p s) : ∃ r s', Exec M p s (some r) s' := by
  induction p generalizing s with
  | ret r => exact ⟨r, s, .done r s⟩
  | ask o k ih =>
    obtain ⟨r, s', hs⟩ := hM o s
    obtain ⟨res, s'', hx⟩ := ih r (h r s' hs)
    exact ⟨res, s'', .ask hs hx⟩
  | spin => exact h.elim

/-- Every run from `s` comes to an end, none with an error, and there is one. -/
def Returns (M : Machine Op Reply S) (p : Prog Op Reply E α) (s : S) : Prop :=
  Halts M p s ∧ (∀ r s', Exec M p s (some r) s' → ∃ a, r = .ok a) ∧
    ∃ a s', Exec M p s (some (.ok a)) s'

/-- A program that succeeds or fails as `B` says. -/
theorem returns_iff {B : Prop} {p : Prog Op Reply E α} {s : S}
    (hM : ∀ o s, ∃ r s', M.step o s r s') (hp : Halts M p s)
    (h : Ends M I (fun _ _ => B) (fun _ _ => ¬ B) p s) : Returns M p s ↔ B := by
  constructor
  · rintro ⟨-, -, a, s', hx⟩
    exact (wp_exec h hx).2 _ rfl
  · intro hB
    have hok : ∀ r s', Exec M p s (some r) s' → ∃ a, r = .ok a := by
      intro r s' hx
      cases r with
      | ok a => exact ⟨a, rfl⟩
      | error e => exact absurd hB ((wp_exec h hx).2 _ rfl)
    obtain ⟨r, s', hx⟩ := exec_of_halts hM hp
    obtain ⟨a, rfl⟩ := hok r s' hx
    exact ⟨hp, hok, a, s', hx⟩

/-! ## The questions of a program -/

/-- Every question asked is one of `A`, and every value returned satisfies `P`. -/
def AsksOnly (A : Op → Prop) (P : α → Prop) : Prog Op Reply E α → Prop
  | ret (.ok a) => P a
  | ret (.error _) => True
  | ask o k => A o ∧ ∀ r, (k r).AsksOnly A P
  | spin => True

section

variable {A : Op → Prop} {P P' : α → Prop} {Q : β → Prop}

theorem asksOnly_call {o : Op} {P : Reply o → Prop} (h : A o) (hP : ∀ r, P r) :
    (call o : Prog Op Reply E (Reply o)).AsksOnly A P := ⟨h, hP⟩

theorem asksOnly_mono {p : Prog Op Reply E α} (h : p.AsksOnly A P) (hP : ∀ a, P a → P' a) :
    p.AsksOnly A P' := by
  induction p with
  | ret r =>
    cases r with
    | ok a => exact hP a h
    | error e => trivial
  | ask o k ih => exact ⟨h.1, fun r => ih r (h.2 r)⟩
  | spin => trivial

theorem asksOnly_bind {p : Prog Op Reply E α} {f : α → Prog Op Reply E β} (h : p.AsksOnly A P)
    (hf : ∀ a, P a → (f a).AsksOnly A Q) : (p.bind f).AsksOnly A Q := by
  induction p with
  | ret r =>
    cases r with
    | ok a => exact hf a h
    | error e => trivial
  | ask o k ih => exact ⟨h.1, fun r => ih r (h.2 r)⟩
  | spin => trivial

theorem asksOnly_attempt {p : Prog Op Reply E α} (h : p.AsksOnly A P) :
    p.attempt.AsksOnly A fun r => ∀ a, r = .ok a → P a := by
  induction p with
  | ret r =>
    intro a ha
    subst ha
    exact h
  | ask o k ih => exact ⟨h.1, fun r => ih r (h.2 r)⟩
  | spin => trivial

theorem asksOnly_mapError {f : E → E} {p : Prog Op Reply E α} (h : p.AsksOnly A P) :
    (p.mapError f).AsksOnly A P := by
  refine asksOnly_bind (asksOnly_attempt h) fun r hr => ?_
  cases r with
  | ok a => exact hr a rfl
  | error e => trivial

theorem asksOnly_fold {f : β → α → Prog Op Reply E β} (hf : ∀ b a, Q b → (f b a).AsksOnly A Q) :
    ∀ (l : List α) (b : β), Q b → (fold f b l).AsksOnly A Q
  | [], _, hb => hb
  | a :: l, b, hb => asksOnly_bind (hf b a hb) fun b' hb' => asksOnly_fold hf l b' hb'

theorem asksOnly_loop {body : σ → Prog Op Reply E (σ ⊕ α)}
    (h : ∀ x, (body x).AsksOnly A fun r => ∀ a, r = .inr a → P a) :
    ∀ (n : Nat) (x : σ), (loop body n x).AsksOnly A P
  | 0, _ => trivial
  | n + 1, x => by
    refine asksOnly_bind (h x) fun r hr => ?_
    cases r with
    | inl x' => exact asksOnly_loop h n x'
    | inr a => exact hr a rfl

/-- What no question of `A` breaks holds throughout. -/
theorem ensures_asksOnly {M : Machine Op Reply S} {I : S → Prop} {p : Prog Op Reply E α} {s : S}
    (hstep : ∀ o s r s', A o → M.step o s r s' → I s → I s')
    (hmid : ∀ o s s', A o → M.mid o s s' → I s → I s') (h : p.AsksOnly A P) (hs : I s) :
    Ensures M I (fun a _ => P a) p s := by
  induction p generalizing s with
  | ret r =>
    cases r with
    | ok a => exact ⟨hs, h⟩
    | error e => exact ⟨hs, trivial⟩
  | ask o k ih =>
    exact ⟨hs, fun s' hm => hmid o s s' h.1 hm hs,
      fun r s' hr => ih r (h.2 r) (hstep o s r s' h.1 hr hs)⟩
  | spin => exact hs

end

/-! ## Running against a given environment -/

/-- The run of a program whose questions are answered by `answer`. -/
def run (answer : (o : Op) → S → Reply o × S) : Prog Op Reply E α → S → Option (Except E α) × S
  | ret r, s => (some r, s)
  | ask o k, s => run answer (k (answer o s).1) (answer o s).2
  | spin, s => (none, s)

theorem exec_run {answer : (o : Op) → S → Reply o × S}
    (h : ∀ o s, M.step o s (answer o s).1 (answer o s).2) (p : Prog Op Reply E α) (s : S) :
    Exec M p s (run answer p s).1 (run answer p s).2 := by
  induction p generalizing s with
  | ret r => exact .done r s
  | ask o k ih => exact .ask (h o s) (ih _ _)
  | spin => exact .here _ s

/-- Where the answers keep `J`, the run starts no step from a state without it. -/
theorem exec_run_under {answer : (o : Op) → S → Reply o × S} {J C : S → Prop}
    (h : ∀ o s, M.step o s (answer o s).1 (answer o s).2) (hJ : ∀ o s, J s → J (answer o s).2)
    (hC : ∀ s, J s → C s) (p : Prog Op Reply E α) (s : S) (hs : J s) :
    Exec (M.under C) p s (run answer p s).1 (run answer p s).2 := by
  induction p generalizing s with
  | ret r => exact .done r s
  | ask o k ih => exact .ask ⟨hC s hs, h o s⟩ (ih _ _ (hJ o s hs))
  | spin => exact .here _ s

/-! ## Programs whose questions have one answer each -/

/-- The result of a program by the answers `answer`, if it asks for no others. -/
def eval (answer : (o : Op) → Option (Reply o)) : Prog Op Reply E α → Option (Except E α)
  | ret r => some r
  | ask o k =>
    match answer o with
    | some r => eval answer (k r)
    | none => none
  | spin => none

theorem eval_ask {answer : (o : Op) → Option (Reply o)} {o : Op} {r : Reply o}
    {k : Reply o → Prog Op Reply E α} (h : answer o = some r) :
    eval answer (ask o k) = eval answer (k r) := by
  simp only [eval, h]

theorem eval_bind_ok {answer : (o : Op) → Option (Reply o)} {p : Prog Op Reply E α}
    {f : α → Prog Op Reply E β} {a : α} (h : eval answer p = some (.ok a)) :
    eval answer (p.bind f) = eval answer (f a) := by
  induction p with
  | ret r =>
    obtain rfl := Option.some.inj h
    rfl
  | ask o k ih =>
    rw [eval] at h
    cases ha : answer o with
    | none => simp [ha] at h
    | some r =>
      rw [bind, eval_ask ha]
      exact ih r (by simpa [ha] using h)
  | spin => cases h

theorem eval_bind_error {answer : (o : Op) → Option (Reply o)} {p : Prog Op Reply E α}
    {f : α → Prog Op Reply E β} {e : E} (h : eval answer p = some (.error e)) :
    eval answer (p.bind f) = some (.error e) := by
  induction p with
  | ret r =>
    obtain rfl := Option.some.inj h
    rfl
  | ask o k ih =>
    rw [eval] at h
    cases ha : answer o with
    | none => simp [ha] at h
    | some r =>
      rw [bind, eval_ask ha]
      exact ih r (by simpa [ha] using h)
  | spin => cases h

theorem eval_attempt {answer : (o : Op) → Option (Reply o)} {p : Prog Op Reply E α}
    {r : Except E α} (h : eval answer p = some r) : eval answer p.attempt = some (.ok r) := by
  induction p with
  | ret r' =>
    obtain rfl := Option.some.inj h
    rfl
  | ask o k ih =>
    rw [eval] at h
    cases ha : answer o with
    | none => simp [ha] at h
    | some r' =>
      rw [attempt, eval_ask ha]
      exact ih r' (by simpa [ha] using h)
  | spin => cases h

theorem eval_mapError {answer : (o : Op) → Option (Reply o)} {p : Prog Op Reply E α}
    {f : E → E} {r : Except E α} (h : eval answer p = some r) :
    eval answer (p.mapError f) = some (r.mapError f) :=
  eval_bind_ok (eval_attempt h)

/-- The machine gives the answers of `answer`, and no others to the questions that have one. -/
structure Decides (M : Machine Op Reply S) (answer : (o : Op) → Option (Reply o)) : Prop where
  step : ∀ o s r, answer o = some r → ∃ s', M.step o s r s'
  unique : ∀ o s r r' s', answer o = some r → M.step o s r' s' → r' = r

theorem exec_eval {answer : (o : Op) → Option (Reply o)} (hM : Decides M answer)
    {p : Prog Op Reply E α} {res res' : Except E α} {s s' : S} (h : eval answer p = some res)
    (hx : Exec M p s (some res') s') : res' = res := by
  generalize hr : some res' = r at hx
  induction hx with
  | here p s => cases hr
  | done r s => exact (Option.some.inj hr).trans (Option.some.inj h)
  | mid hm => cases hr
  | @ask o k s s₁ s₂ r _ hs _ ih =>
    rw [eval] at h
    cases ha : answer o with
    | none => simp [ha] at h
    | some r' =>
      obtain rfl := hM.unique o s r' r s₁ ha hs
      exact ih (by simpa [ha] using h) hr

theorem halts_eval {answer : (o : Op) → Option (Reply o)} (hM : Decides M answer)
    {p : Prog Op Reply E α} {res : Except E α} {s : S} (h : eval answer p = some res) :
    Halts M p s ∧ ∃ s', Exec M p s (some res) s' := by
  induction p generalizing s with
  | ret r =>
    obtain rfl := Option.some.inj h
    exact ⟨trivial, s, .done r s⟩
  | ask o k ih =>
    rw [eval] at h
    cases ha : answer o with
    | none => simp [ha] at h
    | some r =>
      have hk : eval answer (k r) = some res := by simpa [ha] using h
      refine ⟨fun r' s' hs => ?_, ?_⟩
      · obtain rfl := hM.unique o s r r' s' ha hs
        exact (ih r' hk).1
      · obtain ⟨s', hs⟩ := hM.step o s r ha
        obtain ⟨s'', hx⟩ := (ih r (s := s') hk).2
        exact ⟨s'', .ask hs hx⟩
  | spin => cases h

theorem returns_iff_eval {answer : (o : Op) → Option (Reply o)} (hM : Decides M answer)
    {p : Prog Op Reply E α} {res : Except E α} {s : S} (h : eval answer p = some res) :
    Returns M p s ↔ ∃ a, res = .ok a := by
  obtain ⟨hhalts, s', hx⟩ := halts_eval hM (s := s) h
  constructor
  · rintro ⟨-, hok, -⟩
    exact hok res s' hx
  · rintro ⟨a, rfl⟩
    exact ⟨hhalts, fun r s'' hx' => ⟨a, exec_eval hM h hx'⟩, a, s', hx⟩

end Prog
