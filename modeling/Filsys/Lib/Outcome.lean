/-
  Filsys.Lib.Outcome — reasoning about programs that keep their state when they fail.

  A C routine that returns a negative errno has still changed whatever it changed
  before the failure, so a program is an `EStateM`: it returns a value or an error,
  and leaves a state in both cases. `Post r Q E` says that the outcome `r` satisfies
  `Q` when it is a value and `E` when it is an error; the rules below take a program
  apart one statement at a time.

  `attempt` is a call whose return code the caller inspects; `failAs` is a call whose
  failure the caller reports under its own code; `inside` runs a program on a state
  that carries a local beside the global part, which the caller gets back on both
  outcomes (an argument passed by pointer).
-/
import Mathlib.Tactic.Common

namespace Filsys.Lib

variable {ε σ τ α β : Type}

def Post (r : EStateM.Result ε σ α) (Q : α → σ → Prop) (E : ε → σ → Prop) : Prop :=
  match r with
  | .ok a s => Q a s
  | .error e s => E e s

@[simp] theorem post_ok {a : α} {s : σ} {Q : α → σ → Prop} {E : ε → σ → Prop} :
    Post (.ok a s) Q E ↔ Q a s := Iff.rfl

@[simp] theorem post_error {e : ε} {s : σ} {Q : α → σ → Prop} {E : ε → σ → Prop} :
    Post (.error e s) Q E ↔ E e s := Iff.rfl

theorem Post.mono {r : EStateM.Result ε σ α} {Q Q' : α → σ → Prop} {E E' : ε → σ → Prop} (h : Post r Q E)
    (hQ : ∀ a s, Q a s → Q' a s) (hE : ∀ e s, E e s → E' e s) : Post r Q' E' := by
  cases r with
  | ok a s => exact hQ a s h
  | error e s => exact hE e s h

theorem Post.and {r : EStateM.Result ε σ α} {Q Q' : α → σ → Prop} {E E' : ε → σ → Prop} (h : Post r Q E)
    (h' : Post r Q' E') : Post r (fun a s => Q a s ∧ Q' a s) (fun e s => E e s ∧ E' e s) := by
  cases r with
  | ok a s => exact ⟨h, h'⟩
  | error e s => exact ⟨h, h'⟩

/-- A postcondition may name the run it is about. -/
theorem Post.self {r : EStateM.Result ε σ α} {Q : α → σ → Prop} {E : ε → σ → Prop} (h : Post r Q E) :
    Post r (fun a t => r = .ok a t ∧ Q a t) (fun e t => r = .error e t ∧ E e t) := by
  cases r with
  | ok a t => exact ⟨rfl, h⟩
  | error e t => exact ⟨rfl, h⟩

theorem post_true (r : EStateM.Result ε σ α) : Post r (fun _ _ => True) fun _ _ => True := by
  cases r with
  | ok a s => exact trivial
  | error e s => exact trivial

theorem Post.of_ok {r : EStateM.Result ε σ α} {Q : α → σ → Prop} {E : ε → σ → Prop} {a : α} {s : σ}
    (h : Post r Q E) (hr : r = .ok a s) : Q a s := by
  subst hr; exact h

theorem Post.of_error {r : EStateM.Result ε σ α} {Q : α → σ → Prop} {E : ε → σ → Prop} {e : ε} {s : σ}
    (h : Post r Q E) (hr : r = .error e s) : E e s := by
  subst hr; exact h

/-- A run that cannot fail succeeds. -/
theorem Post.succeeds {r : EStateM.Result ε σ α} {Q : α → σ → Prop} (h : Post r Q fun _ _ => False) :
    ∃ a s, r = .ok a s ∧ Q a s := by
  cases r with
  | ok a s => exact ⟨a, s, rfl, h⟩
  | error e s => exact h.elim

/-- The state a program leaves, whatever its outcome. -/
def final (x : EStateM ε σ α) (s : σ) : σ :=
  match x s with
  | .ok _ t => t
  | .error _ t => t

theorem Post.final {x : EStateM ε σ α} {s : σ} {P : σ → Prop}
    (h : Post (x s) (fun _ t => P t) (fun _ t => P t)) :
    P (Filsys.Lib.final x s) := by
  unfold Filsys.Lib.final
  cases hx : x s with
  | ok a t => rw [hx] at h; exact h
  | error e t => rw [hx] at h; exact h

/-- The error a program ends with, if it does. -/
def errorOf (x : EStateM ε σ α) (s : σ) : Option ε :=
  match x s with
  | .ok _ _ => none
  | .error e _ => some e

theorem eq_error {x : EStateM ε σ α} {s : σ} {e : ε} (h : errorOf x s = some e) :
    x s = .error e (final x s) := by
  unfold errorOf at h
  unfold final
  cases hx : x s with
  | ok a t => rw [hx] at h; cases h
  | error e' t => rw [hx] at h; cases h; rfl

/-- The value a program returns, or the default where it fails. -/
def valueOf [Inhabited α] (x : EStateM ε σ α) (s : σ) : α :=
  match x s with
  | .ok a _ => a
  | .error _ _ => default

theorem eq_ok [Inhabited α] {x : EStateM ε σ α} {s : σ} (h : errorOf x s = none) :
    x s = .ok (valueOf x s) (final x s) := by
  unfold errorOf at h
  unfold valueOf final
  cases hx : x s with
  | ok a t => rfl
  | error e t => rw [hx] at h; cases h

theorem eq_done {x : EStateM ε σ Unit} {s : σ} (h : errorOf x s = none) : x s = .ok () (final x s) := eq_ok h

theorem bind_eq_of_ok {x : EStateM ε σ α} {f : α → EStateM ε σ β} {a : α} {s t : σ} (h : x s = .ok a t) :
    (x >>= f) s = f a t := by
  show EStateM.bind x f s = f a t
  unfold EStateM.bind
  rw [h]

theorem bind_eq_of_error {x : EStateM ε σ α} {f : α → EStateM ε σ β} {e : ε} {s t : σ} (h : x s = .error e t) :
    (x >>= f) s = .error e t := by
  show EStateM.bind x f s = .error e t
  unfold EStateM.bind
  rw [h]

section Rules

variable {s : σ} {Q : β → σ → Prop} {E : ε → σ → Prop}

theorem post_bind {x : EStateM ε σ α} {f : α → EStateM ε σ β} (h : Post (x s) (fun a t => Post (f a t) Q E) E) :
    Post ((x >>= f) s) Q E := by
  show Post (EStateM.bind x f s) Q E
  unfold EStateM.bind
  cases hx : x s with
  | ok a t => rw [hx] at h; exact h
  | error e t => rw [hx] at h; exact h

theorem post_pure {b : β} (h : Q b s) : Post ((pure b : EStateM ε σ β) s) Q E := h

theorem post_get {f : σ → EStateM ε σ β} (h : Post (f s s) Q E) : Post ((get >>= f) s) Q E := h

theorem post_ite {c : Prop} [Decidable c] {x y : EStateM ε σ β} (ht : c → Post (x s) Q E)
    (hf : ¬ c → Post (y s) Q E) :
    Post ((if c then x else y) s) Q E := by
  split
  · exact ht ‹_›
  · exact hf ‹_›

end Rules

/-- An `if` without an `else`. -/
def onlyIf (c : Prop) [Decidable c] (x : EStateM ε σ Unit) : EStateM ε σ Unit := if c then x else pure ()

theorem post_onlyIf {c : Prop} [Decidable c] {x : EStateM ε σ Unit} {s : σ}
    {Q : Unit → σ → Prop} {E : ε → σ → Prop}
    (ht : c → Post (x s) Q E) (hf : ¬ c → Q () s) : Post (onlyIf c x s) Q E := by
  unfold onlyIf
  split
  · exact ht ‹_›
  · exact hf ‹_›

/-- A call whose return code is looked at: its error is a value. -/
def attempt (x : EStateM ε σ α) : EStateM ε σ (Except ε α) := fun s =>
  match x s with
  | .ok a t => .ok (.ok a) t
  | .error e t => .ok (.error e) t

theorem post_attempt {x : EStateM ε σ α} {s : σ} {Q : Except ε α → σ → Prop} {E : ε → σ → Prop}
    (h : Post (x s) (fun a t => Q (.ok a) t) (fun e t => Q (.error e) t)) : Post (attempt x s) Q E := by
  unfold attempt
  cases hx : x s with
  | ok a t => rw [hx] at h; exact h
  | error e t => rw [hx] at h; exact h

/-- A call whose every failure is reported as `e`. -/
def failAs (e : ε) (x : EStateM ε σ α) : EStateM ε σ α := fun s =>
  match x s with
  | .ok a t => .ok a t
  | .error _ t => .error e t

theorem post_failAs {x : EStateM ε σ α} {e : ε} {s : σ} {Q : α → σ → Prop} {E : ε → σ → Prop}
    (h : Post (x s) Q (fun _ t => E e t)) : Post (failAs e x s) Q E := by
  unfold failAs
  cases hx : x s with
  | ok a t => rw [hx] at h; exact h
  | error e' t => rw [hx] at h; exact h

/-- Run `x`, which works on the global state and a local, from the local `l`; the
    local comes back on both outcomes. -/
def inside (l : τ) (x : EStateM ε (σ × τ) α) : EStateM ε σ (Except ε α × τ) := fun s =>
  match x (s, l) with
  | .ok a (t, l') => .ok (.ok a, l') t
  | .error e (t, l') => .ok (.error e, l') t

theorem post_inside {x : EStateM ε (σ × τ) α} {l : τ} {s : σ} {Q : Except ε α × τ → σ → Prop} {E : ε → σ → Prop}
    (h : Post (x (s, l)) (fun a t => Q (.ok a, t.2) t.1) (fun e t => Q (.error e, t.2) t.1)) :
    Post (inside l x s) Q E := by
  unfold inside
  cases hx : x (s, l) with
  | ok a t => rw [hx] at h; exact h
  | error e t => rw [hx] at h; exact h

/-- A program on the global state, run beside an untouched local. -/
def outside (x : EStateM ε σ α) : EStateM ε (σ × τ) α := fun s =>
  match x s.1 with
  | .ok a t => .ok a (t, s.2)
  | .error e t => .error e (t, s.2)

theorem outside_eq_ok {x : EStateM ε σ α} {s : σ × τ} {a : α} {t : σ × τ} :
    (outside x : EStateM ε (σ × τ) α) s = .ok a t ↔ x s.1 = .ok a t.1 ∧ t.2 = s.2 := by
  unfold outside
  cases hx : x s.1 with
  | ok b u =>
    simp only [EStateM.Result.ok.injEq]
    constructor
    · rintro ⟨rfl, rfl⟩
      exact ⟨⟨rfl, rfl⟩, rfl⟩
    · intro hr
      obtain ⟨⟨rfl, rfl⟩, h⟩ := hr
      exact ⟨rfl, Prod.ext rfl h.symm⟩
  | error e u => simp

theorem post_outside {x : EStateM ε σ α} {s : σ × τ} {Q : α → σ × τ → Prop} {E : ε → σ × τ → Prop}
    (h : Post (x s.1) (fun a t => Q a (t, s.2)) (fun e t => E e (t, s.2))) :
    Post (outside x s : EStateM.Result ε (σ × τ) α) Q E := by
  unfold outside
  cases hx : x s.1 with
  | ok a t => rw [hx] at h; exact h
  | error e t => rw [hx] at h; exact h

/-! ## Programs that keep a relation

  `Keeps R x`: whatever its outcome, `x` leaves a state related by `R` to the one it
  started from. For a reflexive and transitive `R` this is closed under the program
  constructs, so it is proved of a program by following its text. -/

structure Law (R : σ → σ → Prop) : Prop where
  refl : ∀ s, R s s
  trans : ∀ {a b c}, R a b → R b c → R a c

def Keeps (R : σ → σ → Prop) (x : EStateM ε σ α) : Prop := ∀ s, Post (x s) (fun _ t => R s t) (fun _ t => R s t)

section KeepsRules

variable {R : σ → σ → Prop} (law : Law R)

include law

theorem keeps_pure {a : α} : Keeps R (pure a : EStateM ε σ α) := fun s => law.refl s

theorem keeps_throw {e : ε} : Keeps R (throw e : EStateM ε σ α) := fun s => law.refl s

theorem keeps_get : Keeps R (get : EStateM ε σ σ) := fun s => law.refl s

theorem keeps_bind {x : EStateM ε σ α} {f : α → EStateM ε σ β} (hx : Keeps R x) (hf : ∀ a, Keeps R (f a)) :
    Keeps R (x >>= f) := by
  intro s
  refine post_bind ((hx s).mono ?_ fun _ _ h => h)
  intro a t hst
  exact (hf a t).mono (fun _ _ h => law.trans hst h) (fun _ _ h => law.trans hst h)

omit law in
theorem keeps_ite {c : Prop} [Decidable c] {x y : EStateM ε σ α} (hx : Keeps R x) (hy : Keeps R y) :
    Keeps R (if c then x else y) := by
  split
  · exact hx
  · exact hy

theorem keeps_onlyIf {c : Prop} [Decidable c] {x : EStateM ε σ Unit} (hx : Keeps R x) : Keeps R (onlyIf c x) :=
  keeps_ite hx (keeps_pure law)

omit law in
theorem keeps_attempt {x : EStateM ε σ α} (hx : Keeps R x) : Keeps R (attempt x) := fun s => post_attempt (hx s)

omit law in
theorem keeps_failAs {x : EStateM ε σ α} {e : ε} (hx : Keeps R x) : Keeps R (failAs e x) :=
  fun s => post_failAs (hx s)

omit law in
theorem keeps_outside {x : EStateM ε σ α} (hx : Keeps R x) :
    Keeps (fun a b : σ × τ => R a.1 b.1) (outside x : EStateM ε (σ × τ) α) :=
  fun s => post_outside (hx s.1)

end KeepsRules

theorem Keeps.mono {R R' : σ → σ → Prop} {x : EStateM ε σ α} (hx : Keeps R x)
    (h : ∀ {s t}, R s t → R' s t) : Keeps R' x :=
  fun s => (hx s).mono (fun _ _ => h) (fun _ _ => h)

theorem post_keeps {R : σ → σ → Prop} {x : EStateM ε σ α} {s : σ} {Q : α → σ → Prop} {E : ε → σ → Prop}
    (hx : Keeps R x) (hQ : ∀ a t, R s t → Q a t) (hE : ∀ e t, R s t → E e t) :
    Post (x s) Q E := (hx s).mono hQ hE

theorem Law.fst {R : σ → σ → Prop} (law : Law R) : Law fun a b : σ × τ => R a.1 b.1 where
  refl s := law.refl s.1
  trans h h' := law.trans h h'

/-! ## Errors

  `Throws P x`: whatever state `x` starts in, an error it ends with satisfies `P`. -/

def Throws (P : ε → Prop) (x : EStateM ε σ α) : Prop := ∀ s, Post (x s) (fun _ _ => True) fun e _ => P e

section ThrowsRules

variable {P : ε → Prop}

theorem throws_pure {a : α} : Throws P (pure a : EStateM ε σ α) := fun _ => trivial

theorem throws_throw {e : ε} (h : P e) : Throws P (throw e : EStateM ε σ α) := fun _ => h

theorem throws_bind {x : EStateM ε σ α} {f : α → EStateM ε σ β} (hx : Throws P x)
    (hf : ∀ a, Throws P (f a)) : Throws P (x >>= f) :=
  fun s => post_bind ((hx s).mono (fun a t _ => hf a t) fun _ _ h => h)

theorem throws_ite {c : Prop} [Decidable c] {x y : EStateM ε σ α} (hx : Throws P x) (hy : Throws P y) :
    Throws P (if c then x else y) :=
  fun s => post_ite (fun _ => hx s) fun _ => hy s

theorem throws_onlyIf {c : Prop} [Decidable c] {x : EStateM ε σ Unit} (hx : Throws P x) :
    Throws P (onlyIf c x) := throws_ite hx throws_pure

/-- Whatever fails inside, the error is the one given. -/
theorem throws_failAs {x : EStateM ε σ α} {e : ε} (h : P e) : Throws P (failAs e x) :=
  fun s => post_failAs ((post_true (x s)).mono (fun _ _ h => h) fun _ _ _ => h)

theorem throws_outside {x : EStateM ε σ α} (hx : Throws P x) :
    Throws P (outside x : EStateM ε (σ × τ) α) := fun s => post_outside (hx s.1)

end ThrowsRules

end Filsys.Lib
