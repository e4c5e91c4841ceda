/-
  Filsys.Lib.Replay — programs whose outcome a relation between states does not change.

  `Replays R x`: from every state `R` relates to `s` the program ends alike, with one
  value or with one error, in a state `R` still relates to `s`. For a reflexive `R` a
  program that replays can be run once more after itself and says the same again
  (`Replays.again`). Like `Keeps`, the property is closed under the program constructs.
-/

import Filsys.Lib.Outcome

namespace Filsys.Lib

variable {ε σ τ α β : Type}

/-- The outcome `r` of `x`, from every state related to `s`. -/
def Answers (R : σ → σ → Prop) (x : EStateM ε σ α) (s : σ) (r : Except ε α) : Prop :=
  ∀ t, R s t → ∃ t', R s t' ∧ x t = match r with
    | .ok a => .ok a t'
    | .error e => .error e t'

def Replays (R : σ → σ → Prop) (x : EStateM ε σ α) : Prop := ∀ s, ∃ r, Answers R x s r

section ReplayRules

variable {R : σ → σ → Prop}

theorem replays_pure {a : α} : Replays R (pure a : EStateM ε σ α) := fun _ => ⟨.ok a, fun t h => ⟨t, h, rfl⟩⟩

theorem replays_throw {e : ε} : Replays R (throw e : EStateM ε σ α) :=
  fun _ => ⟨.error e, fun t h => ⟨t, h, rfl⟩⟩

/-- Looking at what the relation leaves alone. -/
theorem replays_look {f : σ → α} (hf : ∀ {s t}, R s t → f t = f s) :
    Replays R (fun s => .ok (f s) s : EStateM ε σ α) :=
  fun s => ⟨.ok (f s), fun t h => ⟨t, h, by show EStateM.Result.ok (f t) t = .ok (f s) t; rw [hf h]⟩⟩

theorem replays_bind {x : EStateM ε σ α} {f : α → EStateM ε σ β} (hx : Replays R x)
    (hf : ∀ a, Replays R (f a)) :
    Replays R (x >>= f) := by
  intro s
  obtain ⟨r, hr⟩ := hx s
  cases r with
  | ok a =>
    obtain ⟨r', hr'⟩ := hf a s
    refine ⟨r', fun t h => ?_⟩
    obtain ⟨t', h', hxt⟩ := hr t h
    rw [bind_eq_of_ok hxt]
    exact hr' t' h'
  | error e =>
    refine ⟨.error e, fun t h => ?_⟩
    obtain ⟨t', h', hxt⟩ := hr t h
    exact ⟨t', h', bind_eq_of_error hxt⟩

theorem replays_ite {c : Prop} [Decidable c] {x y : EStateM ε σ α} (hx : Replays R x) (hy : Replays R y) :
    Replays R (if c then x else y) := by
  split
  · exact hx
  · exact hy

theorem replays_failAs {x : EStateM ε σ α} {e : ε} (hx : Replays R x) : Replays R (failAs e x) := by
  intro s
  obtain ⟨r, hr⟩ := hx s
  refine ⟨match r with | .ok a => .ok a | .error _ => .error e, fun t h => ?_⟩
  obtain ⟨t', h', hxt⟩ := hr t h
  refine ⟨t', h', ?_⟩
  unfold failAs
  rw [hxt]
  cases r with
  | ok a => rfl
  | error e' => rfl

/-- The relation on the global part, the local as it was. -/
def OnGlobal (R : σ → σ → Prop) (a b : σ × τ) : Prop := R a.1 b.1 ∧ b.2 = a.2

theorem replays_inside {x : EStateM ε (σ × τ) α} (hx : Replays (OnGlobal R) x) (l : τ) :
    Replays R (inside l x) := by
  intro s
  obtain ⟨r, hr⟩ := hx (s, l)
  refine ⟨.ok (r, l), fun t h => ?_⟩
  obtain ⟨⟨t', l'⟩, ⟨h', rfl⟩, hxt⟩ := hr (t, l) ⟨h, rfl⟩
  refine ⟨t', h', ?_⟩
  unfold inside
  rw [hxt]
  cases r with
  | ok a => rfl
  | error e => rfl

theorem replays_outside {x : EStateM ε σ α} (hx : Replays R x) :
    Replays (OnGlobal R) (outside x : EStateM ε (σ × τ) α) := by
  intro s
  obtain ⟨r, hr⟩ := hx s.1
  refine ⟨r, fun t h => ?_⟩
  obtain ⟨t', h', hxt⟩ := hr t.1 h.1
  refine ⟨(t', t.2), ⟨h', h.2⟩, ?_⟩
  unfold outside
  rw [hxt]
  cases r with
  | ok a => rfl
  | error e => rfl

end ReplayRules

/-- Run again after itself, such a program says the same. -/
theorem Replays.again {R : σ → σ → Prop} {x : EStateM ε σ α} (hx : Replays R x) {s t : σ} {a : α} (hs : R s s)
    (h : x s = .ok a t) : R s t ∧ ∃ u, R s u ∧ x t = .ok a u := by
  obtain ⟨r, hr⟩ := hx s
  obtain ⟨t', ht', hxt⟩ := hr s hs
  rw [h] at hxt
  cases r with
  | error e => cases hxt
  | ok b =>
    cases hxt
    obtain ⟨u, hu, hxu⟩ := hr t ht'
    exact ⟨ht', u, hu, hxu⟩

end Filsys.Lib
