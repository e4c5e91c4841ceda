/-
  Filsys.Lib.Watch — programs watched while they run.

  Which places a routine reads and writes on its way is a fact its result does not show.
  A watched program keeps a log beside its state: `note` adds an entry, `unwatched` runs
  a program that adds none. `Erases x y` says that `x` with its log left out is `y`, so
  what the log holds is what `y` does on the same run.
-/

import Filsys.Lib.Outcome

namespace Filsys.Lib

variable {ε σ ω α β : Type}

/-- A program with a log, newest entry first. -/
abbrev Watched (ε σ ω α : Type) := EStateM ε (σ × List ω) α

def note (w : ω) : Watched ε σ ω Unit := fun s => .ok () (s.1, w :: s.2)

def noteAll (ws : List ω) : Watched ε σ ω Unit := fun s => .ok () (s.1, ws ++ s.2)

/-- A program that adds nothing to the log. -/
def unwatched (x : EStateM ε σ α) : Watched ε σ ω α := outside x

/-- What the program adds to the log. -/
def logOf (x : Watched ε σ ω α) (s : σ) : List ω := (final x (s, [])).2

section Rules

variable {s : σ × List ω} {Q : β → σ × List ω → Prop} {E : ε → σ × List ω → Prop}

theorem post_note {w : ω} {f : Unit → Watched ε σ ω β} (h : Post (f () (s.1, w :: s.2)) Q E) :
    Post ((note w >>= f) s) Q E := h

theorem post_noteAll {ws : List ω} {f : Unit → Watched ε σ ω β} (h : Post (f () (s.1, ws ++ s.2)) Q E) :
    Post ((noteAll ws >>= f) s) Q E := h

theorem post_unwatched {x : EStateM ε σ β}
    (h : Post (x s.1) (fun a t => Q a (t, s.2)) (fun e t => E e (t, s.2))) :
    Post (unwatched x s) Q E := post_outside h

end Rules

/-! ## Leaving the log out -/

/-- An outcome without the log. -/
def bare : EStateM.Result ε (σ × List ω) α → EStateM.Result ε σ α
  | .ok a s => .ok a s.1
  | .error e s => .error e s.1

/-- `x` without its log is `y`. -/
def Erases (x : Watched ε σ ω α) (y : EStateM ε σ α) : Prop := ∀ s l, bare (x (s, l)) = y s

theorem erases_pure (a : α) : Erases (pure a : Watched ε σ ω α) (pure a) := fun _ _ => rfl

theorem erases_throw (e : ε) : Erases (throw e : Watched ε σ ω α) (throw e) := fun _ _ => rfl

theorem erases_unwatched (x : EStateM ε σ α) : Erases (unwatched x : Watched ε σ ω α) x := by
  intro s l
  unfold unwatched outside
  cases x s <;> rfl

theorem erases_bind {x : Watched ε σ ω α} {y : EStateM ε σ α} {f : α → Watched ε σ ω β}
    {g : α → EStateM ε σ β} (hx : Erases x y)
    (hf : ∀ a, Erases (f a) (g a)) : Erases (x >>= f) (y >>= g) := by
  intro s l
  have h := hx s l
  show bare (EStateM.bind x f (s, l)) = EStateM.bind y g s
  unfold EStateM.bind
  cases hr : x (s, l) with
  | ok a t =>
    rw [hr] at h
    rw [← h]
    exact hf a t.1 t.2
  | error e t =>
    rw [hr] at h
    rw [← h]
    rfl

theorem erases_note {w : ω} {f : Unit → Watched ε σ ω β} {y : EStateM ε σ β} (hf : Erases (f ()) y) :
    Erases (note w >>= f) y :=
  fun s l => hf s (w :: l)

theorem erases_noteAll {ws : List ω} {f : Unit → Watched ε σ ω β} {y : EStateM ε σ β} (hf : Erases (f ()) y) :
    Erases (noteAll ws >>= f) y := fun s l => hf s (ws ++ l)

theorem erases_ite {c : Prop} [Decidable c] {x x' : Watched ε σ ω α}
    {y y' : EStateM ε σ α} (hx : c → Erases x y)
    (hx' : ¬ c → Erases x' y') : Erases (if c then x else x') (if c then y else y') := by
  split
  · exact hx ‹_›
  · exact hx' ‹_›

theorem erases_onlyIf {c : Prop} [Decidable c] {x : Watched ε σ ω Unit}
    {y : EStateM ε σ Unit} (hx : c → Erases x y) :
    Erases (onlyIf c x) (onlyIf c y) := erases_ite hx fun _ => erases_pure ()

theorem erases_failAs {e : ε} {x : Watched ε σ ω α} {y : EStateM ε σ α} (hx : Erases x y) :
    Erases (failAs e x) (failAs e y) := by
  intro s l
  have h := hx s l
  unfold failAs
  cases hr : x (s, l) with
  | ok a t => rw [hr] at h; rw [← h]; rfl
  | error e' t => rw [hr] at h; rw [← h]; rfl

/-- The watched run and the program end in the same state. -/
theorem Erases.final {x : Watched ε σ ω α} {y : EStateM ε σ α} (h : Erases x y) (s : σ) (l : List ω) :
    (Filsys.Lib.final x (s, l)).1 = Filsys.Lib.final y s := by
  have hr := h s l
  unfold Filsys.Lib.final
  cases hx : x (s, l) with
  | ok a t => rw [hx] at hr; rw [← hr]; rfl
  | error e t => rw [hx] at hr; rw [← hr]; rfl

/-! ## What a log holds -/

/-- The log only grows. -/
def Longer (a b : σ × List ω) : Prop := ∀ w ∈ a.2, w ∈ b.2

theorem longer_law : Law (Longer : σ × List ω → σ × List ω → Prop) where
  refl _ _ h := h
  trans h h' w hw := h' w (h w hw)

theorem note_longer (w : ω) : Keeps Longer (note w : Watched ε σ ω Unit) :=
  fun _ _ hv => List.mem_cons_of_mem _ hv

theorem noteAll_longer (ws : List ω) : Keeps Longer (noteAll ws : Watched ε σ ω Unit) :=
  fun _ _ hv => List.mem_append_right _ hv

theorem unwatched_longer (x : EStateM ε σ α) : Keeps Longer (unwatched x : Watched ε σ ω α) := by
  intro s
  apply post_outside
  cases x s.1 with
  | ok a t => exact fun _ h => h
  | error e t => exact fun _ h => h

/-- What the log gains satisfies `P`. -/
def Gains (P : ω → Prop) (a b : σ × List ω) : Prop := ∀ w ∈ b.2, w ∈ a.2 ∨ P w

theorem Gains.refl {P : ω → Prop} (a : σ × List ω) : Gains P a a := fun _ h => .inl h

theorem Gains.trans {P : ω → Prop} {a b c : σ × List ω} (h : Gains P a b) (h' : Gains P b c) : Gains P a c :=
  fun w hw => (h' w hw).elim (h w) .inr

theorem Gains.cons {P : ω → Prop} {a : σ × List ω} {s : σ} {l : List ω} {w : ω} (h : Gains P a (s, l))
    (hw : P w) : Gains P a (s, w :: l) := by
  intro v hv
  rcases List.mem_cons.mp hv with rfl | hv
  · exact .inr hw
  · exact h v hv

theorem Gains.append {P : ω → Prop} {a : σ × List ω} {s : σ} {l : List ω} {ws : List ω}
    (h : Gains P a (s, l)) (hws : ∀ w ∈ ws, P w) :
    Gains P a (s, ws ++ l) := by
  intro v hv
  rcases List.mem_append.mp hv with hv | hv
  · exact .inr (hws v hv)
  · exact h v hv

/-- From the empty log, everything gained. -/
theorem Gains.all {P : ω → Prop} {s : σ} {b : σ × List ω} (h : Gains P (s, []) b) : ∀ w ∈ b.2, P w :=
  fun w hw => (h w hw).resolve_left List.not_mem_nil

end Filsys.Lib
