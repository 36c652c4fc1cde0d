import Luksbox.Lib.Wp
import Mathlib.Logic.Relation

/-!
# Programs as paths of a transition system

A program that works on a state in many small steps is described once by a
transition system, and every invariant is then proved over the transitions
instead of over the program. The transition system may carry more than the
program's state; `view` forgets the rest.

`runs step view c m Q E` says that running `m` from the state of `c` amounts to
a path of the system: it starts at `c`, ends in some `c'` with the state the
program leaves, and `c'` satisfies `Q` if the program returned and `E` if it
failed. Sequencing programs concatenates paths.
-/

namespace Luksbox.Lib

open Relation

variable {C ε σ α β : Type}

def runs (step : C → C → Prop) (view : C → σ) (c : C) (m : EStateM ε σ α) (Q : α → C → Prop)
    (E : ε → C → Prop) : Prop :=
  wp m (fun a s => ∃ c', view c' = s ∧ ReflTransGen step c c' ∧ Q a c')
    (fun e s => ∃ c', view c' = s ∧ ReflTransGen step c c' ∧ E e c') (view c)

variable {step : C → C → Prop} {view : C → σ} {c : C} {Q Q' : α → C → Prop} {E E' : ε → C → Prop}

/-- A program that ends where a path leads. -/
theorem runs_of_wp {m : EStateM ε σ α}
    (h : wp m (fun a s => ∃ c', view c' = s ∧ ReflTransGen step c c' ∧ Q a c')
      (fun e s => ∃ c', view c' = s ∧ ReflTransGen step c c' ∧ E e c') (view c)) :
    runs step view c m Q E := h

/-- The path is known to the postconditions. -/
theorem runs_mono {m : EStateM ε σ α} (h : runs step view c m Q E)
    (hQ : ∀ a c', ReflTransGen step c c' → Q a c' → Q' a c')
    (hE : ∀ e c', ReflTransGen step c c' → E e c' → E' e c') : runs step view c m Q' E' := by
  refine wp_mono h ?_ ?_
  · rintro a s ⟨c', hs, hp, hq⟩
    exact ⟨c', hs, hp, hQ a c' hp hq⟩
  · rintro e s ⟨c', hs, hp, he⟩
    exact ⟨c', hs, hp, hE e c' hp he⟩

/-- What is known of the program's own state can be added. -/
theorem runs_and_wp {m : EStateM ε σ α} {R : α → σ → Prop} {F : ε → σ → Prop}
    (h : runs step view c m Q E) (hw : wp m R F (view c)) :
    runs step view c m (fun a c' => Q a c' ∧ R a (view c')) (fun e c' => E e c' ∧ F e (view c')) := by
  unfold runs at h ⊢
  unfold wp at h hw ⊢
  cases hm : m (view c) with
  | ok a s =>
      rw [hm] at h hw
      obtain ⟨c', rfl, hp, hq⟩ := h
      exact ⟨c', rfl, hp, hq, hw⟩
  | error e s =>
      rw [hm] at h hw
      obtain ⟨c', rfl, hp, he⟩ := h
      exact ⟨c', rfl, hp, he, hw⟩

/-- Only the path matters for what is known of the state. -/
theorem wp_of_runs {m : EStateM ε σ α} {R : α → σ → Prop} {F : ε → σ → Prop}
    (h : runs step view c m Q E) (hQ : ∀ a c', ReflTransGen step c c' → Q a c' → R a (view c'))
    (hE : ∀ e c', ReflTransGen step c c' → E e c' → F e (view c')) : wp m R F (view c) := by
  refine wp_mono h ?_ ?_
  · rintro a s ⟨c', rfl, hp, hq⟩
    exact hQ a c' hp hq
  · rintro e s ⟨c', rfl, hp, he⟩
    exact hE e c' hp he

theorem runs_pure {a : α} (h : Q a c) : runs step view c (pure a) Q E :=
  ⟨c, rfl, ReflTransGen.refl, h⟩

theorem runs_throw {e : ε} (h : E e c) : runs step view c (throw e) Q E :=
  ⟨c, rfl, ReflTransGen.refl, h⟩

theorem runs_bind {m : EStateM ε σ β} {k : β → EStateM ε σ α}
    (h : runs step view c m (fun b c' => runs step view c' (k b) Q E) E) :
    runs step view c (m >>= k) Q E := by
  unfold runs at h ⊢
  rw [wp_bind]
  refine wp_mono h ?_ fun _ _ he => he
  rintro b s ⟨c', rfl, hp, hk⟩
  refine wp_mono hk ?_ ?_
  · rintro a s ⟨c'', hs, hp', hq⟩
    exact ⟨c'', hs, hp.trans hp', hq⟩
  · rintro e s ⟨c'', hs, hp', he⟩
    exact ⟨c'', hs, hp.trans hp', he⟩

theorem runs_get {k : σ → EStateM ε σ α} (h : runs step view c (k (view c)) Q E) :
    runs step view c (get >>= k) Q E := by
  refine runs_bind ?_
  exact ⟨c, rfl, ReflTransGen.refl, h⟩

theorem runs_ite {p : Prop} [Decidable p] {m n : EStateM ε σ α}
    (hm : p → runs step view c m Q E) (hn : ¬ p → runs step view c n Q E) :
    runs step view c (if p then m else n) Q E := by
  split
  · next h => exact hm h
  · next h => exact hn h

theorem runs_attempt {m : EStateM ε σ α} {Q : Except ε α → C → Prop}
    (h : runs step view c m (fun a => Q (.ok a)) (fun e => Q (.error e))) :
    runs step view c (attempt m) Q E := by
  unfold runs at h ⊢
  rw [wp_attempt]
  exact h

theorem runs_fromExcept {r : Except ε α} (hok : ∀ a, r = .ok a → Q a c)
    (herr : ∀ e, r = .error e → E e c) : runs step view c (fromExcept r) Q E := by
  cases r with
  | ok a => exact ⟨c, rfl, ReflTransGen.refl, hok a rfl⟩
  | error e => exact ⟨c, rfl, ReflTransGen.refl, herr e rfl⟩

/-- One step of the system. -/
theorem runs_modify {f : σ → σ} {Q : Unit → C → Prop} {c' : C} (hs : step c c')
    (hv : view c' = f (view c)) (hq : Q () c') : runs step view c (modify f) Q E :=
  ⟨c', hv, ReflTransGen.single hs, hq⟩

/-- An invariant of the steps holds at the end of a path. -/
theorem path_inv {I : C → Prop} (hstep : ∀ a b, I a → step a b → I b) {c' : C}
    (hp : ReflTransGen step c c') (h : I c) : I c' := by
  induction hp with
  | refl => exact h
  | tail _ hs ih => exact hstep _ _ ih hs

end Luksbox.Lib
