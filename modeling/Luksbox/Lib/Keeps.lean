import Luksbox.Lib.Wp

/-!
# Programs that keep an invariant

`Keeps I m` says that `m`, started where `I` holds, leaves a state where `I`
holds, whether it returns or fails. It composes along the program text with no
side conditions, which makes it the right tool for facts that hardly any step
can touch: one lemma for each program, and the few steps that matter are proved
about `I` itself.
-/

namespace Luksbox.Lib

variable {ε σ τ α β : Type} {I : σ → Prop}

def Keeps (I : σ → Prop) (m : EStateM ε σ α) : Prop :=
  ∀ s, I s → wp m (fun _ s' => I s') (fun _ s' => I s') s

namespace Keeps

theorem pure {a : α} : Keeps I (Pure.pure a : EStateM ε σ α) := fun _ h => h

theorem throw {e : ε} : Keeps I (MonadExcept.throw e : EStateM ε σ α) := fun _ h => h

theorem get : Keeps I (MonadState.get : EStateM ε σ σ) := fun _ h => h

theorem modify {f : σ → σ} (hf : ∀ s, I s → I (f s)) :
    Keeps I (modify f : EStateM ε σ PUnit) := hf

theorem bind {m : EStateM ε σ α} {f : α → EStateM ε σ β} (hm : Keeps I m)
    (hf : ∀ a, Keeps I (f a)) : Keeps I (m >>= f) := by
  intro s h
  rw [wp_bind]
  exact wp_mono (hm s h) (fun a s' h' => hf a s' h') fun _ _ h' => h'

/-- What follows a `get` knows the state. -/
theorem get_bind {f : σ → EStateM ε σ β}
    (hf : ∀ s, I s → wp (f s) (fun _ s' => I s') (fun _ s' => I s') s) :
    Keeps I (MonadState.get >>= f) := by
  intro s h
  rw [wp_bind, wp_get]
  exact hf s h

theorem map {m : EStateM ε σ α} {f : α → β} (hm : Keeps I m) : Keeps I (f <$> m) := by
  intro s h
  rw [wp_map]
  exact hm s h

theorem attempt {m : EStateM ε σ α} (hm : Keeps I m) : Keeps I (attempt m) := by
  intro s h
  rw [wp_attempt]
  exact hm s h

theorem fromExcept {r : Except ε α} : Keeps I (fromExcept r : EStateM ε σ α) := by
  intro s h
  cases r with
  | ok a => exact h
  | error e => exact h

theorem ite {c : Prop} [Decidable c] {m n : EStateM ε σ α} (hm : Keeps I m) (hn : Keeps I n) :
    Keeps I (if c then m else n) := by
  split
  · exact hm
  · exact hn

/-- A program on a part of the state, if it keeps what the whole asks of the
part. -/
theorem zoom {part : σ → τ} {put : σ → τ → σ} {m : EStateM ε τ α}
    (hm : ∀ s, I s → wp m (fun _ t => I (put s t)) (fun _ t => I (put s t)) (part s)) :
    Keeps I (zoom part put m) := by
  intro s h
  rw [wp_zoom]
  exact hm s h

end Keeps

end Luksbox.Lib
