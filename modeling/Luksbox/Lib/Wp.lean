import Mathlib.Logic.Basic

/-!
# Weakest preconditions for programs that fail and keep their state

A Rust method that takes `&mut self` and returns a `Result` is a function on
the state that ends in a value or in an error, and in both cases the state it
leaves behind is the one it had mutated so far: `?` does not undo anything.
That is `EStateM` with no backtracking, and this file gives its program logic.

`wp m Q E s` says what running `m` from `s` ends in: `Q` if it returned, `E`
if it failed. The rules below are equivalences and simp lemmas, so unfolding a
program under `wp` and simplifying is symbolic execution, and a lemma
`P s → wp f Q E s` about a function is used at its call sites through
`wp_mono`. Both exits matter equally: most of what is proved about a fallible
operation is about the state it leaves when it gives up halfway.
-/

namespace Luksbox.Lib

variable {ε σ τ α β : Type}

/-- What running `m` from `s` ends in: `Q` on return, `E` on failure. -/
def wp (m : EStateM ε σ α) (Q : α → σ → Prop) (E : ε → σ → Prop) (s : σ) : Prop :=
  match m s with
  | .ok a s' => Q a s'
  | .error e s' => E e s'

/-- Run `m` and hand its outcome over as a value; the caller decides what an
error means. The state is the one `m` left, whichever way it ended. -/
def attempt (m : EStateM ε σ α) : EStateM ε σ (Except ε α) := fun s =>
  match m s with
  | .ok a s' => .ok (.ok a) s'
  | .error e s' => .ok (.error e) s'

/-- Run a program on a part of the state. -/
def zoom (part : σ → τ) (put : σ → τ → σ) (m : EStateM ε τ α) : EStateM ε σ α := fun s =>
  match m (part s) with
  | .ok a t => .ok a (put s t)
  | .error e t => .error e (put s t)

/-- A pure fallible computation as a program. -/
def fromExcept (r : Except ε α) : EStateM ε σ α := fun s =>
  match r with
  | .ok a => .ok a s
  | .error e => .error e s

/-- Whether a run returned. -/
def returned : EStateM.Result ε σ α → Bool
  | .ok _ _ => true
  | .error _ _ => false

theorem exists_of_returned {r : EStateM.Result ε σ α} (h : returned r = true) :
    ∃ a s, r = .ok a s := by
  cases r with
  | ok a s => exact ⟨a, s, rfl⟩
  | error e s => cases h

/-! ## Pure fallible computations -/

/-- `Option::ok_or`. -/
def okOr (e : ε) : Option α → Except ε α
  | some a => .ok a
  | none => .error e

theorem okOr_eq_ok {e : ε} {x : Option α} {a : α} : okOr e x = .ok a ↔ x = some a := by
  cases x with
  | none => exact ⟨nofun, nofun⟩
  | some b =>
      constructor
      · intro h
        rw [Except.ok.inj h]
      · intro h
        rw [Option.some.inj h]
        rfl

theorem okOr_ne_error {e e' : ε} {x : Option α} (h : ∃ a, x = some a) : okOr e x ≠ .error e' := by
  obtain ⟨a, rfl⟩ := h
  exact nofun

theorem except_bind_eq_ok {x : Except ε α} {f : α → Except ε β} {r : β} :
    (x >>= f) = .ok r ↔ ∃ a, x = .ok a ∧ f a = .ok r := by
  cases x with
  | error e => exact ⟨nofun, fun ⟨_, h, _⟩ => nomatch h⟩
  | ok a =>
      constructor
      · intro h
        exact ⟨a, rfl, h⟩
      · rintro ⟨b, hb, h⟩
        injection hb with hb
        exact hb ▸ h

theorem except_bind_ne_error {x : Except ε α} {f : α → Except ε β} {e : ε} (hx : x ≠ .error e)
    (hf : ∀ a, x = .ok a → f a ≠ .error e) : (x >>= f) ≠ .error e := by
  cases x with
  | error e' => exact fun h => hx (by rw [Except.error.inj h])
  | ok a => exact hf a rfl

/-- A check in front of a computation. -/
theorem except_ite_eq_ok {p : Prop} [Decidable p] {x : Except ε α} {e : ε} {a : α} :
    (if p then .error e else x) = .ok a ↔ ¬ p ∧ x = .ok a := by
  split
  next hp =>
    constructor
    · intro h
      cases h
    · exact fun h => absurd hp h.1
  next hp => exact ⟨fun h => ⟨hp, h⟩, fun h => h.2⟩

theorem foldlM_nil_eq_ok {f : β → α → Except ε β} {b r : β} :
    List.foldlM f b [] = .ok r ↔ b = r := by
  rw [List.foldlM_nil]
  exact ⟨fun h => by injection h, fun h => h ▸ rfl⟩

theorem foldlM_cons_eq_ok {f : β → α → Except ε β} {b r : β} {a : α} {l : List α} :
    List.foldlM f b (a :: l) = .ok r ↔ ∃ b', f b a = .ok b' ∧ List.foldlM f b' l = .ok r := by
  rw [List.foldlM_cons, except_bind_eq_ok]

/-! ## Rules -/

theorem wp_mono {m : EStateM ε σ α} {Q Q' : α → σ → Prop} {E E' : ε → σ → Prop} {s : σ}
    (h : wp m Q E s) (hQ : ∀ a s', Q a s' → Q' a s') (hE : ∀ e s', E e s' → E' e s') :
    wp m Q' E' s := by
  unfold wp at h ⊢
  cases hm : m s with
  | ok a s' => rw [hm] at h; exact hQ a s' h
  | error e s' => rw [hm] at h; exact hE e s' h

theorem wp_and {m : EStateM ε σ α} {Q Q' : α → σ → Prop} {E E' : ε → σ → Prop} {s : σ}
    (h : wp m Q E s) (h' : wp m Q' E' s) :
    wp m (fun a s' => Q a s' ∧ Q' a s') (fun e s' => E e s' ∧ E' e s') s := by
  unfold wp at h h' ⊢
  cases hm : m s with
  | ok a s' => rw [hm] at h h'; exact ⟨h, h'⟩
  | error e s' => rw [hm] at h h'; exact ⟨h, h'⟩

/-- What holds of every outcome holds of this one. -/
theorem wp_intro {m : EStateM ε σ α} {Q : α → σ → Prop} {E : ε → σ → Prop} {s : σ}
    (hQ : ∀ a s', m s = .ok a s' → Q a s') (hE : ∀ e s', m s = .error e s' → E e s') :
    wp m Q E s := by
  unfold wp
  cases hm : m s with
  | ok a s' => exact hQ a s' hm
  | error e s' => exact hE e s' hm

/-- A program that cannot fail returns. -/
theorem exists_of_wp {m : EStateM ε σ α} {Q : α → σ → Prop} {s : σ}
    (h : wp m Q (fun _ _ => False) s) : ∃ a s', m s = .ok a s' ∧ Q a s' := by
  unfold wp at h
  cases hm : m s with
  | ok a s' => rw [hm] at h; exact ⟨a, s', rfl, h⟩
  | error e s' => rw [hm] at h; exact h.elim

theorem wp_ok {m : EStateM ε σ α} {Q : α → σ → Prop} {E : ε → σ → Prop} {s s' : σ} {a : α}
    (h : wp m Q E s) (hm : m s = .ok a s') : Q a s' := by
  unfold wp at h
  rw [hm] at h
  exact h

theorem wp_error {m : EStateM ε σ α} {Q : α → σ → Prop} {E : ε → σ → Prop} {s s' : σ} {e : ε}
    (h : wp m Q E s) (hm : m s = .error e s') : E e s' := by
  unfold wp at h
  rw [hm] at h
  exact h

@[simp] theorem wp_pure {a : α} {Q : α → σ → Prop} {E : ε → σ → Prop} {s : σ} :
    wp (pure a : EStateM ε σ α) Q E s ↔ Q a s := Iff.rfl

@[simp] theorem wp_throw {e : ε} {Q : α → σ → Prop} {E : ε → σ → Prop} {s : σ} :
    wp (throw e : EStateM ε σ α) Q E s ↔ E e s := Iff.rfl

@[simp] theorem wp_get {Q : σ → σ → Prop} {E : ε → σ → Prop} {s : σ} :
    wp (get : EStateM ε σ σ) Q E s ↔ Q s s := Iff.rfl

@[simp] theorem wp_set {t : σ} {Q : PUnit → σ → Prop} {E : ε → σ → Prop} {s : σ} :
    wp (set t : EStateM ε σ PUnit) Q E s ↔ Q ⟨⟩ t := Iff.rfl

@[simp] theorem wp_modify {f : σ → σ} {Q : PUnit → σ → Prop} {E : ε → σ → Prop} {s : σ} :
    wp (modify f : EStateM ε σ PUnit) Q E s ↔ Q ⟨⟩ (f s) := Iff.rfl

@[simp] theorem wp_bind {m : EStateM ε σ α} {f : α → EStateM ε σ β} {Q : β → σ → Prop}
    {E : ε → σ → Prop} {s : σ} :
    wp (m >>= f) Q E s ↔ wp m (fun a => wp (f a) Q E) E s := by
  unfold wp
  show (match EStateM.bind m f s with
    | .ok a s' => Q a s'
    | .error e s' => E e s') ↔ _
  unfold EStateM.bind
  cases m s <;> rfl

@[simp] theorem wp_map {m : EStateM ε σ α} {f : α → β} {Q : β → σ → Prop}
    {E : ε → σ → Prop} {s : σ} :
    wp (f <$> m) Q E s ↔ wp m (fun a => Q (f a)) E s := by
  unfold wp
  show (match EStateM.map f m s with
    | .ok a s' => Q a s'
    | .error e s' => E e s') ↔ _
  unfold EStateM.map
  cases m s <;> rfl

@[simp] theorem wp_attempt {m : EStateM ε σ α} {Q : Except ε α → σ → Prop}
    {E : ε → σ → Prop} {s : σ} :
    wp (attempt m) Q E s ↔ wp m (fun a => Q (.ok a)) (fun e => Q (.error e)) s := by
  unfold wp attempt
  cases m s <;> rfl

@[simp] theorem wp_zoom {part : σ → τ} {put : σ → τ → σ} {m : EStateM ε τ α}
    {Q : α → σ → Prop} {E : ε → σ → Prop} {s : σ} :
    wp (zoom part put m) Q E s ↔
      wp m (fun a t => Q a (put s t)) (fun e t => E e (put s t)) (part s) := by
  unfold wp zoom
  cases m (part s) <;> rfl

@[simp] theorem wp_fromExcept_ok {a : α} {Q : α → σ → Prop} {E : ε → σ → Prop} {s : σ} :
    wp (fromExcept (.ok a) : EStateM ε σ α) Q E s ↔ Q a s := Iff.rfl

@[simp] theorem wp_fromExcept_error {e : ε} {Q : α → σ → Prop} {E : ε → σ → Prop} {s : σ} :
    wp (fromExcept (.error e) : EStateM ε σ α) Q E s ↔ E e s := Iff.rfl

theorem wp_ite {c : Prop} [Decidable c] {m n : EStateM ε σ α} {Q : α → σ → Prop}
    {E : ε → σ → Prop} {s : σ} :
    wp (if c then m else n) Q E s ↔ (c → wp m Q E s) ∧ (¬ c → wp n Q E s) := by
  split
  · next h => exact ⟨fun hw => ⟨fun _ => hw, fun hn => absurd h hn⟩, fun hw => hw.1 h⟩
  · next h => exact ⟨fun hw => ⟨fun hc => absurd hc h, fun _ => hw⟩, fun hw => hw.2 h⟩

/-- A program whose outcome is known, run inside a larger one. -/
theorem bind_ok {m : EStateM ε σ α} {f : α → EStateM ε σ β} {s s' : σ} {a : α}
    (h : m s = .ok a s') : (m >>= f) s = f a s' := by
  show EStateM.bind m f s = _
  unfold EStateM.bind
  rw [h]

end Luksbox.Lib
