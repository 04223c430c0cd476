import Mathlib

/-! Computations on a state that can stop with an error, and what holds of such a computation from a
state on: it ends as promised, or it stops with an error that is allowed. -/
namespace Fallible

variable {σ ε α β : Type} {allowed : ε → Prop} {x : StateT σ (Except ε) α}
  {f : α → StateT σ (Except ε) β} {s t : σ} {a : α} {e : ε} {post post' : α → σ → Prop}
  {post₂ : β → σ → Prop}

/-- From `s` the computation ends with a value and a state for which `post` holds, or stops with an
allowed error. -/
def Meets (allowed : ε → Prop) (x : StateT σ (Except ε) α) (s : σ) (post : α → σ → Prop) : Prop :=
  match x s with
  | .ok (a, t) => post a t
  | .error e => allowed e

theorem meets_ok (h : x s = .ok (a, t)) : Meets allowed x s post ↔ post a t := by
  simp [Meets, h]

theorem meets_error (h : x s = .error e) : Meets allowed x s post ↔ allowed e := by
  simp [Meets, h]

theorem meets_pure : Meets allowed (pure a) s post ↔ post a s := Iff.rfl

theorem Meets.mono (h : Meets allowed x s post) (hpost : ∀ a t, post a t → post' a t) :
    Meets allowed x s post' := by
  rcases hx : x s with e | ⟨a, t⟩
  · rwa [meets_error hx] at h ⊢
  · rw [meets_ok hx] at h ⊢
    exact hpost a t h

/-- What a computation is sure to reach is true of where it ends. -/
theorem Meets.ends (h : Meets allowed x s post) (hx : x s = .ok (a, t)) : post a t :=
  (meets_ok hx).mp h

theorem Meets.stops (h : Meets allowed x s post) (hx : x s = .error e) : allowed e :=
  (meets_error hx).mp h

/-- A run that does not stop ends as promised. -/
theorem Meets.exists_ok (h : Meets allowed x s post) (hok : (x s).isOk = true) :
    ∃ r, x s = .ok r ∧ post r.1 r.2 := by
  rcases hx : x s with e | r
  · rw [hx] at hok
    cases hok
  · exact ⟨r, rfl, h.ends hx⟩

theorem bind_of_ok (h : x s = .ok (a, t)) : (x >>= f) s = f a t := by
  change (x s >>= fun (a, t) => f a t) = f a t
  rw [h]
  rfl

theorem bind_of_error (h : x s = .error e) : (x >>= f) s = .error e := by
  change (x s >>= fun (a, t) => f a t) = .error e
  rw [h]
  rfl

/-- How a computation without a state that ends well began. -/
theorem ok_of_bind {x : Except ε α} {f : α → Except ε β} {b : β} (h : x >>= f = .ok b) :
    ∃ a, x = .ok a ∧ f a = .ok b := by
  cases x with
  | error e => cases h
  | ok a => exact ⟨a, rfl, h⟩

/-- One computation after the other. -/
theorem Meets.bind (h : Meets allowed x s post)
    (hf : ∀ a t, post a t → Meets allowed (f a) t post₂) : Meets allowed (x >>= f) s post₂ := by
  rcases hx : x s with e | ⟨a, t⟩
  · exact (meets_error (bind_of_error hx)).mpr (h.stops hx)
  · rw [Meets, bind_of_ok hx]
    exact hf a t (h.ends hx)

/-- A first part that is known to end well. -/
theorem meets_bind (h : x s = .ok (a, t)) :
    Meets allowed (x >>= f) s post₂ ↔ Meets allowed (f a) t post₂ := by
  rw [Meets, bind_of_ok h, Meets]

attribute [irreducible] Meets

end Fallible
