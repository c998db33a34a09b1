import Mathlib.Order.Basic
import Mathlib.Tactic.Common

namespace Outcome

/-- A test that stops the computation with `e` unless `c` holds. -/
def check (c : Bool) (e : ε) : Except ε Unit := if c then .ok () else .error e

@[simp] theorem check_ok {c : Bool} {e : ε} {u : Unit} : check c e = .ok u ↔ c = true := by
  cases c <;> simp [check]

theorem bind_ok {x : Except ε α} {f : α → Except ε β} {b : β} :
    (x >>= f) = .ok b ↔ ∃ a, x = .ok a ∧ f a = .ok b := by
  cases x <;> simp [bind, Except.bind]

theorem pure_ok {a b : α} : (pure a : Except ε α) = .ok b ↔ a = b := by
  simp [pure, Except.pure]

theorem check_bind {c : Bool} {e : ε} {f : Unit → Except ε β} {b : β} :
    (check c e >>= f) = .ok b ↔ c = true ∧ f () = .ok b := by
  cases c <;> simp [check, bind, Except.bind]

theorem map_ok {x : Except ε α} {f : α → β} {b : β} :
    x.map f = .ok b ↔ ∃ a, x = .ok a ∧ f a = b := by
  cases x <;> simp [Except.map]

/-- A traversal whose calls give `g a` exactly under `P`. -/
theorem mapM_ok_iff {f : α → Except ε β} {P : α → Prop} {g : α → β}
    (step : ∀ a b, f a = .ok b ↔ P a ∧ b = g a) {l : List α} {bs : List β} :
    l.mapM f = .ok bs ↔ (∀ a ∈ l, P a) ∧ bs = l.map g := by
  induction l generalizing bs with
  | nil => rw [List.mapM_nil, pure_ok]; simp [eq_comm]
  | cons a l ih =>
    simp only [List.mapM_cons, bind_ok, pure_ok, step, ih, List.forall_mem_cons, List.map_cons]
    constructor
    · rintro ⟨b, ⟨ha, rfl⟩, cs, ⟨hl, rfl⟩, rfl⟩
      exact ⟨⟨ha, hl⟩, rfl⟩
    · rintro ⟨⟨ha, hl⟩, rfl⟩
      exact ⟨g a, ⟨ha, rfl⟩, l.map g, ⟨hl, rfl⟩, rfl⟩

/-- A checked loop: an invariant kept by every successful round holds of the result. -/
theorem foldlM_keeps {f : β → α → Except ε β} (P : β → Prop) (l : List α)
    (step : ∀ b, ∀ a ∈ l, ∀ b', f b a = .ok b' → P b → P b') (b b' : β)
    (h : l.foldlM f b = .ok b') (hb : P b) : P b' := by
  induction l generalizing b with
  | nil =>
    simp only [List.foldlM_nil, pure_ok] at h
    exact h ▸ hb
  | cons a l ih =>
    simp only [List.foldlM_cons, bind_ok] at h
    obtain ⟨c, hc, hl⟩ := h
    exact ih (fun b a ha => step b a (List.mem_cons_of_mem _ ha)) c hl
      (step b a List.mem_cons_self c hc hb)

/-- A checked loop whose rounds all succeed succeeds. -/
theorem foldlM_succeeds {f : β → α → Except ε β} {l : List α} (step : ∀ b, ∀ a ∈ l, ∃ b', f b a = .ok b')
    (b : β) : ∃ b', l.foldlM f b = .ok b' := by
  induction l generalizing b with
  | nil => exact ⟨b, rfl⟩
  | cons a l ih =>
    obtain ⟨c, hc⟩ := step b a List.mem_cons_self
    rw [List.foldlM_cons, hc]
    exact ih (fun b a' ha => step b a' (List.mem_cons_of_mem a ha)) c

/-- A loop of checks succeeds when every round does. -/
theorem forM_ok {f : α → Except ε Unit} {l : List α} {u : Unit} :
    l.forM f = .ok u ↔ ∀ a ∈ l, f a = .ok () := by
  induction l with
  | nil => simp [List.forM, pure, Except.pure]
  | cons a l ih =>
    change (f a >>= fun _ => l.forM f) = .ok u ↔ _
    simp only [bind_ok, ih, List.mem_cons, forall_eq_or_imp]
    constructor
    · intro h
      obtain ⟨_, ha, hl⟩ := h
      exact ⟨ha, hl⟩
    · intro h
      obtain ⟨ha, hl⟩ := h
      exact ⟨(), ha, hl⟩

def succeeds (x : Except ε α) : Bool :=
  match x with
  | .ok _ => true
  | .error _ => false

theorem succeeds_iff {x : Except ε α} : succeeds x = true ↔ ∃ a, x = .ok a := by
  cases x <;> simp [succeeds]

/-! Computations over a state. A failure keeps the state reached so far. -/

def leaves (x : EStateM ε σ α) (s : σ) : σ :=
  match x s with
  | .ok _ t => t
  | .error _ t => t

theorem leaves_ok {x : EStateM ε σ α} {s t : σ} {a : α} (h : x s = .ok a t) : leaves x s = t := by
  simp [leaves, h]

theorem leaves_error {x : EStateM ε σ α} {s t : σ} {e : ε} (h : x s = .error e t) :
    leaves x s = t := by
  simp [leaves, h]

def fails (x : EStateM ε σ α) (s : σ) : Bool :=
  match x s with
  | .ok _ _ => false
  | .error _ _ => true

theorem error_of_fails {x : EStateM ε σ α} {s : σ} (h : fails x s = true) :
    ∃ e, x s = .error e (leaves x s) := by
  unfold fails at h
  cases hx : x s with
  | ok a t => simp [hx] at h
  | error e t => exact ⟨e, by simp [leaves, hx]⟩

theorem ok_of_not_fails {x : EStateM ε σ α} {s : σ} (h : fails x s = false) :
    ∃ a, x s = .ok a (leaves x s) := by
  unfold fails at h
  cases hx : x s with
  | ok a t => exact ⟨a, by simp [leaves, hx]⟩
  | error e t => simp [hx] at h

theorem run_bind_ok {x : EStateM ε σ α} {f : α → EStateM ε σ β} {s t : σ} {b : β} :
    (x >>= f) s = .ok b t ↔ ∃ a r, x s = .ok a r ∧ f a r = .ok b t := by
  cases h : x s <;> simp [bind, EStateM.bind, h]

theorem run_bind_error {x : EStateM ε σ α} {f : α → EStateM ε σ β} {s t : σ} {e : ε} :
    (x >>= f) s = .error e t ↔
      x s = .error e t ∨ ∃ a r, x s = .ok a r ∧ f a r = .error e t := by
  cases h : x s <;> simp [bind, EStateM.bind, h]

theorem bind_of_ok {x : EStateM ε σ α} (f : α → EStateM ε σ β) {s t : σ} {a : α}
    (h : x s = .ok a t) : (x >>= f) s = f a t := by
  simp [bind, EStateM.bind, h]

theorem leaves_bind_ok {x : EStateM ε σ α} (f : α → EStateM ε σ β) {s t : σ} {a : α}
    (h : x s = .ok a t) : leaves (x >>= f) s = leaves (f a) t := by
  rw [leaves, bind_of_ok f h, leaves]

theorem leaves_bind_error {x : EStateM ε σ α} (f : α → EStateM ε σ β) {s t : σ} {e : ε}
    (h : x s = .error e t) : leaves (x >>= f) s = t := by
  simp [leaves, bind, EStateM.bind, h]

def lift (x : Except ε α) : EStateM ε σ α := fun s =>
  match x with
  | .ok a => .ok a s
  | .error e => .error e s

theorem lift_ok {x : Except ε α} {s t : σ} {a : α} :
    (lift x : EStateM ε σ α) s = .ok a t ↔ x = .ok a ∧ s = t := by
  cases x <;> simp [lift]

theorem lift_error {x : Except ε α} {s t : σ} {e : ε} :
    (lift x : EStateM ε σ α) s = .error e t ↔ x = .error e ∧ s = t := by
  cases x <;> simp [lift]

/-- A test before the rest of a stateful computation. -/
theorem lift_check_bind (c : Bool) (e : ε) (f : Unit → EStateM ε σ α) (s : σ) :
    (lift (check c e) >>= f) s = if c then f () s else .error e s := by
  cases c <;> rfl

theorem lift_ok_bind (a : α) (f : α → EStateM ε σ β) (s : σ) :
    (lift (.ok a) >>= f) s = f a s := rfl

theorem modify_bind (g : σ → σ) (f : Unit → EStateM ε σ α) (s : σ) :
    (modify g >>= f) s = f () (g s) := rfl

theorem lift_leaves (x : Except ε α) (s : σ) : leaves (lift x) s = s := by
  cases x <;> rfl

/-- `Keeps R x`: wherever `x` stops, the state it leaves is related to the one it started in. -/
def Keeps (R : σ → σ → Prop) (x : EStateM ε σ α) : Prop := ∀ s, R s (leaves x s)

theorem Keeps.ok {R : σ → σ → Prop} {x : EStateM ε σ α} (h : Keeps R x) {s t : σ} {a : α}
    (hx : x s = .ok a t) : R s t :=
  leaves_ok hx ▸ h s

theorem Keeps.error {R : σ → σ → Prop} {x : EStateM ε σ α} (h : Keeps R x) {s t : σ} {e : ε}
    (hx : x s = .error e t) : R s t :=
  leaves_error hx ▸ h s

section Relation

variable {R : σ → σ → Prop} (hrefl : ∀ s, R s s) (htrans : ∀ s t r, R s t → R t r → R s r)
include htrans

/-- Sequencing keeps a transitive relation that both parts keep. -/
theorem Keeps.bind {x : EStateM ε σ α} {f : α → EStateM ε σ β} (hx : Keeps R x)
    (hf : ∀ a, Keeps R (f a)) : Keeps R (x >>= f) := by
  intro s
  have hxs := hx s
  unfold leaves at hxs ⊢
  cases h : x s with
  | ok a t =>
    have hft := hf a t
    unfold leaves at hft
    simp only [h] at hxs
    simpa [Bind.bind, EStateM.bind, h] using htrans _ _ _ hxs hft
  | error e t =>
    simp only [h] at hxs
    simpa [Bind.bind, EStateM.bind, h] using hxs

include hrefl

/-- A loop keeps what its body keeps. -/
theorem Keeps.foldlM {f : β → α → EStateM ε σ β} (hf : ∀ b a, Keeps R (f b a)) (l : List α)
    (b : β) : Keeps R (l.foldlM f b) := by
  induction l generalizing b with
  | nil => exact fun s => hrefl s
  | cons a l ih =>
    rw [List.foldlM_cons]
    exact Keeps.bind htrans (hf b a) (fun b' => ih b')

theorem Keeps.forM {f : α → EStateM ε σ Unit} (hf : ∀ a, Keeps R (f a)) (l : List α) :
    Keeps R (l.forM f) := by
  induction l with
  | nil => exact fun s => hrefl s
  | cons a l ih => exact Keeps.bind htrans (hf a) (fun _ => ih)

end Relation

theorem Keeps.lift {R : σ → σ → Prop} (hrefl : ∀ s, R s s) (x : Except ε α) :
    Keeps R (Outcome.lift x : EStateM ε σ α) := by
  intro s
  rw [lift_leaves]
  exact hrefl s

/-- Changing the state by `g` keeps whatever relates every state to its image. -/
theorem Keeps.modify {R : σ → σ → Prop} {g : σ → σ} (h : ∀ s, R s (g s)) :
    Keeps R (modify g : EStateM ε σ Unit) :=
  fun s => h s

end Outcome
