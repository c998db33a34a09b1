import Mathlib.Algebra.BigOperators.Group.List.Basic
import Mathlib.Algebra.Order.BigOperators.Group.List
import Mathlib.Algebra.Order.Ring.Int
import Triangles.Lib.Outcome

/-! A loop seen through its states: the abstract run of a fold, and how a checked loop
refines it. -/

namespace Trace

open Outcome

def trace (g : γ → α → γ) : γ → List α → List (γ × α)
  | _, [] => []
  | c, a :: l => (c, a) :: trace g (g c a) l

@[simp] theorem trace_nil (g : γ → α → γ) (c : γ) : trace g c [] = [] := rfl

@[simp] theorem trace_cons (g : γ → α → γ) (c : γ) (a : α) (l : List α) :
    trace g c (a :: l) = (c, a) :: trace g (g c a) l := rfl

theorem trace_append (g : γ → α → γ) (c : γ) (l m : List α) :
    trace g c (l ++ m) = trace g c l ++ trace g (l.foldl g c) m := by
  induction l generalizing c with
  | nil => rfl
  | cons a l ih => simp [ih]

@[simp] theorem trace_items (g : γ → α → γ) (c : γ) (l : List α) :
    (trace g c l).map Prod.snd = l := by
  induction l generalizing c with
  | nil => rfl
  | cons a l ih => simp [ih]

theorem trace_map (g : γ → α → γ) (k : δ → α) (c : γ) (m : List δ) :
    trace g c (m.map k) = (trace (fun c a => g c (k a)) c m).map fun x => (x.1, k x.2) := by
  induction m generalizing c with
  | nil => rfl
  | cons a m ih => simp [ih]

def total [AddMonoid M] (g : γ → α → γ) (d : γ → α → M) (c : γ) (l : List α) : M :=
  ((trace g c l).map fun x => d x.1 x.2).sum

@[simp] theorem total_nil [AddMonoid M] (g : γ → α → γ) (d : γ → α → M) (c : γ) :
    total g d c [] = 0 := rfl

@[simp] theorem total_cons [AddMonoid M] (g : γ → α → γ) (d : γ → α → M) (c : γ) (a : α)
    (l : List α) : total g d c (a :: l) = d c a + total g d (g c a) l := by
  simp [total]

theorem total_congr [AddMonoid M] {g : γ → α → γ} {d e : γ → α → M} {c : γ} {l : List α}
    (h : ∀ x ∈ trace g c l, d x.1 x.2 = e x.1 x.2) : total g d c l = total g e c l := by
  unfold total
  rw [List.map_congr_left h]

theorem total_zero [AddMonoid M] {g : γ → α → γ} {d : γ → α → M} {c : γ} {l : List α}
    (h : ∀ x ∈ trace g c l, d x.1 x.2 = 0) : total g d c l = 0 := by
  apply List.sum_eq_zero
  intro m hm
  obtain ⟨x, hx, rfl⟩ := List.mem_map.mp hm
  exact h x hx

theorem total_nonpos {g : γ → α → γ} {d : γ → α → Int} {c : γ} {l : List α}
    (h : ∀ x ∈ trace g c l, d x.1 x.2 ≤ 0) : total g d c l ≤ 0 := by
  induction l generalizing c with
  | nil => exact le_refl 0
  | cons a l ih =>
    rw [trace_cons, List.forall_mem_cons] at h
    rw [total_cons]
    exact add_nonpos h.1 (ih h.2)

theorem total_add [AddCommMonoid M] (g : γ → α → γ) (d e : γ → α → M) (c : γ) (l : List α) :
    total g (fun c a => d c a + e c a) c l = total g d c l + total g e c l := by
  induction l generalizing c with
  | nil => simp
  | cons a l ih => simp [ih, add_add_add_comm]

/-- An amount that only depends on the item. -/
theorem total_items [AddMonoid M] (g : γ → α → γ) (d : α → M) (c : γ) (l : List α) :
    total g (fun _ a => d a) c l = (l.map d).sum := by
  induction l generalizing c with
  | nil => rfl
  | cons a l ih => simp [ih]

theorem total_concat [AddMonoid M] (g : γ → α → γ) (d : γ → α → M) (c : γ) (l : List α) (a : α) :
    total g d c (l ++ [a]) = total g d c l + d (l.foldl g c) a := by
  simp [total, trace_append]

/-- A fold that leaves its state alone. -/
theorem trace_const (c : γ) (l : List α) : trace (fun c _ => c) c l = l.map (Prod.mk c) := by
  induction l with
  | nil => rfl
  | cons a l ih => simp [ih]

theorem mem_of_trace {g : γ → α → γ} {c : γ} {l : List α} {x : γ × α} (hx : x ∈ trace g c l) :
    x.2 ∈ l := by
  rw [← trace_items g c l]
  exact List.mem_map_of_mem hx

/-- Where a step keeps `I` under `P`, a run whose items meet states with `P` has `I` in every state
it reaches. -/
theorem prefixes_of_trace {g : γ → α → γ} {I : γ → Prop} {P : γ → α → Prop}
    (step : ∀ c a, I c → P c a → I (g c a)) {l : List α} {c : γ} (hi : I c)
    (h : ∀ x ∈ trace g c l, P x.1 x.2) : ∀ p, p <+: l → I (p.foldl g c) := by
  induction l generalizing c with
  | nil =>
    intro p hp
    rw [List.prefix_nil.mp hp]
    exact hi
  | cons a l ih =>
    rw [trace_cons, List.forall_mem_cons] at h
    intro p hp
    cases p with
    | nil => exact hi
    | cons b p =>
      obtain ⟨rfl, hp'⟩ := List.cons_prefix_cons.mp hp
      exact ih (step c b hi h.1) h.2 p hp'

/-- Where a step keeps `I` exactly under `P`, a run has `I` in every state it reaches exactly
when each item meets a state with `P`. `K` is what every step keeps. -/
theorem prefixes_iff {g : γ → α → γ} {I K : γ → Prop} {P : γ → α → Prop}
    (step : ∀ c a, I c → K c → (I (g c a) ↔ P c a)) (keep : ∀ c a, K c → K (g c a))
    {l : List α} {c : γ} (hi : I c) (hk : K c) :
    (∀ p, p <+: l → I (p.foldl g c)) ↔ ∀ x ∈ trace g c l, P x.1 x.2 := by
  induction l generalizing c with
  | nil =>
    simp only [List.prefix_nil, forall_eq, List.foldl_nil, trace_nil, List.not_mem_nil,
      false_implies, implies_true, iff_true]
    exact hi
  | cons a l ih =>
    rw [trace_cons, List.forall_mem_cons, ← step c a hi hk]
    constructor
    · intro h
      have ha := h [a] (List.prefix_append [a] l)
      refine ⟨ha, (ih ha (keep c a hk)).mp ?_⟩
      intro p hp
      exact h (a :: p) (List.cons_prefix_cons.mpr ⟨rfl, hp⟩)
    · rintro ⟨ha, h⟩ p hp
      cases p with
      | nil => exact hi
      | cons b p =>
        obtain ⟨rfl, hp'⟩ := List.cons_prefix_cons.mp hp
        exact (ih ha (keep c b hk)).mpr h p hp'

/-- A checked loop that adds a value for each item ends at the sum of the values. -/
theorem foldlM_sum_mem [AddMonoid M] {f : M → α → Except ε M} {value : α → M} {l : List α}
    (step : ∀ a, ∀ x ∈ l, ∀ b, f a x = .ok b → b = a + value x) {a b : M}
    (h : l.foldlM f a = .ok b) : b = a + (l.map value).sum := by
  induction l generalizing a with
  | nil =>
    simp only [List.foldlM_nil, pure_ok] at h
    simp [h]
  | cons x l ih =>
    simp only [List.foldlM_cons, bind_ok] at h
    obtain ⟨c, hc, hl⟩ := h
    rw [ih (fun a y hy => step a y (List.mem_cons_of_mem x hy)) hl,
      step a x List.mem_cons_self c hc, List.map_cons, List.sum_cons, add_assoc]

theorem foldlM_sum [AddMonoid M] {f : M → α → Except ε M} {value : α → M}
    (step : ∀ a x b, f a x = .ok b → b = a + value x) {l : List α} {a b : M}
    (h : l.foldlM f a = .ok b) : b = a + (l.map value).sum :=
  foldlM_sum_mem (fun a x _ => step a x) h

/-- A checked loop adds up what its rounds add to a quantity, and each of them has shown `P`. -/
theorem foldlM_measured [AddMonoid M] {f : β → α → Except ε β} {q : β → M} {value : α → M}
    {P : α → Prop} {l : List α}
    (step : ∀ b a b', f b a = .ok b' → q b' = q b + value a ∧ P a) {b b' : β}
    (h : l.foldlM f b = .ok b') : q b' = q b + (l.map value).sum ∧ ∀ a ∈ l, P a := by
  induction l generalizing b with
  | nil =>
    simp only [List.foldlM_nil, pure_ok] at h
    subst h
    exact ⟨by simp, fun a ha => by cases ha⟩
  | cons a l ih =>
    simp only [List.foldlM_cons, bind_ok] at h
    obtain ⟨c, hc, h⟩ := h
    obtain ⟨hq, hP⟩ := step b a c hc
    obtain ⟨hsum, hall⟩ := ih h
    refine ⟨by rw [hsum, hq, List.map_cons, List.sum_cons, add_assoc], fun a' ha' => ?_⟩
    rcases List.mem_cons.mp ha' with rfl | ha'
    · exact hP
    · exact hall a' ha'

/-- A checked loop whose rounds each add a value adds up the values. -/
theorem foldlM_adds [AddMonoid M] {f : M → α → Except ε M} {value : α → M} {l : List α}
    (step : ∀ a, ∀ x ∈ l, f a x = .ok (a + value x)) (a : M) :
    l.foldlM f a = .ok (a + (l.map value).sum) := by
  induction l generalizing a with
  | nil => simp [List.foldlM_nil, pure, Except.pure]
  | cons x l ih =>
    rw [List.foldlM_cons, step a x List.mem_cons_self]
    change l.foldlM f (a + value x) = _
    rw [ih fun a y hy => step a y (List.mem_cons_of_mem x hy), List.map_cons, List.sum_cons, add_assoc]

/-- So does a loop that refuses sums over a bound, as long as the whole sum is not over it. -/
theorem foldlM_adds_within {f : Int → α → Except ε Int} {value : α → Int} {bound : Int} {l : List α}
    (step : ∀ a, ∀ x ∈ l, 0 ≤ a → a + value x ≤ bound → f a x = .ok (a + value x))
    (hl : ∀ x ∈ l, 0 ≤ value x) {a : Int} (ha : 0 ≤ a) (hsum : a + (l.map value).sum ≤ bound) :
    l.foldlM f a = .ok (a + (l.map value).sum) := by
  induction l generalizing a with
  | nil => simp [List.foldlM_nil, pure, Except.pure]
  | cons x l ih =>
    have hrest : ∀ y ∈ l, 0 ≤ value y := fun y hy => hl y (List.mem_cons_of_mem x hy)
    have hx := hl x List.mem_cons_self
    have hnonneg : 0 ≤ (l.map value).sum := by
      refine List.sum_nonneg fun v hv => ?_
      obtain ⟨y, hy, rfl⟩ := List.mem_map.mp hv
      exact hrest y hy
    rw [List.map_cons, List.sum_cons] at hsum ⊢
    rw [List.foldlM_cons, step a x List.mem_cons_self ha (by omega)]
    change l.foldlM f (a + value x) = _
    rw [ih (fun a y hy => step a y (List.mem_cons_of_mem x hy)) hrest (by omega) (by omega), add_assoc]

section Refines

variable {f : β → α → Except ε β} {g : γ → α → γ} {A : β → γ} {I : β → Prop}
  {P : γ → α → Prop}

/-- A checked loop whose rounds follow `g` through `A` follows the whole run, and every
item passed its checks at the state it met. -/
theorem foldlM_refines
    (step : ∀ b a b', f b a = .ok b' → I b → I b' ∧ A b' = g (A b) a ∧ P (A b) a)
    {l : List α} {b b' : β} (h : l.foldlM f b = .ok b') (hb : I b) :
    I b' ∧ A b' = l.foldl g (A b) ∧ ∀ x ∈ trace g (A b) l, P x.1 x.2 := by
  induction l generalizing b with
  | nil =>
    simp only [List.foldlM_nil, pure_ok] at h
    subst h
    simp [hb]
  | cons a l ih =>
    simp only [List.foldlM_cons, bind_ok] at h
    obtain ⟨c, hc, hl⟩ := h
    obtain ⟨hi, ha, hp⟩ := step b a c hc hb
    obtain ⟨hi', ha', hp'⟩ := ih hl hi
    rw [ha] at ha' hp'
    refine ⟨hi', ha', ?_⟩
    intro x hx
    rcases List.mem_cons.mp hx with rfl | hx
    · exact hp
    · exact hp' x hx

/-- A counter that each round raises by an amount of the state it meets ends at the total. -/
theorem foldlM_total [AddMonoid M] {q : β → M} {d : γ → α → M}
    (step : ∀ b a b', f b a = .ok b' → I b →
      I b' ∧ A b' = g (A b) a ∧ q b' = q b + d (A b) a)
    {l : List α} {b b' : β} (h : l.foldlM f b = .ok b') (hb : I b) :
    q b' = q b + total g d (A b) l := by
  induction l generalizing b with
  | nil =>
    simp only [List.foldlM_nil, pure_ok] at h
    simp [h]
  | cons a l ih =>
    simp only [List.foldlM_cons, bind_ok] at h
    obtain ⟨c, hc, hl⟩ := h
    obtain ⟨hi, ha, hq⟩ := step b a c hc hb
    rw [ih hl hi, hq, ha, total_cons, add_assoc]

/-- Two checked loops whose rounds differ by a further check of the state met differ by
that check of the whole run. -/
theorem foldlM_guarded {f' : β → α → Except ε β}
    (guard : ∀ b a b', I b → (f b a = .ok b' ↔ f' b a = .ok b' ∧ P (A b) a))
    (step : ∀ b a b', f' b a = .ok b' → I b → I b' ∧ A b' = g (A b) a)
    {l : List α} {b b' : β} (hb : I b) :
    l.foldlM f b = .ok b' ↔ l.foldlM f' b = .ok b' ∧ ∀ x ∈ trace g (A b) l, P x.1 x.2 := by
  induction l generalizing b with
  | nil => simp
  | cons a l ih =>
    simp only [List.foldlM_cons, bind_ok, trace_cons, List.forall_mem_cons]
    constructor
    · intro h
      obtain ⟨c, hc, hl⟩ := h
      obtain ⟨hc, hp⟩ := (guard b a c hb).mp hc
      obtain ⟨hi, ha⟩ := step b a c hc hb
      obtain ⟨hl, hps⟩ := (ih hi).mp hl
      rw [ha] at hps
      exact ⟨⟨c, hc, hl⟩, hp, hps⟩
    · intro h
      obtain ⟨⟨c, hc, hl⟩, hp, hps⟩ := h
      obtain ⟨hi, ha⟩ := step b a c hc hb
      rw [← ha] at hps
      exact ⟨c, (guard b a c hb).mpr ⟨hc, hp⟩, (ih hi).mpr ⟨hl, hps⟩⟩

end Refines

end Trace
