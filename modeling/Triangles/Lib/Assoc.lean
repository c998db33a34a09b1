import Mathlib.Data.Finset.Basic
import Mathlib.Data.List.AList
import Mathlib.Data.List.TakeWhile
import Mathlib.Data.List.Pairwise
import Mathlib.Tactic.Common

/-! Loops that write to or erase from an association list or a set. -/

namespace Assoc

variable {α : Type} [DecidableEq α]

theorem lookup_erase_eq {β : α → Type} (m : AList β) (k a : α) :
    (m.erase k).lookup a = if a = k then none else m.lookup a := by
  by_cases h : a = k
  · rw [if_pos h, h, AList.lookup_erase]
  · rw [if_neg h, AList.lookup_erase_ne h]

/-- Erasing the keys of a list, one after the other. -/
theorem lookup_foldl_erase {β : α → Type} (key : γ → α) (l : List γ) (m : AList β) (a : α) :
    (l.foldl (fun m c => m.erase (key c)) m).lookup a =
      if a ∈ l.map key then none else m.lookup a := by
  induction l generalizing m with
  | nil => rfl
  | cons c l ih =>
    rw [List.foldl_cons, ih, lookup_erase_eq, List.map_cons]
    by_cases hl : a ∈ l.map key
    · rw [if_pos hl, if_pos (List.mem_cons_of_mem _ hl)]
    · by_cases hc : a = key c
      · simp [hc]
      · rw [if_neg hl, if_neg hc, if_neg (by simp [hc, hl])]

/-- Erasing the images of a list from a set, one after the other. -/
theorem mem_foldl_erase (f : γ → α) (l : List γ) (s : Finset α) (a : α) :
    a ∈ l.foldl (fun s c => s.erase (f c)) s ↔ a ∈ s ∧ a ∉ l.map f := by
  induction l generalizing s with
  | nil => simp
  | cons c l ih =>
    rw [List.foldl_cons, ih, Finset.mem_erase, List.map_cons, List.mem_cons, not_or]
    tauto

variable {β : Type}

theorem lookup_insert_eq (m : AList (fun _ : α => β)) (k a : α) (b : β) :
    (m.insert k b).lookup a = if a = k then some b else m.lookup a := by
  by_cases h : a = k
  · rw [if_pos h, h, AList.lookup_insert]
  · rw [if_neg h, AList.lookup_insert_ne h]

/-- Writing under distinct keys, one after the other. -/
theorem lookup_foldl_insert (key : γ → α) (val : γ → β) (l : List γ)
    (hl : (l.map key).Nodup) (m : AList (fun _ : α => β)) (a : α) (b : β) :
    (l.foldl (fun m c => m.insert (key c) (val c)) m).lookup a = some b ↔
      (∃ c ∈ l, key c = a ∧ val c = b) ∨ a ∉ l.map key ∧ m.lookup a = some b := by
  induction l generalizing m with
  | nil => simp
  | cons c l ih =>
    rw [List.map_cons, List.nodup_cons] at hl
    rw [List.foldl_cons, ih hl.2, lookup_insert_eq, List.map_cons]
    constructor
    · rintro (⟨d, hd, hkey, hval⟩ | ⟨hnot, h⟩)
      · exact .inl ⟨d, List.mem_cons_of_mem _ hd, hkey, hval⟩
      · split at h
        · rename_i ha
          exact .inl ⟨c, List.mem_cons_self, ha.symm, Option.some.inj h⟩
        · rename_i ha
          exact .inr ⟨by simp [ha, hnot], h⟩
    · rintro (⟨d, hd, hkey, hval⟩ | ⟨hnot, h⟩)
      · rcases List.mem_cons.mp hd with rfl | hd
        · rw [← hkey]
          exact .inr ⟨hl.1, by simp [hval]⟩
        · exact .inl ⟨d, hd, hkey, hval⟩
      · rw [List.mem_cons, not_or] at hnot
        exact .inr ⟨hnot.2, by rw [if_neg hnot.1]; exact h⟩

end Assoc

/-! Keys in the order of their items, and a cursor that starts at a key and runs as long as the keys
have a prefix. -/

namespace KeyOrder

section Order

theorem compare_cons {α : Type} [Ord α] (x y : α) (a b : List α) :
    compare (x :: a) (y :: b) = (compare x y).then (compare a b) :=
  List.compareLex_cons_cons

/-- Nothing of at least the length is less than the least item over and over. -/
theorem not_lt_replicate {α : Type} [Ord α] {least : α} (h : ∀ c : α, compare c least ≠ .lt) :
    ∀ {n : Nat} {x : List α}, n ≤ x.length → compare x (List.replicate n least) ≠ .lt
  | 0, [], _ => fun h => by cases h
  | 0, _ :: _, _ => fun h => by cases h
  | n + 1, c :: x, hlen => by
    rw [List.replicate_succ, compare_cons]
    cases hc : compare c least with
    | lt => exact absurd hc (h c)
    | eq => exact not_lt_replicate h (Nat.le_of_succ_le_succ hlen)
    | gt => exact fun h => by cases h

variable {α : Type} [Ord α] [Std.LawfulEqOrd α]

theorem compare_append_left (p a b : List α) : compare (p ++ a) (p ++ b) = compare a b := by
  induction p with
  | nil => rfl
  | cons x p ih =>
    rw [List.cons_append, List.cons_append, compare_cons, Std.ReflOrd.compare_self, ih]
    rfl

/-- A key between two keys with a prefix has the prefix. -/
theorem prefix_of_between : ∀ {p k a b : List α}, compare k (p ++ a) ≠ .lt →
    compare k (p ++ b) = .lt → ∃ x, k = p ++ x
  | [], k, _, _, _, _ => ⟨k, rfl⟩
  | c :: p, [], _, _, hge, _ => absurd rfl hge
  | c :: p, d :: k, a, b, hge, hlt => by
    rw [List.cons_append, compare_cons] at hge hlt
    cases hdc : compare d c with
    | lt => rw [hdc] at hge; exact absurd rfl hge
    | gt => rw [hdc] at hlt; cases hlt
    | eq =>
      obtain rfl := Std.LawfulEqOrd.eq_of_compare hdc
      rw [Std.ReflOrd.compare_self] at hge hlt
      obtain ⟨x, rfl⟩ := prefix_of_between hge hlt
      exact ⟨x, rfl⟩

end Order

section Scan

variable {α : Type} {l : List α} {below wanted : α → Bool}

/-- From a place that nothing is below on, what is wanted comes first, when nothing stands between
a place and a wanted one. -/
theorem filter_first (hl : l.Pairwise fun a b => wanted b = true → wanted a = true) :
    ∃ rest, l = l.filter wanted ++ rest ∧ ∀ a ∈ rest.head?, wanted a = false := by
  induction l with
  | nil => exact ⟨[], rfl, fun a ha => by cases ha⟩
  | cons a l ih =>
    obtain ⟨ha, hl⟩ := List.pairwise_cons.mp hl
    cases hwanted : wanted a with
    | true =>
      obtain ⟨rest, hrest, hhead⟩ := ih hl
      refine ⟨rest, ?_, hhead⟩
      rw [List.filter_cons_of_pos hwanted, List.cons_append, ← hrest]
    | false =>
      have hnone : (a :: l).filter wanted = [] := by
        rw [List.filter_eq_nil_iff]
        intro b hb
        rcases List.mem_cons.mp hb with rfl | hb
        · rw [hwanted]
          exact Bool.false_ne_true
        · intro hb'
          rw [ha b hb hb'] at hwanted
          cases hwanted
      refine ⟨a :: l, by rw [hnone, List.nil_append], fun b hb => ?_⟩
      obtain rfl := Option.some.inj hb
      exact hwanted

/-- A cursor that starts where nothing is below any more meets first what is wanted. -/
theorem dropWhile_first (hbelow : ∀ a ∈ l, wanted a = true → below a = false)
    (hdown : l.Pairwise fun a b => below b = true → below a = true)
    (hbetween : l.Pairwise fun a b => below a = false → wanted b = true → wanted a = true) :
    ∃ rest, l.dropWhile below = l.filter wanted ++ rest ∧ ∀ a ∈ rest.head?, wanted a = false := by
  induction l with
  | nil => exact ⟨[], rfl, fun a ha => by cases ha⟩
  | cons a l ih =>
    cases ha : below a with
    | true =>
      have hnot : ¬ wanted a = true := fun hwanted => by
        rw [hbelow a List.mem_cons_self hwanted] at ha
        cases ha
      obtain ⟨rest, hrest, hhead⟩ := ih (fun b hb => hbelow b (List.mem_cons_of_mem a hb))
        (List.pairwise_cons.mp hdown).2 (List.pairwise_cons.mp hbetween).2
      exact ⟨rest, by rw [List.dropWhile_cons_of_pos ha, List.filter_cons_of_neg hnot, hrest], hhead⟩
    | false =>
      have hnone : ∀ b ∈ a :: l, below b = false := by
        intro b hb
        rcases List.mem_cons.mp hb with rfl | hb
        · exact ha
        · cases hb' : below b with
          | false => rfl
          | true =>
            rw [(List.pairwise_cons.mp hdown).1 b hb hb'] at ha
            cases ha
      rw [List.dropWhile_cons_of_neg (by rw [ha]; exact Bool.false_ne_true)]
      exact filter_first (hbetween.imp_of_mem fun {b c} hb _ h => h (hnone b hb))

end Scan

end KeyOrder
