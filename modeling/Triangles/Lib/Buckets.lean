import Mathlib.Data.Finset.Sort
import Triangles.Lib.Assoc

/-! A map from keys to sets that is filled and emptied one element at a time, with the
two spellings of a key that holds nothing: no entry, and an entry with the empty set. -/

abbrev Buckets (α β : Type) := AList (fun _ : α => Finset β)

namespace Buckets

variable {α β γ : Type} [DecidableEq α]

def bucket (m : Buckets α β) (a : α) : Finset β := (m.lookup a).getD ∅

def Hollow (m : Buckets α β) (a : α) : Prop := m.lookup a = some ∅

def touch (m : Buckets α β) (a : α) : Buckets α β := if a ∈ m then m else m.insert a ∅

theorem mem_iff (m : Buckets α β) (a : α) : a ∈ m ↔ Hollow m a ∨ (bucket m a).Nonempty := by
  unfold Hollow bucket
  rw [← AList.lookup_isSome]
  cases m.lookup a with
  | none => simp
  | some b => simpa using (Finset.eq_empty_or_nonempty b)

@[simp] theorem bucket_touch (m : Buckets α β) (a c : α) : bucket (touch m a) c = bucket m c := by
  unfold touch
  split
  · rfl
  · rename_i ha
    rw [bucket, bucket, Assoc.lookup_insert_eq]
    split
    · rename_i hc
      rw [hc, AList.lookup_eq_none.mpr ha]
      rfl
    · rfl

/-- Reading leaves a hollow entry when nothing is there. -/
theorem hollow_touch (m : Buckets α β) (a c : α) :
    Hollow (touch m a) c ↔ Hollow m c ∨ c = a ∧ bucket m a = ∅ := by
  unfold touch
  split
  · rename_i ha
    constructor
    · exact .inl
    · rintro (h | ⟨rfl, h⟩)
      · exact h
      · rcases (mem_iff m c).mp ha with hh | hn
        · exact hh
        · exact absurd h hn.ne_empty
  · rename_i ha
    rw [Hollow, Assoc.lookup_insert_eq]
    split
    · rename_i hc
      have hnone : m.lookup a = none := AList.lookup_eq_none.mpr ha
      simp [hc, bucket, hnone]
    · rename_i hc
      simp [Hollow, hc]

variable [DecidableEq β]

def put (m : Buckets α β) (a : α) (b : β) : Buckets α β := m.insert a (insert b (bucket m a))

/-- Take an element away from under a key, and the entry with it when nothing is left. -/
def take (m : Buckets α β) (a : α) (b : β) : Buckets α β :=
  if (bucket m a).erase b = ∅ then m.erase a else m.insert a ((bucket m a).erase b)

theorem bucket_put (m : Buckets α β) (a c : α) (b : β) :
    bucket (put m a b) c = if c = a then insert b (bucket m c) else bucket m c := by
  rw [bucket, put, Assoc.lookup_insert_eq]
  split
  · rename_i hc
    rw [hc, Option.getD_some]
  · rfl

theorem hollow_put (m : Buckets α β) (a c : α) (b : β) :
    Hollow (put m a b) c ↔ c ≠ a ∧ Hollow m c := by
  rw [Hollow, put, Assoc.lookup_insert_eq]
  split
  · rename_i hc
    simp [hc, Finset.insert_ne_empty]
  · rename_i hc
    simp [hc, Hollow]

theorem bucket_take (m : Buckets α β) (a c : α) (b : β) :
    bucket (take m a b) c = if c = a then (bucket m c).erase b else bucket m c := by
  unfold take
  split
  · rename_i he
    rw [bucket, Assoc.lookup_erase_eq]
    split
    · rename_i hc
      rw [hc, he, Option.getD_none]
    · rfl
  · rw [bucket, Assoc.lookup_insert_eq]
    split
    · rename_i hc
      rw [hc, Option.getD_some]
    · rfl

theorem hollow_take (m : Buckets α β) (a c : α) (b : β) :
    Hollow (take m a b) c ↔ c ≠ a ∧ Hollow m c := by
  unfold take
  split
  · rw [Hollow, Assoc.lookup_erase_eq]
    split
    · rename_i hc
      simp [hc]
    · rename_i hc
      simp [hc, Hollow]
  · rename_i he
    rw [Hollow, Assoc.lookup_insert_eq]
    split
    · rename_i hc
      simp [hc, he]
    · rename_i hc
      simp [hc, Hollow]

/-- Adding one element under each key of a list. -/
theorem mem_bucket_putAll (key : γ → α) (b x : β) (l : List γ) (m : Buckets α β) (a : α) :
    x ∈ bucket (l.foldl (fun m c => put m (key c) b) m) a ↔
      x ∈ bucket m a ∨ x = b ∧ a ∈ l.map key := by
  induction l generalizing m with
  | nil => simp
  | cons c l ih =>
    rw [List.foldl_cons, ih, bucket_put, List.map_cons, List.mem_cons]
    by_cases ha : a = key c
    · rw [if_pos ha, Finset.mem_insert]
      tauto
    · rw [if_neg ha]
      tauto

theorem hollow_putAll (key : γ → α) (b : β) (l : List γ) (m : Buckets α β) (a : α) :
    Hollow (l.foldl (fun m c => put m (key c) b) m) a ↔ a ∉ l.map key ∧ Hollow m a := by
  induction l generalizing m with
  | nil => simp
  | cons c l ih =>
    rw [List.foldl_cons, ih, hollow_put, List.map_cons, List.mem_cons, not_or]
    tauto

/-- Taking one element away from under each key of a list. -/
theorem mem_bucket_takeAll (key : γ → α) (b x : β) (l : List γ) (m : Buckets α β) (a : α) :
    x ∈ bucket (l.foldl (fun m c => take m (key c) b) m) a ↔
      x ∈ bucket m a ∧ ¬ (x = b ∧ a ∈ l.map key) := by
  induction l generalizing m with
  | nil => simp
  | cons c l ih =>
    rw [List.foldl_cons, ih, bucket_take, List.map_cons, List.mem_cons]
    by_cases ha : a = key c
    · rw [if_pos ha, Finset.mem_erase]
      tauto
    · rw [if_neg ha]
      tauto

theorem hollow_takeAll (key : γ → α) (b : β) (l : List γ) (m : Buckets α β) (a : α) :
    Hollow (l.foldl (fun m c => take m (key c) b) m) a ↔ a ∉ l.map key ∧ Hollow m a := by
  induction l generalizing m with
  | nil => simp
  | cons c l ih =>
    rw [List.foldl_cons, ih, hollow_take, List.map_cons, List.mem_cons, not_or]
    tauto

end Buckets
