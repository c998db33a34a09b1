import Mathlib.Data.List.Induction
import Mathlib.Logic.Function.Basic
import Mathlib.Tactic.Common

/-! A key-value database with at most one pending write batch. -/

namespace Batch

variable {K : Type} [DecidableEq K] {V : K → Type}

abbrev Store (V : K → Type) := (k : K) → Option (V k)

inductive Op (V : K → Type) where
  | put (k : K) (v : V k)
  | delete (k : K)

def Op.apply (s : Store V) : Op V → Store V
  | .put k v => Function.update s k (some v)
  | .delete k => Function.update s k none

def Op.binds (k : K) : Op V → Option (Option (V k))
  | .put k' v => if h : k' = k then some (some (h ▸ v)) else none
  | .delete k' => if k' = k then some none else none

def scan (k : K) (ops : List (Op V)) : Option (Option (V k)) :=
  ops.foldl (fun found op => (op.binds k).or found) none

def applyAll (s : Store V) (ops : List (Op V)) : Store V := ops.foldl Op.apply s

theorem apply_binds (s : Store V) (op : Op V) (k : K) : op.apply s k = (op.binds k).getD (s k) := by
  cases op with
  | put k' v =>
    by_cases h : k' = k
    · subst h
      simp [Op.apply, Op.binds]
    · simp [Op.apply, Op.binds, h, Function.update_of_ne (Ne.symm h)]
  | delete k' =>
    by_cases h : k' = k
    · subst h
      simp [Op.apply, Op.binds]
    · simp [Op.apply, Op.binds, h, Function.update_of_ne (Ne.symm h)]

/-- Reading through the scan agrees with reading after the write. -/
theorem scan_applyAll (s : Store V) (ops : List (Op V)) (k : K) :
    (scan k ops).getD (s k) = applyAll s ops k := by
  suffices h : ∀ (found : Option (Option (V k))) (t : Store V), found.getD (s k) = t k →
      (ops.foldl (fun found op => (op.binds k).or found) found).getD (s k) =
        (ops.foldl Op.apply t) k from h none s rfl
  induction ops with
  | nil => intro found t h; exact h
  | cons op ops ih =>
    intro found t h
    apply ih
    rw [apply_binds, ← h]
    cases hop : op.binds k <;> simp [hop]

def lastBinding (k : K) (ops : List (Op V)) : Option (Option (V k)) :=
  (ops.filterMap (Op.binds k)).getLast?

theorem scan_eq_lastBinding (k : K) (ops : List (Op V)) : scan k ops = lastBinding k ops := by
  induction ops using List.reverseRecOn with
  | nil => rfl
  | append_singleton ops op ih =>
    unfold scan lastBinding at ih ⊢
    rw [List.foldl_append, ih, List.filterMap_append, List.getLast?_append]
    simp only [List.foldl_cons, List.foldl_nil]
    cases hop : op.binds k <;> simp [hop]

structure Db (V : K → Type) where
  committed : Store V
  batch : Option (List (Op V))

namespace Db

def read (d : Db V) (k : K) : Option (V k) :=
  match d.batch with
  | none => d.committed k
  | some ops =>
    match scan k ops with
    | some found => found
    | none => d.committed k

def change (d : Db V) (op : Op V) : Db V :=
  match d.batch with
  | none => { d with committed := op.apply d.committed }
  | some ops => { d with batch := some (ops ++ [op]) }

def write (d : Db V) (k : K) (v : V k) : Db V := d.change (.put k v)

def erase (d : Db V) (k : K) : Db V := d.change (.delete k)

def start (d : Db V) : Db V := { d with batch := some [] }

def commit (d : Db V) : Db V :=
  { committed := applyAll d.committed (d.batch.getD []), batch := none }

def abort (d : Db V) : Db V := { d with batch := none }

def view (d : Db V) : Store V := applyAll d.committed (d.batch.getD [])

theorem read_eq_view (d : Db V) (k : K) : d.read k = d.view k := by
  unfold read view
  cases d.batch with
  | none => rfl
  | some ops =>
    simp only [Option.getD_some, ← scan_applyAll]
    cases scan k ops <;> rfl

theorem view_change (d : Db V) (op : Op V) : (d.change op).view = op.apply d.view := by
  unfold change view
  cases d.batch with
  | none => rfl
  | some ops => simp [applyAll]

@[simp] theorem view_write (d : Db V) (k : K) (v : V k) :
    (d.write k v).view = Function.update d.view k (some v) :=
  d.view_change (.put k v)

@[simp] theorem view_erase (d : Db V) (k : K) :
    (d.erase k).view = Function.update d.view k none :=
  d.view_change (.delete k)

@[simp] theorem view_start (d : Db V) : d.start.view = d.committed := rfl

@[simp] theorem view_commit (d : Db V) : d.commit.view = d.view := rfl

@[simp] theorem committed_commit (d : Db V) : d.commit.committed = d.view := rfl

@[simp] theorem view_abort (d : Db V) : d.abort.view = d.committed := rfl

omit [DecidableEq K] in
@[simp] theorem committed_start (d : Db V) : d.start.committed = d.committed := rfl

omit [DecidableEq K] in
@[simp] theorem committed_abort (d : Db V) : d.abort.committed = d.committed := rfl

omit [DecidableEq K] in
@[simp] theorem batch_start (d : Db V) : d.start.batch = some [] := rfl

omit [DecidableEq K] in
@[simp] theorem batch_abort (d : Db V) : d.abort.batch = none := rfl

@[simp] theorem batch_commit (d : Db V) : d.commit.batch = none := rfl

/-- Changes made after a batch was started are queued in order. -/
theorem foldl_change_start (ops : List (Op V)) (d : Db V) :
    ops.foldl change d.start = { d with batch := some ops } := by
  induction ops using List.reverseRecOn with
  | nil => rfl
  | append_singleton ops op ih =>
    rw [List.foldl_append, ih]
    rfl

/-- While a batch is in progress a change is only queued. -/
theorem change_pending {d : Db V} {op : Op V} (h : d.batch.isSome) :
    (d.change op).committed = d.committed ∧ (d.change op).batch.isSome := by
  obtain ⟨ops, hops⟩ := Option.isSome_iff_exists.mp h
  simp [change, hops]

theorem write_pending {d : Db V} {k : K} {v : V k} (h : d.batch.isSome) :
    (d.write k v).committed = d.committed ∧ (d.write k v).batch.isSome :=
  change_pending h

theorem erase_pending {d : Db V} {k : K} (h : d.batch.isSome) :
    (d.erase k).committed = d.committed ∧ (d.erase k).batch.isSome :=
  change_pending h

end Db

end Batch
