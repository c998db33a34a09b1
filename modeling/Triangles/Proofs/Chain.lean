import Triangles.Proofs.Frame

/-! Ancestry in the block tree: the way from one block to another through their fork, and the
`pnext` links along a chain. -/

namespace Triangles

open Outcome

namespace CBlockIndex

theorem self_mem_ancestors (p : CBlockIndex) : p ∈ p.ancestors := by
  cases p <;> simp [ancestors]

theorem mem_ancestors_height {a p : CBlockIndex} (h : a ∈ p.ancestors) :
    a.nHeight ≤ p.nHeight := by
  induction p with
  | genesis f => rw [List.mem_singleton.mp h]
  | child f p ih =>
    rcases List.mem_cons.mp h with rfl | h
    · exact le_rfl
    · exact (ih h).trans (Nat.le_succ _)

theorem ancestors_trans {a b p : CBlockIndex} (hb : b ∈ p.ancestors) (ha : a ∈ b.ancestors) :
    a ∈ p.ancestors := by
  induction p with
  | genesis f =>
    rw [List.mem_singleton.mp hb] at ha
    exact ha
  | child f p ih =>
    rcases List.mem_cons.mp hb with rfl | hb
    · exact ha
    · exact List.mem_cons_of_mem _ (ih hb)

theorem child_not_ancestor {f : BlockFields} {p : CBlockIndex} : child f p ∉ p.ancestors :=
  fun h => absurd (mem_ancestors_height h) (by simp [nHeight])

theorem mem_parent_ancestors {a p : CBlockIndex} {f : BlockFields} (h : a ∈ (child f p).ancestors)
    (hne : child f p ≠ a) : a ∈ p.ancestors := by
  rcases List.mem_cons.mp h with he | hm
  · exact absurd he.symm hne
  · exact hm

/-- A block whose parent is `p` lies above every ancestor of `p`. -/
theorem not_ancestor_of_pprev {n p : CBlockIndex} (h : n.pprev = some p) : n ∉ p.ancestors := by
  cases n with
  | genesis f => cases h
  | child f q =>
    cases h
    exact child_not_ancestor

theorem pprev_eq_some {pindex p : CBlockIndex} (h : pindex.pprev = some p) :
    ∃ fields, pindex = .child fields p := by
  cases pindex with
  | genesis f => cases h
  | child f q =>
    cases h
    exact ⟨f, rfl⟩

theorem mem_ancestors_of_pprev {pindex p : CBlockIndex} (h : pindex.pprev = some p) :
    p ∈ pindex.ancestors := by
  obtain ⟨f, rfl⟩ := pprev_eq_some h
  exact List.mem_cons_of_mem _ (self_mem_ancestors p)

/-- Below the end of a chain every block has a successor in it. -/
theorem exists_next {a p : CBlockIndex} (h : a ∈ p.ancestors) (hne : p ≠ a) :
    ∃ n ∈ p.ancestors, n.pprev = some a := by
  induction p with
  | genesis f => exact absurd (List.mem_singleton.mp h).symm hne
  | child f p ih =>
    rcases List.mem_cons.mp h with he | h
    · exact absurd he.symm hne
    · by_cases hp : p = a
      · exact ⟨child f p, self_mem_ancestors _, by rw [← hp]; rfl⟩
      · obtain ⟨n, hn, hprev⟩ := ih h hp
        exact ⟨n, List.mem_cons_of_mem _ hn, hprev⟩

theorem lowerTo_mem (h : Nat) (p : CBlockIndex) : p.lowerTo h ∈ p.ancestors := by
  induction p with
  | genesis f => exact self_mem_ancestors _
  | child f p ih =>
    unfold lowerTo
    split
    · exact List.mem_cons_of_mem _ ih
    · exact self_mem_ancestors _

theorem findFork_mem {a b f : CBlockIndex} (h : a.findFork b = .ok f) :
    f ∈ a.ancestors ∧ f ∈ b.ancestors := by
  induction a generalizing b with
  | genesis g =>
    unfold findFork at h
    split at h
    · rename_i he
      cases h
      exact ⟨self_mem_ancestors _, he ▸ lowerTo_mem 0 b⟩
    · cases h
  | child g p ih =>
    unfold findFork at h
    simp only at h
    split at h
    · rename_i he
      cases h
      exact ⟨self_mem_ancestors _, he ▸ lowerTo_mem _ b⟩
    · obtain ⟨ha, hb⟩ := ih h
      exact ⟨List.mem_cons_of_mem _ ha, ancestors_trans (lowerTo_mem _ b) hb⟩

/-- Going down to a height keeps the ancestors up to it. -/
theorem mem_lowerTo {a p : CBlockIndex} {h : Nat} (ha : a ∈ p.ancestors) (hh : a.nHeight ≤ h) :
    a ∈ (p.lowerTo h).ancestors := by
  induction p with
  | genesis f => exact ha
  | child f p ih =>
    unfold lowerTo
    split
    · rename_i hlt
      rcases List.mem_cons.mp ha with rfl | ha
      · exact absurd hh (not_le.mpr hlt)
      · exact ih ha
    · exact ha

theorem lowerTo_height (h : Nat) (p : CBlockIndex) : (p.lowerTo h).nHeight ≤ h := by
  induction p with
  | genesis f => exact Nat.zero_le h
  | child f p ih =>
    unfold lowerTo
    split
    · exact ih
    · rename_i hlt
      exact not_lt.mp hlt

theorem eq_of_mem_ancestors {a p : CBlockIndex} (ha : a ∈ p.ancestors)
    (hh : p.nHeight ≤ a.nHeight) : p = a := by
  cases p with
  | genesis f => exact (List.mem_singleton.mp ha).symm
  | child f p =>
    rcases List.mem_cons.mp ha with rfl | ha
    · rfl
    · have := mem_ancestors_height ha
      simp only [nHeight] at hh
      omega

theorem findFork_highest {a b f c : CBlockIndex} (h : a.findFork b = .ok f) (hca : c ∈ a.ancestors)
    (hcb : c ∈ b.ancestors) : c ∈ f.ancestors := by
  induction a generalizing b with
  | genesis g =>
    unfold findFork at h
    split at h
    · cases h
      exact hca
    · cases h
  | child g p ih =>
    unfold findFork at h
    simp only at h
    split at h
    · cases h
      exact hca
    · rename_i hne
      have hheight := mem_ancestors_height hca
      have hlow := mem_lowerTo hcb hheight
      rcases List.mem_cons.mp hca with rfl | hcp
      · exact absurd (eq_of_mem_ancestors hlow (lowerTo_height _ b)) hne
      · exact ih h hcp hlow

/-- `Climb a l b`: the blocks of `l`, each on top of the one before, lead from `a` to `b`. -/
inductive Climb : CBlockIndex → List CBlockIndex → CBlockIndex → Prop
  | here {a : CBlockIndex} : Climb a [] a
  | up {a b : CBlockIndex} {f : BlockFields} {l : List CBlockIndex} (h : Climb (child f a) l b) :
      Climb a (child f a :: l) b

theorem Climb.snoc {a b : CBlockIndex} {l : List CBlockIndex} (h : Climb a l b)
    (f : BlockFields) : Climb a (l ++ [child f b]) (child f b) := by
  induction h with
  | here => exact .up .here
  | up _ ih => exact .up ih

theorem Climb.mem {a b : CBlockIndex} {l : List CBlockIndex} (h : Climb a l b) :
    a ∈ b.ancestors := by
  induction h with
  | here => exact self_mem_ancestors _
  | up _ ih => exact ancestors_trans ih (List.mem_cons_of_mem _ (self_mem_ancestors _))

theorem Climb.subset {a b : CBlockIndex} {l : List CBlockIndex} (h : Climb a l b) :
    ∀ y ∈ l, y ∈ b.ancestors := by
  induction h with
  | here => simp
  | up hclimb ih =>
    rw [List.forall_mem_cons]
    exact ⟨hclimb.mem, ih⟩

theorem Climb.above {a b : CBlockIndex} {l : List CBlockIndex} (h : Climb a l b) :
    ∀ y ∈ l, y ∉ a.ancestors := by
  induction h with
  | here => simp
  | up _ ih =>
    rw [List.forall_mem_cons]
    exact ⟨child_not_ancestor, fun y hy hm => ih y hy (List.mem_cons_of_mem _ hm)⟩

theorem downTo_self (p : CBlockIndex) : downTo p p = [] := by
  unfold downTo
  cases p <;> simp [ancestors]

theorem downTo_child {a p : CBlockIndex} {f : BlockFields} (hne : child f p ≠ a) :
    downTo a (child f p) = child f p :: downTo a p := by
  simp [downTo, ancestors, hne]

/-- Going down to an ancestor, backwards, is the climb from it. -/
theorem climb_downTo {a b : CBlockIndex} (h : a ∈ b.ancestors) :
    Climb a (downTo a b).reverse b := by
  induction b with
  | genesis f =>
    rw [List.mem_singleton.mp h, downTo_self]
    exact .here
  | child f p ih =>
    by_cases hne : child f p = a
    · rw [hne, downTo_self]
      exact .here
    · rw [downTo_child hne, List.reverse_cons]
      exact (ih (mem_parent_ancestors h hne)).snoc f

/-- The ancestors of a block are those above one of them and its own. -/
theorem ancestors_eq_append {a b : CBlockIndex} (h : a ∈ b.ancestors) :
    b.ancestors = downTo a b ++ a.ancestors := by
  induction b with
  | genesis f =>
    rw [List.mem_singleton.mp h, downTo_self]
    rfl
  | child f p ih =>
    by_cases hne : child f p = a
    · rw [hne, downTo_self]
      rfl
    · rw [downTo_child hne, List.cons_append, ← ih (mem_parent_ancestors h hne)]
      rfl

theorem postpone_mem (nBestTrust : uint256) (p : CBlockIndex) :
    (p.postpone nBestTrust).1 ∈ p.ancestors := by
  induction p with
  | genesis f => exact self_mem_ancestors _
  | child f p ih =>
    unfold postpone
    split
    · exact List.mem_cons_of_mem _ ih
    · exact self_mem_ancestors _

/-- The postponed blocks, lowest first, climb from the intermediate block to the new one. -/
theorem postpone_climb (nBestTrust : uint256) (p : CBlockIndex) :
    Climb (p.postpone nBestTrust).1 (p.postpone nBestTrust).2.reverse p := by
  induction p with
  | genesis f => exact .here
  | child f p ih =>
    unfold postpone
    split
    · simp only [List.reverse_cons]
      exact ih.snoc f
    · exact .here

/-- The `pnext` links are those of the chain that ends in `p`. -/
def LinkedTo (pnext : CBlockIndex → Option CBlockIndex) (p : CBlockIndex) : Prop :=
  ∀ b n, pnext b = some n ↔ n ∈ p.ancestors ∧ n.pprev = some b

theorem linkedTo_genesis (f : BlockFields) : LinkedTo (fun _ => none) (genesis f) := by
  intro b n
  simp only [reduceCtorEq, false_iff, ancestors, List.mem_singleton, not_and]
  rintro rfl h
  cases h

theorem LinkedTo.unique {pnext pnext' : CBlockIndex → Option CBlockIndex} {p : CBlockIndex}
    (h : LinkedTo pnext p) (h' : LinkedTo pnext' p) : pnext = pnext' := by
  funext b
  apply Option.ext
  intro n
  rw [h b n, h' b n]

/-- A block that is not in the chain has no link. -/
theorem LinkedTo.off {pnext : CBlockIndex → Option CBlockIndex} {p b : CBlockIndex}
    (h : LinkedTo pnext p) (hb : b ∉ p.ancestors) : pnext b = none := by
  cases hn : pnext b with
  | none => rfl
  | some n =>
    obtain ⟨hm, hp⟩ := (h b n).mp hn
    exact absurd (ancestors_trans hm (mem_ancestors_of_pprev hp)) hb

theorem LinkedTo.up {pnext : CBlockIndex → Option CBlockIndex} {p : CBlockIndex}
    (h : LinkedTo pnext p) (f : BlockFields) :
    LinkedTo (Function.update pnext p (some (child f p))) (child f p) := by
  intro b n
  by_cases hb : b = p
  · subst hb
    rw [Function.update_self]
    constructor
    · rintro ⟨⟩
      exact ⟨self_mem_ancestors _, rfl⟩
    · intro h
      obtain ⟨hm, hp⟩ := h
      rcases List.mem_cons.mp hm with rfl | hm
      · rfl
      · exact absurd hm (not_ancestor_of_pprev hp)
  · rw [Function.update_of_ne hb, h b n]
    constructor
    · intro h
      obtain ⟨hm, hp⟩ := h
      exact ⟨List.mem_cons_of_mem _ hm, hp⟩
    · intro h
      obtain ⟨hm, hp⟩ := h
      rcases List.mem_cons.mp hm with rfl | hm
      · exact absurd (Option.some.inj hp).symm hb
      · exact ⟨hm, hp⟩

theorem LinkedTo.down {pnext : CBlockIndex → Option CBlockIndex} {p : CBlockIndex}
    {f : BlockFields} (h : LinkedTo pnext (child f p)) :
    LinkedTo (Function.update pnext p none) p := by
  intro b n
  by_cases hb : b = p
  · subst hb
    rw [Function.update_self]
    simp only [reduceCtorEq, false_iff, not_and]
    exact fun hm hp => not_ancestor_of_pprev hp hm
  · rw [Function.update_of_ne hb, h b n]
    constructor
    · intro h
      obtain ⟨hm, hp⟩ := h
      rcases List.mem_cons.mp hm with rfl | hm
      · exact absurd (Option.some.inj hp).symm hb
      · exact ⟨hm, hp⟩
    · intro h
      obtain ⟨hm, hp⟩ := h
      exact ⟨List.mem_cons_of_mem _ hm, hp⟩

end CBlockIndex

open CBlockIndex

/-- Steps that change nothing but the links. -/
theorem foldl_pnext_eq {f : State → CBlockIndex → State}
    (hf : ∀ s p, f s p = { s with pnext := (f s p).pnext }) (l : List CBlockIndex) (s : State) :
    l.foldl f s = { s with pnext := (l.foldl f s).pnext } := by
  induction l generalizing s with
  | nil => rfl
  | cons p l ih =>
    rw [List.foldl_cons]
    calc l.foldl f (f s p) = { f s p with pnext := (l.foldl f (f s p)).pnext } := ih _
      _ = { s with pnext := (l.foldl f (f s p)).pnext } := by rw [hf s p]

theorem foldl_link_eq (l : List CBlockIndex) (s : State) :
    l.foldl State.link s = { s with pnext := (l.foldl State.link s).pnext } := by
  apply foldl_pnext_eq
  intro s p
  unfold State.link
  cases p.pprev <;> rfl

theorem foldl_unlink_eq (l : List CBlockIndex) (s : State) :
    l.foldl State.unlink s = { s with pnext := (l.foldl State.unlink s).pnext } := by
  apply foldl_pnext_eq
  intro s p
  unfold State.unlink
  cases p.pprev <;> rfl

theorem foldl_link_txdb (l : List CBlockIndex) (s : State) :
    (l.foldl State.link s).txdb = s.txdb := by
  rw [foldl_link_eq]

theorem foldl_unlink_txdb (l : List CBlockIndex) (s : State) :
    (l.foldl State.unlink s).txdb = s.txdb := by
  rw [foldl_unlink_eq]

/-- Linking a climb moves the links from its start to its end and changes nothing else. -/
theorem link_climb {a b : CBlockIndex} {l : List CBlockIndex} (h : Climb a l b) : ∀ {s : State},
    LinkedTo s.pnext a → LinkedTo (l.foldl State.link s).pnext b ∧
      l.foldl State.link s = { s with pnext := (l.foldl State.link s).pnext } := by
  induction h with
  | here => exact fun hl => ⟨hl, rfl⟩
  | @up a b f l _ ih =>
    intro s hl
    obtain ⟨hlinked, hframe⟩ := ih (s := s.link (child f a)) (hl.up f)
    exact ⟨hlinked, hframe⟩

/-- Unlinking goes down from the end of a climb to its start. -/
theorem unlink_climb {a b : CBlockIndex} {l : List CBlockIndex} (h : Climb a l b) : ∀ {s : State},
    LinkedTo s.pnext b → LinkedTo (l.reverse.foldl State.unlink s).pnext a ∧
      l.reverse.foldl State.unlink s =
        { s with pnext := (l.reverse.foldl State.unlink s).pnext } := by
  induction h with
  | here => exact fun hl => ⟨hl, rfl⟩
  | @up a b f l _ ih =>
    intro s hl
    obtain ⟨hlinked, hframe⟩ := ih hl
    rw [List.reverse_cons, List.foldl_append]
    constructor
    · exact hlinked.down
    · simp only [List.foldl_cons, List.foldl_nil]
      rw [hframe]
      rfl

end Triangles
