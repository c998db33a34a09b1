import Mathlib.Data.Finset.Lattice.Fold
import Mathlib.Data.Set.Insert
import Mathlib.Logic.Relation
import Triangles.Lib.Outcome

/-! Sets that share items, merged into blocks: the blocks are the classes of the items that a chain
of sets links. -/

namespace Components

variable {α : Type} {sets : Set (Finset α)} {parts : Finset (Finset α)}
  {g : Finset α} {a b c : α}

def Linked (sets : Set (Finset α)) (a b : α) : Prop := ∃ s ∈ sets, a ∈ s ∧ b ∈ s

structure Classes (sets : Set (Finset α)) (parts : Finset (Finset α)) : Prop where
  disjoint : ∀ p ∈ parts, ∀ q ∈ parts, p ≠ q → Disjoint p q
  same : ∀ a b, Linked parts a b ↔ Relation.TransGen (Linked sets) a b

/-- What the blocks have is what the sets have. -/
theorem Classes.covers (h : Classes sets parts) : (∃ p ∈ parts, a ∈ p) ↔ ∃ s ∈ sets, a ∈ s := by
  constructor
  · rintro ⟨p, hp, ha⟩
    obtain ⟨c, ⟨s, hs, has, -⟩, -⟩ :=
      (Relation.TransGen.head'_iff).mp ((h.same a a).mp ⟨p, hp, ha, ha⟩)
    exact ⟨s, hs, has⟩
  · rintro ⟨s, hs, ha⟩
    obtain ⟨p, hp, hap, -⟩ := (h.same a a).mpr (.single ⟨s, hs, ha, ha⟩)
    exact ⟨p, hp, hap⟩

theorem classes_empty : Classes (∅ : Set (Finset α)) ∅ where
  disjoint p hp := absurd hp (Finset.notMem_empty p)
  same a b := by
    constructor
    · rintro ⟨p, hp, -⟩
      exact absurd hp (Finset.notMem_empty p)
    · intro h
      obtain ⟨c, ⟨s, hs, -⟩, -⟩ := Relation.TransGen.head'_iff.mp h
      cases hs

/-- In blocks that are apart, being in one block carries over. -/
theorem linked_trans (h : ∀ p ∈ parts, ∀ q ∈ parts, p ≠ q → Disjoint p q)
    (hab : Linked (parts : Set (Finset α)) a b) (hbc : Linked (parts : Set (Finset α)) b c) :
    Linked (parts : Set (Finset α)) a c := by
  obtain ⟨p, hp, ha, hb⟩ := hab
  obtain ⟨q, hq, hb', hc⟩ := hbc
  by_cases heq : p = q
  · exact ⟨p, hp, ha, heq ▸ hc⟩
  · exact absurd hb' (Finset.disjoint_left.mp (h p hp q hq heq) hb)

variable [DecidableEq α]

def hits (parts : Finset (Finset α)) (g : Finset α) : Finset (Finset α) :=
  parts.filter fun p => ¬ Disjoint p g

def absorb (parts : Finset (Finset α)) (g : Finset α) : Finset (Finset α) :=
  insert (g ∪ (hits parts g).sup id) (parts \ hits parts g)

theorem mem_hits {p : Finset α} : p ∈ hits parts g ↔ p ∈ parts ∧ ∃ a ∈ p, a ∈ g := by
  rw [hits, Finset.mem_filter, Finset.not_disjoint_iff]

theorem mem_merged : a ∈ g ∪ (hits parts g).sup id ↔ a ∈ g ∨ ∃ p ∈ hits parts g, a ∈ p := by
  rw [Finset.mem_union, Finset.mem_sup]
  rfl

theorem Classes.absorb_disjoint (h : Classes sets parts) :
    ∀ p ∈ absorb parts g, ∀ q ∈ absorb parts g, p ≠ q → Disjoint p q := by
  -- a block that is not hit is apart from the merged one
  have hmerged : ∀ p ∈ parts \ hits parts g, Disjoint (g ∪ (hits parts g).sup id) p := by
    intro p hp
    obtain ⟨hp, hnot⟩ := Finset.mem_sdiff.mp hp
    rw [Finset.disjoint_left]
    intro a ha hap
    rcases mem_merged.mp ha with hag | ⟨q, hq, haq⟩
    · exact hnot (mem_hits.mpr ⟨hp, a, hap, hag⟩)
    · have hne : q ≠ p := fun heq => hnot (heq ▸ hq)
      exact Finset.disjoint_left.mp (h.disjoint q (mem_hits.mp hq).1 p hp hne) haq hap
  intro p hp q hq hne
  rcases Finset.mem_insert.mp hp with rfl | hp
  · rcases Finset.mem_insert.mp hq with rfl | hq
    · exact absurd rfl hne
    · exact hmerged q hq
  · rcases Finset.mem_insert.mp hq with rfl | hq
    · exact (hmerged p hp).symm
    · exact h.disjoint p (Finset.mem_sdiff.mp hp).1 q (Finset.mem_sdiff.mp hq).1 hne

/-- The blocks are still the classes when one more set has been merged. -/
theorem Classes.absorb (h : Classes sets parts) : Classes (insert g sets) (absorb parts g) := by
  refine ⟨h.absorb_disjoint, fun a b => ⟨?_, fun hab => ?_⟩⟩
  · have hold : ∀ {x y : α}, Relation.TransGen (Linked sets) x y →
        Relation.TransGen (Linked (insert g sets)) x y := by
      have hmono : Linked sets ≤ Linked (insert g sets) :=
        fun _ _ ⟨s, hs, hboth⟩ => ⟨s, .inr hs, hboth⟩
      intro x y hxy
      exact Relation.TransGen.mono hmono _ _ hxy
    have hnew : ∀ {x y : α}, x ∈ g → y ∈ g → Relation.TransGen (Linked (insert g sets)) x y :=
      fun hx hy => .single ⟨g, .inl rfl, hx, hy⟩
    have hpart : ∀ {x y : α} {p}, p ∈ parts → x ∈ p → y ∈ p →
        Relation.TransGen (Linked (insert g sets)) x y :=
      fun {x y p} hp hx hy => hold ((h.same x y).mp ⟨p, hp, hx, hy⟩)
    -- every item of the merged block is linked to one of the set
    have hto : ∀ x, x ∈ g ∪ (hits parts g).sup id →
        ∃ c ∈ g, Relation.TransGen (Linked (insert g sets)) x c ∧
          Relation.TransGen (Linked (insert g sets)) c x := by
      intro x hx
      rcases mem_merged.mp hx with hx | ⟨p, hp, hx⟩
      · exact ⟨x, hx, hnew hx hx, hnew hx hx⟩
      · obtain ⟨hp, c, hcp, hcg⟩ := mem_hits.mp hp
        exact ⟨c, hcg, hpart hp hx hcp, hpart hp hcp hx⟩
    rintro ⟨p, hp, ha, hb⟩
    rcases Finset.mem_insert.mp hp with rfl | hp
    · obtain ⟨c, hc, hac, -⟩ := hto a ha
      obtain ⟨d, hd, -, hdb⟩ := hto b hb
      exact (hac.trans (hnew hc hd)).trans hdb
    · exact hpart (Finset.mem_sdiff.mp hp).1 ha hb
  · have hlink : ∀ x y, Linked (insert g sets) x y →
        Linked (Components.absorb parts g : Set (Finset α)) x y := by
      rintro x y ⟨s, rfl | hs, hx, hy⟩
      · exact ⟨_, Finset.mem_insert_self _ _, Finset.mem_union_left _ hx, Finset.mem_union_left _ hy⟩
      · obtain ⟨p, hp, hxp, hyp⟩ := (h.same x y).mpr (.single ⟨s, hs, hx, hy⟩)
        by_cases hhit : p ∈ hits parts g
        · exact ⟨_, Finset.mem_insert_self _ _, mem_merged.mpr (.inr ⟨p, hhit, hxp⟩),
            mem_merged.mpr (.inr ⟨p, hhit, hyp⟩)⟩
        · exact ⟨p, Finset.mem_insert_of_mem (Finset.mem_sdiff.mpr ⟨hp, hhit⟩), hxp, hyp⟩
    induction hab with
    | single hstep => exact hlink _ _ hstep
    | tail _ hstep ih => exact linked_trans h.absorb_disjoint ih (hlink _ _ hstep)

/-- Sets that are merged one after the other. -/
theorem Classes.foldl (h : Classes sets parts) (l : List (Finset α)) :
    Classes (sets ∪ {s | s ∈ l}) (l.foldl Components.absorb parts) := by
  induction l generalizing sets parts with
  | nil =>
    have hsame : sets ∪ {s | s ∈ ([] : List (Finset α))} = sets := by simp
    rw [hsame]
    exact h
  | cons g l ih =>
    have hsame : sets ∪ {s | s ∈ g :: l} = insert g sets ∪ {s | s ∈ l} := by
      ext s
      simp only [List.mem_cons, Set.mem_union, Set.mem_ofPred_eq, Set.mem_insert_iff]
      tauto
    rw [hsame]
    exact ih h.absorb

end Components

/-! Loops over a forest in an order in which every item comes after its parent. -/

namespace Forest

variable {α : Type} {parent : α → Option α}

def ParentsFirst (parent : α → Option α) : List α → List α → Prop
  | _, [] => True
  | before, a :: l => (∀ b, parent a = some b → b ∈ before) ∧ ParentsFirst parent (a :: before) l

/-- Sorting by a rank that is higher than the parent's puts parents first. -/
theorem parentsFirst_of_sorted {rank : α → Nat} {l : List α} :
    ∀ {before : List α}, l.Pairwise (fun a b => rank a ≤ rank b) →
      (∀ a ∈ l, ∀ b, parent a = some b → rank b < rank a ∧ (b ∈ before ∨ b ∈ l)) →
      ParentsFirst parent before l := by
  induction l with
  | nil => exact fun _ _ => trivial
  | cons a l ih =>
    intro before hsorted hclosed
    obtain ⟨hlow, hsorted⟩ := List.pairwise_cons.mp hsorted
    constructor
    · intro b hb
      obtain ⟨hlt, hm | hm⟩ := hclosed a List.mem_cons_self b hb
      · exact hm
      · rcases List.mem_cons.mp hm with rfl | hm
        · exact absurd hlt (Nat.lt_irrefl _)
        · exact absurd hlt (Nat.not_lt.mpr (hlow b hm))
    · apply ih hsorted
      intro c hc b hb
      obtain ⟨hlt, hm⟩ := hclosed c (List.mem_cons_of_mem _ hc) b hb
      refine ⟨hlt, ?_⟩
      rcases hm with hm | hm
      · exact .inl (List.mem_cons_of_mem _ hm)
      · rcases List.mem_cons.mp hm with rfl | hm
        · exact .inl List.mem_cons_self
        · exact .inr hm

/-- A loop in such an order: each round may use that the parent is done. -/
theorem forM_parentsFirst {ε σ : Type} {f : α → EStateM ε σ Unit} {I : List α → σ → Prop}
    {P : α → Prop}
    (hstep : ∀ {before a s}, I before s → P a → (∀ b, parent a = some b → b ∈ before) →
      ∃ t, f a s = .ok () t ∧ I (a :: before) t) {l : List α} :
    ∀ {before : List α} {s : σ}, (∀ a ∈ l, P a) → ParentsFirst parent before l → I before s →
      ∃ t, l.forM f s = .ok () t ∧ I (l.reverse ++ before) t := by
  induction l with
  | nil => exact fun {_ s} _ _ hI => ⟨s, rfl, hI⟩
  | cons a l ih =>
    intro before s hP hfirst hI
    obtain ⟨hparent, hrest⟩ := hfirst
    obtain ⟨ha, hl⟩ := List.forall_mem_cons.mp hP
    obtain ⟨r, hr, hIr⟩ := hstep hI ha hparent
    obtain ⟨t, ht, hIt⟩ := ih hl hrest hIr
    refine ⟨t, Outcome.run_bind_ok.mpr ⟨(), r, hr, ht⟩, ?_⟩
    rw [List.reverse_cons, List.append_assoc]
    exact hIt

end Forest
