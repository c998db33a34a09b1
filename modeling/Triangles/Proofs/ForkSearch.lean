import Triangles.Lib.Lineage
import Triangles.Model.Locator
import Triangles.Proofs.Coherence

/-! The fork that `Reorganize` finds, on every tree of blocks. -/

namespace Triangles.ForkSearch

open Lineage

variable {Block : Type} {t : Lineage.Tree Block} {best new pfork plonger f pindex : Block}
  {rounds : Nat}

/-- What holds of the two pointers in every round: they are ancestors of the two blocks, and no common
ancestor has been left behind. -/
structure Between (t : Lineage.Tree Block) (best new pfork plonger : Block) : Prop where
  fork : t.Anc pfork best
  longer : t.Anc plonger new
  common : ∀ c, t.Anc c best → t.Anc c new → t.Anc c pfork ∧ t.Anc c plonger

theorem Between.lowest (h : Between t best new pfork pfork) : t.IsLowest pfork best new :=
  ⟨h.fork, h.longer, fun c hb hn => (h.common c hb hn).1⟩

/-- A round of the inner loop: the upper pointer has a parent, and goes there. -/
theorem Between.lower (h : Between t best new pfork plonger) (hlt : t.height pfork < t.height plonger) :
    ∃ p, t.parent plonger = some p ∧ t.height plonger = t.height p + 1 ∧ Between t best new pfork p := by
  have hup : ∀ c, t.Anc c best → t.Anc c new → c ≠ plonger := by
    rintro c hb hn rfl
    exact absurd (h.common c hb hn).1.height_le (not_le.mpr hlt)
  obtain ⟨p, hparent, -⟩ := (h.common t.root (t.rooted best) (t.rooted new)).2.up
    (hup _ (t.rooted best) (t.rooted new))
  refine ⟨p, hparent, t.height_parent hparent, h.fork, (Lineage.Tree.anc_parent hparent).trans h.longer, ?_⟩
  intro c hb hn
  obtain ⟨q, hq, hanc⟩ := (h.common c hb hn).2.up (hup c hb hn)
  rw [hparent] at hq
  cases hq
  exact ⟨(h.common c hb hn).1, hanc⟩

/-- The rest of a round of the outer loop: the other pointer has a parent too, unless they have met. -/
theorem Between.raise (h : Between t best new pfork plonger) (hle : t.height plonger ≤ t.height pfork)
    (hne : pfork ≠ plonger) :
    ∃ p, t.parent pfork = some p ∧ t.height pfork = t.height p + 1 ∧ Between t best new p plonger := by
  have hup : ∀ c, t.Anc c best → t.Anc c new → c ≠ pfork := by
    rintro c hb hn rfl
    exact hne ((h.common c hb hn).2.eq_of_height hle)
  obtain ⟨p, hparent, -⟩ := (h.common t.root (t.rooted best) (t.rooted new)).1.up
    (hup _ (t.rooted best) (t.rooted new))
  refine ⟨p, hparent, t.height_parent hparent, (Lineage.Tree.anc_parent hparent).trans h.fork, h.longer, ?_⟩
  intro c hb hn
  obtain ⟨q, hq, hanc⟩ := (h.common c hb hn).1.up (hup c hb hn)
  rw [hparent] at hq
  cases hq
  exact ⟨hanc, (h.common c hb hn).2⟩

theorem lowerLoop_spec (rounds : Nat) (h : Between t best new pfork plonger)
    (hrounds : t.height plonger - t.height pfork < rounds) (hpos : 0 < rounds) :
    ∃ p, lowerLoop t.parent t.height rounds pfork plonger = some (.ok p) ∧
      t.height p ≤ t.height pfork ∧ t.height p ≤ t.height plonger ∧ Between t best new pfork p := by
  induction rounds generalizing plonger with
  | zero => exact absurd hpos (lt_irrefl 0)
  | succ rounds ih =>
    by_cases hlt : t.height pfork < t.height plonger
    · obtain ⟨p, hparent, hheight, hbetween⟩ := h.lower hlt
      obtain ⟨q, hloop, hq, hqp, hrest⟩ := ih hbetween (by omega) (by omega)
      refine ⟨q, ?_, hq, by omega, hrest⟩
      simp only [lowerLoop, if_pos hlt, hparent, hloop]
    · exact ⟨plonger, by simp only [lowerLoop, if_neg hlt], not_lt.mp hlt, le_rfl, h⟩

variable [DecidableEq Block]

/-- The measure of the outer loop is how high the two pointers are over the root. -/
theorem forkLoop_spec (h : Between t best new pfork plonger)
    (hrounds : (t.height pfork - t.height t.root) + (t.height plonger - t.height t.root) + 1 < rounds) :
    ∃ f, forkLoop t.parent t.height rounds pfork plonger = some (.ok f) ∧ t.IsLowest f best new := by
  induction rounds generalizing pfork plonger with
  | zero =>
    have hfork := t.root_le pfork
    have hlonger := t.root_le plonger
    omega
  | succ rounds ih =>
    have hfork := t.root_le pfork
    have hlonger := t.root_le plonger
    by_cases hmet : pfork = plonger
    · subst hmet
      exact ⟨pfork, by simp only [forkLoop, if_true], h.lowest⟩
    · obtain ⟨q, hlower, hq, hqp, hbetween⟩ := lowerLoop_spec rounds h (by omega) (by omega)
      by_cases hmet' : pfork = q
      · subst hmet'
        exact ⟨pfork, by simp only [forkLoop, if_neg hmet, hlower, if_true], hbetween.lowest⟩
      · obtain ⟨p, hparent, hheight, hraised⟩ := hbetween.raise hq hmet'
        obtain ⟨f, hloop, hlowest⟩ := ih hraised (by omega)
        exact ⟨f, by simp only [forkLoop, if_neg hmet, hlower, if_neg hmet', hparent, hloop], hlowest⟩

theorem listLoop_spec (rounds : Nat) (h : t.Anc pfork pindex)
    (hrounds : t.height pindex - t.height pfork < rounds)
    (hpos : 0 < rounds) :
    ∃ l, listLoop t.parent pfork rounds pindex = some l ∧ t.Path pfork pindex l := by
  induction rounds generalizing pindex with
  | zero => exact absurd hpos (lt_irrefl 0)
  | succ rounds ih =>
    by_cases hmet : pindex = pfork
    · subst hmet
      exact ⟨[], by simp only [listLoop, if_true], .here⟩
    · obtain ⟨p, hparent, hanc⟩ := h.up (Ne.symm hmet)
      have hstep := t.height_parent hparent
      have hle := hanc.height_le
      obtain ⟨l, hloop, hpath⟩ := ih hanc (by omega) (by omega)
      refine ⟨pindex :: l, ?_, .step hparent hpath⟩
      simp only [listLoop, if_neg hmet, hparent, hloop, Option.map_some]

theorem forkSearch_spec (hrounds : (t.height best - t.height t.root) + (t.height new - t.height t.root) + 1 <
    rounds) : ∃ f vDisconnect vConnect,
      forkSearch t.parent t.height rounds best new = some (.ok (f, vDisconnect, vConnect.reverse)) ∧
        t.IsLowest f best new ∧ t.Path f best vDisconnect ∧ t.Path f new vConnect := by
  have hstart : Between t best new best new := ⟨.refl _, .refl _, fun c hb hn => ⟨hb, hn⟩⟩
  obtain ⟨f, hloop, hlowest⟩ := forkLoop_spec hstart hrounds
  have hroot := t.root_le f
  have hbest := t.root_le best
  have hnew := t.root_le new
  obtain ⟨vDisconnect, hdisconnect, hdown⟩ := listLoop_spec rounds hlowest.left (by omega) (by omega)
  obtain ⟨vConnect, hconnect, hup⟩ := listLoop_spec rounds hlowest.right (by omega) (by omega)
  refine ⟨f, vDisconnect, vConnect, ?_, hlowest, hdown, hup⟩
  simp only [forkSearch, hloop, hdisconnect, hconnect]
  rfl

/-! The blocks of the node: what the rest of the model takes for the loops is what they do. -/

open CBlockIndex

theorem lowerLoop_eq (rounds : Nat) (pfork plonger : CBlockIndex) (h : plonger.nHeight < rounds) :
    lowerLoop pprev (fun b => (b.nHeight : Int)) rounds pfork plonger =
      some (.ok (plonger.lowerTo pfork.nHeight)) := by
  induction plonger generalizing rounds with
  | genesis f =>
    obtain ⟨rounds, rfl⟩ := Nat.exists_eq_succ_of_ne_zero (Nat.ne_zero_of_lt h)
    simp [lowerLoop, lowerTo, nHeight]
  | child f p ih =>
    obtain ⟨rounds, rfl⟩ := Nat.exists_eq_succ_of_ne_zero (Nat.ne_zero_of_lt h)
    have hp : p.nHeight < rounds := by
      rw [nHeight] at h
      omega
    by_cases hlt : pfork.nHeight < p.nHeight + 1
    · have hlt' : (pfork.nHeight : Int) < ((child f p).nHeight : Int) := by rw [nHeight]; omega
      simp only [lowerLoop, if_pos hlt', pprev, ih rounds hp, lowerTo, if_pos hlt]
    · have hlt' : ¬ (pfork.nHeight : Int) < ((child f p).nHeight : Int) := by rw [nHeight]; omega
      simp only [lowerLoop, if_neg hlt', lowerTo, if_neg hlt]

theorem lowerTo_self (b : CBlockIndex) : b.lowerTo b.nHeight = b := by
  cases b with
  | genesis f => rfl
  | child f p => simp [lowerTo, nHeight]

/-- The loop over the pointers finds what `findFork` does, the failure included. -/
theorem forkLoop_eq (pfork plonger : CBlockIndex) {rounds : Nat}
    (h : pfork.nHeight + plonger.nHeight + 1 < rounds) :
    forkLoop pprev (fun b => (b.nHeight : Int)) rounds pfork plonger = some (pfork.findFork plonger) := by
  induction pfork generalizing plonger rounds with
  | genesis f =>
    obtain ⟨rounds, rfl⟩ := Nat.exists_eq_succ_of_ne_zero (Nat.ne_zero_of_lt h)
    have hlower := lowerLoop_eq rounds (genesis f) plonger (by omega)
    have hself := lowerTo_self (genesis f)
    rw [nHeight] at hlower hself
    by_cases hmet : genesis f = plonger
    · subst hmet
      simp only [forkLoop, if_true, findFork, hself]
    · simp only [forkLoop, if_neg hmet, hlower, findFork, pprev]
      by_cases hmet' : genesis f = plonger.lowerTo 0
      · simp only [if_pos hmet', if_pos hmet'.symm]
      · simp only [if_neg hmet', if_neg (Ne.symm hmet')]
  | child f p ih =>
    obtain ⟨rounds, rfl⟩ := Nat.exists_eq_succ_of_ne_zero (Nat.ne_zero_of_lt h)
    have hlower := lowerLoop_eq rounds (child f p) plonger (by omega)
    have hself := lowerTo_self (child f p)
    rw [nHeight] at hlower hself h
    by_cases hmet : child f p = plonger
    · subst hmet
      simp only [forkLoop, if_true, findFork, hself]
    · simp only [forkLoop, if_neg hmet, hlower, findFork, pprev]
      by_cases hmet' : child f p = plonger.lowerTo (p.nHeight + 1)
      · simp only [if_pos hmet', if_pos hmet'.symm]
      · simp only [if_neg hmet', if_neg (Ne.symm hmet')]
        have hle := mem_ancestors_height (lowerTo_mem (p.nHeight + 1) plonger)
        exact ih _ (by omega)

theorem listLoop_eq {pfork : CBlockIndex} (rounds : Nat) (pindex : CBlockIndex)
    (h : pindex.nHeight < rounds) (hmem : pfork ∈ pindex.ancestors) :
    listLoop pprev pfork rounds pindex = some (downTo pfork pindex) := by
  induction pindex generalizing rounds with
  | genesis f =>
    obtain ⟨rounds, rfl⟩ := Nat.exists_eq_succ_of_ne_zero (Nat.ne_zero_of_lt h)
    have hmet : genesis f = pfork := (List.mem_singleton.mp hmem).symm
    simp [listLoop, downTo, ancestors, hmet]
  | child f p ih =>
    obtain ⟨rounds, rfl⟩ := Nat.exists_eq_succ_of_ne_zero (Nat.ne_zero_of_lt h)
    by_cases hmet : child f p = pfork
    · simp [listLoop, downTo, ancestors, hmet]
    · have hp : p.nHeight < rounds := by
        rw [nHeight] at h
        omega
      have hrest := ih rounds hp (mem_parent_ancestors hmem hmet)
      simp only [listLoop, if_neg hmet, pprev, hrest, downTo, ancestors, Option.map_some]
      rw [List.takeWhile_cons_of_pos (by simpa using hmet)]

/-- The search over the pointers gives `Reorganize` its fork and its two lists. -/
theorem forkSearch_eq (pindexBest pindexNew : CBlockIndex) {rounds : Nat}
    (h : pindexBest.nHeight + pindexNew.nHeight + 1 < rounds) :
    forkSearch pprev (fun b => (b.nHeight : Int)) rounds pindexBest pindexNew =
      some ((pindexBest.findFork pindexNew).map fun pfork =>
        (pfork, downTo pfork pindexBest, (downTo pfork pindexNew).reverse)) := by
  have hloop := forkLoop_eq pindexBest pindexNew h
  cases hfork : pindexBest.findFork pindexNew with
  | error e =>
    rw [hfork] at hloop
    simp only [forkSearch, hloop]
    rfl
  | ok pfork =>
    rw [hfork] at hloop
    obtain ⟨hbest, hnew⟩ := findFork_mem hfork
    simp only [forkSearch, hloop, listLoop_eq rounds pindexBest (by omega) hbest,
      listLoop_eq rounds pindexNew (by omega) hnew]
    rfl

/-! A map of blocks that keeps parents and heights keeps what the loops do. -/

section Map

variable {Block' : Type} [DecidableEq Block'] {pprev : Block → Option Block} {nHeight : Block → Int}
  {pprev' : Block' → Option Block'} {nHeight' : Block' → Int} {f : Block → Block'}
  (hinj : Function.Injective f) (hpprev : ∀ b, pprev' (f b) = (pprev b).map f)
  (hheight : ∀ b, nHeight' (f b) = nHeight b)
include hpprev hheight

omit [DecidableEq Block] [DecidableEq Block'] in
theorem lowerLoop_map (rounds : Nat) (pfork plonger : Block) :
    lowerLoop pprev' nHeight' rounds (f pfork) (f plonger) =
      (lowerLoop pprev nHeight rounds pfork plonger).map (Except.map f) := by
  induction rounds generalizing plonger with
  | zero => rfl
  | succ rounds ih =>
    rw [lowerLoop, lowerLoop, hheight, hheight, hpprev]
    by_cases hlt : nHeight pfork < nHeight plonger
    · rw [if_pos hlt, if_pos hlt]
      cases pprev plonger with
      | none => rfl
      | some p => exact ih p
    · rw [if_neg hlt, if_neg hlt]
      rfl

include hinj

theorem forkLoop_map (rounds : Nat) (pfork plonger : Block) :
    forkLoop pprev' nHeight' rounds (f pfork) (f plonger) =
      (forkLoop pprev nHeight rounds pfork plonger).map (Except.map f) := by
  induction rounds generalizing pfork plonger with
  | zero => rfl
  | succ rounds ih =>
    rw [forkLoop, forkLoop, lowerLoop_map hpprev hheight, hpprev]
    by_cases hmet : pfork = plonger
    · rw [if_pos hmet, if_pos (congrArg f hmet)]
      rfl
    · rw [if_neg hmet, if_neg (hinj.ne hmet)]
      cases lowerLoop pprev nHeight rounds pfork plonger with
      | none => rfl
      | some lowered =>
        cases lowered with
        | error e => rfl
        | ok q =>
          dsimp only [Option.map_some, Except.map]
          by_cases hmet' : pfork = q
          · rw [if_pos hmet', if_pos (congrArg f hmet')]
            rfl
          · rw [if_neg hmet', if_neg (hinj.ne hmet')]
            cases pprev pfork with
            | none => rfl
            | some p => exact ih p q

omit hheight in
theorem listLoop_map (pfork : Block) (rounds : Nat) (pindex : Block) :
    listLoop pprev' (f pfork) rounds (f pindex) =
      (listLoop pprev pfork rounds pindex).map (List.map f) := by
  induction rounds generalizing pindex with
  | zero => rfl
  | succ rounds ih =>
    rw [listLoop, listLoop, hpprev]
    by_cases hmet : pindex = pfork
    · rw [if_pos hmet, if_pos (congrArg f hmet)]
      rfl
    · rw [if_neg hmet, if_neg (hinj.ne hmet)]
      cases pprev pindex with
      | none => rfl
      | some p =>
        dsimp only [Option.map_some]
        rw [ih p, Option.map_map, Option.map_map]
        rfl

theorem forkSearch_map {rounds : Nat} {pindexBest pindexNew pfork : Block}
    {vDisconnect vConnect : List Block}
    (h : forkSearch pprev nHeight rounds pindexBest pindexNew =
      some (.ok (pfork, vDisconnect, vConnect))) :
    forkSearch pprev' nHeight' rounds (f pindexBest) (f pindexNew) =
      some (.ok (f pfork, vDisconnect.map f, vConnect.map f)) := by
  unfold forkSearch at h ⊢
  rw [forkLoop_map hinj hpprev hheight]
  cases hloop : forkLoop pprev nHeight rounds pindexBest pindexNew with
  | none =>
    rw [hloop] at h
    cases h
  | some found =>
    rw [hloop] at h
    cases found with
    | error e => cases h
    | ok q =>
      dsimp only [Option.map_some, Except.map] at h ⊢
      rw [listLoop_map hinj hpprev, listLoop_map hinj hpprev]
      obtain ⟨down, hdown, h⟩ := Option.bind_eq_some_iff.mp h
      obtain ⟨up, hup, h⟩ := Option.bind_eq_some_iff.mp h
      cases h
      rw [hdown, hup, List.map_reverse]
      rfl

end Map

/-! The blocks over one first block are a tree. -/

def parentOver (g : BlockFields) :
    {b : CBlockIndex // genesis g ∈ b.ancestors} → Option {b : CBlockIndex // genesis g ∈ b.ancestors}
  | ⟨genesis _, _⟩ => none
  | ⟨child _ p, h⟩ => some ⟨p, mem_parent_ancestors h (fun heq => by cases heq)⟩

def blocksOver (g : BlockFields) : Lineage.Tree {b : CBlockIndex // genesis g ∈ b.ancestors} where
  parent := parentOver g
  height b := b.1.nHeight
  root := ⟨genesis g, List.mem_singleton_self _⟩
  height_parent := by
    rintro ⟨x, hx⟩ p h
    cases x with
    | genesis f => cases h
    | child f q =>
      cases h
      simp [nHeight]
  rooted := by
    rintro ⟨x, hx⟩
    induction x with
    | genesis f =>
      obtain rfl : g = f := by simpa [ancestors] using hx
      exact .refl
    | child f q ih => exact .head rfl (ih (mem_parent_ancestors hx fun heq => by cases heq))

theorem parentOver_val {g : BlockFields} (b : {b : CBlockIndex // genesis g ∈ b.ancestors}) :
    b.1.pprev = (parentOver g b).map Subtype.val := by
  obtain ⟨x, hx⟩ := b
  cases x <;> rfl

theorem anc_blocksOver {g : BlockFields} {a b : {b : CBlockIndex // genesis g ∈ b.ancestors}} :
    (blocksOver g).Anc a b ↔ a.1 ∈ b.1.ancestors := by
  constructor
  · intro h
    induction h using Relation.ReflTransGen.head_induction_on with
    | refl => exact self_mem_ancestors _
    | head hparent _ ih =>
      refine ancestors_trans ?_ ih
      exact mem_ancestors_of_pprev (by rw [parentOver_val]; exact congrArg (Option.map _) hparent)
  · obtain ⟨b, hb⟩ := b
    intro h
    induction b with
    | genesis f =>
      obtain rfl : a = ⟨genesis f, hb⟩ := Subtype.ext (List.mem_singleton.mp h)
      rfl
    | child f p ih =>
      obtain heq | h := List.mem_cons.mp h
      · obtain rfl : a = ⟨child f p, hb⟩ := Subtype.ext heq
        rfl
      · exact .head rfl (ih (mem_parent_ancestors hb fun heq => by cases heq) h)

/-- What the search over the tree finds is what `Reorganize` works with. -/
theorem forkSearch_blocksOver {g : BlockFields}
    {pindexBest pindexNew pfork : {b : CBlockIndex // genesis g ∈ b.ancestors}}
    {vDisconnect vConnect : List {b : CBlockIndex // genesis g ∈ b.ancestors}} {rounds : Nat}
    (hrounds : pindexBest.1.nHeight + pindexNew.1.nHeight + 1 < rounds)
    (h : forkSearch (blocksOver g).parent (blocksOver g).height rounds pindexBest pindexNew =
      some (.ok (pfork, vDisconnect, vConnect))) :
    pindexBest.1.findFork pindexNew.1 = .ok pfork.1 ∧
      downTo pfork.1 pindexBest.1 = vDisconnect.map Subtype.val ∧
      (downTo pfork.1 pindexNew.1).reverse = vConnect.map Subtype.val := by
  have hmap := @forkSearch_map _ _ _ _ (blocksOver g).parent (blocksOver g).height pprev
    (fun b => (b.nHeight : Int)) Subtype.val Subtype.val_injective parentOver_val (fun _ => rfl) _ _ _
    _ _ _ h
  rw [forkSearch_eq _ _ hrounds] at hmap
  cases hfork : pindexBest.1.findFork pindexNew.1 with
  | error e =>
    rw [hfork] at hmap
    cases hmap
  | ok q =>
    rw [hfork] at hmap
    simp only [Except.map, Option.some.injEq, Except.ok.injEq, Prod.mk.injEq] at hmap
    obtain ⟨rfl, hdown, hup⟩ := hmap
    exact ⟨rfl, hdown, hup⟩

theorem genesis_mem {g : BlockFields} {b c : CBlockIndex} (hb : genesis g ∈ b.ancestors)
    (hc : c ∈ b.ancestors) : genesis g ∈ c.ancestors := by
  induction b with
  | genesis f =>
    obtain rfl := List.mem_singleton.mp hc
    exact hb
  | child f p ih =>
    obtain rfl | hc := List.mem_cons.mp hc
    · exact hb
    · exact ih (mem_parent_ancestors hb fun heq => by cases heq) hc

/-- Between two blocks over one first block `Reorganize` never fails to find its fork, and it is the
lowest common one. -/
theorem findFork_lowest {g : BlockFields} {pindexBest pindexNew : CBlockIndex}
    (hbest : genesis g ∈ pindexBest.ancestors) (hnew : genesis g ∈ pindexNew.ancestors) :
    ∃ pfork, pindexBest.findFork pindexNew = .ok pfork ∧ pfork ∈ pindexBest.ancestors ∧
      pfork ∈ pindexNew.ancestors ∧
      ∀ c ∈ pindexBest.ancestors, c ∈ pindexNew.ancestors → c ∈ pfork.ancestors := by
  have hrounds : ((blocksOver g).height ⟨pindexBest, hbest⟩ - (blocksOver g).height (blocksOver g).root) +
      ((blocksOver g).height ⟨pindexNew, hnew⟩ - (blocksOver g).height (blocksOver g).root) + 1 <
        ((pindexBest.nHeight + pindexNew.nHeight + 2 : Nat) : Int) := by
    simp [blocksOver, nHeight]
  obtain ⟨f, vDisconnect, vConnect, hsearch, hlowest, -⟩ := forkSearch_spec hrounds
  obtain ⟨hfork, -⟩ := forkSearch_blocksOver (by simp) hsearch
  refine ⟨f.1, hfork, anc_blocksOver.mp hlowest.left, anc_blocksOver.mp hlowest.right,
    fun c hcbest hcnew => ?_⟩
  exact anc_blocksOver.mp (hlowest.lowest ⟨c, genesis_mem hbest hcbest⟩ (anc_blocksOver.mpr hcbest)
    (anc_blocksOver.mpr hcnew))

/-- For every tree and every two blocks of it, the loops stop with the lowest common ancestor, and the
lists are what lies between it and the two blocks, the first one from the top and the second from the
bottom. As many rounds do as the two blocks are high over the first block, and two. -/
theorem forkSearch_lowest (t : Lineage.Tree Block) (pindexBest pindexNew : Block) :
    ∃ pfork vDisconnect vConnect, t.IsLowest pfork pindexBest pindexNew ∧
      (∀ more, forkSearch t.parent t.height
        ((t.height pindexBest - t.height t.root).toNat + (t.height pindexNew - t.height t.root).toNat +
          2 + more) pindexBest pindexNew = some (.ok (pfork, vDisconnect, vConnect))) ∧
      (∀ b, b ∈ vDisconnect ↔ t.Anc b pindexBest ∧ t.Anc pfork b ∧ b ≠ pfork) ∧
      (vDisconnect.Pairwise fun b c => t.height c < t.height b) ∧
      (∀ b, b ∈ vConnect ↔ t.Anc b pindexNew ∧ t.Anc pfork b ∧ b ≠ pfork) ∧
      vConnect.Pairwise fun b c => t.height b < t.height c := by
  have hbest := t.root_le pindexBest
  have hnew := t.root_le pindexNew
  have hrun : ∀ more : Nat, (t.height pindexBest - t.height t.root) +
      (t.height pindexNew - t.height t.root) + 1 <
        (((t.height pindexBest - t.height t.root).toNat + (t.height pindexNew - t.height t.root).toNat + 2 +
          more : Nat) : Int) := by
    intro more
    omega
  obtain ⟨f, vDisconnect, vConnect, -, hlowest, hdown, hup⟩ := forkSearch_spec (hrun 0)
  refine ⟨f, vDisconnect, vConnect.reverse, hlowest, fun more => ?_, fun b => hdown.mem_iff, hdown.decreasing,
    fun b => ?_, ?_⟩
  · obtain ⟨f', vDisconnect', vConnect', hsearch, hlowest', hdown', hup'⟩ := forkSearch_spec (hrun more)
    have hf := hlowest'.unique hlowest
    subst hf
    rw [hsearch, hdown'.unique hdown, hup'.unique hup]
  · rw [List.mem_reverse, hup.mem_iff]
  · rw [List.pairwise_reverse]
    exact hup.decreasing

/-- The best block and one of another branch. -/
theorem forkSearch_lowest_branches :
    ∃ pfork, ∃ vDisconnect vConnect :
        List {b : CBlockIndex // genesis Sample.genesisIndex.fields ∈ b.ancestors},
      (blocksOver Sample.genesisIndex.fields).IsLowest pfork ⟨Sample.mainIndex, by decide⟩
        ⟨Sample.goodIndex, by decide⟩ ∧
      Sample.mainIndex.findFork Sample.goodIndex = .ok pfork.1 ∧
      downTo pfork.1 Sample.mainIndex = vDisconnect.map Subtype.val ∧
      (downTo pfork.1 Sample.goodIndex).reverse = vConnect.map Subtype.val := by
  obtain ⟨pfork, vDisconnect, vConnect, hlowest, hsearch, -⟩ := forkSearch_lowest
    (blocksOver Sample.genesisIndex.fields) ⟨Sample.mainIndex, by decide⟩ ⟨Sample.goodIndex, by decide⟩
  exact ⟨pfork, vDisconnect, vConnect, hlowest, forkSearch_blocksOver (by decide) (hsearch 0)⟩

end Triangles.ForkSearch
