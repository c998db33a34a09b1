import Mathlib.Data.List.TakeWhile
import Triangles.Proofs.FindBlock
import Triangles.Proofs.Inventory

/-! Downloading blocks: what `getblocks` and `getheaders` are answered with, and a round between two
nodes. -/

namespace Triangles.Inventory

open CBlockIndex CBlockLocator Parcel

/-! The main chain behind a block. -/

section Chain

variable {env : Env} {T : BlockTree env} {s : State} {best a : CBlockIndex}

def chainAfter (best a : CBlockIndex) : List CBlockIndex :=
  best.ancestors.reverse.drop (a.nHeight + 1)

theorem length_ancestors (p : CBlockIndex) : p.ancestors.length = p.nHeight + 1 := by
  induction p with
  | genesis f => rfl
  | child f p ih =>
    rw [ancestors, List.length_cons, ih]
    rfl

theorem ancestor_at {p : CBlockIndex} (ha : a ∈ p.ancestors) :
    p.ancestors.reverse[a.nHeight]? = some a := by
  induction p with
  | genesis f =>
    obtain rfl := List.mem_singleton.mp ha
    rfl
  | child f p ih =>
    rw [ancestors, List.reverse_cons]
    obtain rfl | ha := List.mem_cons.mp ha
    · have hlen : p.ancestors.reverse.length = (CBlockIndex.child f p).nHeight := by
        rw [List.length_reverse, length_ancestors, nHeight]
      rw [← hlen, List.getElem?_concat_length]
    · have hle := mem_ancestors_height ha
      rw [List.getElem?_append_left (by rw [List.length_reverse, length_ancestors]; omega)]
      exact ih ha

theorem mem_of_chainAfter {b : CBlockIndex} (hb : b ∈ chainAfter best a) : b ∈ best.ancestors :=
  List.mem_reverse.mp (List.mem_of_mem_drop hb)

theorem nodup_chainAfter : (chainAfter best a).Nodup :=
  (List.nodup_reverse.mpr (ancestors_nodup best)).sublist (List.drop_sublist _ _)

theorem chainAfter_cons {q : CBlockIndex} (hq : q ∈ best.ancestors)
    (hprev : q.pprev = some a) : chainAfter best a = q :: chainAfter best q := by
  have hheight : q.nHeight = a.nHeight + 1 := by
    obtain ⟨f, rfl⟩ := pprev_eq_some hprev
    rfl
  have hat := ancestor_at hq
  rw [hheight] at hat
  rw [chainAfter, chainAfter, hheight, List.drop_eq_getElem?_toList_append, hat]
  rfl

theorem chainAfter_best : chainAfter best best = [] := by
  rw [chainAfter, List.drop_eq_nil_iff, List.length_reverse, length_ancestors]

/-- The links of the main chain lead through it. -/
inductive Walk (s : State) : Option CBlockIndex → List CBlockIndex → Prop
  | stop : Walk s none []
  | next {q : CBlockIndex} {l : List CBlockIndex} (h : Walk s (s.pnext q) l) : Walk s (some q) (q :: l)

theorem walk_chainAfter (hlinked : LinkedTo s.pnext best) (n : Nat) {a : CBlockIndex}
    (ha : a ∈ best.ancestors) (hn : best.nHeight - a.nHeight ≤ n) :
    Walk s (s.pnext a) (chainAfter best a) := by
  induction n generalizing a with
  | zero =>
    have hsame : a = best :=
      same_of_height ha (self_mem_ancestors best) (by have := mem_ancestors_height ha; omega)
    subst hsame
    rw [chainAfter_best]
    cases hnext : s.pnext a with
    | none => exact .stop
    | some q =>
      obtain ⟨hq, hprev⟩ := (hlinked a q).mp hnext
      obtain ⟨f, rfl⟩ := pprev_eq_some hprev
      have hle := mem_ancestors_height hq
      rw [nHeight] at hle
      omega
  | succ n ih =>
    by_cases hbest : best = a
    · subst hbest
      exact ih ha (by omega)
    · obtain ⟨q, hq, hprev⟩ := exists_next ha hbest
      rw [chainAfter_cons hq hprev, (hlinked a q).mpr ⟨hq, hprev⟩]
      refine .next (ih hq ?_)
      obtain ⟨f, rfl⟩ := pprev_eq_some hprev
      rw [nHeight]
      omega

theorem chainAfter_drop {k : Nat} {q : CBlockIndex} (hq : (chainAfter best a)[k]? = some q) :
    chainAfter best q = (chainAfter best a).drop (k + 1) := by
  have hget := hq
  rw [chainAfter, List.getElem?_drop] at hget
  have hmem : q ∈ best.ancestors := mem_of_chainAfter (List.mem_of_getElem? hq)
  have hat := ancestor_at hmem
  -- the same block at two places of a list without duplicates
  have hnodup := List.nodup_reverse.mpr (ancestors_nodup best)
  have hheight : q.nHeight = a.nHeight + 1 + k := by
    have hlt := (List.getElem?_eq_some_iff.mp hat).1
    exact List.getElem?_inj hlt hnodup |>.mp (hat.trans hget.symm)
  rw [chainAfter, chainAfter, List.drop_drop, hheight]
  rfl

/-- What a node reads of a locator: the block is in its main chain. -/
theorem locator_main {mapBlockIndex : BlockMap} (h : BestChain T s) (hbest : s.pindexBest = some best)
    (vHave : List uint256) :
    ∃ a ∈ best.ancestors, getBlockIndex mapBlockIndex s vHave = some a := by
  have hmain : ∀ p, s.isInMainChain p = true ↔ p ∈ best.ancestors := by
    intro p
    rw [h.settled.coherent.main p, hbest]
    constructor
    · rintro ⟨_, hsame, hp⟩
      cases hsame
      exact hp
    · exact fun hp => ⟨best, rfl, hp⟩
  induction vHave with
  | nil =>
    obtain ⟨f, hgen, hf⟩ := h.genesis
    obtain ⟨p, hp, hmem, -⟩ := h.settled
    rw [hbest] at hp
    obtain rfl := Option.some.inj hp
    exact ⟨_, root_unique hf hmem, hgen⟩
  | cons hash vHave ih =>
    rw [getBlockIndex]
    cases hin : inMainChain mapBlockIndex s hash with
    | false => simpa using ih
    | true =>
      rw [inMainChain] at hin
      cases hfind : mapBlockIndex.find hash with
      | none =>
        rw [hfind] at hin
        cases hin
      | some p =>
        rw [hfind] at hin
        exact ⟨p, (hmain p).mp hin, by simp⟩

theorem locator_self {mapBlockIndex : BlockMap} (hfind : mapBlockIndex.find a.getBlockHash = some a)
    (hmain : s.isInMainChain a = true) : getBlockIndex mapBlockIndex s (CBlockLocator.set a) = some a := by
  obtain ⟨l, hset, hentries⟩ := set_entries a
  have hfirst : ∃ rest, l = a.getBlockHash :: rest := by
    cases hentries with
    | stop hplace => cases hplace
    | entry hplace _ =>
      obtain rfl : a = _ := Option.some.inj hplace
      exact ⟨_, rfl⟩
  obtain ⟨rest, rfl⟩ := hfirst
  have hin : inMainChain mapBlockIndex s a.getBlockHash = true := by
    rw [inMainChain, hfind]
    exact hmain
  rw [hset, List.cons_append, getBlockIndex, if_pos hin, hfind]

end Chain

/-! The replies. -/

section Replies

variable {env : Env} {s : State} {hashStop : uint256}

def blockInv (pindex : CBlockIndex) : CInv := ⟨MSG_BLOCK, pindex.getBlockHash⟩

def upTo (hashStop : uint256) (l : List CBlockIndex) : List CBlockIndex :=
  l.takeWhile (·.getBlockHash ≠ hashStop)

def reply (env : Env) (s : State) (hashStop : uint256) (nLimit : Nat) (l : List CBlockIndex) :
    List CInv :=
  ((upTo hashStop l).take nLimit).map blockInv ++
    if (upTo hashStop l).length < nLimit then
      (l[(upTo hashStop l).length]?.toList.filter (tellsLatest env s hashStop ·)).map fun _ =>
        ⟨MSG_BLOCK, s.hashBestChain⟩
    else []

def continueAt (hashStop : uint256) (nLimit : Nat) (l : List CBlockIndex) : Option CBlockIndex :=
  if nLimit ≤ (upTo hashStop l).length then ((upTo hashStop l).take nLimit).getLast? else none

theorem pushInventory_eq (pnode : CNode) (inv : CInv) :
    pnode.pushInventory inv = { pnode with
      vInventoryToSend := pnode.vInventoryToSend ++
        [inv].filter fun i => !pnode.setInventoryKnown.count i } := by
  unfold CNode.pushInventory
  cases hknown : pnode.setInventoryKnown.count inv <;> simp [hknown]

theorem getBlocksLoop_eq {start : Option CBlockIndex} {l : List CBlockIndex} (hwalk : Walk s start l)
    (nLimit : Nat) (pfrom : CNode) :
    getBlocksLoop env s hashStop nLimit start pfrom = { pfrom with
      vInventoryToSend := pfrom.vInventoryToSend ++
        (reply env s hashStop nLimit l).filter fun i => !pfrom.setInventoryKnown.count i
      hashContinue := ((continueAt hashStop nLimit l).map getBlockHash).getD pfrom.hashContinue } := by
  induction nLimit generalizing start l pfrom with
  | zero =>
    simp [getBlocksLoop, reply, continueAt]
  | succ nLimit ih =>
    cases hwalk with
    | stop => simp [getBlocksLoop, reply, continueAt, upTo]
    | @next q l hnext =>
      rw [getBlocksLoop]
      by_cases hstop : q.getBlockHash = hashStop
      · -- it stops here
        rw [if_pos hstop]
        have hnone : upTo hashStop (q :: l) = [] := by simp [upTo, hstop]
        cases hlatest : tellsLatest env s hashStop q with
        | true =>
          rw [if_pos rfl, pushInventory_eq]
          simp [reply, continueAt, hnone, hlatest]
        | false => simp [reply, continueAt, hnone, hlatest]
      · rw [if_neg hstop]
        have hcons : upTo hashStop (q :: l) = q :: upTo hashStop l := by simp [upTo, hstop]
        rw [pushInventory_eq]
        by_cases hlast : nLimit = 0
        · subst hlast
          simp [reply, continueAt, hcons, blockInv]
        · have hcontinue : continueAt hashStop (nLimit + 1) (q :: l) = continueAt hashStop nLimit l := by
            unfold continueAt
            rw [hcons, List.length_cons, List.take_succ_cons]
            by_cases hfull : nLimit ≤ (upTo hashStop l).length
            · rw [if_pos hfull, if_pos (Nat.succ_le_succ hfull)]
              cases htake : (upTo hashStop l).take nLimit with
              | nil =>
                have hlen := congrArg List.length htake
                rw [List.length_take, List.length_nil] at hlen
                omega
              | cons p rest => rfl
            · rw [if_neg hfull, if_neg (by omega)]
          have hreply : reply env s hashStop (nLimit + 1) (q :: l) =
              [blockInv q] ++ reply env s hashStop nLimit l := by
            simp [reply, hcons]
          rw [if_neg hlast, ih hnext, hcontinue, hreply, List.filter_append, ← List.append_assoc]
          rfl

theorem getHeadersLoop_eq {start : Option CBlockIndex} {l : List CBlockIndex} (hwalk : Walk s start l)
    (nLimit : Nat) :
    getHeadersLoop s hashStop nLimit start =
      (l.take (min nLimit ((upTo hashStop l).length + 1))).map getBlockHeader := by
  induction nLimit generalizing start l with
  | zero => simp [getHeadersLoop]
  | succ nLimit ih =>
    cases hwalk with
    | stop => simp [getHeadersLoop]
    | @next q l hnext =>
      rw [getHeadersLoop]
      by_cases hstop : q.getBlockHash = hashStop
      · have hnone : upTo hashStop (q :: l) = [] := by simp [upTo, hstop]
        simp [hstop, hnone]
      · have hcons : upTo hashStop (q :: l) = q :: upTo hashStop l := by simp [upTo, hstop]
        by_cases hlast : nLimit = 0
        · simp [hlast]
        · rw [if_neg (by simp [hlast, hstop]), ih hnext, hcons, List.length_cons,
            Nat.add_min_add_right, List.take_succ_cons, List.map_cons]

end Replies

/-! A round between two nodes. -/

section Round

variable {pto pfrom : CNode} {l : List CInv}

def announcement (vInv : List CInv) : List Message := if vInv = [] then [] else [.inv vInv]

theorem round_block {w : InvLoop} {inv : CInv} (fSendTrickle : Bool) (wait : CInv → Bool)
    (hblock : inv.type = MSG_BLOCK) (hunknown : w.setInventoryKnown.count inv = false) :
    w.round fSendTrickle wait inv =
      ⟨(w.setInventoryKnown.insert inv).1, push 1000 w.vInv inv, w.vInvWait⟩ := by
  have htype : ¬ (inv.type = MSG_TX ∧ fSendTrickle = false ∧ wait inv = true) := by
    rw [hblock]
    exact fun hc => absurd hc.1 (by decide)
  have htrue := (mruset.insert_new hunknown).1
  rw [InvLoop.round, if_neg (by rw [hunknown]; exact Bool.false_ne_true), if_neg htype]
  cases hins : w.setInventoryKnown.insert inv with
  | mk known fNew =>
    rw [hins] at htrue
    obtain rfl : fNew = true := htrue
    rfl

/-- Blocks that are not known all go out, and only they become known. -/
theorem invLoop_blocks (fSendTrickle : Bool) (wait : CInv → Bool) {l : List CInv} {w : InvLoop}
    (hblocks : ∀ inv ∈ l, inv.type = MSG_BLOCK)
    (hnew : ∀ inv ∈ l, w.setInventoryKnown.count inv = false) (hnodup : l.Nodup) :
    ∃ known, l.foldl (InvLoop.round fSendTrickle wait) w =
        ⟨known, l.foldl (push 1000) w.vInv, w.vInvWait⟩ ∧
      ∀ i, known.count i = true → w.setInventoryKnown.count i = true ∨ i ∈ l := by
  induction l generalizing w with
  | nil => exact ⟨_, rfl, fun i hi => .inl hi⟩
  | cons inv l ih =>
    obtain ⟨hfirst, hrest⟩ := List.nodup_cons.mp hnodup
    have hunknown := hnew inv List.mem_cons_self
    rw [List.foldl_cons, round_block fSendTrickle wait (hblocks inv List.mem_cons_self) hunknown]
    obtain ⟨known, hfold, hknown⟩ := @ih
      ⟨(w.setInventoryKnown.insert inv).1, push 1000 w.vInv inv, w.vInvWait⟩
      (fun i hi => hblocks i (List.mem_cons_of_mem _ hi)) (fun i hi => by
        rw [Bool.eq_false_iff]
        intro hcount
        obtain rfl | hold := mruset.count_insert i hcount
        · exact hfirst hi
        · rw [hnew i (List.mem_cons_of_mem _ hi)] at hold
          cases hold) hrest
    refine ⟨known, hfold, fun i hi => ?_⟩
    obtain hcount | hmem := hknown i hi
    · obtain rfl | hold := mruset.count_insert i hcount
      · exact .inr List.mem_cons_self
      · exact .inl hold
    · exact .inr (List.mem_cons_of_mem _ hmem)

theorem sendInventory_blocks (fSendTrickle : Bool) (wait : CInv → Bool)
    (hblocks : ∀ inv ∈ pto.vInventoryToSend, inv.type = MSG_BLOCK)
    (hnew : ∀ inv ∈ pto.vInventoryToSend, pto.setInventoryKnown.count inv = false)
    (hnodup : pto.vInventoryToSend.Nodup) (hshort : pto.vInventoryToSend.length < 1000) :
    ∃ known, sendInventory fSendTrickle wait pto = { pto with
        setInventoryKnown := known
        vInventoryToSend := []
        vSend := pto.vSend ++ announcement pto.vInventoryToSend } ∧
      ∀ i, known.count i = true →
        pto.setInventoryKnown.count i = true ∨ i ∈ pto.vInventoryToSend := by
  obtain ⟨known, hfold, hknown⟩ := @invLoop_blocks fSendTrickle wait pto.vInventoryToSend
    ⟨pto.setInventoryKnown, ([], []), []⟩ hblocks hnew hnodup
  have hshort' := foldl_push_short pto.vInventoryToSend [] (by rwa [List.nil_append])
  rw [List.nil_append] at hshort'
  refine ⟨known, ?_, hknown⟩
  simp only [sendInventory, hfold, hshort', close, announcement, List.isEmpty_iff]
  split <;> simp

theorem multimapInsert_last {e : Int × CInv} {m : List (Int × CInv)} (h : ∀ a ∈ m, a.1 ≤ e.1) :
    multimapInsert e m = m ++ [e] := by
  induction m with
  | nil => rfl
  | cons a m ih =>
    have hle := h a List.mem_cons_self
    rw [multimapInsert, List.orderedInsert_cons, if_neg (by omega)]
    exact congrArg (a :: ·) (ih fun b hb => h b (List.mem_cons_of_mem _ hb))

/-- An `inv` message about things that were never asked for: they are asked for in their order, at
times up to a limit. -/
theorem receiveInvs_new {env : Env} {n : BlockNode} {o : OrphanTxs} {nTime : Nat → Int}
    {nLastBlock : Option Nat} {limit : Int} (hlimit : 120000000 ≤ limit)
    (hclock : ∀ i, nTime i * 1000000 ≤ limit) (vInv : List CInv) {nInv : Nat} {t : AskTimes}
    {pfrom : CNode} (hmissing : ∀ inv ∈ vInv, alreadyHave n o inv = false)
    (hnew : ∀ inv ∈ vInv, t.mapAlreadyAskedFor inv = 0) (hnodup : vInv.Nodup)
    (hlen : t.nLastTime + vInv.length ≤ limit) (hshort : vInv.length ≤ 1000000)
    (htimes : ∀ e ∈ pfrom.mapAskFor, e.1 ≤ max 120000000 t.nLastTime) :
    ∃ t' known asked, receiveInvs env n o nTime nLastBlock nInv vInv t pfrom =
        (t', { pfrom with
          setInventoryKnown := known
          mapAskFor := pfrom.mapAskFor ++ asked }) ∧
      asked.map Prod.snd = vInv ∧ ∀ e ∈ asked, e.1 ≤ limit := by
  induction vInv generalizing nInv t pfrom with
  | nil => exact ⟨t, _, [], by rw [receiveInvs, List.append_nil], rfl, by simp⟩
  | cons inv vInv ih =>
    obtain ⟨hfirst, hrest⟩ := List.nodup_cons.mp hnodup
    have hzero := hnew inv List.mem_cons_self
    have hnow := hclock nInv
    rw [List.length_cons] at hlen hshort
    let nNow := max ((nTime nInv - 1) * 1000000) (t.nLastTime + 1)
    let nRequestTime := max (t.mapAlreadyAskedFor inv + 2 * 60 * 1000000) nNow
    have hlast : multimapInsert (nRequestTime, inv) pfrom.mapAskFor =
        pfrom.mapAskFor ++ [(nRequestTime, inv)] := by
      apply multimapInsert_last
      intro e he
      have hle := htimes e he
      dsimp only [nRequestTime, nNow]
      omega
    have hround : receiveInv env n o (nTime nInv) (nLastBlock == some nInv) inv t pfrom =
        (⟨Function.update t.mapAlreadyAskedFor inv nRequestTime, nNow⟩,
          { pfrom with
            setInventoryKnown := (pfrom.setInventoryKnown.insert inv).1
            mapAskFor := pfrom.mapAskFor ++ [(nRequestTime, inv)] }) := by
      rw [receiveInv, if_pos (hmissing inv List.mem_cons_self), ← hlast]
      rfl
    rw [receiveInvs, hround]
    obtain ⟨t', known, asked, heq, hmap, hasked⟩ := @ih (nInv + 1)
      ⟨Function.update t.mapAlreadyAskedFor inv nRequestTime, nNow⟩ ({ pfrom with
        setInventoryKnown := (pfrom.setInventoryKnown.insert inv).1
        mapAskFor := pfrom.mapAskFor ++ [(nRequestTime, inv)] })
      (fun i hi => hmissing i (List.mem_cons_of_mem _ hi)) (fun i hi => by
        have hne : i ≠ inv := fun he => hfirst (he ▸ hi)
        dsimp only
        rw [Function.update_of_ne hne]
        exact hnew i (List.mem_cons_of_mem _ hi)) hrest (by dsimp only [nNow]; omega) (by omega)
      (fun e he => by
        obtain he | he := List.mem_append.mp he
        · have hle := htimes e he
          dsimp only [nNow]
          omega
        · rw [List.mem_singleton.mp he]
          dsimp only [nRequestTime, nNow]
          omega)
    refine ⟨t', known, (nRequestTime, inv) :: asked, ?_, by rw [List.map_cons, hmap], ?_⟩
    · dsimp only
      rw [heq]
      simp
    · intro e he
      obtain rfl | he := List.mem_cons.mp he
      · dsimp only [nRequestTime, nNow]
        omega
      · exact hasked e he

/-- All that is due and missing goes into one message when it is little. -/
theorem sendGetData_due {have' : CInv → Bool} {nTime : Int} (t : AskTimes)
    (hmissing : ∀ e ∈ pto.mapAskFor, have' e.2 = false)
    (hdue : ∀ e ∈ pto.mapAskFor, e.1 ≤ nTime * 1000000) (hshort : pto.mapAskFor.length < 1000)
    (hne : pto.mapAskFor ≠ []) :
    (sendGetData have' nTime t pto).2 = { pto with
      mapAskFor := []
      vSend := pto.vSend ++ [.getdata (pto.mapAskFor.map Prod.snd)] } := by
  have hloop : ∀ (m : List (Int × CInv)) (v : Parcels CInv) (t : AskTimes),
      (∀ e ∈ m, have' e.2 = false) → (∀ e ∈ m, e.1 ≤ nTime * 1000000) →
      ∃ t', getDataLoop have' (nTime * 1000000) m v t =
        ([], (m.map Prod.snd).foldl (push 1000) v, t') := by
    intro m
    induction m with
    | nil => exact fun v t _ _ => ⟨t, rfl⟩
    | cons e m ih =>
      intro v t hmissing hdue
      obtain ⟨t', heq⟩ := ih (push 1000 v e.2)
        { t with mapAlreadyAskedFor := Function.update t.mapAlreadyAskedFor e.2 (nTime * 1000000) }
        (fun i hi => hmissing i (List.mem_cons_of_mem _ hi))
        (fun i hi => hdue i (List.mem_cons_of_mem _ hi))
      refine ⟨t', ?_⟩
      rw [getDataLoop, if_pos (hdue e List.mem_cons_self), hmissing e List.mem_cons_self,
        if_neg Bool.false_ne_true, heq, List.map_cons, List.foldl_cons]
  obtain ⟨t', heq⟩ := hloop pto.mapAskFor ([], []) t hmissing hdue
  have hshort' := foldl_push_short (pto.mapAskFor.map Prod.snd) []
    (by rwa [List.nil_append, List.length_map])
  rw [List.nil_append] at hshort'
  simp only [sendGetData, heq, hshort', close, List.isEmpty_iff, List.map_eq_nil_iff, hne, if_false,
    List.nil_append, List.map_cons, List.map_nil]

theorem answer_blocks {n : BlockNode} {relay : CInv → Bool} (blocks : List CBlockIndex)
    (hfind : ∀ b ∈ blocks, n.mapBlockIndex.find b.getBlockHash = some b)
    (hcontinue : ∀ b ∈ blocks, b.getBlockHash ≠ pfrom.hashContinue) :
    (blocks.map blockInv).foldl (answer n relay) pfrom =
      { pfrom with vSend := pfrom.vSend ++ blocks.map .block } := by
  induction blocks generalizing pfrom with
  | nil => rw [List.map_nil, List.foldl_nil, List.map_nil, List.append_nil]
  | cons b blocks ih =>
    have hone : answer n relay pfrom (blockInv b) = pfrom.pushMessage (.block b) := by
      have hne := hcontinue b List.mem_cons_self
      have hb : n.mapBlockIndex.find (blockInv b).hash = some b := hfind b List.mem_cons_self
      have hblock : (blockInv b).type = MSG_BLOCK := rfl
      rw [answer, if_pos hblock, hb]
      exact if_neg hne
    rw [List.map_cons, List.foldl_cons, hone, @ih (pfrom.pushMessage (.block b))
      (fun i hi => hfind i (List.mem_cons_of_mem _ hi))
      fun i hi => hcontinue i (List.mem_cons_of_mem _ hi)]
    simp [CNode.pushMessage]

end Round

/-! The answers of a node. -/

section Answers

variable {env : Env} {T : BlockTree env} {n : BlockNode} {best : CBlockIndex}

/-- The node holds the blocks of the tree, and its chain is settled. -/
structure Serves (T : BlockTree env) (n : BlockNode) (best : CBlockIndex) : Prop where
  chain : BestChain T n.toState
  map : ∀ hash p, n.mapBlockIndex.find hash = some p ↔ T.mem p ∧ p.getBlockHash = hash
  best : n.pindexBest = some best

theorem Serves.mem (h : Serves T n best) {b : CBlockIndex} (hb : b ∈ best.ancestors) : T.mem b := by
  obtain ⟨p, hp, hmem, -⟩ := h.chain.settled
  rw [h.best] at hp
  obtain rfl := Option.some.inj hp
  exact T.ancestor_mem hmem hb

theorem Serves.find (h : Serves T n best) {b : CBlockIndex} (hb : b ∈ best.ancestors) :
    n.mapBlockIndex.find b.getBlockHash = some b := (h.map _ b).mpr ⟨h.mem hb, rfl⟩

theorem Serves.walk (h : Serves T n best) {a : CBlockIndex} (ha : a ∈ best.ancestors) :
    Walk n.toState (n.pnext a) (chainAfter best a) := by
  obtain ⟨p, hp, -, -, -, hat⟩ := h.chain.settled
  rw [h.best] at hp
  obtain rfl := Option.some.inj hp
  exact walk_chainAfter hat.linked _ ha (Nat.le_refl _)

theorem Serves.inMainChain (h : Serves T n best) {a : CBlockIndex} (ha : a ∈ best.ancestors) :
    n.isInMainChain a = true := (h.chain.settled.coherent.main a).mpr ⟨best, h.best, ha⟩

theorem Serves.upTo_zero (h : Serves T n best) (a : CBlockIndex) :
    upTo 0 (chainAfter best a) = chainAfter best a := by
  apply List.takeWhile_eq_self_iff.mpr
  intro b hb
  simpa using T.hash_ne_zero (h.mem (mem_of_chainAfter hb))

/-- Whatever locator a node sends, the reply to `getblocks` is about the chain behind a block of the
main chain: up to the block with the stop hash, in its order, 500 blocks at most of which the last is
remembered. The reply to `getheaders` is about 2000 of the same blocks, with the one that has the stop
hash. Without a locator it is the header of that block, if there is one. -/
theorem getblocks_reply (h : Serves T n best) (vHave : List uint256) (hashStop : uint256)
    (pfrom : CNode) :
    ∃ a ∈ best.ancestors, getBlockIndex n.mapBlockIndex n.toState vHave = some a ∧
      processGetBlocks env n vHave hashStop pfrom = { pfrom with
        vInventoryToSend := pfrom.vInventoryToSend ++
          (reply env n.toState hashStop 500 (chainAfter best a)).filter fun i =>
            !pfrom.setInventoryKnown.count i
        hashContinue := ((continueAt hashStop 500 (chainAfter best a)).map getBlockHash).getD
          pfrom.hashContinue } ∧
      (vHave ≠ [] → processGetHeaders n vHave hashStop pfrom = pfrom.pushMessage (.headers
        (((chainAfter best a).take (min 2000 ((upTo hashStop (chainAfter best a)).length + 1))).map
          getBlockHeader))) ∧
      (vHave = [] → processGetHeaders n vHave hashStop pfrom =
        (n.mapBlockIndex.find hashStop).elim pfrom fun pindex =>
          pfrom.pushMessage (.headers [pindex.getBlockHeader])) := by
  obtain ⟨a, ha, hindex⟩ := @locator_main _ _ _ _ n.mapBlockIndex h.chain h.best vHave
  refine ⟨a, ha, hindex, ?_, fun hne => ?_, fun hnull => ?_⟩
  · rw [processGetBlocks, hindex, Option.bind_some]
    exact getBlocksLoop_eq (h.walk ha) 500 pfrom
  · rw [processGetHeaders, if_neg hne, hindex, Option.bind_some, getHeadersLoop_eq (h.walk ha)]
  · rw [processGetHeaders, if_pos hnull]
    cases hfind : n.mapBlockIndex.find hashStop with
    | none => rfl
    | some pindex =>
      have hhash := ((h.map hashStop pindex).mp hfind).2
      simp [getHeadersLoop, hhash]

def batch (best a : CBlockIndex) : List CBlockIndex := (chainAfter best a).take 500

def position (best a : CBlockIndex) : Nat → CBlockIndex
  | 0 => a
  | k + 1 => (batch best (position best a k)).getLast?.getD (position best a k)

theorem position_spec {a : CBlockIndex} (ha : a ∈ best.ancestors) (k : Nat) :
    position best a k ∈ best.ancestors ∧
      chainAfter best (position best a k) = (chainAfter best a).drop (500 * k) := by
  induction k with
  | zero => exact ⟨ha, List.drop_zero.symm⟩
  | succ k ih =>
    obtain ⟨hmem, hdrop⟩ := ih
    rw [position]
    cases hlast : (batch best (position best a k)).getLast? with
    | none =>
      refine ⟨hmem, ?_⟩
      have hnil : (chainAfter best (position best a k)).take 500 = [] :=
        List.getLast?_eq_none_iff.mp hlast
      have hempty : chainAfter best (position best a k) = [] := by simpa using hnil
      rw [Option.getD_none, hempty]
      rw [hempty] at hdrop
      rw [show 500 * (k + 1) = 500 * k + 500 by omega, ← List.drop_drop, ← hdrop]
      rfl
    | some q =>
      rw [List.getLast?_eq_getElem?, batch] at hlast
      have hlt := (List.getElem?_eq_some_iff.mp hlast).1
      rw [List.getElem?_take_of_lt (by rw [List.length_take] at hlt ⊢; omega)] at hlast
      have hq := mem_of_chainAfter (List.mem_of_getElem? hlast)
      rw [Option.getD_some]
      refine ⟨hq, ?_⟩
      rw [chainAfter_drop hlast, hdrop, List.drop_drop, List.length_take, List.length_drop]
      by_cases hfull : 500 * (k + 1) ≤ (chainAfter best a).length
      · congr 1
        omega
      · rw [List.drop_eq_nil_of_le (by omega), List.drop_eq_nil_of_le (by omega)]

theorem batch_position {a : CBlockIndex} (ha : a ∈ best.ancestors) (k : Nat) :
    batch best (position best a k) = ((chainAfter best a).drop (500 * k)).take 500 := by
  rw [batch, (position_spec ha k).2]

theorem batches_taken {a : CBlockIndex} (ha : a ∈ best.ancestors) (rounds : Nat) :
    (List.range rounds).flatMap (fun k => batch best (position best a k)) =
      (chainAfter best a).take (500 * rounds) := by
  induction rounds with
  | zero => simp
  | succ rounds ih =>
    rw [List.range_succ, List.flatMap_append, ih, List.flatMap_singleton, batch_position ha,
      ← List.take_add]
    rfl

theorem continueAt_batch (h : Serves T n best) (a : CBlockIndex) :
    continueAt 0 500 (chainAfter best a) =
      if (batch best a).length = 500 then (batch best a).getLast? else none := by
  rw [continueAt, h.upTo_zero, batch, List.length_take]
  by_cases hfull : 500 ≤ (chainAfter best a).length
  · rw [if_pos hfull, if_pos (by omega)]
  · rw [if_neg hfull, if_neg (by omega)]

theorem mem_of_batch {a b : CBlockIndex} (hb : b ∈ batch best a) : b ∈ best.ancestors :=
  mem_of_chainAfter (List.mem_of_mem_take hb)

theorem length_batch_le (best a : CBlockIndex) : (batch best a).length ≤ 500 := by
  rw [batch, List.length_take]
  exact Nat.min_le_left _ _

theorem nodup_batch_inv (h : Serves T n best) (a : CBlockIndex) : ((batch best a).map blockInv).Nodup := by
  refine List.Nodup.map_on (fun x hx y hy heq => ?_) (nodup_chainAfter.sublist (List.take_sublist _ _))
  have hhash : x.getBlockHash = y.getBlockHash := congrArg CInv.hash heq
  exact T.hash_inj (h.mem (mem_of_batch hx)) (h.mem (mem_of_batch hy)) hhash

end Answers

/-! The side of a round that answers. -/

section Answering

variable {env : Env} {T : BlockTree env} {n : BlockNode} {best a : CBlockIndex} {sv : CNode}
  {vHave : List uint256}

/-- The node has nothing queued for the other, and these blocks are not known to it. -/
structure AnswersFresh (blocks : List CBlockIndex) (sv : CNode) : Prop where
  queue : sv.vInventoryToSend = []
  unknown : ∀ b ∈ blocks, sv.setInventoryKnown.count (blockInv b) = false
  hashContinue : ∀ b ∈ blocks, b.getBlockHash ≠ sv.hashContinue

theorem AnswersFresh.mono {blocks more : List CBlockIndex} (h : AnswersFresh blocks sv)
    (hsub : more ⊆ blocks) : AnswersFresh more sv :=
  ⟨h.queue, fun b hb => h.unknown b (hsub hb), fun b hb => h.hashContinue b (hsub hb)⟩

/-- What is remembered after a reply: the last block of a full one. -/
def continuesAt (best a : CBlockIndex) (sv : CNode) : uint256 :=
  ((if (batch best a).length = 500 then (batch best a).getLast? else none).map getBlockHash).getD
    sv.hashContinue

theorem processGetBlocks_fresh (h : Serves T n best) (ha : a ∈ best.ancestors)
    (hlocator : getBlockIndex n.mapBlockIndex n.toState vHave = some a)
    (hsv : AnswersFresh (batch best a) sv) :
    processGetBlocks env n vHave 0 sv = { sv with
      vInventoryToSend := (batch best a).map blockInv
      hashContinue := continuesAt best a sv } := by
  rw [processGetBlocks, hlocator, Option.bind_some, getBlocksLoop_eq (h.walk ha), reply, h.upTo_zero,
    List.getElem?_eq_none (Nat.le_refl _), hsv.queue, continueAt_batch h, continuesAt]
  have hall : ((batch best a).map blockInv).filter (fun i => !sv.setInventoryKnown.count i) =
      (batch best a).map blockInv := by
    apply List.filter_eq_self.mpr
    intro inv hinv
    obtain ⟨b, hb, rfl⟩ := List.mem_map.mp hinv
    simp [hsv.unknown b hb]
  have hreply : ((chainAfter best a).take 500).map blockInv = (batch best a).map blockInv := rfl
  simp [hreply, hall]

theorem announce_round (h : Serves T n best) (ha : a ∈ best.ancestors)
    (hlocator : getBlockIndex n.mapBlockIndex n.toState vHave = some a)
    (hsv : AnswersFresh (batch best a) sv) (fSendTrickle : Bool) (wait : CInv → Bool) :
    ∃ known, sendInventory fSendTrickle wait (processGetBlocks env n vHave 0 sv) = { sv with
        setInventoryKnown := known
        vInventoryToSend := []
        hashContinue := continuesAt best a sv
        vSend := sv.vSend ++ announcement ((batch best a).map blockInv) } ∧
      ∀ i, known.count i = true →
        sv.setInventoryKnown.count i = true ∨ i ∈ (batch best a).map blockInv := by
  have hle := length_batch_le best a
  have hblocks : ∀ inv ∈ (batch best a).map blockInv,
      inv.type = MSG_BLOCK ∧ sv.setInventoryKnown.count inv = false := by
    intro inv hinv
    obtain ⟨b, hb, rfl⟩ := List.mem_map.mp hinv
    exact ⟨rfl, hsv.unknown b hb⟩
  rw [processGetBlocks_fresh h ha hlocator hsv]
  exact @sendInventory_blocks { sv with
      vInventoryToSend := (batch best a).map blockInv
      hashContinue := continuesAt best a sv } fSendTrickle wait (fun inv hinv => (hblocks inv hinv).1)
    (fun inv hinv => (hblocks inv hinv).2) (nodup_batch_inv h a)
    (by rw [List.length_map]; omega)

/-- What is sent for the blocks of a round; the last of a full one brings the latest proof-of-work
block with it. -/
def answers (best a : CBlockIndex) : List Message :=
  (batch best a).map .block ++
    if (batch best a).length = 500 then
      [.inv [⟨MSG_BLOCK, (getLastBlockIndex false best).getBlockHash⟩]]
    else []

theorem answer_batch (h : Serves T n best) {relay : CInv → Bool} {pfrom : CNode}
    (hsv : AnswersFresh (batch best a) sv) (hcontinue : pfrom.hashContinue = continuesAt best a sv) :
    ((batch best a).map blockInv).foldl (answer n relay) pfrom = { pfrom with
      vSend := pfrom.vSend ++ answers best a
      hashContinue := if (batch best a).length = 500 then 0 else sv.hashContinue } := by
  have hfinds : ∀ b ∈ batch best a, n.mapBlockIndex.find b.getBlockHash = some b :=
    fun b hb => h.find (mem_of_batch hb)
  have hnodup := nodup_batch_inv h a
  rw [continuesAt] at hcontinue
  rw [answers]
  by_cases hlen : (batch best a).length = 500
  · rw [if_pos hlen] at hcontinue ⊢
    rw [if_pos hlen]
    generalize batch best a = blocks at hfinds hnodup hlen hcontinue ⊢
    obtain rfl | ⟨init, last, rfl⟩ := List.eq_nil_or_concat blocks
    · cases hlen
    · simp only [List.concat_eq_append] at hfinds hnodup hcontinue ⊢
      rw [List.getLast?_append, List.getLast?_singleton] at hcontinue
      change pfrom.hashContinue = last.getBlockHash at hcontinue
      rw [List.map_append, List.nodup_append] at hnodup
      obtain ⟨-, -, hdisjoint⟩ := hnodup
      have hinit := @answer_blocks pfrom _ relay init
        (fun b hb => hfinds b (List.mem_append_left _ hb))
        (fun b hb hhash => hdisjoint _ (List.mem_map_of_mem hb) _ (List.mem_singleton_self _) (by
          rw [blockInv, hhash, hcontinue]
          rfl))
      rw [List.map_append, List.foldl_append, hinit]
      have hfind := hfinds last (List.mem_append_right _ (List.mem_singleton_self _))
      have hblock : (blockInv last).type = MSG_BLOCK := rfl
      have htrigger : (blockInv last).hash = pfrom.hashContinue := hcontinue.symm
      rw [← hcontinue] at hfind
      simp [answer, hblock, hfind, htrigger, h.best, CNode.pushMessage]
  · rw [if_neg hlen] at hcontinue ⊢
    rw [if_neg hlen]
    change pfrom.hashContinue = sv.hashContinue at hcontinue
    rw [answer_blocks _ hfinds fun b hb => hcontinue ▸ hsv.hashContinue b hb, List.append_nil,
      ← hcontinue]

theorem processGetData_batch (h : Serves T n best) {relay : CInv → Bool} {pfrom : CNode}
    (hsv : AnswersFresh (batch best a) sv) (hcontinue : pfrom.hashContinue = continuesAt best a sv) :
    processGetData n relay ((batch best a).map blockInv) pfrom = .ok { pfrom with
      vSend := pfrom.vSend ++ answers best a
      hashContinue := if (batch best a).length = 500 then 0 else sv.hashContinue } := by
  have hle := length_batch_le best a
  rw [processGetData, if_neg (by rw [List.length_map, MAX_INV_SZ]; omega),
    answer_batch h hsv hcontinue]

theorem AnswersFresh.next (ha : a ∈ best.ancestors) {k : Nat}
    (hsv : AnswersFresh ((chainAfter best a).drop (500 * k)) sv) :
    AnswersFresh (batch best (position best a k)) sv := by
  refine hsv.mono fun b hb => ?_
  rw [batch_position ha] at hb
  exact List.mem_of_mem_take hb

theorem AnswersFresh.continuesAt_mem (hsv : AnswersFresh (batch best a) sv) :
    (∃ b ∈ batch best a, b.getBlockHash = continuesAt best a sv) ↔ (batch best a).length = 500 := by
  rw [continuesAt]
  by_cases hfull : (batch best a).length = 500
  · rw [if_pos hfull]
    refine iff_of_true ?_ hfull
    cases hlast : (batch best a).getLast? with
    | none =>
      rw [List.getLast?_eq_none_iff.mp hlast] at hfull
      cases hfull
    | some q => exact ⟨q, List.mem_of_getLast? hlast, rfl⟩
  · rw [if_neg hfull]
    refine iff_of_false ?_ hfull
    rintro ⟨b, hb, hhash⟩
    exact hsv.hashContinue b hb hhash

/-- A round with a node that asks from the last block it was told of: its request, the announcement,
and its requests for the blocks. -/
def answerRound (env : Env) (n : BlockNode) (best a : CBlockIndex) (fSendTrickle : Nat → Bool)
    (wait : Nat → CInv → Bool) (relay : CInv → Bool) (sv : CNode) (k : Nat) : Except Reject CNode :=
  processGetData n relay ((batch best (position best a k)).map blockInv)
    (sendInventory (fSendTrickle k) (wait k)
      (processGetBlocks env n (CBlockLocator.set (position best a k)) 0 sv))

theorem answerRound_spec (h : Serves T n best) (ha : a ∈ best.ancestors) {k : Nat}
    (hsv : AnswersFresh ((chainAfter best a).drop (500 * k)) sv) (fSendTrickle : Nat → Bool)
    (wait : Nat → CInv → Bool) (relay : CInv → Bool) :
    ∃ sv', answerRound env n best a fSendTrickle wait relay sv k = .ok sv' ∧
      sv'.vSend = sv.vSend ++ (announcement ((batch best (position best a k)).map blockInv) ++
        answers best (position best a k)) ∧
      AnswersFresh ((chainAfter best a).drop (500 * (k + 1))) sv' := by
  obtain ⟨hmem, hdrop⟩ := position_spec ha k
  have hbatch := hsv.next ha
  obtain ⟨known, hannounced, hknown⟩ := announce_round h hmem
    (locator_self (h.find hmem) (h.inMainChain hmem)) hbatch (fSendTrickle k) (wait k)
  have hanswered := @processGetData_batch _ _ _ _ _ _ h relay _ hbatch
    (congrArg CNode.hashContinue hannounced)
  refine ⟨_, hanswered, ?_, ?_⟩
  · rw [hannounced]
    exact List.append_assoc _ _ _
  · -- what is left of the chain is not in the round
    have hrest : ∀ b ∈ (chainAfter best a).drop (500 * (k + 1)),
        b ∈ (chainAfter best a).drop (500 * k) ∧ b ∉ batch best (position best a k) := by
      intro b hb
      rw [show 500 * (k + 1) = 500 * k + 500 by omega, ← List.drop_drop] at hb
      refine ⟨List.mem_of_mem_drop hb, fun hmem => ?_⟩
      rw [batch_position ha] at hmem
      have hnodup : ((chainAfter best a).drop (500 * k)).Nodup :=
        nodup_chainAfter.sublist (List.drop_sublist _ _)
      exact List.disjoint_take_drop hnodup (le_refl 500) hmem hb
    refine ⟨by rw [hannounced], fun b hb => ?_, fun b hb => ?_⟩
    · obtain ⟨hold, hnew⟩ := hrest b hb
      rw [Bool.eq_false_iff]
      rw [hannounced]
      intro hcount
      obtain hcount | hin := hknown _ hcount
      · rw [hsv.unknown b hold] at hcount
        cases hcount
      · obtain ⟨b', hb', heq⟩ := List.mem_map.mp hin
        have hhash : b'.getBlockHash = b.getBlockHash := congrArg CInv.hash heq
        have hsame := T.hash_inj (h.mem (mem_of_batch hb'))
          (h.mem (mem_of_chainAfter (List.mem_of_mem_drop hold))) hhash
        exact hnew (hsame ▸ hb')
    · dsimp only
      split
      · exact T.hash_ne_zero (h.mem (mem_of_chainAfter (List.mem_of_mem_drop hb)))
      · exact hsv.hashContinue b (hrest b hb).1

theorem answerRounds_spec (h : Serves T n best) (ha : a ∈ best.ancestors)
    (hsv : AnswersFresh (chainAfter best a) sv) (fSendTrickle : Nat → Bool) (wait : Nat → CInv → Bool)
    (relay : CInv → Bool) (rounds : Nat) :
    ∃ sv', (List.range rounds).foldlM (answerRound env n best a fSendTrickle wait relay) sv = .ok sv' ∧
      sv'.vSend = sv.vSend ++ (List.range rounds).flatMap (fun k =>
        announcement ((batch best (position best a k)).map blockInv) ++
          answers best (position best a k)) ∧
      AnswersFresh ((chainAfter best a).drop (500 * rounds)) sv' := by
  induction rounds with
  | zero => exact ⟨sv, rfl, by simp, hsv⟩
  | succ rounds ih =>
    obtain ⟨sv₁, hrun₁, hsent₁, hfresh₁⟩ := ih
    obtain ⟨sv', hround, hsent, hfresh⟩ := answerRound_spec h ha hfresh₁ fSendTrickle wait relay
    refine ⟨sv', ?_, ?_, hfresh⟩
    · rw [List.range_succ, List.foldlM_append, hrun₁]
      change List.foldlM (answerRound env n best a fSendTrickle wait relay) sv₁ [rounds] = _
      rw [List.foldlM_cons, hround]
      rfl
    · rw [hsent, hsent₁, List.range_succ, List.flatMap_append, List.flatMap_singleton,
        List.append_assoc]

/-- A node that asks again and again from the last block it was told of is told the rest of the main
chain, each block once and in order, and gets the blocks. There is more to come exactly where the reply
says so. -/
theorem getblocks_batches (h : Serves T n best) (ha : a ∈ best.ancestors)
    (hsv : AnswersFresh (chainAfter best a) sv) (fSendTrickle : Nat → Bool) (wait : Nat → CInv → Bool)
    (relay : CInv → Bool) (rounds : Nat) :
    ∃ sv', (List.range rounds).foldlM (answerRound env n best a fSendTrickle wait relay) sv = .ok sv' ∧
      sv'.vSend = sv.vSend ++ (List.range rounds).flatMap (fun k =>
        announcement ((batch best (position best a k)).map blockInv) ++
          answers best (position best a k)) ∧
      (List.range rounds).flatMap (fun k => batch best (position best a k)) =
        (chainAfter best a).take (500 * rounds) ∧
      let asked := processGetBlocks env n (CBlockLocator.set (position best a rounds)) 0 sv'
      asked.vInventoryToSend = (batch best (position best a rounds)).map blockInv ∧
        ((∃ b ∈ batch best (position best a rounds), b.getBlockHash = asked.hashContinue) ↔
          500 * (rounds + 1) ≤ (chainAfter best a).length) := by
  obtain ⟨sv', hrun, hsent, hfresh⟩ := answerRounds_spec h ha hsv fSendTrickle wait relay rounds
  refine ⟨sv', hrun, hsent, batches_taken ha rounds, ?_⟩
  obtain ⟨hmem, -⟩ := position_spec ha rounds
  have hbatch := hfresh.next ha
  rw [processGetBlocks_fresh h hmem (locator_self (h.find hmem) (h.inMainChain hmem)) hbatch]
  refine ⟨rfl, ?_⟩
  -- the reply is full just if 500 blocks are left
  have hlen : (batch best (position best a rounds)).length = 500 ↔
      500 * (rounds + 1) ≤ (chainAfter best a).length := by
    rw [batch_position ha, List.length_take, List.length_drop]
    omega
  exact hbatch.continuesAt_mem.trans hlen

end Answering

/-! Both sides of a round. -/

section Exchange

variable {env : Env} {T : BlockTree env} {n c : BlockNode} {best a : CBlockIndex} {o : OrphanTxs}
  {sv cl : CNode} {t : AskTimes} {nTime : Nat → Int} {now : Int} {blocks : List CBlockIndex}

/-- The node that asks has no requests open with the other, and these blocks are missing to it. The
clock goes on, and the times that were given out are not ahead of it. -/
structure AsksFresh (blocks : List CBlockIndex) (c : BlockNode) (o : OrphanTxs) (cl : CNode)
    (t : AskTimes) (nTime : Nat → Int) (now : Int) : Prop where
  requests : cl.mapAskFor = []
  last : ¬ (c.pindexBest = cl.pindexLastGetBlocksBegin ∧ 0 = cl.hashLastGetBlocksEnd)
  missing : ∀ b ∈ blocks, alreadyHave c o (blockInv b) = false
  unasked : ∀ b ∈ blocks, t.mapAlreadyAskedFor (blockInv b) = 0
  late : 120 ≤ now
  clock : ∀ i, nTime i ≤ now
  times : t.nLastTime + 500 ≤ now * 1000000

theorem ask_round (hcl : AsksFresh blocks c o cl t nTime now) (hne : blocks ≠ [])
    (hshort : blocks.length ≤ 500) (hnodup : (blocks.map blockInv).Nodup) :
    let asking := cl.pushGetBlocks c.pindexBest 0
    asking.vSend = cl.vSend ++ [.getblocks (CNode.locator c.pindexBest) 0] ∧
      ∃ t' asked, processInv env c o nTime (blocks.map blockInv) t asking = .ok (t', asked) ∧
        (sendGetData (alreadyHave c o) now t' asked).2.vSend =
          asking.vSend ++ [.getdata (blocks.map blockInv)] := by
  have hasking : cl.pushGetBlocks c.pindexBest 0 = { cl with
      pindexLastGetBlocksBegin := c.pindexBest
      hashLastGetBlocksEnd := 0
      vSend := cl.vSend ++ [.getblocks (CNode.locator c.pindexBest) 0] } := by
    rw [CNode.pushGetBlocks, if_neg hcl.last]
  have hmissing : ∀ inv ∈ blocks.map blockInv,
      alreadyHave c o inv = false ∧ t.mapAlreadyAskedFor inv = 0 := by
    intro inv hinv
    obtain ⟨b, hb, rfl⟩ := List.mem_map.mp hinv
    exact ⟨hcl.missing b hb, hcl.unasked b hb⟩
  have hlate := hcl.late
  have htimes := hcl.times
  obtain ⟨t', known', asked, hreceived, hmap, hdue⟩ := @receiveInvs_new env c o nTime
    (lastBlock (blocks.map blockInv)) (now * 1000000) (by omega)
    (fun i => by have := hcl.clock i; omega) (blocks.map blockInv) 0 t
    (cl.pushGetBlocks c.pindexBest 0) (fun inv hinv => (hmissing inv hinv).1)
    (fun inv hinv => (hmissing inv hinv).2) hnodup (by rw [List.length_map]; omega)
    (by rw [List.length_map]; omega) (by rw [hasking]; simp [hcl.requests])
  have hrequests : (cl.pushGetBlocks c.pindexBest 0).mapAskFor = [] := by
    rw [hasking]
    exact hcl.requests
  rw [hrequests, List.nil_append] at hreceived
  have hlen : asked.length = blocks.length := by
    rw [← List.length_map (f := Prod.snd), hmap, List.length_map]
  have hsize : ¬ (blocks.map blockInv).length > MAX_INV_SZ := by
    rw [List.length_map, MAX_INV_SZ]
    omega
  refine ⟨by rw [hasking], t', _, by rw [processInv, if_neg hsize, hreceived], ?_⟩
  rw [sendGetData_due t' (fun e he => ?_) hdue (by dsimp only; omega) (fun hnil => ?_)]
  · dsimp only
    rw [hmap]
  · exact (hmissing e.2 (hmap ▸ List.mem_map_of_mem he)).1
  · dsimp only at hnil
    rw [hnil] at hlen
    exact hne (List.eq_nil_of_length_eq_zero hlen.symm)

/-- A node that asks another for blocks gets the next of its main chain, 500 at most: they are
announced, asked for and sent in the order of the chain. Behind a full round comes an announcement of
the latest proof-of-work block. -/
theorem download_round (h : Serves T n best) (ha : a ∈ best.ancestors)
    (hlocator : getBlockIndex n.mapBlockIndex n.toState (CNode.locator c.pindexBest) = some a)
    (hne : batch best a ≠ []) (hsv : AnswersFresh (batch best a) sv)
    (hcl : AsksFresh (batch best a) c o cl t nTime now) (fSendTrickle : Bool)
    (wait relay : CInv → Bool) :
    let vInv := (batch best a).map blockInv
    let asking := cl.pushGetBlocks c.pindexBest 0
    let announcing := sendInventory fSendTrickle wait
      (processGetBlocks env n (CNode.locator c.pindexBest) 0 sv)
    asking.vSend = cl.vSend ++ [.getblocks (CNode.locator c.pindexBest) 0] ∧
      announcing.vSend = sv.vSend ++ [.inv vInv] ∧
      ∃ t' asked, processInv env c o nTime vInv t asking = .ok (t', asked) ∧
        (sendGetData (alreadyHave c o) now t' asked).2.vSend = asking.vSend ++ [.getdata vInv] ∧
        ∃ answered, processGetData n relay vInv announcing = .ok answered ∧
          answered.vSend = announcing.vSend ++ ((batch best a).map .block ++
            if (batch best a).length = 500 then
              [.inv [⟨MSG_BLOCK, (getLastBlockIndex false best).getBlockHash⟩]]
            else []) := by
  obtain ⟨known, hannounced, -⟩ := announce_round h ha hlocator hsv fSendTrickle wait
  obtain ⟨hasked, t', asked, hreceived, hsent⟩ :=
    @ask_round env c o cl t nTime now _ hcl hne (length_batch_le best a) (nodup_batch_inv h a)
  have hanswered := @processGetData_batch _ _ _ _ _ _ h relay _ hsv
    (congrArg CNode.hashContinue hannounced)
  refine ⟨hasked, ?_, t', asked, hreceived, hsent, _, hanswered, rfl⟩
  rw [hannounced, announcement, if_neg (by simpa using hne)]

end Exchange

end Triangles.Inventory

namespace Triangles.Sample

def server : BlockNode where
  toState := started
  mapBlockIndex := treeMap
  setStakeSeen := ∅
  hashSyncCheckpoint := 0
  hashPendingCheckpoint := 0
  hashInvalidCheckpoint := 0
  mapOrphanBlocks := ∅
  mapOrphanBlocksByPrev := []
  setStakeSeenOrphan := ∅

def client : BlockNode :=
  { server with
    toState := { started with pindexBest := some genesisIndex }
    mapBlockIndex := mapOf [genesisIndex] (by decide) }

theorem server_serves : Inventory.Serves tree server mainIndex where
  chain := started_bestChain
  map := by
    intro hash p
    change treeMap.find hash = some p ↔ _
    constructor
    · exact fun h => ⟨mem_of_mapOf h, treeMap.hash_eq h⟩
    · rintro ⟨hmem, rfl⟩
      have hall : ∀ p ∈ blocks.map Prod.fst, treeMap.find p.getBlockHash = some p := by decide
      exact hall p hmem
  best := by decide

/-! A chain of 501 blocks over the genesis block. -/

def tallHash (k : Nat) : uint256 := if k = 0 then hashGenesisBlock else k

def tall : Nat → CBlockIndex
  | 0 => genesisIndex
  | k + 1 => .child (fieldsOf (tallHash (k + 1)) (UInt32.ofNat (k + 1)) 8 (k + 2)) (tall k)

theorem tall_hash (k : Nat) : (tall k).getBlockHash = tallHash k := by cases k <;> rfl

theorem tall_nHeight (k : Nat) : (tall k).nHeight = k := by
  induction k with
  | zero => rfl
  | succ k ih => rw [tall, CBlockIndex.nHeight, ih]

theorem genesis_ne {k : Nat} (hk : k ≤ 501) : hashGenesisBlock ≠ k := by
  rintro rfl
  exact absurd hk (by decide)

theorem tallHash_inj {j k : Nat} (hj : j ≤ 501) (hk : k ≤ 501) (h : tallHash j = tallHash k) :
    j = k := by
  unfold tallHash at h
  split at h <;> split at h
  · rename_i hj0 hk0
    rw [hj0, hk0]
  · exact absurd h (genesis_ne hk)
  · exact absurd h.symm (genesis_ne hj)
  · exact h

def tallBlock (b : CBlockIndex) : CBlock where
  hashPrevBlock := (b.pprev.map CBlockIndex.getBlockHash).getD 0
  hashMerkleRoot := 0
  nTime := UInt32.ofNat b.nHeight
  nBits := 0
  vtx := []

def tallTree : BlockTree (env []) where
  mem b := ∃ k ≤ 501, b = tall k
  block := tallBlock
  parent_mem := by
    rintro f p ⟨k, hk, heq⟩
    cases k with
    | zero => cases heq
    | succ k =>
      cases heq
      exact ⟨k, by omega, rfl⟩
  hash_inj := by
    rintro _ _ ⟨j, hj, rfl⟩ ⟨k, hk, rfl⟩ hhash
    rw [tall_hash, tall_hash] at hhash
    rw [tallHash_inj hj hk hhash]
  hash_ne_zero := by
    rintro _ ⟨k, hk, rfl⟩
    rw [tall_hash, tallHash]
    split
    · decide
    · assumption
  genesis_hash := by
    rintro _ ⟨k, hk, rfl⟩
    cases k with
    | zero => exact iff_of_true rfl ⟨_, rfl⟩
    | succ k =>
      refine iff_of_false (fun hhash => ?_) (fun ⟨f, hf⟩ => by cases hf)
      exact absurd (tallHash_inj hk (Nat.zero_le 501) hhash) (Nat.succ_ne_zero k)
  block_hash := by
    rintro _ ⟨k, hk, rfl⟩
    have htime : (UInt32.ofNat k).toNat = k := UInt32.toNat_ofNat_of_lt' (Nat.lt_of_le_of_lt hk (by decide))
    have hzero : UInt32.ofNat k = 0 ↔ k = 0 := by
      rw [← UInt32.toNat_inj, htime]
      rfl
    rw [tall_hash]
    simp only [CBlock.getHash, env, tallBlock, tall_nHeight, htime, hzero, tallHash]
  block_prev _ := rfl

def tallLinks : Nat → CBlockIndex → Option CBlockIndex
  | 0 => fun _ => none
  | k + 1 => Function.update (tallLinks k) (tall k) (some (tall (k + 1)))

theorem tallLinks_linked (k : Nat) : CBlockIndex.LinkedTo (tallLinks k) (tall k) := by
  induction k with
  | zero => exact CBlockIndex.linkedTo_genesis _
  | succ k ih => exact ih.up _

def findTall (hash : uint256) : Option CBlockIndex :=
  if hash = hashGenesisBlock then some (tall 0)
  else if 0 < hash ∧ hash ≤ 501 then some (tall hash)
  else none

theorem findTall_iff (hash : uint256) (p : CBlockIndex) :
    findTall hash = some p ↔ tallTree.mem p ∧ p.getBlockHash = hash := by
  constructor
  · intro h
    unfold findTall at h
    split at h
    · rename_i hgenesis
      cases h
      exact ⟨⟨0, by omega, rfl⟩, hgenesis.symm⟩
    · split at h
      · rename_i hbounds
        cases h
        exact ⟨⟨hash, hbounds.2, rfl⟩, by rw [tall_hash, tallHash, if_neg (Nat.ne_of_gt hbounds.1)]⟩
      · cases h
  · rintro ⟨⟨k, hk, rfl⟩, rfl⟩
    rw [tall_hash]
    unfold findTall tallHash
    by_cases hzero : k = 0
    · rw [if_pos hzero, if_pos rfl, hzero]
    · rw [if_neg hzero, if_neg (genesis_ne hk).symm, if_pos ⟨Nat.pos_of_ne_zero hzero, hk⟩]

def tallMap : BlockMap where
  find := findTall
  hash_eq h := ((findTall_iff _ _).mp h).2
  parent h := (findTall_iff _ _).mpr ⟨tallTree.parent_mem ((findTall_iff _ _).mp h).1, rfl⟩

def tallServer : BlockNode :=
  { server with
    toState := { nodeWith (fun _ => none) with
      txdb := { committed := fun
                  | .hashBestChain => some (tallHash 501)
                  | _ => none
                batch := none }
      pnext := tallLinks 501
      pindexBest := some (tall 501)
      hashBestChain := tallHash 501
      nBestHeight := 501 }
    mapBlockIndex := tallMap }

theorem tallServer_serves : Inventory.Serves tallTree tallServer (tall 501) where
  chain :=
    { settled := ⟨tall 501, rfl, ⟨501, le_refl _, rfl⟩, (tall_hash 501).symm, Option.some_ne_none _,
        tallLinks_linked 501, congrArg some (tall_hash 501).symm⟩
      height := fun p hp => by
        obtain rfl : tall 501 = p := Option.some.inj hp
        rw [tall_nHeight]
        rfl
      genesis := ⟨genesisIndex.fields, rfl, 0, Nat.zero_le _, rfl⟩ }
  map := findTall_iff
  best := rfl

theorem chainAfter_tall (k : Nat) :
    Inventory.chainAfter (tall k) genesisIndex = (List.range k).map fun i => tall (i + 1) := by
  induction k with
  | zero => rfl
  | succ k ih =>
    have hpos : genesisIndex.nHeight + 1 ≤ (tall k).ancestors.reverse.length := by
      rw [List.length_reverse, Inventory.length_ancestors]
      exact Nat.succ_le_succ (Nat.zero_le _)
    have hancestors : (tall (k + 1)).ancestors = tall (k + 1) :: (tall k).ancestors := rfl
    rw [List.range_succ, List.map_append, ← ih, Inventory.chainAfter, hancestors, List.reverse_cons,
      List.drop_append_of_le_length hpos]
    rfl

theorem genesisIndex_tall : genesisIndex ∈ (tall 501).ancestors := by
  have hgenesis : ∀ k, genesisIndex ∈ (tall k).ancestors := by
    intro k
    induction k with
    | zero => exact List.mem_singleton_self _
    | succ k ih => exact List.mem_cons_of_mem _ ih
  exact hgenesis 501

theorem length_batch_tall : (Inventory.batch (tall 501) genesisIndex).length = 500 := by
  rw [Inventory.batch, chainAfter_tall, List.length_take, List.length_map, List.length_range]
  rfl

theorem client_misses {b : CBlockIndex} (hb : b ∈ Inventory.batch (tall 501) genesisIndex) :
    Inventory.alreadyHave client OrphanTxs.empty (Inventory.blockInv b) = false := by
  have hb' := List.mem_of_mem_take hb
  rw [chainAfter_tall] at hb'
  obtain ⟨k, hk, rfl⟩ := List.mem_map.mp hb'
  have hne : ¬ genesisIndex.getBlockHash = k + 1 := genesis_ne (List.mem_range.mp hk)
  have hhash : (Inventory.blockInv (tall (k + 1))).hash = k + 1 := rfl
  have hmiss : client.mapBlockIndex.has (k + 1) = false := by
    simp [client, mapOf, BlockMap.has, hne]
  have hblock : (Inventory.blockInv (tall (k + 1))).type = Inventory.MSG_BLOCK := rfl
  rw [Inventory.alreadyHave, hblock, if_neg (by decide), if_pos rfl, hhash, hmiss]
  rfl

end Triangles.Sample

namespace Triangles.Inventory

open CBlockIndex CBlockLocator Sample

/-- A request with a locator that leads nowhere, and one without a locator. -/
theorem getblocks_reply_astray :
    (∃ a ∈ mainIndex.ancestors, getBlockIndex server.mapBlockIndex server.toState [5] = some a ∧
      processGetHeaders server [5] 0 (CNode.new 0) = (CNode.new 0).pushMessage (.headers
        (((chainAfter mainIndex a).take (min 2000 ((upTo 0 (chainAfter mainIndex a)).length + 1))).map
          getBlockHeader))) ∧
      processGetHeaders server [] hashGenesisBlock (CNode.new 0) =
        (CNode.new 0).pushMessage (.headers [genesisIndex.getBlockHeader]) := by
  obtain ⟨a, ha, hindex, -, hheaders, -⟩ :=
    @getblocks_reply treeEnv _ _ _ server_serves [5] 0 (CNode.new 0)
  obtain ⟨-, -, -, -, -, hnull⟩ :=
    @getblocks_reply treeEnv _ _ _ server_serves [] hashGenesisBlock (CNode.new 0)
  have hfind : server.mapBlockIndex.find hashGenesisBlock = some genesisIndex := by decide
  rw [hfind] at hnull
  exact ⟨⟨a, ha, hindex, hheaders (by decide)⟩, hnull rfl⟩

theorem newNode_fresh (blocks : List CBlockIndex) (hne : ∀ b ∈ blocks, b.getBlockHash ≠ 0) :
    AnswersFresh blocks (CNode.new 0) :=
  ⟨rfl, fun _ _ => rfl, hne⟩

theorem tall_ne_zero {b : CBlockIndex} (hb : b ∈ chainAfter (tall 501) genesisIndex) :
    b.getBlockHash ≠ 0 :=
  tallTree.hash_ne_zero (tallServer_serves.mem (mem_of_chainAfter hb))

/-- Two rounds from the genesis block: a full one, and the last block. -/
theorem getblocks_batches_two : ∃ sv', (List.range 2).foldlM (answerRound (env []) tallServer (tall 501)
      genesisIndex (fun _ => false) (fun _ _ => false) fun _ => false) (CNode.new 0) = .ok sv' ∧
    sv'.vSend = (List.range 2).flatMap (fun k =>
      announcement ((batch (tall 501) (position (tall 501) genesisIndex k)).map blockInv) ++
        answers (tall 501) (position (tall 501) genesisIndex k)) ∧
    (List.range 2).flatMap (fun k => batch (tall 501) (position (tall 501) genesisIndex k)) =
      (chainAfter (tall 501) genesisIndex).take (500 * 2) := by
  obtain ⟨sv', hrun, hsent, hblocks, -⟩ := getblocks_batches tallServer_serves genesisIndex_tall
    (newNode_fresh _ fun b hb => tall_ne_zero hb) (fun _ => false) (fun _ _ => false) (fun _ => false) 2
  exact ⟨sv', hrun, hsent.trans (List.nil_append _), hblocks⟩

/-- A full round. -/
theorem download_round_full :
    let vInv := (batch (tall 501) genesisIndex).map blockInv
    ∃ t' asked, processInv (env []) client OrphanTxs.empty (fun _ => 1000) vInv ⟨fun _ => 0, 0⟩
        ((CNode.new 0).pushGetBlocks client.pindexBest 0) = .ok (t', asked) ∧
      (sendGetData (alreadyHave client OrphanTxs.empty) 1000 t' asked).2.vSend =
        ((CNode.new 0).pushGetBlocks client.pindexBest 0).vSend ++ [.getdata vInv] ∧
      ∃ answered, processGetData tallServer (fun _ => false) vInv (sendInventory false (fun _ => false)
          (processGetBlocks (env []) tallServer (CNode.locator client.pindexBest) 0 (CNode.new 0))) =
          .ok answered ∧
        answered.vSend = [.inv vInv] ++ ((batch (tall 501) genesisIndex).map .block ++
          [.inv [⟨MSG_BLOCK, (getLastBlockIndex false (tall 501)).getBlockHash⟩]]) := by
  have hne : batch (tall 501) genesisIndex ≠ [] := by
    intro hnil
    have hlen := length_batch_tall
    rw [hnil] at hlen
    cases hlen
  have hlocator : getBlockIndex tallServer.mapBlockIndex tallServer.toState
      (CNode.locator client.pindexBest) = some genesisIndex :=
    locator_self (tallServer_serves.find genesisIndex_tall)
      (tallServer_serves.inMainChain genesisIndex_tall)
  obtain ⟨-, hannounced, t', asked, hreceived, hsent, answered, hanswered, hblocks⟩ :=
    @download_round _ _ _ client _ _ OrphanTxs.empty (CNode.new 0) (CNode.new 0) ⟨fun _ => 0, 0⟩
      (fun _ => 1000) 1000 tallServer_serves genesisIndex_tall hlocator hne
      (newNode_fresh _ fun b hb => tall_ne_zero (List.mem_of_mem_take hb))
      ⟨rfl, by decide, fun b hb => client_misses hb, fun _ _ => rfl, by decide, fun _ => le_refl _,
        by decide⟩ false (fun _ => false) (fun _ => false)
  rw [if_pos length_batch_tall, hannounced] at hblocks
  exact ⟨t', asked, hreceived, hsent, answered, hanswered, hblocks⟩

end Triangles.Inventory
