import Triangles.Model.Inventory

/-! Announcements and requests: nothing is lost, nothing is repeated too soon. -/

namespace Triangles.Inventory

open Parcel

/-! The set of what a node knows. -/

namespace mruset

variable {T : Type} [DecidableEq T] {s : mruset T} {x : T}

theorem insert_known (h : s.count x = true) : s.insert x = (s, false) := by
  have hx : x ∈ s.set := by simpa [count] using h
  simp [insert, hx]

theorem insert_new (h : s.count x = false) :
    (s.insert x).2 = true ∧ (s.insert x).1.queue = s.kept ++ [x] ∧
      (s.insert x).1.nMaxSize = s.nMaxSize := by
  have hx : x ∉ s.set := by simpa [count] using h
  simp [insert, hx]

theorem count_insert (y : T) : (s.insert x).1.count y = true → y = x ∨ s.count y = true := by
  cases hx : s.count x with
  | true =>
    rw [insert_known hx]
    exact .inr
  | false =>
    rw [count_iff, count_iff, (insert_new hx).2.1]
    intro hy
    obtain hy | hy := List.mem_append.mp hy
    · exact .inr (s.kept_sublist.subset hy)
    · exact .inl (List.mem_singleton.mp hy)

theorem nMaxSize_insert : (s.insert x).1.nMaxSize = s.nMaxSize := by
  cases hx : s.count x with
  | true => rw [insert_known hx]
  | false => exact (insert_new hx).2.2

def Records (s : mruset T) (recorded : List T) : Prop := s.queue = recent s.nMaxSize recorded

theorem records_empty (nMaxSize : Nat) : Records (mruset.empty nMaxSize : mruset T) [] := by
  simp [Records, recent, empty]

theorem Records.new {recorded : List T} (h : s.Records recorded) (hx : s.count x = false) :
    (s.insert x).1.Records (recorded ++ [x]) := by
  obtain ⟨-, hqueue, hmax⟩ := insert_new hx
  have hlen : s.nMaxSize ≠ 0 → s.queue.length = min s.nMaxSize recorded.length := by
    intro hne
    rw [h, recent, if_neg hne, List.length_drop]
    omega
  rw [Records, hqueue, hmax, recent, kept]
  by_cases hzero : s.nMaxSize = 0
  · simp only [hzero, ne_eq, not_true_eq_false, false_and, if_false, if_true]
    rw [h, recent, if_pos hzero]
  · have hqlen := hlen hzero
    by_cases hfull : s.queue.length = s.nMaxSize
    · -- the front falls out
      simp only [hzero, ne_eq, not_false_eq_true, hfull, and_self, if_true, if_false]
      rw [h, recent, if_neg hzero, List.tail_drop, List.length_append, List.length_singleton,
        List.drop_append_of_le_length (by omega)]
      congr 2
      omega
    · simp only [hzero, hfull, ne_eq, and_false, if_false]
      rw [h, recent, if_neg hzero, show recorded.length - s.nMaxSize = 0 by omega,
        List.length_append, List.length_singleton,
        show recorded.length + 1 - s.nMaxSize = 0 by omega]
      rfl

end mruset

/-! Announcing. -/

section Announce

def InvOp.records (pnode : CNode) : InvOp → List CInv
  | .known inv => if pnode.setInventoryKnown.count inv then [] else [inv]
  | .push _ => []
  | .send fSendTrickle wait =>
    announcedIn ((sendInventory fSendTrickle wait pnode).vSend.drop pnode.vSend.length)

def announceRun (sendBufferSize : Nat) (ops : List InvOp) : CNode × List CInv :=
  ops.foldl (fun r op => (op.apply r.1, r.2 ++ op.records r.1)) (CNode.new sendBufferSize, [])

/-- The loop of `SendMessages` after a part of the queue. -/
structure Announcing (pto : CNode) (recorded : List CInv) (done : List CInv) (w : InvLoop) : Prop where
  nMaxSize : w.setInventoryKnown.nMaxSize = pto.setInventoryKnown.nMaxSize
  records : w.setInventoryKnown.Records (recorded ++ (w.vInv.1.flatten ++ w.vInv.2))
  spaced : Spaced pto.setInventoryKnown.nMaxSize (recorded ++ (w.vInv.1.flatten ++ w.vInv.2))
  filled : Filled 1000 w.vInv
  kept : ∀ inv ∈ done, inv ∈ recorded ++ (w.vInv.1.flatten ++ w.vInv.2) ∨ inv ∈ w.vInvWait
  waiting : w.vInvWait.Sublist done
  onlyTx : ∀ inv ∈ w.vInvWait, inv.type = MSG_TX
  order : (w.vInv.1.flatten ++ w.vInv.2).Sublist done

theorem Announcing.round {pto : CNode} {recorded done : List CInv} {w : InvLoop}
    (h : Announcing pto recorded done w) (fSendTrickle : Bool) (wait : CInv → Bool) (inv : CInv) :
    Announcing pto recorded (done ++ [inv]) (w.round fSendTrickle wait inv) := by
  unfold InvLoop.round
  by_cases hknown : w.setInventoryKnown.count inv = true
  · -- known already
    rw [if_pos hknown]
    refine { h with
      kept := fun i hi => ?_
      waiting := h.waiting.trans (List.sublist_append_left _ _)
      order := h.order.trans (List.sublist_append_left _ _) }
    obtain hi | hi := List.mem_append.mp hi
    · exact h.kept i hi
    · obtain rfl := List.mem_singleton.mp hi
      rw [mruset.count_iff, h.records] at hknown
      refine .inl ?_
      unfold recent at hknown
      split at hknown
      · exact hknown
      · exact List.mem_of_mem_drop hknown
  · rw [if_neg hknown]
    by_cases hwait : inv.type = MSG_TX ∧ fSendTrickle = false ∧ wait inv = true
    · rw [if_pos hwait]
      refine { h with
        kept := fun i hi => ?_
        waiting := h.waiting.append (List.Sublist.refl _)
        onlyTx := fun i hi => ?_
        order := h.order.trans (List.sublist_append_left _ _) }
      · obtain hi | hi := List.mem_append.mp hi
        · exact (h.kept i hi).imp_right (List.mem_append_left _)
        · exact .inr (List.mem_append_right _ hi)
      · obtain hi | hi := List.mem_append.mp hi
        · exact h.onlyTx i hi
        · rw [List.mem_singleton.mp hi]
          exact hwait.1
    · -- announced
      rw [if_neg hwait]
      have hnew : w.setInventoryKnown.count inv = false := by simpa using hknown
      obtain ⟨htrue, -, -⟩ := mruset.insert_new hnew
      have hrecords := h.records.new hnew
      have hspaced : Spaced pto.setInventoryKnown.nMaxSize
          (recorded ++ (w.vInv.1.flatten ++ w.vInv.2) ++ [inv]) := by
        apply h.spaced.concat
        rw [← h.nMaxSize, ← h.records, ← mruset.count_iff]
        exact hknown
      have hmax := mruset.nMaxSize_insert (s := w.setInventoryKnown) (x := inv)
      cases hins : w.setInventoryKnown.insert inv with
      | mk setInventoryKnown fNew =>
        rw [hins] at htrue hrecords hmax
        obtain rfl : fNew = true := htrue
        have hflat := push_flatten 1000 w.vInv inv
        refine ⟨hmax.trans h.nMaxSize, ?_, ?_, h.filled.push inv, fun i hi => ?_,
          h.waiting.trans (List.sublist_append_left _ _), h.onlyTx, ?_⟩
        · rw [hflat, ← List.append_assoc]
          exact hrecords
        · rw [hflat, ← List.append_assoc]
          exact hspaced
        · rw [hflat, ← List.append_assoc]
          obtain hi | hi := List.mem_append.mp hi
          · exact (h.kept i hi).imp_left (List.mem_append_left _)
          · exact .inl (List.mem_append_right _ hi)
        · rw [hflat]
          exact h.order.append (List.Sublist.refl _)

theorem Announcing.loop {pto : CNode} {recorded done : List CInv} {w : InvLoop}
    (h : Announcing pto recorded done w) (fSendTrickle : Bool) (wait : CInv → Bool)
    (more : List CInv) :
    Announcing pto recorded (done ++ more) (more.foldl (InvLoop.round fSendTrickle wait) w) := by
  induction more generalizing done w with
  | nil => simpa using h
  | cons inv more ih =>
    have hnext := ih (h.round fSendTrickle wait inv)
    rwa [List.append_assoc, List.singleton_append] at hnext

@[simp] theorem announcedIn_append (l l' : List Message) :
    announcedIn (l ++ l') = announcedIn l ++ announcedIn l' := List.flatMap_append ..

@[simp] theorem announcedIn_inv (l : List (List CInv)) :
    announcedIn (l.map Message.inv) = l.flatten := by
  simp [announcedIn, List.flatMap_map]

theorem InvLoop.nMaxSize_round (fSendTrickle : Bool) (wait : CInv → Bool) (w : InvLoop)
    (inv : CInv) : (w.round fSendTrickle wait inv).setInventoryKnown.nMaxSize =
      w.setInventoryKnown.nMaxSize := by
  unfold InvLoop.round
  have hmax := mruset.nMaxSize_insert (s := w.setInventoryKnown) (x := inv)
  cases hins : w.setInventoryKnown.insert inv with
  | mk setInventoryKnown fNew =>
    rw [hins] at hmax
    split
    · rfl
    · split
      · rfl
      · cases fNew <;> exact hmax

theorem InvOp.nMaxSize_apply (op : InvOp) (pnode : CNode) :
    (op.apply pnode).setInventoryKnown.nMaxSize = pnode.setInventoryKnown.nMaxSize := by
  cases op with
  | known inv => exact mruset.nMaxSize_insert
  | push inv =>
    rw [InvOp.apply, CNode.pushInventory]
    split <;> rfl
  | send fSendTrickle wait =>
    have hloop : ∀ (l : List CInv) (w : InvLoop),
        (l.foldl (InvLoop.round fSendTrickle wait) w).setInventoryKnown.nMaxSize =
          w.setInventoryKnown.nMaxSize := by
      intro l
      induction l with
      | nil => exact fun _ => rfl
      | cons inv l ih => exact fun w => (ih _).trans (w.nMaxSize_round fSendTrickle wait inv)
    exact hloop _ _

def pushed (ops : List InvOp) : List CInv :=
  ops.filterMap fun
    | .push inv => some inv
    | _ => none

structure Announced (ops : List InvOp) (pnode : CNode) (recorded : List CInv) : Prop where
  records : pnode.setInventoryKnown.Records recorded
  spaced : Spaced pnode.setInventoryKnown.nMaxSize recorded
  sizes : ∀ vInv, .inv vInv ∈ pnode.vSend → vInv ≠ [] ∧ vInv.length ≤ 1000
  sublist : (announcedIn pnode.vSend).Sublist recorded
  kept : ∀ inv ∈ pushed ops, inv ∈ recorded ∨ inv ∈ pnode.vInventoryToSend
  order : ((announcedIn pnode.vSend ++ pnode.vInventoryToSend).filter (·.type ≠ MSG_TX)).Sublist
    ((pushed ops).filter (·.type ≠ MSG_TX))

theorem mem_of_records {pnode : CNode} {recorded : List CInv} {inv : CInv}
    (h : pnode.setInventoryKnown.Records recorded)
    (hknown : pnode.setInventoryKnown.count inv = true) : inv ∈ recorded := by
  rw [mruset.count_iff, h] at hknown
  unfold recent at hknown
  split at hknown
  · exact hknown
  · exact List.mem_of_mem_drop hknown

variable {ops : List InvOp} {pnode : CNode} {recorded : List CInv}

theorem Announced.known (h : Announced ops pnode recorded) (inv : CInv) :
    Announced (ops ++ [.known inv]) (pnode.addInventoryKnown inv)
      (recorded ++ (InvOp.known inv).records pnode) := by
  have hpushed : pushed (ops ++ [.known inv]) = pushed ops := by simp [pushed]
  rw [InvOp.records, CNode.addInventoryKnown]
  cases hknown : pnode.setInventoryKnown.count inv with
  | true =>
    rw [mruset.insert_known hknown]
    simp only [if_true, List.append_nil]
    exact { h with kept := hpushed ▸ h.kept, order := hpushed ▸ h.order }
  | false =>
    simp only [Bool.false_eq_true, if_false]
    refine ⟨h.records.new hknown, ?_, h.sizes, h.sublist.trans (List.sublist_append_left _ _),
      fun i hi => ?_, hpushed ▸ h.order⟩
    · dsimp only
      rw [mruset.nMaxSize_insert]
      apply h.spaced.concat
      rw [← h.records, ← mruset.count_iff, hknown]
      exact Bool.false_ne_true
    · rw [hpushed] at hi
      exact (h.kept i hi).imp_left (List.mem_append_left _)

theorem Announced.push (h : Announced ops pnode recorded) (inv : CInv) :
    Announced (ops ++ [.push inv]) (pnode.pushInventory inv) recorded := by
  have hpushed : pushed (ops ++ [.push inv]) = pushed ops ++ [inv] := by simp [pushed]
  unfold CNode.pushInventory
  split
  · rename_i hknown
    refine { h with kept := fun i hi => ?_, order := ?_ }
    · rw [hpushed] at hi
      obtain hi | hi := List.mem_append.mp hi
      · exact h.kept i hi
      · rw [List.mem_singleton.mp hi]
        exact .inl (mem_of_records h.records hknown)
    · rw [hpushed, List.filter_append (pushed ops)]
      exact h.order.trans (List.sublist_append_left _ _)
  · refine { h with kept := fun i hi => ?_, order := ?_ }
    · rw [hpushed] at hi
      obtain hi | hi := List.mem_append.mp hi
      · exact (h.kept i hi).imp_right (List.mem_append_left _)
      · exact .inr (List.mem_append_right _ hi)
    · dsimp only
      rw [hpushed, ← List.append_assoc, List.filter_append, List.filter_append (pushed ops)]
      exact h.order.append (List.Sublist.refl _)

theorem Announced.send (h : Announced ops pnode recorded) (fSendTrickle : Bool)
    (wait : CInv → Bool) :
    Announced (ops ++ [.send fSendTrickle wait]) (sendInventory fSendTrickle wait pnode)
      (recorded ++ (InvOp.send fSendTrickle wait).records pnode) := by
  have hpushed : pushed (ops ++ [.send fSendTrickle wait]) = pushed ops := by simp [pushed]
  have hstart : Announcing pnode recorded [] ⟨pnode.setInventoryKnown, ([], []), []⟩ :=
    ⟨rfl, by simpa using h.records, by simpa using h.spaced, filled_nil (by omega), by simp,
      by simp, by simp, by simp⟩
  have hloop := hstart.loop fSendTrickle wait pnode.vInventoryToSend
  rw [List.nil_append] at hloop
  unfold InvOp.records sendInventory
  dsimp only
  generalize pnode.vInventoryToSend.foldl (InvLoop.round fSendTrickle wait)
    ⟨pnode.setInventoryKnown, ([], []), []⟩ = w at hloop
  have hnew : announcedIn ((pnode.vSend ++ (close w.vInv).map Message.inv).drop pnode.vSend.length) =
      w.vInv.1.flatten ++ w.vInv.2 := by
    rw [List.drop_left, announcedIn_inv, close_flatten]
  rw [hnew]
  refine ⟨hloop.records, hloop.nMaxSize ▸ hloop.spaced, fun vInv hv => ?_, ?_, fun inv hi => ?_, ?_⟩
  · obtain hv | hv := List.mem_append.mp hv
    · exact h.sizes vInv hv
    · obtain ⟨m, hm, hmv⟩ := List.mem_map.mp hv
      obtain rfl := Message.inv.inj hmv
      exact hloop.filled.close m hm
  · rw [announcedIn_append, announcedIn_inv, close_flatten]
    exact h.sublist.append (List.Sublist.refl _)
  · rw [hpushed] at hi
    obtain hi | hi := h.kept inv hi
    · exact .inl (List.mem_append_left _ hi)
    · exact hloop.kept inv hi
  · -- only transactions wait
    have hwait : w.vInvWait.filter (fun inv => decide (inv.type ≠ MSG_TX)) = [] := by
      apply List.filter_eq_nil_iff.mpr
      intro inv hinv
      simp [hloop.onlyTx inv hinv]
    dsimp only
    rw [hpushed, announcedIn_append, announcedIn_inv, close_flatten, List.filter_append, hwait,
      List.append_nil]
    refine List.Sublist.trans ?_ h.order
    rw [List.filter_append, List.filter_append (announcedIn pnode.vSend)]
    exact (List.Sublist.refl _).append (hloop.order.filter _)

theorem Announced.op (h : Announced ops pnode recorded) (op : InvOp) :
    Announced (ops ++ [op]) (op.apply pnode) (recorded ++ op.records pnode) := by
  cases op with
  | known inv => exact h.known inv
  | push inv =>
    rw [InvOp.records, List.append_nil]
    exact h.push inv
  | send fSendTrickle wait => exact h.send fSendTrickle wait

theorem announceRun_announced (sendBufferSize : Nat) (ops : List InvOp) :
    Announced ops (announceRun sendBufferSize ops).1 (announceRun sendBufferSize ops).2 ∧
      (announceRun sendBufferSize ops).1.setInventoryKnown.nMaxSize = sendBufferSize / 1000 := by
  induction ops using List.reverseRecOn with
  | nil =>
    refine ⟨⟨mruset.records_empty _, spaced_nil _, ?_, ?_, ?_, ?_⟩, rfl⟩
    all_goals simp [announceRun, CNode.new, announcedIn, pushed]
  | append_singleton ops op ih =>
    obtain ⟨h, hmax⟩ := ih
    have hrun : announceRun sendBufferSize (ops ++ [op]) =
        (op.apply (announceRun sendBufferSize ops).1,
          (announceRun sendBufferSize ops).2 ++ op.records (announceRun sendBufferSize ops).1) := by
      simp [announceRun, List.foldl_append]
    rw [hrun]
    exact ⟨h.op op, hmax ▸ op.nMaxSize_apply _⟩

/-- What is queued for a node is announced to it unless the node has named it itself, or it waits for
its turn; blocks keep their order. Announcements hold at most a thousand entries, and none is made
again while it is among the last that were recorded. -/
theorem inventory_announced (sendBufferSize : Nat) (ops : List InvOp) :
    let pnode := (announceRun sendBufferSize ops).1
    let recorded := (announceRun sendBufferSize ops).2
    (∀ vInv, .inv vInv ∈ pnode.vSend → vInv ≠ [] ∧ vInv.length ≤ 1000) ∧
      (∀ inv ∈ pushed ops, inv ∈ recorded ∨ inv ∈ pnode.vInventoryToSend) ∧
      ((announcedIn pnode.vSend ++ pnode.vInventoryToSend).filter (·.type ≠ MSG_TX)).Sublist
        ((pushed ops).filter (·.type ≠ MSG_TX)) ∧
      (announcedIn pnode.vSend).Sublist recorded ∧
      ∀ w, w <:+: recorded → sendBufferSize / 1000 = 0 ∨ w.length ≤ sendBufferSize / 1000 + 1 →
        w.Nodup := by
  obtain ⟨h, hmax⟩ := announceRun_announced sendBufferSize ops
  refine ⟨h.sizes, h.kept, h.order, h.sublist, ?_⟩
  rw [← hmax]
  exact h.spaced

end Announce

/-! Asking. -/

section Ask

theorem multimapInsert_perm (e : Int × CInv) (m : List (Int × CInv)) :
    (multimapInsert e m).Perm (e :: m) := List.perm_orderedInsert _ e m

/-- The requests are kept by their times. -/
def ByTime (m : List (Int × CInv)) : Prop := m.Pairwise fun a b => a.1 ≤ b.1

theorem ByTime.insert {m : List (Int × CInv)} (h : ByTime m) (e : Int × CInv) :
    ByTime (multimapInsert e m) := by
  induction m with
  | nil => exact List.pairwise_singleton _ e
  | cons a m ih =>
    obtain ⟨hfirst, hrest⟩ := List.pairwise_cons.mp h
    rw [multimapInsert, List.orderedInsert_cons]
    split
    · rename_i hlt
      refine List.pairwise_cons.mpr ⟨fun b hb => ?_, h⟩
      obtain rfl | hb := List.mem_cons.mp hb
      · exact hlt.le
      · exact hlt.le.trans (hfirst b hb)
    · rename_i hlt
      refine List.pairwise_cons.mpr ⟨fun b hb => ?_, ih hrest⟩
      obtain rfl | hb := List.mem_cons.mp ((multimapInsert_perm e m).mem_iff.mp hb)
      · exact Int.not_lt.mp hlt
      · exact hfirst b hb

def wanted (alreadyHave : CInv → Bool) (nNow : Int) (mapAskFor : List (Int × CInv)) : List CInv :=
  ((mapAskFor.takeWhile (·.1 ≤ nNow)).map Prod.snd).filter (!alreadyHave ·)

theorem getDataLoop_spec (alreadyHave : CInv → Bool) (nNow : Int) (mapAskFor : List (Int × CInv))
    (vGetData : Parcels CInv) (t : AskTimes) :
    ∃ v t', getDataLoop alreadyHave nNow mapAskFor vGetData t =
        (mapAskFor.dropWhile (·.1 ≤ nNow), v, t') ∧
      v.1.flatten ++ v.2 = vGetData.1.flatten ++ vGetData.2 ++ wanted alreadyHave nNow mapAskFor ∧
      (Filled 1000 vGetData → Filled 1000 v) ∧ t'.nLastTime = t.nLastTime ∧
      ∀ inv, t'.mapAlreadyAskedFor inv =
        if inv ∈ wanted alreadyHave nNow mapAskFor then nNow else t.mapAlreadyAskedFor inv := by
  induction mapAskFor generalizing vGetData t with
  | nil => exact ⟨vGetData, t, rfl, by simp [wanted], id, rfl, by simp [wanted]⟩
  | cons e mapAskFor ih =>
    obtain ⟨nTime, inv⟩ := e
    unfold getDataLoop
    by_cases hdue : nTime ≤ nNow
    · rw [if_pos hdue, List.dropWhile_cons_of_pos (by simpa using hdue)]
      have htake : wanted alreadyHave nNow ((nTime, inv) :: mapAskFor) =
          (if alreadyHave inv then [] else [inv]) ++ wanted alreadyHave nNow mapAskFor := by
        unfold wanted
        rw [List.takeWhile_cons_of_pos (by simpa using hdue)]
        cases hhave : alreadyHave inv <;> simp [hhave]
      cases hhave : alreadyHave inv with
      | true =>
        rw [hhave, if_pos rfl, List.nil_append] at htake
        rw [htake, if_pos rfl]
        exact ih vGetData t
      | false =>
        rw [hhave, if_neg Bool.false_ne_true] at htake
        rw [htake, if_neg Bool.false_ne_true]
        obtain ⟨v, t', heq, hflat, hfilled, hlast, htimes⟩ := ih (push 1000 vGetData inv)
          { t with mapAlreadyAskedFor := Function.update t.mapAlreadyAskedFor inv nNow }
        refine ⟨v, t', heq, ?_, fun h => hfilled (h.push inv), hlast, fun i => ?_⟩
        · rw [hflat, push_flatten, List.append_assoc, List.append_assoc]
        · rw [htimes i]
          by_cases hi : i = inv
          · simp [hi]
          · simp [hi]
    · rw [if_neg hdue, List.dropWhile_cons_of_neg (by simpa using hdue)]
      have htake : wanted alreadyHave nNow ((nTime, inv) :: mapAskFor) = [] := by
        unfold wanted
        rw [List.takeWhile_cons_of_neg (by simpa using hdue)]
        rfl
      exact ⟨vGetData, t, rfl, by rw [htake, List.append_nil], id, rfl, by simp [htake]⟩

@[simp] theorem requestedIn_append (l l' : List Message) :
    requestedIn (l ++ l') = requestedIn l ++ requestedIn l' := List.flatMap_append ..

@[simp] theorem requestedIn_getdata (l : List (List CInv)) :
    requestedIn (l.map Message.getdata) = l.flatten := by
  simp [requestedIn, List.flatMap_map]

theorem sendGetData_spec (alreadyHave : CInv → Bool) (nTime : Int) (t : AskTimes) (pto : CNode) :
    ∃ (t' : AskTimes) (l : List (List CInv)), sendGetData alreadyHave nTime t pto =
        (t', { pto with
          mapAskFor := pto.mapAskFor.dropWhile (·.1 ≤ nTime * 1000000)
          vSend := pto.vSend ++ l.map .getdata }) ∧
      l.flatten = wanted alreadyHave (nTime * 1000000) pto.mapAskFor ∧
      (∀ m ∈ l, m ≠ [] ∧ m.length ≤ 1000) ∧ t'.nLastTime = t.nLastTime ∧
      ∀ inv, t'.mapAlreadyAskedFor inv =
        if inv ∈ wanted alreadyHave (nTime * 1000000) pto.mapAskFor then nTime * 1000000
        else t.mapAlreadyAskedFor inv := by
  obtain ⟨v, t', heq, hflat, hfilled, hlast, htimes⟩ :=
    getDataLoop_spec alreadyHave (nTime * 1000000) pto.mapAskFor ([], []) t
  refine ⟨t', close v, by simp only [sendGetData, heq], ?_, (hfilled (filled_nil (by omega))).close,
    hlast, htimes⟩
  rw [close_flatten, hflat]
  rfl

def askedOf (node : Nat) (ops : List AskOp) : List CInv :=
  ops.filterMap fun
    | .ask node' _ inv => if node' = node then some inv else none
    | _ => none

/-- A request was due when `SendMessages` came round to the node, and the thing was there. -/
def CameUp (sendBufferSize node : Nat) (ops : List AskOp) (inv : CInv) : Prop :=
  ∃ before after nTime alreadyHave, ops = before ++ .send node nTime alreadyHave :: after ∧
    alreadyHave inv = true ∧
    ∃ e ∈ ((Asking.run sendBufferSize before).nodes node).mapAskFor,
      e.2 = inv ∧ e.1 ≤ nTime * 1000000

structure Asked (sendBufferSize node : Nat) (ops : List AskOp) (pto : CNode) : Prop where
  byTime : ByTime pto.mapAskFor
  sizes : ∀ vInv, .getdata vInv ∈ pto.vSend → vInv ≠ [] ∧ vInv.length ≤ 1000
  kept : ∃ dropped, (askedOf node ops).Perm
      (pto.mapAskFor.map Prod.snd ++ (requestedIn pto.vSend ++ dropped)) ∧
    ∀ inv ∈ dropped, CameUp sendBufferSize node ops inv

theorem Asking.run_concat (sendBufferSize : Nat) (ops : List AskOp) (op : AskOp) :
    Asking.run sendBufferSize (ops ++ [op]) = op.apply (Asking.run sendBufferSize ops) := by
  rw [Asking.run, List.foldl_append]
  rfl

variable {sendBufferSize node : Nat} {ops : List AskOp} {pto : CNode}

theorem CameUp.concat {inv : CInv} (h : CameUp sendBufferSize node ops inv) (op : AskOp) :
    CameUp sendBufferSize node (ops ++ [op]) inv := by
  obtain ⟨before, after, nTime, alreadyHave, rfl, hup⟩ := h
  exact ⟨before, after ++ [op], nTime, alreadyHave, by rw [List.append_assoc, List.cons_append], hup⟩

theorem Asked.other (h : Asked sendBufferSize node ops pto) (op : AskOp)
    (hop : askedOf node (ops ++ [op]) = askedOf node ops) :
    Asked sendBufferSize node (ops ++ [op]) pto := by
  obtain ⟨dropped, hperm, hdropped⟩ := h.kept
  exact { h with kept := ⟨dropped, hop ▸ hperm, fun inv hinv => (hdropped inv hinv).concat op⟩ }

theorem Asked.ask (h : Asked sendBufferSize node ops pto) (nTime t : Int) (inv : CInv) :
    Asked sendBufferSize node (ops ++ [.ask node nTime inv])
      { pto with mapAskFor := multimapInsert (t, inv) pto.mapAskFor } := by
  obtain ⟨dropped, hperm, hdropped⟩ := h.kept
  have hasked : askedOf node (ops ++ [.ask node nTime inv]) = askedOf node ops ++ [inv] := by
    simp [askedOf]
  refine ⟨h.byTime.insert _, h.sizes, dropped, ?_, fun i hi => (hdropped i hi).concat _⟩
  rw [hasked]
  refine (List.perm_append_singleton _ _).trans ?_
  exact (hperm.cons inv).trans
    (((multimapInsert_perm (t, inv) pto.mapAskFor).map Prod.snd).symm.append_right _)

theorem Asked.send (h : Asked sendBufferSize node ops pto)
    (hpto : (Asking.run sendBufferSize ops).nodes node = pto) (nTime : Int)
    (alreadyHave : CInv → Bool) (t : AskTimes) :
    Asked sendBufferSize node (ops ++ [.send node nTime alreadyHave])
      (sendGetData alreadyHave nTime t pto).2 := by
  obtain ⟨dropped, hperm, hdropped⟩ := h.kept
  obtain ⟨t', l, heq, hflat, hsizes, -, -⟩ := sendGetData_spec alreadyHave nTime t pto
  have hasked : askedOf node (ops ++ [.send node nTime alreadyHave]) = askedOf node ops := by
    simp [askedOf]
  rw [heq]
  refine ⟨h.byTime.sublist (List.dropWhile_sublist _), fun vInv hv => ?_, ?_⟩
  · obtain hv | hv := List.mem_append.mp hv
    · exact h.sizes vInv hv
    · obtain ⟨m, hm, hmv⟩ := List.mem_map.mp hv
      obtain rfl := Message.getdata.inj hmv
      exact hsizes m hm
  · -- what is due is sent, or dropped since it is there
    let due := (pto.mapAskFor.takeWhile (·.1 ≤ nTime * 1000000)).map Prod.snd
    have hdue : due.Perm (wanted alreadyHave (nTime * 1000000) pto.mapAskFor ++
        due.filter alreadyHave) := by
      have hsplit := List.filter_append_perm (fun i => !alreadyHave i) due
      simp only [Bool.not_not] at hsplit
      exact hsplit.symm
    refine ⟨due.filter alreadyHave ++ dropped, ?_, fun i hi => ?_⟩
    · have hmap : pto.mapAskFor.map Prod.snd =
          due ++ (pto.mapAskFor.dropWhile (·.1 ≤ nTime * 1000000)).map Prod.snd := by
        rw [← List.map_append, List.takeWhile_append_dropWhile]
      dsimp only
      rw [hasked, requestedIn_append, requestedIn_getdata, hflat]
      rw [hmap] at hperm
      rw [List.perm_iff_count] at hperm hdue ⊢
      intro i
      have h₁ := hperm i
      have h₂ := hdue i
      simp only [List.count_append] at h₁ h₂ ⊢
      omega
    · obtain hi | hi := List.mem_append.mp hi
      · obtain ⟨hmem, hhave⟩ := List.mem_filter.mp hi
        obtain ⟨e, he, rfl⟩ := List.mem_map.mp hmem
        refine ⟨ops, [], nTime, alreadyHave, rfl, hhave, e, ?_, rfl, ?_⟩
        · rw [hpto]
          exact (List.takeWhile_sublist _).subset he
        · simpa using List.mem_takeWhile_imp he
      · exact (hdropped i hi).concat _

theorem run_asked (sendBufferSize : Nat) (ops : List AskOp) (node : Nat) :
    Asked sendBufferSize node ops ((Asking.run sendBufferSize ops).nodes node) := by
  induction ops using List.reverseRecOn with
  | nil =>
    exact ⟨List.Pairwise.nil, by simp [Asking.run, CNode.new], [], by
      simp [askedOf, Asking.run, CNode.new, requestedIn], by simp⟩
  | append_singleton ops op ih =>
    rw [Asking.run_concat]
    cases op with
    | ask node' nTime inv =>
      by_cases hnode : node' = node
      · subst hnode
        simp only [AskOp.apply, askFor, Function.update_self]
        exact ih.ask nTime _ inv
      · simp only [AskOp.apply, askFor, Function.update_of_ne (Ne.symm hnode)]
        exact ih.other _ (by simp [askedOf, hnode])
    | send node' nTime alreadyHave =>
      by_cases hnode : node' = node
      · subst hnode
        simp only [AskOp.apply, Function.update_self]
        exact ih.send rfl nTime alreadyHave _
      · simp only [AskOp.apply, Function.update_of_ne (Ne.symm hnode)]
        exact ih.other _ (by simp [askedOf])
    | received inv => exact ih.other _ (by simp [askedOf])

theorem ByTime.dropWhile {m : List (Int × CInv)} (h : ByTime m) (nNow : Int) :
    m.dropWhile (·.1 ≤ nNow) = m.filter (nNow < ·.1) := by
  induction m with
  | nil => rfl
  | cons e m ih =>
    obtain ⟨hfirst, hrest⟩ := List.pairwise_cons.mp h
    by_cases hdue : e.1 ≤ nNow
    · rw [List.dropWhile_cons_of_pos (by simpa using hdue),
        List.filter_cons_of_neg (by simpa using hdue), ih hrest]
    · rw [List.dropWhile_cons_of_neg (by simpa using hdue)]
      refine (List.filter_eq_self.mpr fun b hb => ?_).symm
      obtain rfl | hb := List.mem_cons.mp hb
      · simpa using hdue
      · have hle := hfirst b hb
        simp only [decide_eq_true_eq]
        omega

/-- Every request waits, was sent, or was dropped when it came up because the thing was there by then;
`SendMessages` takes exactly those that are due, a thousand at most in a message. -/
theorem requests_kept (sendBufferSize : Nat) (ops : List AskOp) (node : Nat) :
    let pto := (Asking.run sendBufferSize ops).nodes node
    (∀ vInv, .getdata vInv ∈ pto.vSend → vInv ≠ [] ∧ vInv.length ≤ 1000) ∧
      (∃ dropped, (askedOf node ops).Perm
          (pto.mapAskFor.map Prod.snd ++ (requestedIn pto.vSend ++ dropped)) ∧
        ∀ inv ∈ dropped, CameUp sendBufferSize node ops inv) ∧
      ∀ nTime alreadyHave,
        ((Asking.run sendBufferSize (ops ++ [.send node nTime alreadyHave])).nodes node).mapAskFor =
          pto.mapAskFor.filter (nTime * 1000000 < ·.1) := by
  have h := run_asked sendBufferSize ops node
  refine ⟨h.sizes, h.kept, fun nTime alreadyHave => ?_⟩
  obtain ⟨t', l, heq, -⟩ := sendGetData_spec alreadyHave nTime
    (Asking.run sendBufferSize ops).times ((Asking.run sendBufferSize ops).nodes node)
  rw [Asking.run_concat]
  simp only [AskOp.apply, heq, Function.update_self]
  exact h.byTime.dropWhile _

/-- What was asked for after a time stays so, until it arrives. -/
theorem times_after {a : Asking} {inv : CInv} {nTime : Int}
    (h : nTime * 1000000 ≤ a.times.mapAlreadyAskedFor inv) (ops : List AskOp)
    (hclock : ∀ node nTime' alreadyHave, .send node nTime' alreadyHave ∈ ops → nTime ≤ nTime')
    (hwaiting : .received inv ∉ ops) :
    nTime * 1000000 ≤ (ops.foldl AskOp.apply a).times.mapAlreadyAskedFor inv := by
  induction ops generalizing a with
  | nil => exact h
  | cons op ops ih =>
    apply ih
    · cases op with
      | ask node nTime' inv' =>
        by_cases hinv : inv = inv'
        · subst hinv
          simp only [AskOp.apply, askFor, Function.update_self]
          omega
        · simpa only [AskOp.apply, askFor, Function.update_of_ne hinv] using h
      | send node nTime' alreadyHave =>
        obtain ⟨t', l, heq, -, -, -, htimes⟩ :=
          sendGetData_spec alreadyHave nTime' a.times (a.nodes node)
        have hle := hclock node nTime' alreadyHave List.mem_cons_self
        simp only [AskOp.apply, heq, htimes inv]
        split <;> omega
      | received inv' =>
        have hne : inv ≠ inv' := fun he => hwaiting (he ▸ List.mem_cons_self)
        simpa only [AskOp.apply, AskTimes.erase, Function.update_of_ne hne] using h
    · exact fun node nTime' alreadyHave hmem =>
        hclock node nTime' alreadyHave (List.mem_cons_of_mem _ hmem)
    · exact fun hmem => hwaiting (List.mem_cons_of_mem _ hmem)

/-- Once something was requested from a node, whoever is asked for it next, it is entered for two
minutes later at the earliest, unless it has arrived in between. -/
theorem retry_waits (sendBufferSize : Nat) (before after : List AskOp) (node node' : Nat)
    (nTime nTime' : Int) (alreadyHave : CInv → Bool) (inv : CInv)
    (hsent : inv ∈ requestedIn
      (((Asking.run sendBufferSize (before ++ [.send node nTime alreadyHave])).nodes node).vSend.drop
        ((Asking.run sendBufferSize before).nodes node).vSend.length))
    (hclock : ∀ node nTime' alreadyHave, .send node nTime' alreadyHave ∈ after → nTime ≤ nTime')
    (hwaiting : .received inv ∉ after) :
    ∃ t, (nTime + 2 * 60) * 1000000 ≤ t ∧
      ((Asking.run sendBufferSize (before ++ .send node nTime alreadyHave :: after ++
          [.ask node' nTime' inv])).nodes node').mapAskFor =
        multimapInsert (t, inv) ((Asking.run sendBufferSize
          (before ++ .send node nTime alreadyHave :: after)).nodes node').mapAskFor := by
  obtain ⟨t', l, heq, hflat, -, -, htimes⟩ := sendGetData_spec alreadyHave nTime
    (Asking.run sendBufferSize before).times ((Asking.run sendBufferSize before).nodes node)
  have hat : nTime * 1000000 ≤ (Asking.run sendBufferSize
      (before ++ [.send node nTime alreadyHave])).times.mapAlreadyAskedFor inv := by
    rw [Asking.run_concat] at hsent ⊢
    simp only [AskOp.apply, heq, Function.update_self, List.drop_left, requestedIn_getdata, hflat]
      at hsent
    simp only [AskOp.apply, heq, htimes inv, if_pos hsent]
    exact Int.le_refl _
  have hlater := times_after hat after hclock hwaiting
  rw [Asking.run, ← List.foldl_append, List.append_assoc, List.singleton_append] at hlater
  rw [Asking.run_concat]
  simp only [AskOp.apply, askFor, Function.update_self]
  refine ⟨_, ?_, rfl⟩
  rw [Asking.run]
  omega

/-- A block that a node does not deliver is asked of another one. -/
theorem retry_waits_elsewhere :
    ∃ t, ((1000 : Int) + 2 * 60) * 1000000 ≤ t ∧
      ((Asking.run 5000 ([.ask 0 1000 ⟨MSG_BLOCK, 7⟩] ++
          .send 0 1000 (fun _ => false) :: [] ++ [.ask 1 1001 ⟨MSG_BLOCK, 7⟩])).nodes 1).mapAskFor =
        multimapInsert (t, ⟨MSG_BLOCK, 7⟩) ((Asking.run 5000
          ([.ask 0 1000 ⟨MSG_BLOCK, 7⟩] ++ .send 0 1000 (fun _ => false) :: [])).nodes 1).mapAskFor :=
  retry_waits 5000 [.ask 0 1000 ⟨MSG_BLOCK, 7⟩] [] 0 1 1000 1001 (fun _ => false) ⟨MSG_BLOCK, 7⟩
    (by decide) (by simp) (by simp)

end Ask

end Triangles.Inventory
