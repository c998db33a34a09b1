import Triangles.Model.NetMessage

/-! The send queue keeps the byte stream: what the socket has taken and what is still queued are the
messages in their order, and no assertion of `SocketSendData` fails. -/

namespace Triangles.Net

open CNode

variable {answers : SendAnswers} {start : MessageStart} {hash : List UInt8 → uint256}
  {pnode pnode' : CNode} {it : List (List UInt8)}

/-- The entries from `it` on are what is left of the queued messages, with the offset inside the first
of them. -/
structure Left (it : List (List UInt8)) (pnode : CNode) : Prop where
  stream : pnode.sent ++ it.flatten.drop pnode.nSendOffset = pnode.queued.flatten
  size : pnode.nSendSize = UInt64.ofNat it.flatten.length
  offset : ∀ data ∈ it.head?, pnode.nSendOffset < data.length
  rest : it = [] → pnode.nSendOffset = 0
  nonempty : ∀ data ∈ it, data ≠ []

/-- The invariant of the queue. -/
def Sound (pnode : CNode) : Prop := Left pnode.vSendMsg pnode

/-- The error does not come from `SocketSendData`. -/
def Elsewhere (e : Fault) : Prop := e ≠ .offsetBeyond ∧ e ≠ .offsetLeft ∧ e ≠ .sizeLeft

/-- Writing a part of the first entry. -/
theorem Left.written {data : List UInt8} (h : Left (data :: it) pnode) {n : Nat}
    (hn : n ≤ data.length - pnode.nSendOffset) :
    pnode.sent ++ (data.drop pnode.nSendOffset).take n ++ (data :: it).flatten.drop (pnode.nSendOffset + n) =
      pnode.queued.flatten := by
  have hoff : pnode.nSendOffset < data.length := h.offset data (by simp)
  rw [← h.stream, List.append_assoc, List.append_cancel_left_eq, List.flatten_cons,
    List.drop_append_of_le_length hoff.le, List.drop_append_of_le_length (by omega), ← List.append_assoc,
    ← List.drop_drop, List.take_append_drop]

theorem send_le (answers : SendAnswers) (pnode : CNode) (data : List UInt8) :
    (pnode.send answers data).1 ≤ data.length := by
  simp only [send]
  split_ifs
  · exact answers.send_le _ _
  · omega

/-- The loop stops at some entry, with everything before it written. -/
theorem Left.sendLoop_ok (answers : SendAnswers) (h : Left it pnode) :
    ∃ it' pnode', sendLoop answers it pnode = .ok (it', pnode') ∧ Left it' pnode' ∧
      pnode'.queued = pnode.queued ∧ pnode'.ssSend = pnode.ssSend := by
  induction it generalizing pnode with
  | nil => exact ⟨[], pnode, rfl, h, rfl, rfl⟩
  | cons data it ih =>
    have hoff : pnode.nSendOffset < data.length := h.offset data (by simp)
    rw [sendLoop, if_neg (not_not.mpr hoff)]
    have hle := send_le answers pnode (data.drop pnode.nSendOffset)
    have hsend : pnode.send answers (data.drop pnode.nSendOffset) =
      ((pnode.send answers (data.drop pnode.nSendOffset)).1, { pnode with
        calls := pnode.calls + 1
        sent := pnode.sent ++ (data.drop pnode.nSendOffset).take
          (pnode.send answers (data.drop pnode.nSendOffset)).1.toNat }) := rfl
    generalize (pnode.send answers (data.drop pnode.nSendOffset)).1 = nBytes at hle hsend
    rw [List.length_drop] at hle
    simp only [hsend, pure, Except.pure]
    split_ifs with hpos hfull hneg herr
    · -- the whole entry is written: the loop goes on with the next one
      have hwritten := h.written (n := nBytes.toNat) (by omega)
      rw [hfull, List.flatten_cons, List.drop_left] at hwritten
      refine ih ⟨hwritten, ?_, fun d hd => ?_, fun _ => rfl, fun d hd => h.nonempty d (by simp [hd])⟩
      · change pnode.nSendSize - UInt64.ofNat data.length = _
        rw [h.size, List.flatten_cons, List.length_append, UInt64.ofNat_add, add_sub_cancel_left]
      · have hd' : d ∈ it := List.mem_of_mem_head? hd
        exact List.length_pos_iff.mpr (h.nonempty d (by simp [hd']))
    · refine ⟨_, _, rfl, ⟨h.written (by omega), h.size, fun d hd => ?_, by simp, h.nonempty⟩, rfl, rfl⟩
      obtain rfl : data = d := by simpa using hd
      change pnode.nSendOffset + nBytes.toNat < data.length
      omega
    -- nothing is written
    all_goals
      have hzero : nBytes.toNat = 0 := by omega
      refine ⟨_, _, rfl, ⟨?_, h.size, h.offset, h.rest, h.nonempty⟩, rfl, rfl⟩
      change pnode.sent ++ (data.drop pnode.nSendOffset).take nBytes.toNat ++ _ = _
      rw [hzero, List.take_zero, List.append_nil]
      exact h.stream

theorem Sound.socketSendData_ok (answers : SendAnswers) (h : Sound pnode) :
    ∃ pnode', pnode.socketSendData answers = .ok pnode' ∧ Sound pnode' ∧
      pnode'.queued = pnode.queued ∧ pnode'.ssSend = pnode.ssSend := by
  obtain ⟨it, pnode', hloop, hleft, hqueued, hss⟩ := Left.sendLoop_ok answers h
  have hkept : Sound { pnode' with vSendMsg := it } :=
    ⟨hleft.stream, hleft.size, hleft.offset, hleft.rest, hleft.nonempty⟩
  refine ⟨{ pnode' with vSendMsg := it }, ?_, hkept, hqueued, hss⟩
  have hoff : ¬ (it = [] ∧ pnode'.nSendOffset ≠ 0) := fun ⟨hnil, hne⟩ => hne (hleft.rest hnil)
  have hsize : ¬ (it = [] ∧ pnode'.nSendSize ≠ 0) := by
    rintro ⟨rfl, hne⟩
    exact hne hleft.size
  rw [socketSendData, hloop]
  simp only [bind, Except.bind, if_neg hoff, if_neg hsize]
  rfl

/-- A `memcpy` keeps the length of its buffer, and fails in one way only. -/
theorem memcpy_result (buf : List UInt8) (pos : Nat) (src : List UInt8) (n : Nat) :
    (memcpy buf pos src n = .error .outOfBounds) ∨
      ∃ buf', memcpy buf pos src n = .ok buf' ∧ buf'.length = buf.length := by
  rw [memcpy]
  split_ifs with h
  · refine .inr ⟨_, rfl, ?_⟩
    simp
    omega
  · exact .inl rfl

theorem setSizeAndChecksum_result (hash : List UInt8 → uint256) (ssSend : List UInt8) :
    (∃ e, setSizeAndChecksum hash ssSend = .error e ∧ Elsewhere e) ∨
      ∃ bytes, setSizeAndChecksum hash ssSend = .ok bytes ∧ bytes.length = ssSend.length := by
  have helse : Elsewhere .outOfBounds := by simp [Elsewhere]
  unfold setSizeAndChecksum
  simp only
  rcases memcpy_result ssSend MESSAGE_SIZE_OFFSET
    (wordBytes 4 (UInt32.ofNat ssSend.length - UInt32.ofNat HEADER_SIZE).toNat) 4 with
    hfail | ⟨bytes, hbytes, hlen⟩
  · rw [hfail]
    exact .inl ⟨_, rfl, helse⟩
  · rw [hbytes]
    simp only [bind, Except.bind]
    split_ifs
    · exact .inl ⟨_, rfl, by simp [Elsewhere]⟩
    · rcases memcpy_result bytes CHECKSUM_OFFSET
        (wordBytes 4 (UInt32.ofNat (hash (bytes.drop HEADER_SIZE))).toNat) 4 with
        hfail | ⟨bytes', hbytes', hlen'⟩
      · exact .inl ⟨_, hfail, helse⟩
      · exact .inr ⟨bytes', hbytes', hlen'.trans hlen⟩

theorem Sound.queue (h : Sound pnode) {bytes : List UInt8} (hne : bytes ≠ []) :
    Sound { pnode with
      ssSend := []
      vSendMsg := pnode.vSendMsg ++ [bytes]
      nSendSize := pnode.nSendSize + UInt64.ofNat bytes.length
      queued := pnode.queued ++ [bytes] } where
  stream := by
    have hle : pnode.nSendOffset ≤ pnode.vSendMsg.flatten.length := by
      cases hqueue : pnode.vSendMsg with
      | nil => simp [h.rest hqueue]
      | cons data it =>
        have hlt := h.offset data (by simp [hqueue])
        simp
        omega
    simp only [List.flatten_append, List.drop_append_of_le_length hle, ← List.append_assoc]
    rw [h.stream]
  size := by
    simp only [List.flatten_append, List.length_append, UInt64.ofNat_add]
    rw [h.size]
    simp
  offset data hdata := by
    cases hqueue : pnode.vSendMsg with
    | nil =>
      obtain rfl : bytes = data := by simpa [hqueue] using hdata
      change pnode.nSendOffset < bytes.length
      rw [h.rest hqueue]
      exact List.length_pos_iff.mpr hne
    | cons a it =>
      obtain rfl : a = data := by simpa [hqueue] using hdata
      exact h.offset a (by simp [hqueue])
  rest hnil := by simp at hnil
  nonempty data hdata := by
    rcases List.mem_append.mp hdata with hold | hnew
    · exact h.nonempty data hold
    · rwa [List.mem_singleton.mp hnew]

/-- What `EndMessage` does with a message. -/
theorem Sound.endMessage_result (h : Sound pnode) (fDrop : Bool) :
    (∃ e, pnode.endMessage answers hash fDrop = .error e ∧ Elsewhere e) ∨
      ∃ pnode', pnode.endMessage answers hash fDrop = .ok pnode' ∧ Sound pnode' := by
  unfold endMessage
  cases fDrop with
  | true => exact .inr ⟨_, rfl, h.stream, h.size, h.offset, h.rest, h.nonempty⟩
  | false =>
    by_cases hnil : pnode.ssSend = []
    · rw [if_neg Bool.false_ne_true, if_pos hnil]
      exact .inr ⟨pnode, rfl, h⟩
    · rw [if_neg Bool.false_ne_true, if_neg hnil]
      rcases setSizeAndChecksum_result hash pnode.ssSend with ⟨e, hfail, he⟩ | ⟨bytes, hbytes, hlen⟩
      · rw [hfail]
        exact .inl ⟨e, rfl, he⟩
      · rw [hbytes]
        have hne : bytes ≠ [] := by
          rintro rfl
          exact hnil (List.eq_nil_of_length_eq_zero hlen.symm)
        have hqueued := h.queue hne
        right
        change ∃ pnode', (if pnode.vSendMsg.isEmpty = true then _ else _) = _ ∧ _
        split_ifs
        · obtain ⟨pnode', hsend, hsound, -⟩ := hqueued.socketSendData_ok answers
          exact ⟨pnode', hsend, hsound⟩
        · exact ⟨_, rfl, hqueued⟩

/-- Every call keeps the invariant. -/
theorem Sound.step_result (answers : SendAnswers) (start : MessageStart)
    (hash : List UInt8 → uint256) (h : Sound pnode) (call : Call) :
    (∃ e, pnode.step answers start hash call = .error e ∧ Elsewhere e) ∨
      ∃ pnode', pnode.step answers start hash call = .ok pnode' ∧ Sound pnode' := by
  cases call with
  | beginMessage pszCommand =>
    by_cases hne : pnode.ssSend ≠ []
    · exact .inl ⟨.ssSendInUse, if_pos hne, by simp [Elsewhere]⟩
    · exact .inr ⟨_, if_neg hne, h.stream, h.size, h.offset, h.rest, h.nonempty⟩
  | write bytes => exact .inr ⟨_, rfl, h.stream, h.size, h.offset, h.rest, h.nonempty⟩
  | abortMessage => exact .inr ⟨_, rfl, h.stream, h.size, h.offset, h.rest, h.nonempty⟩
  | endMessage fDrop => exact h.endMessage_result fDrop
  | socketSendData =>
    obtain ⟨pnode', hsend, hsound, -⟩ := h.socketSendData_ok answers
    exact .inr ⟨pnode', hsend, hsound⟩

theorem Sound.run_result (answers : SendAnswers) (start : MessageStart)
    (hash : List UInt8 → uint256) (h : Sound pnode) (calls : List Call) :
    (∃ e, pnode.run answers start hash calls = .error e ∧ Elsewhere e) ∨
      ∃ pnode', pnode.run answers start hash calls = .ok pnode' ∧ Sound pnode' := by
  induction calls generalizing pnode with
  | nil => exact .inr ⟨pnode, rfl, h⟩
  | cons call calls ih =>
    rw [run, List.foldlM_cons]
    rcases h.step_result answers start hash call with
      ⟨e, hfail, he⟩ | ⟨pnode', hstep, hsound⟩
    · rw [hfail]
      exact .inl ⟨e, rfl, he⟩
    · rw [hstep]
      exact ih hsound

theorem sound_start : Sound {} where
  stream := rfl
  size := rfl
  offset data hdata := by cases hdata
  rest _ := rfl
  nonempty data hdata := by cases hdata

/-- In every run of calls, with any answers of `send`: what the socket has taken is a prefix of the
messages queued so far, the rest of which is in the queue; the size is that of the queue, the offset lies
inside its first message, and `SocketSendData` fails none of its assertions. -/
theorem run_keeps_stream (answers : SendAnswers) (start : MessageStart) (hash : List UInt8 → uint256)
    (calls : List Call) :
    (∀ pnode, run answers start hash {} calls = .ok pnode →
      pnode.sent <+: pnode.queued.flatten ∧
      pnode.sent ++ pnode.vSendMsg.flatten.drop pnode.nSendOffset = pnode.queued.flatten ∧
      pnode.nSendSize = UInt64.ofNat (pnode.vSendMsg.map List.length).sum ∧
      (∀ data ∈ pnode.vSendMsg.head?, pnode.nSendOffset < data.length) ∧
      (pnode.vSendMsg = [] → pnode.nSendOffset = 0)) ∧
    (∀ e, run answers start hash {} calls = .error e →
      e ≠ .offsetBeyond ∧ e ≠ .offsetLeft ∧ e ≠ .sizeLeft) := by
  rcases sound_start.run_result answers start hash calls with
    ⟨e, hfail, he⟩ | ⟨pnode, hrun, hsound⟩
  · rw [hfail]
    refine ⟨fun _ h => (by cases h), fun e' h => ?_⟩
    cases h
    exact he
  · rw [hrun]
    refine ⟨fun pnode' h => ?_, fun _ h => (by cases h)⟩
    cases h
    refine ⟨⟨_, hsound.stream⟩, hsound.stream, ?_, hsound.offset, hsound.rest⟩
    rw [← List.length_flatten]
    exact hsound.size

namespace Sample

theorem mainBytes_length : [(0x70 : UInt8), 0x35, 0x22, 0x05].length = MESSAGE_START_SIZE := rfl

def mainStart : MessageStart := ⟨[0x70, 0x35, 0x22, 0x05], mainBytes_length⟩

def tenBytes : SendAnswers where
  send _ data := min 10 data.length
  send_le _ _ := min_le_right _ _
  nErr _ := WSAEWOULDBLOCK

end Sample

/-- Ten bytes of a message are sent, fourteen are left. -/
theorem tenBytes_keeps_stream : ∃ pnode,
    run Sample.tenBytes Sample.mainStart (fun _ => 0) {} [.beginMessage [], .endMessage false] = .ok pnode ∧
      pnode.sent <+: pnode.queued.flatten ∧ pnode.sent.length = 10 ∧ pnode.queued.flatten.length = 24 := by
  refine ⟨_, rfl, ?_, rfl, rfl⟩
  exact ((run_keeps_stream Sample.tenBytes Sample.mainStart (fun _ => 0)
    [.beginMessage [], .endMessage false]).1 _ rfl).1

end Triangles.Net
