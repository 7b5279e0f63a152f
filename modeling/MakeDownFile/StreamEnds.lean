import MakeDownFile.StreamTransfer
import MakeDownFile.TextBuffers

/-! # Streams that end

recv returns 0 once the peer has closed and its bytes are used up. recv_data takes that for
a turn in which nothing has arrived yet, and goes on asking. -/
namespace StreamEnds

open StepRelations
open StreamTransfer
open TextBuffers

/-- What comes behind the last byte of a stream. -/
inductive Ending where
  | closed
  | error
  deriving DecidableEq, Repr

/-- A call of recv_data and the bytes that are still to come. -/
structure Receiving where
  queue : List UInt8
  call : RecvData
  deriving DecidableEq, Repr

/-- A turn of the loop. recv returns any positive count up to what is asked and left, and 0
or a negative value at the end of the stream. -/
inductive Recv : Ending → Receiving → Receiving → Prop where
  | bytes {e q c k} (hrun : c.returned = none) (hpos : 0 < k) (hle : k ≤ c.len - c.recvLen)
      (havail : k ≤ q.length) : Recv e ⟨q, c⟩ ⟨q.drop k, c.turn (k : ℕ) (q.take k)⟩
  | closed {c} (hrun : c.returned = none) : Recv .closed ⟨[], c⟩ ⟨[], c.turn (0 : ℕ) []⟩
  | error {c ret} (hrun : c.returned = none) (hneg : ret < 0) :
      Recv .error ⟨[], c⟩ ⟨[], c.turn ret []⟩

def Ends (e : Ending) (bytes buf : List UInt8) (len : ℕ) : Prop :=
  (∃ bound, ∀ n s, Run (Recv e) n ⟨bytes, recvData buf len⟩ s → n ≤ bound) ∧
    ∀ n s, Run (Recv e) n ⟨bytes, recvData buf len⟩ s → Stuck (Recv e) s →
      ∃ r, s.call.returned = some r ∧ (r = len ↔ len ≤ bytes.length)

/-- The client in the loop of its main, or behind it. -/
inductive Phase where
  | prompt
  | sending (c : SendData)
  | receiving (c : RecvData)
  | ended
  deriving DecidableEq, Repr

structure Client where
  queue : List UInt8
  phase : Phase
  deriving DecidableEq, Repr

def typed (word : List UInt8) : List UInt8 := word ++ List.replicate (1024 - word.length) 0

def message (word : List UInt8) : SendData := sendData (typed word) (text (typed word)).length

/-- Longer words would overflow buf in scanf. -/
inductive ClientStep (e : Ending) : Client → Client → Prop where
  | scanf {q word} (hfits : word.length < 1024) :
      ClientStep e ⟨q, .prompt⟩ ⟨q, .sending (message word)⟩
  | send {q c k} (hrun : c.returned = none) (hpos : 0 < k) (hle : k ≤ c.asked.length) :
      ClientStep e ⟨q, .sending c⟩ ⟨q, .sending (c.turn (k : ℕ))⟩
  | sendError {q c ret} (hrun : c.returned = none) (hneg : ret < 0) :
      ClientStep e ⟨q, .sending c⟩ ⟨q, .sending (c.turn ret)⟩
  | sent {q c r} (hret : c.returned = some r) :
      ClientStep e ⟨q, .sending c⟩
        ⟨q, if r < 0 then .ended else .receiving (recvData c.buf 1024)⟩
  | recv {q q' c c'} (h : Recv e ⟨q, c⟩ ⟨q', c'⟩) :
      ClientStep e ⟨q, .receiving c⟩ ⟨q', .receiving c'⟩
  | received {q c r} (hret : c.returned = some r) :
      ClientStep e ⟨q, .receiving c⟩ ⟨q, if r < 0 then .ended else .prompt⟩

def ClientEnds (e : Ending) (bytes : List UInt8) : Prop :=
  (∃ bound, ∀ n s, Run (ClientStep e) n ⟨bytes, .prompt⟩ s → n ≤ bound) ∧
    ∀ n s, Run (ClientStep e) n ⟨bytes, .prompt⟩ s → Stuck (ClientStep e) s → s.phase = .ended

theorem recv_running {c : RecvData} :
    c.returned = none ↔ c.failed = false ∧ c.recvLen < c.len := by
  cases hfail : c.failed <;> simp [RecvData.returned, hfail]

theorem recv_done {c : RecvData} {r : ℤ} (hret : c.returned = some r) (hr : ¬ r < 0) :
    c.failed = false ∧ c.len ≤ c.recvLen := by
  rw [RecvData.returned] at hret
  split at hret
  · cases hret
    exact absurd (by decide) hr
  · split at hret
    · cases hret
    · exact ⟨Bool.eq_false_iff.mpr ‹_›, Nat.le_of_not_lt ‹_›⟩

theorem recv_turn_error {c : RecvData} {ret : ℤ} (hneg : ret < 0) :
    c.turn ret [] = { c with failed := true } := if_pos hneg

theorem send_running {c : SendData} :
    c.returned = none ↔ c.failed = false ∧ c.sendLen < c.len := by
  cases hfail : c.failed <;> simp [SendData.returned, hfail]

theorem send_turn_error {c : SendData} {ret : ℤ} (hneg : ret < 0) :
    c.turn ret = { c with failed := true } := if_pos hneg

/-- A call that has not returned calls recv once more. -/
theorem recv_progress (e : Ending) {q : List UInt8} {c : RecvData} (hrun : c.returned = none) :
    ∃ t, Recv e ⟨q, c⟩ t := by
  cases q with
  | cons b q =>
    have hless := (recv_running.mp hrun).2
    exact ⟨_, .bytes hrun Nat.one_pos (by omega) (by simp)⟩
  | nil =>
    cases e with
    | closed => exact ⟨_, .closed hrun⟩
    | error => exact ⟨_, .error hrun (show (-1 : ℤ) < 0 by decide)⟩

theorem recv_cases {e : Ending} {s t : Receiving} (h : Recv e s t) :
    s.call.failed = false ∧ s.call.recvLen < s.call.len ∧ t.call.len = s.call.len ∧
      ((∃ k, 0 < k ∧ t.call.recvLen = s.call.recvLen + k ∧ t.call.recvLen ≤ s.call.len ∧
          t.queue.length + k = s.queue.length ∧ t.call.failed = false) ∨
        s.queue.length = 0 ∧ t.queue.length = 0 ∧ t.call.recvLen = s.call.recvLen ∧
          (t.call.failed = true ↔ e = .error)) := by
  cases h with
  | bytes hrun hpos hle havail =>
    rename_i q c k
    obtain ⟨hok, hless⟩ := recv_running.mp hrun
    rw [recv_turn_eq]
    refine ⟨hok, hless, rfl, Or.inl ⟨k, hpos, rfl, ?_, ?_, hok⟩⟩
    · simp only
      omega
    · rw [List.length_drop, Nat.sub_add_cancel havail]
  | closed hrun =>
    obtain ⟨hok, hless⟩ := recv_running.mp hrun
    rw [recv_turn_eq]
    exact ⟨hok, hless, rfl, Or.inr ⟨rfl, rfl, rfl, by simp [hok]⟩⟩
  | error hrun hneg =>
    obtain ⟨hok, hless⟩ := recv_running.mp hrun
    rw [recv_turn_error hneg]
    exact ⟨hok, hless, rfl, Or.inr ⟨rfl, rfl, rfl, by simp⟩⟩

theorem recv_closed_ok {s t : Receiving} (h : Recv .closed s t) : t.call.failed = false := by
  obtain ⟨-, -, -, hmove | hend⟩ := recv_cases h
  · obtain ⟨k, -, -, -, -, hok⟩ := hmove
    exact hok
  · obtain ⟨-, -, -, hfail⟩ := hend
    simpa using hfail

/-- What has been received and what is still to come make up the stream, and a call that has
failed had come to its end. -/
structure ReceivingInv (bytes : List UInt8) (len : ℕ) (s : Receiving) : Prop where
  asked : s.call.len = len
  recvLen : s.call.recvLen ≤ len
  flow : s.call.recvLen + s.queue.length = bytes.length
  short : s.call.failed = true → bytes.length < len

section Receiving

variable {e : Ending} {bytes buf : List UInt8} {len : ℕ} {s t : Receiving}

theorem receiving_inv_start (bytes buf : List UInt8) (len : ℕ) :
    ReceivingInv bytes len ⟨bytes, recvData buf len⟩ :=
  ⟨rfl, Nat.zero_le _, Nat.zero_add _, fun h => nomatch h⟩

theorem receiving_inv_step (h : ReceivingInv bytes len s) (hs : Recv e s t) :
    ReceivingInv bytes len t := by
  obtain ⟨hlen, hrecv, hflow, -⟩ := h
  obtain ⟨-, hless, hlen', hmove | hend⟩ := recv_cases hs
  · obtain ⟨k, hpos, hrecv', hle, hqueue, hok⟩ := hmove
    refine ⟨by omega, by omega, by omega, fun hfail => ?_⟩
    rw [hok] at hfail
    cases hfail
  · obtain ⟨hqueue, hqueue', hrecv', -⟩ := hend
    exact ⟨by omega, by omega, by omega, fun _ => by omega⟩

/-- A call that has returned tells whether the stream was long enough. -/
theorem receiving_result (h : ReceivingInv bytes len s) (hstuck : Stuck (Recv e) s) :
    ∃ r, s.call.returned = some r ∧ (r = len ↔ len ≤ bytes.length) := by
  obtain ⟨q, c⟩ := s
  obtain ⟨hlen, hrecv, hflow, hshort⟩ := h
  simp only at hlen hrecv hflow hshort
  by_cases hfail : c.failed = true
  · have := hshort hfail
    refine ⟨-1, by rw [RecvData.returned, if_pos hfail], ?_⟩
    constructor <;> intro h <;> omega
  · by_cases hless : c.recvLen < c.len
    · obtain ⟨t, ht⟩ := recv_progress e (q := q)
        (recv_running.mpr ⟨Bool.eq_false_iff.mpr hfail, hless⟩)
      exact absurd ht (hstuck t)
    · refine ⟨c.recvLen, by rw [RecvData.returned, if_neg hfail, if_neg hless], ?_⟩
      constructor <;> intro h <;> omega

def turnsLeft (s : Receiving) : ℕ :=
  if s.call.failed then 0 else s.call.len - s.call.recvLen + 1

theorem turns_left_step (hcan : len ≤ bytes.length ∨ e = .error) (h : ReceivingInv bytes len s)
    (hs : Recv e s t) : turnsLeft t < turnsLeft s := by
  obtain ⟨hlen, hrecv, hflow, -⟩ := h
  obtain ⟨hok, hless, hlen', hmove | hend⟩ := recv_cases hs
  · obtain ⟨k, hpos, hrecv', hle, hqueue, hok'⟩ := hmove
    simp only [turnsLeft, hok, hok', Bool.false_eq_true, if_false]
    omega
  · obtain ⟨hqueue, -, -, hfail⟩ := hend
    rcases hcan with hcan | hcan
    · omega
    · simp only [turnsLeft, hok, hfail.mpr hcan, Bool.false_eq_true, if_false, if_true]
      omega

/-- A stream that is closed early keeps recv_data in its loop. -/
theorem recv_spins (hshort : bytes.length < len) (n : ℕ) :
    ∃ s, Run (Recv .closed) n ⟨bytes, recvData buf len⟩ s := by
  have hnext : ∀ s : Receiving, ReceivingInv bytes len s ∧ s.call.failed = false →
      ∃ t, Recv .closed s t ∧ ReceivingInv bytes len t ∧ t.call.failed = false := by
    intro ⟨q, c⟩ ⟨hinv, hok⟩
    have hless : c.recvLen < c.len := by
      have hlen := hinv.asked
      have hflow := hinv.flow
      simp only at hlen hflow
      omega
    obtain ⟨t, ht⟩ := recv_progress .closed (q := q) (recv_running.mpr ⟨hok, hless⟩)
    exact ⟨t, ht, receiving_inv_step hinv ht, recv_closed_ok ht⟩
  obtain ⟨s, hs, -⟩ := run_unbounded hnext ⟨receiving_inv_start bytes buf len, rfl⟩ n
  exact ⟨s, hs⟩

theorem ends_of_enough (hcan : len ≤ bytes.length ∨ e = .error) : Ends e bytes buf len := by
  have hkeep : ∀ s t, ReceivingInv bytes len s → Recv e s t → ReceivingInv bytes len t :=
    fun _ _ => receiving_inv_step
  have hless : ∀ s t, ReceivingInv bytes len s → Recv e s t → turnsLeft t < turnsLeft s :=
    fun _ _ => turns_left_step hcan
  have hstart := receiving_inv_start bytes buf len
  refine ⟨⟨turnsLeft ⟨bytes, recvData buf len⟩, fun n s hs => ?_⟩, fun n s hs hstuck => ?_⟩
  · exact Nat.le_trans (Nat.le_add_right _ _) (run_bounded hkeep hless hstart hs)
  · exact receiving_result (run_invariant hkeep hstart hs) hstuck

theorem not_ends_of_short (hshort : bytes.length < len) : ¬ Ends .closed bytes buf len := by
  intro ⟨⟨bound, hbound⟩, _⟩
  have hspins : ∃ s, Run (Recv .closed) (bound + 1) ⟨bytes, recvData buf len⟩ s :=
    recv_spins hshort (bound + 1)
  obtain ⟨s, hs⟩ := hspins
  have := hbound _ s hs
  omega

end Receiving

def ClientInv (s : Client) : Prop :=
  match s.phase with
  | .sending c => c.len < 1024 ∧ c.sendLen ≤ c.len
  | .receiving c => c.len = 1024 ∧ c.recvLen ≤ 1024
  | _ => True

/-- A bound on the steps of a client whose stream ends with an error. A round costs less than
the 1024 bytes that it takes from the stream. -/
def roundsLeft (s : Client) : ℕ :=
  match s.phase with
  | .prompt => 3 * s.queue.length + 2051
  | .sending c => 3 * s.queue.length + 1026 + if c.failed then 0 else c.len - c.sendLen + 1
  | .receiving c =>
    if c.failed then 1 else 3 * (s.queue.length + c.recvLen) + (1024 - c.recvLen) + 1
  | .ended => 0

section Client

variable {e : Ending} {bytes : List UInt8} {s t : Client}

theorem asked_le (c : SendData) : c.asked.length ≤ c.len - c.sendLen :=
  List.length_take_le _ _

theorem message_len {word : List UInt8} (hfits : word.length < 1024) :
    (message word).len < 1024 := by
  have htext : text (typed word) = text word := text_append_replicate word _
  have hlen := text_length_le word
  rw [← htext] at hlen
  exact Nat.lt_of_le_of_lt hlen hfits

theorem client_inv_step (h : ClientInv s) (hs : ClientStep e s t) : ClientInv t := by
  cases hs with
  | scanf hfits =>
    exact ⟨message_len hfits, Nat.zero_le _⟩
  | send hrun hpos hle =>
    rename_i q c k
    have := asked_le c
    simp only [ClientInv] at h
    rw [send_turn_eq]
    refine ⟨h.1, ?_⟩
    simp only
    omega
  | sendError hrun hneg =>
    rw [send_turn_error hneg]
    exact h
  | sent hret =>
    split
    · trivial
    · exact ⟨rfl, Nat.zero_le _⟩
  | recv hrecv =>
    simp only [ClientInv] at h ⊢
    obtain ⟨-, -, hlen, hmove | hend⟩ := recv_cases hrecv
    · obtain ⟨k, -, -, hle, -⟩ := hmove
      simp only at hlen hle
      omega
    · obtain ⟨-, -, hrecv', -⟩ := hend
      simp only at hlen hrecv'
      omega
  | received hret =>
    split
    · trivial
    · trivial

theorem rounds_left_step (h : ClientInv s) (hs : ClientStep .error s t) :
    roundsLeft t < roundsLeft s := by
  cases hs with
  | scanf hfits =>
    rename_i q word
    have hlen := message_len hfits
    have hok : (message word).failed = false := rfl
    simp only [roundsLeft, hok, Bool.false_eq_true, if_false]
    omega
  | send hrun hpos hle =>
    rename_i q c k
    have hasked := asked_le c
    obtain ⟨hok, hless⟩ := send_running.mp hrun
    rw [send_turn_eq]
    simp only [roundsLeft, hok, Bool.false_eq_true, if_false]
    omega
  | sendError hrun hneg =>
    obtain ⟨hok, hless⟩ := send_running.mp hrun
    rw [send_turn_error hneg]
    simp only [roundsLeft, hok, Bool.false_eq_true, if_false, if_true]
    omega
  | sent hret =>
    split
    · simp only [roundsLeft]
      omega
    · simp only [roundsLeft, recvData, Bool.false_eq_true, if_false]
      omega
  | recv hrecv =>
    simp only [ClientInv] at h
    obtain ⟨hok, hless, -, hmove | hend⟩ := recv_cases hrecv
    · obtain ⟨k, hpos, hrecv', hle, hqueue, hok'⟩ := hmove
      simp only at hok hless hrecv' hle hqueue hok'
      simp only [roundsLeft, hok, hok', Bool.false_eq_true, if_false]
      omega
    · obtain ⟨-, -, -, hfail⟩ := hend
      simp only at hok hless hfail
      simp only [roundsLeft, hok, hfail.mpr, Bool.false_eq_true, if_false, if_true]
      omega
  | received hret =>
    rename_i q c r
    simp only [ClientInv] at h
    by_cases hneg : r < 0
    · rw [if_pos hneg]
      simp only [roundsLeft]
      split <;> omega
    · -- the call got its 1024 bytes
      obtain ⟨hok, hfull⟩ := recv_done hret hneg
      rw [if_neg hneg]
      simp only [roundsLeft, hok, Bool.false_eq_true, if_false]
      omega

/-- Until its loop is left the client can always go on. -/
theorem client_progress (e : Ending) {q : List UInt8} {p : Phase} (hp : p ≠ .ended) :
    ∃ t, ClientStep e ⟨q, p⟩ t := by
  cases p with
  | prompt => exact ⟨_, .scanf (show ([] : List UInt8).length < 1024 by decide)⟩
  | sending c =>
    cases hret : c.returned with
    | none => exact ⟨_, .sendError hret (show (-1 : ℤ) < 0 by decide)⟩
    | some r => exact ⟨_, .sent hret⟩
  | receiving c =>
    cases hret : c.returned with
    | none =>
      obtain ⟨t, ht⟩ := recv_progress e hret
      exact ⟨_, .recv ht⟩
    | some r => exact ⟨_, .received hret⟩
  | ended => exact absurd rfl hp

def Going (s : Client) : Prop :=
  match s.phase with
  | .prompt => True
  | .sending c => c.returned = some 0
  | .receiving c => c.failed = false
  | .ended => False

/-- When the peer closes, a client whose sends succeed is never done. -/
theorem client_spins (bytes : List UInt8) (n : ℕ) :
    ∃ s, Run (ClientStep .closed) n ⟨bytes, .prompt⟩ s := by
  have hnext : ∀ s, Going s → ∃ t, ClientStep .closed s t ∧ Going t := by
    intro ⟨q, p⟩ hgo
    cases p with
    | prompt => exact ⟨_, .scanf (show ([] : List UInt8).length < 1024 by decide), rfl⟩
    | sending c => exact ⟨_, .sent hgo, rfl⟩
    | receiving c =>
      by_cases hless : c.recvLen < c.len
      · obtain ⟨t, ht⟩ := recv_progress .closed (q := q) (recv_running.mpr ⟨hgo, hless⟩)
        exact ⟨_, .recv ht, recv_closed_ok ht⟩
      · have hret : c.returned = some (c.recvLen : ℤ) := by
          rw [RecvData.returned, if_neg (by rw [hgo]; decide), if_neg hless]
        have hnat : ¬ (c.recvLen : ℤ) < 0 := by omega
        have hback := ClientStep.received (e := .closed) (q := q) hret
        rw [if_neg hnat] at hback
        exact ⟨_, hback, trivial⟩
    | ended => exact absurd hgo id
  have hstart : Going ⟨bytes, .prompt⟩ := trivial
  obtain ⟨s, hs, -⟩ := run_unbounded hnext hstart n
  exact ⟨s, hs⟩

theorem client_ends_of_error (bytes : List UInt8) : ClientEnds .error bytes := by
  have hkeep : ∀ s t, ClientInv s → ClientStep .error s t → ClientInv t :=
    fun _ _ => client_inv_step
  have hless : ∀ s t, ClientInv s → ClientStep .error s t → roundsLeft t < roundsLeft s :=
    fun _ _ => rounds_left_step
  have hstart : ClientInv ⟨bytes, .prompt⟩ := trivial
  refine ⟨⟨roundsLeft ⟨bytes, .prompt⟩, fun n s hs => ?_⟩, fun n s hs hstuck => ?_⟩
  · exact Nat.le_trans (Nat.le_add_right _ _) (run_bounded hkeep hless hstart hs)
  · by_contra hp
    obtain ⟨t, ht⟩ := client_progress .error (q := s.queue) hp
    exact hstuck t ht

theorem not_client_ends_of_closed (bytes : List UInt8) : ¬ ClientEnds .closed bytes := by
  intro ⟨⟨bound, hbound⟩, _⟩
  obtain ⟨s, hs⟩ := client_spins bytes (bound + 1)
  have := hbound _ s hs
  omega

end Client

/-- recv_data returns if and only if the stream has the length asked for or ends with an
error, and a client whose peer closes stays in its loop. -/
theorem receiving_ends_iff (e : Ending) (bytes buf : List UInt8) (len : ℕ) :
    (Ends e bytes buf len ↔ len ≤ bytes.length ∨ e = .error) ∧
      (ClientEnds e bytes ↔ e = .error) := by
  refine ⟨⟨fun h => ?_, ends_of_enough⟩, fun h => ?_, fun h => ?_⟩
  · by_contra hno
    obtain ⟨hshort, hclosed⟩ := not_or.mp hno
    cases e with
    | closed => exact not_ends_of_short (Nat.not_le.mp hshort) h
    | error => exact hclosed rfl
  · cases e with
    | closed => exact absurd h (not_client_ends_of_closed bytes)
    | error => rfl
  · rw [h]
    exact client_ends_of_error bytes

/-- The server reads once and closes, without a byte of an answer. -/
theorem receiving_from_closed_server :
    ¬ (Ends .closed [] (List.replicate 1024 0) 1024 ∧ ClientEnds .closed []) :=
  fun h => not_ends_of_short (by decide) h.1

end StreamEnds
