import MakeDownFile.StepRelations
import Mathlib.Algebra.Ring.Nat
import Mathlib.Data.Int.Notation
import Mathlib.Data.List.Basic

/-! # Framed transfers over a byte stream

send_data and recv_data loop until all of a message has been taken or filled in. Two
parties make such calls one after the other, and what they transfer in one turn of a loop
is up to the system. Offsets stay within the length asked for, so int does not overflow. -/
namespace StreamTransfer

open StepRelations

/-- A call of send_data: its arguments, its offset, and whether a send has failed. -/
structure SendData where
  buf : List UInt8
  len : ℕ
  sendLen : ℕ
  failed : Bool
  deriving DecidableEq, Repr

def sendData (buf : List UInt8) (len : ℕ) : SendData := ⟨buf, len, 0, false⟩

def SendData.returned (c : SendData) : Option ℤ :=
  if c.failed then some (-1) else if c.sendLen < c.len then none else some c.sendLen

def SendData.asked (c : SendData) : List UInt8 := (c.buf.drop c.sendLen).take (c.len - c.sendLen)

def SendData.turn (ret : ℤ) (c : SendData) : SendData :=
  if ret < 0 then { c with failed := true } else { c with sendLen := c.sendLen + ret.toNat }

structure RecvData where
  buf : List UInt8
  len : ℕ
  recvLen : ℕ
  failed : Bool
  deriving DecidableEq, Repr

def recvData (buf : List UInt8) (len : ℕ) : RecvData := ⟨buf, len, 0, false⟩

def RecvData.returned (c : RecvData) : Option ℤ :=
  if c.failed then some (-1) else if c.recvLen < c.len then none else some c.recvLen

def RecvData.turn (ret : ℤ) (bytes : List UInt8) (c : RecvData) : RecvData :=
  if ret < 0 then { c with failed := true }
  else
    { c with
      buf := c.buf.take c.recvLen ++ bytes ++ c.buf.drop (c.recvLen + bytes.length)
      recvLen := c.recvLen + ret.toNat }

structure Calls (α γ : Type) where
  pending : List α
  active : Option γ
  finished : List γ

inductive NextCall {α γ : Type} (start : α → γ) (returned : γ → Option ℤ) :
    Calls α γ → Calls α γ → Prop where
  | enter {a as fin} : NextCall start returned ⟨a :: as, none, fin⟩ ⟨as, some (start a), fin⟩
  | leave {as c fin r} (hret : returned c = some r) :
      NextCall start returned ⟨as, some c, fin⟩ ⟨as, none, fin ++ [c]⟩

structure RecvRequest where
  buf : List UInt8
  len : ℕ
  deriving DecidableEq, Repr

/-- A connected stream: the bytes in flight and the calls of the two sides. -/
structure Connection where
  queue : List UInt8
  sender : Calls (List UInt8) SendData
  receiver : Calls RecvRequest RecvData

/-- send accepts any positive count up to what is asked, recv returns any positive count
up to what is asked and available. -/
inductive Step : Connection → Connection → Prop where
  | sender {q s s' r} (h : NextCall (fun buf => sendData buf buf.length) SendData.returned s s') :
      Step ⟨q, s, r⟩ ⟨q, s', r⟩
  | receiver {q s r r'} (h : NextCall (fun a => recvData a.buf a.len) RecvData.returned r r') :
      Step ⟨q, s, r⟩ ⟨q, s, r'⟩
  | send {q as c fin r k} (hrun : c.returned = none) (hpos : 0 < k) (hle : k ≤ c.asked.length) :
      Step ⟨q, ⟨as, some c, fin⟩, r⟩
        ⟨q ++ c.asked.take k, ⟨as, some (c.turn (k : ℕ)), fin⟩, r⟩
  | recv {q s as c fin k} (hrun : c.returned = none) (hpos : 0 < k) (hle : k ≤ c.len - c.recvLen)
      (havail : k ≤ q.length) :
      Step ⟨q, s, ⟨as, some c, fin⟩⟩
        ⟨q.drop k, s, ⟨as, some (c.turn (k : ℕ) (q.take k)), fin⟩⟩

def connected (msgs : List (List UInt8)) (requests : List RecvRequest) : Connection :=
  ⟨[], ⟨msgs, none, []⟩, ⟨requests, none, []⟩⟩

section Calls

variable {α γ β : Type} {start : α → γ} {returned : γ → Option ℤ}

/-- The calls of a party in the order in which they are made. `Ok` holds of every call and
`Done` of those that have returned. -/
structure CallsInv (start : α → γ) (arg : γ → β) (Ok Done : γ → Prop) (args : List β)
    (s : Calls α γ) : Prop where
  order : s.finished.map arg ++ (s.active.toList ++ s.pending.map start).map arg = args
  ok : ∀ c ∈ s.finished ++ (s.active.toList ++ s.pending.map start), Ok c
  done : ∀ c ∈ s.finished, Done c

variable {arg : γ → β} {Ok Done : γ → Prop} {args : List β} {s s' : Calls α γ}

theorem CallsInv.next (h : CallsInv start arg Ok Done args s)
    (hret : ∀ c r, Ok c → returned c = some r → Done c) (hs : NextCall start returned s s') :
    CallsInv start arg Ok Done args s' := by
  cases hs with
  | enter => exact ⟨h.order, h.ok, h.done⟩
  | leave hr =>
    rename_i as c fin r
    have hok : Ok c := h.ok c (by simp)
    refine ⟨?_, ?_, fun d hd => ?_⟩
    · have horder := h.order
      simpa using horder
    · have := h.ok
      simpa [or_assoc] using this
    · rcases List.mem_append.mp hd with hd | hd
      · exact h.done d hd
      · rw [List.mem_singleton.mp hd]
        exact hret c r hok hr

/-- A turn of the loop in the active call keeps what it keeps of that call. -/
theorem CallsInv.turn {as : List α} {c c' : γ} {fin : List γ}
    (h : CallsInv start arg Ok Done args ⟨as, some c, fin⟩) (harg : arg c' = arg c)
    (hok : Ok c → Ok c') : CallsInv start arg Ok Done args ⟨as, some c', fin⟩ := by
  obtain ⟨horder, hall, hdone⟩ := h
  refine ⟨?_, fun d hd => ?_, hdone⟩
  · simpa [harg] using horder
  · simp only [Option.toList_some, List.mem_append, List.mem_singleton] at hd hall
    rcases hd with hd | rfl | hd
    · exact hall d (Or.inl hd)
    · exact hok (hall c (Or.inr (Or.inl rfl)))
    · exact hall d (Or.inr (Or.inr hd))

def Calls.bytes (data : γ → List UInt8) (s : Calls α γ) : List UInt8 :=
  ((s.finished ++ s.active.toList).map data).flatten

end Calls

def SendData.accepted (c : SendData) : List UInt8 := c.buf.take c.sendLen

def RecvData.contents (c : RecvData) : List UInt8 := c.buf.take c.recvLen

section Turns

variable {k : ℕ}

theorem send_turn_eq (c : SendData) :
    c.turn (k : ℕ) = { c with sendLen := c.sendLen + k } := by
  have hk : ¬ (k : ℤ) < 0 := by omega
  simp [SendData.turn, hk]

theorem recv_turn_eq (bytes : List UInt8) (c : RecvData) : c.turn (k : ℕ) bytes = { c with
    buf := c.buf.take c.recvLen ++ bytes ++ c.buf.drop (c.recvLen + bytes.length)
    recvLen := c.recvLen + k } := by
  have hk : ¬ (k : ℤ) < 0 := by omega
  simp [RecvData.turn, hk]

theorem send_turn_accepted {c : SendData} (hk : k ≤ c.asked.length) :
    (c.turn (k : ℕ)).accepted = c.accepted ++ c.asked.take k := by
  rw [SendData.asked, List.length_take] at hk
  rw [send_turn_eq, SendData.accepted, SendData.accepted, SendData.asked, List.take_take,
    Nat.min_eq_left (by omega), List.take_add]

end Turns

section Run

variable {msgs : List (List UInt8)} {s t : Connection}

end Run

end StreamTransfer
