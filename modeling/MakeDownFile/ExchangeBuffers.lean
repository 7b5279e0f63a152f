import MakeDownFile.CallPrograms
import MakeDownFile.TextBuffers
import Mathlib.Data.Int.Notation

/-! # The buffer of the demo exchanges

The GMSSL server and the two clients answer what they read by appending to it, in the
buffer of 1024 bytes that they have read it into. -/
namespace ExchangeBuffers

open CallPrograms
open CallPrograms.Prog
open TextBuffers

/-- What an exchange does. A strcat shows the buffer that it is applied to. -/
inductive Call where
  | strcat (szBuffer : Buffer 1024) (suffix : List UInt8)
  | sslRead (num : ℕ)
  | sslWrite (buf : List UInt8)
  | sslDoHandshake

/-- A read that brings nothing has failed. -/
abbrev Reply : Call → Type
  | .strcat _ _ => Unit
  | .sslRead num => Chunk num
  | .sslWrite _ => ℤ
  | .sslDoHandshake => ℤ

abbrev Exchange := Prog Call Reply

def strcat (szBuffer : Buffer 1024) (suffix : List UInt8) : Exchange (Buffer 1024) :=
  .call (Call.strcat szBuffer suffix) fun _ =>
    match szBuffer.strcat suffix with
    | none => fault
    | some szBuffer => ret szBuffer

def sslRead (num : ℕ) : Exchange (Chunk num) := .call (Call.sslRead num) ret
def sslWrite (buf : List UInt8) : Exchange ℤ := .call (Call.sslWrite buf) ret
def sslDoHandshake : Exchange ℤ := .call Call.sslDoHandshake ret

/-- The exchange of a client: its greeting goes into a buffer that nothing has written to. -/
def clientExchange (first second : List UInt8) (szBuffer : Buffer 1024) : Exchange Unit := do
  let szBuffer ← strcat szBuffer first
  let _ ← sslWrite (text szBuffer.bytes)
  let nLen ← sslRead 1024
  let nLen ← if nLen.bytes = [] then sslRead 1024 else pure nLen
  let szBuffer ← strcat ((Buffer.zeros 1024).overwrite nLen le_rfl) second
  let _ ← sslWrite (text szBuffer.bytes)
  let _ ← sslRead 1024
  pure ()

def clientSuffix1 : List UInt8 :=
  ascii "\n this is from client========client resend to server 1"

def clientSuffix2 : List UInt8 :=
  ascii "\n this is from client========client resend to server 2"

def gmsslClient (szBuffer : Buffer 1024) : Exchange Unit :=
  clientExchange clientSuffix1 clientSuffix2 szBuffer

def tasslClient (szBuffer : Buffer 1024) : Exchange Unit :=
  clientExchange clientSuffix1 clientSuffix2 szBuffer

def serverSuffix1 : List UInt8 :=
  ascii "\n this is from server========server resend to client 1"

def serverSuffix2 : List UInt8 :=
  ascii "\n this is from server========server resend to client 2"

/-- After a renegotiation the server reads as many bytes as the cleared buffer has text. -/
def renegotiate (szBuffer : Buffer 1024) : Exchange (Buffer 1024) := do
  let r ← sslDoHandshake
  if r = 1 then
    let szBuffer := Buffer.zeros 1024
    let nLen ← sslRead (text szBuffer.bytes).length
    if nLen.bytes = [] then
      let _ ← sslDoHandshake
      pure szBuffer
    else pure (szBuffer.overwrite nLen ((text_length_le _).trans_eq szBuffer.length_bytes))
  else pure szBuffer

def resend (szBuffer : Buffer 1024) : Exchange Unit := do
  let szBuffer ← strcat szBuffer serverSuffix1
  let _ ← sslWrite (text szBuffer.bytes)
  let nLen ← sslRead 1024
  let szBuffer ← strcat ((Buffer.zeros 1024).overwrite nLen le_rfl) serverSuffix2
  let _ ← sslWrite (text szBuffer.bytes)
  pure ()

/-- The exchange of ssl_connetc, which clears the buffer before it first reads. -/
def sslConnetc (_szBuffer : Buffer 1024) : Exchange Unit := do
  let nLen ← sslRead 1024
  if nLen.bytes = [] then pure ()
  else
    let szBuffer ← renegotiate ((Buffer.zeros 1024).overwrite nLen le_rfl)
    resend szBuffer

/-- The other side: what the reads bring, in order, and how the handshakes end. -/
structure Peer where
  read : ℕ → (num : ℕ) → Chunk num
  write : ℕ → ℤ
  handshake : ℕ → ℤ

def isRead : Event Reply → Bool
  | ⟨.sslRead _, _⟩ => true
  | _ => false

def isWrite : Event Reply → Bool
  | ⟨.sslWrite _, _⟩ => true
  | _ => false

def isHandshake : Event Reply → Bool
  | ⟨.sslDoHandshake, _⟩ => true
  | _ => false

def Peer.answer (peer : Peer) (hist : List (Event Reply)) : (c : Call) → Reply c
  | .strcat _ _ => ()
  | .sslRead num => peer.read (hist.countP isRead) num
  | .sslWrite _ => peer.write (hist.countP isWrite)
  | .sslDoHandshake => peer.handshake (hist.countP isHandshake)

def RoomAfter {α : Type} (peer : Peer) (hist : List (Event Reply)) (exchange : Exchange α) :
    Prop :=
  ∀ szBuffer suffix, ⟨Call.strcat szBuffer suffix, ()⟩ ∈ (run peer.answer hist exchange).1 →
    szBuffer.HasRoom suffix

def Fits (txt suffix : List UInt8) : Prop := txt.length + suffix.length + 1 ≤ 1024

theorem message_fits_iff (c : Chunk 1024) (suffix : List UInt8) :
    ((Buffer.zeros 1024).overwrite c le_rfl).HasRoom suffix ↔ Fits (text c.bytes) suffix := by
  rw [Buffer.hasRoom_iff, Buffer.text_overwrite_zeros, Fits]

section Room

@[simp] theorem room_ret (a : α) : RoomAfter peer hist (ret a) := fun _ _ hm => by cases hm

theorem room_call {c : Call} {k : Reply c → Exchange α} (hc : ∀ b s, c ≠ .strcat b s) :
    RoomAfter peer hist (.call c k) ↔
      RoomAfter peer (hist ++ [⟨c, peer.answer hist c⟩]) (k (peer.answer hist c)) := by
  constructor
  · exact fun h b s hm => h b s (List.mem_cons_of_mem _ hm)
  · intro h b s hm
    rcases List.mem_cons.mp hm with he | hm
    · cases he
      exact absurd rfl (hc b s)
    · exact h b s hm

theorem room_read (num : ℕ) (f : Chunk num → Exchange α) :
    RoomAfter peer hist (sslRead num >>= f) ↔
      RoomAfter peer (hist ++ [⟨.sslRead num, peer.read (hist.countP isRead) num⟩])
        (f (peer.read (hist.countP isRead) num)) := by
  apply room_call
  rintro b s ⟨⟩

theorem room_write (buf : List UInt8) (f : ℤ → Exchange α) :
    RoomAfter peer hist (sslWrite buf >>= f) ↔
      RoomAfter peer (hist ++ [⟨.sslWrite buf, peer.write (hist.countP isWrite)⟩])
        (f (peer.write (hist.countP isWrite))) := by
  apply room_call
  rintro b s ⟨⟩

theorem room_handshake (f : ℤ → Exchange α) :
    RoomAfter peer hist (sslDoHandshake >>= f) ↔
      RoomAfter peer (hist ++ [⟨.sslDoHandshake, peer.handshake (hist.countP isHandshake)⟩])
        (f (peer.handshake (hist.countP isHandshake))) := by
  apply room_call
  rintro b s ⟨⟩

theorem room_strcat (b : Buffer 1024) (s : List UInt8) (f : Buffer 1024 → Exchange α) :
    RoomAfter peer hist (strcat b s >>= f) ↔
      b.HasRoom s ∧ ∀ b', b.strcat s = some b' →
        RoomAfter peer (hist ++ [⟨.strcat b s, ()⟩]) (f b') := by
  have hcall : strcat b s >>= f = .call (Call.strcat b s) fun _ =>
      (match b.strcat s with
        | none => fault
        | some b' => ret b') >>= f := rfl
  constructor
  · intro h
    refine ⟨h b s List.mem_cons_self, fun b' hb' b₁ s₁ hm => h b₁ s₁ ?_⟩
    rw [hcall, hb']
    exact List.mem_cons_of_mem _ hm
  · rintro ⟨hroom, hrest⟩ b₁ s₁ hm
    obtain ⟨b', hb'⟩ := Buffer.strcat_some hroom
    rw [hcall, hb'] at hm
    rcases List.mem_cons.mp hm with he | hm
    · cases he
      exact hroom
    · exact hrest b' hb' b₁ s₁ hm

theorem room_append_last {suffix : List UInt8} {f : Buffer 1024 → Exchange α}
    (hf : ∀ hist b, RoomAfter peer hist (f b)) (nLen : Chunk 1024) :
    RoomAfter peer hist (strcat ((Buffer.zeros 1024).overwrite nLen le_rfl) suffix >>= f) ↔
      Fits (text nLen.bytes) suffix := by
  rw [room_strcat, message_fits_iff]
  exact and_iff_left fun b' _ => hf _ b'

theorem reads_append (hist : List (Event Reply)) (e : Event Reply) :
    (hist ++ [e]).countP isRead = hist.countP isRead + if isRead e then 1 else 0 := by
  rw [List.countP_append, List.countP_singleton]

end Room

def NeverOverflows (peer : Peer) (exchange : Exchange Unit) : Prop := RoomAfter peer [] exchange

/-- The message that a client answers: it reads again if its first read fails. -/
def Peer.reply (peer : Peer) : Chunk 1024 :=
  if (peer.read 0 1024).bytes = [] then peer.read 1 1024 else peer.read 0 1024

def ClientFits (peer : Peer) (first second : List UInt8) (szBuffer : Buffer 1024) : Prop :=
  Fits (text szBuffer.bytes) first ∧ Fits (text peer.reply.bytes) second

theorem client_exchange_iff (peer : Peer) (first second : List UInt8) (szBuffer : Buffer 1024) :
    NeverOverflows peer (clientExchange first second szBuffer) ↔
      ClientFits peer first second szBuffer := by
  have hfirst : szBuffer.HasRoom first ↔ Fits (text szBuffer.bytes) first := Buffer.hasRoom_iff
  have hlast : ∀ (hist : List (Event Reply)) (b : Buffer 1024), RoomAfter peer hist (do
      let _ ← sslWrite (text b.bytes)
      let _ ← sslRead 1024
      pure ()) := by
    intro hist b
    rw [room_write, room_read]
    exact room_ret ()
  rw [NeverOverflows, clientExchange, room_strcat, ClientFits, hfirst]
  apply and_congr_right
  intro hfits
  obtain ⟨b', hb'⟩ := Buffer.strcat_some (hfirst.mpr hfits)
  simp only [hb', Option.some.injEq, forall_eq']
  rw [room_write, room_read, reads_append, reads_append]
  by_cases hfail : (peer.read 0 1024).bytes = []
  · simp only [List.countP_nil, isRead, Bool.false_eq_true, if_false, hfail, if_true]
    rw [room_read, room_append_last hlast, Peer.reply, if_pos hfail]
    simp only [reads_append]
    rfl
  · simp only [List.countP_nil, isRead, Bool.false_eq_true, if_false, hfail, pure_then]
    rw [room_append_last hlast, Peer.reply, if_neg hfail]

/-- A read of as much as a cleared buffer has text brings nothing. -/
theorem cleared_read_empty (c : Chunk (text (Buffer.zeros 1024).bytes).length) :
    c.bytes = [] := by
  have htext : text (Buffer.zeros 1024).bytes = [] := text_replicate 1024
  have hlen : c.bytes.length ≤ 0 := c.length_le.trans_eq (congrArg List.length htext)
  exact List.length_eq_zero_iff.mp (Nat.le_zero.mp hlen)

/-- A renegotiation leaves the message where it is, or a cleared buffer and one read more
behind it. -/
theorem room_renegotiate {α : Type} (peer : Peer) (hist : List (Event Reply))
    (szBuffer : Buffer 1024) (f : Buffer 1024 → Exchange α) :
    ∃ hist', hist'.countP isRead = hist.countP isRead +
        (if peer.handshake (hist.countP isHandshake) = 1 then 1 else 0) ∧
      (RoomAfter peer hist (renegotiate szBuffer >>= f) ↔ RoomAfter peer hist' (f
        (if peer.handshake (hist.countP isHandshake) = 1 then Buffer.zeros 1024
          else szBuffer))) := by
  have hunfold : renegotiate szBuffer >>= f = sslDoHandshake >>= fun r =>
      (if r = 1 then do
        let nLen ← sslRead (text (Buffer.zeros 1024).bytes).length
        if nLen.bytes = [] then
          let _ ← sslDoHandshake
          pure (Buffer.zeros 1024)
        else pure ((Buffer.zeros 1024).overwrite nLen
          ((text_length_le _).trans_eq (Buffer.zeros 1024).length_bytes))
      else pure szBuffer) >>= f := rfl
  rw [hunfold, room_handshake]
  by_cases hr : peer.handshake (hist.countP isHandshake) = 1
  · simp only [hr, if_true]
    rw [then_assoc, room_read, if_pos (cleared_read_empty _), then_assoc, room_handshake,
      pure_then]
    refine ⟨_, ?_, Iff.rfl⟩
    simp only [reads_append]
    rfl
  · simp only [hr, if_false, pure_then]
    refine ⟨_, ?_, Iff.rfl⟩
    rw [reads_append]
    rfl

def ServerFits (peer : Peer) : Prop :=
  (peer.read 0 1024).bytes = [] ∨
    (peer.handshake 0 ≠ 1 → Fits (text (peer.read 0 1024).bytes) serverSuffix1) ∧
    Fits (text (peer.read (if peer.handshake 0 = 1 then 2 else 1) 1024).bytes) serverSuffix2

/-- The second message is the read behind the renegotiation. -/
theorem server_exchange_iff (peer : Peer) (szBuffer : Buffer 1024) :
    NeverOverflows peer (sslConnetc szBuffer) ↔ ServerFits peer := by
  have hlast : ∀ (hist : List (Event Reply)) (b : Buffer 1024), RoomAfter peer hist (do
      let _ ← sslWrite (text b.bytes)
      pure ()) := by
    intro hist b
    rw [room_write]
    exact room_ret ()
  rw [NeverOverflows, sslConnetc, room_read, ServerFits, List.countP_nil]
  by_cases hfail : (peer.read 0 1024).bytes = []
  · simp [hfail]
  obtain ⟨hist, hreads, hrest⟩ := room_renegotiate peer [⟨Call.sslRead 1024, peer.read 0 1024⟩]
    ((Buffer.zeros 1024).overwrite (peer.read 0 1024) le_rfl) resend
  have hcount : ([⟨Call.sslRead 1024, peer.read 0 1024⟩] :
      List (Event Reply)).countP isHandshake = 0 := rfl
  have hone : ([⟨Call.sslRead 1024, peer.read 0 1024⟩] :
      List (Event Reply)).countP isRead = 1 := rfl
  rw [hcount] at hreads hrest
  rw [hone] at hreads
  have hfirst : (if peer.handshake 0 = 1 then Buffer.zeros 1024
      else (Buffer.zeros 1024).overwrite (peer.read 0 1024) le_rfl).HasRoom serverSuffix1 ↔
        (peer.handshake 0 ≠ 1 → Fits (text (peer.read 0 1024).bytes) serverSuffix1) := by
    by_cases hr : peer.handshake 0 = 1
    · have hroom : (Buffer.zeros 1024).HasRoom serverSuffix1 := by
        rw [Buffer.hasRoom_iff, Buffer.zeros, text_replicate]
        decide
      simp [hr, hroom]
    · simp [hr, message_fits_iff]
  rw [if_neg hfail, List.nil_append, hrest, resend, room_strcat, or_iff_right hfail, hfirst]
  apply and_congr_right
  intro hfits
  obtain ⟨b', hb'⟩ := Buffer.strcat_some (hfirst.mpr hfits)
  simp only [hb', Option.some.injEq, forall_eq']
  rw [room_write, room_read, room_append_last hlast]
  simp only [reads_append, hreads, isRead, Bool.false_eq_true, if_false, Nat.add_zero]
  by_cases hr : peer.handshake 0 = 1 <;> simp only [hr, if_true, if_false]

/-- Where the three exchanges keep within their buffers: each message that is answered has
text short enough for the answer, and so has what the clients find in theirs. -/
theorem exchanges_never_overflow_iff (peer : Peer) (szBuffer : Buffer 1024) :
    (NeverOverflows peer (sslConnetc szBuffer) ↔ ServerFits peer) ∧
    (NeverOverflows peer (gmsslClient szBuffer) ↔
      ClientFits peer clientSuffix1 clientSuffix2 szBuffer) ∧
    (NeverOverflows peer (tasslClient szBuffer) ↔
      ClientFits peer clientSuffix1 clientSuffix2 szBuffer) :=
  ⟨server_exchange_iff peer szBuffer, client_exchange_iff peer _ _ szBuffer,
    client_exchange_iff peer _ _ szBuffer⟩

/-- A message that fills the server's buffer leaves it without a NUL. -/
theorem full_message_overflows : ∃ (peer : Peer) (szBuffer : Buffer 1024),
    (peer.read 0 1024).bytes = List.replicate 1024 65 ∧
      ¬ NeverOverflows peer (sslConnetc szBuffer) := by
  let peer : Peer := ⟨fun _ num => ⟨List.replicate num 65, by simp⟩, fun _ => 1, fun _ => 0⟩
  refine ⟨peer, Buffer.zeros 1024, rfl, fun hsafe => ?_⟩
  have htext : ∀ n, text (List.replicate n 65) = List.replicate n 65 := by
    intro n
    simp [text]
  rcases (server_exchange_iff peer (Buffer.zeros 1024)).mp hsafe with hfail | ⟨hfirst, _⟩
  · have hread : (peer.read 0 1024).bytes.length = 1024 := List.length_replicate
    rw [hfail] at hread
    cases hread
  · have hfits : (text (List.replicate 1024 65)).length + serverSuffix1.length + 1 ≤ 1024 :=
      hfirst (by decide)
    rw [htext, List.length_replicate] at hfits
    omega

end ExchangeBuffers
