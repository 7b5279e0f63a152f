import MakeDownFile.UkeySessions

/-! # The length of a signature

What i2d_ECDSA_SIG returns is an int. It is stored in a size_t before its sign is looked at. -/
namespace UkeySignature

open ByteBuffers
open CallPrograms
open CallPrograms.Prog
open UkeyProgram
open UkeySessions

def der (r s : ℕ) : List UInt8 :=
  DerEncoding.sequence [DerEncoding.integer r, DerEncoding.integer s]

def Before : Call → Prop
  | .i2dEcdsaSig _ _ => False
  | _ => True

def EndsEarly (t : List UkeyEvent) (o : Option Signed) : Prop :=
  (∀ e ∈ t, Before e.1) ∧ ∀ s, o = some s → s.ret = 0

def encoded (buf : List UInt8) (reply : I2dReply) : Option Signed :=
  if buf.length < reply.written.length then none
  else some ⟨if toSize reply.result ≤ 0 then 0 else 1, toSize reply.result,
    some (reply.written ++ buf.drop reply.written.length)⟩

def EndsEncoded (blob : EccSignatureBlob) (buf : List UInt8) (t : List UkeyEvent)
    (o : Option Signed) : Prop :=
  ∃ v, ∃ reply : I2dReply, (∀ e ∈ v, Before e.1) ∧
    t = v ++ [⟨.i2dEcdsaSig (bigEndian (low256 blob.r)) (bigEndian (low256 blob.s)), reply⟩] ∧
    o = encoded buf reply

/-- A run comes to its encoding with what the token has signed, or ends before. -/
inductive SignEnd (buf : List UInt8) (t : List UkeyEvent) (o : Option Signed) : Prop where
  | early (h : EndsEarly t o)
  | encoded (hCon : ℕ) (data : List UInt8) (reply : SignReply)
      (hsigned : (⟨.eccSignData hCon data, reply⟩ : UkeyEvent) ∈ t)
      (h : EndsEncoded reply.blob buf t o)

section Ends

variable {blob : EccSignatureBlob} {buf : List UInt8} {t u : List UkeyEvent} {o : Option Signed}
  {c : Call} {failed : Signed} {next : Reply c → Ukey Signed}

theorem EndsEarly.behind (h : EndsEarly u o) (ht : ∀ e ∈ t, Before e.1) : EndsEarly (t ++ u) o :=
  ⟨List.forall_mem_append.mpr ⟨ht, h.1⟩, h.2⟩

theorem EndsEncoded.behind (h : EndsEncoded blob buf u o) (ht : ∀ e ∈ t, Before e.1) :
    EndsEncoded blob buf (t ++ u) o := by
  obtain ⟨v, reply, hv, rfl, ho⟩ := h
  exact ⟨t ++ v, reply, List.forall_mem_append.mpr ⟨ht, hv⟩, (List.append_assoc t v _).symm, ho⟩

theorem SignEnd.behind (h : SignEnd buf u o) (ht : ∀ e ∈ t, Before e.1) :
    SignEnd buf (t ++ u) o := by
  cases h with
  | early h => exact .early (h.behind ht)
  | encoded hCon data reply hsigned h =>
    exact .encoded hCon data reply (List.mem_append_right t hsigned) (h.behind ht)

end Ends

section Bounds

variable {capacity : ℕ} {buf : List UInt8} {sigSz : Int32} {t : List UkeyEvent}
  {o : Option Signed}

def returned (buf : List UInt8) (reply : I2dReply) : Signed :=
  ⟨if toSize reply.result ≤ 0 then 0 else 1, toSize reply.result,
    some (reply.written ++ buf.drop reply.written.length)⟩

end Bounds

def sampleRun (env : List UkeyEvent → (c : Call) → Reply c) :
    List UkeyEvent × Option (Bool × Signed) :=
  run env [] (ukeySign none (some (List.replicate 72 0)) 72 [1] true)

def sampleBlob : EccSignatureBlob := ⟨Vector.replicate 64 1, Vector.replicate 64 1⟩

end UkeySignature
