import Mathlib.Data.List.Basic
import Mathlib.Logic.Function.Basic
import Mathlib.Tactic.Simps.Basic

/-! # The Windows state the CNG provider works on

NCrypt and BCrypt handles, the provider's heap objects and the trace of system calls.
Handles and addresses are drawn from one counter and never reused, so each number
names one opening. Null handles are 0 and NULL pointers are `none`. -/
namespace CngWorld

abbrev Handle := ℕ
abbrev Addr := ℕ

/-- A persisted NCrypt key. NCryptOpenKey takes exactly these three values. -/
structure NKey where
  provider : ℕ
  name : List ℕ
  typeFlags : ℕ
  deriving DecidableEq, Repr

/-- BCRYPT_SHA256_ALGORITHM, BCRYPT_SHA384_ALGORITHM and BCRYPT_SHA512_ALGORITHM. -/
inductive AlgId where
  | sha256
  | sha384
  | sha512
  deriving DecidableEq, Repr

/-- BCRYPT_HASH_LENGTH in bytes. -/
def AlgId.hashLength : AlgId → ℕ
  | .sha256 => 32
  | .sha384 => 48
  | .sha512 => 64

/-- A BCrypt hash object: its algorithm and the bytes hashed so far. -/
structure HashObj where
  alg : AlgId
  absorbed : List UInt8
  finished : Bool
  deriving DecidableEq, Repr

/-- T_CNG_KEYMGMT_KEYDATA -/
structure KeyData where
  windowsKeyHandle : Handle
  deriving DecidableEq, Repr

/-- T_CNG_SIGNATURE_CTX -/
structure SignatureCtx where
  provctx : Option Addr
  propq : Option String
  algIdentifier : Option AlgId
  key : Option Addr
  hashHandle : Option Handle
  signHashFlags : ℕ
  pssSaltLen : ℕ
  deriving DecidableEq, Repr

/-- System calls that open or release something. A `freeObject none` passes a handle
variable that was never written. -/
inductive SysCall where
  | acquirePrivateKey (cert : ℕ) (h : Handle) (callerMustFree : Bool)
  | openKey (h : Handle)
  | freeObject (h : Option Handle)
  | createHash (h : Handle)
  | duplicateHash (h : Handle)
  | destroyHash (h : Option Handle)
  | enumCertificates (prev next : Option ℕ)
  | closeStore
  deriving DecidableEq, Repr

structure World where
  keys : Handle → Option NKey
  hashes : Handle → Option HashObj
  keydata : Addr → Option KeyData
  sigctx : Addr → Option SignatureCtx
  next : ℕ
  trace : List SysCall

def initial : World := ⟨fun _ => none, fun _ => none, fun _ => none, fun _ => none, 1, []⟩

namespace World

variable (w : World)

@[simps] def emit (e : SysCall) : World := { w with trace := w.trace ++ [e] }

@[simps] def addKey (e : SysCall) (k : NKey) : World :=
  { w with
    keys := Function.update w.keys w.next (some k)
    next := w.next + 1
    trace := w.trace ++ [e] }

/-- NCryptFreeObject. A handle that is not open is left alone. -/
@[simps] def freeObject (h : Option Handle) : World :=
  { w with
    keys := fun a => if some a = h then none else w.keys a
    trace := w.trace ++ [.freeObject h] }

@[simps] def addHash (e : SysCall) (obj : HashObj) : World :=
  { w with
    hashes := Function.update w.hashes w.next (some obj)
    next := w.next + 1
    trace := w.trace ++ [e] }

@[simps] def setHash (h : Handle) (obj : HashObj) : World :=
  { w with hashes := Function.update w.hashes h (some obj) }

/-- BCryptDestroyHash; NULL is refused without effect. -/
@[simps] def destroyHash (h : Option Handle) : World :=
  { w with
    hashes := fun a => if some a = h then none else w.hashes a
    trace := w.trace ++ [.destroyHash h] }

@[simps] def addKeydata : World :=
  { w with keydata := Function.update w.keydata w.next (some ⟨0⟩), next := w.next + 1 }

@[simps] def setKeydata (p : Addr) (kd : Option KeyData) : World :=
  { w with keydata := Function.update w.keydata p kd }

@[simps] def addCtx (ctx : SignatureCtx) : World :=
  { w with sigctx := Function.update w.sigctx w.next (some ctx), next := w.next + 1 }

@[simps] def setCtx (c : Addr) (ctx : Option SignatureCtx) : World :=
  { w with sigctx := Function.update w.sigctx c ctx }

end World

/-- Nothing lives at or above the counter, and 0 is never an open key handle. -/
structure Fresh (w : World) : Prop where
  null_key : w.keys 0 = none
  positive : 0 < w.next
  keys : ∀ a, w.next ≤ a → w.keys a = none
  hashes : ∀ a, w.next ≤ a → w.hashes a = none
  keydata : ∀ a, w.next ≤ a → w.keydata a = none
  sigctx : ∀ a, w.next ≤ a → w.sigctx a = none

theorem initial_fresh : Fresh initial := by
  constructor <;> simp [initial]

namespace Fresh

variable {w : World} (hw : Fresh w)
include hw

theorem key_lt {h k} (hk : w.keys h = some k) : h < w.next := by
  refine Nat.lt_of_not_le fun hle => ?_
  simp [hw.keys h hle] at hk

theorem hash_lt {h obj} (hh : w.hashes h = some obj) : h < w.next := by
  refine Nat.lt_of_not_le fun hle => ?_
  simp [hw.hashes h hle] at hh

theorem keydata_lt {p kd} (hp : w.keydata p = some kd) : p < w.next := by
  refine Nat.lt_of_not_le fun hle => ?_
  simp [hw.keydata p hle] at hp

theorem sigctx_lt {c ctx} (hc : w.sigctx c = some ctx) : c < w.next := by
  refine Nat.lt_of_not_le fun hle => ?_
  simp [hw.sigctx c hle] at hc

theorem addKey (e k) : Fresh (w.addKey e k) := by
  have hp := hw.positive
  refine ⟨?_, by simp, ?_, fun a ha => hw.hashes a (by simp at ha; omega),
    fun a ha => hw.keydata a (by simp at ha; omega),
    fun a ha => hw.sigctx a (by simp at ha; omega)⟩
  · simp [Function.update_of_ne (show (0 : ℕ) ≠ w.next by omega), hw.null_key]
  · intro a ha
    simp only [World.addKey_next] at ha
    simp [Function.update_of_ne (show a ≠ w.next by omega), hw.keys a (by omega)]

theorem freeObject (h) : Fresh (w.freeObject h) := by
  refine ⟨?_, hw.positive, ?_, hw.hashes, hw.keydata, hw.sigctx⟩
  · simp [hw.null_key]
  · intro a ha
    simp [hw.keys a ha]

theorem addHash (e obj) : Fresh (w.addHash e obj) := by
  refine ⟨hw.null_key, by simp, fun a ha => hw.keys a (by simp at ha; omega), ?_,
    fun a ha => hw.keydata a (by simp at ha; omega),
    fun a ha => hw.sigctx a (by simp at ha; omega)⟩
  intro a ha
  simp only [World.addHash_next] at ha
  simp [Function.update_of_ne (show a ≠ w.next by omega), hw.hashes a (by omega)]

theorem setHash {h} (hh : h < w.next) (obj) : Fresh (w.setHash h obj) := by
  refine ⟨hw.null_key, hw.positive, hw.keys, ?_, hw.keydata, hw.sigctx⟩
  intro a ha
  simp only [World.setHash_next] at ha
  simp [Function.update_of_ne (show a ≠ h by omega), hw.hashes a ha]

theorem destroyHash (h) : Fresh (w.destroyHash h) := by
  refine ⟨hw.null_key, hw.positive, hw.keys, ?_, hw.keydata, hw.sigctx⟩
  intro a ha
  simp [hw.hashes a ha]

theorem addKeydata : Fresh w.addKeydata := by
  refine ⟨hw.null_key, by simp, fun a ha => hw.keys a (by simp at ha; omega),
    fun a ha => hw.hashes a (by simp at ha; omega), ?_,
    fun a ha => hw.sigctx a (by simp at ha; omega)⟩
  intro a ha
  simp only [World.addKeydata_next] at ha
  simp [Function.update_of_ne (show a ≠ w.next by omega), hw.keydata a (by omega)]

theorem setKeydata {p} (hp : p < w.next) (kd) : Fresh (w.setKeydata p kd) := by
  refine ⟨hw.null_key, hw.positive, hw.keys, hw.hashes, ?_, hw.sigctx⟩
  intro a ha
  simp only [World.setKeydata_next] at ha
  simp [Function.update_of_ne (show a ≠ p by omega), hw.keydata a ha]

theorem addCtx (ctx) : Fresh (w.addCtx ctx) := by
  refine ⟨hw.null_key, by simp, fun a ha => hw.keys a (by simp at ha; omega),
    fun a ha => hw.hashes a (by simp at ha; omega),
    fun a ha => hw.keydata a (by simp at ha; omega), ?_⟩
  intro a ha
  simp only [World.addCtx_next] at ha
  simp [Function.update_of_ne (show a ≠ w.next by omega), hw.sigctx a (by omega)]

theorem setCtx {c} (hc : c < w.next) (ctx) : Fresh (w.setCtx c ctx) := by
  refine ⟨hw.null_key, hw.positive, hw.keys, hw.hashes, hw.keydata, ?_⟩
  intro a ha
  simp only [World.setCtx_next] at ha
  simp [Function.update_of_ne (show a ≠ c by omega), hw.sigctx a ha]

end Fresh

end CngWorld
