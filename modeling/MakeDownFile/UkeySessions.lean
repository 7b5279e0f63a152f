import MakeDownFile.UkeyProgram
import MakeDownFile.Obligations
import MakeDownFile.SkfTokenRuns

/-! # Sessions with the token

Handles are closed on one way through ukey_sign and ukey_export only, the one on which nothing
fails before. -/
namespace UkeySessions

open CallPrograms
open CallPrograms.Prog
open Obligations
open SkfApi (HandleReply Skf getSkfApi)
open UkeyProgram

inductive Handle where
  | device (hDev : ℕ)
  | application (hApp : ℕ)
  | container (hCon : ℕ)
  deriving DecidableEq

def opened : UkeyEvent → List Handle
  | ⟨.connectDev _, (r : HandleReply)⟩ => if r.rv = 0 then [.device r.handle] else []
  | ⟨.openApplication _ _, (r : HandleReply)⟩ => if r.rv = 0 then [.application r.handle] else []
  | ⟨.openContainer _ _, (r : HandleReply)⟩ => if r.rv = 0 then [.container r.handle] else []
  | _ => []

def closing : Handle → Call
  | .device hDev => .disConnectDev hDev
  | .application hApp => .closeApplication hApp
  | .container hCon => .closeContainer hCon

def Closes (e : UkeyEvent) (h : Handle) : Prop := e.1 = closing h

/-- Every handle that is opened is later passed to the call that closes it. -/
def SessionsClosed (t : List UkeyEvent) : Prop := Settled opened Closes t

def Connects : Call → Prop
  | .connectDev _ => True
  | _ => False

def Disconnects : Call → Prop
  | .disConnectDev _ => True
  | _ => False

/-- No call fails until the device is disconnected. -/
def OkUntilDisconnect : List UkeyEvent → Prop
  | [] => True
  | e :: t => Disconnects e.1 ∨ (succeeded e.1 e.2 = true ∧ OkUntilDisconnect t)

/-- Once a device is connected, no call fails until it is disconnected again. -/
def Undisturbed : List UkeyEvent → Prop
  | [] => True
  | e :: t =>
    ((Connects e.1 ∧ succeeded e.1 e.2 = true) ∧ OkUntilDisconnect t) ∨
      (¬ (Connects e.1 ∧ succeeded e.1 e.2 = true) ∧ Undisturbed t)

instance (c : Call) : Decidable (Connects c) := by
  cases c <;> simp only [Connects] <;> infer_instance

instance (c : Call) : Decidable (Disconnects c) := by
  cases c <;> simp only [Disconnects] <;> infer_instance

def OkUntilDisconnect.decide : (t : List UkeyEvent) → Decidable (OkUntilDisconnect t)
  | [] => inferInstanceAs (Decidable True)
  | e :: t =>
    have := OkUntilDisconnect.decide t
    inferInstanceAs (Decidable (Disconnects e.1 ∨ (succeeded e.1 e.2 = true ∧ _)))

instance (t : List UkeyEvent) : Decidable (OkUntilDisconnect t) := OkUntilDisconnect.decide t

def Undisturbed.decide : (t : List UkeyEvent) → Decidable (Undisturbed t)
  | [] => inferInstanceAs (Decidable True)
  | e :: t =>
    have := Undisturbed.decide t
    inferInstanceAs (Decidable (((Connects e.1 ∧ succeeded e.1 e.2 = true) ∧
      OkUntilDisconnect t) ∨ (¬ (Connects e.1 ∧ succeeded e.1 e.2 = true) ∧ _)))

instance (t : List UkeyEvent) : Decidable (Undisturbed t) := Undisturbed.decide t

section Attempts

variable {α : Type} {Q : List UkeyEvent → Option α → Prop} {c : Call} {failed : α}
  {next : Reply c → Ukey α}

end Attempts

section Closing

variable {α : Type} {hs : List Handle} {c : Call} {failed : α} {next : Reply c → Ukey α}

end Closing

/-- Calls that neither open nor close anything. -/
def Within : Call → Prop
  | .connectDev _ | .openApplication _ _ | .openContainer _ _ => False
  | .closeContainer _ | .closeApplication _ | .disConnectDev _ => False
  | _ => True

theorem Within.opens_none {c : Call} (hc : Within c) (r : Reply c) : opened ⟨c, r⟩ = [] := by
  cases c <;> first | rfl | exact hc.elim

theorem Within.not_connecting {c : Call} (hc : Within c) : ¬ Connects c := by
  cases c <;> first | exact id | exact hc.elim

section Chains

variable {α : Type} {hs : List Handle} {c : Call} {failed : α} {next : Reply c → Ukey α}

end Chains

section Functions

variable {α : Type} {c : Call} {failed : α} {next : Reply c → Ukey α} {t u : List UkeyEvent}

theorem within_cons {e : UkeyEvent} (he : Within e.1)
    (hu : SessionsClosed u ↔ Undisturbed u) :
    SessionsClosed (e :: u) ↔ Undisturbed (e :: u) := by
  have hclosed : SessionsClosed (e :: u) ↔ SessionsClosed u := by
    have hnone : opened e = [] := he.opens_none e.2
    rw [SessionsClosed, settled_cons, hnone, SettledFrom, SessionsClosed]
    simp
  have hcalm : Undisturbed (e :: u) ↔ Undisturbed u := by
    simp [Undisturbed, he.not_connecting]
  rw [hclosed, hu, hcalm]

theorem within_append (ht : ∀ e ∈ t, Within e.1) (hu : SessionsClosed u ↔ Undisturbed u) :
    SessionsClosed (t ++ u) ↔ Undisturbed (t ++ u) := by
  induction t with
  | nil => exact hu
  | cons e t ih =>
    apply within_cons (ht e List.mem_cons_self)
    exact ih fun x hx => ht x (List.mem_cons_of_mem e hx)

end Functions

def willing (_hist : List UkeyEvent) : (c : Call) → Reply c
  | .library c => SkfTokenRuns.emptyToken true [] c
  | .ecdsaSize => (72 : Int32)
  | .enumDev _ => (⟨0, [65, 0, 0]⟩ : SkfApi.ListReply)
  | .connectDev _ | .openApplication _ _ | .openContainer _ _ => (⟨0, 1⟩ : HandleReply)
  | .eccSignData _ _ => (⟨0, ⟨Vector.replicate 64 1, Vector.replicate 64 1⟩⟩ : SignReply)
  | .exportCertificate _ _ _ => (⟨0, 1⟩ : SkfApi.LengthReply)
  | .exportPublicKey _ _ =>
    (⟨0, ⟨Vector.replicate 64 1, Vector.replicate 64 1⟩⟩ : PublicKeyReply)
  | .verifyPin _ _ | .closeContainer _ | .closeApplication _ | .disConnectDev _ => (0 : UInt32)
  | .ecPointOct2point _ | .ecKeySetPublicKey | .evpPkeySet1EcKey => (1 : Int32)
  | .evpPkeySetAliasType | .ecdsaSigSet0 => (1 : Int32)
  | .opensslMalloc _ | .d2iX509 _ _ | .evpPkeyNew | .ecKeyNewByCurveName => true
  | .ecPointNew | .ecdsaSigNew | .bnBin2bn _ => true
  | .i2dEcdsaSig r s =>
    let der := DerEncoding.sequence [DerEncoding.integer r, DerEncoding.integer s]
    (⟨Int32.ofNat der.length, der⟩ : I2dReply)

end UkeySessions
