import MakeDownFile.SkfApi
import MakeDownFile.DerEncoding
import MakeDownFile.TextBuffers

/-! # The token in a handshake

ukey_sign and ukey_export of the client open a session of their own with the token every
time, with GetSKFAPI as in the token program. -/
namespace UkeyProgram

open ByteBuffers
open CallPrograms
open CallPrograms.Prog
open NameLists
open SkfApi (HandleReply LengthReply ListReply Skf getSkfApi)
open TextBuffers

/-- The fields have room for 512 bits, of which the token uses the last 256. -/
structure EccSignatureBlob where
  r : Vector UInt8 64
  s : Vector UInt8 64

structure EccPublicKeyBlob where
  xCoordinate : Vector UInt8 64
  yCoordinate : Vector UInt8 64

/-- Calls on the token and on OpenSSL, besides those of GetSKFAPI. Room that was not allocated
is NULL, and so is the name of a device when the list of them has no bytes. -/
inductive Call where
  | library (c : SkfApi.Call)
  | ecdsaSize
  | opensslMalloc (size : ℕ)
  | enumDev (room : Option ℕ)
  | connectDev (name : Option Name)
  | openApplication (hDev : ℕ) (name : String)
  | openContainer (hApp : ℕ) (name : String)
  | verifyPin (hApp : ℕ) (pin : String)
  | eccSignData (hCon : ℕ) (data : List UInt8)
  | exportCertificate (hCon : ℕ) (signFlag : Bool) (room : Option ℕ)
  | exportPublicKey (hCon : ℕ) (signFlag : Bool)
  | closeContainer (hCon : ℕ)
  | closeApplication (hApp : ℕ)
  | disConnectDev (hDev : ℕ)
  | d2iX509 (room : Option ℕ) (length : ℕ)
  | evpPkeyNew
  | ecKeyNewByCurveName
  | ecPointNew
  | ecPointOct2point (pubkey : List UInt8)
  | ecKeySetPublicKey
  | evpPkeySet1EcKey
  | evpPkeySetAliasType
  | ecdsaSigNew
  | bnBin2bn (bytes : List UInt8)
  | ecdsaSigSet0
  | i2dEcdsaSig (r s : ℕ)

structure SignReply where
  rv : UInt32
  blob : EccSignatureBlob

structure PublicKeyReply where
  rv : UInt32
  blob : EccPublicKeyBlob

/-- The int returned, and what was written where the encoding should go. -/
structure I2dReply where
  result : Int32
  written : List UInt8

abbrev Reply : Call → Type
  | .library c => SkfApi.Reply c
  | .ecdsaSize => Int32
  | .enumDev _ => ListReply
  | .connectDev _ | .openApplication _ _ | .openContainer _ _ => HandleReply
  | .eccSignData _ _ => SignReply
  | .exportCertificate _ _ _ => LengthReply
  | .exportPublicKey _ _ => PublicKeyReply
  | .verifyPin _ _ | .closeContainer _ | .closeApplication _ | .disConnectDev _ => UInt32
  | .ecPointOct2point _ | .ecKeySetPublicKey | .evpPkeySet1EcKey => Int32
  | .evpPkeySetAliasType | .ecdsaSigSet0 => Int32
  | .opensslMalloc _ | .d2iX509 _ _ | .evpPkeyNew | .ecKeyNewByCurveName => Bool
  | .ecPointNew | .ecdsaSigNew | .bnBin2bn _ => Bool
  | .i2dEcdsaSig _ _ => I2dReply

abbrev Ukey := Prog Call Reply

abbrev UkeyEvent := Event Reply

/-- How the code tests a reply: SAR_OK from the token, 1 or a pointer from OpenSSL. -/
def succeeded : (c : Call) → Reply c → Bool
  | .enumDev _, (r : ListReply) => r.rv == 0
  | .connectDev _, (r : HandleReply) => r.rv == 0
  | .openApplication _ _, (r : HandleReply) => r.rv == 0
  | .openContainer _ _, (r : HandleReply) => r.rv == 0
  | .eccSignData _ _, (r : SignReply) => r.rv == 0
  | .exportCertificate _ _ _, (r : LengthReply) => r.rv == 0
  | .exportPublicKey _ _, (r : PublicKeyReply) => r.rv == 0
  | .verifyPin _ _, (rv : UInt32) => rv == 0
  | .closeContainer _, (rv : UInt32) => rv == 0
  | .closeApplication _, (rv : UInt32) => rv == 0
  | .disConnectDev _, (rv : UInt32) => rv == 0
  | .ecPointOct2point _, (err : Int32) => err == 1
  | .ecKeySetPublicKey, (err : Int32) => err == 1
  | .evpPkeySet1EcKey, (err : Int32) => err == 1
  | .evpPkeySetAliasType, (err : Int32) => err == 1
  | .ecdsaSigSet0, (err : Int32) => err == 1
  | .opensslMalloc _, (p : Bool) => p
  | .d2iX509 _ _, (p : Bool) => p
  | .evpPkeyNew, (p : Bool) => p
  | .ecKeyNewByCurveName, (p : Bool) => p
  | .ecPointNew, (p : Bool) => p
  | .ecdsaSigNew, (p : Bool) => p
  | .bnBin2bn _, (p : Bool) => p
  | .library _, _ => true
  | .ecdsaSize, _ => true
  | .i2dEcdsaSig _ _, _ => true

/-- A call whose failure goes to the error label, with what is returned from there. -/
def attempt {α : Type} (c : Call) (failed : α) (next : Reply c → Ukey α) : Ukey α :=
  .call c fun r => if succeeded c r then next r else ret failed

def library {α : Type} : Skf α → Ukey α
  | .ret a => ret a
  | .call c k => .call (.library c) fun r => library (k r)
  | .fault => fault

/-- With an error message the function returns `failed`; without one it uses the table. -/
def useApi {α : Type} (api : Bool) (failed : α) (body : Ukey α) : Ukey (Bool × α) := do
  let r ← library (getSkfApi api)
  match r with
  | (api, some _) => pure (api, failed)
  | (false, none) => fault
  | (true, none) => do
    let a ← body
    pure (true, a)

/-- The first name of a list. A list longer than its room overruns it, and the name of one without
a NUL has no end. -/
def enumDev {α : Type} (failed : α) (next : Option Name → Ukey α) : Ukey α :=
  attempt (.enumDev none) failed fun r =>
    if r.list.length = 0 then attempt (.enumDev none) failed fun _ => next none
    else
      attempt (.opensslMalloc r.list.length) failed fun _ =>
      attempt (.enumDev (some r.list.length)) failed fun s =>
      if r.list.length < s.list.length ∨ 0 ∉ s.list then fault else next (some (text s.list))

def appName : String := "JITAPPLICATION_SM2"

def containerName : String := "1ea7c63c-93b3-4bee-92c7-c21ff0e14e86"

def defaultUserPin : String := "123456"

def openSession {α : Type} (failed : α) (next : ℕ → ℕ → ℕ → Ukey α) : Ukey α :=
  enumDev failed fun name =>
  attempt (.connectDev name) failed fun hDev =>
  attempt (.openApplication hDev.handle appName) failed fun hApp =>
  attempt (.openContainer hApp.handle containerName) failed fun hCon =>
  next hDev.handle hApp.handle hCon.handle

def closeSession {α : Type} (hDev hApp hCon : ℕ) (failed : α) (next : Ukey α) : Ukey α :=
  attempt (.closeContainer hCon) failed fun _ =>
  attempt (.closeApplication hApp) failed fun _ =>
  attempt (.disConnectDev hDev) failed fun _ => next

/-- What ukey_sign returns, and what is in its two output arguments. -/
structure Signed where
  ret : ℕ
  siglen : ℕ
  sig : Option (List UInt8)

def toSize (n : Int32) : ℕ := (n.toInt % 2 ^ 64).toNat

def low256 (field : Vector UInt8 64) : List UInt8 := field.toList.drop 32

/-- From the blob to its encoding in the buffer; nothing may be written behind the buffer. -/
def formatSignature (blob : EccSignatureBlob) (buf : List UInt8) (siglen : ℕ) : Ukey Signed :=
  let failed : Signed := ⟨0, siglen, some buf⟩
  attempt .ecdsaSigNew failed fun _ =>
  attempt (.bnBin2bn (low256 blob.r)) failed fun _ =>
  attempt (.bnBin2bn (low256 blob.s)) failed fun _ =>
  attempt .ecdsaSigSet0 failed fun _ =>
  .call (.i2dEcdsaSig (bigEndian (low256 blob.r)) (bigEndian (low256 blob.s)))
    fun (r : I2dReply) =>
      if buf.length < r.written.length then fault
      else
        let sig := some (r.written ++ buf.drop r.written.length)
        if toSize r.result ≤ 0 then ret ⟨0, toSize r.result, sig⟩
        else ret ⟨1, toSize r.result, sig⟩

def signWithToken (userPin : Option String) (buf : List UInt8) (siglen : ℕ)
    (tbs : List UInt8) : Ukey Signed :=
  let failed : Signed := ⟨0, siglen, some buf⟩
  openSession failed fun hDev hApp hCon =>
  attempt (.verifyPin hApp (userPin.getD defaultUserPin)) failed fun _ =>
  attempt (.opensslMalloc tbs.length) failed fun _ =>
  attempt (.eccSignData hCon tbs) failed fun signature =>
  closeSession hDev hApp hCon failed (formatSignature signature.blob buf siglen)

/-- Without a buffer only the size is asked for, and a buffer that is too small is refused. -/
def ukeySign (userPin : Option String) (sig : Option (List UInt8)) (siglen : ℕ)
    (tbs : List UInt8) (api : Bool) : Ukey (Bool × Signed) :=
  .call .ecdsaSize fun (sigSz : Int32) =>
    if sigSz ≤ 0 then ret (api, ⟨0, siglen, sig⟩)
    else
      match sig with
      | none => ret (api, ⟨1, toSize sigSz, none⟩)
      | some buf =>
        if siglen < toSize sigSz then ret (api, ⟨0, siglen, some buf⟩)
        else useApi api ⟨0, siglen, some buf⟩ (signWithToken userPin buf siglen tbs)

/-- Once there is something to return, it is returned even if the session cannot be closed. -/
def exportCertificate (hDev hApp hCon : ℕ) (sign : Bool) : Ukey Bool :=
  attempt (.exportCertificate hCon sign none) false fun r =>
    if r.length = 0 then
      attempt (.exportCertificate hCon sign none) false fun s =>
      attempt (.d2iX509 none s.length) false fun _ =>
      closeSession hDev hApp hCon true (ret true)
    else
      attempt (.opensslMalloc r.length) false fun _ =>
      attempt (.exportCertificate hCon sign (some r.length)) false fun s =>
      attempt (.d2iX509 (some r.length) s.length) false fun _ =>
      closeSession hDev hApp hCon true (ret true)

def exportPublicKey (hDev hApp hCon : ℕ) (sign : Bool) : Ukey Bool :=
  attempt (.exportPublicKey hCon sign) false fun r =>
  attempt .evpPkeyNew false fun _ =>
  attempt .ecKeyNewByCurveName false fun _ =>
  attempt .ecPointNew false fun _ =>
  attempt (.ecPointOct2point (0x04 :: (low256 r.blob.xCoordinate ++ low256 r.blob.yCoordinate)))
    false fun _ =>
  attempt .ecKeySetPublicKey false fun _ =>
  attempt .evpPkeySet1EcKey false fun _ =>
  attempt .evpPkeySetAliasType false fun _ =>
  closeSession hDev hApp hCon true (ret true)

def ukeyExport (crt sign : Bool) (api : Bool) : Ukey (Bool × Bool) :=
  useApi api false <| openSession false fun hDev hApp hCon =>
    if crt then exportCertificate hDev hApp hCon sign else exportPublicKey hDev hApp hCon sign

end UkeyProgram
