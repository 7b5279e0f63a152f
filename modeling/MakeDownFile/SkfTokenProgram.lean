import MakeDownFile.SkfEnumeration
import MakeDownFile.TextBuffers

/-! # The token program

main lists what the token holds and then runs its tests, which get handles of their own as
arguments. -/
namespace SkfTokenProgram

open CallPrograms
open CallPrograms.Prog
open NameLists
open SkfApi
open SkfEnumeration
open TextBuffers

def verifyPin (hApp : Option ℕ) (pin : String) : Skf UInt32 := .call (.verifyPin hApp pin) ret
def createContainer (hApp : Option ℕ) (name : Name) : Skf HandleReply :=
  .call (.createContainer hApp name) ret
def getContainerType (hContainer : ℕ) : Skf UInt32 := .call (.getContainerType hContainer) ret
def genEccKeyPair (hContainer : ℕ) (algId : String) : Skf UInt32 :=
  .call (.genEccKeyPair hContainer algId) ret
def exportPublicKey (hContainer : ℕ) (signFlag : Bool) : Skf UInt32 :=
  .call (.exportPublicKey hContainer signFlag) ret
def exportCertificate (hContainer : ℕ) (signFlag : Bool) (room : Option ℕ) : Skf LengthReply :=
  .call (.exportCertificate hContainer signFlag room) ret
def digestInit (hDev : Option ℕ) (algId : String) : Skf HandleReply :=
  .call (.digestInit hDev algId) ret
def digest (hHash : ℕ) : Skf UInt32 := .call (.digest hHash) ret
def eccSignData (hContainer : ℕ) : Skf UInt32 := .call (.eccSignData hContainer) ret
def eccVerify (hDev : Option ℕ) : Skf UInt32 := .call (.eccVerify hDev) ret
def eccExportSessionKey (hContainer : ℕ) (algId : String) : Skf HandleReply :=
  .call (.eccExportSessionKey hContainer algId) ret
def encryptInit (hKey : ℕ) : Skf UInt32 := .call (.encryptInit hKey) ret
def encryptUpdate (hKey : ℕ) : Skf UInt32 := .call (.encryptUpdate hKey) ret
def encryptFinal (hKey : ℕ) : Skf UInt32 := .call (.encryptFinal hKey) ret
def importEccKeyPair (hContainer : ℕ) : Skf UInt32 := .call (.importEccKeyPair hContainer) ret
def importSessionKey (hContainer : ℕ) (algId : String) : Skf HandleReply :=
  .call (.importSessionKey hContainer algId) ret
def closeApplication (hApp : Option ℕ) : Skf UInt32 := .call (.closeApplication hApp) ret
def disConnectDev (hDev : Option ℕ) : Skf UInt32 := .call (.disConnectDev hDev) ret
def d2iX509 (length : ℕ) : Skf Bool := .call (.d2iX509 length) ret
def writeCertificateToPemFile (filename : String) : Skf Bool :=
  .call (.writeCertificateToPemFile filename) ret

/-- Calls in turn until one fails, whose code is returned. -/
def inTurn : List (Skf UInt32) → Skf UInt32
  | [] => pure 0
  | p :: ps => do
    let rv ← p
    if rv ≠ 0 then pure rv else inTurn ps

def sm2Container : Name := ascii "SM2_Container"

def sarFail : UInt32 := 0x0A000001

def signTest (hDev : Option ℕ) (hCon : ℕ) : Skf UInt32 := do
  let r ← digestInit hDev "SGD_SM3"
  if r.rv ≠ 0 then pure r.rv
  else inTurn [digest r.handle, eccSignData hCon, eccVerify hDev]

/-- The buffer for the certificate is not checked; without it only the length is asked for. -/
def saveCertificate (hCon : ℕ) (signFlag : Bool) (filename : String) : Skf UInt32 := do
  let r ← exportCertificate hCon signFlag none
  if r.rv ≠ 0 then pure r.rv
  else
    let ok ← malloc r.length
    let s ← exportCertificate hCon signFlag (if ok then some r.length else none)
    if s.rv ≠ 0 then pure s.rv
    else
      let cert ← d2iX509 s.length
      if ¬ cert then pure 1
      else
        let written ← writeCertificateToPemFile filename
        pure (if written then 0 else 1)

def exportTest (hDev : Option ℕ) (hCon : ℕ) : Skf UInt32 :=
  inTurn [signTest hDev hCon, saveCertificate hCon true "my_sinCertificate.pem",
    saveCertificate hCon false "my_encCertificate.pem"]

/-- A container that cannot be opened is created, and gets new key pairs. -/
def keyPairTest (hDev hApp : Option ℕ) (api : Bool) : Skf (Bool × UInt32) :=
  useApi api 0 do
    let rv ← verifyPin hApp "123456"
    if rv ≠ 0 then pure rv
    else
      let r ← openEntry (.container hApp) sm2Container
      if r.rv = 0 then
        let _ ← getContainerType r.handle
        inTurn [exportPublicKey r.handle true, exportPublicKey r.handle false,
          exportTest hDev r.handle]
      else if r.rv ≠ sarFail then pure r.rv
      else
        let c ← createContainer hApp sm2Container
        if c.rv ≠ 0 then pure c.rv
        else inTurn [genEccKeyPair c.handle "SGD_SM2_1", genEccKeyPair c.handle "SGD_SM2_3",
          exportTest hDev c.handle]

/-- Neither allocation is checked before it is written to. -/
def importSm2KeyPairTest (_hDev hApp : Option ℕ) (api : Bool) : Skf (Bool × UInt32) :=
  useApi api 0 do
    let r ← openEntry (.container hApp) sm2Container
    if r.rv ≠ 0 then pure r.rv
    else
      let rv ← exportPublicKey r.handle true
      if rv ≠ 0 then pure rv
      else
        let cipher ← malloc 180
        if ¬ cipher then fault
        else
          let key ← eccExportSessionKey r.handle "SGD_SM1_ECB"
          if key.rv ≠ 0 then pure key.rv
          else
            let rv ← inTurn [encryptInit key.handle, encryptUpdate key.handle,
              encryptFinal key.handle]
            if rv ≠ 0 then pure rv
            else
              let blob ← malloc 388
              if ¬ blob then fault
              else importEccKeyPair r.handle

def importSessionKeyTest (_hDev hApp : Option ℕ) (api : Bool) : Skf (Bool × UInt32) :=
  useApi api 0 do
    let r ← openEntry (.container hApp) sm2Container
    if r.rv ≠ 0 then pure r.rv
    else
      let _ ← malloc 132
      let rv ← exportPublicKey r.handle false
      if rv ≠ 0 then pure rv
      else
        let cipher ← malloc 180
        if ¬ cipher then fault
        else
          let key ← eccExportSessionKey r.handle "SGD_SM1_ECB"
          if key.rv ≠ 0 then pure key.rv
          else
            let s ← importSessionKey r.handle "SGD_SM1_ECB"
            pure s.rv

/-- Whether there is a certificate. Its length may be 0, for which nothing is allocated. -/
def getCertificateToX509 (hContainer : ℕ) (bSignFlag : Bool) (api : Bool) : Skf (Bool × Bool) :=
  useApi api false do
    let r ← exportCertificate hContainer bSignFlag none
    if r.rv ≠ 0 then pure false
    else if r.length = 0 then
      let s ← exportCertificate hContainer bSignFlag none
      if s.rv ≠ 0 then pure false else d2iX509 s.length
    else
      let pbCert ← malloc r.length
      if ¬ pbCert then pure false
      else
        let s ← exportCertificate hContainer bSignFlag (some r.length)
        if s.rv ≠ 0 then pure false else d2iX509 s.length

def cell {α : Type} (array : Option (OutArray α)) (i : ℕ) : Skf α :=
  match array.bind fun a => a.cells[i]? with
  | none => fault
  | some x => ret x

/-- A count that was not set is whatever the variable holds. -/
def readCount (count : Option ℕ) : Skf ℕ :=
  match count with
  | none => .call .unsetCount ret
  | some n => ret n

/-- The containers of one application; their number starts as 0. -/
def listApplication (phApps : Option (OutArray ℕ)) (api : Bool) (j : ℕ) : Skf Bool := do
  let hApp ← cell phApps j
  let r ← getContainerHandles (some hApp) api
  (List.range (r.2.count.getD 0)).foldlM (fun api k => do
    let hCon ← cell r.2.array k
    let x ← getCertificateToX509 hCon true api
    pure x.1) r.1

def listDevice (hDevs : Option (OutArray ℕ)) (api : Bool) (i : ℕ) : Skf Bool := do
  let hDev ← cell hDevs i
  let r ← getAppHandles (some hDev) api
  if r.2.rv ≠ 0 then pure r.1
  else
    let appsize ← readCount r.2.count
    (List.range appsize).foldlM (listApplication r.2.array) r.1

/-- main up to its tests; `none` when it has returned. -/
def listToken : Skf (Option Bool) := do
  let r ← getDevHandles false
  if r.2.rv ≠ 0 then pure none
  else
    let devsize ← readCount r.2.count
    let api ← (List.range devsize).foldlM (listDevice r.2.array) r.1
    pure (some api)

def closeToken (hDev hApp : Option ℕ) (api : Bool) : Skf (Bool × UInt32) :=
  useApi api 0 do
    let rv ← closeApplication hApp
    if rv ≠ 0 then pure 0
    else
      let _ ← disConnectDev hDev
      pure 0

def runTests (hDev hApp : Option ℕ) (api : Bool) : Skf UInt32 := do
  let r ← keyPairTest hDev hApp api
  if r.2 ≠ 0 then pure 0
  else
    let r ← importSm2KeyPairTest hDev hApp r.1
    if r.2 ≠ 0 then pure 0
    else
      let r ← importSessionKeyTest hDev hApp r.1
      if r.2 ≠ 0 then pure 0
      else
        let r ← closeToken hDev hApp r.1
        pure r.2

/-- Its own device and application handles stay NULL. -/
def main : Skf UInt32 := do
  let r ← listToken
  match r with
  | none => pure 0
  | some api => runTests none none api

end SkfTokenProgram
