import MakeDownFile.PeerCertificates
import MakeDownFile.UkeyOptions
import MakeDownFile.UkeySessions

/-! # The client of the token

ukey_sslcli takes its certificates and keys from the token or from files, connects, and then
exchanges lines until something fails. main gives back the keys of its options behind it. -/
namespace UkeyClient

open CallPrograms
open CallPrograms.Prog
open HeldResources
open TextBuffers
open TraceRuns
open UkeyOptions (Arg Options ValueOption parseOptions)
open UkeyProgram (Ukey ukeyExport)

inductive Kind where
  | meth
  | ctx
  | x509
  | pkey
  | bio
  | ssl
  | peer
  | line
  | buffer
  deriving DecidableEq

structure Object where
  kind : Kind
  address : ℕ
  deriving DecidableEq

inductive New where
  | meth
  | ctx
  | bio (address : String)
  | ssl (ctx : ℕ)
  deriving DecidableEq

def New.kind : New → Kind
  | meth => .meth
  | ctx => .ctx
  | bio _ => .bio
  | ssl _ => .ssl

/-- Calls that return 1 if they succeed. -/
inductive Check where
  | methAdd0 (meth : ℕ)
  | useCertificateFile (ctx : ℕ) (file : Arg)
  | useCertificate (ctx x : ℕ)
  | usePrivateKey (ctx pkey : ℕ)
  | checkPrivateKey (ctx : ℕ)
  | checkEncPrivateKey (ctx : ℕ)
  | loadVerifyLocations (ctx : ℕ) (ca : Arg)
  | doConnect (bio : ℕ)
  | connect (ssl : ℕ)
  deriving DecidableEq

inductive Operation where
  | sign
  | verify
  | encrypt
  | digestCustom
  | ctrl
  | copy
  deriving DecidableEq

/-- Calls that cannot fail. -/
inductive Act where
  | methSet (meth : ℕ) (op : Operation)
  | setVerify (ctx : ℕ)
  | setVerifyDepth (ctx depth : ℕ)
  | setBio (ssl bio : ℕ)
  deriving DecidableEq

/-- Calls on OpenSSL and on the standard input, besides those of ukey_export on the token. `decoded`
is the address of the buffer of a key, and `exported` that of what ukey_export has returned. -/
inductive Call where
  | decoded (value : Arg)
  | token (c : UkeyProgram.Call)
  | exported (crt sign : Bool)
  | new (n : New)
  | check (c : Check)
  | act (a : Act)
  | peerCertificate (ssl : ℕ)
  | oneline (peer : ℕ) (issuer : Bool)
  | fgets
  | write (ssl : ℕ) (data : List UInt8)
  | read (ssl : ℕ)
  | free (a : Object)

abbrev Reply : Call → Type
  | .token c => UkeyProgram.Reply c
  | .decoded _ | .exported _ _ => ℕ
  | .new _ | .peerCertificate _ | .oneline _ _ => Option ℕ
  | .check _ | .write _ _ | .read _ => Int32
  | .act _ | .free _ => Unit
  | .fgets => Option (List UInt8)

abbrev Client := Prog Call Reply

abbrev ClientEvent := Event Reply

/-- A return value, a call of exit, or a loop that is still going on. -/
inductive End where
  | returned (ret : ℕ)
  | exited (status : ℕ)
  | running
  deriving DecidableEq

/-- The variables that the error label looks at, and the table that GetSKFAPI keeps. -/
structure Vars where
  api : Bool
  ssl : Option ℕ
  bio : Option ℕ
  x : Option ℕ
  pkey : Option ℕ
  ctx : Option ℕ
  meth : Option ℕ

def release {α : Type} (kind : Kind) : Option ℕ → Client α → Client α
  | none, next => next
  | some p, next => .call (.free ⟨kind, p⟩) fun _ => next

/-- The error label, which is reached with nothing but failures. -/
def cleanup (v : Vars) : Client End :=
  release .ssl v.ssl <|
  release .bio v.bio <|
  release .x509 v.x <|
  release .pkey v.pkey <|
  release .ctx v.ctx <|
  release .meth v.meth <| ret (.returned 0)

def returnNull (n : New) (v : Vars) (next : ℕ → Client End) : Client End :=
  .call (.new n) fun (p : Option ℕ) => p.elim (cleanup v) next

def returnSsl (c : Check) (v : Vars) (next : Client End) : Client End :=
  .call (.check c) fun (err : Int32) => if err = 1 then next else cleanup v

def setMethods {α : Type} (meth : ℕ) : List Operation → Client α → Client α
  | [], next => next
  | op :: ops, next => .call (.act (.methSet meth op)) fun _ => setMethods meth ops next

def token {α : Type} : Ukey α → Client α
  | .ret a => ret a
  | .call c k => .call (.token c) fun r => token (k r)
  | .fault => fault

def exportObject (crt sign : Bool) (v : Vars) (next : Vars → ℕ → Client End) : Client End := do
  let r ← token (ukeyExport crt sign v.api)
  let v := { v with api := r.1 }
  if r.2 then .call (.exported crt sign) (next v) else cleanup v

def loadCertificate (file : Option Arg) (ctx : ℕ) (sign : Bool) (v : Vars)
    (next : Vars → Client End) : Client End :=
  match file with
  | some file => returnSsl (.useCertificateFile ctx file) v (next v)
  | none =>
    exportObject true sign v fun v x =>
      returnSsl (.useCertificate ctx x) { v with x := some x } <|
      .call (.free ⟨.x509, x⟩) fun _ => next { v with x := none }

def loadKey (ctx : ℕ) (sign : Bool) (v : Vars) (next : Vars → Client End) : Client End :=
  exportObject false sign v fun v pkey =>
    returnSsl (.usePrivateKey ctx pkey) { v with pkey := some pkey } <|
    .call (.free ⟨.pkey, pkey⟩) fun _ => next { v with pkey := none }

def certificateCalls : PeerCertificates.Calls Call Reply where
  peerCertificate := .peerCertificate
  oneline := .oneline
  freeLine := fun line => .free ⟨.line, line⟩
  freePeer := fun peer => .free ⟨.peer, peer⟩
  gotPeer := fun (p : Option ℕ) => p
  gotLine := fun (p : Option ℕ) => p

def showCerts (ssl : ℕ) (next : Client End) : Client End :=
  PeerCertificates.showCerts certificateCalls ssl next

/-- The buffer has been zeroed, so that it is an empty string when nothing was read. -/
def lineText (line : Option (List UInt8)) : List UInt8 :=
  ((line.getD []).take 4095).takeWhile (· ≠ 0)

/-- The endless loop; what stands behind it is never reached. -/
def exchange (ssl : ℕ) : ℕ → Client End
  | 0 => ret .running
  | rounds + 1 =>
    .call .fgets fun (line : Option (List UInt8)) =>
      .call (.write ssl (lineText line)) fun (sent : Int32) =>
        if sent.toInt ≠ (lineText line).length then ret (.exited 1)
        else
          .call (.read ssl) fun (len : Int32) =>
            if len ≤ 0 then ret (.exited 1) else exchange ssl rounds

def setTrust (o : Options) (ctx : ℕ) (v : Vars) (next : Client End) : Client End :=
  let verify :=
    if o.verifyPeer then
      .call (.act (.setVerify ctx)) fun _ => .call (.act (.setVerifyDepth ctx 1)) fun _ => next
    else next
  match o.ca with
  | some ca => returnSsl (.loadVerifyLocations ctx ca) v verify
  | none => verify

/-- The connection goes to one address, whatever host is asked for. -/
def address : String := "10.19.12.121:9443"

def connectAndTalk (ctx rounds : ℕ) (v : Vars) : Client End :=
  returnNull (.bio address) v fun bio =>
  let v := { v with bio := some bio }
  returnSsl (.doConnect bio) v <|
  returnNull (.ssl ctx) v fun ssl =>
  let v := { v with ssl := some ssl, bio := none }
  .call (.act (.setBio ssl bio)) fun _ =>
  returnSsl (.connect ssl) v <|
  showCerts ssl <| exchange ssl rounds

def ukeySslcli (o : Options) (rounds : ℕ) : Client End :=
  let v : Vars := ⟨false, none, none, none, none, none, none⟩
  returnNull .meth v fun meth =>
  setMethods meth [.sign, .verify, .encrypt, .digestCustom, .ctrl, .copy] <|
  returnSsl (.methAdd0 meth) { v with meth := some meth } <|
  returnNull .ctx v fun ctx =>
  loadCertificate o.signCert ctx true { v with ctx := some ctx } fun v =>
  loadKey ctx true v fun v =>
  returnSsl (.checkPrivateKey ctx) v <|
  loadCertificate o.encCert ctx false v fun v =>
  loadKey ctx false v fun v =>
  returnSsl (.checkEncPrivateKey ctx) v <|
  setTrust o ctx v <| connectAndTalk ctx rounds v

structure Keys where
  authKey : Option ℕ
  authKeyNew : Option ℕ

/-- A key that cannot be decoded is NULL. -/
def decodeKey (hexstr2buf : Arg → Option (List UInt8)) (value : Arg)
    (next : Option ℕ → Client End) : Client End :=
  match hexstr2buf value with
  | none => next none
  | some _ => .call (.decoded value) fun (p : ℕ) => next (some p)

/-- What the option loop has taken is decoded, and the variable set to it whatever was in it. -/
def decodeKeys (hexstr2buf : Arg → Option (List UInt8)) :
    List UkeyOptions.Step → Keys → (Keys → Client End) → Client End
  | [], keys, next => next keys
  | .accept .authKey (some value) :: log, keys, next =>
    decodeKey hexstr2buf value fun p => decodeKeys hexstr2buf log { keys with authKey := p } next
  | .accept .authKeyNew (some value) :: log, keys, next =>
    decodeKey hexstr2buf value fun p => decodeKeys hexstr2buf log { keys with authKeyNew := p } next
  | _ :: log, keys, next => decodeKeys hexstr2buf log keys next

def freeKeys (keys : Keys) (r : ℕ) : Client End :=
  release .buffer keys.authKey <| release .buffer keys.authKeyNew <| ret (.returned r)

/-- main behind its options. A function that has failed is reported, and nothing else is returned
for it. -/
def afterOptions (rounds : ℕ) (keys : Keys) : UkeyOptions.Exit → Client End
  | .undefined => fault
  | .error => freeKeys keys 0
  | .finished o => ukeySslcli o rounds >>= fun e =>
    match e with
    | .returned r => freeKeys keys (if r ≠ 1 then 0 else 1)
    | e => ret e

def main (hexstr2buf : Arg → Option (List UInt8)) (argv : List Arg) (rounds : ℕ) : Client End :=
  decodeKeys hexstr2buf (parseOptions hexstr2buf argv).log ⟨none, none⟩ fun keys =>
    afterOptions rounds keys (parseOptions hexstr2buf argv).exit

def Check.uses : Check → List Object
  | methAdd0 meth => [⟨.meth, meth⟩]
  | useCertificate ctx x => [⟨.ctx, ctx⟩, ⟨.x509, x⟩]
  | usePrivateKey ctx pkey => [⟨.ctx, ctx⟩, ⟨.pkey, pkey⟩]
  | useCertificateFile ctx _ | loadVerifyLocations ctx _ => [⟨.ctx, ctx⟩]
  | checkPrivateKey ctx | checkEncPrivateKey ctx => [⟨.ctx, ctx⟩]
  | doConnect bio => [⟨.bio, bio⟩]
  | connect ssl => [⟨.ssl, ssl⟩]

def Act.uses : Act → List Object
  | methSet meth _ => [⟨.meth, meth⟩]
  | setVerify ctx | setVerifyDepth ctx _ => [⟨.ctx, ctx⟩]
  | setBio ssl bio => [⟨.ssl, ssl⟩, ⟨.bio, bio⟩]

def uses : Call → List Object
  | .new (.ssl ctx) => [⟨.ctx, ctx⟩]
  | .check c => c.uses
  | .act a => a.uses
  | .peerCertificate ssl | .write ssl _ | .read ssl => [⟨.ssl, ssl⟩]
  | .oneline peer _ => [⟨.peer, peer⟩]
  | .free a => [a]
  | _ => []

def acquires : ClientEvent → List Object
  | ⟨.decoded _, (p : ℕ)⟩ => [⟨.buffer, p⟩]
  | ⟨.exported crt _, (p : ℕ)⟩ => [⟨if crt then .x509 else .pkey, p⟩]
  | ⟨.new n, (p : Option ℕ)⟩ => (p.map (Object.mk n.kind)).toList
  | ⟨.peerCertificate _, (p : Option ℕ)⟩ => (p.map (Object.mk Kind.peer)).toList
  | ⟨.oneline _ _, (p : Option ℕ)⟩ => (p.map (Object.mk Kind.line)).toList
  | _ => []

/-- The method that has been added is the library's, and the BIO of a connection goes with it. -/
def releases : ClientEvent → List Object
  | ⟨.check (.methAdd0 meth), (err : Int32)⟩ => if err = 1 then [⟨.meth, meth⟩] else []
  | ⟨.act (.setBio _ bio), _⟩ => [⟨.bio, bio⟩]
  | ⟨.free a, _⟩ => [a]
  | _ => []

def ledger : ResourceLedger.Ledger ClientEvent Object := ⟨acquires, releases⟩

def passed (c : Check) : ClientEvent := ⟨.check c, (1 : Int32)⟩

def made (n : New) (p : ℕ) : ClientEvent := ⟨.new n, some p⟩

def CertificateSet (ctx : ℕ) (sign : Bool) : Option Arg → List ClientEvent → Prop
  | some file, s => s = [passed (.useCertificateFile ctx file)]
  | none, s => ∃ x : ℕ, s = [⟨.exported true sign, x⟩, passed (.useCertificate ctx x)]

def KeySet (ctx : ℕ) (sign : Bool) (s : List ClientEvent) : Prop :=
  ∃ pkey : ℕ, s = [⟨.exported false sign, pkey⟩, passed (.usePrivateKey ctx pkey)]

def trust (o : Options) (ctx : ℕ) : List ClientEvent :=
  (o.ca.map fun ca => passed (.loadVerifyLocations ctx ca)).toList ++
    if o.verifyPeer then [⟨.act (.setVerify ctx), ()⟩, ⟨.act (.setVerifyDepth ctx 1), ()⟩] else []

/-- Signing certificate and key have been set and checked, then those for encryption, and then the
trust in the peer has been set. -/
def SetUp (o : Options) (ctx : ℕ) (s : List ClientEvent) : Prop :=
  ∃ crt key crt' key', CertificateSet ctx true o.signCert crt ∧ KeySet ctx true key ∧
    CertificateSet ctx false o.encCert crt' ∧ KeySet ctx false key' ∧
    s = crt ++ key ++ [passed (.checkPrivateKey ctx)] ++ crt' ++ key' ++
      [passed (.checkEncPrivateKey ctx)] ++ trust o ctx

/-- What has to have succeeded, and in which order, before a connection is made and used. -/
def Prepared (o : Options) (hist : List ClientEvent) : Call → Prop
  | .check (.doConnect bio) =>
    ∃ ctx s, SetUp o ctx s ∧ (s ++ [made (.bio address) bio]).Sublist hist
  | .new (.ssl ctx) =>
    ∃ s bio, SetUp o ctx s ∧
      (s ++ [made (.bio address) bio] ++ [passed (.doConnect bio)]).Sublist hist
  | .check (.connect ssl) =>
    ∃ ctx bio, [passed (.doConnect bio), made (.ssl ctx) ssl,
      ⟨.act (.setBio ssl bio), ()⟩].Sublist hist
  | .write ssl _ => passed (.connect ssl) ∈ hist
  | .read ssl => ∃ data, ∃ sent : Int32, sent.toInt = data.length ∧
      [passed (.connect ssl), ⟨.write ssl data, sent⟩].Sublist hist
  | _ => True

theorem prepared_mono {o : Options} {s t : List ClientEvent} {c : Call} (h : s.Sublist t)
    (hc : Prepared o s c) : Prepared o t c := by
  cases c with
  | new n =>
    cases n with
    | ssl ctx =>
      obtain ⟨s', bio, hset, hs⟩ := hc
      exact ⟨s', bio, hset, hs.trans h⟩
    | _ => trivial
  | check c =>
    cases c with
    | doConnect bio =>
      obtain ⟨ctx, s', hset, hs⟩ := hc
      exact ⟨ctx, s', hset, hs.trans h⟩
    | connect ssl =>
      obtain ⟨ctx, bio, hs⟩ := hc
      exact ⟨ctx, bio, hs.trans h⟩
    | _ => trivial
  | write ssl data => exact h.subset hc
  | read ssl =>
    obtain ⟨data, sent, hlen, hs⟩ := hc
    exact ⟨data, sent, hlen, hs.trans h⟩
  | _ => trivial

def discipline (o : Options) : Discipline Call Reply Object :=
  ⟨ledger, uses, Prepared o, prepared_mono⟩

/-- How ukey_sslcli ends: it returns 0 with what was held before it, and it exits only from its
loop. -/
def Ended (keep : List Object) (t : List ClientEvent) (held : List Object) : End → Prop
  | .returned r => r = 0 ∧ held = keep
  | .exited s => s = 1 ∧ ∃ ssl, passed (.connect ssl) ∈ t
  | .running => True

abbrev Safe (o : Options) (keep : List Object) (facts : List ClientEvent) (held : List Object)
    (p : Client End) : Prop :=
  (discipline o).Safe (Ended keep) facts held p

def item (k : Kind) (p : Option ℕ) : List Object := (p.map (Object.mk k)).toList

section Calls

variable {o : Options} {Q : List ClientEvent → List Object → End → Prop}
  {facts : List ClientEvent} {held : List Object} {next : Client End} {k : Kind}

theorem gives_free (o : Options) (a : Object) : (discipline o).Gives (.free a) a :=
  ⟨rfl, fun _ => trivial, fun _ => rfl, fun _ => rfl⟩

theorem certificates_kept (o : Options) : certificateCalls.Kept (discipline o) (Object.mk .ssl)
    (Object.mk .peer) (Object.mk .line) where
  peerCertificate := fun _ => ⟨rfl, fun _ => trivial, fun _ => rfl, fun _ => rfl⟩
  oneline := fun _ _ => ⟨rfl, fun _ => trivial, fun _ => rfl, fun _ => rfl⟩
  freeLine := fun line => gives_free o ⟨.line, line⟩
  freePeer := fun peer => gives_free o ⟨.peer, peer⟩

theorem safe_release (p : Option ℕ) (h : (discipline o).Safe Q facts held next) :
    (discipline o).Safe Q facts (item k p ++ held) (release k p next) := by
  cases p with
  | none => exact h
  | some p => exact (gives_free o ⟨k, p⟩).safe fun _ => h

theorem safe_set_methods {meth : ℕ} {ops : List Operation} (hmeth : ⟨.meth, meth⟩ ∈ held)
    (hnext : (discipline o).Safe Q facts held next) :
    (discipline o).Safe Q facts held (setMethods meth ops next) := by
  induction ops with
  | nil => exact hnext
  | cons op ops ih =>
    apply safe_plain (c := Call.act (.methSet meth op))
      (List.cons_subset.mpr ⟨hmeth, List.nil_subset _⟩) trivial (fun _ => rfl) fun _ => rfl
    exact fun _ => safe_mono ih (List.sublist_append_left _ _)

/-- A program on the token leaves alone what the client holds. -/
theorem safe_token {α : Type} {q : Ukey α} {f : α → Client End}
    (h : ∀ a, (discipline o).Safe Q facts held (f a)) :
    (discipline o).Safe Q facts held (token q >>= f) := by
  induction q with
  | ret a => exact h a
  | fault => exact safe_fault
  | call c k ih =>
    apply safe_plain (c := Call.token c) (List.nil_subset held) trivial (fun _ => rfl) fun _ => rfl
    exact fun r => safe_mono (ih r) (List.sublist_append_left _ _)

end Calls

section Steps

variable {o : Options} {keep : List Object} {facts : List ClientEvent} {held : List Object}
  {next : Client End} {v : Vars} {ctx ssl : ℕ}

def objects (keep : List Object) (v : Vars) : List Object :=
  item .ssl v.ssl ++ (item .bio v.bio ++ (item .x509 v.x ++ (item .pkey v.pkey ++
    (item .ctx v.ctx ++ (item .meth v.meth ++ keep)))))

theorem safe_cleanup (v : Vars) : Safe o keep facts (objects keep v) (cleanup v) := by
  repeat apply safe_release
  exact safe_ret fun t _ => ⟨rfl, rfl⟩

theorem safe_return_null {n : New} {f : ℕ → Client End} (huses : uses (.new n) ⊆ objects keep v)
    (hc : Prepared o facts (.new n))
    (hnext : ∀ p, Safe o keep (facts ++ [made n p]) (⟨n.kind, p⟩ :: objects keep v) (f p)) :
    Safe o keep facts (objects keep v) (returnNull n v f) := by
  apply safe_get (c := Call.new n) (g := Object.mk n.kind) (q := fun p : Option ℕ => p) huses hc
    (fun _ => rfl) fun _ => rfl
  · intro p hp
    cases hp
    exact safe_cleanup v
  · intro p a hp
    cases hp
    exact hnext a

theorem safe_return_ssl {c : Check} (hmeth : ∀ meth, c ≠ .methAdd0 meth)
    (huses : c.uses ⊆ objects keep v) (hc : Prepared o facts (.check c))
    (hnext : Safe o keep (facts ++ [passed c]) (objects keep v) next) :
    Safe o keep facts (objects keep v) (returnSsl c v next) := by
  apply safe_plain (c := Call.check c) huses hc (fun _ => rfl)
  · intro r
    cases c with
    | methAdd0 meth => exact absurd rfl (hmeth meth)
    | _ => rfl
  · intro (r : Int32)
    by_cases hr : r = 1
    · rw [if_pos hr, hr]
      exact hnext
    · rw [if_neg hr]
      exact safe_cleanup v

def withCtx (api : Bool) (ctx : ℕ) : Vars := ⟨api, none, none, none, none, some ctx, none⟩

/-- What the token gives is used and given back at once. -/
theorem safe_export (crt sign api : Bool) {f : Vars → ℕ → Client End}
    (hnext : ∀ (api : Bool) (p : ℕ), Safe o keep (facts ++ [⟨.exported crt sign, p⟩])
      (⟨if crt then .x509 else .pkey, p⟩ :: ⟨.ctx, ctx⟩ :: keep) (f (withCtx api ctx) p)) :
    Safe o keep facts (⟨.ctx, ctx⟩ :: keep) (exportObject crt sign (withCtx api ctx) f) := by
  apply safe_token
  intro ⟨api, found⟩
  cases found with
  | false => exact safe_cleanup (withCtx api ctx)
  | true =>
    apply safe_get (c := Call.exported crt sign) (q := fun p : ℕ => some p)
      (g := Object.mk (if crt then .x509 else .pkey))
      (List.nil_subset _) trivial (fun _ => rfl) (fun _ => rfl) nofun
    intro p a hp
    cases hp
    exact hnext api p

theorem safe_load_certificate (file : Option Arg) (sign api : Bool) {f : Vars → Client End}
    (hnext : ∀ api s, CertificateSet ctx sign file s →
      Safe o keep (facts ++ s) (⟨.ctx, ctx⟩ :: keep) (f (withCtx api ctx))) :
    Safe o keep facts (⟨.ctx, ctx⟩ :: keep)
      (loadCertificate file ctx sign (withCtx api ctx) f) := by
  cases file with
  | some file =>
    apply safe_return_ssl (c := .useCertificateFile ctx file) (v := withCtx api ctx) nofun
      (List.cons_subset.mpr ⟨List.mem_cons_self, List.nil_subset _⟩) trivial
    exact hnext api _ rfl
  | none =>
    rw [loadCertificate]
    apply safe_export
    intro api x
    apply safe_return_ssl (c := .useCertificate ctx x) (v := { withCtx api ctx with x := some x })
      nofun (List.cons_subset.mpr ⟨List.mem_cons_of_mem _ List.mem_cons_self,
        List.cons_subset.mpr ⟨List.mem_cons_self, List.nil_subset _⟩⟩) trivial
    apply (gives_free o ⟨.x509, x⟩).safe
    intro _
    rw [List.append_assoc]
    exact hnext api _ ⟨x, rfl⟩

theorem safe_load_key (sign api : Bool) {f : Vars → Client End}
    (hnext : ∀ api s, KeySet ctx sign s →
      Safe o keep (facts ++ s) (⟨.ctx, ctx⟩ :: keep) (f (withCtx api ctx))) :
    Safe o keep facts (⟨.ctx, ctx⟩ :: keep) (loadKey ctx sign (withCtx api ctx) f) := by
  rw [loadKey]
  apply safe_export
  intro api pkey
  apply safe_return_ssl (c := .usePrivateKey ctx pkey)
    (v := { withCtx api ctx with pkey := some pkey }) nofun
    (List.cons_subset.mpr ⟨List.mem_cons_of_mem _ List.mem_cons_self,
      List.cons_subset.mpr ⟨List.mem_cons_self, List.nil_subset _⟩⟩) trivial
  apply (gives_free o ⟨.pkey, pkey⟩).safe
  intro _
  rw [List.append_assoc]
  exact hnext api _ ⟨pkey, rfl⟩

/-- The loop ends only by exit. -/
theorem safe_exchange (rounds : ℕ) (hssl : ⟨.ssl, ssl⟩ ∈ held)
    (hconnected : passed (.connect ssl) ∈ facts) :
    Safe o keep facts held (exchange ssl rounds) := by
  have hexit : ∀ {facts : List ClientEvent}, passed (.connect ssl) ∈ facts →
      Safe o keep facts held (ret (.exited 1)) :=
    fun hc => safe_ret fun t ht => ⟨rfl, ssl, ht.subset hc⟩
  have hused : [⟨.ssl, ssl⟩] ⊆ held := List.cons_subset.mpr ⟨hssl, List.nil_subset _⟩
  induction rounds generalizing facts with
  | zero => exact safe_ret fun _ _ => trivial
  | succ rounds ih =>
    apply safe_plain (c := Call.fgets) (List.nil_subset _) trivial (fun _ => rfl) fun _ => rfl
    intro line
    have hc1 := List.mem_append_left [(⟨.fgets, line⟩ : ClientEvent)] hconnected
    apply safe_plain (c := Call.write ssl (lineText line)) hused hc1 (fun _ => rfl) fun _ => rfl
    intro (sent : Int32)
    have hc2 := List.mem_append_left [(⟨.write ssl (lineText line), sent⟩ : ClientEvent)] hc1
    by_cases hlen : sent.toInt ≠ (lineText line).length
    · rw [if_pos hlen]
      exact hexit hc2
    · rw [if_neg hlen]
      have hsent : Prepared o (facts ++ [⟨.fgets, line⟩] ++ [⟨.write ssl (lineText line), sent⟩])
          (.read ssl) := ⟨lineText line, sent, not_not.mp hlen,
        (List.singleton_sublist.mpr hc1).append (List.Sublist.refl _)⟩
      apply safe_plain (c := Call.read ssl) hused hsent (fun _ => rfl) fun _ => rfl
      intro (len : Int32)
      have hc3 := List.mem_append_left [(⟨.read ssl, len⟩ : ClientEvent)] hc2
      by_cases hle : len ≤ 0
      · rw [if_pos hle]
        exact hexit hc3
      · rw [if_neg hle]
        exact ih hc3

theorem safe_set_trust (api : Bool)
    (hnext : Safe o keep (facts ++ trust o ctx) (⟨.ctx, ctx⟩ :: keep) next) :
    Safe o keep facts (⟨.ctx, ctx⟩ :: keep) (setTrust o ctx (withCtx api ctx) next) := by
  have hctx : [⟨.ctx, ctx⟩] ⊆ ⟨.ctx, ctx⟩ :: keep :=
    List.cons_subset.mpr ⟨List.mem_cons_self, List.nil_subset _⟩
  have hverify : ∀ s, trust o ctx = s ++ (if o.verifyPeer then
        [⟨.act (.setVerify ctx), ()⟩, ⟨.act (.setVerifyDepth ctx 1), ()⟩] else []) →
      Safe o keep (facts ++ s) (⟨.ctx, ctx⟩ :: keep) (if o.verifyPeer then
        .call (.act (.setVerify ctx)) fun _ => .call (.act (.setVerifyDepth ctx 1)) fun _ => next
        else next) := by
    intro s hs
    rw [hs, ← List.append_assoc] at hnext
    by_cases hv : o.verifyPeer = true
    · rw [if_pos hv] at hnext ⊢
      apply safe_plain (c := Call.act (.setVerify ctx)) hctx trivial (fun _ => rfl) fun _ => rfl
      intro _
      apply safe_plain (c := Call.act (.setVerifyDepth ctx 1)) hctx trivial (fun _ => rfl)
        fun _ => rfl
      intro _
      rw [List.append_assoc]
      exact hnext
    · rw [if_neg hv, List.append_nil] at hnext
      rw [if_neg hv]
      exact hnext
  unfold setTrust
  cases hca : o.ca with
  | none =>
    rw [← List.append_nil facts]
    exact hverify [] (by rw [trust, hca]; rfl)
  | some ca =>
    apply safe_return_ssl (c := .loadVerifyLocations ctx ca) (v := withCtx api ctx) nofun hctx
      trivial
    exact hverify [passed (.loadVerifyLocations ctx ca)] (by rw [trust, hca]; rfl)

theorem safe_connect (api : Bool) (rounds : ℕ) (hset : SetUp o ctx facts) :
    Safe o keep facts (⟨.ctx, ctx⟩ :: keep) (connectAndTalk ctx rounds (withCtx api ctx)) := by
  apply safe_return_null (n := .bio address) (v := withCtx api ctx) (List.nil_subset _) trivial
  intro bio
  apply safe_return_ssl (c := .doConnect bio) (v := { withCtx api ctx with bio := some bio }) nofun
    (List.cons_subset.mpr ⟨List.mem_cons_self, List.nil_subset _⟩)
    ⟨ctx, facts, hset, List.Sublist.refl _⟩
  apply safe_return_null (n := .ssl ctx) (v := { withCtx api ctx with bio := some bio })
    (List.cons_subset.mpr ⟨List.mem_cons_of_mem _ List.mem_cons_self, List.nil_subset _⟩)
    ⟨facts, bio, hset, List.Sublist.refl _⟩
  intro ssl
  apply safe_call (c := Call.act (.setBio ssl bio))
    (List.cons_subset.mpr ⟨List.mem_cons_self, List.cons_subset.mpr
      ⟨List.mem_cons_of_mem _ List.mem_cons_self, List.nil_subset _⟩⟩) trivial
  intro r
  refine ⟨⟨.ssl, ssl⟩ :: ⟨.ctx, ctx⟩ :: keep, ?_, ?_⟩
  · -- the BIO goes with the connection
    show List.Perm (⟨.ssl, ssl⟩ :: ⟨.bio, bio⟩ :: ⟨.ctx, ctx⟩ :: keep ++ [])
      (⟨.ssl, ssl⟩ :: ⟨.ctx, ctx⟩ :: keep ++ [⟨.bio, bio⟩])
    rw [List.append_nil]
    exact (List.perm_append_singleton _ (⟨.ctx, ctx⟩ :: keep)).symm.cons _
  apply safe_return_ssl (c := .connect ssl)
    (v := { withCtx api ctx with ssl := some ssl }) nofun
    (List.cons_subset.mpr ⟨List.mem_cons_self, List.nil_subset _⟩)
  · refine ⟨ctx, bio, ?_⟩
    simp only [List.append_assoc]
    exact (List.sublist_append_right _ _).trans (List.sublist_append_right _ _)
  · apply PeerCertificates.safe_show_certs (certificates_kept o) List.mem_cons_self
    exact safe_exchange rounds List.mem_cons_self List.mem_concat_self

theorem safe_with_ctx (api : Bool) (rounds : ℕ) : Safe o keep [] (⟨.ctx, ctx⟩ :: keep)
    (loadCertificate o.signCert ctx true (withCtx api ctx) fun v =>
      loadKey ctx true v fun v =>
      returnSsl (.checkPrivateKey ctx) v <|
      loadCertificate o.encCert ctx false v fun v =>
      loadKey ctx false v fun v =>
      returnSsl (.checkEncPrivateKey ctx) v <|
      setTrust o ctx v <| connectAndTalk ctx rounds v) := by
  have hctx : [⟨.ctx, ctx⟩] ⊆ ⟨.ctx, ctx⟩ :: keep :=
    List.cons_subset.mpr ⟨List.mem_cons_self, List.nil_subset _⟩
  apply safe_load_certificate
  intro api crt hcrt
  apply safe_load_key
  intro api key hkey
  apply safe_return_ssl (c := .checkPrivateKey ctx) (v := withCtx api ctx) nofun hctx trivial
  apply safe_load_certificate
  intro api crt' hcrt'
  apply safe_load_key
  intro api key' hkey'
  apply safe_return_ssl (c := .checkEncPrivateKey ctx) (v := withCtx api ctx) nofun hctx trivial
  apply safe_set_trust
  apply safe_connect
  exact ⟨crt, key, crt', key', hcrt, hkey, hcrt', hkey', rfl⟩

theorem ukey_sslcli_safe (o : Options) (keep : List Object) (facts : List ClientEvent)
    (rounds : ℕ) : Safe o keep facts keep (ukeySslcli o rounds) := by
  apply safe_return_null (n := .meth) (v := ⟨false, none, none, none, none, none, none⟩)
    (List.nil_subset _) trivial
  intro meth
  apply safe_set_methods List.mem_cons_self
  apply safe_call (c := Call.check (.methAdd0 meth))
    (List.cons_subset.mpr ⟨List.mem_cons_self, List.nil_subset _⟩) trivial
  intro (err : Int32)
  by_cases herr : err = 1
  · -- the method is the library's now
    refine ⟨keep, ?_, ?_⟩
    · rw [herr]
      show List.Perm (⟨.meth, meth⟩ :: keep ++ []) (keep ++ [⟨.meth, meth⟩])
      rw [List.append_nil]
      exact (List.perm_append_singleton _ keep).symm
    · rw [if_pos herr]
      apply safe_return_null (n := .ctx) (v := ⟨false, none, none, none, none, none, none⟩)
        (List.nil_subset _) trivial
      intro ctx
      exact safe_mono (safe_with_ctx false rounds) (List.nil_sublist _)
  · refine ⟨⟨.meth, meth⟩ :: keep, ?_, ?_⟩
    · show List.Perm _ (_ ++ if err = 1 then _ else _)
      rw [if_neg herr]
      exact List.Perm.refl _
    · rw [if_neg herr]
      exact safe_cleanup ⟨false, none, none, none, none, none, some meth⟩

end Steps

section Keys

variable {hexstr2buf : Arg → Option (List UInt8)} {o : Options} {v : ValueOption} {value : Arg}
  {s : UkeyOptions.Step} {done log : List UkeyOptions.Step} {keys : Keys} {p : Option ℕ}
  {ps lost : List ℕ}

def keyValues (v : ValueOption) (log : List UkeyOptions.Step) : List Arg :=
  log.filterMap fun
    | .accept w (some value) => if w = v then some value else none
    | _ => none

/-- How many keys were decoded for an option before its last value. -/
def overwritten (hexstr2buf : Arg → Option (List UInt8)) (v : ValueOption)
    (log : List UkeyOptions.Step) : ℕ :=
  (keyValues v log).dropLast.countP fun value => (hexstr2buf value).isSome

def present (hexstr2buf : Arg → Option (List UInt8)) (v : ValueOption)
    (log : List UkeyOptions.Step) : Bool :=
  ((keyValues v log).getLast?.bind hexstr2buf).isSome

theorem key_values_skip (h : ∀ value, s ≠ .accept v (some value)) :
    keyValues v (done ++ [s]) = keyValues v done := by
  have hs : keyValues v [s] = [] := by
    cases s with
    | read i => rfl
    | accept w value =>
      cases value with
      | none => rfl
      | some value =>
        have hw : w ≠ v := fun hw => h value (by rw [hw])
        simp [keyValues, hw]
  rw [keyValues, List.filterMap_append]
  exact (congrArg (keyValues v done ++ ·) hs).trans (List.append_nil _)

theorem key_values_accept :
    keyValues v (done ++ [.accept v (some value)]) = keyValues v done ++ [value] := by
  simp [keyValues]

theorem present_accept :
    present hexstr2buf v (done ++ [.accept v (some value)]) = (hexstr2buf value).isSome := by
  rw [present, key_values_accept, List.getLast?_concat]
  rfl

/-- With another value the key that was there is lost. -/
theorem overwritten_accept (h : p.isSome = present hexstr2buf v done) :
    overwritten hexstr2buf v (done ++ [.accept v (some value)]) =
      overwritten hexstr2buf v done + p.toList.length := by
  have hp : p.toList.length = if p.isSome then 1 else 0 := by cases p <;> rfl
  rw [overwritten, key_values_accept, List.dropLast_concat, hp, h, overwritten, present]
  rcases List.eq_nil_or_concat (keyValues v done) with hv | ⟨values, last, hv⟩
  · rw [hv]
    rfl
  · rw [hv, List.concat_eq_append, List.dropLast_concat, List.countP_append, List.countP_singleton,
      List.getLast?_concat]
    rfl

/-- The variables and the buffers that nothing points to any more, behind steps of the loop. -/
structure Accounted (hexstr2buf : Arg → Option (List UInt8)) (done : List UkeyOptions.Step)
    (keys : Keys) (lost : List ℕ) : Prop where
  authKey : keys.authKey.isSome = present hexstr2buf .authKey done
  authKeyNew : keys.authKeyNew.isSome = present hexstr2buf .authKeyNew done
  lost : lost.length =
    overwritten hexstr2buf .authKey done + overwritten hexstr2buf .authKeyNew done

theorem accounted_skip (h : Accounted hexstr2buf done keys lost)
    (hkey : ∀ value, s ≠ .accept .authKey (some value))
    (hnew : ∀ value, s ≠ .accept .authKeyNew (some value)) :
    Accounted hexstr2buf (done ++ [s]) keys lost := by
  refine ⟨?_, ?_, ?_⟩
  · rw [present, key_values_skip hkey]
    exact h.authKey
  · rw [present, key_values_skip hnew]
    exact h.authKeyNew
  · rw [overwritten, overwritten, key_values_skip hkey, key_values_skip hnew]
    exact h.lost

theorem accounted_auth_key (h : Accounted hexstr2buf done keys lost)
    (hp : p.isSome = (hexstr2buf value).isSome) :
    Accounted hexstr2buf (done ++ [.accept .authKey (some value)]) { keys with authKey := p }
      (keys.authKey.toList ++ lost) := by
  have hskip : keyValues .authKeyNew (done ++ [.accept .authKey (some value)]) =
      keyValues .authKeyNew done := key_values_skip nofun
  refine ⟨hp.trans present_accept.symm, ?_, ?_⟩
  · rw [present, hskip]
    exact h.authKeyNew
  · rw [List.length_append, overwritten_accept h.authKey, h.lost]
    simp only [overwritten, hskip]
    omega

theorem accounted_auth_key_new (h : Accounted hexstr2buf done keys lost)
    (hp : p.isSome = (hexstr2buf value).isSome) :
    Accounted hexstr2buf (done ++ [.accept .authKeyNew (some value)])
      { keys with authKeyNew := p } (keys.authKeyNew.toList ++ lost) := by
  have hskip : keyValues .authKey (done ++ [.accept .authKeyNew (some value)]) =
      keyValues .authKey done := key_values_skip nofun
  refine ⟨?_, hp.trans present_accept.symm, ?_⟩
  · rw [present, hskip]
    exact h.authKey
  · rw [List.length_append, overwritten_accept h.authKeyNew, h.lost]
    simp only [overwritten, hskip]
    omega

def buffers (ps : List ℕ) : List Object := ps.map (Object.mk .buffer)

/-- How main ends: it returns 0 with the lost buffers held, and it exits only from the loop of
ukey_sslcli. -/
def MainEnded (lost : ℕ) (t : List ClientEvent) (held : List Object) : End → Prop
  | .returned r => r = 0 ∧ ∃ ps : List ℕ, ps.length = lost ∧ held = buffers ps
  | .exited s => s = 1 ∧ ∃ ssl, passed (.connect ssl) ∈ t
  | .running => True

variable {n : ℕ} {facts : List ClientEvent}

theorem safe_decode_key {f : Option ℕ → Client End}
    (hnext : ∀ p, p.isSome = (hexstr2buf value).isSome →
      (discipline o).Safe (MainEnded n) facts (buffers (p.toList ++ ps)) (f p)) :
    (discipline o).Safe (MainEnded n) facts (buffers ps) (decodeKey hexstr2buf value f) := by
  unfold decodeKey
  cases hvalue : hexstr2buf value with
  | none => exact hnext none (by rw [hvalue]; rfl)
  | some key =>
    apply safe_get (c := Call.decoded value) (q := fun p : ℕ => some p) (g := Object.mk .buffer)
      (List.nil_subset _) trivial (fun _ => rfl) (fun _ => rfl) nofun
    intro p a hp
    cases hp
    exact safe_mono (hnext (some p) (by rw [hvalue]; rfl)) (List.sublist_append_left _ _)

theorem safe_decode_keys {next : Keys → Client End} (h : Accounted hexstr2buf done keys lost)
    (hnext : ∀ keys lost, Accounted hexstr2buf (done ++ log) keys lost →
      (discipline o).Safe (MainEnded n) facts
        (buffers (keys.authKey.toList ++ (keys.authKeyNew.toList ++ lost))) (next keys)) :
    (discipline o).Safe (MainEnded n) facts
      (buffers (keys.authKey.toList ++ (keys.authKeyNew.toList ++ lost)))
      (decodeKeys hexstr2buf log keys next) := by
  fun_induction decodeKeys hexstr2buf log keys next generalizing done lost with
  | case1 keys next =>
    rw [List.append_nil] at hnext
    exact hnext keys lost h
  | case2 value log keys next ih =>
    apply safe_decode_key
    intro p hp
    apply safe_perm ((List.perm_append_comm_assoc _ _ _).append_left _ |>.map _)
    apply ih p (accounted_auth_key h hp)
    rw [List.append_assoc]
    exact hnext
  | case3 value log keys next ih =>
    apply safe_decode_key
    intro p hp
    apply safe_perm ((List.perm_append_comm_assoc _ _ _).map _)
    apply ih p (accounted_auth_key_new h hp)
    rw [List.append_assoc]
    exact hnext
  | case4 s log keys next hkey hnew ih =>
    apply ih (accounted_skip h hkey hnew)
    rw [List.append_assoc]
    exact hnext

theorem safe_free_keys (hlost : lost.length = n) : (discipline o).Safe (MainEnded n) facts
    (buffers (keys.authKey.toList ++ (keys.authKeyNew.toList ++ lost))) (freeKeys keys 0) := by
  have hitem : ∀ (p : Option ℕ) (ps : List ℕ),
      buffers (p.toList ++ ps) = item .buffer p ++ buffers ps := by
    intro p ps
    cases p <;> rfl
  rw [hitem, hitem]
  apply safe_release
  apply safe_release
  exact safe_ret fun t _ => ⟨rfl, lost, hlost, rfl⟩

end Keys

section Main

variable (hexstr2buf : Arg → Option (List UInt8)) (argv : List Arg)
  (env : List ClientEvent → (c : Call) → Reply c)

/-- The buffers that main loses: the keys of options that it is given again. -/
def lostKeys : ℕ :=
  overwritten hexstr2buf .authKey (parseOptions hexstr2buf argv).log +
    overwritten hexstr2buf .authKeyNew (parseOptions hexstr2buf argv).log

example : lostKeys some [ascii "client", ascii "-AuthKey", ascii "00", ascii "-AuthKey",
    ascii "01", ascii "-AuthKeyNew", ascii "02"] = 1 := by decide

def options : UkeyOptions.Exit → Options
  | .finished o => o
  | .undefined | .error => Options.initial

/-- A client that has failed is not taken for one that has succeeded. -/
theorem safe_after_options {lost : List ℕ} {keys : Keys} (rounds : ℕ) (exit : UkeyOptions.Exit) :
    (discipline (options exit)).Safe (MainEnded lost.length) []
      (buffers (keys.authKey.toList ++ (keys.authKeyNew.toList ++ lost)))
      (afterOptions rounds keys exit) := by
  cases exit with
  | undefined => exact safe_fault
  | error => exact safe_free_keys rfl
  | finished o =>
    refine safe_bind (ukey_sslcli_safe o _ [] rounds) fun t held e he => ?_
    cases e with
    | returned r =>
      obtain ⟨rfl, rfl⟩ := he
      exact safe_free_keys rfl
    | exited s =>
      obtain ⟨hs, ssl, hconnected⟩ := he
      exact safe_ret fun t' ht => ⟨hs, ssl, ht.subset hconnected⟩
    | running => exact safe_ret fun _ _ => trivial

theorem main_safe (rounds : ℕ) : (discipline (options (parseOptions hexstr2buf argv).exit)).Safe
    (MainEnded (lostKeys hexstr2buf argv)) [] [] (main hexstr2buf argv rounds) := by
  have hstart : Accounted hexstr2buf [] ⟨none, none⟩ [] := ⟨rfl, rfl, rfl⟩
  refine safe_decode_keys hstart fun keys lost h => ?_
  have hlost : lost.length = lostKeys hexstr2buf argv := h.lost
  rw [← hlost]
  exact safe_after_options rounds (parseOptions hexstr2buf argv).exit

/-- Every call of a run works on what the client has got and not yet given back. The client
returns 0 only, and then it has given back all that the ledger is about but the `lost` buffers;
else it ends in its loop, by exit(1). -/
structure GivesBack (lost : ℕ) (t : List ClientEvent) (out : Option End) : Prop where
  live : Always (fun hist e => ∀ a ∈ uses e.1, ledger.released hist a < ledger.acquired hist a) [] t
  returned : ∀ r, out = some (.returned r) → r = 0 ∧ ∃ ps : List ℕ, ps.length = lost ∧
    ∀ a, ledger.acquired t a = ledger.released t a + (buffers ps).count a
  exited : ∀ s, out = some (.exited s) → s = 1 ∧ ∃ ssl, passed (.connect ssl) ∈ t

theorem client_gives_back (rounds : ℕ) :
    GivesBack (lostKeys hexstr2buf argv) (run env [] (main hexstr2buf argv rounds)).1
      (run env [] (main hexstr2buf argv rounds)).2 := by
  have hgood := safe_run (main_safe hexstr2buf argv rounds) env
  refine ⟨hgood.live, fun r hr => ?_, fun s hs => ?_⟩
  · obtain ⟨held, hacc, hret, ps, hlen, rfl⟩ := hgood.ended _ hr
    exact ⟨hret, ps, hlen, hacc⟩
  · obtain ⟨held, _, hexit⟩ := hgood.ended _ hs
    exact hexit

/-- BIO_do_connect is called only with both certificates and keys set and checked, one behind the
other, and with the CA and the verification set that are asked for; the handshake comes behind it,
and nothing goes over the connection before the handshake. -/
theorem nothing_sent_unprepared (rounds : ℕ) :
    Always (fun hist e => Prepared (options (parseOptions hexstr2buf argv).exit) hist e.1) []
      (run env [] (main hexstr2buf argv rounds)).1 :=
  (safe_run (main_safe hexstr2buf argv rounds) env).prepared

def cooperative (_hist : List ClientEvent) : (c : Call) → Reply c
  | .token c => UkeySessions.willing [] c
  | .decoded _ | .exported _ _ => (1 : ℕ)
  | .new _ | .peerCertificate _ | .oneline _ _ => some 1
  | .check _ | .read _ => (1 : Int32)
  | .act _ | .free _ => ()
  | .fgets => none
  | .write _ data => Int32.ofNat data.length

example : (run cooperative [] (ukeySslcli Options.initial 2)).2 = some .running := by decide

end Main

end UkeyClient
