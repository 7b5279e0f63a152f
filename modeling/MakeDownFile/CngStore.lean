import MakeDownFile.CngKeymgmt
import Mathlib.Data.List.Range

/-! # The certificate store of the CNG provider

One system store is enumerated twice: a certificate cursor and a key cursor, each one
object ahead of what has been delivered. A certificate context is its position in the
store. All private keys pass through the one key object of the store context. -/
namespace CngStore

open CngWorld
open CngKeymgmt

def winTrue : ℤ := 1

def certNcryptKeySpec : ℕ := 0xFFFFFFFF

structure AcquireResult where
  retval : ℤ
  key : NKey
  keySpec : ℕ
  callerMustFree : ℤ
  deriving DecidableEq, Repr

/-- CERT_CONTEXT: the encoded certificate and the private key Windows keeps with it. -/
structure CertContext where
  encoded : List UInt8
  acquire : AcquireResult
  deriving DecidableEq, Repr

abbrev CertStore := List CertContext

structure StoreCtx where
  windowsCertificateStore : CertStore
  prevCertCtx : Option ℕ
  certStoreEof : Bool
  prevKeyCertCtx : Option ℕ
  key : Addr
  privKeyStoreEof : Bool
  windowsSystemStoreName : Option (List Char)
  deriving DecidableEq, Repr

/-- The position after a cursor; NULL starts from the beginning. -/
def position : Option ℕ → ℕ
  | none => 0
  | some i => i + 1

def nextCert (store : CertStore) (prev : Option ℕ) : Option ℕ :=
  if position prev < store.length then some (position prev) else none

theorem next_cert_some {store : CertStore} {prev : Option ℕ} {i : ℕ} :
    nextCert store prev = some i ↔ i = position prev ∧ position prev < store.length := by
  unfold nextCert
  split
  · rename_i hlt
    rw [Option.some.injEq]
    exact ⟨fun h => ⟨h.symm, hlt⟩, fun h => h.1.symm⟩
  · rename_i hge
    constructor
    · intro h; cases h
    · exact fun h => absurd h.2 hge

theorem next_cert_none {store : CertStore} {prev : Option ℕ} :
    nextCert store prev = none ↔ store.length ≤ position prev := by
  unfold nextCert
  split <;> simp <;> omega

/-- CertEnumCertificatesInStore frees the context passed in and returns the next one. -/
def certEnumCertificatesInStore (store : CertStore) (prev : Option ℕ) (w : World) :
    Option ℕ × World :=
  (nextCert store prev, w.emit (.enumCertificates prev (nextCert store prev)))

def acquireResult (store : CertStore) (i : ℕ) : AcquireResult :=
  (store[i]?.map CertContext.acquire).getD ⟨0, ⟨0, [], 0⟩, 0, 0⟩

/-- A failed acquisition leaves the handle variable unwritten. -/
def cryptAcquireCertificatePrivateKey (store : CertStore) (i : ℕ) (w : World) :
    Option Handle × World :=
  if (acquireResult store i).retval = winTrue then
    (some w.next, w.addKey
      (.acquirePrivateKey i w.next (decide ((acquireResult store i).callerMustFree = winTrue)))
      (acquireResult store i).key)
  else (none, w)

/-- The test after which load_another_privkey_from_store_into_context recurses. -/
def Rejected (r : AcquireResult) : Prop :=
  r.retval ≠ winTrue ∨ r.keySpec ≠ certNcryptKeySpec ∨ r.callerMustFree ≠ winTrue

instance (r : AcquireResult) : Decidable (Rejected r) :=
  inferInstanceAs (Decidable (_ ∨ _ ∨ _))

def loadAnotherCertFromStoreIntoContext (ctx : StoreCtx) (w : World) : StoreCtx × World :=
  let e := certEnumCertificatesInStore ctx.windowsCertificateStore ctx.prevCertCtx w
  ({ ctx with prevCertCtx := e.1, certStoreEof := e.1.isNone }, e.2)

/-- Certificates without a usable key are skipped by recursion; what they left in the
handle variable is freed only when the recursion reaches the end of the store. -/
@[semireducible] def loadAnotherPrivkeyFromStoreIntoContext (ctx : StoreCtx) (w : World) :
    Bool × StoreCtx × World :=
  match _h : nextCert ctx.windowsCertificateStore ctx.prevKeyCertCtx with
  | none =>
    (false, { ctx with prevKeyCertCtx := none, privKeyStoreEof := true },
      w.emit (.enumCertificates ctx.prevKeyCertCtx none))
  | some i =>
    let ctx' := { ctx with prevKeyCertCtx := some i, privKeyStoreEof := false }
    let acq := cryptAcquireCertificatePrivateKey ctx.windowsCertificateStore i
      (w.emit (.enumCertificates ctx.prevKeyCertCtx (some i)))
    if Rejected (acquireResult ctx.windowsCertificateStore i) then
      let r := loadAnotherPrivkeyFromStoreIntoContext ctx' acq.2
      if r.1 then r else (false, r.2.1, r.2.2.freeObject acq.1)
    else (true, ctx', acq.2.setKeydata ctx.key (acq.1.map KeyData.mk))
termination_by ctx.windowsCertificateStore.length - position ctx.prevKeyCertCtx
decreasing_by
  obtain ⟨rfl, hlt⟩ := next_cert_some.mp _h
  change _ - (position ctx.prevKeyCertCtx + 1) < _
  omega

def areStoreOpenArgsOk (provctx : Option Addr) (uri : Option (List Char)) : Bool :=
  match provctx, uri with
  | some _, some uri => uri.take 6 = ['c', 'n', 'g', ':', '/', '/']
  | _, _ => false

/-- Each comparison is a strncmp with the length of the name; a later match wins. -/
def parseUriFromStoreOpen (uri : List Char) (name : Option (List Char)) :
    Option (List Char) :=
  let str := uri.drop 6
  let name := if str.take 2 = ['C', 'A'] then some ['C', 'A'] else name
  let name := if str.take 2 = ['M', 'Y'] then some ['M', 'Y'] else name
  if str.take 4 = ['R', 'O', 'O', 'T'] then some ['R', 'O', 'O', 'T'] else name

structure OpenCalls where
  malloc : Bool
  keyMalloc : Bool
  certOpenSystemStore : List Char → Option CertStore

def cngStoreOpen (o : OpenCalls) (provctx : Option Addr) (uri : Option (List Char))
    (w : World) : Option (Option StoreCtx × World) :=
  if ¬ areStoreOpenArgsOk provctx uri then some (none, w)
  else if ¬ o.malloc then some (none, w)
  else
    match cngKeymgmtNew o.keyMalloc w with
    | (none, w) => some (none, w)
    | (some key, w) =>
      match parseUriFromStoreOpen (uri.getD []) none with
      | none => (cngKeymgmtFree (some key) w).map fun w => (none, w)
      | some name =>
        match o.certOpenSystemStore name with
        | none => (cngKeymgmtFree (some key) w).map fun w => (none, w)
        | some store =>
          let c := loadAnotherCertFromStoreIntoContext
            ⟨store, none, false, none, key, false, some name⟩ w
          let k := loadAnotherPrivkeyFromStoreIntoContext c.1 c.2
          some (some k.2.1, k.2.2)

/-- Arguments of one object callback. For a private key, the handle held by the key
object at `reference` while the callback runs is recorded with it. -/
inductive ObjectCall where
  | cert (data : List UInt8)
  | pkey (dataType : String) (reference : Addr) (handle : Option Handle)
  deriving DecidableEq, Repr

/-- The core's side of one callback: what it returns for a private key, and whether it
then calls cng_keymgmt_load on the reference. Its value for a certificate is ignored. -/
structure CallbackResult where
  privKeyRet : ℤ
  load : Option DupCalls
  deriving DecidableEq, Repr

structure LoadedKey where
  cert : Option ℕ
  keydata : Addr
  deriving DecidableEq, Repr

structure Session where
  ctx : StoreCtx
  world : World
  calls : List ObjectCall
  loaded : List LoadedKey

def Session.start (ctx : StoreCtx) (w : World) : Session := ⟨ctx, w, [], []⟩

def loadAnotherCert (s : Session) : Option Session :=
  match s.ctx.prevCertCtx.bind (s.ctx.windowsCertificateStore[·]?) with
  | none => none
  | some cert =>
    let e := certEnumCertificatesInStore s.ctx.windowsCertificateStore s.ctx.prevCertCtx s.world
    some { s with
      calls := s.calls ++ [.cert cert.encoded]
      ctx := { s.ctx with
        prevCertCtx := e.1
        certStoreEof := if e.1.isNone then true else s.ctx.certStoreEof }
      world := e.2 }

def objectCb (o : CallbackResult) (s : Session) : Option Session :=
  let s := { s with calls := s.calls ++ [.pkey "rsaEncryption" s.ctx.key
    ((s.world.keydata s.ctx.key).map KeyData.windowsKeyHandle)] }
  match o.load with
  | none => some s
  | some d =>
    match cngKeymgmtLoad d (some s.ctx.key) s.world with
    | none => none
    | some (none, w) => some { s with world := w }
    | some (some p, w) =>
      some { s with world := w, loaded := s.loaded ++ [⟨s.ctx.prevKeyCertCtx, p⟩] }

def loadAnotherPrivateKey (o : CallbackResult) (s : Session) : Option (ℤ × Session) :=
  if s.ctx.privKeyStoreEof then some (0, s)
  else
    match objectCb o s with
    | none => none
    | some s =>
      if o.privKeyRet = 0 then some (0, s)
      else
        let k := loadAnotherPrivkeyFromStoreIntoContext s.ctx s.world
        some (1, { s with ctx := k.2.1, world := k.2.2 })

def cngStoreLoad (o : CallbackResult) (s : Session) : Option (ℤ × Session) :=
  if ¬ s.ctx.certStoreEof then (loadAnotherCert s).map fun s => (1, s)
  else if ¬ s.ctx.privKeyStoreEof then loadAnotherPrivateKey o s
  else some (0, s)

def cngStoreEof (s : Session) : Bool := s.ctx.certStoreEof && s.ctx.privKeyStoreEof

def cngStoreClose (certCloseStore : ℤ) (s : Session) : Option (ℤ × Session) :=
  if certCloseStore ≠ winTrue then some (0, s)
  else
    (cngKeymgmtFree (some s.ctx.key) (s.world.emit .closeStore)).map fun w =>
      (1, { s with world := w })

def loads (s : Session) : List CallbackResult → Option Session
  | [] => some s
  | o :: os =>
    match cngStoreLoad o s with
    | none => none
    | some (_, s') => loads s' os

/-- Positions from `i` on whose private key is accepted, in store order. -/
def acceptedFrom (store : CertStore) (i : ℕ) : List ℕ :=
  (List.range' i (store.length - i)).filter fun j => ¬ Rejected (acquireResult store j)

theorem accepted_from_step {store : CertStore} {i : ℕ} (hi : i < store.length) :
    acceptedFrom store i =
      if Rejected (acquireResult store i) then acceptedFrom store (i + 1)
      else i :: acceptedFrom store (i + 1) := by
  have hn : store.length - i = store.length - (i + 1) + 1 := by omega
  rw [acceptedFrom, hn, List.range'_succ, List.filter_cons]
  split <;> rename_i h <;> simp at h <;> simp [h, acceptedFrom]

theorem accepted_from_end {store : CertStore} {i : ℕ} (hi : store.length ≤ i) :
    acceptedFrom store i = [] := by
  rw [acceptedFrom, Nat.sub_eq_zero_of_le hi]
  rfl

theorem mem_accepted_from {store : CertStore} {i j : ℕ} :
    j ∈ acceptedFrom store i ↔ i ≤ j ∧ ¬ Rejected (acquireResult store j) := by
  have hout : store.length ≤ j → Rejected (acquireResult store j) := fun hle => by
    simp [acquireResult, List.getElem?_eq_none hle, Rejected, winTrue]
  simp only [acceptedFrom, List.mem_filter, List.mem_range'_1, decide_eq_true_eq]
  constructor
  · rintro ⟨⟨hle, _⟩, hacc⟩
    exact ⟨hle, hacc⟩
  · rintro ⟨hle, hacc⟩
    have := Nat.lt_of_not_le fun h => hacc (hout h)
    exact ⟨⟨hle, by omega⟩, hacc⟩

/-- What an advance of the key cursor leaves alone: everything that was there before,
except the key object at `key`. -/
structure Frame (key : Addr) (w w' : World) : Prop where
  next_le : w.next ≤ w'.next
  keys : ∀ h, h < w.next → w'.keys h = w.keys h
  hashes : w'.hashes = w.hashes
  keydata : ∀ p, p ≠ key → w'.keydata p = w.keydata p
  sigctx : w'.sigctx = w.sigctx
  trace : w.trace <+: w'.trace

theorem Frame.trans {key : Addr} {u v w : World} (h : Frame key u v) (k : Frame key v w) :
    Frame key u w where
  next_le := h.next_le.trans k.next_le
  keys a ha := (k.keys a (ha.trans_le h.next_le)).trans (h.keys a ha)
  hashes := k.hashes.trans h.hashes
  keydata p hp := (k.keydata p hp).trans (h.keydata p hp)
  sigctx := k.sigctx.trans h.sigctx
  trace := h.trace.trans k.trace

theorem frame_emit (key : Addr) (w : World) (e : SysCall) : Frame key w (w.emit e) :=
  ⟨le_rfl, fun _ _ => rfl, rfl, fun _ _ => rfl, rfl, List.prefix_append _ _⟩

theorem frame_acquire (key : Addr) (store : CertStore) (i : ℕ) (w : World) :
    Frame key w (cryptAcquireCertificatePrivateKey store i w).2 := by
  unfold cryptAcquireCertificatePrivateKey
  split
  · refine ⟨by simp, fun h hh => ?_, rfl, fun _ _ => rfl, rfl, List.prefix_append _ _⟩
    simp [Function.update_of_ne (show h ≠ w.next by omega)]
  · exact ⟨le_rfl, fun _ _ => rfl, rfl, fun _ _ => rfl, rfl, List.prefix_rfl⟩

theorem frame_setKeydata (key : Addr) (w : World) (kd : Option KeyData) :
    Frame key w (w.setKeydata key kd) :=
  ⟨le_rfl, fun _ _ => rfl, rfl, fun _ hp => Function.update_of_ne hp _ _, rfl, List.prefix_rfl⟩

theorem Frame.freeObject {key : Addr} {u w : World} (h : Frame key u w) {a : Option Handle}
    (ha : ∀ b, a = some b → u.next ≤ b) : Frame key u (w.freeObject a) := by
  refine ⟨h.next_le, fun b hb => ?_, h.hashes, h.keydata, h.sigctx,
    h.trace.trans (List.prefix_append _ _)⟩
  have hne : some b ≠ a := fun he => by have := ha b he.symm; omega
  simp [hne, h.keys b hb]

theorem acquire_fresh {store : CertStore} {i : ℕ} {w : World} (hw : Fresh w) :
    Fresh (cryptAcquireCertificatePrivateKey store i w).2 := by
  unfold cryptAcquireCertificatePrivateKey
  split
  · exact hw.addKey _ _
  · exact hw

theorem emit_fresh {w : World} (hw : Fresh w) (e : SysCall) : Fresh (w.emit e) :=
  ⟨hw.null_key, hw.positive, hw.keys, hw.hashes, hw.keydata, hw.sigctx⟩

theorem acquire_handle_ge {store : CertStore} {i : ℕ} {w : World} {b : Handle}
    (h : (cryptAcquireCertificatePrivateKey store i w).1 = some b) : w.next ≤ b := by
  unfold cryptAcquireCertificatePrivateKey at h
  split at h
  · cases h; exact le_rfl
  · cases h

theorem acquire_keydata (store : CertStore) (i : ℕ) (w : World) :
    (cryptAcquireCertificatePrivateKey store i w).2.keydata = w.keydata := by
  unfold cryptAcquireCertificatePrivateKey
  split <;> rfl

theorem not_rejected {r : AcquireResult} : ¬ Rejected r ↔
    r.retval = winTrue ∧ r.keySpec = certNcryptKeySpec ∧ r.callerMustFree = winTrue := by
  simp [Rejected]

def HoldsKeyOf (store : CertStore) (key : Addr) (i : ℕ) (w : World) : Prop :=
  ¬ Rejected (acquireResult store i) ∧
  ∃ h, w.keydata key = some ⟨h⟩ ∧ SysCall.acquirePrivateKey i h true ∈ w.trace ∧
    w.keys h = some (acquireResult store i).key

/-- One advance of the key cursor: it stops at the next accepted certificate with that
certificate's handle in the key object, or ends with the key object untouched. -/
theorem load_privkey_spec (ctx : StoreCtx) (w : World) (hw : Fresh w) (hk : ctx.key < w.next) :
    let r := loadAnotherPrivkeyFromStoreIntoContext ctx w
    let store := ctx.windowsCertificateStore
    Fresh r.2.2 ∧ Frame ctx.key w r.2.2 ∧
    ((acceptedFrom store (position ctx.prevKeyCertCtx) = [] ∧
        r.2.1 = { ctx with prevKeyCertCtx := none, privKeyStoreEof := true } ∧
        r.1 = false ∧ r.2.2.keydata = w.keydata) ∨
      ∃ i, acceptedFrom store (position ctx.prevKeyCertCtx) = i :: acceptedFrom store (i + 1) ∧
        r.2.1 = { ctx with prevKeyCertCtx := some i, privKeyStoreEof := false } ∧
        r.1 = true ∧ i < store.length ∧ HoldsKeyOf store ctx.key i r.2.2 ∧
        ∀ h, r.2.2.keydata ctx.key = some ⟨h⟩ → w.next ≤ h) := by
  fun_induction loadAnotherPrivkeyFromStoreIntoContext ctx w with
  | case1 ctx w hn =>
    exact ⟨emit_fresh hw _, frame_emit _ _ _,
      Or.inl ⟨accepted_from_end (next_cert_none.mp hn), rfl, rfl, rfl⟩⟩
  | case2 ctx w i hn ctx' acq hrej r hr ih =>
    obtain ⟨rfl, hi⟩ := next_cert_some.mp hn
    have hfr : Frame ctx.key w acq.2 := (frame_emit _ _ _).trans (frame_acquire _ _ _ _)
    obtain ⟨hf, hframe, hcase⟩ := ih (acquire_fresh (emit_fresh hw _)) (hk.trans_le hfr.next_le)
    refine ⟨hf, hfr.trans hframe, ?_⟩
    rw [accepted_from_step hi, if_pos hrej]
    rcases hcase with ⟨_, _, hfalse, _⟩ | ⟨j, ha, hc, _, hj, hh, hge⟩
    · rw [hfalse] at hr; cases hr
    · exact Or.inr ⟨j, ha, hc, hr, hj, hh, fun h hkd => hfr.next_le.trans (hge h hkd)⟩
  | case3 ctx w i hn ctx' acq hrej r hr ih =>
    obtain ⟨rfl, hi⟩ := next_cert_some.mp hn
    have hfr : Frame ctx.key w acq.2 := (frame_emit _ _ _).trans (frame_acquire _ _ _ _)
    obtain ⟨hf, hframe, hcase⟩ := ih (acquire_fresh (emit_fresh hw _)) (hk.trans_le hfr.next_le)
    have hkd : acq.2.keydata = w.keydata := acquire_keydata _ _ _
    have hge : ∀ b, acq.1 = some b → w.next ≤ b := fun b hb =>
      acquire_handle_ge (w := w.emit _) hb
    refine ⟨hf.freeObject _, (hfr.trans hframe).freeObject hge, ?_⟩
    rw [accepted_from_step hi, if_pos hrej]
    rcases hcase with ⟨ha, hc, _, hd⟩ | ⟨_, _, _, htrue, _⟩
    · exact Or.inl ⟨ha, hc, rfl, hd.trans hkd⟩
    · exact absurd htrue hr
  | case4 ctx w i hn ctx' acq hacc =>
    obtain ⟨rfl, hi⟩ := next_cert_some.mp hn
    have hfr : Frame ctx.key w acq.2 := (frame_emit _ _ _).trans (frame_acquire _ _ _ _)
    obtain ⟨hret, _, hfree⟩ := not_rejected.mp hacc
    have hacq : acq = (some w.next, (w.emit (.enumCertificates ctx.prevKeyCertCtx
        (some (position ctx.prevKeyCertCtx)))).addKey
        (.acquirePrivateKey (position ctx.prevKeyCertCtx) w.next true)
        (acquireResult ctx.windowsCertificateStore (position ctx.prevKeyCertCtx)).key) := by
      simp [acq, cryptAcquireCertificatePrivateKey, hret, hfree]
    refine ⟨(acquire_fresh (emit_fresh hw _)).setKeydata (hk.trans_le hfr.next_le) _,
      hfr.trans (frame_setKeydata _ _ _),
      Or.inr ⟨position ctx.prevKeyCertCtx, ?_, rfl, rfl, hi, ?_, ?_⟩⟩
    · rw [accepted_from_step hi, if_neg hacc]
    · exact ⟨hacc, w.next, by simp [hacq], by simp [hacq], by simp [hacq]⟩
    · intro h hkd
      have hh : w.next = h := by simpa [hacq] using hkd
      exact hh.le

theorem load_privkey_ctx {ctx : StoreCtx} {w : World} (hw : Fresh w) (hk : ctx.key < w.next) :
    let c := (loadAnotherPrivkeyFromStoreIntoContext ctx w).2.1
    c.key = ctx.key ∧ c.windowsCertificateStore = ctx.windowsCertificateStore ∧
      c.prevCertCtx = ctx.prevCertCtx := by
  obtain ⟨_, _, hcase⟩ := load_privkey_spec ctx w hw hk
  rcases hcase with ⟨_, hc, _⟩ | ⟨_, _, hc, _⟩ <;> simp [hc]

end CngStore
