import MakeDownFile.CngStoreSession

/-! # The TLS client's search for its certificate and private key

Two passes over the store: the first installs the first certificate whose subject matches,
the second the first private key that compares equal to it. A pass is the list of what
OSSL_STORE_load returns until eof, `none` standing for NULL. -/
namespace CngClient

open CngWorld
open CngKeymgmt
open CngStore
open CngStoreSession

/-- An EVP_PKEY as EVP_PKEY_eq sees it: its type and its public numbers. -/
structure EvpPkey where
  type : String
  numbers : List ℕ
  deriving DecidableEq, Repr

structure X509NameEntry where
  nid : ℕ
  data : List UInt8
  deriving DecidableEq, Repr

structure X509 where
  subject : Option (List X509NameEntry)
  pubkey : Option EvpPkey
  deriving DecidableEq, Repr

inductive StoreInfo where
  | cert (x : X509)
  | pkey (k : EvpPkey)
  | other
  deriving DecidableEq, Repr

abbrev Pass := List (Option StoreInfo)

/-- The bytes strcmp compares. -/
def cString (data : List UInt8) : List UInt8 := data.takeWhile (· ≠ 0)

def nidCommonName : ℕ := 13

def searchFactor : ℕ := nidCommonName

def searchValue : List UInt8 := [0x78, 0x63, 0x73]

/-- Only the first entry with the NID is looked at. -/
def x509HasAttributeValue (cert : X509) (nid : ℕ) (commonName : List UInt8) : Bool :=
  match cert.subject with
  | none => false
  | some name =>
    match name.find? fun e => e.nid = nid with
    | none => false
    | some e => cString commonName = cString e.data

structure SslCtx where
  certificate : Option X509
  privateKey : Option EvpPkey
  deriving DecidableEq, Repr

/-- The library calls whose answers the client acts on. -/
structure Ssl where
  evpPkeyEq : EvpPkey → Option EvpPkey → ℤ
  useCertificate : SslCtx → X509 → Bool
  usePrivateKey : SslCtx → EvpPkey → Bool

inductive CleanUp where
  | bioFree
  | storeClose
  deriving DecidableEq, Repr

/-- `publicKey` is what `*public_key_of_certificate` holds afterwards. -/
structure CertificateReply where
  ret : ℤ
  ctx : SslCtx
  publicKey : Option EvpPkey
  cleanUp : List CleanUp
  deriving DecidableEq, Repr

def searchCertificate (ssl : Ssl) (ctx : SslCtx) (publicKey : Option EvpPkey) :
    Pass → CertificateReply
  | [] => ⟨0, ctx, publicKey, [.bioFree, .storeClose]⟩
  | none :: _ => ⟨0, ctx, publicKey, [.bioFree, .storeClose]⟩
  | some (.cert x) :: rest =>
    if ¬ x509HasAttributeValue x searchFactor searchValue then
      searchCertificate ssl ctx publicKey rest
    else if ¬ ssl.useCertificate ctx x then ⟨0, ctx, x.pubkey, [.bioFree, .storeClose]⟩
    else ⟨1, { ctx with certificate := some x }, x.pubkey, [.bioFree, .storeClose]⟩
  | some _ :: rest => searchCertificate ssl ctx publicKey rest

/-- `none` is a store that cannot be opened. -/
def findAndUseClientCertificate (ssl : Ssl) (store : Option Pass) (ctx : SslCtx)
    (publicKey : Option EvpPkey) : CertificateReply :=
  match store with
  | none => ⟨0, ctx, publicKey, []⟩
  | some pass => searchCertificate ssl ctx publicKey pass

structure PrivateKeyReply where
  ret : ℤ
  ctx : SslCtx
  cleanUp : List CleanUp
  deriving DecidableEq, Repr

/-- Any comparison other than 0 counts as a match. The store stays open when the key is
not accepted. -/
def searchPrivateKey (ssl : Ssl) (ctx : SslCtx) (certificatePublicKey : Option EvpPkey) :
    Pass → PrivateKeyReply
  | [] => ⟨0, ctx, [.bioFree, .storeClose]⟩
  | none :: _ => ⟨0, ctx, [.bioFree, .storeClose]⟩
  | some (.pkey k) :: rest =>
    if ssl.evpPkeyEq k certificatePublicKey = 0 then
      searchPrivateKey ssl ctx certificatePublicKey rest
    else if ¬ ssl.usePrivateKey ctx k then ⟨0, ctx, [.bioFree]⟩
    else ⟨1, { ctx with privateKey := some k }, [.bioFree, .storeClose]⟩
  | some _ :: rest => searchPrivateKey ssl ctx certificatePublicKey rest

def findAndUseClientPrivateKey (ssl : Ssl) (store : Option Pass) (ctx : SslCtx)
    (certificatePublicKey : Option EvpPkey) : PrivateKeyReply :=
  match store with
  | none => ⟨0, ctx, []⟩
  | some pass => searchPrivateKey ssl ctx certificatePublicKey pass

/-- What main makes of the two searches, the pointer to the public key being NULL before. -/
def setUpClient (ssl : Ssl) (certificates keys : Option Pass) (ctx : SslCtx) :
    CertificateReply × Option PrivateKeyReply :=
  let c := findAndUseClientCertificate ssl certificates ctx none
  (c, if c.ret = 0 then none else
    some (findAndUseClientPrivateKey ssl keys c.ctx c.publicKey))

/-- The documented answers of EVP_PKEY_eq; -2 where it does not support the type. -/
structure PkeyEqContract (eq : EvpPkey → Option EvpPkey → ℤ) : Prop where
  null : ∀ a, eq a none = 0
  types : ∀ a b, a.type ≠ b.type → eq a (some b) = -1
  same_type : ∀ a b, a.type = b.type →
    eq a (some b) = -2 ∨ eq a (some b) = if a = b then 1 else 0

def endsCertificates : Option StoreInfo → Bool
  | none => true
  | some (.cert x) => x509HasAttributeValue x searchFactor searchValue
  | some _ => false

def endsKeys (ssl : Ssl) (publicKey : Option EvpPkey) : Option StoreInfo → Bool
  | none => true
  | some (.pkey k) => ssl.evpPkeyEq k publicKey ≠ 0
  | some _ => false

section Searches

variable {ssl : Ssl} {ctx : SslCtx} {publicKey : Option EvpPkey} {pass : Pass}

theorem search_certificate_eq : searchCertificate ssl ctx publicKey pass =
    match pass.find? endsCertificates with
    | some (some (.cert x)) =>
      if ssl.useCertificate ctx x then
        ⟨1, { ctx with certificate := some x }, x.pubkey, [.bioFree, .storeClose]⟩
      else ⟨0, ctx, x.pubkey, [.bioFree, .storeClose]⟩
    | _ => ⟨0, ctx, publicKey, [.bioFree, .storeClose]⟩ := by
  induction pass with
  | nil => rfl
  | cons i rest ih =>
    rcases i with _ | x | k | _
    · rfl
    · cases hx : x509HasAttributeValue x searchFactor searchValue with
      | false =>
        rw [List.find?_cons_of_neg (by simp [endsCertificates, hx]), ← ih]
        simp [searchCertificate, hx]
      | true =>
        rw [List.find?_cons_of_pos (by simp [endsCertificates, hx])]
        cases hu : ssl.useCertificate ctx x <;> simp [searchCertificate, hx, hu]
    · exact ih
    · exact ih

theorem search_private_key_eq : searchPrivateKey ssl ctx publicKey pass =
    match pass.find? (endsKeys ssl publicKey) with
    | some (some (.pkey k)) =>
      if ssl.usePrivateKey ctx k then
        ⟨1, { ctx with privateKey := some k }, [.bioFree, .storeClose]⟩
      else ⟨0, ctx, [.bioFree]⟩
    | _ => ⟨0, ctx, [.bioFree, .storeClose]⟩ := by
  induction pass with
  | nil => rfl
  | cons i rest ih =>
    rcases i with _ | x | k | _
    · rfl
    · exact ih
    · by_cases hk : ssl.evpPkeyEq k publicKey = 0
      · rw [List.find?_cons_of_neg (by simp [endsKeys, hk]), ← ih]
        simp [searchPrivateKey, hk]
      · rw [List.find?_cons_of_pos (by simp [endsKeys, hk])]
        cases hu : ssl.usePrivateKey ctx k <;> simp [searchPrivateKey, hk, hu]
    · exact ih

end Searches

def FirstMatching (pass : Pass) (x : X509) : Prop :=
  ∃ pre post, pass = pre ++ some (.cert x) :: post ∧ none ∉ pre ∧
    (∀ y, some (.cert y) ∈ pre → x509HasAttributeValue y searchFactor searchValue = false) ∧
    x509HasAttributeValue x searchFactor searchValue = true

def FirstUnequal (ssl : Ssl) (publicKey : Option EvpPkey) (pass : Pass) (k : EvpPkey) : Prop :=
  ∃ pre post, pass = pre ++ some (.pkey k) :: post ∧ none ∉ pre ∧
    (∀ l, some (.pkey l) ∈ pre → ssl.evpPkeyEq l publicKey = 0) ∧ ssl.evpPkeyEq k publicKey ≠ 0

theorem find_certificate_iff {pass : Pass} {x : X509} :
    pass.find? endsCertificates = some (some (.cert x)) ↔ FirstMatching pass x := by
  rw [List.find?_eq_some_iff_append]
  constructor
  · rintro ⟨hx, pre, post, hpass, hpre⟩
    refine ⟨pre, post, hpass, fun hn => ?_, fun y hy => ?_, hx⟩
    · exact absurd (hpre none hn) (by simp [endsCertificates])
    · simpa [endsCertificates] using hpre _ hy
  · rintro ⟨pre, post, hpass, hnone, hcert, hx⟩
    refine ⟨hx, pre, post, hpass, fun i hi => ?_⟩
    rcases i with _ | y | k | _
    · exact absurd hi hnone
    · simp [endsCertificates, hcert y hi]
    · rfl
    · rfl

theorem find_key_iff {ssl : Ssl} {publicKey : Option EvpPkey} {pass : Pass} {k : EvpPkey} :
    pass.find? (endsKeys ssl publicKey) = some (some (.pkey k)) ↔
      FirstUnequal ssl publicKey pass k := by
  rw [List.find?_eq_some_iff_append]
  constructor
  · rintro ⟨hk, pre, post, hpass, hpre⟩
    refine ⟨pre, post, hpass, fun hn => ?_, fun l hl => ?_, by simpa [endsKeys] using hk⟩
    · exact absurd (hpre none hn) (by simp [endsKeys])
    · simpa [endsKeys] using hpre _ hl
  · rintro ⟨pre, post, hpass, hnone, hkeys, hk⟩
    refine ⟨by simp [endsKeys, hk], pre, post, hpass, fun i hi => ?_⟩
    rcases i with _ | y | l | _
    · exact absurd hi hnone
    · rfl
    · simp [endsKeys, hkeys l hi]
    · rfl

def ClosedOnce (cleanUp : List CleanUp) : Prop :=
  cleanUp.count .bioFree = 1 ∧ cleanUp.count .storeClose = 1

instance (cleanUp : List CleanUp) : Decidable (ClosedOnce cleanUp) :=
  inferInstanceAs (Decidable (_ ∧ _))

theorem closed_both : ClosedOnce [.bioFree, .storeClose] := by decide

theorem search_certificate_closes {ssl : Ssl} {ctx : SslCtx} {publicKey : Option EvpPkey}
    {pass : Pass} : ClosedOnce (searchCertificate ssl ctx publicKey pass).cleanUp := by
  rw [search_certificate_eq]
  split
  · split <;> exact closed_both
  · exact closed_both

theorem search_private_key_closes {ssl : Ssl} {ctx : SslCtx} {publicKey : Option EvpPkey}
    {pass : Pass} : ClosedOnce (searchPrivateKey ssl ctx publicKey pass).cleanUp ↔
      ∀ k, FirstUnequal ssl publicKey pass k → ssl.usePrivateKey ctx k = true := by
  rw [search_private_key_eq]
  split
  · rename_i k hk
    constructor
    · intro hclosed l hl
      cases hk.symm.trans (find_key_iff.mpr hl)
      by_contra huse
      rw [if_neg huse] at hclosed
      exact absurd hclosed (show ¬ ClosedOnce [.bioFree] by decide)
    · intro h
      rw [if_pos (h k (find_key_iff.mp hk))]
      exact closed_both
  · rename_i hnone
    refine iff_of_true closed_both fun k hk => ?_
    exact absurd (find_key_iff.mpr hk) (hnone k)

/-- Both searches release an opened store and the BIO once on every way out, except that the
second leaves the store open exactly when the first key that does not compare 0 is rejected. -/
theorem searches_close_iff (ssl : Ssl) (ctx : SslCtx) (publicKey : Option EvpPkey) (pass : Pass) :
    ClosedOnce (findAndUseClientCertificate ssl (some pass) ctx publicKey).cleanUp ∧
    (ClosedOnce (findAndUseClientPrivateKey ssl (some pass) ctx publicKey).cleanUp ↔
      ∀ k, FirstUnequal ssl publicKey pass k → ssl.usePrivateKey ctx k = true) :=
  ⟨search_certificate_closes, search_private_key_closes⟩

/-- The installed certificate is the first matching one and the installed key is its own. -/
def Paired (certificates : Option Pass) (ctx : SslCtx) : Prop :=
  ∃ pass x, certificates = some pass ∧ FirstMatching pass x ∧ ctx.certificate = some x ∧
    ∃ k, ctx.privateKey = some k ∧ x.pubkey = some k

/-- With the first matching certificate installed, the first private key that does not
compare 0 is another one, reported as of another type or as unsupported, and accepted. -/
def Mispaired (ssl : Ssl) (certificates keys : Option Pass) (ctx : SslCtx) : Prop :=
  ∃ passC passK x k, certificates = some passC ∧ keys = some passK ∧ FirstMatching passC x ∧
    ssl.useCertificate ctx x = true ∧ FirstUnequal ssl x.pubkey passK k ∧
    (ssl.evpPkeyEq k x.pubkey = -1 ∨ ssl.evpPkeyEq k x.pubkey = -2) ∧ x.pubkey ≠ some k ∧
    ssl.usePrivateKey { ctx with certificate := some x } k = true

section Replies

variable {ssl : Ssl} {ctx : SslCtx} {publicKey : Option EvpPkey}

theorem find_certificate_accepts {pass : Pass} {x : X509} (hx : FirstMatching pass x)
    (huse : ssl.useCertificate ctx x = true) :
    findAndUseClientCertificate ssl (some pass) ctx publicKey =
      ⟨1, { ctx with certificate := some x }, x.pubkey, [.bioFree, .storeClose]⟩ := by
  simp [findAndUseClientCertificate, search_certificate_eq, find_certificate_iff.mpr hx, huse]

theorem find_certificate_ret {certificates : Option Pass}
    (h : (findAndUseClientCertificate ssl certificates ctx publicKey).ret = 1) :
    ∃ pass x, certificates = some pass ∧ FirstMatching pass x ∧
      ssl.useCertificate ctx x = true := by
  cases certificates with
  | none => cases h
  | some pass =>
    simp only [findAndUseClientCertificate, search_certificate_eq] at h
    split at h
    · rename_i x hfind
      split at h
      · rename_i huse
        exact ⟨pass, x, rfl, find_certificate_iff.mp hfind, huse⟩
      · cases h
    · cases h

theorem find_private_key_accepts {pass : Pass} {k : EvpPkey}
    (hk : FirstUnequal ssl publicKey pass k) (huse : ssl.usePrivateKey ctx k = true) :
    findAndUseClientPrivateKey ssl (some pass) ctx publicKey =
      ⟨1, { ctx with privateKey := some k }, [.bioFree, .storeClose]⟩ := by
  simp [findAndUseClientPrivateKey, search_private_key_eq, find_key_iff.mpr hk, huse]

theorem find_private_key_ret {keys : Option Pass}
    (h : (findAndUseClientPrivateKey ssl keys ctx publicKey).ret = 1) :
    ∃ pass k, keys = some pass ∧ FirstUnequal ssl publicKey pass k ∧
      ssl.usePrivateKey ctx k = true := by
  cases keys with
  | none => cases h
  | some pass =>
    simp only [findAndUseClientPrivateKey, search_private_key_eq] at h
    split at h
    · rename_i k hfind
      split at h
      · rename_i huse
        exact ⟨pass, k, rfl, find_key_iff.mp hfind, huse⟩
      · cases h
    · cases h

end Replies

/-- Another key that does not compare 0 was not compared at all. -/
theorem PkeyEqContract.unequal {eq : EvpPkey → Option EvpPkey → ℤ} (h : PkeyEqContract eq)
    {k : EvpPkey} {publicKey : Option EvpPkey} (hne : publicKey ≠ some k)
    (hk : eq k publicKey ≠ 0) : eq k publicKey = -1 ∨ eq k publicKey = -2 := by
  cases publicKey with
  | none => exact absurd (h.null k) hk
  | some b =>
    by_cases htype : k.type = b.type
    · rcases h.same_type k b htype with h₂ | h₀
      · exact Or.inr h₂
      · rw [if_neg fun he => hne (congrArg some he.symm)] at h₀
        exact absurd h₀ hk
    · exact Or.inl (h.types k b htype)

/-- Whenever both searches succeed, the first matching certificate is installed with its own
private key, unless the first key that does not compare 0 is one of another type or of an
unsupported one, and is accepted. -/
theorem client_pairing_sound_iff {ssl : Ssl} (heq : PkeyEqContract ssl.evpPkeyEq)
    (certificates keys : Option Pass) (ctx : SslCtx) :
    (∀ c k, setUpClient ssl certificates keys ctx = (c, some k) → c.ret = 1 → k.ret = 1 →
      Paired certificates k.ctx) ↔ ¬ Mispaired ssl certificates keys ctx := by
  constructor
  · rintro hsound ⟨passC, passK, x, k, rfl, rfl, hx, hc, hk, _, hne, hu⟩
    have hcert : findAndUseClientCertificate ssl (some passC) ctx none = _ :=
      find_certificate_accepts hx hc
    have hkey : findAndUseClientPrivateKey ssl (some passK) ⟨some x, ctx.privateKey⟩ x.pubkey = _ :=
      find_private_key_accepts hk hu
    have hrun : setUpClient ssl (some passC) (some passK) ctx =
        (⟨1, { ctx with certificate := some x }, x.pubkey, [.bioFree, .storeClose]⟩,
          some ⟨1, ⟨some x, some k⟩, [.bioFree, .storeClose]⟩) := by
      simp [setUpClient, hcert, hkey]
    obtain ⟨_, y, _, _, hy, l, hl, hown⟩ := hsound _ _ hrun rfl rfl
    cases hy
    cases hl
    exact hne hown
  · intro hmis c k hrun hc hk
    obtain ⟨rfl, hkey⟩ := Prod.mk.inj hrun
    obtain ⟨passC, x, rfl, hx, huse⟩ := find_certificate_ret hc
    rw [find_certificate_accepts hx huse] at hkey
    simp only [one_ne_zero, if_false, Option.some.injEq] at hkey
    subst hkey
    obtain ⟨passK, l, rfl, hl, hul⟩ := find_private_key_ret hk
    rw [find_private_key_accepts hl hul]
    refine ⟨passC, x, rfl, hx, rfl, l, rfl, ?_⟩
    by_contra hne
    obtain ⟨_, _, _, _, _, hcompare⟩ := id hl
    exact hmis ⟨passC, passK, x, l, rfl, rfl, hx, huse, hl, heq.unequal hne hcompare, hne, hul⟩

def samplePkeyEq (a : EvpPkey) : Option EvpPkey → ℤ
  | none => 0
  | some b => if a.type ≠ b.type then -1 else if a = b then 1 else 0

theorem sample_pkey_eq_contract : PkeyEqContract samplePkeyEq := by
  refine ⟨fun _ => rfl, fun a b h => if_pos h, fun a b h => Or.inr ?_⟩
  exact if_neg fun hn => hn h

def sampleSsl : Ssl := ⟨samplePkeyEq, fun _ _ => true, fun _ _ => true⟩

def rsaKey (pk : RsaPublicKey) : EvpPkey := ⟨"RSA", [pk.n, pk.e]⟩

/-- A key that SSL_CTX_use_PrivateKey rejects: the BIO is freed, the store stays open. -/
theorem rejected_key_leaves_store_open :
    ¬ ClosedOnce (findAndUseClientPrivateKey ⟨samplePkeyEq, fun _ _ => true, fun _ _ => false⟩
      (some [some (.pkey (rsaKey ⟨15, 3⟩))]) ⟨none, none⟩ (some (rsaKey ⟨15, 3⟩))).cleanUp := by
  decide

def matchingSubject : Option (List X509NameEntry) := some [⟨nidCommonName, searchValue ++ [0]⟩]

theorem client_pairing_sound_iff_sample :
    (∀ c k, setUpClient sampleSsl (some [some (.cert ⟨matchingSubject, some (rsaKey ⟨33, 3⟩)⟩)])
        (some [some (.pkey (rsaKey ⟨33, 3⟩))]) ⟨none, none⟩ = (c, some k) → c.ret = 1 → k.ret = 1 →
      Paired (some [some (.cert ⟨matchingSubject, some (rsaKey ⟨33, 3⟩)⟩)]) k.ctx) ↔
    ¬ Mispaired sampleSsl (some [some (.cert ⟨matchingSubject, some (rsaKey ⟨33, 3⟩)⟩)])
        (some [some (.pkey (rsaKey ⟨33, 3⟩))]) ⟨none, none⟩ :=
  client_pairing_sound_iff sample_pkey_eq_contract _ _ _

def ecCertificate : X509 := ⟨matchingSubject, some ⟨"EC", [5]⟩⟩

/-- The RSA key is taken for the one of the EC certificate. -/
theorem rsa_key_for_ec_certificate : PkeyEqContract sampleSsl.evpPkeyEq ∧
    ∃ c k, setUpClient sampleSsl (some [some (.cert ecCertificate)])
        (some [some (.pkey (rsaKey ⟨33, 3⟩)), some (.pkey ⟨"EC", [5]⟩)]) ⟨none, none⟩ =
        (c, some k) ∧
      c.ret = 1 ∧ k.ret = 1 ∧ ¬ Paired (some [some (.cert ecCertificate)]) k.ctx := by
  refine ⟨sample_pkey_eq_contract, _, _, rfl, by decide, by decide, ?_⟩
  rintro ⟨_, x, _, _, hx, k, hk, hown⟩
  have hx' : some ecCertificate = some x := hx
  have hk' : some (rsaKey ⟨33, 3⟩) = some k := hk
  cases hx'
  cases hk'
  exact absurd hown (by decide)

section Store

variable (d2i : List UInt8 → Option X509) (numbers : NKey → RsaPublicKey)

/-- What the core makes of a callback: it decodes a certificate, and asks the key behind
the handle for its public numbers. -/
def storeInfo (w : World) : ObjectCall → Option StoreInfo
  | .cert data => (d2i data).map .cert
  | .pkey _ _ handle => (handle.bind w.keys).map fun k => .pkey (rsaKey (numbers k))

def yields (s : Session) : Pass := s.calls.map (storeInfo d2i numbers s.world)

/-- A session on `store`, read to its end by a core that accepts every key. -/
def ReadSession (store : CertStore) (s : Session) : Prop :=
  ∃ o provctx uri w w' ctx os, Fresh w ∧ cngStoreOpen o provctx uri w = some (some ctx, w') ∧
    ctx.windowsCertificateStore = store ∧ (∀ r ∈ os, CallbackResult.privKeyRet r = 1) ∧
    loads (Session.start ctx w') os = some s ∧ cngStoreEof s = true

def objectInfo (store : CertStore) : StoreObject → Option StoreInfo
  | .cert encoded => (d2i encoded).map .cert
  | .key i => some (.pkey (rsaKey (numbers (acquireResult store i).key)))

variable {d2i numbers}

theorem read_session_yields {store : CertStore} {s : Session} (h : ReadSession store s) :
    yields d2i numbers s = (contents store).map (objectInfo d2i numbers store) := by
  obtain ⟨o, provctx, uri, w, w', ctx, os, hw, hopen, rfl, hos, hl, heof⟩ := h
  obtain ⟨s', hl', hd, hend⟩ := open_session_delivers hw hopen hos
  cases hl.symm.trans hl'
  rw [List.take_of_length_le (hend.mp heof)] at hd
  unfold yields
  generalize s.calls = calls at hd ⊢
  generalize contents ctx.windowsCertificateStore = objects at hd ⊢
  induction hd with
  | nil => rfl
  | @cons c obj _ _ hdel _ ih =>
    have hinfo : storeInfo d2i numbers s.world c =
        objectInfo d2i numbers ctx.windowsCertificateStore obj := by
      cases c <;> cases obj <;> simp only [Delivers] at hdel
      · rw [hdel]
        rfl
      · obtain ⟨_, _, b, rfl, _, hk⟩ := hdel
        simp [storeInfo, objectInfo, hk]
    rw [List.map_cons, List.map_cons, hinfo, ih]

theorem info_defined {store : CertStore} (hdecodes : ∀ c ∈ store, d2i c.encoded ≠ none)
    {obj : StoreObject} (hobj : obj ∈ contents store) :
    objectInfo d2i numbers store obj ≠ none := by
  rcases List.mem_append.mp hobj with hobj | hobj
  · obtain ⟨c, hc, rfl⟩ := List.mem_map.mp hobj
    simpa [objectInfo] using hdecodes c hc
  · obtain ⟨j, _, rfl⟩ := List.mem_map.mp hobj
    exact Option.some_ne_none _

theorem contents_split {store : CertStore} {i : ℕ} {cert : CertContext}
    (hi : store[i]? = some cert) : ∃ rest,
      contents store = certObjects (store.take i) ++ .cert cert.encoded :: rest := by
  obtain ⟨hlt, rfl⟩ := List.getElem?_eq_some_iff.mp hi
  refine ⟨certObjects (store.drop (i + 1)) ++ (acceptedFrom store 0).map .key, ?_⟩
  have hsplit : store.take i ++ store[i] :: store.drop (i + 1) = store := by
    rw [← List.drop_eq_getElem_cons hlt, List.take_append_drop]
  have hcerts : certObjects store = certObjects (store.take i) ++
      .cert store[i].encoded :: certObjects (store.drop (i + 1)) := by
    calc certObjects store
        = certObjects (store.take i ++ store[i] :: store.drop (i + 1)) := by rw [hsplit]
      _ = _ := by rw [certObjects, List.map_append, List.map_cons]; rfl
  rw [contents, hcerts, List.append_assoc, List.cons_append]

theorem first_matching_yields {store : CertStore} (hdecodes : ∀ c ∈ store, d2i c.encoded ≠ none)
    {i : ℕ} {cert : CertContext} {x : X509} (hi : store[i]? = some cert)
    (hx : d2i cert.encoded = some x)
    (hmatch : x509HasAttributeValue x searchFactor searchValue = true)
    (hfirst : ∀ j c y, j < i → store[j]? = some c → d2i c.encoded = some y →
      x509HasAttributeValue y searchFactor searchValue = false) :
    FirstMatching ((contents store).map (objectInfo d2i numbers store)) x := by
  obtain ⟨rest, hrest⟩ := contents_split hi
  refine ⟨(certObjects (store.take i)).map (objectInfo d2i numbers store),
    rest.map (objectInfo d2i numbers store), ?_, fun hn => ?_, fun y hy => ?_, hmatch⟩
  · rw [hrest, List.map_append, List.map_cons]
    simp [objectInfo, hx]
  · obtain ⟨obj, hobj, hnone⟩ := List.mem_map.mp hn
    exact info_defined hdecodes (hrest ▸ List.mem_append_left _ hobj) hnone
  · obtain ⟨obj, hobj, hinfo⟩ := List.mem_map.mp hy
    obtain ⟨c, hc, rfl⟩ := List.mem_map.mp hobj
    obtain ⟨j, hj⟩ := List.mem_iff_getElem?.mp hc
    rw [List.getElem?_take] at hj
    split at hj
    · rename_i hji
      refine hfirst j c y hji hj ?_
      simpa [objectInfo] using hinfo
    · cases hj

/-- A key equal to the one looked for ends the second search, or an earlier one does. -/
theorem first_unequal_yields {ssl : Ssl} (heq : PkeyEqContract ssl.evpPkeyEq) {store : CertStore}
    (hdecodes : ∀ c ∈ store, d2i c.encoded ≠ none) {i : ℕ}
    (hacquired : ¬ Rejected (acquireResult store i)) :
    ∃ k, FirstUnequal ssl (some (rsaKey (numbers (acquireResult store i).key)))
      ((contents store).map (objectInfo d2i numbers store)) k := by
  let own := rsaKey (numbers (acquireResult store i).key)
  have hown : ssl.evpPkeyEq own (some own) ≠ 0 := by
    rcases heq.same_type own own rfl with h | h <;> rw [h] <;> simp
  have hmem : some (.pkey own) ∈ (contents store).map (objectInfo d2i numbers store) := by
    have hkey : StoreObject.key i ∈ contents store := List.mem_append_right _
      (List.mem_map.mpr ⟨i, mem_accepted_from.mpr ⟨Nat.zero_le i, hacquired⟩, rfl⟩)
    exact List.mem_map.mpr ⟨_, hkey, rfl⟩
  cases hfind : ((contents store).map (objectInfo d2i numbers store)).find?
      (endsKeys ssl (some own)) with
  | none => exact absurd (List.find?_eq_none.mp hfind _ hmem) (by simp [endsKeys, hown])
  | some info =>
    obtain ⟨obj, hobj, hinfo⟩ := List.mem_map.mp (List.mem_of_find?_eq_some hfind)
    have hends := List.find?_some hfind
    rcases info with _ | x | k | _
    · exact absurd hinfo (info_defined hdecodes hobj)
    · cases hends
    · exact ⟨k, find_key_iff.mp hfind⟩
    · cases hends

/-- If the first matching certificate of the store has a private key that the provider
acquires, both searches succeed, whatever else is in the store. -/
theorem client_search_complete {ssl : Ssl} (heq : PkeyEqContract ssl.evpPkeyEq)
    (hcert : ∀ ctx x, ssl.useCertificate ctx x = true)
    (hkey : ∀ ctx k, ssl.usePrivateKey ctx k = true) {store : CertStore}
    (hdecodes : ∀ c ∈ store, d2i c.encoded ≠ none) {i : ℕ} {cert : CertContext} {x : X509}
    (hi : store[i]? = some cert) (hx : d2i cert.encoded = some x)
    (hmatch : x509HasAttributeValue x searchFactor searchValue = true)
    (hfirst : ∀ j c y, j < i → store[j]? = some c → d2i c.encoded = some y →
      x509HasAttributeValue y searchFactor searchValue = false)
    (hacquired : ¬ Rejected (acquireResult store i))
    (hown : x.pubkey = some (rsaKey (numbers (acquireResult store i).key)))
    {s₁ s₂ : Session} (hs₁ : ReadSession store s₁) (hs₂ : ReadSession store s₂) (ctx : SslCtx) :
    ∃ c k, setUpClient ssl (some (yields d2i numbers s₁)) (some (yields d2i numbers s₂)) ctx =
      (c, some k) ∧ c.ret = 1 ∧ k.ret = 1 := by
  rw [read_session_yields hs₁, read_session_yields hs₂]
  have hfirst : FirstMatching ((contents store).map (objectInfo d2i numbers store)) x :=
    first_matching_yields hdecodes hi hx hmatch hfirst
  obtain ⟨k, hk⟩ : ∃ k, FirstUnequal ssl x.pubkey
      ((contents store).map (objectInfo d2i numbers store)) k := by
    rw [hown]
    exact first_unequal_yields heq hdecodes hacquired
  have hc : findAndUseClientCertificate ssl (some _) ctx none = _ :=
    find_certificate_accepts hfirst (hcert ctx x)
  have hp : findAndUseClientPrivateKey ssl (some _) ⟨some x, ctx.privateKey⟩ x.pubkey = _ :=
    find_private_key_accepts hk (hkey _ k)
  exact ⟨⟨1, ⟨some x, ctx.privateKey⟩, x.pubkey, [.bioFree, .storeClose]⟩,
    ⟨1, ⟨some x, some k⟩, [.bioFree, .storeClose]⟩, by simp [setUpClient, hc, hp], rfl, rfl⟩

end Store

theorem sample_read_session : ∃ s, ReadSession sampleStore s :=
  ⟨_, sampleOpen, some 0, some sampleUri, initial, _, _, [⟨1, none⟩, ⟨1, none⟩, ⟨1, none⟩],
    initial_fresh, rfl, rfl, by decide, rfl, by decide⟩

def sampleD2i (data : List UInt8) : Option X509 :=
  if data = [1] then some ⟨none, some (rsaKey ⟨15, 3⟩)⟩
  else some ⟨matchingSubject, some (rsaKey ⟨33, 3⟩)⟩

theorem client_search_complete_sample : ∃ s, ReadSession sampleStore s ∧
    ∃ c k, setUpClient sampleSsl (some (yields sampleD2i (fun _ => ⟨33, 3⟩) s))
      (some (yields sampleD2i (fun _ => ⟨33, 3⟩) s)) ⟨none, none⟩ = (c, some k) ∧
      c.ret = 1 ∧ k.ret = 1 := by
  obtain ⟨s, hs⟩ := sample_read_session
  refine ⟨s, hs, client_search_complete sample_pkey_eq_contract (fun _ _ => rfl) (fun _ _ => rfl)
    (by decide) (show sampleStore[1]? = some _ from rfl) (show sampleD2i [2] = some _ from rfl)
    (by decide) ?_ (by decide) rfl hs hs ⟨none, none⟩⟩
  intro j c y hj hc hy
  obtain rfl : j = 0 := by omega
  cases hc
  cases hy
  rfl

def bothMatchD2i (data : List UInt8) : Option X509 :=
  if data = [1] then some ⟨matchingSubject, some (rsaKey ⟨15, 3⟩)⟩
  else some ⟨matchingSubject, some (rsaKey ⟨33, 3⟩)⟩

/-- The keyless certificate is installed first, and the search for its key fails. -/
theorem keyless_match_shadows : ∃ s, ReadSession sampleStore s ∧
    PkeyEqContract sampleSsl.evpPkeyEq ∧ (∀ ctx x, sampleSsl.useCertificate ctx x = true) ∧
    (∀ ctx k, sampleSsl.usePrivateKey ctx k = true) ∧
    (∀ c ∈ sampleStore, bothMatchD2i c.encoded ≠ none) ∧
    (∃ cert x, sampleStore[1]? = some cert ∧ bothMatchD2i cert.encoded = some x ∧
      x509HasAttributeValue x searchFactor searchValue = true ∧
      ¬ Rejected (acquireResult sampleStore 1) ∧ x.pubkey = some (rsaKey ⟨33, 3⟩)) ∧
    ∃ c k, setUpClient sampleSsl (some (yields bothMatchD2i (fun _ => ⟨33, 3⟩) s))
      (some (yields bothMatchD2i (fun _ => ⟨33, 3⟩) s)) ⟨none, none⟩ = (c, some k) ∧
      c.ret = 1 ∧ k.ret = 0 := by
  obtain ⟨s, hs⟩ := sample_read_session
  refine ⟨s, hs, sample_pkey_eq_contract, fun _ _ => rfl, fun _ _ => rfl, by decide,
    ⟨_, _, rfl, rfl, by decide, by decide, rfl⟩, ?_⟩
  rw [read_session_yields hs]
  exact ⟨_, _, rfl, by decide, by decide⟩

end CngClient
