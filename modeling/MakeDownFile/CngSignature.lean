import MakeDownFile.CngKeymgmt

/-! # The signature functions of the CNG provider

Each call takes a record of what the system calls inside it report and is `none` on
undefined behaviour. A hash value is kept symbolic, as its algorithm and the bytes hashed. -/
namespace CngSignature

open ByteBuffers
open CngWorld
open CngKeymgmt

def statusSuccess : ℕ := 0

/-- RSA_PKCS1_PADDING and RSA_PKCS1_PSS_PADDING -/
def rsaPkcs1Padding : ℕ := 1
def rsaPkcs1PssPadding : ℕ := 6

/-- BCRYPT_PAD_PKCS1 and BCRYPT_PAD_PSS -/
def bcryptPadPkcs1 : ℕ := 2
def bcryptPadPss : ℕ := 8

/-- A fetched EVP_MD, by the names it answers to. -/
structure EvpMd where
  names : List String
  deriving DecidableEq, Repr

def EvpMd.isA (md : EvpMd) (name : String) : Bool := md.names.contains name

def cngSignatureNewctx (malloc : Bool) (provctx : Option Addr) (propq : Option String)
    (w : World) : Option Addr × World :=
  if malloc then (some w.next, w.addCtx ⟨provctx, propq, none, none, none, 0, 0⟩) else (none, w)

structure DupctxCalls where
  malloc : Bool
  duplicateHash : ℕ
  key : DupCalls
  deriving DecidableEq, Repr

/-- The object of a hash that is open and not finished; with any other handle, and when
`status` reports a failure, BCryptDuplicateHash, BCryptHashData and BCryptFinishHash do
nothing. -/
def usableHash (status : ℕ) (h : Option Handle) (w : World) : Option HashObj :=
  match h.bind w.hashes with
  | some obj => if obj.finished ∨ status ≠ statusSuccess then none else some obj
  | none => none

/-- A context whose duplication fails half way is dropped, not freed. -/
def cngSignatureDupctx (o : DupctxCalls) (c : Addr) (w : World) :
    Option (Option Addr × World) :=
  match w.sigctx c with
  | none => none
  | some old =>
    let n := cngSignatureNewctx o.malloc old.provctx old.propq w
    match usableHash o.duplicateHash old.hashHandle w with
    | none => some (none, n.2)
    | some obj =>
      match n.1 with
      | none => none
      | some p =>
        let w := n.2.addHash (.duplicateHash n.2.next) obj
        let new : SignatureCtx :=
          ⟨old.provctx, old.propq, old.algIdentifier, none, some n.2.next, 0, 0⟩
        match cngKeymgmtDup o.key old.key w with
        | none => none
        | some (key, w) =>
          if old.key ≠ none ∧ key = none then
            some (none, w.setCtx p (some new))
          else
            some (some p, w.setCtx p (some { new with
              key := key
              signHashFlags := old.signHashFlags
              pssSaltLen := old.pssSaltLen }))

def cngSignatureFreectx (c : Addr) (w : World) : Option World :=
  match w.sigctx c with
  | none => none
  | some ctx => some ((w.destroyHash ctx.hashHandle).setCtx c none)

theorem freectx_cases {c : Addr} {w w' : World} (h : cngSignatureFreectx c w = some w') :
    ∃ ctx, w.sigctx c = some ctx ∧ w' = (w.destroyHash ctx.hashHandle).setCtx c none := by
  unfold cngSignatureFreectx at h
  split at h
  · cases h
  · cases h
    exact ⟨_, by assumption, rfl⟩

theorem freectx_gone {c : Addr} {w w' : World} (h : cngSignatureFreectx c w = some w') :
    w'.sigctx c = none := by
  obtain ⟨ctx, -, rfl⟩ := freectx_cases h
  exact Function.update_self _ _ _

/-- The three tests are made one after the other, so a later match wins. -/
def bcryptDigestName (md : EvpMd) : Option AlgId :=
  let name := none
  let name := if md.isA "SHA2-256" then some .sha256 else name
  let name := if md.isA "SHA2-384" then some .sha384 else name
  if md.isA "SHA2-512" then some .sha512 else name

/-- The return value and what it leaves in `*bcrypt_mdname`. Without a digest name the
output is not written. -/
def osslDigestNameToBcryptDigestName (fetch : Option EvpMd) (mdname : Option String)
    (bcryptMdname : Option AlgId) : Bool × Option AlgId :=
  match mdname with
  | none => (false, bcryptMdname)
  | some _ =>
    match fetch with
    | none => (false, none)
    | some md => ((bcryptDigestName md).isSome, bcryptDigestName md)

structure InitCalls where
  fetch : Option EvpMd
  openAlgorithmProvider : ℕ
  createHash : ℕ
  deriving DecidableEq, Repr

def cngSignatureDigestSignInit (o : InitCalls) (c : Addr) (mdname : Option String)
    (provkey : Option Addr) (w : World) : Option (ℤ × World) :=
  match w.sigctx c with
  | none => none
  | some ctx =>
    let name := osslDigestNameToBcryptDigestName o.fetch mdname ctx.algIdentifier
    let ctx := { ctx with key := provkey, algIdentifier := name.2 }
    if ¬ name.1 then some (0, w.setCtx c (some ctx))
    else if o.openAlgorithmProvider ≠ statusSuccess then some (0, w.setCtx c (some ctx))
    else
      match if o.createHash = statusSuccess then ctx.algIdentifier else none with
      | none => some (0, w.setCtx c (some ctx))
      | some alg =>
        some (1, (w.addHash (.createHash w.next) ⟨alg, [], false⟩).setCtx c
          (some { ctx with hashHandle := some w.next }))

/-- BCryptHashData takes a ULONG, so it sees the length modulo 2^32. -/
def cngSignatureDigestSignUpdate (hashData : ℕ) (c : Addr) (data : List UInt8) (w : World) :
    Option (ℤ × World) :=
  match w.sigctx c with
  | none => none
  | some ctx =>
    match ctx.hashHandle, usableHash hashData ctx.hashHandle w with
    | some h, some obj =>
      some (1, w.setHash h
        { obj with absorbed := obj.absorbed ++ data.take (data.length % 2 ^ 32) })
    | _, _ => some (0, w)

inductive PaddingInfo where
  | pss (pszAlgId : Option AlgId) (cbSalt : ℕ)
  | pkcs1 (pszAlgId : Option AlgId)
  deriving DecidableEq, Repr

def PaddingInfo.pszAlgId : PaddingInfo → Option AlgId
  | .pss alg _ => alg
  | .pkcs1 alg => alg

def paddingInfo (ctx : SignatureCtx) : Option PaddingInfo :=
  if ctx.signHashFlags = bcryptPadPss then some (.pss ctx.algIdentifier ctx.pssSaltLen)
  else if ctx.signHashFlags = bcryptPadPkcs1 then some (.pkcs1 ctx.algIdentifier)
  else none

theorem padding_alg_id {ctx : SignatureCtx} {padding : PaddingInfo}
    (h : paddingInfo ctx = some padding) : padding.pszAlgId = ctx.algIdentifier := by
  unfold paddingInfo at h
  split at h
  · cases h
    rfl
  · split at h
    · cases h
      rfl
    · cases h

theorem padding_info_none {ctx : SignatureCtx} :
    paddingInfo ctx = none ↔
      ¬ (ctx.signHashFlags = bcryptPadPss ∨ ctx.signHashFlags = bcryptPadPkcs1) := by
  unfold paddingInfo
  split
  · rename_i hpss
    simp [hpss]
  · rename_i hpss
    split
    · rename_i hpkcs1
      simp [hpkcs1]
    · rename_i hpkcs1
      simp [hpss, hpkcs1]

theorem padding_info_pss {ctx : SignatureCtx} {pszAlgId : Option AlgId} {cbSalt : ℕ} :
    paddingInfo ctx = some (.pss pszAlgId cbSalt) ↔
      ctx.signHashFlags = bcryptPadPss ∧ pszAlgId = ctx.algIdentifier ∧
        cbSalt = ctx.pssSaltLen := by
  unfold paddingInfo
  by_cases hpss : ctx.signHashFlags = bcryptPadPss
  · simp [hpss, eq_comm]
  · rw [if_neg hpss]
    refine iff_of_false ?_ fun h => hpss h.1
    split
    · intro h
      cases h
    · intro h
      cases h

/-- What NCryptSignHash signs: the hash value of `message` under `hashAlg`, with the key
object that supplied the handle and the key behind it. -/
structure SignRequest where
  keyObject : Addr
  key : NKey
  padding : PaddingInfo
  hashAlg : AlgId
  message : List UInt8
  cbSignature : ℕ
  flags : ℕ
  deriving DecidableEq, Repr

structure FinalCalls where
  getHashLength : ℕ
  malloc : Bool
  finishHash : ℕ
  paddingMalloc : Bool
  signHash : ℕ
  pcbResult : ℕ
  deriving DecidableEq, Repr

/-- The return value, `*siglen` afterwards and the signature written, if any. -/
structure FinalReply where
  ret : ℤ
  siglen : ℕ
  signed : Option SignRequest
  deriving DecidableEq, Repr

/-- Writing a DWORD through a pointer to a size_t keeps the upper half. -/
def writeDword (old new : ℕ) : ℕ := old / 2 ^ 32 * 2 ^ 32 + new % 2 ^ 32

/-- The key NCryptSignHash signs with: the outer `none` is a dereference of a missing key
object, the inner one a failed call. -/
def nCryptSignHash (status : ℕ) (key : Option Addr) (w : World) : Option (Option (Addr × NKey)) :=
  match key with
  | none => none
  | some p =>
    match w.keydata p with
    | none => none
    | some kd =>
      if status = statusSuccess then some ((w.keys kd.windowsKeyHandle).map fun k => (p, k))
      else some none

/-- `sig` tells whether the output buffer is given; without it the call is a size query. -/
def cngSignatureDigestSignFinal (o : FinalCalls) (c : Addr) (sig : Bool) (siglen sigsize : ℕ)
    (w : World) : Option (FinalReply × World) :=
  match w.sigctx c with
  | none => none
  | some ctx =>
    match ctx.hashHandle, ctx.hashHandle.bind w.hashes with
    | some h, some obj =>
      if o.getHashLength ≠ statusSuccess then some (⟨0, siglen, none⟩, w)
      else if ¬ o.malloc then some (⟨0, siglen, none⟩, w)
      else if ¬ sig then
        match nCryptSignHash o.signHash ctx.key w with
        | none => none
        | some none => some (⟨0, siglen, none⟩, w)
        | some (some _) => some (⟨1, writeDword siglen o.pcbResult, none⟩, w)
      else if usableHash o.finishHash ctx.hashHandle w = none then some (⟨0, siglen, none⟩, w)
      else
        let w := w.setHash h { obj with finished := true }
        match if o.paddingMalloc then paddingInfo ctx else none with
        | none => some (⟨0, siglen, none⟩, w)
        | some padding =>
          match nCryptSignHash o.signHash ctx.key w with
          | none => none
          | some none => some (⟨0, siglen, none⟩, w)
          | some (some (p, k)) =>
            some (⟨1, writeDword siglen o.pcbResult, some ⟨p, k, padding, obj.alg, obj.absorbed,
              sigsize % 2 ^ 32, ctx.signHashFlags⟩⟩, w)
    | _, _ => some (⟨0, siglen, none⟩, w)

/-- The value of an OSSL_PARAM by its data type; integers as the bytes in memory. -/
inductive ParamData where
  | integer (data : List UInt8)
  | utf8String (data : String)
  | other
  deriving DecidableEq, Repr

structure OsslParam where
  key : String
  data : ParamData
  deriving DecidableEq, Repr

def osslParamLocate (params : List OsslParam) (key : String) : Option ParamData :=
  (params.find? fun p => p.key = key).map OsslParam.data

def osslSignatureParamPadMode : String := "pad-mode"
def osslSignatureParamPssSaltlen : String := "saltlen"

/-- The padding half of cng_signature_set_ctx_params. The string "pss" is accepted
without any assignment. -/
def setPadMode (pad : Option ParamData) (ctx : SignatureCtx) : Option (Bool × SignatureCtx) :=
  match pad with
  | none => some (true, ctx)
  | some (.integer data) =>
    match readDword data 0 with
    | none => none
    | some mode =>
      if mode = rsaPkcs1PssPadding then some (true, { ctx with signHashFlags := bcryptPadPss })
      else if mode = rsaPkcs1Padding then
        some (true, { ctx with signHashFlags := bcryptPadPkcs1 })
      else some (false, ctx)
  | some (.utf8String mode) =>
    if mode = "pss" then some (true, ctx)
    else if mode = "pkcs1" then some (true, { ctx with signHashFlags := bcryptPadPkcs1 })
    else some (false, ctx)
  | some .other => some (false, ctx)

/-- The salt half; `o` is the hash length read for "digest". -/
def setSaltLen (o : PropertyRead) (salt : Option ParamData) (w : World) (ctx : SignatureCtx) :
    Option (Bool × SignatureCtx) :=
  match salt with
  | none => some (true, ctx)
  | some (.integer data) =>
    match readDword data 0 with
    | none => none
    | some len => some (true, { ctx with pssSaltLen := len })
  | some (.utf8String len) =>
    if len = "digest" then
      match ctx.hashHandle.bind w.hashes with
      | some obj =>
        if o.status ≠ statusSuccess ∨ o.received = 0 then some (false, { ctx with pssSaltLen := 0 })
        else some (true, { ctx with pssSaltLen := obj.alg.hashLength })
      | none => some (false, { ctx with pssSaltLen := 0 })
    else some (false, ctx)
  | some .other => some (false, ctx)

def cngSignatureSetCtxParams (o : PropertyRead) (c : Addr) (params : List OsslParam) (w : World) :
    Option (ℤ × World) :=
  let pad := osslParamLocate params osslSignatureParamPadMode
  let salt := osslParamLocate params osslSignatureParamPssSaltlen
  if pad = none ∧ salt = none then some (0, w)
  else
    match w.sigctx c with
    | none => none
    | some ctx =>
      match setPadMode pad ctx with
      | none => none
      | some (false, ctx) => some (0, w.setCtx c (some ctx))
      | some (true, ctx) =>
        match setSaltLen o salt w ctx with
        | none => none
        | some (r, ctx) => some (if r then 1 else 0, w.setCtx c (some ctx))

def createdHash (o : InitCalls) (mdname : Option String) : Option AlgId :=
  if mdname ≠ none ∧ o.openAlgorithmProvider = statusSuccess ∧ o.createHash = statusSuccess then
    o.fetch.bind bcryptDigestName
  else none

def algIdentifierAfter (o : InitCalls) (mdname : Option String) (ctx : SignatureCtx) :
    Option AlgId :=
  (osslDigestNameToBcryptDigestName o.fetch mdname ctx.algIdentifier).2

section Cases

variable {c : Addr} {w w' : World}

/-- Key and algorithm are written whether or not a hash is created. -/
theorem init_cases {o : InitCalls} {mdname : Option String} {provkey : Option Addr} {r : ℤ}
    (h : cngSignatureDigestSignInit o c mdname provkey w = some (r, w')) :
    ∃ ctx, w.sigctx c = some ctx ∧
      ((∃ alg, createdHash o mdname = some alg ∧ r = 1 ∧
          w' = (w.addHash (.createHash w.next) ⟨alg, [], false⟩).setCtx c (some { ctx with
            key := provkey, algIdentifier := some alg, hashHandle := some w.next })) ∨
        (createdHash o mdname = none ∧ r = 0 ∧
          w' = w.setCtx c (some { ctx with
            key := provkey, algIdentifier := algIdentifierAfter o mdname ctx }))) := by
  unfold cngSignatureDigestSignInit at h
  split at h
  · cases h
  rename_i ctx hctx
  refine ⟨ctx, hctx, ?_⟩
  cases mdname with
  | none =>
    cases h
    exact Or.inr ⟨by simp [createdHash], rfl, rfl⟩
  | some mdname =>
    cases hfetch : o.fetch with
    | none =>
      simp only [osslDigestNameToBcryptDigestName, hfetch] at h
      cases h
      exact Or.inr ⟨by simp [createdHash, hfetch], rfl,
        by simp [algIdentifierAfter, osslDigestNameToBcryptDigestName, hfetch]⟩
    | some md =>
      simp only [osslDigestNameToBcryptDigestName, hfetch] at h
      have hafter : algIdentifierAfter o (some mdname) ctx = bcryptDigestName md := by
        simp [algIdentifierAfter, osslDigestNameToBcryptDigestName, hfetch]
      rw [hafter]
      cases hname : bcryptDigestName md with
      | none =>
        rw [hname] at h
        cases h
        exact Or.inr ⟨by simp [createdHash, hfetch, hname], rfl, rfl⟩
      | some alg =>
        simp only [hname, Option.isSome_some, not_true_eq_false, if_false] at h
        split at h
        · rename_i hopen
          cases h
          exact Or.inr ⟨by simp [createdHash, hopen], rfl, rfl⟩
        · rename_i hopen
          split at h
          · rename_i hcreate
            cases h
            refine Or.inr ⟨?_, rfl, rfl⟩
            split at hcreate
            · cases hcreate
            · rename_i hne
              simp [createdHash, hne]
          · rename_i alg' hcreate
            cases h
            split at hcreate
            · rename_i hok
              cases hcreate
              exact Or.inl ⟨alg, by simp [createdHash, not_not.mp hopen, hok, hfetch, hname], rfl,
                rfl⟩
            · cases hcreate

theorem created_hash_name {o : InitCalls} {mdname : Option String} {alg : AlgId}
    (h : createdHash o mdname = some alg) : o.fetch.bind bcryptDigestName = some alg := by
  unfold createdHash at h
  split at h
  · exact h
  · cases h

theorem usable_hash {status : ℕ} {hd : Option Handle} {obj : HashObj}
    (h : usableHash status hd w = some obj) :
    ∃ b, hd = some b ∧ w.hashes b = some obj ∧ obj.finished = false ∧ status = statusSuccess := by
  unfold usableHash at h
  split at h
  · rename_i obj' hobj
    split at h
    · cases h
    · rename_i hok
      cases h
      obtain ⟨b, hb, hget⟩ := Option.bind_eq_some_iff.mp hobj
      rw [not_or, not_not] at hok
      exact ⟨b, hb, hget, by simpa using hok.1, hok.2⟩
  · cases h

theorem update_cases {hashData : ℕ} {data : List UInt8} {r : ℤ}
    (h : cngSignatureDigestSignUpdate hashData c data w = some (r, w')) :
    ∃ ctx, w.sigctx c = some ctx ∧
      ((r = 0 ∧ w' = w) ∨
        ∃ b obj, ctx.hashHandle = some b ∧ w.hashes b = some obj ∧ obj.finished = false ∧ r = 1 ∧
          w' = w.setHash b
            { obj with absorbed := obj.absorbed ++ data.take (data.length % 2 ^ 32) }) := by
  unfold cngSignatureDigestSignUpdate at h
  split at h
  · cases h
  rename_i ctx hctx
  refine ⟨ctx, hctx, ?_⟩
  split at h
  · rename_i b obj hb hobj
    cases h
    obtain ⟨b', hb', hget, hfin, _⟩ := usable_hash hobj
    cases hb.symm.trans hb'
    exact Or.inr ⟨b, obj, hb, hget, hfin, rfl, rfl⟩
  · cases h
    exact Or.inl ⟨rfl, rfl⟩

theorem sign_hash_some {status : ℕ} {key : Option Addr} {r : Addr × NKey}
    (h : nCryptSignHash status key w = some (some r)) :
    ∃ kd, key = some r.1 ∧ w.keydata r.1 = some kd ∧ w.keys kd.windowsKeyHandle = some r.2 := by
  unfold nCryptSignHash at h
  split at h
  · cases h
  · rename_i p
    split at h
    · cases h
    · rename_i kd hkd
      split at h
      · obtain ⟨k, hk, rfl⟩ := Option.map_eq_some_iff.mp (Option.some.inj h)
        exact ⟨kd, rfl, hkd, hk⟩
      · cases h

/-- A size query and an early failure change nothing; later the hash is used up. -/
theorem final_cases {o : FinalCalls} {sig : Bool} {siglen sigsize : ℕ} {r : FinalReply}
    (h : cngSignatureDigestSignFinal o c sig siglen sigsize w = some (r, w')) :
    ∃ ctx, w.sigctx c = some ctx ∧
      ((w' = w ∧ r.signed = none ∧ (sig = true → r.ret = 0)) ∨
        ∃ b obj, ctx.hashHandle = some b ∧ w.hashes b = some obj ∧ obj.finished = false ∧
          sig = true ∧ w' = w.setHash b { obj with finished := true } ∧
          ((r.ret = 0 ∧ r.signed = none) ∨
            ∃ p kd k padding, ctx.key = some p ∧ w.keydata p = some kd ∧
              w.keys kd.windowsKeyHandle = some k ∧ paddingInfo ctx = some padding ∧ r.ret = 1 ∧
              r.signed = some ⟨p, k, padding, obj.alg, obj.absorbed, sigsize % 2 ^ 32,
                ctx.signHashFlags⟩)) := by
  unfold cngSignatureDigestSignFinal at h
  split at h
  · cases h
  rename_i ctx hctx
  refine ⟨ctx, hctx, ?_⟩
  split at h
  · rename_i b obj hb hobj
    split at h
    · cases h; exact Or.inl ⟨rfl, rfl, fun _ => rfl⟩
    split at h
    · cases h; exact Or.inl ⟨rfl, rfl, fun _ => rfl⟩
    split at h
    · rename_i hsig
      split at h
      · cases h
      · cases h; exact Or.inl ⟨rfl, rfl, fun _ => rfl⟩
      · cases h; exact Or.inl ⟨rfl, rfl, fun ht => absurd ht hsig⟩
    rename_i hsig
    split at h
    · cases h; exact Or.inl ⟨rfl, rfl, fun _ => rfl⟩
    rename_i huse
    obtain ⟨obj', hobj'⟩ := Option.ne_none_iff_exists'.mp huse
    obtain ⟨b', hb', hget, hfin, _⟩ := usable_hash hobj'
    cases hb.symm.trans hb'
    have hget' : w.hashes b = some obj := by rwa [hb, Option.bind_some] at hobj
    cases hget.symm.trans hget'
    right
    refine ⟨b, obj, hb, hget, hfin, not_not.mp hsig, ?_⟩
    split at h
    · cases h; exact ⟨rfl, Or.inl ⟨rfl, rfl⟩⟩
    · rename_i padding hpad
      have hpad' : paddingInfo ctx = some padding := by
        split at hpad
        · exact hpad
        · cases hpad
      simp only at h
      split at h
      · cases h
      · cases h; exact ⟨rfl, Or.inl ⟨rfl, rfl⟩⟩
      · rename_i p k hsign
        cases h
        obtain ⟨kd, hp, hkd, hk⟩ := sign_hash_some hsign
        exact ⟨rfl, Or.inr ⟨p, kd, k, padding, hp, hkd, hk, hpad', rfl, rfl⟩⟩
  · cases h
    exact Or.inl ⟨rfl, rfl, fun _ => rfl⟩

theorem pad_mode_ctx {pad : Option ParamData} {ctx ctx' : SignatureCtx} {b : Bool}
    (h : setPadMode pad ctx = some (b, ctx')) :
    ctx' = { ctx with signHashFlags := ctx'.signHashFlags } ∧ (b = false → ctx' = ctx) := by
  unfold setPadMode at h
  repeat' split at h
  all_goals first
    | cases h; exact ⟨rfl, fun _ => rfl⟩
    | cases h; exact ⟨rfl, fun hf => nomatch hf⟩
    | cases h

theorem salt_len_cases {o : PropertyRead} {salt : Option ParamData} {ctx ctx' : SignatureCtx}
    {b : Bool} (h : setSaltLen o salt w ctx = some (b, ctx')) :
    (salt = none ∧ b = true ∧ ctx' = ctx) ∨
    (∃ data len, salt = some (.integer data) ∧ b = true ∧
      ctx' = { ctx with pssSaltLen := len }) ∨
    (∃ obj, salt = some (.utf8String "digest") ∧ ctx.hashHandle.bind w.hashes = some obj ∧
      o.status = statusSuccess ∧ o.received ≠ 0 ∧ b = true ∧
      ctx' = { ctx with pssSaltLen := obj.alg.hashLength }) ∨
    (salt = some (.utf8String "digest") ∧ ¬ ((ctx.hashHandle.bind w.hashes).isSome ∧
      o.status = statusSuccess ∧ o.received ≠ 0) ∧ b = false ∧
      ctx' = { ctx with pssSaltLen := 0 }) ∨
    ((∃ len, len ≠ "digest" ∧ salt = some (.utf8String len)) ∨ salt = some .other) ∧
      b = false ∧ ctx' = ctx := by
  unfold setSaltLen at h
  split at h
  · cases h
    exact Or.inl ⟨rfl, rfl, rfl⟩
  · rename_i data
    split at h
    · cases h
    · rename_i len _
      cases h
      exact Or.inr (Or.inl ⟨data, len, rfl, rfl, rfl⟩)
  · rename_i len
    right
    right
    by_cases hlen : len = "digest"
    · rw [if_pos hlen] at h
      subst hlen
      split at h
      · rename_i obj hobj
        by_cases hread : o.status ≠ statusSuccess ∨ o.received = 0
        · rw [if_pos hread] at h
          cases h
          refine Or.inr (Or.inl ⟨rfl, fun hok => ?_, rfl, rfl⟩)
          exact hread.elim (fun hs => hs hok.2.1) hok.2.2
        · rw [if_neg hread] at h
          cases h
          rw [not_or, not_not] at hread
          exact Or.inl ⟨obj, rfl, hobj, hread.1, hread.2, rfl, rfl⟩
      · rename_i hobj
        cases h
        refine Or.inr (Or.inl ⟨rfl, fun hok => ?_, rfl, rfl⟩)
        rw [hobj] at hok
        cases hok.1
    · rw [if_neg hlen] at h
      cases h
      exact Or.inr (Or.inr ⟨Or.inl ⟨len, hlen, rfl⟩, rfl, rfl⟩)
  · cases h
    exact Or.inr (Or.inr (Or.inr (Or.inr ⟨Or.inr rfl, rfl, rfl⟩)))

theorem salt_len_ctx {o : PropertyRead} {salt : Option ParamData} {ctx ctx' : SignatureCtx}
    {b : Bool} (h : setSaltLen o salt w ctx = some (b, ctx')) :
    ctx' = { ctx with pssSaltLen := ctx'.pssSaltLen } := by
  rcases salt_len_cases h with ⟨-, -, rfl⟩ | ⟨data, len, -, -, rfl⟩ | ⟨obj, -, -, -, -, -, rfl⟩ |
    ⟨-, -, -, rfl⟩ | ⟨-, -, rfl⟩
  all_goals rfl

/-- The padding half runs first; its assignment stays when the salt half fails. -/
theorem set_params_cases {o : PropertyRead} {params : List OsslParam} {r : ℤ}
    (h : cngSignatureSetCtxParams o c params w = some (r, w')) :
    (r = 0 ∧ w' = w ∧ osslParamLocate params osslSignatureParamPadMode = none ∧
      osslParamLocate params osslSignatureParamPssSaltlen = none) ∨
    ∃ ctx b ctx₁, w.sigctx c = some ctx ∧
      setPadMode (osslParamLocate params osslSignatureParamPadMode) ctx = some (b, ctx₁) ∧
      ((b = false ∧ r = 0 ∧ w' = w.setCtx c (some ctx)) ∨
        ∃ b' ctx₂, b = true ∧
          setSaltLen o (osslParamLocate params osslSignatureParamPssSaltlen) w ctx₁ =
            some (b', ctx₂) ∧
          r = (if b' then 1 else 0) ∧ w' = w.setCtx c (some ctx₂)) := by
  unfold cngSignatureSetCtxParams at h
  simp only at h
  split at h
  · rename_i hnone
    cases h
    exact Or.inl ⟨rfl, rfl, hnone⟩
  split at h
  · cases h
  rename_i ctx hctx
  right
  split at h
  · cases h
  · rename_i ctx₁ hpad
    cases h
    refine ⟨ctx, false, ctx₁, hctx, hpad, Or.inl ⟨rfl, rfl, ?_⟩⟩
    rw [(pad_mode_ctx hpad).2 rfl]
  · rename_i ctx₁ hpad
    split at h
    · cases h
    · rename_i b' ctx₂ hsalt
      cases h
      exact ⟨ctx, true, ctx₁, hctx, hpad, Or.inr ⟨b', ctx₂, rfl, hsalt, rfl, rfl⟩⟩

theorem set_params_frame {o : PropertyRead} {params : List OsslParam} {r : ℤ}
    (h : cngSignatureSetCtxParams o c params w = some (r, w')) :
    w' = w ∨ ∃ ctx flags saltLen, w.sigctx c = some ctx ∧
      w' = w.setCtx c (some { ctx with signHashFlags := flags, pssSaltLen := saltLen }) := by
  rcases set_params_cases h with ⟨_, rfl, _⟩ | ⟨ctx, b, ctx₁, hctx, hpad, hcase⟩
  · exact Or.inl rfl
  right
  rcases hcase with ⟨_, _, rfl⟩ | ⟨b', ctx₂, _, hsalt, _, rfl⟩
  · exact ⟨ctx, ctx.signHashFlags, ctx.pssSaltLen, hctx, rfl⟩
  · refine ⟨ctx, ctx₁.signHashFlags, ctx₂.pssSaltLen, hctx, ?_⟩
    rw [salt_len_ctx hsalt, (pad_mode_ctx hpad).1]

/-- A duplication that gets as far as a second hash either returns the copy, which then
owns its key object, or forgets what it has opened. -/
theorem dupctx_cases {o : DupctxCalls} {r : Option Addr}
    (h : cngSignatureDupctx o c w = some (r, w')) :
    ∃ old, w.sigctx c = some old ∧
      let empty : SignatureCtx := ⟨old.provctx, old.propq, none, none, none, 0, 0⟩
      ((r = none ∧ usableHash o.duplicateHash old.hashHandle w = none ∧
          (w' = w ∨ w' = w.addCtx empty)) ∨
        ∃ obj key v, usableHash o.duplicateHash old.hashHandle w = some obj ∧
          cngKeymgmtDup o.key old.key
            ((w.addCtx empty).addHash (.duplicateHash (w.next + 1)) obj) = some (key, v) ∧
          ((r = none ∧ key = none ∧ old.key ≠ none ∧ w' = v.setCtx w.next (some { empty with
              algIdentifier := old.algIdentifier, hashHandle := some (w.next + 1) })) ∨
            (r = some w.next ∧ (key = none → old.key = none) ∧
              w' = v.setCtx w.next (some { old with
                key := key, hashHandle := some (w.next + 1) })))) := by
  unfold cngSignatureDupctx at h
  split at h
  · cases h
  rename_i old hold
  refine ⟨old, hold, ?_⟩
  simp only at h ⊢
  split at h
  · rename_i hnone
    cases h
    left
    unfold cngSignatureNewctx
    split
    · exact ⟨rfl, hnone, Or.inr rfl⟩
    · exact ⟨rfl, hnone, Or.inl rfl⟩
  · rename_i obj hobj
    right
    cases hm : o.malloc with
    | false => simp [cngSignatureNewctx, hm] at h
    | true =>
      simp only [cngSignatureNewctx, hm, if_true, World.addCtx_next] at h
      split at h
      · cases h
      · rename_i key v hdup
        refine ⟨obj, key, v, hobj, hdup, ?_⟩
        split at h
        · rename_i hkey
          cases h
          exact Or.inl ⟨rfl, hkey.2, hkey.1, rfl⟩
        · rename_i hkey
          cases h
          refine Or.inr ⟨rfl, fun hk => ?_, rfl⟩
          by_contra hne
          exact hkey ⟨hne, hk⟩

end Cases

end CngSignature
