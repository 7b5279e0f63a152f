import MakeDownFile.CngSignatureRuns
import Mathlib.Data.Nat.Size
import Mathlib.Order.Bounds.Basic

/-! # The parameters of a key

The core learns about a key in three ways: the parameters of the key object, the exported
public numbers and the length of a signature. The first are constants, so they agree with
the others for one key size only. -/
namespace CngKeyParams

open ByteBuffers
open CngWorld
open CngKeymgmt
open CngSignature
open CngSignatureRuns

/-- One parameter the core asks for. OSSL_PARAM_set_int refuses a type it cannot write. -/
structure GetParam where
  key : String
  settable : Bool
  value : Option ℤ
  deriving DecidableEq, Repr

def osslPkeyParamBits : String := "bits"
def osslPkeyParamSecurityBits : String := "security-bits"
def osslPkeyParamMaxSize : String := "max-size"

/-- OSSL_PARAM_locate and, if that finds something, OSSL_PARAM_set_int. -/
def osslParamSetInt (key : String) (v : ℤ) : List GetParam → Option (List GetParam)
  | [] => some []
  | p :: params =>
    if p.key = key then
      if p.settable then some ({ p with value := some v } :: params) else none
    else (osslParamSetInt key v params).map fun params => p :: params

/-- The successive tests for a larger modulus; the last one that holds decides. -/
def rsaModulusSizeToStrengthBits (rsaModulusBits : ℕ) : ℤ :=
  let securityBits := 0
  let securityBits := if rsaModulusBits > 1024 then 80 else securityBits
  let securityBits := if rsaModulusBits > 2048 then 112 else securityBits
  let securityBits := if rsaModulusBits > 3072 then 128 else securityBits
  let securityBits := if rsaModulusBits > 7680 then 192 else securityBits
  if rsaModulusBits > 15360 then 256 else securityBits

structure LengthRead where
  read : PropertyRead
  keyLength : ℕ
  deriving DecidableEq, Repr

def setMaxSize (params : List GetParam) : ℤ × List GetParam :=
  match osslParamSetInt osslPkeyParamMaxSize 4096 params with
  | none => (0, params)
  | some params => (1, params)

/-- The return value and the parameters afterwards. Those set before a failure stay set. -/
def cngKeymgmtGetParams (o : LengthRead) (keydata : Option Addr) (params : List GetParam)
    (w : World) : Option (ℤ × List GetParam) :=
  match osslParamSetInt osslPkeyParamBits 512 params with
  | none => some (0, params)
  | some params =>
    match params.find? fun p => p.key = osslPkeyParamSecurityBits with
    | none => some (setMaxSize params)
    | some _ =>
      match keydata.bind w.keydata with
      | none => none
      | some kd =>
        match nCryptGetProperty w kd.windowsKeyHandle o.read with
        | none => some (0, params)
        | some _ =>
          if o.read.received ≠ 4 then some (0, params)
          else
            match osslParamSetInt osslPkeyParamSecurityBits
                (rsaModulusSizeToStrengthBits o.keyLength) params with
            | none => some (0, params)
            | some params => some (setMaxSize params)

def paramValue (params : List GetParam) (key : String) : Option ℤ :=
  (params.find? fun p => p.key = key).bind GetParam.value

theorem set_int_value {key k : String} {v : ℤ} {params params' : List GetParam}
    (h : osslParamSetInt key v params = some params') :
    (k ≠ key → paramValue params' k = paramValue params k) ∧
      ∀ x, paramValue params' key = some x → x = v := by
  induction params generalizing params' with
  | nil =>
    cases h
    exact ⟨fun _ => rfl, fun x hx => by cases hx⟩
  | cons p params ih =>
    unfold osslParamSetInt at h
    split at h
    · rename_i hkey
      split at h
      · cases h
        refine ⟨fun hne => ?_, fun x hx => ?_⟩
        · have hpk : p.key ≠ k := fun he => hne (he.symm.trans hkey)
          simp [paramValue, hpk]
        · simp only [paramValue, List.find?_cons_of_pos, hkey, decide_true, Option.bind_some,
            Option.some.injEq] at hx
          exact hx.symm
      · cases h
    · rename_i hkey
      obtain ⟨rest, hrest, rfl⟩ := Option.map_eq_some_iff.mp h
      obtain ⟨hother, hset⟩ := ih hrest
      refine ⟨fun hne => ?_, fun x hx => ?_⟩
      · by_cases hpk : p.key = k
        · simp [paramValue, hpk]
        · have := hother hne
          simpa [paramValue, hpk] using this
      · refine hset x ?_
        simpa [paramValue, hkey] using hx

theorem set_max_size_ok {params params' : List GetParam}
    (h : setMaxSize params = (1, params')) :
    osslParamSetInt osslPkeyParamMaxSize 4096 params = some params' := by
  unfold setMaxSize at h
  split at h
  · cases h
  · rename_i hset
    cases h
    exact hset

/-- How far a request comes: not past the bits, not past the strength it asks for, or to the
signature size, with the strength set or not asked for. -/
theorem get_params_steps {o : LengthRead} {keydata : Option Addr}
    {params params' : List GetParam} {w : World} {r : ℤ}
    (h : cngKeymgmtGetParams o keydata params w = some (r, params')) :
    (r = 0 ∧ params' = params) ∨
      ∃ params₁, osslParamSetInt osslPkeyParamBits 512 params = some params₁ ∧
        ((r = 0 ∧ params' = params₁) ∨
          ((params₁.find? fun p => p.key = osslPkeyParamSecurityBits) = none ∧
            setMaxSize params₁ = (r, params')) ∨
          ∃ params₂, osslParamSetInt osslPkeyParamSecurityBits
            (rsaModulusSizeToStrengthBits o.keyLength) params₁ = some params₂ ∧
            setMaxSize params₂ = (r, params')) := by
  unfold cngKeymgmtGetParams at h
  split at h
  · cases h
    exact Or.inl ⟨rfl, rfl⟩
  rename_i params₁ hbits
  refine Or.inr ⟨params₁, hbits, ?_⟩
  split at h
  · exact Or.inr (Or.inl ⟨by assumption, Option.some.inj h⟩)
  split at h
  · cases h
  split at h
  · cases h
    exact Or.inl ⟨rfl, rfl⟩
  split at h
  · cases h
    exact Or.inl ⟨rfl, rfl⟩
  split at h
  · cases h
    exact Or.inl ⟨rfl, rfl⟩
  · exact Or.inr (Or.inr ⟨_, by assumption, Option.some.inj h⟩)

theorem get_params_cases {o : LengthRead} {keydata : Option Addr}
    {params params' : List GetParam} {w : World}
    (h : cngKeymgmtGetParams o keydata params w = some (1, params')) :
    ∃ params₁ params₂, osslParamSetInt osslPkeyParamBits 512 params = some params₁ ∧
      (paramValue params₁ osslPkeyParamSecurityBits = none ∧ params₂ = params₁ ∨
        osslParamSetInt osslPkeyParamSecurityBits (rsaModulusSizeToStrengthBits o.keyLength)
          params₁ = some params₂) ∧
      osslParamSetInt osslPkeyParamMaxSize 4096 params₂ = some params' := by
  rcases get_params_steps h with ⟨hr, -⟩ | ⟨params₁, hbits, ⟨hr, -⟩ | ⟨hnone, hmax⟩ |
    ⟨params₂, hsec, hmax⟩⟩
  · cases hr
  · cases hr
  · refine ⟨params₁, params₁, hbits, Or.inl ⟨?_, rfl⟩, set_max_size_ok hmax⟩
    rw [paramValue, hnone]
    rfl
  · exact ⟨params₁, params₂, hbits, Or.inr hsec, set_max_size_ok hmax⟩

theorem get_params_values {o : LengthRead} {keydata : Option Addr}
    {params params' : List GetParam} {w : World}
    (h : cngKeymgmtGetParams o keydata params w = some (1, params')) :
    (∀ v, paramValue params' osslPkeyParamBits = some v → v = 512) ∧
    (∀ v, paramValue params' osslPkeyParamMaxSize = some v → v = 4096) ∧
    ∀ v, paramValue params' osslPkeyParamSecurityBits = some v →
      v = rsaModulusSizeToStrengthBits o.keyLength := by
  obtain ⟨params₁, params₂, hbits, hsec, hmax⟩ := get_params_cases h
  obtain ⟨_, hbitsval⟩ := set_int_value (k := osslPkeyParamBits) hbits
  obtain ⟨_, hmaxval⟩ := set_int_value (k := osslPkeyParamMaxSize) hmax
  have hkeep : ∀ k, k ≠ osslPkeyParamMaxSize → paramValue params' k = paramValue params₂ k :=
    fun k hk => (set_int_value hmax).1 hk
  refine ⟨fun v hv => hbitsval v ?_, hmaxval, fun v hv => ?_⟩
  · rw [hkeep _ (by decide)] at hv
    rcases hsec with ⟨_, rfl⟩ | hsec
    · exact hv
    · rwa [(set_int_value hsec).1 (by decide)] at hv
  · rw [hkeep _ (by decide)] at hv
    rcases hsec with ⟨hnone, rfl⟩ | hsec
    · rw [hnone] at hv
      cases hv
    · exact (set_int_value (k := osslPkeyParamBits) hsec).2 v hv

def strengthMinima : List (ℕ × ℤ) :=
  [(1024, 80), (2048, 112), (3072, 128), (7680, 192), (15360, 256)]

/-- The largest strength whose minimum the modulus reaches, or 0. -/
def IsStrength (modulusBits : ℕ) (s : ℤ) : Prop :=
  IsGreatest {s | s = 0 ∨ ∃ m, (m, s) ∈ strengthMinima ∧ m ≤ modulusBits} s

def strength (modulusBits : ℕ) : ℤ :=
  if 15360 ≤ modulusBits then 256
  else if 7680 ≤ modulusBits then 192
  else if 3072 ≤ modulusBits then 128
  else if 2048 ≤ modulusBits then 112
  else if 1024 ≤ modulusBits then 80
  else 0

theorem strength_greatest (modulusBits : ℕ) : IsStrength modulusBits (strength modulusBits) := by
  constructor
  · unfold strength
    simp only [strengthMinima, Set.mem_ofPred_eq]
    split_ifs <;> simp <;> omega
  · rintro s (rfl | ⟨m, hm, hle⟩)
    · unfold strength
      split_ifs <;> decide
    · simp only [strengthMinima, List.mem_cons, Prod.mk.injEq, List.not_mem_nil, or_false] at hm
      unfold strength
      split_ifs <;> omega

theorem is_strength_iff {modulusBits : ℕ} {s : ℤ} :
    IsStrength modulusBits s ↔ s = strength modulusBits := by
  constructor
  · intro h
    exact h.unique (strength_greatest modulusBits)
  · rintro rfl
    exact strength_greatest modulusBits

/-- The strict tests give each modulus the strength of one a bit shorter. -/
theorem strength_bits_shorter (modulusBits : ℕ) :
    rsaModulusSizeToStrengthBits modulusBits = strength (modulusBits - 1) := by
  unfold rsaModulusSizeToStrengthBits strength
  simp only
  grind

theorem strength_shorter_iff {modulusBits : ℕ} :
    strength (modulusBits - 1) = strength modulusBits ↔
      modulusBits ∉ strengthMinima.map Prod.fst := by
  constructor
  · intro h hmem
    simp only [strengthMinima, List.map_cons, List.map_nil, List.mem_cons, List.not_mem_nil,
      or_false] at hmem
    rcases hmem with rfl | rfl | rfl | rfl | rfl <;> exact absurd h (by decide)
  · intro h
    have hm : ∀ m ∈ strengthMinima.map Prod.fst, m ≤ modulusBits - 1 ↔ m ≤ modulusBits := by
      intro m hm
      have hne : modulusBits ≠ m := fun he => h (he ▸ hm)
      omega
    unfold strength
    simp only [hm 15360 (by decide), hm 7680 (by decide), hm 3072 (by decide),
      hm 2048 (by decide), hm 1024 (by decide)]

theorem set_max_size_other {params : List GetParam} {k : String} (hk : k ≠ osslPkeyParamMaxSize) :
    paramValue (setMaxSize params).2 k = paramValue params k := by
  unfold setMaxSize
  split
  · rfl
  · rename_i hset
    exact (set_int_value hset).1 hk

theorem get_params_strength {o : LengthRead} {keydata : Option Addr}
    {params params' : List GetParam} {w : World} {r v : ℤ}
    (h : cngKeymgmtGetParams o keydata params w = some (r, params'))
    (hnone : paramValue params osslPkeyParamSecurityBits = none)
    (hv : paramValue params' osslPkeyParamSecurityBits = some v) :
    v = rsaModulusSizeToStrengthBits o.keyLength := by
  have hkept : ∀ {p : List GetParam}, setMaxSize p = (r, params') →
      paramValue p osslPkeyParamSecurityBits = some v := by
    intro p hp
    rw [← hv, ← @set_max_size_other p _ (by decide), hp]
  rcases get_params_steps h with ⟨-, rfl⟩ | ⟨params₁, hbits, hcase⟩
  · rw [hnone] at hv
    cases hv
  have hnone₁ : paramValue params₁ osslPkeyParamSecurityBits = none := by
    rw [(set_int_value hbits).1 (by decide), hnone]
  rcases hcase with ⟨-, rfl⟩ | ⟨-, hmax⟩ | ⟨params₂, hset, hmax⟩
  · rw [hnone₁] at hv
    cases hv
  · have hstored := hkept hmax
    rw [hnone₁] at hstored
    cases hstored
  · exact (set_int_value (k := osslPkeyParamBits) hset).2 v (hkept hmax)

theorem set_int_keys {key : String} {v : ℤ} {params params' : List GetParam}
    (h : osslParamSetInt key v params = some params') :
    params'.map GetParam.key = params.map GetParam.key := by
  induction params generalizing params' with
  | nil =>
    cases h
    rfl
  | cons p params ih =>
    unfold osslParamSetInt at h
    split at h
    · split at h
      · cases h
        rfl
      · cases h
    · obtain ⟨rest, hrest, rfl⟩ := Option.map_eq_some_iff.mp h
      rw [List.map_cons, List.map_cons, ih hrest]

theorem set_int_found {key : String} {v : ℤ} {params params' : List GetParam}
    (h : osslParamSetInt key v params = some params') (hkey : key ∈ params.map GetParam.key) :
    paramValue params' key = some v := by
  induction params generalizing params' with
  | nil => cases hkey
  | cons p params ih =>
    unfold osslParamSetInt at h
    split at h
    · rename_i hp
      split at h
      · cases h
        simp [paramValue, hp]
      · cases h
    · rename_i hp
      obtain ⟨rest, hrest, rfl⟩ := Option.map_eq_some_iff.mp h
      rw [List.map_cons, List.mem_cons] at hkey
      have hset := ih hrest (hkey.resolve_left fun he => hp he.symm)
      simpa [paramValue, hp] using hset

theorem get_params_strength_stored {o : LengthRead} {keydata : Option Addr}
    {params params' : List GetParam} {w : World}
    (h : cngKeymgmtGetParams o keydata params w = some (1, params'))
    (hasked : osslPkeyParamSecurityBits ∈ params.map GetParam.key) :
    paramValue params' osslPkeyParamSecurityBits ≠ none := by
  rcases get_params_steps h with ⟨hr, -⟩ | ⟨params₁, hbits, ⟨hr, -⟩ | ⟨hnone, -⟩ |
    ⟨params₂, hset, hmax⟩⟩
  · cases hr
  · cases hr
  · rw [← set_int_keys hbits] at hasked
    obtain ⟨p, hp, hkey⟩ := List.mem_map.mp hasked
    exact absurd hkey (by simpa using List.find?_eq_none.mp hnone p hp)
  · rw [← set_int_keys hbits] at hasked
    have hparams : (setMaxSize params₂).2 = params' := congrArg Prod.snd hmax
    rw [← hparams, set_max_size_other (by decide), set_int_found hset hasked]
    exact Option.some_ne_none _

/-- The strength stored for a modulus is that of SP800-57 exactly when its length is none of
the minimum sizes themselves; and it is stored when asked for, unless the call fails. -/
theorem stored_strength_iff {o : LengthRead} {keydata : Option Addr}
    {params params' : List GetParam} {w : World} {r : ℤ}
    (h : cngKeymgmtGetParams o keydata params w = some (r, params'))
    (hnone : paramValue params osslPkeyParamSecurityBits = none) :
    (∀ v, paramValue params' osslPkeyParamSecurityBits = some v →
      (IsStrength o.keyLength v ↔ o.keyLength ∉ strengthMinima.map Prod.fst)) ∧
    (r = 1 → osslPkeyParamSecurityBits ∈ params.map GetParam.key →
      paramValue params' osslPkeyParamSecurityBits ≠ none) := by
  refine ⟨fun v hv => ?_, ?_⟩
  · rw [is_strength_iff, get_params_strength h hnone hv, strength_bits_shorter]
    exact strength_shorter_iff
  · rintro rfl
    exact get_params_strength_stored h

/-- What a key object says about itself agrees with what it exports and signs: BITS is the
length of the exported modulus, and MAX_SIZE covers the signature length reported on
`c` with `siglen` as the earlier value of `*siglen`. -/
structure ParamsAgree (blobs : PublicBlobs) (p c : Addr) (siglen modulusBits : ℕ) (w : World) :
    Prop where
  bits : ∀ o params params' v exp selection reply e n,
    cngKeymgmtGetParams o (some p) params w = some (1, params') →
    paramValue params' osslPkeyParamBits = some v →
    cngKeymgmtExport blobs exp (some p) selection w = some reply → reply.ret ≠ 0 →
    reply.calls = [some [e, n]] → v = n.value.size
  max_size : ∀ o params params' v fin sig sigsize f w',
    cngKeymgmtGetParams o (some p) params w = some (1, params') →
    paramValue params' osslPkeyParamMaxSize = some v →
    cngSignatureDigestSignFinal fin c sig siglen sigsize w = some (f, w') → f.ret = 1 →
    fin.pcbResult = (modulusBits + 7) / 8 → f.siglen ≤ v

section Agreement

variable {blobs : PublicBlobs} {p c : Addr} {w : World} {kd : KeyData} {k : NKey}
  {pk : RsaPublicKey} {blob : List UInt8}

theorem duplicate_buffer_defined {buffer : List UInt8} {size : ℕ} (h : size ≤ buffer.length) :
    duplicateBufferInReverse true buffer size = some (some (buffer.take size).reverse) := by
  rw [duplicateBufferInReverse, if_pos rfl, reversedCopy_eq h]
  rfl

theorem export_defined (hp : w.keydata p = some kd) (hk : w.keys kd.windowsKeyHandle = some k)
    (hblob : blobs k = some blob) (hpk : blobPublicKey blob = some pk) :
    ∃ reply e n, cngKeymgmtExport blobs ⟨0, true, 0, true, true, 1⟩ (some p) 2 w = some reply ∧
      reply.ret = 1 ∧ reply.calls = [some [e, n]] := by
  have hparams : ∃ e n, publicParams ⟨0, true, 0, true, true, 1⟩ blob = some (some [e, n]) := by
    unfold blobPublicKey at hpk
    split at hpk
    · rename_i cbe cbn he hn
      split at hpk
      · rename_i hlen
        unfold publicParams
        simp only [he, hn]
        rw [duplicate_buffer_defined (by rw [List.length_drop]; omega),
          duplicate_buffer_defined (by rw [List.length_drop]; omega)]
        exact ⟨_, _, rfl⟩
      · cases hpk
    · cases hpk
  obtain ⟨e, n, hparams⟩ := hparams
  refine ⟨⟨1, [some [e, n]]⟩, e, n, ?_, rfl, rfl⟩
  simp [cngKeymgmtExport, nCryptExportKey, errorSuccess, hp, hk, hblob, hparams, Nat.testBit]

theorem final_siglen {o : FinalCalls} {sig : Bool} {siglen sigsize : ℕ} {f : FinalReply}
    {w' : World} (h : cngSignatureDigestSignFinal o c sig siglen sigsize w = some (f, w'))
    (hf : f.ret = 1) : f.siglen = writeDword siglen o.pcbResult := by
  unfold cngSignatureDigestSignFinal at h
  split at h
  · cases h
  split at h
  · split at h
    · cases h; cases hf
    split at h
    · cases h; cases hf
    split at h
    · split at h
      · cases h
      · cases h; cases hf
      · cases h; rfl
    split at h
    · cases h; cases hf
    simp only at h
    split at h
    · cases h; cases hf
    · split at h
      · cases h
      · cases h; cases hf
      · cases h; rfl
  · cases h; cases hf

theorem size_query_defined {ctx : SignatureCtx} {b : Handle} {obj : HashObj}
    (hc : w.sigctx c = some ctx) (hb : ctx.hashHandle = some b) (hobj : w.hashes b = some obj)
    (hkey : ctx.key = some p) (hp : w.keydata p = some kd)
    (hk : w.keys kd.windowsKeyHandle = some k) (siglen pcbResult : ℕ) :
    cngSignatureDigestSignFinal ⟨0, true, 0, true, 0, pcbResult⟩ c false siglen 0 w =
      some (⟨1, writeDword siglen pcbResult, none⟩, w) := by
  simp [cngSignatureDigestSignFinal, hc, hb, hobj, statusSuccess, nCryptSignHash, hkey, hp, hk]

theorem write_dword_small {siglen new : ℕ} (hnew : new ≤ 4096) :
    writeDword siglen new ≤ 4096 ↔ siglen < 2 ^ 32 := by
  have hmod : new % 2 ^ 32 = new := Nat.mod_eq_of_lt (by omega)
  rw [writeDword, hmod]
  omega

theorem blobs_public_key (hblob : blobs k = some blob) (hpk : blobPublicKey blob = some pk) :
    ∀ blob', blobs k = some blob' → blobPublicKey blob' = some pk := by
  intro blob' hb'
  rw [← Option.some.inj (hblob.symm.trans hb')]
  exact hpk

/-- The constant that is reported is the length of the modulus for no other key size. -/
theorem ParamsAgree.size_eq {siglen modulusBits : ℕ}
    (h : ParamsAgree blobs p c siglen modulusBits w)
    (hp : w.keydata p = some kd) (hk : w.keys kd.windowsKeyHandle = some k)
    (hblob : blobs k = some blob) (hpk : blobPublicKey blob = some pk) : pk.n.size = 512 := by
  obtain ⟨reply, e, n, hexp, hret, hcalls⟩ := export_defined hp hk hblob hpk
  have hne : reply.ret ≠ 0 := by
    rw [hret]
    decide
  obtain ⟨e', n', hcalls', _, _, _, hn⟩ :=
    export_public_values hp hk (blobs_public_key hblob hpk) (by decide) hexp hne
  cases hcalls.symm.trans hcalls'
  have hbits := h.bits ⟨⟨0, 4⟩, 0⟩ [⟨osslPkeyParamBits, true, none⟩]
    [⟨osslPkeyParamBits, true, some 512⟩] 512 _ 2 reply e n rfl rfl hexp hne hcalls
  rw [hn] at hbits
  exact_mod_cast hbits.symm

/-- What the core is told about an RSA key is right for moduli of exactly 512 bits, and
only if the upper half of `*siglen` was zero. -/
theorem key_params_agree_iff {ctx : SignatureCtx} {b : Handle} {obj : HashObj}
    (hp : w.keydata p = some kd) (hk : w.keys kd.windowsKeyHandle = some k)
    (hblob : blobs k = some blob) (hpk : blobPublicKey blob = some pk)
    (hc : w.sigctx c = some ctx) (hkey : ctx.key = some p) (hb : ctx.hashHandle = some b)
    (hobj : w.hashes b = some obj) (siglen : ℕ) :
    ParamsAgree blobs p c siglen pk.n.size w ↔ pk.n.size = 512 ∧ siglen < 2 ^ 32 := by
  constructor
  · intro h
    have hsize := h.size_eq hp hk hblob hpk
    refine ⟨hsize, (write_dword_small (show 64 ≤ 4096 by omega)).mp ?_⟩
    have hquery := size_query_defined hc hb hobj hkey hp hk siglen 64
    have hmax := h.max_size ⟨⟨0, 4⟩, 0⟩ [⟨osslPkeyParamMaxSize, true, none⟩]
      [⟨osslPkeyParamMaxSize, true, some 4096⟩] 4096 _ false 0 _ _ rfl rfl hquery rfl
      (by rw [hsize])
    exact_mod_cast hmax
  · rintro ⟨hsize, hlen⟩
    constructor
    · intro o params params' v exp selection reply e n hget hv hexp hret hcalls
      rw [(get_params_values hget).1 v hv]
      have hsel : selection.testBit 1 = true := by
        by_contra hno
        rw [Bool.not_eq_true] at hno
        unfold cngKeymgmtExport at hexp
        simp only [hno, Bool.false_eq_true, if_false] at hexp
        split at hexp
        · cases hexp; exact hret rfl
        split at hexp <;> cases hexp
        · exact hret rfl
        · cases hcalls
      obtain ⟨e', n', hcalls', _, _, _, hn⟩ := export_public_values hp hk
        (blobs_public_key hblob hpk) hsel hexp hret
      cases hcalls.symm.trans hcalls'
      rw [hn, hsize]
      rfl
    · intro o params params' v fin sig sigsize f w' hget hv hfin hf hpcb
      rw [(get_params_values hget).2.1 v hv, final_siglen hfin hf, hpcb, hsize]
      exact_mod_cast (write_dword_small (by decide)).mpr hlen

/-- A public key blob with exponent 65537 and the modulus 2^2047, as large as an RSA-2048
modulus. -/
def sampleRsa2048 : List UInt8 :=
  [82, 83, 65, 49, 0, 8, 0, 0, 3, 0, 0, 0, 0, 1, 0, 0, 0, 0, 0, 0, 0, 0, 0, 0, 1, 0, 1, 128] ++
    List.replicate 255 0

theorem sample_rsa2048_key : blobPublicKey sampleRsa2048 = some ⟨2 ^ 2047, 65537⟩ := by
  decide +kernel

theorem key_params_agree_iff_sample :
    ParamsAgree (fun _ => some sampleRsa2048) 1 5 0 (2 ^ 2047 : ℕ).size sampleContext ↔
      (2 ^ 2047 : ℕ).size = 512 ∧ 0 < 2 ^ 32 :=
  key_params_agree_iff
    (show sampleContext.keydata 1 = some _ from rfl) (show sampleContext.keys 3 = some _ from rfl)
    rfl sample_rsa2048_key (show sampleContext.sigctx 5 = some _ from rfl) rfl rfl rfl 0

theorem rsa2048_reports_512 :
    ¬ ParamsAgree (fun _ => some sampleRsa2048) 1 5 0 2048 sampleContext := by
  intro h
  have hsize := h.size_eq (show sampleContext.keydata 1 = some _ from rfl)
    (show sampleContext.keys 3 = some _ from rfl) rfl sample_rsa2048_key
  exact absurd (Nat.size_pow.symm.trans hsize) (by decide)

end Agreement

def strengthParam (v : Option ℤ) : List GetParam := [⟨osslPkeyParamSecurityBits, true, v⟩]

theorem stored_strength_iff_sample :
    (∀ v, paramValue (strengthParam (some 112)) osslPkeyParamSecurityBits = some v →
      (IsStrength 3000 v ↔ 3000 ∉ strengthMinima.map Prod.fst)) ∧
    ((1 : ℤ) = 1 → osslPkeyParamSecurityBits ∈ (strengthParam none).map GetParam.key →
      paramValue (strengthParam (some 112)) osslPkeyParamSecurityBits ≠ none) :=
  stored_strength_iff
    (show cngKeymgmtGetParams ⟨⟨0, 4⟩, 3000⟩ (some 1) (strengthParam none) sampleContext =
      some (1, strengthParam (some 112)) from rfl) rfl

theorem rsa2048_strength_80 :
    cngKeymgmtGetParams ⟨⟨0, 4⟩, 2048⟩ (some 1) (strengthParam none) sampleContext =
      some (1, strengthParam (some 80)) ∧ ¬ IsStrength 2048 80 := by
  refine ⟨rfl, fun h => ?_⟩
  exact absurd (is_strength_iff.mp h) (by decide)

end CngKeyParams
