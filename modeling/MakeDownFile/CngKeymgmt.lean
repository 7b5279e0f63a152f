import MakeDownFile.ByteBuffers
import MakeDownFile.CngWorld

/-! # Key management of the CNG provider

A call takes a record of what the system calls inside it report. `none` is undefined
behaviour: a dereference of NULL or of freed memory, or a read outside a buffer. -/
namespace CngKeymgmt

open ByteBuffers
open CngWorld

def errorSuccess : ℕ := 0

structure PropertyRead where
  status : ℕ
  received : ℕ
  deriving DecidableEq, Repr

structure DuplicateCalls where
  keyType : PropertyRead
  provider : PropertyRead
  nameSize : PropertyRead
  nameMalloc : Bool
  name : PropertyRead
  openKey : ℕ
  deriving DecidableEq, Repr

/-- The properties read here are those of the key behind an open handle. -/
def nCryptGetProperty (w : World) (h : Handle) (r : PropertyRead) : Option NKey :=
  if r.status = errorSuccess then w.keys h else none

/-- A NULL name or output pointer is refused. -/
def nCryptOpenKey (status provider : ℕ) (newKeyHandle : Option Addr)
    (name : Option (List ℕ)) (flags : ℕ) (w : World) : Option World :=
  match newKeyHandle, name with
  | some p, some n =>
    if status = errorSuccess then
      some ((w.addKey (.openKey w.next) ⟨provider, n, flags⟩).setKeydata p (some ⟨w.next⟩))
    else none
  | _, _ => none

def duplicateKeyHandle (o : DuplicateCalls) (oldKeydata newKeydata : Option Addr)
    (w : World) : Option (Bool × World) :=
  match oldKeydata.bind w.keydata with
  | none => none
  | some old =>
    match nCryptGetProperty w old.windowsKeyHandle o.keyType,
        nCryptGetProperty w old.windowsKeyHandle o.provider,
        nCryptGetProperty w old.windowsKeyHandle o.nameSize,
        nCryptGetProperty w old.windowsKeyHandle o.name with
    | some keyType, some provider, some _, some name =>
      if o.keyType.received ≠ 4 ∨ o.provider.received ≠ 8 then some (false, w)
      else
        match nCryptOpenKey o.openKey provider.provider newKeydata
            (if o.nameMalloc then some name.name else none) keyType.typeFlags w with
        | none => some (false, w)
        | some w' => some (true, w')
    | _, _, _, _ => some (false, w)

structure DupCalls where
  malloc : Bool
  handle : DuplicateCalls
  deriving DecidableEq, Repr

def cngKeymgmtNew (malloc : Bool) (w : World) : Option Addr × World :=
  if malloc then (some w.next, w.addKeydata) else (none, w)

/-- When the handle cannot be duplicated the new object is dropped, not freed. -/
def cngKeymgmtDup (o : DupCalls) (keydataFrom : Option Addr) (w : World) :
    Option (Option Addr × World) :=
  match duplicateKeyHandle o.handle keydataFrom (cngKeymgmtNew o.malloc w).1
      (cngKeymgmtNew o.malloc w).2 with
  | none => none
  | some (false, w') => some (none, w')
  | some (true, w') => some ((cngKeymgmtNew o.malloc w).1, w')

def cngKeymgmtFree (vkeydata : Option Addr) (w : World) : Option World :=
  match vkeydata with
  | none => none
  | some p =>
    match w.keydata p with
    | none => none
    | some kd => some ((w.freeObject (some kd.windowsKeyHandle)).setKeydata p none)

theorem keymgmt_free_cases {vkeydata : Option Addr} {w w' : World}
    (h : cngKeymgmtFree vkeydata w = some w') :
    ∃ p kd, vkeydata = some p ∧ w.keydata p = some kd ∧
      w' = (w.freeObject (some kd.windowsKeyHandle)).setKeydata p none := by
  unfold cngKeymgmtFree at h
  split at h
  · cases h
  split at h
  · cases h
  · cases h
    exact ⟨_, _, rfl, by assumption, rfl⟩

def cngKeymgmtLoad (o : DupCalls) (reference : Option Addr) (w : World) :
    Option (Option Addr × World) :=
  cngKeymgmtDup o reference w

theorem duplicate_key_handle_cases {o : DuplicateCalls} {old new : Option Addr} {w w' : World}
    {r : Bool} (h : duplicateKeyHandle o old new w = some (r, w')) :
    ∃ kd, old.bind w.keydata = some kd ∧
      ((r = false ∧ w' = w) ∨
        ∃ p k, r = true ∧ new = some p ∧ w.keys kd.windowsKeyHandle = some k ∧
          w' = (w.addKey (.openKey w.next) k).setKeydata p (some ⟨w.next⟩)) := by
  unfold duplicateKeyHandle at h
  split at h
  · cases h
  rename_i kd hkd
  refine ⟨kd, hkd, ?_⟩
  split at h
  · rename_i kt pv _ nm hkt hpv _ hnm
    split at h
    · cases h
      exact Or.inl ⟨rfl, rfl⟩
    · split at h
      · cases h
        exact Or.inl ⟨rfl, rfl⟩
      · rename_i w₁ hopen
        cases h
        right
        -- all three properties come from the key behind the one old handle
        have hkey : ∀ r k, nCryptGetProperty w kd.windowsKeyHandle r = some k →
            w.keys kd.windowsKeyHandle = some k := by
          intro r k hr
          simp only [nCryptGetProperty] at hr
          split at hr
          · exact hr
          · cases hr
        have hp := hkey _ _ hpv
        have ekt : kt = pv := Option.some.inj ((hkey _ _ hkt).symm.trans hp)
        have enm : nm = pv := Option.some.inj ((hkey _ _ hnm).symm.trans hp)
        subst ekt enm
        cases new with
        | none => simp [nCryptOpenKey] at hopen
        | some p =>
          refine ⟨p, nm, rfl, rfl, hp, ?_⟩
          simp only [nCryptOpenKey] at hopen
          split at hopen
          · rename_i q n heq hname
            split at hopen
            · have hn : nm.name = n := by
                split at hname
                · exact Option.some.inj hname
                · cases hname
              subst hn
              cases heq
              exact (Option.some.inj hopen).symm
            · cases hopen
          · cases hopen
  · cases h
    exact Or.inl ⟨rfl, rfl⟩

theorem keymgmt_dup_cases {o : DupCalls} {src r : Option Addr} {w w' : World} (hw : Fresh w)
    (h : cngKeymgmtDup o src w = some (r, w')) :
    (r = none ∧ (w' = w ∨ w' = w.addKeydata)) ∨
    ∃ p kd k, src = some p ∧ w.keydata p = some kd ∧ w.keys kd.windowsKeyHandle = some k ∧
      r = some w.next ∧
      w' = (w.addKeydata.addKey (.openKey (w.next + 1)) k).setKeydata w.next
        (some ⟨w.next + 1⟩) := by
  unfold cngKeymgmtDup at h
  split at h
  · cases h
  · rename_i w₁ hd
    cases h
    left
    obtain ⟨kd, _, ⟨_, rfl⟩ | ⟨p, k, hf, _⟩⟩ := duplicate_key_handle_cases hd
    · unfold cngKeymgmtNew
      split
      · exact ⟨rfl, Or.inr rfl⟩
      · exact ⟨rfl, Or.inl rfl⟩
    · cases hf
  · rename_i w₁ hd
    cases h
    right
    obtain ⟨kd, hkd, ⟨hf, _⟩ | ⟨p, k, _, hp, hk, rfl⟩⟩ := duplicate_key_handle_cases hd
    · cases hf
    cases hm : o.malloc with
    | false => simp [cngKeymgmtNew, hm] at hp
    | true =>
      simp only [cngKeymgmtNew, hm, ↓reduceIte, Option.some.injEq] at hkd hp hk ⊢
      subst p
      obtain ⟨p, rfl, hsrc⟩ := Option.bind_eq_some_iff.mp hkd
      -- the fresh object holds the null handle, so the source is an older one
      have hne : p ≠ w.next := by
        rintro rfl
        rw [World.addKeydata_keydata, Function.update_self] at hsrc
        cases hsrc
        rw [World.addKeydata_keys, hw.null_key] at hk
        cases hk
      rw [World.addKeydata_keydata, Function.update_of_ne hne] at hsrc
      exact ⟨p, kd, k, rfl, hsrc, hk, trivial, rfl⟩

theorem keymgmt_dup_defined {o : DupCalls} {p : Addr} {kd : KeyData} {w : World}
    (hw : Fresh w) (hp : w.keydata p = some kd) :
    ∃ r w', cngKeymgmtDup o (some p) w = some (r, w') := by
  have hd : ∀ new v, v.keydata p = some kd →
      ∃ r v', duplicateKeyHandle o.handle (some p) new v = some (r, v') := by
    intro new v hv
    unfold duplicateKeyHandle
    rw [Option.bind_some, hv]
    simp only
    split
    · split
      · exact ⟨_, _, rfl⟩
      · split <;> exact ⟨_, _, rfl⟩
    · exact ⟨_, _, rfl⟩
  have hnew : (cngKeymgmtNew o.malloc w).2.keydata p = some kd := by
    unfold cngKeymgmtNew
    split
    · have hne : p ≠ w.next := (hw.keydata_lt hp).ne
      rw [World.addKeydata_keydata, Function.update_of_ne hne, hp]
    · exact hp
  obtain ⟨r, v, h⟩ := hd (cngKeymgmtNew o.malloc w).1 _ hnew
  unfold cngKeymgmtDup
  rw [h]
  cases r <;> exact ⟨_, _, rfl⟩

theorem frame_keymgmt_dup {o : DupCalls} {src r : Option Addr} {w w' : World} (hw : Fresh w)
    (h : cngKeymgmtDup o src w = some (r, w')) :
    Fresh w' ∧ w.next ≤ w'.next ∧ w.trace <+: w'.trace ∧
      (∀ p, p < w.next → w'.keydata p = w.keydata p) ∧
      (∀ h, h < w.next → w'.keys h = w.keys h) := by
  rcases keymgmt_dup_cases hw h with ⟨_, rfl | rfl⟩ | ⟨p, kd, k, _, _, _, _, rfl⟩
  · exact ⟨hw, le_rfl, List.prefix_rfl, fun _ _ => rfl, fun _ _ => rfl⟩
  · exact ⟨hw.addKeydata, Nat.le_succ _, List.prefix_rfl,
      fun p hp => Function.update_of_ne hp.ne _ _, fun _ _ => rfl⟩
  · have hlt : w.next < w.next + 1 + 1 := by omega
    refine ⟨(hw.addKeydata.addKey _ _).setKeydata hlt _, hlt.le,
      List.prefix_append _ _, fun p hp => ?_, fun h hh => ?_⟩
    · simp [Function.update_of_ne hp.ne]
    · simp [Function.update_of_ne (show h ≠ w.next + 1 by omega)]

/-- What the key storage provider exports for a key as BCRYPT_RSAPUBLIC_BLOB; `none`
when the key is not an RSA key. -/
abbrev PublicBlobs := NKey → Option (List UInt8)

structure ExportCalls where
  sizeStatus : ℕ
  blobMalloc : Bool
  blobStatus : ℕ
  expMalloc : Bool
  modulusMalloc : Bool
  paramCb : ℤ
  deriving DecidableEq, Repr

/-- An OSSL_PARAM of type unsigned integer, its number in native byte order. -/
structure BnParam where
  key : String
  data : List UInt8
  deriving DecidableEq, Repr

def BnParam.value (p : BnParam) : ℕ := littleEndian p.data

structure ExportReply where
  ret : ℤ
  calls : List (Option (List BnParam))
  deriving DecidableEq, Repr

/-- sizeof(BCRYPT_RSAKEY_BLOB): six DWORDs, cbPublicExp and cbModulus at 8 and 12. -/
def sizeofRsaKeyBlob : ℕ := 24

def duplicateBufferInReverse (malloc : Bool) (buffer : List UInt8) (bufferSize : ℕ) :
    Option (Option (List UInt8)) :=
  if malloc then (reversedCopy buffer bufferSize).map some else some none

def nCryptExportKey (blobs : PublicBlobs) (w : World) (h : Handle) (status : ℕ) :
    Option (List UInt8) :=
  if status = errorSuccess then (w.keys h).bind blobs else none

def publicParams (o : ExportCalls) (blob : List UInt8) : Option (Option (List BnParam)) :=
  match readDword blob 8, readDword blob 12 with
  | some cbPublicExp, some cbModulus =>
    match duplicateBufferInReverse o.expMalloc (blob.drop sizeofRsaKeyBlob) cbPublicExp with
    | none => none
    | some none => some none
    | some (some e) =>
      match duplicateBufferInReverse o.modulusMalloc
          (blob.drop (sizeofRsaKeyBlob + cbPublicExp)) cbModulus with
      | none => none
      | some none => some none
      | some (some n) => some (some [⟨"e", e⟩, ⟨"n", n⟩])
  | _, _ => none

/-- Bits of `selection`: 0 private key, 1 public key, 2 domain and 7 other parameters. -/
def cngKeymgmtExport (blobs : PublicBlobs) (o : ExportCalls) (keydata : Option Addr)
    (selection : ℕ) (w : World) : Option ExportReply :=
  if selection.testBit 0 then some ⟨0, []⟩
  else if selection.testBit 1 then
    match keydata.bind w.keydata with
    | none => none
    | some kd =>
      match nCryptExportKey blobs w kd.windowsKeyHandle o.sizeStatus, o.blobMalloc,
          nCryptExportKey blobs w kd.windowsKeyHandle o.blobStatus with
      | some _, true, some blob =>
        match publicParams o blob with
        | none => none
        | some none => some ⟨0, []⟩
        | some (some params) => some ⟨o.paramCb, [some params]⟩
      | _, _, _ => some ⟨0, []⟩
  else if selection.testBit 2 || selection.testBit 7 then some ⟨0, []⟩
  else some ⟨o.paramCb, [none]⟩

structure RsaPublicKey where
  n : ℕ
  e : ℕ
  deriving DecidableEq, Repr

/-- The public key a BCRYPT_RSAPUBLIC_BLOB describes: exponent and modulus, most
significant byte first, directly after the header. -/
def blobPublicKey (blob : List UInt8) : Option RsaPublicKey :=
  match readDword blob 8, readDword blob 12 with
  | some cbPublicExp, some cbModulus =>
    if sizeofRsaKeyBlob + cbPublicExp + cbModulus ≤ blob.length then
      some ⟨bigEndian ((blob.drop (sizeofRsaKeyBlob + cbPublicExp)).take cbModulus),
        bigEndian ((blob.drop sizeofRsaKeyBlob).take cbPublicExp)⟩
    else none
  | _, _ => none

theorem duplicate_buffer_value {malloc : Bool} {buffer copy : List UInt8} {size : ℕ}
    (hs : size ≤ buffer.length)
    (h : duplicateBufferInReverse malloc buffer size = some (some copy)) :
    littleEndian copy = bigEndian (buffer.take size) := by
  unfold duplicateBufferInReverse at h
  split at h
  · rw [reversedCopy_eq hs, Option.map_some, Option.some.injEq, Option.some.injEq] at h
    rw [← h, littleEndian_reverse]
  · cases h

theorem public_params_values {o : ExportCalls} {blob : List UInt8} {params : List BnParam}
    {pk : RsaPublicKey} (hb : blobPublicKey blob = some pk)
    (h : publicParams o blob = some (some params)) :
    ∃ e n : BnParam, params = [e, n] ∧ e.key = "e" ∧ n.key = "n" ∧
      e.value = pk.e ∧ n.value = pk.n := by
  unfold publicParams at h
  unfold blobPublicKey at hb
  split at h
  · rename_i cbe cbn he hn
    rw [he, hn] at hb
    simp only at hb
    split at hb
    · rename_i hlen
      cases hb
      split at h
      · cases h
      · cases h
      · rename_i ebuf hebuf
        split at h
        · cases h
        · cases h
        · rename_i nbuf hnbuf
          cases h
          refine ⟨_, _, rfl, rfl, rfl, ?_, ?_⟩
          · exact duplicate_buffer_value (by rw [List.length_drop]; omega) hebuf
          · exact duplicate_buffer_value (by rw [List.length_drop]; omega) hnbuf
    · cases hb
  · cases h

theorem export_public_values {blobs : PublicBlobs} {o : ExportCalls} {p : Addr} {kd : KeyData}
    {k : NKey} {selection : ℕ} {w : World} {reply : ExportReply} {pk : RsaPublicKey}
    (hp : w.keydata p = some kd) (hk : w.keys kd.windowsKeyHandle = some k)
    (hpk : ∀ blob, blobs k = some blob → blobPublicKey blob = some pk)
    (hsel : selection.testBit 1 = true)
    (h : cngKeymgmtExport blobs o (some p) selection w = some reply) (hr : reply.ret ≠ 0) :
    ∃ e n : BnParam, reply.calls = [some [e, n]] ∧ e.key = "e" ∧ n.key = "n" ∧
      e.value = pk.e ∧ n.value = pk.n := by
  unfold cngKeymgmtExport at h
  split at h
  · cases h; exact absurd rfl hr
  rw [Option.bind_some, hp] at h
  simp only at h
  split at h
  · rename_i blob _ _ hexp
    have hb : blobs k = some blob := by
      unfold nCryptExportKey at hexp
      split at hexp
      · rwa [hk, Option.bind_some] at hexp
      · cases hexp
    split at h
    · cases h
    · cases h; exact absurd rfl hr
    · rename_i params hparams
      cases h
      obtain ⟨e, n, rfl, he, hn, hve, hvn⟩ := public_params_values (hpk blob hb) hparams
      exact ⟨e, n, rfl, he, hn, hve, hvn⟩
  · cases h; exact absurd rfl hr

end CngKeymgmt
