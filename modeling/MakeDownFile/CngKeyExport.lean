import MakeDownFile.CngKeyParams

/-! # Exported RSA numbers

CNG lays the two numbers of a public key out most significant byte first, directly after a
header that gives their lengths; an OSSL_PARAM takes them least significant byte first. -/
namespace CngKeyExport

open ByteBuffers
open CngWorld
open CngKeymgmt
open CngSignature
open CngSignatureRuns
open CngKeyParams

/-- A BCRYPT_RSAPUBLIC_BLOB with fields of these lengths. The int that counts through a
field cannot go further than 2^31. -/
structure RsaPublicBlob (blob : List UInt8) (cbPublicExp cbModulus : ℕ) : Prop where
  exp_length : readDword blob 8 = some cbPublicExp
  modulus_length : readDword blob 12 = some cbModulus
  covers : sizeofRsaKeyBlob + cbPublicExp + cbModulus ≤ blob.length
  exp_lt : cbPublicExp < 2 ^ 31
  modulus_lt : cbModulus < 2 ^ 31

def expField (blob : List UInt8) (cbPublicExp : ℕ) : List UInt8 :=
  (blob.drop sizeofRsaKeyBlob).take cbPublicExp

def modulusField (blob : List UInt8) (cbPublicExp cbModulus : ℕ) : List UInt8 :=
  (blob.drop (sizeofRsaKeyBlob + cbPublicExp)).take cbModulus

def ExportSucceeds (o : ExportCalls) : Prop :=
  o.sizeStatus = errorSuccess ∧ o.blobMalloc = true ∧ o.blobStatus = errorSuccess ∧
    o.expMalloc = true ∧ o.modulusMalloc = true

section Export

variable {blobs : PublicBlobs} {o : ExportCalls} {p : Addr} {kd : KeyData} {k : NKey}
  {blob : List UInt8} {cbPublicExp cbModulus selection : ℕ} {w : World}

theorem public_params_fields (hb : RsaPublicBlob blob cbPublicExp cbModulus) :
    publicParams o blob = some (if o.expMalloc ∧ o.modulusMalloc then
      some [⟨"e", (expField blob cbPublicExp).reverse⟩,
        ⟨"n", (modulusField blob cbPublicExp cbModulus).reverse⟩] else none) := by
  have hcover := hb.covers
  have he : cbPublicExp ≤ (blob.drop sizeofRsaKeyBlob).length := by
    rw [List.length_drop]
    omega
  have hn : cbModulus ≤ (blob.drop (sizeofRsaKeyBlob + cbPublicExp)).length := by
    rw [List.length_drop]
    omega
  unfold publicParams
  rw [hb.exp_length, hb.modulus_length]
  cases hexp : o.expMalloc with
  | false => simp [duplicateBufferInReverse]
  | true =>
    cases hmod : o.modulusMalloc with
    | false =>
      simp only [duplicate_buffer_defined he]
      simp [duplicateBufferInReverse]
    | true =>
      simp only [duplicate_buffer_defined he, duplicate_buffer_defined hn]
      rfl

theorem export_private (hsel : selection.testBit 0 = true) :
    cngKeymgmtExport blobs o (some p) selection w = some ⟨0, []⟩ := by
  rw [cngKeymgmtExport, if_pos hsel]

theorem export_public (hp : w.keydata p = some kd) (hk : w.keys kd.windowsKeyHandle = some k)
    (hblob : blobs k = some blob) (hb : RsaPublicBlob blob cbPublicExp cbModulus)
    (hprivate : selection.testBit 0 = false) (hpublic : selection.testBit 1 = true) :
    (ExportSucceeds o → cngKeymgmtExport blobs o (some p) selection w = some ⟨o.paramCb,
      [some [⟨"e", (expField blob cbPublicExp).reverse⟩,
        ⟨"n", (modulusField blob cbPublicExp cbModulus).reverse⟩]]⟩) ∧
    (¬ ExportSucceeds o →
      cngKeymgmtExport blobs o (some p) selection w = some ⟨0, []⟩) := by
  unfold cngKeymgmtExport ExportSucceeds
  simp only [hprivate, hpublic, Bool.false_eq_true, if_false, if_true, Option.bind_some, hp,
    nCryptExportKey, hk, hblob]
  have hparams := public_params_fields (o := o) hb
  by_cases hsize : o.sizeStatus = errorSuccess
  · by_cases hmalloc : o.blobMalloc = true
    · by_cases hstatus : o.blobStatus = errorSuccess
      · by_cases hcopies : o.expMalloc = true ∧ o.modulusMalloc = true
        · simp [hsize, hmalloc, hstatus, hparams, hcopies]
        · simp [hsize, hmalloc, hstatus, hparams, hcopies]
      · simp [hsize, hmalloc, hstatus]
    · simp [hsize, hmalloc]
  · simp [hsize]

/-- An export hands over the integers of the two fields, whatever zero bytes they hold, in
one call; it makes none when the private part is wanted or a call inside it fails. -/
theorem export_numbers (hp : w.keydata p = some kd) (hk : w.keys kd.windowsKeyHandle = some k)
    (hblob : blobs k = some blob) (hb : RsaPublicBlob blob cbPublicExp cbModulus) :
    (selection.testBit 0 = true →
      cngKeymgmtExport blobs o (some p) selection w = some ⟨0, []⟩) ∧
    (selection.testBit 0 = false → selection.testBit 1 = true →
      (ExportSucceeds o → ∃ e n : BnParam,
        cngKeymgmtExport blobs o (some p) selection w = some ⟨o.paramCb, [some [e, n]]⟩ ∧
        e.key = "e" ∧ n.key = "n" ∧ e.value = bigEndian (expField blob cbPublicExp) ∧
        n.value = bigEndian (modulusField blob cbPublicExp cbModulus)) ∧
      (¬ ExportSucceeds o →
        cngKeymgmtExport blobs o (some p) selection w = some ⟨0, []⟩)) := by
  refine ⟨export_private, fun hprivate hpublic => ?_⟩
  obtain ⟨hok, hfail⟩ := export_public (o := o) hp hk hblob hb hprivate hpublic
  refine ⟨fun hs => ?_, hfail⟩
  exact ⟨_, _, hok hs, rfl, rfl, littleEndian_reverse _, littleEndian_reverse _⟩

theorem sample_rsa2048_blob : RsaPublicBlob sampleRsa2048 3 256 := by
  constructor <;> decide +kernel

theorem export_numbers_sample : ∃ e n : BnParam,
    cngKeymgmtExport (fun _ => some sampleRsa2048) ⟨0, true, 0, true, true, 1⟩ (some 1) 2
      sampleContext = some ⟨1, [some [e, n]]⟩ ∧
    e.key = "e" ∧ n.key = "n" ∧ e.value = bigEndian (expField sampleRsa2048 3) ∧
    n.value = bigEndian (modulusField sampleRsa2048 3 256) :=
  ((export_numbers (show sampleContext.keydata 1 = some _ from rfl)
    (show sampleContext.keys 3 = some _ from rfl) rfl sample_rsa2048_blob).2 (by decide)
    (by decide)).1 ⟨rfl, rfl, rfl, rfl, rfl⟩

end Export

end CngKeyExport
