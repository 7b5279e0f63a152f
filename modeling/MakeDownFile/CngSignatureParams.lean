import MakeDownFile.CngSignaturePadding

/-! # Refused signature parameters

The two parameters are checked and stored one after the other, without a way back. A call
that returns 0 may therefore have stored the first one, and it clears a salt length that
should have been read from the hash. -/
namespace CngSignatureParams

open CngWorld
open CngKeymgmt
open CngSignature
open CngSignatureRuns
open CngSignaturePadding

def PadRefused (params : List OsslParam) : Prop :=
  osslParamLocate params osslSignatureParamPadMode ≠ none ∧ padModeRequest params = none

def DigestUnreadable (o : PropertyRead) (params : List OsslParam) (w : World)
    (hashHandle : Option Handle) : Prop :=
  osslParamLocate params osslSignatureParamPssSaltlen = some (.utf8String "digest") ∧
    ¬ SaltAccepted o (osslParamLocate params osslSignatureParamPssSaltlen) w hashHandle

/-- The flags when the padding half of a request has passed: those of a known mode, which
the string "pss" need not store. -/
def FlagsStored (params : List OsslParam) (flags flags' : ℕ) : Prop :=
  (padModeRequest params = none → flags' = flags) ∧
  ∀ m, padModeRequest params = some m → flags' = m.bcryptFlag ∨
    flags' = flags ∧
      osslParamLocate params osslSignatureParamPadMode = some (.utf8String "pss")

section Refused

variable {o : PropertyRead} {params : List OsslParam} {c : Addr} {w w' : World}
  {ctx ctx' : SignatureCtx}

theorem flags_stored_same (h : padModeRequest params = none) (flags : ℕ) :
    FlagsStored params flags flags := by
  refine ⟨fun _ => rfl, fun m hm => ?_⟩
  rw [h] at hm
  cases hm

theorem pad_mode_refused
    (h : setPadMode (osslParamLocate params osslSignatureParamPadMode) ctx = some (false, ctx')) :
    PadRefused params := by
  cases hloc : osslParamLocate params osslSignatureParamPadMode with
  | none =>
    rw [hloc] at h
    cases h
  | some data =>
    rw [hloc] at h
    rcases pad_mode_cases h with ⟨_, hnone⟩ | ⟨_, htrue, _⟩
    · exact ⟨by simp [hloc], by rw [padModeRequest, hloc]; exact hnone⟩
    · cases htrue

theorem pad_mode_passed
    (h : setPadMode (osslParamLocate params osslSignatureParamPadMode) ctx = some (true, ctx')) :
    ¬ PadRefused params ∧ FlagsStored params ctx.signHashFlags ctx'.signHashFlags := by
  cases hloc : osslParamLocate params osslSignatureParamPadMode with
  | none =>
    rw [hloc] at h
    cases h
    have hnone : padModeRequest params = none := by
      rw [padModeRequest, hloc]
      rfl
    exact ⟨fun hr => hr.1 hloc, flags_stored_same hnone _⟩
  | some data =>
    rw [hloc] at h
    rcases pad_mode_cases h with ⟨hfalse, _⟩ | ⟨m, _, hmode, hflags⟩
    · cases hfalse
    have hreq : padModeRequest params = some m := by
      rw [padModeRequest, hloc]
      exact hmode
    refine ⟨fun hr => ?_, fun hnone => ?_, fun m' hm' => ?_⟩
    · have hnone := hr.2
      rw [hreq] at hnone
      cases hnone
    · rw [hreq] at hnone
      cases hnone
    · obtain rfl : m = m' := Option.some.inj (hreq.symm.trans hm')
      by_cases hpss : data = .utf8String "pss"
      · rw [if_pos hpss] at hflags
        exact Or.inr ⟨hflags, by rw [hloc, hpss]⟩
      · rw [if_neg hpss] at hflags
        exact Or.inl hflags

/-- A refused salt length leaves the context alone, unless it was to be that of the digest. -/
theorem salt_refused_cases {salt : Option ParamData}
    (h : setSaltLen o salt w ctx = some (false, ctx')) :
    ¬ SaltAccepted o salt w ctx.hashHandle ∧
      (salt = some (.utf8String "digest") ∧ ctx' = { ctx with pssSaltLen := 0 } ∨
        salt ≠ some (.utf8String "digest") ∧ ctx' = ctx) := by
  refine ⟨fun hacc => Bool.false_ne_true ((salt_accepted_iff h).mpr hacc), ?_⟩
  rcases salt_len_cases h with ⟨-, hb, -⟩ | ⟨_, _, -, hb, -⟩ | ⟨_, -, -, -, -, hb, -⟩ |
    ⟨rfl, -, -, rfl⟩ | ⟨hsalt, -, rfl⟩
  · cases hb
  · cases hb
  · cases hb
  · exact Or.inl ⟨rfl, rfl⟩
  · refine Or.inr ⟨?_, rfl⟩
    rintro rfl
    rcases hsalt with ⟨len, hlen, heq⟩ | heq
    · cases heq
      exact hlen rfl
    · cases heq

/-- What a refused call leaves: a known pad mode is already stored, and a digest salt
length that cannot be read is cleared. Nothing else has changed. -/
theorem set_params_refused (hctx : w.sigctx c = some ctx)
    (h : cngSignatureSetCtxParams o c params w = some (0, w')) :
    ∃ flags saltLen,
      w' = w.setCtx c (some { ctx with signHashFlags := flags, pssSaltLen := saltLen }) ∧
      FlagsStored params ctx.signHashFlags flags ∧
      (¬ PadRefused params ∧ DigestUnreadable o params w ctx.hashHandle → saltLen = 0) ∧
      (PadRefused params ∨ ¬ DigestUnreadable o params w ctx.hashHandle →
        saltLen = ctx.pssSaltLen) := by
  rcases set_params_cases h with ⟨_, rfl, hpad, hsalt⟩ | ⟨x, b, ctx₁, hx, hpad, hcase⟩
  · have hnone : padModeRequest params = none := by
      rw [padModeRequest, hpad]
      rfl
    refine ⟨ctx.signHashFlags, ctx.pssSaltLen, ?_, flags_stored_same hnone _, ?_, fun _ => rfl⟩
    · simp [World.setCtx, ← hctx]
    · rintro ⟨_, hdigest, _⟩
      rw [hsalt] at hdigest
      cases hdigest
  obtain rfl : ctx = x := Option.some.inj (hctx.symm.trans hx)
  rcases hcase with ⟨rfl, _, rfl⟩ | ⟨b', ctx₂, rfl, hsalt, hret, rfl⟩
  · -- the pad mode is refused and the salt length is never looked at
    have hrefused := pad_mode_refused hpad
    refine ⟨ctx.signHashFlags, ctx.pssSaltLen, rfl, flags_stored_same hrefused.2 _, ?_,
      fun _ => rfl⟩
    rintro ⟨hno, _⟩
    exact absurd hrefused hno
  · -- the pad mode is absent or stored, and the salt length is refused
    obtain rfl : b' = false := by
      cases b' with
      | false => rfl
      | true => cases hret
    obtain ⟨hnot, hstored⟩ := pad_mode_passed hpad
    obtain ⟨hctx₁, _⟩ := pad_mode_ctx hpad
    generalize ctx₁.signHashFlags = flags at hctx₁ hstored
    subst hctx₁
    obtain ⟨hno, hsalt⟩ := salt_refused_cases hsalt
    rcases hsalt with ⟨hdigest, rfl⟩ | ⟨hdigest, rfl⟩
    · refine ⟨flags, 0, rfl, hstored, fun _ => rfl, ?_⟩
      rintro (hr | hr)
      · exact absurd hr hnot
      · exact absurd ⟨hdigest, hno⟩ hr
    · refine ⟨flags, ctx.pssSaltLen, rfl, hstored, ?_, fun _ => rfl⟩
      rintro ⟨_, hd, _⟩
      exact absurd hd hdigest

/-- PSS padding is asked for together with a salt length the provider does not support. -/
def pssWithMaxSalt : List OsslParam :=
  [⟨"pad-mode", .integer [6, 0, 0, 0]⟩, ⟨"saltlen", .utf8String "max"⟩]

theorem set_params_refused_sample : ∃ ctx w', sampleContext.sigctx 5 = some ctx ∧
    cngSignatureSetCtxParams ⟨0, 4⟩ 5 pssWithMaxSalt sampleContext = some (0, w') ∧
    ∃ flags saltLen,
      w' = sampleContext.setCtx 5
        (some { ctx with signHashFlags := flags, pssSaltLen := saltLen }) ∧
      FlagsStored pssWithMaxSalt ctx.signHashFlags flags ∧
      (¬ PadRefused pssWithMaxSalt ∧
        DigestUnreadable ⟨0, 4⟩ pssWithMaxSalt sampleContext ctx.hashHandle → saltLen = 0) ∧
      (PadRefused pssWithMaxSalt ∨
        ¬ DigestUnreadable ⟨0, 4⟩ pssWithMaxSalt sampleContext ctx.hashHandle →
        saltLen = ctx.pssSaltLen) :=
  ⟨_, _, rfl, rfl, set_params_refused
    (show sampleContext.sigctx 5 = some _ from rfl)
    (show cngSignatureSetCtxParams ⟨0, 4⟩ 5 pssWithMaxSalt sampleContext = some (0, _) from rfl)⟩

/-- On a context reached by a new context and one init, such a call returns 0 and has
nevertheless changed the flags. -/
theorem refused_request_keeps_pad_mode : ¬ ∀ o params w' ctx ctx',
    sampleContext.sigctx 5 = some ctx →
    cngSignatureSetCtxParams o 5 params sampleContext = some (0, w') →
    w'.sigctx 5 = some ctx' →
    ctx'.signHashFlags = ctx.signHashFlags ∧ ctx'.pssSaltLen = ctx.pssSaltLen := fun h =>
  absurd (h ⟨0, 4⟩ pssWithMaxSalt _ _ _ rfl rfl rfl).1 (by decide)

end Refused

end CngSignatureParams
