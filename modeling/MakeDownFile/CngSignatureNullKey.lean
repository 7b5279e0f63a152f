import MakeDownFile.CngSignatureSessions

/-! # Contexts without a key

Init stores the key it is given unchecked, NULL included, and leaves an older hash in
place. A later call with that hash gets to the key and dereferences it. -/
namespace CngSignatureNullKey

open CngWorld
open CngKeymgmt
open CngSignature
open CngSignatureRuns
open CngSignatureContext
open CngSignatureSessions
open TraceRuns

def recordKey (given : Bool) : CtxCall × Reply → Bool
  | (.init _ _ provkey, _) => provkey.isSome
  | _ => given

theorem key_given_call {given : Bool} {c : Addr} {e : CtxCall} {r : Reply} {w w' : World}
    {b b' : Seen} (hdup : ∀ o, e ≠ .dup o) (h : callCtx c e w = some (r, w'))
    (hb : seen w c = some b) (hb' : seen w' c = some b') (hk : b.1.key.isSome = given) :
    b'.1.key.isSome = recordKey given (e, r) := by
  obtain ⟨ctx, hctx, heffect⟩ := call_effect hdup h hb'
  rw [seen_of_ctx hctx] at hb
  cases hb
  cases e with
  | init o mdname provkey => rcases heffect with ⟨_, _, _, rfl⟩ | ⟨_, _, rfl⟩ <;> rfl
  | setParams o params =>
    obtain ⟨flags, saltLen, rfl⟩ := heffect
    exact hk
  | dup o => exact absurd rfl (hdup o)
  | _ =>
    rw [heffect.1]
    exact hk

theorem key_given_copy {key key' : Option Addr} (h : key = none ↔ key' = none) :
    key.isSome = key'.isSome := by
  cases key <;> cases key' <;> simp_all

def keyRecord : ContextRecord Bool where
  start := false
  next := recordKey
  holds := fun given b => b.1.key.isSome = given
  made := fun _ _ => rfl
  copied := fun hkey hk => (key_given_copy hkey).trans hk
  acted := key_given_call

/-- A context of the session without a key makes a final fail, and a dupctx that gets its
memory fail or return a copy without a key; neither dereferences the key. -/
def FailsWithoutKey (hist : SessionHistory) (w : World) : SessionCall → Prop
  | .call c (.final o sig siglen sigsize) => ∀ given ctx, keyRecord.of hist c = some given →
    w.sigctx c = some ctx → ctx.key = none →
    ∃ f w', cngSignatureDigestSignFinal o c sig siglen sigsize w = some (f, w') ∧ f.ret = 0
  | .call c (.dup o) => ∀ given ctx, keyRecord.of hist c = some given → w.sigctx c = some ctx →
    ctx.key = none → o.malloc = true → ∃ p w', cngSignatureDupctx o c w = some (p, w') ∧
      ∀ d x, p = some d → w'.sigctx d = some x → x.key = none
  | _ => True

def FinalSigns (o : FinalCalls) (sig : Bool) (ctx : SignatureCtx) (w : World) : Prop :=
  ctx.hashHandle.bind w.hashes ≠ none ∧ o.getHashLength = statusSuccess ∧ o.malloc = true ∧
    (sig = true → usableHash o.finishHash ctx.hashHandle w ≠ none ∧ o.paddingMalloc = true ∧
      (ctx.signHashFlags = bcryptPadPss ∨ ctx.signHashFlags = bcryptPadPkcs1))

/-- A context whose last init was given no key, or which saw none, is used for no final
and no dupctx that gets past its hash. -/
def StopsBeforeKey (hist : SessionHistory) (w : World) : SessionCall → Prop
  | .call c (.final o sig _ _) => ∀ ctx, keyRecord.of hist c = some false →
    w.sigctx c = some ctx → ¬ FinalSigns o sig ctx w
  | .call c (.dup o) => ∀ ctx, keyRecord.of hist c = some false → w.sigctx c = some ctx →
    o.malloc = true → usableHash o.duplicateHash ctx.hashHandle w = none
  | _ => True

section Calls

variable {c : Addr} {w : World} {ctx : SignatureCtx}

theorem final_without_key {o : FinalCalls} {sig : Bool} {siglen sigsize : ℕ}
    (hctx : w.sigctx c = some ctx) (hkey : ctx.key = none) :
    (FinalSigns o sig ctx w → cngSignatureDigestSignFinal o c sig siglen sigsize w = none) ∧
      (¬ FinalSigns o sig ctx w →
        ∃ f w', cngSignatureDigestSignFinal o c sig siglen sigsize w = some (f, w') ∧
          f.ret = 0) := by
  unfold cngSignatureDigestSignFinal FinalSigns
  simp only [hctx, hkey, nCryptSignHash]
  cases hb : ctx.hashHandle with
  | none => simp
  | some b =>
    cases hobj : w.hashes b with
    | none => simp [hobj]
    | some obj =>
      by_cases hlen : o.getHashLength = statusSuccess
      · by_cases hmalloc : o.malloc = true
        · cases sig with
          | false => simp [hlen, hmalloc, hobj]
          | true =>
            by_cases huse : usableHash o.finishHash (some b) w = none
            · simp [hlen, hmalloc, hobj, huse]
            · by_cases hpad : o.paddingMalloc = true
              · by_cases hinfo : paddingInfo ctx = none
                · have hflags := padding_info_none.mp hinfo
                  simp [hlen, hmalloc, hobj, huse, hpad, hinfo, hflags]
                · have hflags := not_not.mp (mt padding_info_none.mpr hinfo)
                  obtain ⟨padding, hinfo⟩ := Option.ne_none_iff_exists'.mp hinfo
                  simp [hlen, hmalloc, hobj, huse, hpad, hinfo, hflags]
              · simp [hlen, hmalloc, hobj, huse, hpad]
        · simp [hlen, hmalloc, hobj]
      · simp [hlen, hobj]

theorem dupctx_without_key {o : DupctxCalls} (hctx : w.sigctx c = some ctx)
    (hkey : ctx.key = none) (hmalloc : o.malloc = true) :
    (usableHash o.duplicateHash ctx.hashHandle w ≠ none → cngSignatureDupctx o c w = none) ∧
      (usableHash o.duplicateHash ctx.hashHandle w = none →
        ∃ w', cngSignatureDupctx o c w = some (none, w')) := by
  unfold cngSignatureDupctx
  constructor
  · intro huse
    obtain ⟨obj, huse⟩ := Option.ne_none_iff_exists'.mp huse
    simp [hctx, huse, hkey, cngSignatureNewctx, hmalloc, cngKeymgmtDup, duplicateKeyHandle]
  · intro huse
    simp [hctx, huse]

end Calls

theorem fails_without_key_call {hist : SessionHistory} {w : World} {x : SessionCall}
    (hr : Recorded keyRecord hist w) : FailsWithoutKey hist w x ↔ StopsBeforeKey hist w x := by
  have hgiven : ∀ {c given ctx}, keyRecord.of hist c = some given → w.sigctx c = some ctx →
      ctx.key.isSome = given := fun hk hctx => hr.known hk hctx
  unfold FailsWithoutKey StopsBeforeKey
  split
  · rename_i c o sig siglen sigsize
    constructor
    · intro hfails ctx hk hctx hsigns
      have hkey : ctx.key = none := by simpa using hgiven hk hctx
      obtain ⟨f, w', hcall, _⟩ := hfails false ctx hk hctx hkey
      rw [(final_without_key hctx hkey).1 hsigns] at hcall
      cases hcall
    · intro hstops given ctx hk hctx hkey
      have hfalse := hgiven hk hctx
      rw [hkey] at hfalse
      subst hfalse
      exact (final_without_key hctx hkey).2 (hstops ctx hk hctx)
  · rename_i c o
    constructor
    · intro hfails ctx hk hctx hmalloc
      have hkey : ctx.key = none := by simpa using hgiven hk hctx
      by_contra huse
      obtain ⟨p, w', hcall, _⟩ := hfails false ctx hk hctx hkey hmalloc
      rw [(dupctx_without_key hctx hkey hmalloc).1 huse] at hcall
      cases hcall
    · intro hstops given ctx hk hctx hkey hmalloc
      have hfalse := hgiven hk hctx
      rw [hkey] at hfalse
      subst hfalse
      obtain ⟨w', hcall⟩ := (dupctx_without_key hctx hkey hmalloc).2 (hstops ctx hk hctx hmalloc)
      exact ⟨none, w', hcall, fun d x hd => nomatch hd⟩
  · exact Iff.rfl

/-- Over every session: no context without a key is dereferenced, exactly when none whose
last init was given NULL is used past its hash. -/
theorem null_key_safe_iff {w : World} (hw : WellFormed w) (es : List SessionCall) :
    Throughout callSession FailsWithoutKey [] es w ↔
      Throughout callSession StopsBeforeKey [] es w :=
  throughout_congr (P := Recorded keyRecord) (fun _ _ _ hr => fails_without_key_call hr)
    (fun _ _ _ _ _ hr hstep => hr.step hstep) (recorded_start hw)

/-- An init without a key succeeds, and the size query after it dereferences NULL. -/
def keylessRun : List SessionCall :=
  [.newctx true none none, .call 5 (.init sampleInit (some "SHA256") none),
    .call 5 (.final ⟨0, true, 0, true, 0, 256⟩ false 0 0)]

theorem null_key_safe_iff_sample :
    Throughout callSession FailsWithoutKey [] keylessRun sampleKeys ↔
      Throughout callSession StopsBeforeKey [] keylessRun sampleKeys :=
  null_key_safe_iff sample_keys_well_formed _

theorem size_query_dereferences_null :
    ¬ Throughout callSession FailsWithoutKey [] keylessRun sampleKeys := by
  intro h
  have h₁ := h.2 _ _ rfl
  have h₂ := h₁.2 _ _ rfl
  obtain ⟨f, w', hcall, _⟩ := h₂.1 false _ rfl rfl rfl
  exact nomatch hcall

end CngSignatureNullKey
