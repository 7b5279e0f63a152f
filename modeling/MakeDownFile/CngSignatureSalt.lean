import MakeDownFile.CngSignatureParams
import MakeDownFile.CngSignatureSessions
import MakeDownFile.CngSignatureStream

/-! # The salt length that follows the digest

A salt length asked to be that of the digest is read once, from the hash of that moment. A
later init may replace the hash, and a refused request clears the length. -/
namespace CngSignatureSalt

open CngWorld
open CngKeymgmt
open CngSignature
open CngSignatureRuns
open CngSignatureContext
open CngSignatureParams
open CngSignaturePadding
open CngSignatureSessions
open CngSignatureStream
open TraceRuns

/-- A salt length as it was asked for. That of the digest remembers the digest of the
moment, and whether a refused request has cleared it since. -/
inductive SaltRequest where
  | explicit
  | digest (alg : Option AlgId) (cleared : Bool)
  deriving DecidableEq, Repr

def SaltRequest.clear : SaltRequest → SaltRequest
  | .explicit => .explicit
  | .digest alg _ => .digest alg true

structure SaltHistory where
  alg : Option AlgId
  request : Option SaltRequest
  deriving DecidableEq, Repr

instance (params : List OsslParam) : Decidable (PadRefused params) :=
  inferInstanceAs (Decidable (_ ∧ _))

def recordSalt (k : SaltHistory) : CtxCall × Reply → SaltHistory
  | (.init o _ _, .ret 1) => { k with alg := o.fetch.bind bcryptDigestName }
  | (.setParams _ params, .ret r) =>
    match osslParamLocate params osslSignatureParamPssSaltlen with
    | some (.integer _) => if r = 1 then { k with request := some .explicit } else k
    | some (.utf8String len) =>
      if len ≠ "digest" then k
      else if r = 1 then { k with request := some (.digest k.alg false) }
      else if PadRefused params then k
      else { k with request := k.request.map SaltRequest.clear }
    | _ => k
  | _ => k

/-- The hash has the digest of the last init; a salt length of a digest is that of the one
remembered, or 0. -/
def SaltStored (k : SaltHistory) (b : Seen) : Prop :=
  (∀ obj, b.2 = some obj → k.alg = some obj.alg) ∧
  ∀ alg cleared, k.request = some (.digest alg cleared) →
    ∃ a, alg = some a ∧ b.1.pssSaltLen = if cleared then 0 else a.hashLength

section Record

variable {c : Addr} {w w' : World} {ctx ctx' : SignatureCtx}

theorem salt_accepted_cases {o : PropertyRead} {salt : Option ParamData}
    (h : setSaltLen o salt w ctx = some (true, ctx')) :
    (salt = none ∧ ctx' = ctx) ∨ (∃ data, salt = some (.integer data)) ∨
      (salt = some (.utf8String "digest") ∧ ∃ obj, ctx.hashHandle.bind w.hashes = some obj ∧
        ctx'.pssSaltLen = obj.alg.hashLength) := by
  rcases salt_len_cases h with ⟨rfl, -, rfl⟩ | ⟨data, len, rfl, -, -⟩ |
    ⟨obj, rfl, hobj, -, -, -, rfl⟩ | ⟨-, -, hb, -⟩ | ⟨-, hb, -⟩
  · exact Or.inl ⟨rfl, rfl⟩
  · exact Or.inr (Or.inl ⟨data, rfl⟩)
  · exact Or.inr (Or.inr ⟨rfl, obj, hobj, rfl⟩)
  · cases hb
  · cases hb

theorem set_params_salt {o : PropertyRead} {params : List OsslParam} {r : ℤ}
    (h : cngSignatureSetCtxParams o c params w = some (r, w')) (hctx : w.sigctx c = some ctx)
    (hctx' : w'.sigctx c = some ctx') :
    let salt := osslParamLocate params osslSignatureParamPssSaltlen
    (r = 1 ∧ salt = none ∧ ctx'.pssSaltLen = ctx.pssSaltLen) ∨
      (r = 1 ∧ ∃ data, salt = some (.integer data)) ∨
      (r = 1 ∧ salt = some (.utf8String "digest") ∧ ∃ obj, ctx.hashHandle.bind w.hashes = some obj ∧
        ctx'.pssSaltLen = obj.alg.hashLength) ∨
      (r = 0 ∧ salt = some (.utf8String "digest") ∧ ¬ PadRefused params ∧ ctx'.pssSaltLen = 0) ∨
      (r = 0 ∧ (salt = some (.utf8String "digest") → PadRefused params) ∧
        ctx'.pssSaltLen = ctx.pssSaltLen) := by
  intro salt
  rcases set_params_cases h with ⟨rfl, rfl, _, hnone⟩ | ⟨x, b, ctx₁, hx, hpad, hcase⟩
  · obtain rfl : ctx = ctx' := Option.some.inj (hctx.symm.trans hctx')
    refine Or.inr (Or.inr (Or.inr (Or.inr ⟨rfl, fun hs => ?_, rfl⟩)))
    rw [show salt = none from hnone] at hs
    cases hs
  obtain rfl : ctx = x := Option.some.inj (hctx.symm.trans hx)
  rcases hcase with ⟨rfl, rfl, rfl⟩ | ⟨b', ctx₂, rfl, hsalt, rfl, rfl⟩
  · cases set_ctx_cases hctx'
    exact Or.inr (Or.inr (Or.inr (Or.inr ⟨rfl, fun _ => pad_mode_refused hpad, rfl⟩)))
  · cases set_ctx_cases hctx'
    have hsame : ctx₁.pssSaltLen = ctx.pssSaltLen ∧ ctx₁.hashHandle = ctx.hashHandle := by
      rw [(pad_mode_ctx hpad).1]
      exact ⟨rfl, rfl⟩
    cases b' with
    | true =>
      rcases salt_accepted_cases hsalt with ⟨hs, rfl⟩ | hs | ⟨hs, obj, hobj, hlen⟩
      · exact Or.inl ⟨rfl, hs, hsame.1⟩
      · exact Or.inr (Or.inl ⟨rfl, hs⟩)
      · rw [hsame.2] at hobj
        exact Or.inr (Or.inr (Or.inl ⟨rfl, hs, obj, hobj, hlen⟩))
    | false =>
      obtain ⟨_, ⟨hs, rfl⟩ | ⟨hs, rfl⟩⟩ := salt_refused_cases hsalt
      · exact Or.inr (Or.inr (Or.inr (Or.inl ⟨rfl, hs, (pad_mode_passed hpad).1, rfl⟩)))
      · exact Or.inr (Or.inr (Or.inr (Or.inr ⟨rfl, fun hs' => absurd hs' hs, hsame.1⟩)))

theorem SaltStored.same {k : SaltHistory} {b b' : Seen} (hk : SaltStored k b)
    (hlen : b'.1.pssSaltLen = b.1.pssSaltLen)
    (hhash : b'.2.map HashObj.alg = b.2.map HashObj.alg) : SaltStored k b' := by
  refine ⟨fun obj hobj => ?_, fun alg cleared hreq => ?_⟩
  · rw [hobj, Option.map_some] at hhash
    obtain ⟨obj', hobj', halg⟩ := Option.map_eq_some_iff.mp hhash.symm
    rw [hk.1 obj' hobj', halg]
  · rw [hlen]
    exact hk.2 alg cleared hreq

theorem record_salt_refused {o : PropertyRead} {params : List OsslParam} {k : SaltHistory}
    (hs : osslParamLocate params osslSignatureParamPssSaltlen = some (.utf8String "digest") →
      PadRefused params) : recordSalt k (.setParams o params, .ret 0) = k := by
  simp only [recordSalt, zero_ne_one, if_false]
  split
  · rfl
  · rename_i len hlen
    split
    · rfl
    · rename_i hdigest
      rw [not_not.mp hdigest] at hlen
      exact if_pos (hs hlen)
  · rfl

theorem salt_stored_params {o : PropertyRead} {params : List OsslParam} {i : ℤ} {k : SaltHistory}
    (h : cngSignatureSetCtxParams o c params w = some (i, w')) (hctx : w.sigctx c = some ctx)
    {flags saltLen : ℕ}
    (hb : seen w' c = some ({ ctx with signHashFlags := flags, pssSaltLen := saltLen },
      ctx.hashHandle.bind w.hashes))
    (hk : SaltStored k (ctx, ctx.hashHandle.bind w.hashes)) :
    SaltStored (recordSalt k (.setParams o params, .ret i))
      ({ ctx with signHashFlags := flags, pssSaltLen := saltLen },
        ctx.hashHandle.bind w.hashes) := by
  obtain ⟨ctx', hctx', heq⟩ := Option.map_eq_some_iff.mp hb
  obtain ⟨rfl, _⟩ := Prod.mk.inj heq
  rcases set_params_salt h hctx hctx' with ⟨rfl, hs, hlen⟩ | ⟨rfl, data, hs⟩ |
    ⟨rfl, hs, obj, hobj, hlen⟩ | ⟨rfl, hs, hpad, hlen⟩ | ⟨rfl, hs, hlen⟩
  · simp only [recordSalt, hs]
    exact hk.same hlen rfl
  · simp only [recordSalt, hs, if_true]
    refine ⟨hk.1, fun alg cleared hreq => ?_⟩
    cases hreq
  · simp only [recordSalt, hs, ne_eq, not_true_eq_false, if_false, if_true]
    refine ⟨hk.1, fun alg cleared hreq => ?_⟩
    cases hreq
    exact ⟨obj.alg, hk.1 obj hobj, hlen⟩
  · simp only [recordSalt, hs, ne_eq, not_true_eq_false, if_false, zero_ne_one, if_neg hpad]
    refine ⟨hk.1, fun alg cleared hreq => ?_⟩
    obtain ⟨req, hold, hclear⟩ := Option.map_eq_some_iff.mp hreq
    cases req with
    | explicit => cases hclear
    | digest a old =>
      cases hclear
      obtain ⟨a', rfl, _⟩ := hk.2 alg old hold
      exact ⟨a', rfl, hlen⟩
  · rw [record_salt_refused hs]
    exact hk.same hlen rfl

theorem salt_stored_call {k : SaltHistory} {e : CtxCall} {r : Reply} {b b' : Seen}
    (hdup : ∀ o, e ≠ .dup o) (h : callCtx c e w = some (r, w')) (hb : seen w c = some b)
    (hb' : seen w' c = some b') (hk : SaltStored k b) : SaltStored (recordSalt k (e, r)) b' := by
  obtain ⟨ctx, hctx, heffect⟩ := call_effect hdup h hb'
  rw [seen_of_ctx hctx] at hb
  cases hb
  cases e with
  | init o mdname provkey =>
    rcases heffect with ⟨alg, hcreated, rfl, rfl⟩ | ⟨_, rfl, rfl⟩
    · refine ⟨fun obj hobj => ?_, hk.2⟩
      cases hobj
      exact created_hash_name hcreated
    · exact hk
  | setParams o params =>
    obtain ⟨flags, saltLen, rfl⟩ := heffect
    obtain ⟨i, rfl, hcall⟩ := call_ctx_cases h
    exact salt_stored_params hcall hctx hb' hk
  | dup o => exact absurd rfl (hdup o)
  | _ =>
    obtain ⟨hsame, hhash⟩ := heffect
    exact hk.same (by rw [hsame]) hhash

end Record

theorem salt_stored_fresh (provctx : Option Addr) (propq : Option String) :
    SaltStored ⟨none, none⟩ (⟨provctx, propq, none, none, none, 0, 0⟩, none) := by
  constructor
  · intro obj hobj
    cases hobj
  · intro alg cleared hreq
    cases hreq

def saltRecord : ContextRecord SaltHistory where
  start := ⟨none, none⟩
  next := recordSalt
  holds := SaltStored
  made := salt_stored_fresh
  copied := fun _ hk => ⟨hk.1, hk.2⟩
  acted := salt_stored_call

/-- A PSS signature whose salt length was last asked to be that of the digest has a salt as
long as the hash value it signs. -/
def SaltFollowsDigest (hist : SessionHistory) : SessionCall → Reply → Prop
  | .call c (.final _ true _ _), .final f => ∀ k alg cleared req pszAlgId cbSalt,
    saltRecord.of hist c = some k → k.request = some (.digest alg cleared) → f.ret = 1 →
    f.signed = some req → req.padding = .pss pszAlgId cbSalt → cbSalt = req.hashAlg.hashLength
  | _, _ => True

def SignsPss (o : FinalCalls) (ctx : SignatureCtx) (w : World) : Prop :=
  FinalCalls.Succeed o ∧ (∃ obj, ctx.hashHandle.bind w.hashes = some obj ∧ obj.finished = false) ∧
    (∃ p kd, ctx.key = some p ∧ w.keydata p = some kd ∧ w.keys kd.windowsKeyHandle ≠ none) ∧
    ctx.signHashFlags = bcryptPadPss

/-- When a final is going to make a PSS signature with the salt length of the digest, that
digest is still the one of the last init, and no refused request has cleared the length. -/
def SaltInForce (hist : SessionHistory) (w : World) : SessionCall → Prop
  | .call c (.final o true _ _) => ∀ k alg cleared ctx, saltRecord.of hist c = some k →
    k.request = some (.digest alg cleared) → w.sigctx c = some ctx → SignsPss o ctx w →
    cleared = false ∧ alg = k.alg
  | _ => True

section Final

variable {c : Addr} {w w' : World} {ctx : SignatureCtx} {o : FinalCalls} {siglen sigsize : ℕ}
  {f : FinalReply}

theorem pss_final_signs {req : SignRequest} {pszAlgId : Option AlgId} {cbSalt : ℕ}
    (h : cngSignatureDigestSignFinal o c true siglen sigsize w = some (f, w'))
    (hctx : w.sigctx c = some ctx) (hret : f.ret = 1) (hsigned : f.signed = some req)
    (hpad : req.padding = .pss pszAlgId cbSalt) :
    SignsPss o ctx w ∧ cbSalt = ctx.pssSaltLen ∧
      ∃ obj, ctx.hashHandle.bind w.hashes = some obj ∧ req.hashAlg = obj.alg := by
  obtain ⟨x, hx, ⟨_, _, hzero⟩ | ⟨b, obj, hb, hobj, hfin, _, _, hcase⟩⟩ := final_cases h
  · rw [hzero rfl] at hret
    cases hret
  obtain rfl : ctx = x := Option.some.inj (hctx.symm.trans hx)
  have hbind : ctx.hashHandle.bind w.hashes = some obj := by rw [hb, Option.bind_some, hobj]
  rcases hcase with ⟨hzero, _⟩ | ⟨p, kd, key, padding, hp, hkd, hk, hinfo, _, hsome⟩
  · rw [hzero] at hret
    cases hret
  cases hsigned.symm.trans hsome
  obtain rfl : padding = .pss pszAlgId cbSalt := hpad
  obtain ⟨hpss, _, hsalt⟩ := padding_info_pss.mp hinfo
  refine ⟨⟨final_calls_succeed h hret, ⟨obj, hbind, hfin⟩, ⟨p, kd, hp, hkd, ?_⟩, hpss⟩, hsalt, obj,
    hbind, rfl⟩
  rw [hk]
  exact Option.some_ne_none key

theorem pss_final_returns (h : cngSignatureDigestSignFinal o c true siglen sigsize w = some (f, w'))
    (hctx : w.sigctx c = some ctx) (hs : SignsPss o ctx w) :
    ∃ req, f.ret = 1 ∧ f.signed = some req ∧
      req.padding = .pss ctx.algIdentifier ctx.pssSaltLen := by
  obtain ⟨hcalls, ⟨obj, hobj, hfin⟩, ⟨p, kd, hp, hkd, hk⟩, hpss⟩ := hs
  obtain ⟨b, hb, hget⟩ := Option.bind_eq_some_iff.mp hobj
  obtain ⟨key, hk⟩ := Option.ne_none_iff_exists'.mp hk
  have hinfo : paddingInfo ctx = some (.pss ctx.algIdentifier ctx.pssSaltLen) :=
    padding_info_pss.mpr ⟨hpss, rfl, rfl⟩
  obtain ⟨hret, req, hsigned, hpad⟩ :=
    final_succeeds h hcalls hctx hb hget hfin hp hkd hk hinfo
  exact ⟨req, hret, hsigned, hpad⟩

end Final

theorem hash_length_injective {a b : AlgId} (h : a.hashLength = b.hashLength) : a = b := by
  cases a <;> cases b <;> first | rfl | cases h

theorem hash_length_ne_zero (a : AlgId) : a.hashLength ≠ 0 := by
  cases a <;> decide

theorem salt_follows_step {hist : SessionHistory} {w w' : World} {x : SessionCall} {r : Reply}
    (hr : Recorded saltRecord hist w) (h : callSession x w = some (r, w')) :
    SaltFollowsDigest hist x r ↔ SaltInForce hist w x := by
  unfold SaltFollowsDigest SaltInForce
  split
  · rename_i c o siglen sigsize f
    obtain ⟨_, heq, hcall⟩ :=
      call_ctx_cases (show callCtx c (.final o true siglen sigsize) w = some (.final f, w') from h)
    cases heq
    constructor
    · intro hfollows k alg cleared ctx hk hreq hctx hs
      obtain ⟨req, hret, hsigned, hpad⟩ := pss_final_returns hcall hctx hs
      have hsalt := hfollows k alg cleared req _ _ hk hreq hret hsigned hpad
      obtain ⟨_, _, obj, hobj, halg⟩ := pss_final_signs hcall hctx hret hsigned hpad
      obtain ⟨hlast, hstored⟩ := hr.known hk hctx
      obtain ⟨a, rfl, hlen⟩ := hstored alg cleared hreq
      rw [hlen, halg] at hsalt
      cases cleared with
      | true => exact absurd hsalt.symm (hash_length_ne_zero _)
      | false =>
        rw [hlast obj hobj, hash_length_injective hsalt]
        exact ⟨rfl, rfl⟩
    · intro hforce k alg cleared req pszAlgId cbSalt hk hreq hret hsigned hpad
      obtain ⟨ctx, hctx, _⟩ := final_cases hcall
      obtain ⟨hs, rfl, obj, hobj, halg⟩ := pss_final_signs hcall hctx hret hsigned hpad
      obtain ⟨rfl, rfl⟩ := hforce k alg cleared ctx hk hreq hctx hs
      obtain ⟨hlast, hstored⟩ := hr.known hk hctx
      obtain ⟨a, ha, hlen⟩ := hstored k.alg false hreq
      obtain rfl : a = obj.alg := Option.some.inj (ha.symm.trans (hlast obj hobj))
      rw [hlen, halg]
      rfl
  · rename_i hne
    refine iff_of_true trivial ?_
    split
    · rename_i c o siglen sigsize
      obtain ⟨f, rfl, _⟩ :=
        call_ctx_cases (show callCtx c (.final o true siglen sigsize) w = some (r, w') from h)
      exact absurd rfl (hne c o siglen sigsize f rfl)
    · trivial

/-- Over every session: all PSS signatures asked for with the salt length of the digest
have it, exactly when at each of them the request is still in force. -/
theorem salt_follows_digest_iff {w : World} (hw : WellFormed w) (es : List SessionCall) :
    Along callSession (fun hist _ x r _ => SaltFollowsDigest hist x r) [] es w ↔
      Along callSession (fun hist v x _ _ => SaltInForce hist v x) [] es w := by
  refine along_congr (P := Recorded saltRecord) ?_ (recorded_start hw)
  intro x _ hist v r v' hr hstep
  exact ⟨salt_follows_step hr hstep, fun _ => hr.step hstep⟩

def digestSalt : List OsslParam :=
  [⟨"pad-mode", .integer [6, 0, 0, 0]⟩, ⟨"saltlen", .utf8String "digest"⟩]

def digestSaltRun : List SessionCall :=
  [.newctx true none none, .call 5 (.init sampleInit (some "SHA256") (some 1)),
    .call 5 (.setParams ⟨0, 4⟩ digestSalt),
    .call 5 (.final ⟨0, true, 0, true, 0, 256⟩ true 256 256)]

theorem salt_follows_digest_iff_sample :
    Along callSession (fun hist _ x r _ => SaltFollowsDigest hist x r) [] digestSaltRun
        sampleKeys ↔
      Along callSession (fun hist v x _ _ => SaltInForce hist v x) [] digestSaltRun sampleKeys :=
  salt_follows_digest_iff sample_keys_well_formed _

def secondDigestRun : List SessionCall :=
  [.newctx true none none, .call 5 (.init sampleInit (some "SHA256") (some 1)),
    .call 5 (.setParams ⟨0, 4⟩ digestSalt),
    .call 5 (.init ⟨some ⟨["SHA2-512"]⟩, 0, 0⟩ (some "SHA512") (some 1)),
    .call 5 (.final ⟨0, true, 0, true, 0, 256⟩ true 256 256)]

theorem second_digest_keeps_salt :
    ¬ Along callSession (fun hist _ x r _ => SaltFollowsDigest hist x r) [] secondDigestRun
      sampleKeys := by
  intro h
  have h₁ := ((along_cons rfl).mp h).2
  have h₂ := ((along_cons rfl).mp h₁).2
  have h₃ := ((along_cons rfl).mp h₂).2
  have h₄ := ((along_cons rfl).mp h₃).2
  have hsalt := ((along_cons rfl).mp h₄).1 _ _ _ _ _ _ rfl rfl rfl rfl rfl
  exact absurd hsalt (by decide)

end CngSignatureSalt
