import MakeDownFile.CngSignatureContext

/-! # The padding of a signature context

The flag in the context should be that of the latest accepted pad mode request. One
encoding of one mode is accepted without being stored, and a request refused for its salt
length has already stored its mode. -/
namespace CngSignaturePadding

open ByteBuffers
open CngWorld
open CngKeymgmt
open CngSignature
open CngSignatureRuns
open CngSignatureContext
open TraceRuns

inductive PadMode where
  | pkcs1
  | pss
  deriving DecidableEq, Repr

def PadMode.bcryptFlag : PadMode → ℕ
  | .pkcs1 => bcryptPadPkcs1
  | .pss => bcryptPadPss

def requestedMode : ParamData → Option PadMode
  | .integer data =>
    if readDword data 0 = some rsaPkcs1PssPadding then some .pss
    else if readDword data 0 = some rsaPkcs1Padding then some .pkcs1
    else none
  | .utf8String mode =>
    if mode = "pss" then some .pss else if mode = "pkcs1" then some .pkcs1 else none
  | .other => none

def padModeRequest (params : List OsslParam) : Option PadMode :=
  (osslParamLocate params osslSignatureParamPadMode).bind requestedMode

def recordMode (last : Option PadMode) : CtxCall × Reply → Option PadMode
  | (.setParams _ params, .ret 1) => (padModeRequest params).or last
  | _ => last

def lastPadMode (hist : History) : Option PadMode := hist.foldl recordMode none

theorem last_pad_mode_append (hist : History) (x : CtxCall × Reply) :
    lastPadMode (hist ++ [x]) = recordMode (lastPadMode hist) x := by
  rw [lastPadMode, List.foldl_append]
  rfl

def FlagsFollow (c : Addr) (hist : History) (w : World) : Prop :=
  ∀ ctx m, w.sigctx c = some ctx → lastPadMode hist = some m → ctx.signHashFlags = m.bcryptFlag

def paddingMode : PaddingInfo → PadMode
  | .pss _ _ => .pss
  | .pkcs1 _ => .pkcs1

def PadsAsRequested (hist : History) : CtxCall → Reply → Prop
  | .final _ true _ _, .final f => f.ret = 1 → ∀ m, lastPadMode hist = some m →
    ∃ req, f.signed = some req ∧ req.flags = m.bcryptFlag ∧ paddingMode req.padding = m
  | _, _ => True

def SaltAccepted (o : PropertyRead) (salt : Option ParamData) (w : World)
    (hashHandle : Option Handle) : Prop :=
  match salt with
  | none => True
  | some (.integer _) => True
  | some (.utf8String len) => len = "digest" ∧ (hashHandle.bind w.hashes).isSome ∧
    o.status = statusSuccess ∧ o.received ≠ 0
  | some .other => False

/-- A request for a pad mode is not the string "pss" over another flag, if accepted; and if
its salt half is refused after an earlier accepted request, it asks for the flag in force. -/
def RequestKeeps (c : Addr) (hist : History) (w : World) : CtxCall → Prop
  | .setParams o params => ∀ ctx m, w.sigctx c = some ctx → padModeRequest params = some m →
    (SaltAccepted o (osslParamLocate params osslSignatureParamPssSaltlen) w
      ctx.hashHandle →
      osslParamLocate params osslSignatureParamPadMode = some (.utf8String "pss") →
      ctx.signHashFlags = bcryptPadPss) ∧
    (¬ SaltAccepted o (osslParamLocate params osslSignatureParamPssSaltlen) w
      ctx.hashHandle →
      lastPadMode hist ≠ none →
      osslParamLocate params osslSignatureParamPadMode ≠ some (.utf8String "pss") →
      ctx.signHashFlags = m.bcryptFlag)
  | _ => True

section Padding

variable {c : Addr} {hist : History} {w w' : World}

theorem salt_accepted_iff {o : PropertyRead} {salt : Option ParamData} {ctx ctx' : SignatureCtx}
    {b : Bool} (h : setSaltLen o salt w ctx = some (b, ctx')) :
    b = true ↔ SaltAccepted o salt w ctx.hashHandle := by
  rcases salt_len_cases h with ⟨rfl, rfl, -⟩ | ⟨data, len, rfl, rfl, -⟩ |
    ⟨obj, rfl, hobj, hstatus, hreceived, rfl, -⟩ | ⟨rfl, hno, rfl, -⟩ |
    ⟨⟨len, hlen, rfl⟩ | rfl, rfl, -⟩
  · exact iff_of_true rfl trivial
  · exact iff_of_true rfl trivial
  · refine iff_of_true rfl ⟨rfl, ?_, hstatus, hreceived⟩
    rw [hobj]
    rfl
  · exact iff_of_false Bool.false_ne_true fun hacc => hno hacc.2
  · exact iff_of_false Bool.false_ne_true fun hacc => hlen hacc.1
  · exact iff_of_false Bool.false_ne_true id

/-- A known mode is accepted; its flag is stored unless it came as the string "pss". -/
theorem set_pad_mode_known {data : ParamData} {m : PadMode} (ctx : SignatureCtx)
    (h : requestedMode data = some m) :
    setPadMode (some data) ctx = some (true, { ctx with
      signHashFlags := if data = .utf8String "pss" then ctx.signHashFlags else m.bcryptFlag }) := by
  cases data with
  | integer data =>
    simp only [requestedMode] at h
    split at h
    · rename_i hmode
      cases h
      simp [setPadMode, hmode, PadMode.bcryptFlag]
    · split at h
      · rename_i hmode
        cases h
        simp [setPadMode, hmode, PadMode.bcryptFlag, rsaPkcs1Padding, rsaPkcs1PssPadding]
      · cases h
  | utf8String mode =>
    simp only [requestedMode] at h
    split at h
    · rename_i hmode
      simp [setPadMode, hmode]
    · rename_i hpss
      split at h
      · rename_i hmode
        cases h
        simp [setPadMode, hmode, PadMode.bcryptFlag]
      · cases h
  | other => cases h

theorem set_pad_mode_unknown {data : ParamData} {ctx ctx' : SignatureCtx} {b : Bool}
    (hmode : requestedMode data = none) (h : setPadMode (some data) ctx = some (b, ctx')) :
    b = false := by
  cases data with
  | integer data =>
    simp only [requestedMode] at hmode
    cases hd : readDword data 0 with
    | none => simp [setPadMode, hd] at h
    | some mode =>
      rw [hd] at hmode
      by_cases hpss : mode = rsaPkcs1PssPadding
      · simp [hpss] at hmode
      · by_cases hpkcs : mode = rsaPkcs1Padding
        · simp [hpkcs, rsaPkcs1Padding, rsaPkcs1PssPadding] at hmode
        · simp only [setPadMode, hd, hpss, hpkcs, if_false] at h
          cases h
          rfl
  | utf8String mode =>
    by_cases hpss : mode = "pss"
    · simp [requestedMode, hpss] at hmode
    · by_cases hpkcs : mode = "pkcs1"
      · simp [requestedMode, hpkcs] at hmode
      · simp only [setPadMode, hpss, hpkcs, if_false] at h
        cases h
        rfl
  | other =>
    cases h
    rfl

theorem pad_mode_cases {data : ParamData} {ctx ctx' : SignatureCtx} {b : Bool}
    (h : setPadMode (some data) ctx = some (b, ctx')) :
    (b = false ∧ requestedMode data = none) ∨
    ∃ m, b = true ∧ requestedMode data = some m ∧
      ctx'.signHashFlags =
        if data = .utf8String "pss" then ctx.signHashFlags else m.bcryptFlag := by
  cases hmode : requestedMode data with
  | none => exact Or.inl ⟨set_pad_mode_unknown hmode h, rfl⟩
  | some m =>
    rw [set_pad_mode_known ctx hmode] at h
    cases h
    exact Or.inr ⟨m, rfl, rfl, rfl⟩

theorem FlagsFollow.keep {x : CtxCall × Reply} (h : FlagsFollow c hist w)
    (hrec : recordMode (lastPadMode hist) x = lastPadMode hist)
    (hctx : ∀ ctx', w'.sigctx c = some ctx' → ∃ ctx, w.sigctx c = some ctx ∧
      ctx'.signHashFlags = ctx.signHashFlags) : FlagsFollow c (hist ++ [x]) w' := by
  intro ctx' m hc hm
  rw [last_pad_mode_append, hrec] at hm
  obtain ⟨ctx, hctx, hflags⟩ := hctx ctx' hc
  exact hflags.trans (h ctx m hctx hm)

theorem flags_follow_no_mode {o : PropertyRead} {params : List OsslParam} {r : ℤ}
    (h : FlagsFollow c hist w) (hnone : padModeRequest params = none)
    (hctx : ∀ x, w'.sigctx c = some x → ∃ ctx, w.sigctx c = some ctx ∧
      x.signHashFlags = ctx.signHashFlags) :
    FlagsFollow c (hist ++ [(.setParams o params, .ret r)]) w' ↔
      RequestKeeps c hist w (.setParams o params) := by
  have hrec : recordMode (lastPadMode hist) (.setParams o params, .ret r) = lastPadMode hist := by
    unfold recordMode
    split
    · rename_i heq
      cases heq
      rw [hnone, Option.none_or]
    · rfl
  refine iff_of_true (h.keep hrec hctx) ?_
  intro ctx m _ hm
  rw [hnone] at hm
  cases hm

section Known

variable {o : PropertyRead} {params : List OsslParam} {data : ParamData} {m : PadMode}
  {ctx ctx' : SignatureCtx} (hctx : w.sigctx c = some ctx)
  (hloc : osslParamLocate params osslSignatureParamPadMode = some data)
  (hmode : requestedMode data = some m)
  (hflags : ctx'.signHashFlags =
    if data = .utf8String "pss" then ctx.signHashFlags else m.bcryptFlag)
include hctx hloc hmode hflags

theorem flags_follow_accepted
    (hsalt : SaltAccepted o (osslParamLocate params osslSignatureParamPssSaltlen) w
      ctx.hashHandle) :
    FlagsFollow c (hist ++ [(.setParams o params, .ret 1)]) (w.setCtx c (some ctx')) ↔
      RequestKeeps c hist w (.setParams o params) := by
  have hreq : padModeRequest params = some m := by
    rw [padModeRequest, hloc]
    exact hmode
  have hctx' : (w.setCtx c (some ctx')).sigctx c = some ctx' := Function.update_self _ _ _
  have hlast : lastPadMode (hist ++ [(.setParams o params, .ret 1)]) = some m := by
    rw [last_pad_mode_append, recordMode, hreq, Option.some_or]
  constructor
  · intro hf x m' hx hm'
    cases hctx.symm.trans hx
    cases hreq.symm.trans hm'
    refine ⟨fun _ hpss => ?_, fun hno => absurd hsalt hno⟩
    cases hloc.symm.trans hpss
    have hnow := hf ctx' m hctx' hlast
    rw [hflags, if_pos rfl] at hnow
    cases hmode
    exact hnow
  · intro hk x m' hx hm'
    cases hctx'.symm.trans hx
    cases hlast.symm.trans hm'
    rw [hflags]
    split
    · rename_i hpss
      subst hpss
      cases hmode
      exact (hk ctx .pss hctx hreq).1 hsalt hloc
    · rfl

theorem flags_follow_refused (h : FlagsFollow c hist w)
    (hno : ¬ SaltAccepted o (osslParamLocate params osslSignatureParamPssSaltlen) w
      ctx.hashHandle) :
    FlagsFollow c (hist ++ [(.setParams o params, .ret 0)]) (w.setCtx c (some ctx')) ↔
      RequestKeeps c hist w (.setParams o params) := by
  have hreq : padModeRequest params = some m := by
    rw [padModeRequest, hloc]
    exact hmode
  have hctx' : (w.setCtx c (some ctx')).sigctx c = some ctx' := Function.update_self _ _ _
  have hlast : lastPadMode (hist ++ [(.setParams o params, .ret 0)]) = lastPadMode hist := by
    rw [last_pad_mode_append]
    rfl
  constructor
  · intro hf x m' hx hm'
    cases hctx.symm.trans hx
    cases hreq.symm.trans hm'
    refine ⟨fun hs => absurd hs hno, fun _ hbefore hpss => ?_⟩
    obtain ⟨m₀, hm₀⟩ := Option.ne_none_iff_exists'.mp hbefore
    have hnow := hf ctx' m₀ hctx' (hlast.trans hm₀)
    rw [hflags, if_neg fun he => hpss (hloc.trans (congrArg some he))] at hnow
    exact (h ctx m₀ hctx hm₀).trans hnow.symm
  · intro hk x m₀ hx hm₀
    cases hctx'.symm.trans hx
    rw [hlast] at hm₀
    have hold := h ctx m₀ hctx hm₀
    rw [hflags]
    split
    · exact hold
    · rename_i hpss
      have hbefore : lastPadMode hist ≠ none := by
        rw [hm₀]
        exact Option.some_ne_none _
      have hother : osslParamLocate params osslSignatureParamPadMode ≠
          some (.utf8String "pss") := fun he => hpss (Option.some.inj (hloc.symm.trans he))
      exact ((hk ctx m hctx hreq).2 hno hbefore hother).symm.trans hold

end Known

/-- The flag stored by a request follows the latest accepted one exactly when the request
keeps to it. -/
theorem flags_follow_request {o : PropertyRead} {params : List OsslParam} {r : ℤ}
    (h : FlagsFollow c hist w)
    (hcall : cngSignatureSetCtxParams o c params w = some (r, w')) :
    FlagsFollow c (hist ++ [(.setParams o params, .ret r)]) w' ↔
      RequestKeeps c hist w (.setParams o params) := by
  rcases set_params_cases hcall with ⟨rfl, rfl, hpad, _⟩ | ⟨ctx, b, ctx₁, hctx, hpad, hcase⟩
  · have hnone : padModeRequest params = none := by rw [padModeRequest, hpad]; rfl
    exact flags_follow_no_mode h hnone fun x hx => ⟨x, hx, rfl⟩
  cases hloc : osslParamLocate params osslSignatureParamPadMode with
  | none =>
    have hnone : padModeRequest params = none := by rw [padModeRequest, hloc]; rfl
    rw [hloc] at hpad
    cases hpad
    refine flags_follow_no_mode h hnone fun x hx => ⟨ctx, hctx, ?_⟩
    rcases hcase with ⟨_, _, rfl⟩ | ⟨b', ctx₂, _, hsalt, _, rfl⟩ <;> cases set_ctx_cases (x := x) hx
    · rfl
    · rw [salt_len_ctx hsalt]
  | some data =>
    rw [hloc] at hpad
    rcases pad_mode_cases hpad with ⟨rfl, hmode⟩ | ⟨m, rfl, hmode, hflags⟩
    · have hnone : padModeRequest params = none := by rw [padModeRequest, hloc]; exact hmode
      rcases hcase with ⟨_, _, rfl⟩ | ⟨_, _, hf, _⟩
      · refine flags_follow_no_mode h hnone fun x hx => ⟨ctx, hctx, ?_⟩
        cases set_ctx_cases (x := x) hx
        rfl
      · cases hf
    · rcases hcase with ⟨hf, _⟩ | ⟨b', ctx₂, _, hsalt, hr, rfl⟩
      · cases hf
      have hsa := salt_accepted_iff hsalt
      have hhash : ctx₁.hashHandle = ctx.hashHandle := by rw [(pad_mode_ctx hpad).1]
      have hsame : ctx₂.signHashFlags = ctx₁.signHashFlags := by rw [salt_len_ctx hsalt]
      rw [hhash] at hsa
      cases b' with
      | true =>
        obtain rfl : r = 1 := hr
        exact flags_follow_accepted hctx hloc hmode (hsame.trans hflags) (hsa.mp rfl)
      | false =>
        obtain rfl : r = 0 := hr
        exact flags_follow_refused hctx hloc hmode (hsame.trans hflags) h fun hs =>
          Bool.false_ne_true (hsa.mpr hs)

/-- One call: the flag follows the latest accepted request, and pads accordingly, exactly
when the call is no request that breaks with it. -/
theorem padding_step {e : CtxCall} {r : Reply} (hw : WellFormed w) (h : FlagsFollow c hist w)
    (hstep : callCtx c e w = some (r, w')) :
    FlagsFollow c (hist ++ [(e, r)]) w' ∧ PadsAsRequested hist e r ↔ RequestKeeps c hist w e := by
  have hcall := call_ctx_cases hstep
  cases e with
  | init o mdname provkey =>
    obtain ⟨i, rfl, hcall⟩ := hcall
    refine iff_of_true ⟨?_, trivial⟩ trivial
    obtain ⟨ctx, hctx, ⟨alg, _, _, rfl⟩ | ⟨_, _, rfl⟩⟩ := init_cases hcall <;>
      refine h.keep rfl fun x hx => ⟨ctx, hctx, ?_⟩ <;> cases set_ctx_cases (x := x) hx <;> rfl
  | update hashData data =>
    obtain ⟨i, rfl, hcall⟩ := hcall
    refine iff_of_true ⟨?_, trivial⟩ trivial
    obtain ⟨ctx, hctx, ⟨_, rfl⟩ | ⟨b, obj, _, hb, _, _, rfl⟩⟩ := update_cases hcall <;>
      exact h.keep rfl fun x hx => ⟨x, hx, rfl⟩
  | setParams o params =>
    obtain ⟨i, rfl, hcall⟩ := hcall
    rw [← flags_follow_request h hcall]
    exact and_iff_left trivial
  | final o sig siglen sigsize =>
    obtain ⟨f, rfl, hcall⟩ := hcall
    refine iff_of_true ?_ trivial
    obtain ⟨ctx, hctx, ⟨rfl, _, hret⟩ | ⟨b, obj, hh, hb, _, _, rfl, hcase⟩⟩ := final_cases hcall
    · refine ⟨h.keep rfl fun x hx => ⟨x, hx, rfl⟩, ?_⟩
      cases sig with
      | false => trivial
      | true =>
        intro hone
        rw [hret rfl] at hone
        cases hone
    · refine ⟨h.keep rfl fun x hx => ⟨x, hx, rfl⟩, ?_⟩
      cases sig with
      | false => trivial
      | true =>
        intro hone m hm
        rcases hcase with ⟨hzero, _⟩ | ⟨p, kd, k, padding, _, _, _, hpad, _, hsigned⟩
        · rw [hzero] at hone
          cases hone
        · have hflags := h ctx m hctx hm
          refine ⟨_, hsigned, hflags, ?_⟩
          rw [paddingInfo, hflags] at hpad
          cases m <;> cases hpad <;> rfl
  | dup o =>
    obtain ⟨i, rfl, hcall⟩ := hcall
    refine iff_of_true ⟨?_, trivial⟩ trivial
    obtain ⟨hsig, _, _, _⟩ := dupctx_frame hw hcall
    obtain ⟨ctx, hctx, _⟩ := dupctx_cases hcall
    exact h.keep rfl fun x hx => ⟨x, hsig c (hw.fresh.sigctx_lt hctx) ▸ hx, rfl⟩
  | free =>
    obtain ⟨rfl, hcall⟩ := hcall
    refine iff_of_true ⟨fun x m hx _ => ?_, trivial⟩ trivial
    rw [freectx_gone hcall] at hx
    cases hx

theorem string_mode_pss {name : String} {m : PadMode}
    (h : requestedMode (.utf8String name) = some m) : m = .pss ↔ name = "pss" := by
  simp only [requestedMode] at h
  split at h
  · rename_i hn
    cases h
    simp [hn]
  · rename_i hn
    split at h
    · cases h
      simp [hn]
    · cases h

theorem set_params_known {o : PropertyRead} {params : List OsslParam} {data : ParamData}
    {ctx ctx₁ : SignatureCtx} (hctx : w.sigctx c = some ctx)
    (hloc : osslParamLocate params osslSignatureParamPadMode = some data)
    (hpad : setPadMode (some data) ctx = some (true, ctx₁)) :
    cngSignatureSetCtxParams o c params w =
      (setSaltLen o (osslParamLocate params osslSignatureParamPssSaltlen) w ctx₁).map fun p =>
        (if p.1 then 1 else 0, w.setCtx c (some p.2)) := by
  unfold cngSignatureSetCtxParams
  rw [hloc]
  cases hsalt : setSaltLen o (osslParamLocate params osslSignatureParamPssSaltlen) w ctx₁ with
  | none => simp [hctx, hpad, hsalt]
  | some p => simp [hctx, hpad, hsalt]

/-- The two encodings of a mode do the same to a context, except that the string "pss" does
not store the flag. -/
theorem encodings_interchangeable_iff {ctx : SignatureCtx} {o : PropertyRead}
    {params params' : List OsslParam} {data : List UInt8} {name : String} {m : PadMode}
    (hctx : w.sigctx c = some ctx)
    (hint : osslParamLocate params osslSignatureParamPadMode = some (.integer data))
    (hname : osslParamLocate params' osslSignatureParamPadMode = some (.utf8String name))
    (hm : requestedMode (.integer data) = some m) (hm' : requestedMode (.utf8String name) = some m)
    (hsalt : osslParamLocate params osslSignatureParamPssSaltlen =
      osslParamLocate params' osslSignatureParamPssSaltlen)
    (h : cngSignatureSetCtxParams o c params w = some (1, w')) :
    cngSignatureSetCtxParams o c params' w = some (1, w') ↔
      (m = .pss → ctx.signHashFlags = bcryptPadPss) := by
  have hpss := string_mode_pss hm'
  rw [set_params_known hctx hint (set_pad_mode_known ctx hm), hsalt] at h
  rw [set_params_known hctx hname (set_pad_mode_known ctx hm')]
  constructor
  · intro h' hmode
    have hn := hpss.mp hmode
    subst hmode hn
    obtain ⟨⟨r, ctx₂⟩, h₂, heq⟩ := Option.map_eq_some_iff.mp h
    obtain ⟨⟨r', ctx₂'⟩, h₂', heq'⟩ := Option.map_eq_some_iff.mp h'
    have hw₂ : w.setCtx c (some ctx₂) = w.setCtx c (some ctx₂') := by
      rw [(Prod.mk.inj heq).2, (Prod.mk.inj heq').2]
    have hctx₂ : ctx₂ = ctx₂' := by
      have hat := congrArg (fun v : World => v.sigctx c) hw₂
      simpa using hat
    have hflag : ctx₂.signHashFlags = bcryptPadPss := by
      rw [salt_len_ctx h₂]
      rfl
    have hflag' : ctx₂'.signHashFlags = ctx.signHashFlags := by
      rw [salt_len_ctx h₂']
      rfl
    rw [← hflag', ← hctx₂, hflag]
  · intro hk
    have hsame : (if ParamData.utf8String name = .utf8String "pss" then ctx.signHashFlags
        else m.bcryptFlag) = m.bcryptFlag := by
      split
      · rename_i hn
        have hmode := hpss.mpr (by simpa using hn)
        rw [hk hmode, hmode]
        rfl
      · rfl
    rw [hsame]
    simpa using h

theorem flags_follow_newctx : FlagsFollow c [] w := by
  intro _ _ _ hm
  cases hm

/-- Over every run on a new context the flag follows the latest accepted pad mode request,
and signatures are padded with it, exactly when every request keeps to it. In any state the
integer and the string form of a mode do the same, except the string "pss" over another
flag. -/
theorem cng_signature_padding_iff {malloc : Bool} {provctx : Option Addr} {propq : Option String}
    (hw : WellFormed w) (hnew : cngSignatureNewctx malloc provctx propq w = (some c, w'))
    (es : List CtxCall) :
    (Along (callCtx c) (fun hist _ e r v => FlagsFollow c (hist ++ [(e, r)]) v ∧
          PadsAsRequested hist e r) [] es w' ↔
      Along (callCtx c) (fun hist v e _ _ => RequestKeeps c hist v e) [] es w') ∧
    ∀ v v' ctx o params params' data name m, v.sigctx c = some ctx →
      osslParamLocate params osslSignatureParamPadMode = some (.integer data) →
      osslParamLocate params' osslSignatureParamPadMode = some (.utf8String name) →
      requestedMode (.integer data) = some m → requestedMode (.utf8String name) = some m →
      osslParamLocate params osslSignatureParamPssSaltlen =
        osslParamLocate params' osslSignatureParamPssSaltlen →
      cngSignatureSetCtxParams o c params v = some (1, v') →
      (cngSignatureSetCtxParams o c params' v = some (1, v') ↔
        (m = .pss → ctx.signHashFlags = bcryptPadPss)) := by
  constructor
  · have hw' : WellFormed w' := by
      have := hw.newctx malloc provctx propq
      rwa [hnew] at this
    refine along_congr (P := fun hist v => WellFormed v ∧ FlagsFollow c hist v) ?_
      ⟨hw', flags_follow_newctx⟩
    intro e _ hist v r v' hv hstep
    exact ⟨padding_step hv.1 hv.2 hstep, fun h => ⟨hv.1.callCtx hstep, h.1⟩⟩
  · intro v v' ctx o params params' data name m hctx hint hname hm hm' hsalt h
    exact encodings_interchangeable_iff hctx hint hname hm hm' hsalt h

/-- PKCS #1 padding set as an integer, PSS then requested by name, and a signature. -/
def pssByNameRun : List CtxCall :=
  [.init ⟨some ⟨["SHA2-256"]⟩, 0, 0⟩ (some "SHA256") (some 1),
    .setParams ⟨0, 4⟩ [⟨"pad-mode", .integer [1, 0, 0, 0]⟩],
    .setParams ⟨0, 4⟩ [⟨"pad-mode", .utf8String "pss"⟩],
    .final ⟨0, true, 0, true, 0, 256⟩ true 256 256]

theorem cng_signature_padding_iff_sample :
    (Along (callCtx 5) (fun hist _ e r v => FlagsFollow 5 (hist ++ [(e, r)]) v ∧
          PadsAsRequested hist e r) [] pssByNameRun
          (cngSignatureNewctx true none none sampleKeys).2 ↔
      Along (callCtx 5) (fun hist v e _ _ => RequestKeeps 5 hist v e) [] pssByNameRun
        (cngSignatureNewctx true none none sampleKeys).2) :=
  (cng_signature_padding_iff sample_keys_well_formed
    (show cngSignatureNewctx true none none sampleKeys = (some 5, _) from rfl) pssByNameRun).1

theorem pss_by_name_signs_pkcs1 :
    ¬ Along (callCtx 5) (fun hist _ e r _ => PadsAsRequested hist e r) [] pssByNameRun
      (cngSignatureNewctx true none none sampleKeys).2 := by
  intro h
  have h₁ := ((along_cons rfl).mp h).2
  have h₂ := ((along_cons rfl).mp h₁).2
  have h₃ := ((along_cons rfl).mp h₂).2
  obtain ⟨req, hsigned, hflags, _⟩ := ((along_cons rfl).mp h₃).1 rfl .pss rfl
  cases hsigned
  exact absurd hflags (by decide)

end Padding

end CngSignaturePadding
