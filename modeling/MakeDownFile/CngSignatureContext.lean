import MakeDownFile.CngSignatureRuns

/-! # The key, digest and hash of a signature context

A history of the calls on one context tells which init made its hash. Init writes the key
and the algorithm identifier before it knows whether it can create the hash. -/
namespace CngSignatureContext

open ByteBuffers
open CngWorld
open CngKeymgmt
open CngSignature
open CngSignatureRuns
open TraceRuns

abbrev History := List (CtxCall × Reply)

def recordInit (made : Option (AlgId × Option Addr)) : CtxCall × Reply →
    Option (AlgId × Option Addr)
  | (.init o _ provkey, .ret 1) => (o.fetch.bind bcryptDigestName).map fun alg => (alg, provkey)
  | _ => made

def hashInit (hist : History) : Option (AlgId × Option Addr) := hist.foldl recordInit none

theorem hash_init_append (hist : History) (x : CtxCall × Reply) :
    hashInit (hist ++ [x]) = recordInit (hashInit hist) x := by
  rw [hashInit, List.foldl_append]
  rfl

/-- Key, algorithm and hash of the context come from one init. -/
def Unmixed (c : Addr) (hist : History) (w : World) : Prop :=
  ∀ ctx h, w.sigctx c = some ctx → ctx.hashHandle = some h →
    ∃ alg, hashInit hist = some (alg, ctx.key) ∧ ctx.algIdentifier = some alg ∧
      ∀ obj, w.hashes h = some obj → obj.alg = alg

def SignsAsCreated (hist : History) : CtxCall → Reply → Prop
  | .final _ true _ _, .final f => f.ret = 1 →
    ∃ alg p req, hashInit hist = some (alg, some p) ∧ f.signed = some req ∧
      req.padding.pszAlgId = some alg ∧ req.hashAlg = alg ∧ req.keyObject = p
  | _, _ => True

/-- An init that creates no hash finds none in the context, or changes neither its key nor
its algorithm identifier. -/
def InitKeeps (c : Addr) (w : World) : CtxCall → Prop
  | .init o mdname provkey => createdHash o mdname ≠ none ∨
    ∀ ctx, w.sigctx c = some ctx → ctx.hashHandle = none ∨
      (provkey = ctx.key ∧ algIdentifierAfter o mdname ctx = ctx.algIdentifier)
  | _ => True

theorem Unmixed.keep {c : Addr} {hist : History} {w w' : World} {x : CtxCall × Reply}
    (h : Unmixed c hist w) (hrec : recordInit (hashInit hist) x = hashInit hist)
    (hctx : ∀ ctx', w'.sigctx c = some ctx' → ∃ ctx, w.sigctx c = some ctx ∧
      ctx'.key = ctx.key ∧ ctx'.algIdentifier = ctx.algIdentifier ∧
      ctx'.hashHandle = ctx.hashHandle)
    (hobj : ∀ ctx b obj', w.sigctx c = some ctx → ctx.hashHandle = some b →
      w'.hashes b = some obj' → ∃ obj, w.hashes b = some obj ∧ obj'.alg = obj.alg) :
    Unmixed c (hist ++ [x]) w' := by
  intro ctx' b hc hb
  obtain ⟨ctx, hctx, hkey, halg, hhash⟩ := hctx ctx' hc
  rw [hhash] at hb
  obtain ⟨alg, hinit, hid, hold⟩ := h ctx b hctx hb
  refine ⟨alg, by rw [hash_init_append, hrec, hkey]; exact hinit, halg.trans hid, ?_⟩
  intro obj' hobj'
  obtain ⟨obj, ho, he⟩ := hobj ctx b obj' hctx hb hobj'
  exact he.trans (hold obj ho)

section Agreement

variable {c : Addr} {hist : History} {w w' : World}

theorem set_ctx_cases {x : SignatureCtx} {y : Option SignatureCtx}
    (h : (w.setCtx c y).sigctx c = some x) : y = some x := by
  rwa [World.setCtx_sigctx, Function.update_self] at h

theorem Unmixed.setHash {x : CtxCall × Reply} {b : Handle} {obj obj' : HashObj}
    (h : Unmixed c hist w) (hb : w.hashes b = some obj) (halg : obj'.alg = obj.alg)
    (hrec : recordInit (hashInit hist) x = hashInit hist) :
    Unmixed c (hist ++ [x]) (w.setHash b obj') := by
  refine h.keep hrec (fun ctx' hc => ⟨ctx', hc, rfl, rfl, rfl⟩) fun ctx a o _ _ ho => ?_
  by_cases hab : a = b
  · subst hab
    rw [World.setHash_hashes, Function.update_self] at ho
    cases ho
    exact ⟨obj, hb, halg⟩
  · rw [World.setHash_hashes, Function.update_of_ne hab] at ho
    exact ⟨o, ho, rfl⟩

theorem Unmixed.same {x : CtxCall × Reply} (h : Unmixed c hist w)
    (hrec : recordInit (hashInit hist) x = hashInit hist) : Unmixed c (hist ++ [x]) w :=
  h.keep hrec (fun ctx' hc => ⟨ctx', hc, rfl, rfl, rfl⟩) fun _ _ o _ _ ho => ⟨o, ho, rfl⟩

theorem unmixed_failed_init {o : InitCalls} {mdname : Option String} {provkey : Option Addr}
    {ctx : SignatureCtx} (h : Unmixed c hist w) (hctx : w.sigctx c = some ctx)
    (hnone : createdHash o mdname = none) :
    Unmixed c (hist ++ [(.init o mdname provkey, .ret 0)]) (w.setCtx c (some { ctx with
        key := provkey, algIdentifier := algIdentifierAfter o mdname ctx })) ↔
      InitKeeps c w (.init o mdname provkey) := by
  constructor
  · intro hafter
    refine Or.inr fun x hx => ?_
    cases hctx.symm.trans hx
    cases hb : ctx.hashHandle with
    | none => exact Or.inl rfl
    | some b =>
      obtain ⟨alg, hinit, hid, _⟩ := h ctx b hctx hb
      obtain ⟨alg', hinit', hid', _⟩ := hafter _ b (Function.update_self _ _ _) hb
      rw [hash_init_append] at hinit'
      cases hinit.symm.trans hinit'
      exact Or.inr ⟨rfl, hid'.trans hid.symm⟩
  · rintro (hcreated | hkeep)
    · exact absurd hnone hcreated
    · rcases hkeep ctx hctx with hb | ⟨hkey, halg⟩
      · intro x b hx hb'
        cases set_ctx_cases (x := x) hx
        rw [hb] at hb'
        cases hb'
      · refine h.keep rfl (fun x hx => ⟨ctx, hctx, ?_⟩) fun _ _ o _ _ ho => ⟨o, ho, rfl⟩
        cases set_ctx_cases (x := x) hx
        exact ⟨hkey, halg, rfl⟩

theorem unmixed_created {o : InitCalls} {mdname : Option String} {provkey : Option Addr}
    {ctx : SignatureCtx} {alg : AlgId} (hcreated : createdHash o mdname = some alg) :
    Unmixed c (hist ++ [(.init o mdname provkey, .ret 1)])
      ((w.addHash (.createHash w.next) ⟨alg, [], false⟩).setCtx c (some { ctx with
        key := provkey, algIdentifier := some alg, hashHandle := some w.next })) := by
  intro x b hx hb
  cases set_ctx_cases (x := x) hx
  cases hb
  refine ⟨alg, ?_, rfl, fun obj hobj => ?_⟩
  · rw [hash_init_append, recordInit, created_hash_name hcreated]
    rfl
  · rw [World.setCtx_hashes, World.addHash_hashes, Function.update_self] at hobj
    cases hobj
    rfl

theorem unmixed_final {o : FinalCalls} {sig : Bool} {siglen sigsize : ℕ} {f : FinalReply}
    (h : Unmixed c hist w)
    (hcall : cngSignatureDigestSignFinal o c sig siglen sigsize w = some (f, w')) :
    Unmixed c (hist ++ [(.final o sig siglen sigsize, .final f)]) w' ∧
      SignsAsCreated hist (.final o sig siglen sigsize) (.final f) := by
  obtain ⟨ctx, hctx, ⟨rfl, _, hret⟩ | ⟨b, obj, hh, hb, _, rfl, rfl, hcase⟩⟩ := final_cases hcall
  · refine ⟨h.same rfl, ?_⟩
    cases sig with
    | false => trivial
    | true =>
      intro hone
      rw [hret rfl] at hone
      cases hone
  · refine ⟨h.setHash hb rfl rfl, ?_⟩
    intro hone
    rcases hcase with ⟨hzero, _⟩ | ⟨p, kd, k, padding, hp, _, _, hpad, _, hsigned⟩
    · rw [hzero] at hone
      cases hone
    · obtain ⟨alg, hinit, hid, hobj⟩ := h ctx b hctx hh
      rw [hp] at hinit
      exact ⟨alg, p, _, hinit, hsigned, (padding_alg_id hpad).trans hid, hobj obj hb, rfl⟩

/-- One call: the context stays unmixed, and signs accordingly, exactly when it is no init
that fails over a hash with another key or algorithm. -/
theorem unmixed_step {e : CtxCall} {r : Reply} (hw : WellFormed w) (h : Unmixed c hist w)
    (hstep : callCtx c e w = some (r, w')) :
    Unmixed c (hist ++ [(e, r)]) w' ∧ SignsAsCreated hist e r ↔ InitKeeps c w e := by
  have hcall := call_ctx_cases hstep
  cases e with
  | init o mdname provkey =>
    obtain ⟨i, rfl, hcall⟩ := hcall
    obtain ⟨ctx, hctx, ⟨alg, hcreated, rfl, rfl⟩ | ⟨hnone, rfl, rfl⟩⟩ := init_cases hcall
    · refine ⟨fun _ => Or.inl ?_, fun _ => ⟨unmixed_created hcreated, trivial⟩⟩
      rw [hcreated]
      exact Option.some_ne_none _
    · rw [← unmixed_failed_init h hctx hnone]
      exact and_iff_left trivial
  | update hashData data =>
    obtain ⟨i, rfl, hcall⟩ := hcall
    refine iff_of_true ⟨?_, trivial⟩ trivial
    obtain ⟨ctx, hctx, ⟨_, rfl⟩ | ⟨b, obj, _, hb, _, _, rfl⟩⟩ := update_cases hcall
    · exact h.same rfl
    · exact h.setHash hb rfl rfl
  | setParams o params =>
    obtain ⟨i, rfl, hcall⟩ := hcall
    refine iff_of_true ⟨?_, trivial⟩ trivial
    rcases set_params_frame hcall with rfl | ⟨ctx, flags, len, hctx, rfl⟩
    · exact h.same rfl
    · refine h.keep rfl (fun x hx => ⟨ctx, hctx, ?_⟩) fun _ _ o _ _ ho => ⟨o, ho, rfl⟩
      cases set_ctx_cases (x := x) hx
      exact ⟨rfl, rfl, rfl⟩
  | final o sig siglen sigsize =>
    obtain ⟨f, rfl, hcall⟩ := hcall
    exact iff_of_true (unmixed_final h hcall) trivial
  | dup o =>
    obtain ⟨i, rfl, hcall⟩ := hcall
    refine iff_of_true ⟨?_, trivial⟩ trivial
    obtain ⟨hsig, hhash, _, _⟩ := dupctx_frame hw hcall
    obtain ⟨ctx, hctx, _⟩ := dupctx_cases hcall
    have hc := hsig c (hw.fresh.sigctx_lt hctx)
    refine h.keep rfl (fun x hx => ⟨x, hc ▸ hx, rfl, rfl, rfl⟩) fun x b o hx hb ho => ?_
    rw [hhash b (hw.hash_lt hx hb)] at ho
    exact ⟨o, ho, rfl⟩
  | free =>
    obtain ⟨rfl, hcall⟩ := hcall
    refine iff_of_true ⟨fun x b hx _ => ?_, trivial⟩ trivial
    rw [freectx_gone hcall] at hx
    cases hx

theorem unmixed_newctx {malloc : Bool} {provctx : Option Addr} {propq : Option String}
    (hnew : cngSignatureNewctx malloc provctx propq w = (some c, w')) : Unmixed c [] w' := by
  unfold cngSignatureNewctx at hnew
  split at hnew
  · cases hnew
    intro ctx b hctx hb
    rw [World.addCtx_sigctx, Function.update_self] at hctx
    cases hctx
    cases hb
  · cases hnew

/-- Over every run on a new context: it is never left mixed and never signs with a digest or
key of another init, exactly when no init fails over a hash with a key or an algorithm
identifier other than those in the context. -/
theorem cng_signature_agreement_iff {malloc : Bool} {provctx : Option Addr}
    {propq : Option String} (hw : WellFormed w)
    (hnew : cngSignatureNewctx malloc provctx propq w = (some c, w')) (es : List CtxCall) :
    Along (callCtx c) (fun hist _ e r v => Unmixed c (hist ++ [(e, r)]) v ∧ SignsAsCreated hist e r)
        [] es w' ↔
      Along (callCtx c) (fun _ v e _ _ => InitKeeps c v e) [] es w' := by
  have hw' : WellFormed w' := by
    have := hw.newctx malloc provctx propq
    rwa [hnew] at this
  refine along_congr (P := fun hist v => WellFormed v ∧ Unmixed c hist v) ?_
    ⟨hw', unmixed_newctx hnew⟩
  intro e _ hist v r v' hv hstep
  exact ⟨unmixed_step hv.1 hv.2 hstep, fun h => ⟨hv.1.callCtx hstep, h.1⟩⟩

theorem cng_signature_agreement_iff_sample :
    Along (callCtx 5) (fun hist _ e r v => Unmixed 5 (hist ++ [(e, r)]) v ∧ SignsAsCreated hist e r)
        [] [.init ⟨some ⟨["SHA2-256"]⟩, 0, 0⟩ (some "SHA256") (some 1)]
        (cngSignatureNewctx true none none sampleKeys).2 ↔
      Along (callCtx 5) (fun _ v e _ _ => InitKeeps 5 v e) []
        [.init ⟨some ⟨["SHA2-256"]⟩, 0, 0⟩ (some "SHA256") (some 1)]
        (cngSignatureNewctx true none none sampleKeys).2 :=
  cng_signature_agreement_iff sample_keys_well_formed
    (show cngSignatureNewctx true none none sampleKeys = (some 5, _) from rfl) _

/-- Init for SHA-256 with key object 1, then an init for SHA-256 with key object 2 whose
BCryptOpenAlgorithmProvider fails, then a signature. -/
def mixedRun : List CtxCall :=
  [.init ⟨some ⟨["SHA2-256"]⟩, 0, 0⟩ (some "SHA256") (some 1),
    .setParams ⟨0, 4⟩ [⟨"pad-mode", .utf8String "pkcs1"⟩],
    .init ⟨some ⟨["SHA2-256"]⟩, 1, 0⟩ (some "SHA256") (some 2),
    .final ⟨0, true, 0, true, 0, 256⟩ true 256 256]

theorem mixed_run_signs_with_other_key :
    ¬ Along (callCtx 5) (fun hist _ e r _ => SignsAsCreated hist e r) [] mixedRun
      (cngSignatureNewctx true none none sampleKeys).2 := by
  intro h
  have h₁ := ((along_cons rfl).mp h).2
  have h₂ := ((along_cons rfl).mp h₁).2
  have h₃ := ((along_cons rfl).mp h₂).2
  have hsigns := ((along_cons rfl).mp h₃).1
  obtain ⟨alg, p, req, hinit, hsigned, _, _, hkey⟩ := hsigns rfl
  cases hinit
  cases hsigned
  exact absurd hkey (by decide)

end Agreement

end CngSignatureContext
