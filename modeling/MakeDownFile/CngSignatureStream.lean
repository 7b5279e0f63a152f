import MakeDownFile.CngSignatureRuns

/-! # Streaming into a signature context

Between an init and the final call the hash object accumulates the chunks in order; size
queries and parameter changes read the hash handle but leave the hash alone. -/
namespace CngSignatureStream

open CngWorld
open CngKeymgmt
open CngSignature
open CngSignatureRuns
open TraceRuns

def Streaming : CtxCall → Prop
  | .update _ data => data.length < 2 ^ 32
  | .setParams _ _ => True
  | .final _ sig _ _ => sig = false
  | _ => False

def chunk : CtxCall → List UInt8
  | .update _ data => data
  | _ => []

def message (es : List CtxCall) : List UInt8 := es.flatMap chunk

def UpdatesAccepted (es : List CtxCall) (rs : List Reply) : Prop :=
  ∀ x ∈ es.zip rs, ∀ hashData data, x.1 = .update hashData data → x.2 = .ret 1

/-- The context as the init in `u` left it, up to padding, with `m` in its hash. -/
structure Streamed (c : Addr) (u : World) (provkey : Option Addr) (alg : AlgId) (m : List UInt8)
    (ctx : SignatureCtx) (w : World) : Prop where
  sigctx : w.sigctx c = some ctx
  key : ctx.key = provkey
  alg_identifier : ctx.algIdentifier = some alg
  hash : ∃ h, ctx.hashHandle = some h ∧ w.hashes h = some ⟨alg, m, false⟩
  keydata : w.keydata = u.keydata
  keys : w.keys = u.keys

variable {c : Addr} {u w w' : World} {provkey : Option Addr} {alg : AlgId} {m : List UInt8}
  {ctx : SignatureCtx}

theorem streamed_init {o : InitCalls} {mdname : Option String}
    (h : cngSignatureDigestSignInit o c mdname provkey w = some (1, w')) :
    ∃ alg ctx, createdHash o mdname = some alg ∧ Streamed c w' provkey alg [] ctx w' := by
  obtain ⟨ctx, _, ⟨alg, hcreated, _, rfl⟩ | ⟨_, h0, _⟩⟩ := init_cases h
  · exact ⟨alg, _, hcreated, Function.update_self _ _ _, rfl, rfl,
      ⟨w.next, rfl, Function.update_self _ _ _⟩, rfl, rfl⟩
  · cases h0

theorem streamed_step {e : CtxCall} {r : Reply} (hs : Streamed c u provkey alg m ctx w)
    (he : Streaming e) (hacc : ∀ hashData data, e = .update hashData data → r = .ret 1)
    (h : callCtx c e w = some (r, w')) :
    ∃ ctx', Streamed c u provkey alg (m ++ chunk e) ctx' w' := by
  have hcall := call_ctx_cases h
  cases e with
  | init o mdname provkey => exact he.elim
  | dup o => exact he.elim
  | free => exact he.elim
  | update hashData data =>
    obtain ⟨i, rfl, hcall⟩ := hcall
    obtain ⟨x, hx, ⟨rfl, _⟩ | ⟨b, obj, hb, hobj, hfin, _, rfl⟩⟩ := update_cases hcall
    · cases hacc hashData data rfl
    · cases hs.sigctx.symm.trans hx
      obtain ⟨b', hb', hobj'⟩ := hs.hash
      cases hb.symm.trans hb'
      cases hobj.symm.trans hobj'
      have hlen : data.length % 2 ^ 32 = data.length := Nat.mod_eq_of_lt he
      refine ⟨ctx, hs.sigctx, hs.key, hs.alg_identifier, ⟨b, hb, ?_⟩, hs.keydata, hs.keys⟩
      rw [World.setHash_hashes, Function.update_self, hlen, List.take_length]
      rfl
  | setParams o params =>
    obtain ⟨i, rfl, hcall⟩ := hcall
    rw [show chunk (.setParams o params) = [] from rfl, List.append_nil]
    rcases set_params_frame hcall with rfl | ⟨x, flags, len, hx, rfl⟩
    · exact ⟨ctx, hs⟩
    · cases hs.sigctx.symm.trans hx
      exact ⟨_, Function.update_self _ _ _, hs.key, hs.alg_identifier, hs.hash, hs.keydata, hs.keys⟩
  | final o sig siglen sigsize =>
    obtain ⟨f, rfl, hcall⟩ := hcall
    rw [show chunk (.final o sig siglen sigsize) = [] from rfl, List.append_nil]
    obtain ⟨x, hx, ⟨rfl, _⟩ | ⟨_, _, _, _, _, hsig, _⟩⟩ := final_cases hcall
    · exact ⟨ctx, hs⟩
    · cases (show sig = false from he).symm.trans hsig

theorem streamed_run {es : List CtxCall} {rs : List Reply} (hs : Streamed c u provkey alg m ctx w)
    (hes : ∀ e ∈ es, Streaming e) (hacc : UpdatesAccepted es rs)
    (h : run (callCtx c) es w = some (rs, w')) :
    ∃ ctx', Streamed c u provkey alg (m ++ message es) ctx' w' := by
  induction es generalizing m ctx w rs with
  | nil =>
    cases h
    exact ⟨ctx, by simpa [message] using hs⟩
  | cons e es ih =>
    obtain ⟨r, v, rs', hstep, hrun, rfl⟩ := run_cons.mp h
    obtain ⟨ctx₁, hs₁⟩ := streamed_step hs (hes e List.mem_cons_self)
      (fun hashData data he => hacc (e, r) (by simp) hashData data he) hstep
    obtain ⟨ctx', hs'⟩ := ih hs₁ (fun x hx => hes x (List.mem_cons_of_mem _ hx))
      (fun x hx => hacc x (List.mem_cons_of_mem _ hx)) hrun
    refine ⟨ctx', ?_⟩
    rwa [List.append_assoc] at hs'

def FinalCalls.Succeed (f : FinalCalls) : Prop :=
  f.getHashLength = statusSuccess ∧ f.malloc ∧ f.finishHash = statusSuccess ∧ f.paddingMalloc ∧
    f.signHash = statusSuccess

def streamPadding (alg : AlgId) (flags saltLen : ℕ) : Option PaddingInfo :=
  if flags = bcryptPadPss then some (.pss (some alg) saltLen)
  else if flags = bcryptPadPkcs1 then some (.pkcs1 (some alg))
  else none

/-- What a final call signs after `m` has been streamed in, with the keys of `u`. -/
def streamSignature (u : World) (provkey : Option Addr) (alg : AlgId) (m : List UInt8)
    (flags saltLen sigsize : ℕ) : Option SignRequest :=
  provkey.bind fun p => (u.keydata p).bind fun kd => (u.keys kd.windowsKeyHandle).bind fun k =>
    (streamPadding alg flags saltLen).map fun padding =>
      ⟨p, k, padding, alg, m, sigsize % 2 ^ 32, flags⟩

theorem stream_signature_some {flags saltLen sigsize : ℕ} {req : SignRequest}
    (h : streamSignature u provkey alg m flags saltLen sigsize = some req) :
    ∃ p kd k padding, provkey = some p ∧ u.keydata p = some kd ∧
      u.keys kd.windowsKeyHandle = some k ∧
      streamPadding alg flags saltLen = some padding ∧
      req = ⟨p, k, padding, alg, m, sigsize % 2 ^ 32, flags⟩ := by
  obtain ⟨p, hp, h⟩ := Option.bind_eq_some_iff.mp h
  obtain ⟨kd, hkd, h⟩ := Option.bind_eq_some_iff.mp h
  obtain ⟨k, hk, h⟩ := Option.bind_eq_some_iff.mp h
  obtain ⟨padding, hpad, rfl⟩ := Option.map_eq_some_iff.mp h
  exact ⟨p, kd, k, padding, hp, hkd, hk, hpad, rfl⟩

theorem Streamed.padding_info (hs : Streamed c u provkey alg m ctx w) : paddingInfo ctx =
    streamPadding alg ctx.signHashFlags ctx.pssSaltLen := by
  unfold paddingInfo streamPadding
  rw [hs.alg_identifier]

theorem final_calls_succeed {f : FinalCalls} {siglen sigsize : ℕ} {r : FinalReply}
    (h : cngSignatureDigestSignFinal f c true siglen sigsize w = some (r, w')) (hone : r.ret = 1) :
    FinalCalls.Succeed f := by
  unfold cngSignatureDigestSignFinal at h
  split at h
  · cases h
  split at h
  · split at h
    · cases h; cases hone
    rename_i hlen
    split at h
    · cases h; cases hone
    rename_i hmalloc
    split at h
    · rename_i hsig
      exact absurd rfl hsig
    split at h
    · cases h; cases hone
    rename_i huse
    obtain ⟨_, huse⟩ := Option.ne_none_iff_exists'.mp huse
    obtain ⟨_, _, _, _, hfinish⟩ := usable_hash huse
    simp only at h
    split at h
    · cases h; cases hone
    rename_i padding hpadding
    split at h
    · cases h
    · cases h; cases hone
    rename_i p k hcall
    refine ⟨not_not.mp hlen, not_not.mp hmalloc, hfinish, ?_, ?_⟩
    · split at hpadding
      · assumption
      · cases hpadding
    · obtain ⟨_, hp, hkd, _⟩ := sign_hash_some hcall
      simp only [hp, nCryptSignHash, hkd] at hcall
      split at hcall
      · assumption
      · cases hcall
  · cases h; cases hone

/-- A final whose calls succeed returns 1 where the hash is open and the key can be used. -/
theorem final_succeeds {f : FinalCalls} {siglen sigsize : ℕ} {r : FinalReply} {b p : Addr}
    {obj : HashObj} {kd : KeyData} {k : NKey} {padding : PaddingInfo}
    (h : cngSignatureDigestSignFinal f c true siglen sigsize w = some (r, w'))
    (hcalls : FinalCalls.Succeed f) (hctx : w.sigctx c = some ctx) (hb : ctx.hashHandle = some b)
    (hobj : w.hashes b = some obj) (hfin : obj.finished = false) (hp : ctx.key = some p)
    (hkd : w.keydata p = some kd) (hk : w.keys kd.windowsKeyHandle = some k)
    (hpad : paddingInfo ctx = some padding) :
    r.ret = 1 ∧ ∃ req, r.signed = some req ∧ req.padding = padding := by
  obtain ⟨hlen, hmalloc, hfinish, hpadding, hsign⟩ := hcalls
  have huse : usableHash statusSuccess (some b) w = some obj := by
    simp [usableHash, hobj, hfin]
  have hcall : nCryptSignHash statusSuccess (some p) (w.setHash b ⟨obj.alg, obj.absorbed, true⟩) =
      some (some (p, k)) := by
    simp [nCryptSignHash, hkd, hk]
  simp [cngSignatureDigestSignFinal, hctx, hb, hobj, hlen, hmalloc, hfinish, hpadding, hsign,
    huse, hpad, hp, hcall] at h
  rw [← h.1]
  exact ⟨rfl, _, rfl, rfl⟩

theorem final_signs_stream (hs : Streamed c u provkey alg m ctx w) {f : FinalCalls}
    {siglen sigsize : ℕ} {r : FinalReply}
    (h : cngSignatureDigestSignFinal f c true siglen sigsize w = some (r, w')) (hone : r.ret = 1) :
    r.signed = streamSignature u provkey alg m ctx.signHashFlags ctx.pssSaltLen sigsize ∧
      r.signed ≠ none := by
  obtain ⟨b, hb, hobj⟩ := hs.hash
  obtain ⟨x, hx, ⟨_, _, hzero⟩ | ⟨b', obj, hb', hobj', _, _, _, hcase⟩⟩ := final_cases h
  · rw [hzero rfl] at hone
    cases hone
  · cases hs.sigctx.symm.trans hx
    cases hb.symm.trans hb'
    cases hobj.symm.trans hobj'
    rcases hcase with ⟨hzero, _⟩ | ⟨p, kd, k, padding, hp, hkd, hk, hpad, _, hsigned⟩
    · rw [hzero] at hone
      cases hone
    · rw [hs.key] at hp
      rw [hs.keydata] at hkd
      rw [hs.keys] at hk
      rw [hs.padding_info] at hpad
      rw [hsigned]
      refine ⟨?_, Option.some_ne_none _⟩
      simp only [streamSignature, hp, Option.bind_some, hkd, hk, hpad, Option.map_some]

theorem final_returns_one (hs : Streamed c u provkey alg m ctx w) {f : FinalCalls}
    {siglen sigsize : ℕ} {r : FinalReply}
    (h : cngSignatureDigestSignFinal f c true siglen sigsize w = some (r, w'))
    (hcalls : FinalCalls.Succeed f)
    (hsome : streamSignature u provkey alg m ctx.signHashFlags ctx.pssSaltLen sigsize ≠ none) :
    r.ret = 1 := by
  obtain ⟨b, hb, hobj⟩ := hs.hash
  obtain ⟨req, hreq⟩ := Option.ne_none_iff_exists'.mp hsome
  obtain ⟨p, kd, k, padding, hp, hkd, hk, hpad, _⟩ := stream_signature_some hreq
  rw [← hs.padding_info] at hpad
  rw [← hs.key] at hp
  rw [← hs.keydata] at hkd
  rw [← hs.keys] at hk
  exact (final_succeeds h hcalls hs.sigctx hb hobj rfl hp hkd hk hpad).1

/-- The final call signs the hash of what was streamed in, and does so whenever its own
system calls succeed, the flags are known and the key can be used. -/
theorem final_streamed (hs : Streamed c u provkey alg m ctx w) {f : FinalCalls}
    {siglen sigsize : ℕ} {r : FinalReply}
    (h : cngSignatureDigestSignFinal f c true siglen sigsize w = some (r, w')) :
    (r.ret = 1 → r.signed =
      streamSignature u provkey alg m ctx.signHashFlags ctx.pssSaltLen sigsize) ∧
    (r.ret = 1 ↔ FinalCalls.Succeed f ∧
      streamSignature u provkey alg m ctx.signHashFlags ctx.pssSaltLen sigsize ≠ none) := by
  refine ⟨fun hone => (final_signs_stream hs h hone).1, fun hone => ?_, ?_⟩
  · obtain ⟨hsigned, hsome⟩ := final_signs_stream hs h hone
    rw [hsigned] at hsome
    exact ⟨final_calls_succeed h hone, hsome⟩
  · rintro ⟨hcalls, hsome⟩
    exact final_returns_one hs h hcalls hsome

/-- Two runs after one init that stream the same bytes, in whatever chunks and with whatever
queries and parameter changes in between, sign the same hash with the same key; only the
padding is that of each context at the end. -/
theorem cng_signature_stream_chunking {o : InitCalls} {mdname : Option String} {w₁ w₂ w₂' : World}
    {es es' : List CtxCall} {rs rs' : List Reply}
    (hinit : cngSignatureDigestSignInit o c mdname provkey w = some (1, w₁))
    (hes : ∀ e ∈ es, Streaming e) (hes' : ∀ e ∈ es', Streaming e)
    (hcat : message es = message es')
    (hrun : run (callCtx c) es w₁ = some (rs, w₂))
    (hrun' : run (callCtx c) es' w₁ = some (rs', w₂'))
    (hacc : UpdatesAccepted es rs) (hacc' : UpdatesAccepted es' rs') :
    ∃ alg ctx ctx', createdHash o mdname = some alg ∧ w₂.sigctx c = some ctx ∧
      w₂'.sigctx c = some ctx' ∧
      ∀ f f' siglen siglen' sigsize r r' v v',
        cngSignatureDigestSignFinal f c true siglen sigsize w₂ = some (r, v) →
        cngSignatureDigestSignFinal f' c true siglen' sigsize w₂' = some (r', v') →
        (r.ret = 1 → r.signed = streamSignature w₁ provkey alg (message es) ctx.signHashFlags
          ctx.pssSaltLen sigsize) ∧
        (r'.ret = 1 → r'.signed = streamSignature w₁ provkey alg (message es) ctx'.signHashFlags
          ctx'.pssSaltLen sigsize) ∧
        (r.ret = 1 ↔ FinalCalls.Succeed f ∧ streamSignature w₁ provkey alg (message es)
          ctx.signHashFlags ctx.pssSaltLen sigsize ≠ none) ∧
        (r'.ret = 1 ↔ FinalCalls.Succeed f' ∧ streamSignature w₁ provkey alg (message es)
          ctx'.signHashFlags ctx'.pssSaltLen sigsize ≠ none) := by
  obtain ⟨alg, ctx₁, hcreated, hs₁⟩ := streamed_init hinit
  obtain ⟨ctx, hs⟩ := streamed_run hs₁ hes hacc hrun
  obtain ⟨ctx', hs'⟩ := streamed_run hs₁ hes' hacc' hrun'
  rw [List.nil_append] at hs hs'
  rw [← hcat] at hs'
  refine ⟨alg, ctx, ctx', hcreated, hs.sigctx, hs'.sigctx, ?_⟩
  intro f f' siglen siglen' sigsize r r' v v' h h'
  obtain ⟨hsigned, hret⟩ := final_streamed hs h
  obtain ⟨hsigned', hret'⟩ := final_streamed hs' h'
  exact ⟨hsigned, hsigned', hret, hret'⟩

def sampleStream : List CtxCall :=
  [.update 0 [1, 2], .final ⟨0, true, 0, true, 0, 256⟩ false 0 0, .update 0 [3]]

def sampleStream' : List CtxCall :=
  [.update 0 [1], .setParams ⟨0, 4⟩ [⟨"pad-mode", .utf8String "pkcs1"⟩], .update 0 [2, 3]]

theorem cng_signature_stream_chunking_sample : ∃ w₂ w₂' rs rs',
    run (callCtx 5) sampleStream sampleContext = some (rs, w₂) ∧
    run (callCtx 5) sampleStream' sampleContext = some (rs', w₂') ∧
    ∃ alg ctx ctx', createdHash sampleInit (some "SHA256") = some alg ∧ w₂.sigctx 5 = some ctx ∧
      w₂'.sigctx 5 = some ctx' ∧
      ∀ f f' siglen siglen' sigsize r r' v v',
        cngSignatureDigestSignFinal f 5 true siglen sigsize w₂ = some (r, v) →
        cngSignatureDigestSignFinal f' 5 true siglen' sigsize w₂' = some (r', v') →
        (r.ret = 1 → r.signed = streamSignature sampleContext (some 1) alg [1, 2, 3]
          ctx.signHashFlags ctx.pssSaltLen sigsize) ∧
        (r'.ret = 1 → r'.signed = streamSignature sampleContext (some 1) alg [1, 2, 3]
          ctx'.signHashFlags ctx'.pssSaltLen sigsize) ∧
        (r.ret = 1 ↔ FinalCalls.Succeed f ∧ streamSignature sampleContext (some 1) alg [1, 2, 3]
          ctx.signHashFlags ctx.pssSaltLen sigsize ≠ none) ∧
        (r'.ret = 1 ↔ FinalCalls.Succeed f' ∧ streamSignature sampleContext (some 1) alg [1, 2, 3]
          ctx'.signHashFlags ctx'.pssSaltLen sigsize ≠ none) :=
  ⟨_, _, _, _, rfl, rfl, cng_signature_stream_chunking
    (show cngSignatureDigestSignInit sampleInit 5 (some "SHA256") (some 1)
      (cngSignatureNewctx true none none sampleKeys).2 = some (1, sampleContext) from rfl)
    (by simp [sampleStream, Streaming]) (by simp [sampleStream', Streaming])
    (show message sampleStream = message sampleStream' from rfl)
    (show run (callCtx 5) sampleStream sampleContext = some ([.ret 1, .final ⟨1, 256, none⟩,
      .ret 1], _) from rfl)
    (show run (callCtx 5) sampleStream' sampleContext = some ([.ret 1, .ret 1, .ret 1], _) from rfl)
    (by simp [UpdatesAccepted, sampleStream]) (by simp [UpdatesAccepted, sampleStream'])⟩

end CngSignatureStream
