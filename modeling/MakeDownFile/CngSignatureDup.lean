import MakeDownFile.CngSignatureRuns

/-! # Duplicated signature contexts

A context and its copy live in one world. Each is compared with a run in which only its own
calls happen: the two worlds give the context the same fields, an equal hash object, maybe
under another handle, and equal keys wherever it may look. -/
namespace CngSignatureDup

open CngWorld
open CngKeymgmt
open CngSignature
open CngSignatureRuns
open TraceRuns

/-- Context `d` looks the same in two worlds, as far as the key objects in `K` go. -/
structure SameView (d : Addr) (K : Addr → Prop) (s t : World) : Prop where
  ctx : s.sigctx d = none ∧ t.sigctx d = none ∨
    ∃ x b, s.sigctx d = some x ∧ t.sigctx d = some { x with hashHandle := b } ∧
      x.hashHandle.bind s.hashes = b.bind t.hashes ∧ ∀ p, x.key = some p → K p
  keydata : ∀ p, K p → s.keydata p = t.keydata p
  keys : ∀ p kd, K p → s.keydata p = some kd →
    s.keys kd.windowsKeyHandle = t.keys kd.windowsKeyHandle

variable {d : Addr} {K : Addr → Prop} {s t : World}

theorem same_view_refl {w : World} (h : ∀ x p, w.sigctx d = some x → x.key = some p → K p) :
    SameView d K w w := by
  refine ⟨?_, fun _ _ => rfl, fun _ _ _ _ => rfl⟩
  cases hx : w.sigctx d with
  | none => exact Or.inl ⟨rfl, rfl⟩
  | some x => exact Or.inr ⟨x, x.hashHandle, rfl, rfl, rfl, fun p hp => h x p hx hp⟩

theorem SameView.held (hv : SameView d K s t) {x : SignatureCtx} {p : Addr}
    (hs : s.sigctx d = some x) (hp : x.key = some p) : K p := by
  rcases hv.ctx with ⟨hnone, _⟩ | ⟨y, _, hy, _, _, hkey⟩
  · rw [hs] at hnone
    cases hnone
  · cases hs.symm.trans hy
    exact hkey p hp

def SameResult {ρ : Type} (d : Addr) (K : Addr → Prop) (a b : Option (ρ × World)) : Prop :=
  a = none ∧ b = none ∨ ∃ r s t, a = some (r, s) ∧ b = some (r, t) ∧ SameView d K s t

theorem SameResult.map {ρ ρ' : Type} {a b : Option (ρ × World)} (h : SameResult d K a b)
    (f : ρ → ρ') :
    SameResult d K (a.map fun p => (f p.1, p.2)) (b.map fun p => (f p.1, p.2)) := by
  rcases h with ⟨rfl, rfl⟩ | ⟨r, s, t, rfl, rfl, hv⟩
  · exact Or.inl ⟨rfl, rfl⟩
  · exact Or.inr ⟨f r, s, t, rfl, rfl, hv⟩

section Context

variable {x : SignatureCtx} {b : Option Handle}

theorem SameView.setCtx (hv : SameView d K s t) {y : SignatureCtx} {b : Option Handle}
    (hy : y.hashHandle.bind s.hashes = b.bind t.hashes) (hkey : ∀ p, y.key = some p → K p) :
    SameView d K (s.setCtx d (some y)) (t.setCtx d (some { y with hashHandle := b })) :=
  ⟨Or.inr ⟨y, b, Function.update_self _ _ _, Function.update_self _ _ _, hy, hkey⟩, hv.keydata,
    hv.keys⟩

theorem usable_hash_congr (hx : x.hashHandle.bind s.hashes = b.bind t.hashes) (status : ℕ) :
    usableHash status x.hashHandle s = usableHash status b t := by
  unfold usableHash
  rw [hx]

theorem SameView.setHash (hv : SameView d K s t) (hs : s.sigctx d = some x)
    (ht : t.sigctx d = some { x with hashHandle := b }) {a a' : Handle} (ha : x.hashHandle = some a)
    (ha' : b = some a') (obj : HashObj) : SameView d K (s.setHash a obj) (t.setHash a' obj) := by
  subst ha'
  refine ⟨Or.inr ⟨x, some a', hs, ht, ?_, fun _ => hv.held hs⟩, hv.keydata, hv.keys⟩
  rw [ha]
  simp

theorem init_same (hv : SameView d K s t) (o : InitCalls) (mdname : Option String)
    {provkey : Option Addr} (hk : ∀ p, provkey = some p → K p) :
    SameResult d K (cngSignatureDigestSignInit o d mdname provkey s)
      (cngSignatureDigestSignInit o d mdname provkey t) := by
  rcases hv.ctx with ⟨hs, ht⟩ | ⟨x, b, hs, ht, hhash, _⟩
  · exact Or.inl ⟨by simp [cngSignatureDigestSignInit, hs],
      by simp [cngSignatureDigestSignInit, ht]⟩
  right
  have hkeep : ∀ alg, SameView d K
      (s.setCtx d (some { x with key := provkey, algIdentifier := alg }))
      (t.setCtx d (some { x with key := provkey, algIdentifier := alg, hashHandle := b })) :=
    fun alg => hv.setCtx (y := { x with key := provkey, algIdentifier := alg }) hhash hk
  simp only [cngSignatureDigestSignInit, hs, ht]
  split
  · exact ⟨_, _, _, rfl, rfl, hkeep _⟩
  split
  · exact ⟨_, _, _, rfl, rfl, hkeep _⟩
  split
  · exact ⟨_, _, _, rfl, rfl, hkeep _⟩
  · rename_i alg _
    -- both worlds open a hash of the same algorithm, each under its next handle
    refine ⟨_, _, _, rfl, rfl, Or.inr ⟨_, some t.next, Function.update_self _ _ _,
      Function.update_self _ _ _, ?_, hk⟩, hv.keydata, hv.keys⟩
    simp

theorem update_same (hv : SameView d K s t) (hashData : ℕ) (data : List UInt8) :
    SameResult d K (cngSignatureDigestSignUpdate hashData d data s)
      (cngSignatureDigestSignUpdate hashData d data t) := by
  rcases hv.ctx with ⟨hs, ht⟩ | ⟨x, b, hs, ht, hhash, _⟩
  · exact Or.inl ⟨by simp [cngSignatureDigestSignUpdate, hs],
      by simp [cngSignatureDigestSignUpdate, ht]⟩
  right
  have hsame := usable_hash_congr hhash hashData
  cases huse : usableHash hashData b t with
  | none =>
    rw [huse] at hsame
    exact ⟨0, s, t, by simp [cngSignatureDigestSignUpdate, hs, hsame],
      by simp [cngSignatureDigestSignUpdate, ht, huse], hv⟩
  | some obj =>
    rw [huse] at hsame
    obtain ⟨a, ha, -⟩ := usable_hash hsame
    obtain ⟨a', ha', -⟩ := usable_hash huse
    subst ha'
    let obj' : HashObj :=
      { obj with absorbed := obj.absorbed ++ data.take (data.length % 2 ^ 32) }
    refine ⟨1, s.setHash a obj', t.setHash a' obj', ?_, ?_, hv.setHash hs ht ha rfl obj'⟩
    · rw [ha] at hsame
      simp only [cngSignatureDigestSignUpdate, hs, ha, hsame]
      rfl
    · simp only [cngSignatureDigestSignUpdate, ht, huse]
      rfl

theorem sign_hash_same (hv : SameView d K s t) {key : Option Addr}
    (hkey : ∀ p, key = some p → K p) (status : ℕ) :
    nCryptSignHash status key s = nCryptSignHash status key t := by
  cases key with
  | none => rfl
  | some p =>
    simp only [nCryptSignHash, ← hv.keydata p (hkey p rfl)]
    cases hkd : s.keydata p with
    | none => rfl
    | some kd => simp only [hv.keys p kd (hkey p rfl) hkd]

theorem final_same (hv : SameView d K s t) (o : FinalCalls) (sig : Bool) (siglen sigsize : ℕ) :
    SameResult d K (cngSignatureDigestSignFinal o d sig siglen sigsize s)
      (cngSignatureDigestSignFinal o d sig siglen sigsize t) := by
  rcases hv.ctx with ⟨hs, ht⟩ | ⟨x, b, hs, ht, hhash, hkey⟩
  · exact Or.inl ⟨by simp [cngSignatureDigestSignFinal, hs],
      by simp [cngSignatureDigestSignFinal, ht]⟩
  have huse := usable_hash_congr hhash o.finishHash
  have hsign := sign_hash_same hv hkey o.signHash
  have hpad : paddingInfo { x with hashHandle := b } = paddingInfo x := rfl
  have hfail : ∀ r : FinalReply, SameResult d K (some (r, s)) (some (r, t)) := fun r =>
    Or.inr ⟨r, s, t, rfl, rfl, hv⟩
  cases hobj : b.bind t.hashes with
  | none =>
    rw [hobj] at hhash
    refine Or.inr ⟨⟨0, siglen, none⟩, s, t, ?_, ?_, hv⟩
    · simp only [cngSignatureDigestSignFinal, hs, hhash]
      cases x.hashHandle <;> rfl
    · simp only [cngSignatureDigestSignFinal, ht, hobj]
  | some obj =>
    rw [hobj] at hhash
    obtain ⟨a, ha, -⟩ := Option.bind_eq_some_iff.mp hhash
    obtain ⟨a', rfl, -⟩ := Option.bind_eq_some_iff.mp hobj
    rw [ha] at hhash huse
    simp only [cngSignatureDigestSignFinal, hs, ht, ha, hhash, hobj, huse, hsign, hpad]
    have hused := hv.setHash hs ht ha rfl { obj with finished := true }
    have hsign' := sign_hash_same hused hkey o.signHash
    split
    · exact hfail _
    split
    · exact hfail _
    split
    · split
      · exact Or.inl ⟨rfl, rfl⟩
      · exact hfail _
      · exact hfail _
    split
    · exact hfail _
    simp only [hsign']
    split
    · exact Or.inr ⟨_, _, _, rfl, rfl, hused⟩
    · split
      · exact Or.inl ⟨rfl, rfl⟩
      · exact Or.inr ⟨_, _, _, rfl, rfl, hused⟩
      · exact Or.inr ⟨_, _, _, rfl, rfl, hused⟩

theorem pad_mode_hash_handle (pad : Option ParamData) (x : SignatureCtx) (b : Option Handle) :
    setPadMode pad { x with hashHandle := b } =
      (setPadMode pad x).map fun p => (p.1, { p.2 with hashHandle := b }) := by
  unfold setPadMode
  repeat' split
  all_goals rfl

theorem salt_len_hash_handle (hx : x.hashHandle.bind s.hashes = b.bind t.hashes)
    (o : PropertyRead) (salt : Option ParamData) :
    setSaltLen o salt t { x with hashHandle := b } =
      (setSaltLen o salt s x).map fun p => (p.1, { p.2 with hashHandle := b }) := by
  unfold setSaltLen
  simp only [hx]
  repeat' split
  all_goals rfl

theorem set_params_same (hv : SameView d K s t) (o : PropertyRead) (params : List OsslParam) :
    SameResult d K (cngSignatureSetCtxParams o d params s)
      (cngSignatureSetCtxParams o d params t) := by
  unfold cngSignatureSetCtxParams
  simp only
  split
  · exact Or.inr ⟨0, s, t, rfl, rfl, hv⟩
  rcases hv.ctx with ⟨hs, ht⟩ | ⟨x, b, hs, ht, hhash, hkey⟩
  · exact Or.inl ⟨by simp only [hs], by simp only [ht]⟩
  simp only [hs, ht, pad_mode_hash_handle]
  cases hpad : setPadMode (osslParamLocate params osslSignatureParamPadMode) x with
  | none => exact Or.inl ⟨rfl, rfl⟩
  | some p =>
    obtain ⟨ok, y⟩ := p
    have hy := (pad_mode_ctx hpad).1
    have hyhash : y.hashHandle.bind s.hashes = b.bind t.hashes := by rw [hy]; exact hhash
    have hykey : ∀ p, y.key = some p → K p := by rw [hy]; exact hkey
    cases ok with
    | false => exact Or.inr ⟨0, _, _, rfl, rfl, hv.setCtx hyhash hykey⟩
    | true =>
      simp only [Option.map_some, salt_len_hash_handle hyhash]
      cases hsalt : setSaltLen o (osslParamLocate params osslSignatureParamPssSaltlen) s y with
      | none => exact Or.inl ⟨rfl, rfl⟩
      | some q =>
        obtain ⟨ok', z⟩ := q
        have hz := salt_len_ctx hsalt
        refine Or.inr ⟨_, _, _, rfl, rfl, hv.setCtx ?_ ?_⟩
        · rw [hz]; exact hyhash
        · rw [hz]; exact hykey

theorem free_same (hv : SameView d K s t) :
    SameResult d K ((cngSignatureFreectx d s).map fun w => (Reply.void, w))
      ((cngSignatureFreectx d t).map fun w => (Reply.void, w)) := by
  rcases hv.ctx with ⟨hs, ht⟩ | ⟨x, b, hs, ht, _, _⟩
  · exact Or.inl ⟨by simp [cngSignatureFreectx, hs], by simp [cngSignatureFreectx, ht]⟩
  · simp only [cngSignatureFreectx, hs, ht]
    exact Or.inr ⟨_, _, _, rfl, rfl,
      Or.inl ⟨Function.update_self _ _ _, Function.update_self _ _ _⟩, hv.keydata, hv.keys⟩

/-- A call on the context gets the same reply in both worlds, which stay alike. -/
theorem call_same (hv : SameView d K s t) {e : CtxCall} (hdup : ∀ o, e ≠ .dup o)
    (hinit : ∀ o mdname p, e = .init o mdname (some p) → K p) :
    SameResult d K (callCtx d e s) (callCtx d e t) := by
  cases e with
  | init o mdname provkey =>
    exact (init_same hv o mdname fun p hp => hinit o mdname p (by rw [hp])).map Reply.ret
  | update hashData data => exact (update_same hv hashData data).map Reply.ret
  | setParams o params => exact (set_params_same hv o params).map Reply.ret
  | final o sig siglen sigsize => exact (final_same hv o sig siglen sigsize).map Reply.final
  | dup o => exact absurd rfl (hdup o)
  | free => exact free_same hv

end Context

/-- What happens in one world only leaves the view alone when it spares the context, its
hash and the keys it may still look at. -/
theorem SameView.left (hv : SameView d K s t) {s' : World} {K' : Addr → Prop}
    (hK : ∀ p, K' p → K p) (hheld : ∀ x p, s.sigctx d = some x → x.key = some p → K' p)
    (hsig : s'.sigctx d = s.sigctx d)
    (hhash : ∀ x b, s.sigctx d = some x → x.hashHandle = some b → s'.hashes b = s.hashes b)
    (hkeydata : ∀ p, K' p → s'.keydata p = s.keydata p)
    (hkeys : ∀ p kd, K' p → s.keydata p = some kd →
      s'.keys kd.windowsKeyHandle = s.keys kd.windowsKeyHandle) : SameView d K' s' t := by
  refine ⟨?_, fun p hp => (hkeydata p hp).trans (hv.keydata p (hK p hp)), fun p kd hp hkd => ?_⟩
  · rw [hsig]
    rcases hv.ctx with hnone | ⟨x, b, hs, ht, hx, _⟩
    · exact Or.inl hnone
    · refine Or.inr ⟨x, b, hs, ht, ?_, fun p hp => hheld x p hs hp⟩
      cases ha : x.hashHandle with
      | none => rw [ha] at hx; exact hx
      | some a =>
        rw [ha] at hx
        exact (hhash x a hs ha).trans hx
  · rw [hkeydata p hp] at hkd
    exact (hkeys p kd hp hkd).trans (hv.keys p kd (hK p hp) hkd)

theorem keymgmt_free_defined {w : World} {p : Addr} :
    cngKeymgmtFree (some p) w = none ↔ w.keydata p = none := by
  cases h : w.keydata p <;> simp [cngKeymgmtFree, h]

/-- Calls made after a duplication: on the original, on the copy, and the release of a key
object by its owner. -/
inductive PairCall where
  | original (e : CtxCall)
  | copy (e : CtxCall)
  | freeKey (p : Addr)
  deriving DecidableEq, Repr

def callPair (c d : Addr) : PairCall → World → Option (Reply × World)
  | .original e, w => callCtx c e w
  | .copy e, w => callCtx d e w
  | .freeKey p, w => (cngKeymgmtFree (some p) w).map fun w => (.void, w)

/-- Key objects are freed on the side of the original. -/
def PairCall.ofOriginal : PairCall → Bool
  | .original _ => true
  | .copy _ => false
  | .freeKey _ => true

def PairCall.ofCopy : PairCall → Bool
  | .original _ => false
  | .copy _ => true
  | .freeKey _ => false

def NoDup (es : List PairCall) : Prop :=
  ∀ o, PairCall.original (.dup o) ∉ es ∧ PairCall.copy (.dup o) ∉ es

theorem NoDup.tail {e : PairCall} {es : List PairCall} (h : NoDup (e :: es)) : NoDup es :=
  fun o => ⟨fun hm => (h o).1 (List.mem_cons_of_mem _ hm),
    fun hm => (h o).2 (List.mem_cons_of_mem _ hm)⟩

def givenKey : CtxCall → Option Addr
  | .init _ _ provkey => provkey
  | _ => none

def heldAfter (held : Option Addr) : CtxCall → Option Addr
  | .init _ _ provkey => provkey
  | .free => none
  | _ => held

/-- The key object the copy holds is not freed under it, and the copy is not given one
that has been freed. -/
def KeysUnused : Option Addr → List Addr → List PairCall → Prop
  | _, _, [] => True
  | held, freed, .original _ :: es => KeysUnused held freed es
  | held, freed, .copy e :: es =>
    (∀ p, givenKey e = some p → p ∉ freed) ∧ KeysUnused (heldAfter held e) freed es
  | held, freed, .freeKey p :: es => held ≠ some p ∧ KeysUnused held (p :: freed) es

theorem call_pair_well_formed {c d : Addr} {e : PairCall} {w : World} (hw : WellFormed w) :
    WellFormed (answer (callPair c d) e w).2 := by
  unfold answer
  split
  · exact hw
  · rename_i r w' h
    cases e with
    | original e => exact hw.callCtx h
    | copy e => exact hw.callCtx h
    | freeKey p =>
      obtain ⟨v, hv, heq⟩ := Option.map_eq_some_iff.mp h
      cases heq
      exact hw.keymgmtFree hv

section Pair

variable {c d : Addr} {es : List PairCall} {s t : World}

theorem SameResult.answered {ε : Type} {f : ε → World → Option (Reply × World)} {e : ε}
    {K : Addr → Prop} (hv : SameView d K s t) (h : SameResult d K (f e s) (f e t)) :
    (answer f e s).1 = (answer f e t).1 ∧ SameView d K (answer f e s).2 (answer f e t).2 := by
  unfold answer
  rcases h with ⟨hs, ht⟩ | ⟨r, s', t', hs, ht, hv'⟩
  · rw [hs, ht]
    exact ⟨rfl, hv⟩
  · rw [hs, ht]
    exact ⟨rfl, hv'⟩

theorem answer_frame {e : CtxCall} (hw : WellFormed s) (hcd : d ≠ c) (hdup : ∀ o, e ≠ .dup o) :
    (answer (callCtx c) e s).2.sigctx d = s.sigctx d ∧
      (answer (callCtx c) e s).2.keydata = s.keydata ∧ (answer (callCtx c) e s).2.keys = s.keys ∧
      ∀ x b, s.sigctx d = some x → x.hashHandle = some b →
        (answer (callCtx c) e s).2.hashes b = s.hashes b := by
  unfold answer
  split
  · exact ⟨rfl, rfl, rfl, fun _ _ _ _ => rfl⟩
  · rename_i r s' h
    exact call_ctx_frame hw hdup hcd h

theorem SameView.other_call {e : CtxCall} {K : Addr → Prop} (hw : WellFormed s) (hcd : d ≠ c)
    (hdup : ∀ o, e ≠ .dup o) (hv : SameView d K s t) :
    SameView d K (answer (callCtx c) e s).2 t := by
  obtain ⟨hsig, hkeydata, hkeys, hhash⟩ := answer_frame hw hcd hdup
  exact hv.left (fun _ h => h) (fun _ _ => hv.held) hsig hhash (fun _ _ => by rw [hkeydata])
    (fun _ _ _ _ => by rw [hkeys])

theorem SameView.other_key {p : Addr} {freed : List Addr} (hw : WellFormed s)
    (hv : SameView d (· ∉ freed) s t)
    (hheld : ∀ x, s.sigctx d = some x → x.key ≠ some p) :
    SameView d (· ∉ p :: freed) (answer (callPair c d) (.freeKey p) s).2 t := by
  have hspare : ∀ {q}, q ∉ p :: freed → q ≠ p ∧ q ∉ freed := by
    intro q hq
    rwa [List.mem_cons, not_or] at hq
  have hkept : ∀ x q, s.sigctx d = some x → x.key = some q → q ∉ p :: freed := by
    intro x q hx hq
    rw [List.mem_cons, not_or]
    refine ⟨?_, hv.held hx hq⟩
    rintro rfl
    exact hheld x hx hq
  cases hfree : cngKeymgmtFree (some p) s with
  | none =>
    simp only [answer, callPair, hfree]
    exact hv.left (fun _ h => (hspare h).2) hkept rfl (fun _ _ _ _ => rfl) (fun _ _ => rfl)
      (fun _ _ _ _ => rfl)
  | some s' =>
    simp only [answer, callPair, hfree]
    obtain ⟨hsig, hhash, _, hkeydata, hkeys⟩ := keymgmt_free_frame hw hfree
    exact hv.left (fun _ h => (hspare h).2) hkept (congrFun hsig d)
      (fun _ _ _ _ => congrFun hhash _) (fun q h => hkeydata q (hspare h).1)
      (fun q kd h => hkeys q kd (hspare h).1)

theorem SameView.free_key {p : Addr} (hs : WellFormed s) (ht : WellFormed t)
    (hv : SameView c (fun _ => True) s t) :
    SameResult c (fun _ => True) (callPair c d (.freeKey p) s) (callPair c d (.freeKey p) t) := by
  have hdef : cngKeymgmtFree (some p) s = none ↔ cngKeymgmtFree (some p) t = none := by
    rw [keymgmt_free_defined, keymgmt_free_defined, hv.keydata p trivial]
  cases hsf : cngKeymgmtFree (some p) s with
  | none => exact Or.inl ⟨by simp [callPair, hsf], by simp [callPair, hdef.mp hsf]⟩
  | some s' =>
    have htn : cngKeymgmtFree (some p) t ≠ none := fun hn => nomatch hsf.symm.trans (hdef.mpr hn)
    obtain ⟨t', htf⟩ := Option.ne_none_iff_exists'.mp htn
    obtain ⟨hssig, hshash, hsp, hskd, hskeys⟩ := keymgmt_free_frame hs hsf
    obtain ⟨htsig, hthash, htp, htkd, htkeys⟩ := keymgmt_free_frame ht htf
    refine Or.inr ⟨.void, s', t', by simp [callPair, hsf], by simp [callPair, htf], ?_, ?_, ?_⟩
    · rw [hssig, htsig, hshash, hthash]
      exact hv.ctx
    · intro q _
      by_cases hq : q = p
      · rw [hq, hsp, htp]
      · rw [hskd q hq, htkd q hq, hv.keydata q trivial]
    · intro q kd _ hkd
      by_cases hq : q = p
      · rw [hq, hsp] at hkd
        cases hkd
      · rw [hskd q hq] at hkd
        rw [hskeys q kd hq hkd, hv.keys q kd trivial hkd]
        rw [hv.keydata q trivial] at hkd
        exact (htkeys q kd hq hkd).symm

structure OriginalRel (c : Addr) (es : List PairCall) (s t : World) : Prop where
  full : WellFormed s
  alone : WellFormed t
  noDup : NoDup es
  view : SameView c (fun _ => True) s t

/-- For the copy some key objects may be gone, none of which it will look at again. -/
structure CopyRel (d : Addr) (es : List PairCall) (s t : World) : Prop where
  full : WellFormed s
  noDup : NoDup es
  keys : ∃ held freed, KeysUnused held freed es ∧ SameView d (· ∉ freed) s t ∧
    ∀ x p, s.sigctx d = some x → x.key = some p → held = some p

theorem original_step {e : PairCall} (he : e.ofOriginal = true)
    (h : OriginalRel c (e :: es) s t) :
    (answer (callPair c d) e s).1 = (answer (callPair c d) e t).1 ∧
      OriginalRel c es (answer (callPair c d) e s).2 (answer (callPair c d) e t).2 := by
  have hsame : SameResult c (fun _ => True) (callPair c d e s) (callPair c d e t) := by
    cases e with
    | original e =>
      refine call_same h.view (fun o ho => (h.noDup o).1 ?_) (fun _ _ _ _ => trivial)
      rw [ho]
      exact List.mem_cons_self
    | copy e => cases he
    | freeKey p => exact h.view.free_key h.full h.alone
  obtain ⟨hans, hview⟩ := hsame.answered h.view
  exact ⟨hans, call_pair_well_formed h.full, call_pair_well_formed h.alone, h.noDup.tail, hview⟩

theorem original_hidden {e : PairCall} (hcd : c ≠ d) (he : e.ofOriginal = false)
    (h : OriginalRel c (e :: es) s t) : OriginalRel c es (answer (callPair c d) e s).2 t := by
  refine ⟨call_pair_well_formed h.full, h.alone, h.noDup.tail, ?_⟩
  cases e with
  | original e => cases he
  | copy e =>
    refine h.view.other_call h.full hcd fun o ho => (h.noDup o).2 ?_
    rw [ho]
    exact List.mem_cons_self
  | freeKey p => cases he

theorem init_undefined {o : InitCalls} {mdname : Option String} {provkey : Option Addr}
    (h : cngSignatureDigestSignInit o d mdname provkey s = none) : s.sigctx d = none := by
  unfold cngSignatureDigestSignInit at h
  split at h
  · assumption
  · simp only at h
    repeat' split at h
    all_goals cases h

theorem held_after {e : CtxCall} {held : Option Addr} (hdup : ∀ o, e ≠ .dup o)
    (hheld : ∀ x p, s.sigctx d = some x → x.key = some p → held = some p) {x : SignatureCtx}
    {p : Addr} (hx : (answer (callCtx d) e s).2.sigctx d = some x) (hp : x.key = some p) :
    heldAfter held e = some p := by
  cases h : callCtx d e s with
  | none =>
    simp only [answer, h] at hx
    have hold := hheld x p hx hp
    cases e with
    | init o mdname provkey =>
      have := init_undefined (Option.map_eq_none_iff.mp h)
      rw [hx] at this
      cases this
    | free => simp [callCtx, cngSignatureFreectx, hx] at h
    | _ => exact hold
  | some q =>
    obtain ⟨r, s'⟩ := q
    simp only [answer, h] at hx
    have h' := call_ctx_cases h
    cases e with
    | init o mdname provkey =>
      obtain ⟨_, _, h'⟩ := h'
      obtain ⟨ctx, _, ⟨alg, _, _, rfl⟩ | ⟨_, _, rfl⟩⟩ := init_cases h'
      all_goals
        rw [World.setCtx_sigctx, Function.update_self] at hx
        cases hx
        exact hp
    | update hashData data =>
      obtain ⟨_, _, h'⟩ := h'
      obtain ⟨ctx, _, ⟨_, rfl⟩ | ⟨_, _, _, _, _, _, rfl⟩⟩ := update_cases h'
      all_goals exact hheld x p hx hp
    | setParams o params =>
      obtain ⟨_, _, h'⟩ := h'
      rcases set_params_frame h' with rfl | ⟨ctx, _, _, hctx, rfl⟩
      · exact hheld x p hx hp
      · rw [World.setCtx_sigctx, Function.update_self] at hx
        cases hx
        exact hheld ctx p hctx hp
    | final o sig siglen sigsize =>
      obtain ⟨_, _, h'⟩ := h'
      obtain ⟨ctx, _, ⟨rfl, _⟩ | ⟨_, _, _, _, _, _, rfl, _⟩⟩ := final_cases h'
      all_goals exact hheld x p hx hp
    | dup o => exact absurd rfl (hdup o)
    | free =>
      obtain ⟨_, h'⟩ := h'
      rw [freectx_gone h'] at hx
      cases hx

theorem copy_step {e : PairCall} (he : e.ofCopy = true) (h : CopyRel d (e :: es) s t) :
    (answer (callPair c d) e s).1 = (answer (callPair c d) e t).1 ∧
      CopyRel d es (answer (callPair c d) e s).2 (answer (callPair c d) e t).2 := by
  obtain ⟨held, freed, hkeys, hview, hheld⟩ := h.keys
  cases e with
  | original e => cases he
  | freeKey p => cases he
  | copy e =>
    have hdup : ∀ o, e ≠ .dup o := by
      rintro o rfl
      exact (h.noDup o).2 List.mem_cons_self
    have hinit : ∀ o mdname p, e = .init o mdname (some p) → p ∉ freed := by
      rintro o mdname p rfl
      exact hkeys.1 p rfl
    obtain ⟨hans, hview'⟩ := (call_same hview hdup hinit).answered hview
    exact ⟨hans, call_pair_well_formed h.full, h.noDup.tail, heldAfter held e, freed, hkeys.2,
      hview', fun x p hx hp => held_after hdup hheld hx hp⟩

theorem copy_hidden {e : PairCall} (hcd : d ≠ c) (he : e.ofCopy = false)
    (h : CopyRel d (e :: es) s t) : CopyRel d es (answer (callPair c d) e s).2 t := by
  obtain ⟨held, freed, hkeys, hview, hheld⟩ := h.keys
  have hfull : WellFormed (answer (callPair c d) e s).2 := call_pair_well_formed h.full
  cases e with
  | original e =>
    have hdup : ∀ o, e ≠ .dup o := by
      rintro o rfl
      exact (h.noDup o).1 List.mem_cons_self
    refine ⟨hfull, h.noDup.tail, held, freed, hkeys, hview.other_call h.full hcd hdup,
      fun x p hx => hheld x p ?_⟩
    rw [← hx]
    exact (answer_frame h.full hcd hdup).1.symm
  | copy e => cases he
  | freeKey p =>
    have hspared : ∀ x, s.sigctx d = some x → x.key ≠ some p := fun x hx hp =>
      hkeys.1 (hheld x p hx hp)
    refine ⟨hfull, h.noDup.tail, held, p :: freed, hkeys.2, hview.other_key h.full hspared,
      fun x q hx => hheld x q ?_⟩
    rw [← hx]
    unfold answer
    split
    · rfl
    · rename_i hfree
      obtain ⟨v, hv, heq⟩ := Option.map_eq_some_iff.mp hfree
      cases heq
      exact (congrFun (keymgmt_free_frame h.full hv).1 d).symm

end Pair

/-- The copy is a new context with a key object of its own. -/
theorem dupctx_returned {o : DupctxCalls} {c d : Addr} {w₀ w : World} (hw : WellFormed w₀)
    (h : cngSignatureDupctx o c w₀ = some (some d, w)) :
    d ≠ c ∧ ∀ p, (w.sigctx d).bind SignatureCtx.key = some p → w₀.keydata p = none := by
  obtain ⟨old, hold, ⟨hd, _⟩ | ⟨obj, key, v, _, hdup, ⟨hd, _⟩ | ⟨hd, _, rfl⟩⟩⟩ := dupctx_cases h
  · cases hd
  · cases hd
  cases hd
  refine ⟨(hw.fresh.sigctx_lt hold).ne', fun p hp => ?_⟩
  rw [World.setCtx_sigctx, Function.update_self, Option.bind_some] at hp
  have hu : Fresh ((w₀.addCtx ⟨old.provctx, old.propq, none, none, none, 0, 0⟩).addHash
      (.duplicateHash (w₀.next + 1)) obj) := (hw.fresh.addCtx _).addHash _ _
  rcases keymgmt_dup_cases hu hdup with ⟨rfl, _⟩ | ⟨_, _, _, _, _, _, rfl, _⟩
  · cases hp
  · cases hp
    exact hw.fresh.keydata _ (Nat.le_succ_of_le (Nat.le_succ _))

/-- What a context signs with at a moment: its fields, its hash object and its key. -/
def contents (w : World) (x : SignatureCtx) : SignatureCtx × Option HashObj × Option NKey :=
  ({ x with key := none, hashHandle := none }, x.hashHandle.bind w.hashes,
    (x.key.bind w.keydata).bind fun kd => w.keys kd.windowsKeyHandle)

/-- The copy starts with the contents of the original. -/
theorem dupctx_copies {o : DupctxCalls} {c d : Addr} {w₀ w : World} (hw : WellFormed w₀)
    (h : cngSignatureDupctx o c w₀ = some (some d, w)) :
    ∃ x y, w₀.sigctx c = some x ∧ w.sigctx d = some y ∧ contents w y = contents w₀ x := by
  obtain ⟨old, hold, ⟨hd, _⟩ | ⟨obj, key, v, hobj, hdup, ⟨hd, _⟩ | ⟨hd, hkey, rfl⟩⟩⟩ :=
    dupctx_cases h
  · cases hd
  · cases hd
  cases hd
  obtain ⟨b, hb, hhash, -, -⟩ := usable_hash hobj
  have hu : Fresh ((w₀.addCtx ⟨old.provctx, old.propq, none, none, none, 0, 0⟩).addHash
      (.duplicateHash (w₀.next + 1)) obj) := (hw.fresh.addCtx _).addHash _ _
  refine ⟨old, _, hold, Function.update_self _ _ _, Prod.ext rfl (Prod.ext ?_ ?_)⟩
  · -- the hash object is a duplicate
    show v.hashes (w₀.next + 1) = old.hashHandle.bind w₀.hashes
    rw [hb, Option.bind_some, hhash]
    rcases keymgmt_dup_cases hu hdup with ⟨_, rfl | rfl⟩ | ⟨_, _, _, _, _, _, _, rfl⟩
    all_goals simp
  · -- the key is opened again
    simp only [contents]
    rcases keymgmt_dup_cases hu hdup with ⟨rfl, _⟩ | ⟨p, kd, k, hp, hkd, hk, rfl, rfl⟩
    · simp [hkey rfl]
    · simp only [World.addHash_keydata, World.addCtx_keydata] at hkd
      simp only [World.addHash_keys, World.addCtx_keys] at hk
      simp [hp, hkd, hk]

/-- After a duplication, whatever is called on the two contexts in whatever order, each
answers as if its own calls were the only ones. The copy has its own key object, so the
one of the original may be freed. -/
theorem cng_signature_dup_independent {o : DupctxCalls} {c d : Addr} {w₀ w : World}
    (hw : WellFormed w₀) (h : cngSignatureDupctx o c w₀ = some (some d, w)) {es : List PairCall}
    (hdup : NoDup es) (hkeys : KeysUnused ((w.sigctx d).bind SignatureCtx.key) [] es) :
    answers (callPair c d) PairCall.ofOriginal es w =
        answers (callPair c d) (fun _ => true) (es.filter PairCall.ofOriginal) w ∧
      answers (callPair c d) PairCall.ofCopy es w =
        answers (callPair c d) (fun _ => true) (es.filter PairCall.ofCopy) w ∧
      ∀ p, (w.sigctx d).bind SignatureCtx.key = some p → w₀.keydata p = none := by
  obtain ⟨hcd, hown⟩ := dupctx_returned hw h
  have hw' : WellFormed w := hw.dupctx h
  refine ⟨?_, ?_, hown⟩
  · exact answers_filter (R := OriginalRel c) (fun _ _ _ _ => original_step)
      (fun _ _ _ _ => original_hidden hcd.symm)
      ⟨hw', hw', hdup, same_view_refl fun _ _ _ _ => trivial⟩
  · refine answers_filter (R := CopyRel d) (fun _ _ _ _ => copy_step)
      (fun _ _ _ _ => copy_hidden hcd) ⟨hw', hdup, _, [], hkeys, ?_, fun x p hx hp => ?_⟩
    · exact same_view_refl fun _ _ _ _ => List.not_mem_nil
    · rw [hx, Option.bind_some, hp]

def sampleCopy : DupctxCalls :=
  ⟨true, 0, ⟨true, ⟨⟨0, 4⟩, ⟨0, 8⟩, ⟨0, 2⟩, true, ⟨0, 2⟩, 0⟩⟩⟩

/-- The original signs and goes away with its key before the copy signs. -/
def sampleCalls : List PairCall :=
  [.original (.update 0 [1]), .copy (.update 0 [2]),
    .copy (.setParams ⟨0, 4⟩ [⟨"pad-mode", .utf8String "pkcs1"⟩]),
    .original (.final ⟨0, true, 0, true, 0, 256⟩ true 0 256), .original .free, .freeKey 1,
    .copy (.final ⟨0, true, 0, true, 0, 256⟩ true 0 256), .copy .free]

theorem cng_signature_dup_independent_sample : ∃ w,
    cngSignatureDupctx sampleCopy 5 sampleContext = some (some 7, w) ∧
    answers (callPair 5 7) PairCall.ofOriginal sampleCalls w =
        answers (callPair 5 7) (fun _ => true) (sampleCalls.filter PairCall.ofOriginal) w ∧
      answers (callPair 5 7) PairCall.ofCopy sampleCalls w =
        answers (callPair 5 7) (fun _ => true) (sampleCalls.filter PairCall.ofCopy) w ∧
      ∀ p, (w.sigctx 7).bind SignatureCtx.key = some p → sampleContext.keydata p = none :=
  ⟨_, rfl, cng_signature_dup_independent sample_context_well_formed
    (show cngSignatureDupctx sampleCopy 5 sampleContext = some (some 7, _) from rfl)
    (by simp [NoDup, sampleCalls])
    (show KeysUnused (some 9) [] sampleCalls by
      simp [KeysUnused, sampleCalls, givenKey, heldAfter])⟩

-- the copy signs its own bytes with its own key object
example : ((cngSignatureDupctx sampleCopy 5 sampleContext).map fun r =>
    answers (callPair 5 7) PairCall.ofCopy sampleCalls r.2) =
    some [some (.ret 1), some (.ret 1), some (.final ⟨1, 256, some ⟨9, ⟨1, [1], 0⟩,
      .pkcs1 (some .sha256), .sha256, [2], 256, 2⟩⟩), some .void] := by decide

end CngSignatureDup
