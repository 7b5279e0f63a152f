import MakeDownFile.CngSignature
import MakeDownFile.TraceRuns

/-! # Calls on signature contexts and the states they reach

A hash handle belongs to one context and an open key handle to one key object. Every call
keeps this, so nothing done to one context reaches the hash of another. -/
namespace CngSignatureRuns

open CngWorld
open CngKeymgmt
open CngSignature
open TraceRuns

structure WellFormed (w : World) : Prop where
  fresh : Fresh w
  hash_lt : ∀ {c ctx h}, w.sigctx c = some ctx → ctx.hashHandle = some h → h < w.next
  hash_unshared : ∀ {c c' ctx ctx' h}, w.sigctx c = some ctx → w.sigctx c' = some ctx' →
    ctx.hashHandle = some h → ctx'.hashHandle = some h → c = c'
  handle_lt : ∀ {p kd}, w.keydata p = some kd → kd.windowsKeyHandle < w.next
  key_unshared : ∀ {p p' kd k}, w.keydata p = some kd → w.keydata p' = some kd →
    w.keys kd.windowsKeyHandle = some k → p = p'

theorem initial_well_formed : WellFormed initial := by
  refine ⟨initial_fresh, ?_, ?_, ?_, ?_⟩ <;> simp [initial]

namespace WellFormed

variable {w : World} (hw : WellFormed w)
include hw

theorem addCtx {ctx : SignatureCtx} (hh : ctx.hashHandle = none) : WellFormed (w.addCtx ctx) := by
  have hold : ∀ {c x h}, (w.addCtx ctx).sigctx c = some x → x.hashHandle = some h →
      w.sigctx c = some x := by
    intro c x h hc hx
    by_cases hn : c = w.next
    · subst hn
      rw [World.addCtx_sigctx, Function.update_self] at hc
      cases hc
      rw [hh] at hx
      cases hx
    · rwa [World.addCtx_sigctx, Function.update_of_ne hn] at hc
  exact ⟨hw.fresh.addCtx _, fun hc hx => Nat.lt_succ_of_lt (hw.hash_lt (hold hc hx) hx),
    fun hc hc' hx hx' => hw.hash_unshared (hold hc hx) (hold hc' hx') hx hx',
    fun hp => Nat.lt_succ_of_lt (hw.handle_lt hp), hw.key_unshared⟩

theorem addHash (e : SysCall) (obj : HashObj) : WellFormed (w.addHash e obj) :=
  ⟨hw.fresh.addHash _ _, fun hc hx => Nat.lt_succ_of_lt (hw.hash_lt hc hx), hw.hash_unshared,
    fun hp => Nat.lt_succ_of_lt (hw.handle_lt hp), hw.key_unshared⟩

theorem setHash {b : Handle} (hb : b < w.next) (obj : HashObj) : WellFormed (w.setHash b obj) :=
  ⟨hw.fresh.setHash hb _, hw.hash_lt, hw.hash_unshared, hw.handle_lt, hw.key_unshared⟩

theorem destroyHash (b : Option Handle) : WellFormed (w.destroyHash b) :=
  ⟨hw.fresh.destroyHash _, hw.hash_lt, hw.hash_unshared, hw.handle_lt, hw.key_unshared⟩

theorem setCtx {c : Addr} {ctx : Option SignatureCtx} (hc : c < w.next)
    (hh : ∀ x h, ctx = some x → x.hashHandle = some h → h < w.next ∧
      ∀ c' x', c' ≠ c → w.sigctx c' = some x' → x'.hashHandle ≠ some h) :
    WellFormed (w.setCtx c ctx) := by
  have hcases : ∀ {c' x}, (w.setCtx c ctx).sigctx c' = some x →
      (c' = c ∧ ctx = some x) ∨ (c' ≠ c ∧ w.sigctx c' = some x) := by
    intro c' x hx
    by_cases hcc : c' = c
    · subst hcc
      rw [World.setCtx_sigctx, Function.update_self] at hx
      exact Or.inl ⟨rfl, hx⟩
    · rw [World.setCtx_sigctx, Function.update_of_ne hcc] at hx
      exact Or.inr ⟨hcc, hx⟩
  refine ⟨hw.fresh.setCtx hc _, fun hx hb => ?_, fun hx hx' hb hb' => ?_, hw.handle_lt,
    hw.key_unshared⟩
  · rcases hcases hx with ⟨_, h⟩ | ⟨_, h⟩
    · exact (hh _ _ h hb).1
    · exact hw.hash_lt h hb
  · rcases hcases hx with ⟨rfl, h⟩ | ⟨hne, h⟩ <;> rcases hcases hx' with ⟨rfl, h'⟩ | ⟨hne', h'⟩
    · rfl
    · exact absurd hb' ((hh _ _ h hb).2 _ _ hne' h')
    · exact absurd hb ((hh _ _ h' hb').2 _ _ hne h)
    · exact hw.hash_unshared h h' hb hb'

theorem updateCtx {c : Addr} {ctx ctx' : SignatureCtx} (hc : w.sigctx c = some ctx)
    (hh : ctx'.hashHandle = ctx.hashHandle) : WellFormed (w.setCtx c (some ctx')) := by
  refine hw.setCtx (hw.fresh.sigctx_lt hc) fun x h hx hb => ?_
  cases hx
  rw [hh] at hb
  exact ⟨hw.hash_lt hc hb, fun c' x' hne hx' hb' => hne (hw.hash_unshared hx' hc hb' hb)⟩

theorem addKeydata : WellFormed w.addKeydata := by
  have hold : ∀ {p kd}, w.addKeydata.keydata p = some kd →
      kd = ⟨0⟩ ∨ w.keydata p = some kd := by
    intro p kd hp
    by_cases hn : p = w.next
    · subst hn
      rw [World.addKeydata_keydata, Function.update_self] at hp
      exact Or.inl (Option.some.inj hp).symm
    · rw [World.addKeydata_keydata, Function.update_of_ne hn] at hp
      exact Or.inr hp
  refine ⟨hw.fresh.addKeydata, fun hc hx => Nat.lt_succ_of_lt (hw.hash_lt hc hx), hw.hash_unshared,
    fun hp => ?_, fun hp hp' hk => ?_⟩
  · rcases hold hp with rfl | h
    · exact Nat.succ_pos _
    · exact Nat.lt_succ_of_lt (hw.handle_lt h)
  · rcases hold hp with rfl | h
    · rw [World.addKeydata_keys, hw.fresh.null_key] at hk
      cases hk
    · rcases hold hp' with rfl | h'
      · rw [World.addKeydata_keys, hw.fresh.null_key] at hk
        cases hk
      · exact hw.key_unshared h h' hk

theorem openKey {p : Addr} (hp : p < w.next) (e : SysCall) (k : NKey) :
    WellFormed ((w.addKey e k).setKeydata p (some ⟨w.next⟩)) := by
  have hcases : ∀ {q kd}, ((w.addKey e k).setKeydata p (some ⟨w.next⟩)).keydata q = some kd →
      (q = p ∧ kd = ⟨w.next⟩) ∨ (w.keydata q = some kd ∧ kd.windowsKeyHandle < w.next) := by
    intro q kd hq
    by_cases hqp : q = p
    · subst hqp
      rw [World.setKeydata_keydata, Function.update_self] at hq
      exact Or.inl ⟨rfl, (Option.some.inj hq).symm⟩
    · rw [World.setKeydata_keydata, Function.update_of_ne hqp] at hq
      exact Or.inr ⟨hq, hw.handle_lt hq⟩
  refine ⟨(hw.fresh.addKey _ _).setKeydata (Nat.lt_succ_of_lt hp) _,
    fun hc hx => Nat.lt_succ_of_lt (hw.hash_lt hc hx), hw.hash_unshared, fun hq => ?_,
    fun hq hq' hk => ?_⟩
  · rcases hcases hq with ⟨_, rfl⟩ | ⟨_, hlt⟩
    · exact Nat.lt_succ_self _
    · exact Nat.lt_succ_of_lt hlt
  · rcases hcases hq with ⟨rfl, rfl⟩ | ⟨h, hlt⟩
    · rcases hcases hq' with ⟨rfl, _⟩ | ⟨_, hlt⟩
      · rfl
      · exact absurd hlt (Nat.lt_irrefl _)
    · rcases hcases hq' with ⟨_, rfl⟩ | ⟨h', _⟩
      · exact absurd hlt (Nat.lt_irrefl _)
      · rw [World.setKeydata_keys, World.addKey_keys, Function.update_of_ne hlt.ne] at hk
        exact hw.key_unshared h h' hk

theorem freeObject (b : Option Handle) : WellFormed (w.freeObject b) := by
  refine ⟨hw.fresh.freeObject _, hw.hash_lt, hw.hash_unshared, hw.handle_lt, fun hp hp' hk => ?_⟩
  rw [World.freeObject_keys] at hk
  split at hk
  · cases hk
  · exact hw.key_unshared hp hp' hk

theorem dropKeydata {p : Addr} (hp : p < w.next) : WellFormed (w.setKeydata p none) := by
  have hold : ∀ {q kd}, (w.setKeydata p none).keydata q = some kd → w.keydata q = some kd := by
    intro q kd hq
    by_cases hqp : q = p
    · subst hqp
      rw [World.setKeydata_keydata, Function.update_self] at hq
      cases hq
    · rwa [World.setKeydata_keydata, Function.update_of_ne hqp] at hq
  exact ⟨hw.fresh.setKeydata hp _, hw.hash_lt, hw.hash_unshared, fun hq => hw.handle_lt (hold hq),
    fun hq hq' hk => hw.key_unshared (hold hq) (hold hq') hk⟩

theorem keymgmtDup {o : DupCalls} {src r : Option Addr} {w' : World}
    (h : cngKeymgmtDup o src w = some (r, w')) : WellFormed w' := by
  rcases keymgmt_dup_cases hw.fresh h with ⟨_, rfl | rfl⟩ | ⟨p, kd, k, _, _, _, _, rfl⟩
  · exact hw
  · exact hw.addKeydata
  · exact hw.addKeydata.openKey (Nat.lt_succ_self _) _ _

theorem keymgmtNew (malloc : Bool) : WellFormed (cngKeymgmtNew malloc w).2 := by
  unfold cngKeymgmtNew
  split
  · exact hw.addKeydata
  · exact hw

theorem keymgmtFree {p : Option Addr} {w' : World} (h : cngKeymgmtFree p w = some w') :
    WellFormed w' := by
  obtain ⟨p, kd, -, hkd, rfl⟩ := keymgmt_free_cases h
  exact (hw.freeObject _).dropKeydata (hw.fresh.keydata_lt hkd)

theorem newctx (malloc : Bool) (provctx : Option Addr) (propq : Option String) :
    WellFormed (cngSignatureNewctx malloc provctx propq w).2 := by
  unfold cngSignatureNewctx
  split
  · exact hw.addCtx rfl
  · exact hw

end WellFormed

theorem keymgmt_free_frame {w w' : World} (hw : WellFormed w) {p : Addr}
    (h : cngKeymgmtFree (some p) w = some w') :
    w'.sigctx = w.sigctx ∧ w'.hashes = w.hashes ∧ w'.keydata p = none ∧
      (∀ q, q ≠ p → w'.keydata q = w.keydata q) ∧
      ∀ q kd, q ≠ p → w.keydata q = some kd →
        w'.keys kd.windowsKeyHandle = w.keys kd.windowsKeyHandle := by
  obtain ⟨_, kd, ⟨⟩, hkd, rfl⟩ := keymgmt_free_cases h
  refine ⟨rfl, rfl, Function.update_self _ _ _, fun q hq => Function.update_of_ne hq _ _,
    fun q kd' hq hkd' => ?_⟩
  rw [World.setKeydata_keys, World.freeObject_keys]
  split
  · rename_i hsame
    obtain ⟨a⟩ := kd
    obtain ⟨a'⟩ := kd'
    obtain rfl : a' = a := Option.some.inj hsame
    cases hk : w.keys a' with
    | none => rfl
    -- two objects with one open key are the same object
    | some k => exact absurd (hw.key_unshared hkd' hkd hk) hq
  · rfl

inductive CtxCall where
  | init (o : InitCalls) (mdname : Option String) (provkey : Option Addr)
  | update (hashData : ℕ) (data : List UInt8)
  | setParams (o : PropertyRead) (params : List OsslParam)
  | final (o : FinalCalls) (sig : Bool) (siglen sigsize : ℕ)
  | dup (o : DupctxCalls)
  | free
  deriving DecidableEq, Repr

inductive Reply where
  | ret (r : ℤ)
  | final (r : FinalReply)
  | pointer (p : Option Addr)
  | void
  deriving DecidableEq, Repr

def callCtx (c : Addr) : CtxCall → World → Option (Reply × World)
  | .init o mdname provkey, w =>
    (cngSignatureDigestSignInit o c mdname provkey w).map fun p => (.ret p.1, p.2)
  | .update hashData data, w =>
    (cngSignatureDigestSignUpdate hashData c data w).map fun p => (.ret p.1, p.2)
  | .setParams o params, w =>
    (cngSignatureSetCtxParams o c params w).map fun p => (.ret p.1, p.2)
  | .final o sig siglen sigsize, w =>
    (cngSignatureDigestSignFinal o c sig siglen sigsize w).map fun p => (.final p.1, p.2)
  | .dup o, w => (cngSignatureDupctx o c w).map fun p => (.pointer p.1, p.2)
  | .free, w => (cngSignatureFreectx c w).map fun w => (.void, w)

theorem call_ctx_cases {c : Addr} {e : CtxCall} {w w' : World} {r : Reply}
    (h : callCtx c e w = some (r, w')) :
    match e with
    | .init o mdname provkey => ∃ i, r = .ret i ∧
        cngSignatureDigestSignInit o c mdname provkey w = some (i, w')
    | .update hashData data => ∃ i, r = .ret i ∧
        cngSignatureDigestSignUpdate hashData c data w = some (i, w')
    | .setParams o params => ∃ i, r = .ret i ∧
        cngSignatureSetCtxParams o c params w = some (i, w')
    | .final o sig siglen sigsize => ∃ f, r = .final f ∧
        cngSignatureDigestSignFinal o c sig siglen sigsize w = some (f, w')
    | .dup o => ∃ p, r = .pointer p ∧ cngSignatureDupctx o c w = some (p, w')
    | .free => r = .void ∧ cngSignatureFreectx c w = some w' := by
  cases e with
  | free =>
    obtain ⟨v, hv, he⟩ := Option.map_eq_some_iff.mp h
    cases he
    exact ⟨rfl, hv⟩
  | _ =>
    obtain ⟨⟨i, v⟩, hv, he⟩ := Option.map_eq_some_iff.mp h
    cases he
    exact ⟨i, rfl, hv⟩

/-- A duplication leaves everything that was there before as it is. -/
theorem dupctx_frame {w w' : World} (hw : WellFormed w) {o : DupctxCalls} {c : Addr}
    {r : Option Addr} (h : cngSignatureDupctx o c w = some (r, w')) :
    (∀ a, a < w.next → w'.sigctx a = w.sigctx a) ∧ (∀ a, a < w.next → w'.hashes a = w.hashes a) ∧
      (∀ a, a < w.next → w'.keydata a = w.keydata a) ∧
      ∀ a, a < w.next → w'.keys a = w.keys a := by
  have hadd : ∀ ctx a, a < w.next → (w.addCtx ctx).sigctx a = w.sigctx a := fun ctx a ha =>
    Function.update_of_ne ha.ne _ _
  obtain ⟨old, hold, ⟨_, _, rfl | rfl⟩ | ⟨obj, key, v, _, hdup, hcase⟩⟩ := dupctx_cases h
  · exact ⟨fun _ _ => rfl, fun _ _ => rfl, fun _ _ => rfl, fun _ _ => rfl⟩
  · exact ⟨hadd _, fun _ _ => rfl, fun _ _ => rfl, fun _ _ => rfl⟩
  · let u := (w.addCtx ⟨old.provctx, old.propq, none, none, none, 0, 0⟩).addHash
      (.duplicateHash (w.next + 1)) obj
    have hu : Fresh u := (hw.fresh.addCtx _).addHash _ _
    obtain ⟨_, _, _, hkd, hkeys⟩ := frame_keymgmt_dup hu hdup
    have hsame : v.sigctx = u.sigctx ∧ v.hashes = u.hashes := by
      rcases keymgmt_dup_cases hu hdup with ⟨_, rfl | rfl⟩ | ⟨_, _, _, _, _, _, _, rfl⟩ <;>
        exact ⟨rfl, rfl⟩
    have hlt : ∀ a, a < w.next → a < u.next := fun a ha =>
      Nat.lt_succ_of_lt (Nat.lt_succ_of_lt ha)
    have hset : ∀ x a, a < w.next → (v.setCtx w.next x).sigctx a = w.sigctx a := fun x a ha => by
      rw [World.setCtx_sigctx, Function.update_of_ne ha.ne, hsame.1]
      exact hadd _ a ha
    have hhash : ∀ a, a < w.next → v.hashes a = w.hashes a := fun a ha => by
      rw [hsame.2]
      exact Function.update_of_ne (Nat.lt_succ_of_lt ha).ne _ _
    rcases hcase with ⟨_, _, _, rfl⟩ | ⟨_, _, rfl⟩ <;>
      exact ⟨hset _, hhash, fun a ha => hkd a (hlt a ha), fun a ha => hkeys a (hlt a ha)⟩

theorem dupctx_next {w w' : World} (hw : WellFormed w) {o : DupctxCalls} {c : Addr}
    {r : Option Addr} (h : cngSignatureDupctx o c w = some (r, w')) :
    w.next ≤ w'.next ∧ ∀ d, r = some d → d < w'.next := by
  obtain ⟨old, hold, ⟨rfl, _, rfl | rfl⟩ | ⟨obj, key, v, _, hdup, hcase⟩⟩ := dupctx_cases h
  · exact ⟨le_rfl, fun _ hd => nomatch hd⟩
  · exact ⟨Nat.le_succ _, fun _ hd => nomatch hd⟩
  · have hu : Fresh ((w.addCtx ⟨old.provctx, old.propq, none, none, none, 0, 0⟩).addHash
        (.duplicateHash (w.next + 1)) obj) := (hw.fresh.addCtx _).addHash _ _
    obtain ⟨_, hnext, _, _, _⟩ := frame_keymgmt_dup hu hdup
    have hlt : w.next < v.next := (Nat.lt_succ_of_lt (Nat.lt_succ_self _)).trans_le hnext
    rcases hcase with ⟨rfl, _, _, rfl⟩ | ⟨rfl, _, rfl⟩
    · exact ⟨hlt.le, fun _ hd => nomatch hd⟩
    · exact ⟨hlt.le, fun d hd => Option.some.inj hd ▸ hlt⟩

theorem call_ctx_next {c : Addr} {e : CtxCall} {w w' : World} {r : Reply}
    (hdup : ∀ o, e ≠ .dup o) (h : callCtx c e w = some (r, w')) : w.next ≤ w'.next := by
  have h' := call_ctx_cases h
  cases e with
  | init o mdname provkey =>
    obtain ⟨_, _, h'⟩ := h'
    obtain ⟨_, _, ⟨_, _, _, rfl⟩ | ⟨_, _, rfl⟩⟩ := init_cases h'
    · exact Nat.le_succ _
    · exact le_rfl
  | update hashData data =>
    obtain ⟨_, _, h'⟩ := h'
    obtain ⟨_, _, ⟨_, rfl⟩ | ⟨_, _, _, _, _, _, rfl⟩⟩ := update_cases h' <;> exact le_rfl
  | setParams o params =>
    obtain ⟨_, _, h'⟩ := h'
    rcases set_params_frame h' with rfl | ⟨_, _, _, _, rfl⟩ <;> exact le_rfl
  | final o sig siglen sigsize =>
    obtain ⟨_, _, h'⟩ := h'
    obtain ⟨_, _, ⟨rfl, _⟩ | ⟨_, _, _, _, _, _, rfl, _⟩⟩ := final_cases h' <;> exact le_rfl
  | dup o => exact absurd rfl (hdup o)
  | free =>
    obtain ⟨_, h'⟩ := h'
    obtain ⟨_, _, rfl⟩ := freectx_cases h'
    exact le_rfl

theorem WellFormed.dupctx {w w' : World} (hw : WellFormed w) {o : DupctxCalls} {c : Addr}
    {r : Option Addr} (h : cngSignatureDupctx o c w = some (r, w')) : WellFormed w' := by
  obtain ⟨old, hold, ⟨_, _, rfl | rfl⟩ | ⟨obj, key, v, _, hdup, hcase⟩⟩ := dupctx_cases h
  · exact hw
  · exact hw.addCtx rfl
  · have hv : WellFormed ((w.addCtx ⟨old.provctx, old.propq, none, none, none, 0, 0⟩).addHash
        (.duplicateHash (w.next + 1)) obj) := (hw.addCtx rfl).addHash _ _
    obtain ⟨_, hnext, _, _, _⟩ := frame_keymgmt_dup hv.fresh hdup
    have hsig : v.sigctx = ((w.addCtx ⟨old.provctx, old.propq, none, none, none, 0, 0⟩).addHash
        (.duplicateHash (w.next + 1)) obj).sigctx := by
      rcases keymgmt_dup_cases hv.fresh hdup with ⟨_, rfl | rfl⟩ | ⟨_, _, _, _, _, _, _, rfl⟩
      all_goals rfl
    have hlast : w.next + 1 < v.next := hnext
    -- the new hash is younger than any that a context has
    have hattach : ∀ x : SignatureCtx, x.hashHandle = some (w.next + 1) →
        WellFormed (v.setCtx w.next (some x)) := by
      intro x hx
      refine (hv.keymgmtDup hdup).setCtx ((Nat.lt_succ_self _).trans hlast) fun y b hy hb => ?_
      cases hy
      rw [hx] at hb
      cases hb
      refine ⟨hlast, fun c' x' hne hx' hb' => ?_⟩
      rw [hsig, World.addHash_sigctx, World.addCtx_sigctx, Function.update_of_ne hne] at hx'
      exact absurd (hw.hash_lt hx' hb') (Nat.not_lt_of_le (Nat.le_succ _))
    rcases hcase with ⟨_, _, _, rfl⟩ | ⟨_, _, rfl⟩ <;> exact hattach _ rfl

theorem WellFormed.callCtx {w w' : World} (hw : WellFormed w) {c : Addr} {e : CtxCall} {r : Reply}
    (h : callCtx c e w = some (r, w')) : WellFormed w' := by
  have h' := call_ctx_cases h
  cases e with
  | init o mdname provkey =>
    obtain ⟨_, _, h'⟩ := h'
    obtain ⟨ctx, hctx, ⟨alg, _, _, rfl⟩ | ⟨_, _, rfl⟩⟩ := init_cases h'
    · refine (hw.addHash _ _).setCtx (Nat.lt_succ_of_lt (hw.fresh.sigctx_lt hctx)) ?_
      intro x b hx hb
      cases hx
      cases hb
      exact ⟨Nat.lt_succ_self _, fun c' x' _ hx' hb' => Nat.lt_irrefl _ (hw.hash_lt hx' hb')⟩
    · exact hw.updateCtx hctx rfl
  | update hashData data =>
    obtain ⟨_, _, h'⟩ := h'
    obtain ⟨ctx, hctx, ⟨_, rfl⟩ | ⟨b, obj, _, hb, _, _, rfl⟩⟩ := update_cases h'
    · exact hw
    · exact hw.setHash (hw.fresh.hash_lt hb) _
  | setParams o params =>
    obtain ⟨_, _, h'⟩ := h'
    rcases set_params_frame h' with rfl | ⟨ctx, _, _, hctx, rfl⟩
    · exact hw
    · exact hw.updateCtx hctx rfl
  | final o sig siglen sigsize =>
    obtain ⟨_, _, h'⟩ := h'
    obtain ⟨ctx, hctx, ⟨rfl, _⟩ | ⟨b, obj, _, hb, _, _, rfl, _⟩⟩ := final_cases h'
    · exact hw
    · exact hw.setHash (hw.fresh.hash_lt hb) _
  | dup o =>
    obtain ⟨_, _, h'⟩ := h'
    exact hw.dupctx h'
  | free =>
    obtain ⟨_, h'⟩ := h'
    obtain ⟨ctx, hctx, rfl⟩ := freectx_cases h'
    exact (hw.destroyHash _).setCtx (hw.fresh.sigctx_lt hctx) (fun _ _ hx => nomatch hx)

/-- A call on one context, other than a duplication, leaves every other context, its hash
and all keys alone. -/
theorem call_ctx_frame {w w' : World} (hw : WellFormed w) {c d : Addr} {e : CtxCall} {r : Reply}
    (he : ∀ o, e ≠ .dup o) (hcd : d ≠ c) (h : callCtx c e w = some (r, w')) :
    w'.sigctx d = w.sigctx d ∧ w'.keydata = w.keydata ∧ w'.keys = w.keys ∧
      ∀ x b, w.sigctx d = some x → x.hashHandle = some b → w'.hashes b = w.hashes b := by
  have hset : ∀ (v : World) x, (v.setCtx c x).sigctx d = v.sigctx d := fun v x =>
    Function.update_of_ne hcd _ _
  -- the hash of another context has another handle
  have hother : ∀ ctx a, w.sigctx c = some ctx → ctx.hashHandle = some a →
      ∀ x b, w.sigctx d = some x → x.hashHandle = some b → b ≠ a := by
    rintro ctx a hctx ha x b hx hb rfl
    exact hcd (hw.hash_unshared hx hctx hb ha)
  have h' := call_ctx_cases h
  cases e with
  | init o mdname provkey =>
    obtain ⟨_, _, h'⟩ := h'
    obtain ⟨ctx, _, ⟨alg, _, _, rfl⟩ | ⟨_, _, rfl⟩⟩ := init_cases h'
    · exact ⟨hset _ _, rfl, rfl, fun x b hx hb => Function.update_of_ne (hw.hash_lt hx hb).ne _ _⟩
    · exact ⟨hset _ _, rfl, rfl, fun _ _ _ _ => rfl⟩
  | update hashData data =>
    obtain ⟨_, _, h'⟩ := h'
    obtain ⟨ctx, hctx, ⟨_, rfl⟩ | ⟨a, obj, ha, _, _, _, rfl⟩⟩ := update_cases h'
    · exact ⟨rfl, rfl, rfl, fun _ _ _ _ => rfl⟩
    · exact ⟨rfl, rfl, rfl, fun x b hx hb =>
        Function.update_of_ne (hother ctx a hctx ha x b hx hb) _ _⟩
  | setParams o params =>
    obtain ⟨_, _, h'⟩ := h'
    rcases set_params_frame h' with rfl | ⟨ctx, _, _, _, rfl⟩
    · exact ⟨rfl, rfl, rfl, fun _ _ _ _ => rfl⟩
    · exact ⟨hset _ _, rfl, rfl, fun _ _ _ _ => rfl⟩
  | final o sig siglen sigsize =>
    obtain ⟨_, _, h'⟩ := h'
    obtain ⟨ctx, hctx, ⟨rfl, _⟩ | ⟨a, obj, ha, _, _, _, rfl, _⟩⟩ := final_cases h'
    · exact ⟨rfl, rfl, rfl, fun _ _ _ _ => rfl⟩
    · exact ⟨rfl, rfl, rfl, fun x b hx hb =>
        Function.update_of_ne (hother ctx a hctx ha x b hx hb) _ _⟩
  | dup o => exact absurd rfl (he o)
  | free =>
    obtain ⟨_, h'⟩ := h'
    obtain ⟨ctx, hctx, rfl⟩ := freectx_cases h'
    refine ⟨hset _ _, rfl, rfl, fun x b hx hb => ?_⟩
    rw [World.setCtx_hashes, World.destroyHash_hashes]
    exact if_neg fun hb' => hother ctx b hctx hb'.symm x b hx hb rfl

def sampleKeys : World :=
  (((((initial.addKeydata.addKeydata).addKey (.openKey 3) ⟨1, [1], 0⟩).setKeydata 1
    (some ⟨3⟩)).addKey (.openKey 4) ⟨1, [2], 0⟩).setKeydata 2 (some ⟨4⟩))

theorem sample_keys_well_formed : WellFormed sampleKeys :=
  ((initial_well_formed.addKeydata.addKeydata).openKey (p := 1) (by decide) _ _).openKey (p := 2)
    (by decide) _ _

def sampleInit : InitCalls := ⟨some ⟨["SHA2-256"]⟩, 0, 0⟩

def sampleContext : World :=
  ((cngSignatureDigestSignInit sampleInit 5 (some "SHA256") (some 1)
    (cngSignatureNewctx true none none sampleKeys).2).map Prod.snd).getD initial

theorem sample_context_well_formed : WellFormed sampleContext :=
  (sample_keys_well_formed.newctx true none none).callCtx
    (show callCtx 5 (.init sampleInit (some "SHA256") (some 1))
      (cngSignatureNewctx true none none sampleKeys).2 = some (.ret 1, sampleContext) from rfl)

end CngSignatureRuns
