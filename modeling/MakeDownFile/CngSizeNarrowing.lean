import MakeDownFile.CngKeyParams
import MakeDownFile.CngSignatureStream
import Mathlib.Data.List.TakeDrop

/-! # Sizes of 64 bits in calls that take 32

The core counts in size_t, BCrypt and NCrypt in ULONG and DWORD. A length of data is cut to
32 bits on the way in, and a reported length is written over the lower half only. -/
namespace CngSizeNarrowing

open CngWorld
open CngKeymgmt
open CngSignature
open CngSignatureRuns
open CngSignatureStream
open CngKeyParams
open TraceRuns

theorem write_dword_exact {old new : ℕ} (hnew : new < 2 ^ 32) :
    writeDword old new = new ↔ old < 2 ^ 32 := by
  have hmod : new % 2 ^ 32 = new := Nat.mod_eq_of_lt hnew
  rw [writeDword, hmod]
  omega

/-- A final that returns 1 reports the length that NCryptSignHash did exactly when the upper
half of the earlier value was zero; both for a size query and for a signature. -/
theorem final_siglen_exact_iff {o : FinalCalls} {c : Addr} {sig : Bool} {siglen sigsize : ℕ}
    {w w' : World} {f : FinalReply}
    (h : cngSignatureDigestSignFinal o c sig siglen sigsize w = some (f, w')) (hret : f.ret = 1)
    (hdword : o.pcbResult < 2 ^ 32) : f.siglen = o.pcbResult ↔ siglen < 2 ^ 32 := by
  rw [final_siglen h hret]
  exact write_dword_exact hdword

theorem final_siglen_exact_iff_sample : ∃ f,
    cngSignatureDigestSignFinal ⟨0, true, 0, true, 0, 256⟩ 5 false 7 0 sampleContext =
      some (f, sampleContext) ∧ (f.siglen = 256 ↔ 7 < 2 ^ 32) :=
  ⟨⟨1, writeDword 7 256, none⟩, rfl, final_siglen_exact_iff
    (show cngSignatureDigestSignFinal ⟨0, true, 0, true, 0, 256⟩ 5 false 7 0 sampleContext =
      some (⟨1, writeDword 7 256, none⟩, sampleContext) from rfl) rfl (by decide)⟩

theorem size_query_keeps_upper_half :
    ¬ ∀ siglen f w', cngSignatureDigestSignFinal ⟨0, true, 0, true, 0, 256⟩ 5 false siglen 0
        sampleContext = some (f, w') → f.ret = 1 → f.siglen = 256 := by
  intro h
  have hlen := h (2 ^ 32) ⟨1, 2 ^ 32 + 256, none⟩ sampleContext rfl rfl
  exact absurd hlen (by decide)

def AbsorbsAll (c : Addr) (w : World) (e : CtxCall) (r : Reply) (w' : World) : Prop :=
  ∀ hashData data ctx b obj, e = .update hashData data → r = .ret 1 →
    w.sigctx c = some ctx → ctx.hashHandle = some b → w.hashes b = some obj →
    w'.hashes b = some { obj with absorbed := obj.absorbed ++ data }

def UpdateFits (c : Addr) (w : World) (e : CtxCall) : Prop :=
  ∀ hashData data ctx, e = .update hashData data → w.sigctx c = some ctx →
    usableHash hashData ctx.hashHandle w ≠ none → data.length < 2 ^ 32

section Updates

variable {c : Addr} {w w' : World}

theorem take_mod_eq {α : Type} {data : List α} {n : ℕ} (hn : 0 < n) :
    data.take (data.length % n) = data ↔ data.length < n := by
  rw [List.take_eq_self_iff]
  constructor
  · intro hle
    exact hle.trans_lt (Nat.mod_lt _ hn)
  · intro hlt
    exact (Nat.mod_eq_of_lt hlt).ge

theorem update_usable {hashData : ℕ} {ctx : SignatureCtx} {b : Handle} {obj : HashObj}
    (data : List UInt8) (hctx : w.sigctx c = some ctx) (hb : ctx.hashHandle = some b)
    (huse : usableHash hashData ctx.hashHandle w = some obj) :
    cngSignatureDigestSignUpdate hashData c data w = some (1, w.setHash b
      { obj with absorbed := obj.absorbed ++ data.take (data.length % 2 ^ 32) }) := by
  rw [hb] at huse
  simp only [cngSignatureDigestSignUpdate, hctx, hb, huse]

theorem absorbs_all_iff {e : CtxCall} {r : Reply} (h : callCtx c e w = some (r, w')) :
    AbsorbsAll c w e r w' ↔ UpdateFits c w e := by
  constructor
  · rintro habsorbs hashData data ctx rfl hctx huse
    obtain ⟨obj, huse⟩ := Option.ne_none_iff_exists'.mp huse
    obtain ⟨b, hb, hobj, _, _⟩ := usable_hash huse
    have hcall := update_usable data hctx hb huse
    simp only [callCtx, hcall, Option.map_some, Option.some.injEq, Prod.mk.injEq] at h
    obtain ⟨rfl, rfl⟩ := h
    have hafter := habsorbs hashData data ctx b obj rfl rfl hctx hb hobj
    rw [World.setHash_hashes, Function.update_self, Option.some.injEq, HashObj.mk.injEq] at hafter
    exact (take_mod_eq (by omega)).mp (List.append_cancel_left hafter.2.1)
  · rintro hfits hashData data ctx b obj rfl rfl hctx hb hobj
    obtain ⟨i, hi, hcall⟩ := call_ctx_cases h
    cases hi
    unfold cngSignatureDigestSignUpdate at hcall
    rw [hctx] at hcall
    simp only at hcall
    split at hcall
    · rename_i b' obj' hb' huse
      cases hb.symm.trans hb'
      obtain ⟨b', hb', hobj', _, _⟩ := usable_hash huse
      cases hb.symm.trans hb'
      cases hobj.symm.trans hobj'
      cases hcall
      have hlt := hfits hashData data ctx rfl hctx (by rw [huse]; exact Option.some_ne_none _)
      rw [World.setHash_hashes, Function.update_self, (take_mod_eq (by omega)).mpr hlt]
    · cases hcall

/-- Over every run, all accepted updates absorb their data exactly when each is short
enough for a ULONG. -/
theorem along_absorbs_iff (es : List CtxCall) :
    Along (callCtx c) (fun _ v e r v' => AbsorbsAll c v e r v') [] es w ↔
      Along (callCtx c) (fun _ v e _ _ => UpdateFits c v e) [] es w := by
  refine along_congr (P := fun _ _ => True) ?_ trivial
  intro e _ hist v r v' _ hstep
  exact ⟨absorbs_all_iff hstep, fun _ => trivial⟩

def updates (us : List (ℕ × List UInt8)) : List CtxCall := us.map fun u => .update u.1 u.2

theorem updates_message (us : List (ℕ × List UInt8)) :
    message (updates us) = us.flatMap Prod.snd := by
  simp only [message, updates, List.flatMap_map, chunk]

/-- Accepted updates that fit leave the whole message in the hash. -/
theorem updates_absorbed {us : List (ℕ × List UInt8)} {rs : List Reply} {ctx : SignatureCtx}
    {b : Handle} {obj : HashObj} (hctx : w.sigctx c = some ctx) (hb : ctx.hashHandle = some b)
    (hobj : w.hashes b = some obj) (hfit : ∀ u ∈ us, u.2.length < 2 ^ 32)
    (hrun : run (callCtx c) (updates us) w = some (rs, w')) (hacc : ∀ r ∈ rs, r = .ret 1) :
    w'.hashes b = some { obj with absorbed := obj.absorbed ++ message (updates us) } := by
  induction us generalizing w rs obj with
  | nil =>
    cases hrun
    simpa [updates, message] using hobj
  | cons u us ih =>
    obtain ⟨r, v, rs', hstep, htail, rfl⟩ := run_cons.mp hrun
    obtain rfl := hacc r List.mem_cons_self
    have hfits : UpdateFits c w (.update u.1 u.2) := by
      rintro hashData data _ ⟨⟩ _ _
      exact hfit u List.mem_cons_self
    have hafter := (absorbs_all_iff hstep).mpr hfits u.1 u.2 ctx b obj rfl rfl hctx hb hobj
    have hctx' : v.sigctx c = some ctx := by
      obtain ⟨i, _, hcall⟩ := call_ctx_cases hstep
      obtain ⟨x, _, ⟨_, rfl⟩ | ⟨_, _, _, _, _, _, rfl⟩⟩ := update_cases hcall <;> exact hctx
    have hrest := ih hctx' hafter (fun x hx => hfit x (List.mem_cons_of_mem _ hx)) htail
      fun x hx => hacc x (List.mem_cons_of_mem _ hx)
    rw [updates_message] at hrest ⊢
    rw [hrest, List.flatMap_cons, List.append_assoc]

end Updates

/-- Every run of calls on a context absorbs the data of its accepted updates exactly when
these are below 2^32 bytes; such updates never leave a hash in one state for two messages,
whether or not one is a prefix of the other. -/
theorem updates_absorb_all_iff (c : Addr) (w : World) (es : List CtxCall) :
    (Along (callCtx c) (fun _ v e r v' => AbsorbsAll c v e r v') [] es w ↔
      Along (callCtx c) (fun _ v e _ _ => UpdateFits c v e) [] es w) ∧
    ∀ us us' rs rs' v v' ctx b obj, w.sigctx c = some ctx → ctx.hashHandle = some b →
      w.hashes b = some obj → (∀ u ∈ us ++ us', u.2.length < 2 ^ 32) →
      run (callCtx c) (updates us) w = some (rs, v) →
      run (callCtx c) (updates us') w = some (rs', v') → (∀ r ∈ rs ++ rs', r = .ret 1) →
      message (updates us) ≠ message (updates us') → v.hashes b ≠ v'.hashes b := by
  refine ⟨along_absorbs_iff es, ?_⟩
  intro us us' rs rs' v v' ctx b obj hctx hb hobj hfit hrun hrun' hacc hne hsame
  rw [updates_absorbed hctx hb hobj (fun u hu => hfit u (List.mem_append_left _ hu)) hrun
      fun r hr => hacc r (List.mem_append_left _ hr),
    updates_absorbed hctx hb hobj (fun u hu => hfit u (List.mem_append_right _ hu)) hrun'
      fun r hr => hacc r (List.mem_append_right _ hr),
    Option.some.injEq, HashObj.mk.injEq] at hsame
  exact hne (List.append_cancel_left hsame.2.1)

/-- 2^32 bytes: the ULONG is 0, nothing is hashed, and the update returns 1. -/
theorem update_of_4_gib_absorbs_nothing :
    ¬ Along (callCtx 5) (fun _ v e r v' => AbsorbsAll 5 v e r v') []
      [.update 0 (List.replicate (2 ^ 32) 0)] sampleContext := by
  intro h
  have hctx : sampleContext.sigctx 5 = some ⟨none, none, some .sha256, some 1, some 6, 0, 0⟩ := rfl
  have huse : usableHash 0 (some 6) sampleContext = some ⟨.sha256, [], false⟩ := rfl
  have hcall := update_usable (List.replicate (2 ^ 32) 0) hctx rfl huse
  obtain ⟨v, hstep⟩ : ∃ v, callCtx 5 (.update 0 (List.replicate (2 ^ 32) 0)) sampleContext =
      some (.ret 1, v) := ⟨_, by rw [callCtx, hcall, Option.map_some]⟩
  have hlt := (absorbs_all_iff hstep).mp (h _ _ hstep).1 0 _ _ rfl hctx
    (Option.ne_none_iff_exists'.mpr ⟨_, huse⟩)
  rw [List.length_replicate] at hlt
  exact absurd hlt (lt_irrefl _)

end CngSizeNarrowing
